import Mathlib.Data.List.Chain
import TapeLang.Proofs.Tightening

/-!
# TapeLang.Proofs.Squeezing — the peephole pass on a forest

`squeeze` does to a forest what `Peephole.shrink` does to a list, loop by
loop and without a window: it merges neighbours, and it replaces a loop
around one leaf. Its distances are 64-bit words, so adding them up loses
nothing that the head could see.

* `tightens_squeeze` — the squeezed forest does the same in no more steps;
* `squeeze_tidy` — no two neighbours in it can be merged.
-/

namespace TapeLang

/-! ## Merging and collapsing trees -/

/-- The one tree that replaces two neighbours, if there is one. -/
def Tree.merge? : Tree → Tree → Option Tree
  | .leaf (.move a), .leaf (.move b) => some (.leaf (.move (a + b)))
  | .leaf (.add a), .leaf (.add b) => some (.leaf (.add (a + b)))
  | .leaf (.set v), .leaf (.add m) => some (.leaf (.set (v + m)))
  | _, _ => none

/-- One more tree behind a forest, whose last tree comes first in the
list. -/
def Tree.attach (acc : List Tree) (t : Tree) : List Tree :=
  match acc with
  | [] => [t]
  | last :: before =>
    match Tree.merge? last t with
    | some u => u :: before
    | none => t :: last :: before

theorem Tree.attach_of_merge {last t u : Tree} (h : Tree.merge? last t = some u)
    (before : List Tree) : Tree.attach (last :: before) t = u :: before := by
  simp [Tree.attach, h]

theorem Tree.attach_of_not_merge {last t : Tree} (h : Tree.merge? last t = none)
    (before : List Tree) : Tree.attach (last :: before) t = t :: last :: before := by
  simp [Tree.attach, h]

/-- The tree of a loop around `body`. -/
def Tree.collapse : List Tree → Tree
  | [.leaf (.add n)] => if n = -1 then .leaf (.set 0) else .loop [.leaf (.add n)]
  | [.leaf (.move k)] => .seek k
  | body => .loop body

/-- What a loop can become. -/
theorem Tree.collapse_cases (body : List Tree) :
    (body = [.leaf (.add (-1))] ∧ Tree.collapse body = .leaf (.set 0)) ∨
      (∃ k, body = [.leaf (.move k)] ∧ Tree.collapse body = .seek k) ∨
      Tree.collapse body = .loop body := by
  unfold Tree.collapse
  split
  · split
    · rename_i hn
      exact Or.inl ⟨by rw [hn], rfl⟩
    · exact Or.inr (Or.inr rfl)
  · exact Or.inr (Or.inl ⟨_, rfl, rfl⟩)
  · exact Or.inr (Or.inr rfl)

mutual

/-- A tree with the bodies of its loops squeezed. -/
def Tree.squeeze : Tree → Tree
  | .leaf op => .leaf op
  | .seek k => .seek k
  | .loop body => Tree.collapse (squeezeOnto [] body).reverse

/-- The forest `trees` squeezed and put behind `acc`, last tree first. -/
def squeezeOnto : List Tree → List Tree → List Tree
  | acc, [] => acc
  | acc, t :: trees => squeezeOnto (Tree.attach acc t.squeeze) trees

end

/-- A forest with its neighbours merged and its idioms replaced. -/
def squeeze (trees : List Tree) : List Tree :=
  (squeezeOnto [] trees).reverse

section Tightening

variable {σ : Type} [Writer σ]

/-- Merged trees do the same as the two they replace. -/
theorem tightens_merge {t u v : Tree} (h : Tree.merge? t u = some v) :
    Tightens σ [t, u] [v] := by
  unfold Tree.merge? at h
  split at h
  · cases h
    exact tightens_moves _ _
  · cases h
    exact tightens_adds _ _
  · cases h
    exact tightens_set_add _ _
  · cases h

theorem tightens_attach (acc : List Tree) (t : Tree) :
    Tightens σ (acc.reverse ++ [t]) (Tree.attach acc t).reverse := by
  cases acc with
  | nil => exact Tightens.refl _
  | cons last before =>
      cases hmerge : Tree.merge? last t with
      | some u =>
          -- only the last two trees change
          have hpair := (Tightens.refl before.reverse).append (tightens_merge (σ := σ) hmerge)
          rw [Tree.attach_of_merge hmerge]
          simpa using hpair
      | none =>
          have hsame := Tightens.refl (σ := σ) (before.reverse ++ [last, t])
          rw [Tree.attach_of_not_merge hmerge]
          simpa using hsame

/-- The tree of a loop does the same as the loop. -/
theorem tightens_collapse (body : List Tree) : Tightens σ [.loop body] [Tree.collapse body] := by
  rcases Tree.collapse_cases body with ⟨rfl, hset⟩ | ⟨k, rfl, hseek⟩ | hloop
  · rw [hset]
    exact tightens_clear
  · rw [hseek]
    exact tightens_scan k
  · rw [hloop]
    exact Tightens.refl _

mutual

theorem Tree.tightens_squeeze : (t : Tree) → Tightens σ [t] [t.squeeze]
  | .leaf op => Tightens.refl _
  | .seek k => Tightens.refl _
  | .loop body => by
      have hbody := tightens_squeezeOnto [] body
      rw [Tree.squeeze]
      exact (Tightens.loop hbody).trans (tightens_collapse _)

theorem tightens_squeezeOnto : (acc trees : List Tree) →
    Tightens σ (acc.reverse ++ trees) (squeezeOnto acc trees).reverse
  | acc, [] => by
      rw [squeezeOnto, List.append_nil]
      exact Tightens.refl _
  | acc, t :: trees => by
      -- first the tree itself, then its place at the end, then the rest
      have hsqueeze : Tightens σ (acc.reverse ++ [t]) (acc.reverse ++ [t.squeeze]) :=
        (Tightens.refl _).append t.tightens_squeeze
      have hattach := hsqueeze.trans (tightens_attach acc t.squeeze)
      have hfront := hattach.append (Tightens.refl trees)
      have hrest := tightens_squeezeOnto (Tree.attach acc t.squeeze) trees
      rw [squeezeOnto]
      simpa using hfront.trans hrest

end

/-- The squeezed forest does the same in no more steps. -/
theorem tightens_squeeze (trees : List Tree) : Tightens σ trees (squeeze trees) := by
  simpa [squeeze] using tightens_squeezeOnto [] trees

end Tightening

/-! ## Tidiness -/

/-- No two neighbours in the bodies of a tree can be merged. -/
inductive Tree.Tidy : Tree → Prop where
  | leaf (op : Leaf) : Tree.Tidy (.leaf op)
  | seek (k : Int64) : Tree.Tidy (.seek k)
  | loop {body : List Tree} (hbody : ∀ t ∈ body, t.Tidy)
      (hchain : body.IsChain fun t u => Tree.merge? t u = none) : Tree.Tidy (.loop body)

/-- No two neighbours in a forest can be merged, inside its loops or
outside. -/
structure Tidy (trees : List Tree) : Prop where
  each : ∀ t ∈ trees, t.Tidy
  chain : trees.IsChain fun t u => Tree.merge? t u = none

/-- A merged tree is a leaf, and merges with what stands before it only if
its first part does. -/
theorem Tree.merge?_spec {last t u : Tree} (h : Tree.merge? last t = some u) :
    u.Tidy ∧ ∀ before : Tree, Tree.merge? before last = none → Tree.merge? before u = none := by
  unfold Tree.merge? at h
  split at h <;> cases h
  all_goals
    refine ⟨Tree.Tidy.leaf _, ?_⟩
    intro before hbefore
    unfold Tree.merge? at hbefore ⊢
    split at hbefore <;> simp_all

theorem Tidy.attach {acc : List Tree} {t : Tree} (hacc : Tidy acc.reverse) (ht : t.Tidy) :
    Tidy (Tree.attach acc t).reverse := by
  have heach : ∀ u ∈ acc, u.Tidy := by
    intro u hu
    exact hacc.each u (by simpa using hu)
  have hchain := List.isChain_reverse.mp hacc.chain
  cases acc with
  | nil =>
      refine ⟨?_, by simp [Tree.attach]⟩
      intro u hu
      have hut : u = t := by simpa [Tree.attach] using hu
      rw [hut]
      exact ht
  | cons last before =>
      have hbefore : ∀ u ∈ before, u.Tidy := by
        intro u hu
        exact heach u (by simp [hu])
      cases hmerge : Tree.merge? last t with
      | some u =>
          rcases Tree.merge?_spec hmerge with ⟨hu, hkeep⟩
          rw [Tree.attach_of_merge hmerge]
          constructor
          · intro v hv
            have hcases : v ∈ before ∨ v = u := by simpa using hv
            rcases hcases with hold | rfl
            · exact hbefore v hold
            · exact hu
          · apply List.isChain_reverse.mpr
            cases before with
            | nil => simp
            | cons first before =>
                -- the merged tree meets what `last` has met
                have hpair := List.isChain_cons_cons.mp hchain
                exact List.isChain_cons_cons.mpr ⟨hkeep first hpair.1, hpair.2⟩
      | none =>
          rw [Tree.attach_of_not_merge hmerge]
          constructor
          · intro v hv
            have hcases : (v ∈ before ∨ v = last) ∨ v = t := by simpa [or_assoc] using hv
            rcases hcases with (hold | rfl) | rfl
            · exact hbefore v hold
            · exact heach v (by simp)
            · exact ht
          · apply List.isChain_reverse.mpr
            exact List.isChain_cons_cons.mpr ⟨hmerge, hchain⟩

theorem Tidy.collapse {body : List Tree} (hbody : Tidy body) : (Tree.collapse body).Tidy := by
  rcases Tree.collapse_cases body with ⟨_, hset⟩ | ⟨k, _, hseek⟩ | hloop
  · rw [hset]
    exact Tree.Tidy.leaf _
  · rw [hseek]
    exact Tree.Tidy.seek k
  · rw [hloop]
    exact Tree.Tidy.loop hbody.each hbody.chain

mutual

theorem Tree.squeeze_tidy : (t : Tree) → t.squeeze.Tidy
  | .leaf op => by
      rw [Tree.squeeze]
      exact Tree.Tidy.leaf op
  | .seek k => by
      rw [Tree.squeeze]
      exact Tree.Tidy.seek k
  | .loop body => by
      have hnil : Tidy ([] : List Tree).reverse := ⟨by simp, by simp⟩
      rw [Tree.squeeze]
      exact (squeezeOnto_tidy [] body hnil).collapse

theorem squeezeOnto_tidy : (acc trees : List Tree) → Tidy acc.reverse →
    Tidy (squeezeOnto acc trees).reverse
  | acc, [], hacc => by
      rw [squeezeOnto]
      exact hacc
  | acc, t :: trees, hacc => by
      rw [squeezeOnto]
      exact squeezeOnto_tidy _ trees (hacc.attach t.squeeze_tidy)

end

/-- No two neighbours in a squeezed forest can be merged. -/
theorem squeeze_tidy (trees : List Tree) : Tidy (squeeze trees) :=
  squeezeOnto_tidy [] trees ⟨by simp, by simp⟩

end TapeLang
