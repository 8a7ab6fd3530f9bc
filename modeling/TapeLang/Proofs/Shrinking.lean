import TapeLang.Peephole
import TapeLang.Proofs.Squeezing

/-!
# TapeLang.Proofs.Shrinking — the peephole pass squeezes the forest

The pass over a list works with a window of two instructions, and it adds up
operands in 32 bits. The window loses nothing; the 32 bits cut distances.

* `shrink_eq_foldl_settle` — the pass does what it would do if it could
  look back at everything emitted so far;
* `settle_cases` — all that can become of one instruction then;
* `Nests.shrink` — the forest of the shrunk list is the squeezed forest of
  the list, with its distances cut to 32 bits.
-/

namespace TapeLang

/-! ## Without a window -/

namespace Peephole

/-- One more instruction behind the list `out`, whose last instruction comes
first. -/
def settle (out : List Instruction) (c : Instruction) : List Instruction :=
  match out with
  | [] => [c]
  | b :: rest =>
    match merge b c with
    | some d => d :: rest
    | none =>
      match rest with
      | [] => [c, b]
      | a :: before =>
        match collapse a b c with
        | some d => d :: before
        | none => c :: b :: a :: before

/-- Whether an instruction may be what a loop has become. -/
def isIdiom : Instruction → Bool
  | .set _ | .seek _ => true
  | _ => false

theorem isIdiom_of_collapse {a b c d : Instruction} (h : collapse a b c = some d) :
    isIdiom d = true := by
  unfold collapse at h
  split at h
  · split at h <;> cases h
    rfl
  · cases h
    rfl
  · cases h

theorem isIdiom_of_merge {b c d : Instruction} (h : merge b c = some d)
    (hb : isIdiom b = true) : isIdiom d = true := by
  unfold merge at h
  split at h <;> cases h <;> first | rfl | exact hb

/-- No loop is closed around what a loop has become. -/
theorem collapse_of_isIdiom {b : Instruction} (hb : isIdiom b = true) (a c : Instruction) :
    collapse a b c = none := by
  unfold collapse
  split
  · cases hb
  · cases hb
  · rfl

/-- What the window must not have forgotten: an instruction that stands
alone in it has nothing before it, or it is what a loop has become. -/
def Pass.Ready (s : Pass) : Prop :=
  match s.window with
  | .empty => s.emitted = #[]
  | .one b => s.emitted = #[] ∨ isIdiom b = true
  | .two _ _ => True

/-- One step of the pass settles one instruction, and the window is ready
for the next one. -/
theorem Pass.push_settles {s : Pass} (hs : s.Ready) (c : Instruction) :
    (s.push c).Ready ∧ (s.push c).finish.reverse = settle s.finish.reverse c := by
  rcases s with ⟨emitted, window⟩
  cases window with
  | empty =>
      have hnil : emitted = #[] := hs
      subst hnil
      exact ⟨Or.inl rfl, rfl⟩
  | one b =>
      have hb : emitted = #[] ∨ isIdiom b = true := hs
      cases hmerge : merge b c with
      | some d =>
          have hpush : (Pass.mk emitted (.one b)).push c = ⟨emitted, .one d⟩ := by
            simp [Pass.push, Window.push, hmerge]
          rw [hpush]
          refine ⟨hb.imp_right (isIdiom_of_merge hmerge), ?_⟩
          simp [Pass.finish, Window.toList, settle, hmerge]
      | none =>
          have hpush : (Pass.mk emitted (.one b)).push c = ⟨emitted, .two b c⟩ := by
            simp [Pass.push, Window.push, hmerge]
          rw [hpush]
          refine ⟨trivial, ?_⟩
          simp only [Pass.finish, Window.toList, List.reverse_append, List.reverse_cons,
            List.reverse_nil, List.nil_append, List.singleton_append, settle, hmerge]
          -- what stands before `b` in the whole output does not matter
          cases hrest : emitted.toList.reverse with
          | nil => rfl
          | cons a before =>
              have hidiom : isIdiom b = true := by
                rcases hb with hnil | hidiom
                · simp [hnil] at hrest
                · exact hidiom
              simp [collapse_of_isIdiom hidiom]
  | two a b =>
      cases hmerge : merge b c with
      | some d =>
          have hpush : (Pass.mk emitted (.two a b)).push c = ⟨emitted, .two a d⟩ := by
            simp [Pass.push, Window.push, hmerge]
          rw [hpush]
          refine ⟨trivial, ?_⟩
          simp [Pass.finish, Window.toList, settle, hmerge]
      | none =>
          cases hcollapse : collapse a b c with
          | some d =>
              have hpush : (Pass.mk emitted (.two a b)).push c = ⟨emitted, .one d⟩ := by
                simp [Pass.push, Window.push, hmerge, hcollapse]
              rw [hpush]
              refine ⟨Or.inr (isIdiom_of_collapse hcollapse), ?_⟩
              simp [Pass.finish, Window.toList, settle, hmerge, hcollapse]
          | none =>
              -- the window moves on by one, and `a` is out of reach from now on
              have hpush : (Pass.mk emitted (.two a b)).push c =
                  ⟨emitted.push a, .two b c⟩ := by
                simp [Pass.push, Window.push, hmerge, hcollapse]
              rw [hpush]
              refine ⟨trivial, ?_⟩
              simp [Pass.finish, Window.toList, settle, hmerge, hcollapse]

/-- The pass settles the instructions of a list one after another. -/
theorem shrink_eq_foldl_settle (ops : List Instruction) :
    shrink ops = (ops.foldl settle []).reverse := by
  -- from any window that is ready, pushing and flushing comes to the same as settling
  have hpass : ∀ s : Pass, s.Ready →
      (ops.foldl Pass.push s).finish.reverse = ops.foldl settle s.finish.reverse := by
    induction ops with
    | nil => intro s _; rfl
    | cons c ops ih =>
        intro s hs
        rcases Pass.push_settles hs c with ⟨hready, hsettle⟩
        simp only [List.foldl_cons]
        rw [ih _ hready, hsettle]
  have hstart := hpass {} rfl
  unfold shrink
  rw [← List.reverse_reverse (ops.foldl Pass.push {}).finish, hstart]
  rfl

theorem settle_merge {b c d : Instruction} (h : merge b c = some d) (rest : List Instruction) :
    settle (b :: rest) c = d :: rest := by
  simp [settle, h]

theorem settle_collapse {a b c d : Instruction} (hmerge : merge b c = none)
    (h : collapse a b c = some d) (rest : List Instruction) :
    settle (b :: a :: rest) c = d :: rest := by
  simp [settle, hmerge, h]

/-- An instruction that fits neither rule stays. -/
theorem settle_keep {out : List Instruction} {c : Instruction}
    (hmerge : ∀ b rest, out = b :: rest → merge b c = none)
    (hcollapse : ∀ a b rest, out = b :: a :: rest → collapse a b c = none) :
    settle out c = c :: out := by
  cases out with
  | nil => rfl
  | cons b out =>
      have hb := hmerge b out rfl
      cases out with
      | nil => simp [settle, hb]
      | cons a rest =>
          have ha := hcollapse a b rest rfl
          simp [settle, hb, ha]

/-- Settling an instruction keeps it behind the others, or merges it into
the last of them, or replaces the loop that it closes. -/
theorem settle_cases (out : List Instruction) (c : Instruction) :
    ((∀ b rest, out = b :: rest → merge b c = none) ∧
      (∀ a b rest, out = b :: a :: rest → collapse a b c = none) ∧ settle out c = c :: out) ∨
    (∃ b rest d, out = b :: rest ∧ merge b c = some d ∧ settle out c = d :: rest) ∨
    ∃ a b rest d, out = b :: a :: rest ∧ collapse a b c = some d ∧ settle out c = d :: rest := by
  cases out with
  | nil => exact Or.inl ⟨by simp, by simp, rfl⟩
  | cons b out =>
      cases hmerge : merge b c with
      -- a merge is tried first
      | some d => exact Or.inr (Or.inl ⟨b, out, d, rfl, hmerge, settle_merge hmerge out⟩)
      | none =>
          cases out with
          | nil =>
              have hkeep : settle [b] c = [c, b] := settle_keep (by simp [hmerge]) (by simp)
              exact Or.inl ⟨by simp [hmerge], by simp, hkeep⟩
          | cons a rest =>
              cases hcollapse : collapse a b c with
              | some d =>
                  have hd := settle_collapse hmerge hcollapse rest
                  exact Or.inr (Or.inr ⟨a, b, rest, d, rfl, hcollapse, hd⟩)
              | none =>
                  have hkeep : settle (b :: a :: rest) c = c :: b :: a :: rest :=
                    settle_keep (by simp [hmerge]) (by simp [hcollapse])
                  exact Or.inl ⟨by simp [hmerge], by simp [hcollapse], hkeep⟩

theorem shrink_concat (ops : List Instruction) (c : Instruction) :
    shrink (ops ++ [c]) = (settle (shrink ops).reverse c).reverse := by
  simp [shrink_eq_foldl_settle]

/-- What settling an instruction leaves is old, or the instruction, or what
one of the rules has made. -/
theorem mem_settle {out : List Instruction} {c op : Instruction} (h : op ∈ settle out c) :
    op ∈ out ∨ op = c ∨ (∃ b, merge b c = some op) ∨ ∃ a b, collapse a b c = some op := by
  rcases settle_cases out c with ⟨_, _, hkeep⟩ | ⟨b, rest, d, rfl, hmerge, hd⟩ |
    ⟨a, b, rest, d, rfl, hcollapse, hd⟩
  · rw [hkeep] at h
    rcases List.mem_cons.mp h with rfl | hold
    · exact Or.inr (Or.inl rfl)
    · exact Or.inl hold
  · rw [hd] at h
    rcases List.mem_cons.mp h with rfl | hold
    · exact Or.inr (Or.inr (Or.inl ⟨b, hmerge⟩))
    · exact Or.inl (List.mem_cons_of_mem b hold)
  · rw [hd] at h
    rcases List.mem_cons.mp h with rfl | hold
    · exact Or.inr (Or.inr (Or.inr ⟨a, b, hcollapse⟩))
    · exact Or.inl (by simp [hold])

/-- Neighbours that merge are no brackets, and what they become is none. -/
theorem flat_of_merge {b c d : Instruction} (h : merge b c = some d) :
    (b.isOpen = false ∧ b.isClose = false) ∧ (c.isOpen = false ∧ c.isClose = false) ∧
      d.isOpen = false ∧ d.isClose = false := by
  unfold merge at h
  split at h <;> cases h <;> simp [Instruction.isOpen, Instruction.isClose]

/-- A loop that collapses is a pair of brackets around something flat, and
what it becomes is flat. -/
theorem brackets_of_collapse {a b c d : Instruction}
    (h : collapse a b c = some d) :
    (∃ i, a = .loopOpen i) ∧ (b.isOpen = false ∧ b.isClose = false) ∧ (∃ j, c = .loopClose j) ∧
      d.isOpen = false ∧ d.isClose = false := by
  unfold collapse at h
  split at h
  · split at h <;> cases h
    exact ⟨⟨_, rfl⟩, ⟨rfl, rfl⟩, ⟨_, rfl⟩, rfl, rfl⟩
  · cases h
    exact ⟨⟨_, rfl⟩, ⟨rfl, rfl⟩, ⟨_, rfl⟩, rfl, rfl⟩
  · cases h

/-- Only a closing bracket closes a loop. -/
theorem collapse_of_not_close {a b c : Instruction} (hc : c.isClose = false) :
    collapse a b c = none := by
  unfold collapse
  split
  · cases hc
  · cases hc
  · rfl

/-- Only an opening bracket opens one. -/
theorem collapse_of_not_open {a b c : Instruction} (ha : a.isOpen = false) :
    collapse a b c = none := by
  unfold collapse
  split
  · cases ha
  · cases ha
  · rfl

end Peephole

/-! ## Distances cut to 32 bits -/

/-- A distance as a 32-bit operand holds it. -/
def narrowed (k : Int64) : Int64 := k.toInt32.toInt64

@[simp] theorem narrowed_toInt64 (n : Int32) : narrowed n.toInt64 = n.toInt64 := by
  simp [narrowed]

mutual

/-- A tree with its distances cut to 32 bits. -/
def Tree.narrow : Tree → Tree
  | .leaf (.move k) => .leaf (.move (narrowed k))
  | .leaf op => .leaf op
  | .seek k => .seek (narrowed k)
  | .loop body => .loop (narrow body)

/-- A forest with its distances cut to 32 bits. -/
def narrow : List Tree → List Tree
  | [] => []
  | t :: trees => t.narrow :: narrow trees

end

@[simp] theorem narrow_nil : narrow [] = [] := by
  rw [narrow]

@[simp] theorem narrow_cons (t : Tree) (trees : List Tree) :
    narrow (t :: trees) = t.narrow :: narrow trees := by
  rw [narrow]

@[simp] theorem narrow_append (xs ys : List Tree) :
    narrow (xs ++ ys) = narrow xs ++ narrow ys := by
  induction xs with
  | nil => simp
  | cons x xs ih => simp [ih]

/-- An instruction has a tree that is narrow already. -/
theorem Tree.narrow_ofInstruction? {op : Instruction} {t : Tree}
    (h : Tree.ofInstruction? op = some t) : t.narrow = t := by
  cases op <;> simp [Tree.ofInstruction?] at h <;> subst h <;> simp [Tree.narrow]

/-- Adding up operands cuts the sum of the distances. -/
theorem narrowed_add_toInt64 {k : Int64} {n : Int32} (h : n.toInt64 = narrowed k) (m : Int32) :
    (n + m).toInt64 = narrowed (k + m.toInt64) := by
  have hn : k.toInt32 = n := by
    have hcut := congrArg Int64.toInt32 h
    simpa [narrowed] using hcut.symm
  simp [narrowed, hn]

/-- Trees merge exactly if the instructions do that spell them, and the
merged instruction spells the merged tree. -/
theorem Tree.merge?_spelled {b c : Instruction} {last t : Tree}
    (hb : Tree.ofInstruction? b = some last.narrow) (hc : Tree.ofInstruction? c = some t) :
    (∃ u d, Tree.merge? last t = some u ∧ Peephole.merge b c = some d ∧
      Tree.ofInstruction? d = some u.narrow) ∨
    (Tree.merge? last t = none ∧ Peephole.merge b c = none) := by
  cases last with
  | leaf op =>
      cases op <;> cases b <;> simp [Tree.narrow, Tree.ofInstruction?] at hb
      -- only distances are cut, so two moves are the one case in which spelling matters
      case move.move k n =>
        cases c <;> simp [Tree.ofInstruction?] at hc <;> subst hc
        case move m =>
          refine Or.inl ⟨_, _, rfl, rfl, ?_⟩
          simp [Tree.ofInstruction?, Tree.narrow, narrowed_add_toInt64 hb]
        all_goals exact Or.inr ⟨rfl, rfl⟩
      all_goals
        cases c <;> simp [Tree.ofInstruction?] at hc <;> subst hc
      all_goals first
        | exact Or.inr ⟨rfl, rfl⟩
        | exact Or.inl ⟨_, _, rfl, rfl, by simp [Tree.ofInstruction?, Tree.narrow, hb]⟩
  | seek k =>
      cases b <;> simp [Tree.narrow, Tree.ofInstruction?] at hb
      exact Or.inr ⟨by simp [Tree.merge?], by simp [Peephole.merge]⟩
  | loop body =>
      rw [Tree.narrow] at hb
      cases b <;> simp [Tree.ofInstruction?] at hb

/-! ## The forest of a shrunk list -/

open Peephole (settle)

/-- An output in which the next instruction finds nothing of its own loop:
there is none, or the loop has just been opened. -/
def Fresh (base : List Instruction) : Prop :=
  base = [] ∨ ∃ i rest, base = .loopOpen i :: rest

/-- A tree that is spelled with brackets merges with nothing behind it. -/
theorem Tree.merge?_of_narrow_loop {last : Tree} {body : List Tree}
    (h : last.narrow = .loop body) (t : Tree) : Tree.merge? last t = none := by
  cases last with
  | leaf op => cases op <;> simp [Tree.narrow] at h
  | seek k => simp [Tree.narrow] at h
  | loop inner => simp [Tree.merge?]

/-- Settling an instruction attaches its tree. -/
theorem settle_attach {m base : List Instruction} {acc : List Tree} {op : Instruction} {t : Tree}
    (hm : Nests m (narrow acc.reverse)) (hbase : Fresh base)
    (hop : Tree.ofInstruction? op = some t) :
    ∃ m', settle (m.reverse ++ base) op = m'.reverse ++ base ∧
      Nests m' (narrow (Tree.attach acc t).reverse) := by
  have hcollapse : ∀ a b, Peephole.collapse a b op = none := by
    intro a b
    exact Peephole.collapse_of_not_close (Tree.not_bracket hop).2
  have htree : Nests [op] [t.narrow] := by
    rw [Tree.narrow_ofInstruction? hop]
    exact Nests.tree hop Nests.nil
  cases acc with
  | nil =>
      have hnil : m = [] := by
        cases hm
        rfl
      subst hnil
      refine ⟨[op], ?_, by simpa [Tree.attach] using htree⟩
      apply Peephole.settle_keep
      · intro b rest hout
        rcases hbase with rfl | ⟨i, rest', rfl⟩
        · cases hout
        · cases hout
          rfl
      · intro a b rest _
        exact hcollapse a b
  | cons last before =>
      simp only [List.reverse_cons, narrow_append, narrow_cons, narrow_nil] at hm
      rcases hm.split with ⟨m₀, m₁, rfl, hm₀, hm₁⟩
      -- nothing changes before the last tree; it is one instruction or a loop
      have hkeep : ∀ b m₂, m₁ = m₂ ++ [b] → Peephole.merge b op = none →
          Tree.merge? last t = none →
          ∃ m', settle ((m₀ ++ m₁).reverse ++ base) op = m'.reverse ++ base ∧
            Nests m' (narrow (Tree.attach (last :: before) t).reverse) := by
        intro b m₂ hm₂ hmerge hattach
        refine ⟨m₀ ++ m₁ ++ [op], ?_, ?_⟩
        · have hout : settle ((m₀ ++ m₁).reverse ++ base) op =
              op :: ((m₀ ++ m₁).reverse ++ base) := by
            apply Peephole.settle_keep
            · intro b' rest hb'
              simp [hm₂] at hb'
              rw [← hb'.1]
              exact hmerge
            · intro a b' rest _
              exact hcollapse a b'
          simpa using hout
        · rw [Tree.attach_of_not_merge hattach]
          simpa using (hm₀.append hm₁).append htree
      generalize hlast : last.narrow = u at hm₁
      cases hm₁ with
      | @tree b _ _ _ hb hnil =>
          cases hnil
          subst hlast
          rcases Tree.merge?_spelled hb hop with ⟨u, d, hu, hd, hspelled⟩ | ⟨hu, hd⟩
          · refine ⟨m₀ ++ [d], ?_, ?_⟩
            · simp [Peephole.settle_merge hd]
            · rw [Tree.attach_of_merge hu]
              simpa using hm₀.append (Nests.tree hspelled Nests.nil)
          · exact hkeep b [] rfl hd hu
      | @loop i j inner _ _ _ hinner hnil =>
          cases hnil
          have hmerge : Peephole.merge (.loopClose j) op = none := rfl
          exact hkeep (.loopClose j) (.loopOpen i :: inner) rfl hmerge
            (Tree.merge?_of_narrow_loop hlast t)

/-- A list that nests does not end in an opening bracket. -/
theorem Nests.last_not_open {front : List Instruction} {op : Instruction} {trees : List Tree}
    (h : Nests (front ++ [op]) trees) : op.isOpen = false := by
  have hfront := h.balanced.1 front (List.prefix_append _ _)
  have htotal := h.balanced.2
  cases op with
  | loopOpen i =>
      simp [List.countP_append, Instruction.isOpen, Instruction.isClose] at htotal
      omega
  | _ => rfl

/-- A loop around several trees, or around another loop, stays. -/
theorem Tree.collapse_eq_loop {before : List Tree} {t : Tree}
    (h : before ≠ [] ∨ ∃ body, t.narrow = .loop body) :
    Tree.collapse (before ++ [t]) = .loop (before ++ [t]) := by
  cases before with
  | cons x before =>
      -- an idiom has a body of one tree
      unfold Tree.collapse
      split
      · simp_all
      · simp_all
      · rfl
  | nil =>
      rcases h with h | ⟨body, hbody⟩
      · exact absurd rfl h
      · -- only a loop is narrowed to a loop
        cases t with
        | leaf op => cases op <;> simp [Tree.narrow] at hbody
        | seek k => simp [Tree.narrow] at hbody
        | loop inner => rfl

/-- A loop around one tree collapses exactly if the brackets around the
instruction do that spells it, and the instruction they become spells the
tree that the loop becomes. -/
theorem Tree.collapse_spelled {b : Instruction} {t : Tree} (i j : Nat)
    (hb : Tree.ofInstruction? b = some t.narrow) :
    (∃ d, Peephole.collapse (.loopOpen i) b (.loopClose j) = some d ∧
      Tree.ofInstruction? d = some (Tree.collapse [t]).narrow) ∨
    (Peephole.collapse (.loopOpen i) b (.loopClose j) = none ∧
      Tree.collapse [t] = .loop [t]) := by
  cases t with
  | leaf op =>
      cases op <;> cases b <;> simp [Tree.narrow, Tree.ofInstruction?] at hb
      case add.add n n' =>
        -- the amount is not narrowed, so both look for `-1`
        subst hb
        by_cases hn : n' = -1
        · left
          refine ⟨.set 0, by simp [Peephole.collapse, hn], ?_⟩
          simp [Tree.collapse, hn, Tree.narrow, Tree.ofInstruction?]
        · right
          simp [Peephole.collapse, Tree.collapse, hn]
      case move.move k n =>
        left
        refine ⟨.seek n, rfl, ?_⟩
        simp [Tree.collapse, Tree.narrow, Tree.ofInstruction?, hb]
      all_goals exact Or.inr ⟨rfl, rfl⟩
  | seek k =>
      cases b <;> simp [Tree.narrow, Tree.ofInstruction?] at hb
      exact Or.inr ⟨rfl, rfl⟩
  | loop body =>
      -- no single instruction spells a loop
      rw [Tree.narrow] at hb
      cases b <;> simp [Tree.ofInstruction?] at hb

/-- Settling a closing bracket collapses the loop that it closes. -/
theorem settle_close {m : List Instruction} {body : List Tree} (i j : Nat)
    (base : List Instruction) (hm : Nests m (narrow body)) :
    ∃ m', settle (m.reverse ++ .loopOpen i :: base) (.loopClose j) = m'.reverse ++ base ∧
      Nests m' [(Tree.collapse body).narrow] := by
  have hmerge : ∀ b, Peephole.merge b (.loopClose j) = none := by
    intro b
    cases b <;> rfl
  -- unless the rule fires, both brackets stay
  have hkeep : Tree.collapse body = .loop body →
      (∀ a b rest, m.reverse ++ .loopOpen i :: base = b :: a :: rest →
        Peephole.collapse a b (.loopClose j) = none) →
      ∃ m', settle (m.reverse ++ .loopOpen i :: base) (.loopClose j) = m'.reverse ++ base ∧
        Nests m' [(Tree.collapse body).narrow] := by
    intro hloop hcollapse
    refine ⟨.loopOpen i :: (m ++ [.loopClose j]), ?_, ?_⟩
    · rw [Peephole.settle_keep (fun b _ _ => hmerge b) hcollapse]
      simp
    · rw [hloop, Tree.narrow]
      exact Nests.loop i j hm Nests.nil
  rcases List.eq_nil_or_concat' body with rfl | ⟨before, t, rfl⟩
  · -- an empty loop
    cases hm
    apply hkeep rfl
    intro a b rest hout
    cases hout
    cases a <;> rfl
  · simp only [narrow_append, narrow_cons, narrow_nil] at hm
    rcases hm.split with ⟨m₀, m₁, rfl, hm₀, hm₁⟩
    generalize ht : t.narrow = u at hm₁
    cases hm₁ with
    | loop i' j' hinner hnil =>
        -- the last thing in the loop is a loop
        cases hnil
        apply hkeep (Tree.collapse_eq_loop (Or.inr ⟨_, ht⟩))
        · intro a b rest hout
          simp at hout
          rw [← hout.1]
          cases a <;> rfl
    | @tree b _ _ _ hb hnil =>
        cases hnil
        subst ht
        rcases List.eq_nil_or_concat' m₀ with rfl | ⟨m₂, a, rfl⟩
        · -- the loop holds one instruction
          have hbefore : before = [] := by
            cases before with
            | nil => rfl
            | cons x before =>
                rw [narrow_cons] at hm₀
                cases hm₀
          subst hbefore
          rcases Tree.collapse_spelled i j hb with ⟨d, hd, hspelled⟩ | ⟨hd, hloop⟩
          · refine ⟨[d], ?_, Nests.tree hspelled Nests.nil⟩
            simp [Peephole.settle_collapse (hmerge b) hd]
          · apply hkeep hloop
            intro a b' rest hout
            simp at hout
            rw [← hout.1, ← hout.2.1]
            exact hd
        · -- it holds more, so the instruction before the last is no opening bracket
          have hbefore : before ≠ [] := by
            intro hnil
            subst hnil
            rw [narrow_nil] at hm₀
            generalize hm₂ : m₂ ++ [a] = m₀ at hm₀
            cases hm₀
            simp at hm₂
          apply hkeep (Tree.collapse_eq_loop (Or.inl hbefore))
          intro a' b' rest hout
          simp at hout
          rw [← hout.2.1]
          exact Peephole.collapse_of_not_open hm₀.last_not_open

/-- A collapsed loop merges with nothing before it. -/
theorem Tree.attach_collapse (acc body : List Tree) :
    Tree.attach acc (Tree.collapse body) = Tree.collapse body :: acc := by
  cases acc with
  | nil => rfl
  | cons last before =>
      apply Tree.attach_of_not_merge
      rcases Tree.collapse_cases body with ⟨_, hset⟩ | ⟨k, _, hseek⟩ | hloop
      · simp [hset, Tree.merge?]
      · simp [hseek, Tree.merge?]
      · simp [hloop, Tree.merge?]

/-- An instruction has a tree that is squeezed already. -/
theorem Tree.squeeze_ofInstruction? {op : Instruction} {t : Tree}
    (h : Tree.ofInstruction? op = some t) : t.squeeze = t := by
  cases op <;> simp [Tree.ofInstruction?] at h <;> subst h <;> simp [Tree.squeeze]

/-- Settling an opening bracket keeps it. -/
theorem settle_open (out : List Instruction) (i : Nat) :
    settle out (.loopOpen i) = .loopOpen i :: out := by
  apply Peephole.settle_keep
  · intro b rest _
    cases b <;> rfl
  · intro a b rest _
    exact Peephole.collapse_of_not_close rfl

/-- Settling a list squeezes its forest onto the one that is there. The
induction is on the nesting: a loop settles its body behind its opening
bracket, where it finds nothing else. -/
theorem Nests.foldl_settle {ops : List Instruction} {trees : List Tree} (h : Nests ops trees)
    {m base : List Instruction} {acc : List Tree} (hm : Nests m (narrow acc.reverse))
    (hbase : Fresh base) :
    ∃ m', ops.foldl settle (m.reverse ++ base) = m'.reverse ++ base ∧
      Nests m' (narrow (squeezeOnto acc trees).reverse) := by
  induction h generalizing m base acc with
  | nil =>
      refine ⟨m, rfl, ?_⟩
      rw [squeezeOnto]
      exact hm
  | @tree op tree ops trees hop _ ih =>
      rcases settle_attach hm hbase hop with ⟨m₁, hsettle, hm₁⟩
      rcases ih hm₁ hbase with ⟨m₂, hfold, hm₂⟩
      refine ⟨m₂, ?_, ?_⟩
      · rw [List.foldl_cons, hsettle, hfold]
      · rw [squeezeOnto, Tree.squeeze_ofInstruction? hop]
        exact hm₂
  | @loop i j inner ops body trees _ _ ihinner ihops =>
      -- the bracket shields what is in front of it while the body is settled
      have hopened : Fresh (.loopOpen i :: (m.reverse ++ base)) := Or.inr ⟨i, _, rfl⟩
      have hnothing : Nests [] (narrow ([] : List Tree).reverse) := by simpa using Nests.nil
      rcases ihinner hnothing hopened with ⟨m₁, hinner, hm₁⟩
      -- the closing bracket then sees the body alone
      rcases settle_close i j (m.reverse ++ base) hm₁ with ⟨m₂, hclose, hm₂⟩
      have hm₃ : Nests (m ++ m₂) (narrow (Tree.attach acc (Tree.loop body).squeeze).reverse) := by
        rw [Tree.squeeze, Tree.attach_collapse]
        simpa using hm.append hm₂
      rcases ihops hm₃ hbase with ⟨m₄, hops, hm₄⟩
      refine ⟨m₄, ?_, ?_⟩
      · have hbody : inner.foldl settle (.loopOpen i :: (m.reverse ++ base)) =
            m₁.reverse ++ .loopOpen i :: (m.reverse ++ base) := by
          simpa using hinner
        simp only [List.foldl_cons, List.foldl_append, settle_open, hbody, hclose]
        simpa using hops
      · rw [squeezeOnto]
        exact hm₄

/-- The forest of a shrunk list is the squeezed forest of the list, with its
distances cut to 32 bits. -/
theorem Nests.shrink {ops : List Instruction} {trees : List Tree} (h : Nests ops trees) :
    Nests (Peephole.shrink ops) (narrow (squeeze trees)) := by
  have hnothing : Nests [] (narrow ([] : List Tree).reverse) := by simpa using Nests.nil
  have hempty : Fresh [] := Or.inl rfl
  rcases h.foldl_settle hnothing hempty with ⟨m, hfold, hm⟩
  have hshrink : Peephole.shrink ops = m := by
    rw [Peephole.shrink_eq_foldl_settle]
    simpa using congrArg List.reverse hfold
  rw [hshrink]
  exact hm

end TapeLang
