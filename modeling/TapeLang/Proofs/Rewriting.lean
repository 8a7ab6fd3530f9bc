import Mathlib.Logic.Relation
import TapeLang.Proofs.Shrinking

/-!
# TapeLang.Proofs.Rewriting — the peephole pass computes a normal form

The rules of the pass as a rewrite system: `Rule` is the table, `Rewrites`
uses one rule at any place of a list, `Derives` uses any number of them, and
a list is `Normal` if none can be used. Nothing is said about order, so a
list might well have many normal forms; it has one, and the pass finds it.

* `derives_shrink` — the pass does nothing but rewrite;
* `normal_shrink` — it leaves nothing to rewrite;
* `Derives.shrink_eq` — rewriting a list first, in any order, does not change
  what the pass makes of it.
-/

namespace TapeLang.Peephole

/-! ## The rules -/

/-- The rule table: the instructions on the left become the one on the
right. Operands of brackets play no part. -/
inductive Rule : List Instruction → Instruction → Prop where
  | moves (a b : Int32) : Rule [.move a, .move b] (.move (a + b))
  | adds (a b : Int32) : Rule [.add a, .add b] (.add (a + b))
  | clear (i j : Nat) : Rule [.loopOpen i, .add (-1), .loopClose j] (.set 0)
  | scan (i j : Nat) (k : Int32) : Rule [.loopOpen i, .move k, .loopClose j] (.seek k)
  | setAdd (v m : Int32) : Rule [.set v, .add m] (.set (v + m))

/-- One use of a rule, anywhere in a list. -/
inductive Rewrites : List Instruction → List Instruction → Prop where
  | rule (front back : List Instruction) {old : List Instruction} {new : Instruction}
      (h : Rule old new) : Rewrites (front ++ old ++ back) (front ++ new :: back)

/-- Any number of uses of the rules, one after another. -/
abbrev Derives : List Instruction → List Instruction → Prop :=
  Relation.ReflTransGen Rewrites

/-- No rule can be used anywhere in a list. -/
def Normal (ops : List Instruction) : Prop :=
  ∀ ops', ¬ Rewrites ops ops'

/-- The table is what the pass looks for in its window. -/
theorem rule_iff {old : List Instruction} {new : Instruction} :
    Rule old new ↔
      (∃ b c, old = [b, c] ∧ merge b c = some new) ∨
      ∃ a b c, old = [a, b, c] ∧ collapse a b c = some new := by
  constructor
  · intro h
    cases h with
    | moves a b => exact Or.inl ⟨_, _, rfl, rfl⟩
    | adds a b => exact Or.inl ⟨_, _, rfl, rfl⟩
    | setAdd v m => exact Or.inl ⟨_, _, rfl, rfl⟩
    | clear i j => exact Or.inr ⟨_, _, _, rfl, rfl⟩
    | scan i j k => exact Or.inr ⟨_, _, _, rfl, rfl⟩
  · rintro (⟨b, c, rfl, hmerge⟩ | ⟨a, b, c, rfl, hcollapse⟩)
    · unfold merge at hmerge
      split at hmerge <;> cases hmerge
      · exact Rule.moves _ _
      · exact Rule.adds _ _
      · exact Rule.setAdd _ _
    · unfold collapse at hcollapse
      split at hcollapse
      · -- a loop over one add is an idiom only if it adds `-1`
        split at hcollapse <;> cases hcollapse
        rename_i hn
        subst hn
        exact Rule.clear _ _
      · cases hcollapse
        exact Rule.scan _ _ _
      · cases hcollapse

theorem Rewrites.of_merge {b c d : Instruction} (h : merge b c = some d)
    (front back : List Instruction) :
    Rewrites (front ++ [b, c] ++ back) (front ++ d :: back) :=
  Rewrites.rule front back (rule_iff.mpr (Or.inl ⟨b, c, rfl, h⟩))

theorem Rewrites.of_collapse {a b c d : Instruction} (h : collapse a b c = some d)
    (front back : List Instruction) :
    Rewrites (front ++ [a, b, c] ++ back) (front ++ d :: back) :=
  Rewrites.rule front back (rule_iff.mpr (Or.inr ⟨a, b, c, rfl, h⟩))

/-- A rule makes a list shorter. -/
theorem Rewrites.length_lt {xs ys : List Instruction} (h : Rewrites xs ys) :
    ys.length < xs.length := by
  obtain ⟨front, back, hrule⟩ := h
  cases hrule <;> simp

/-- A rule can be used with more instructions around. -/
theorem Rewrites.within {xs ys : List Instruction} (h : Rewrites xs ys)
    (before behind : List Instruction) :
    Rewrites (before ++ xs ++ behind) (before ++ ys ++ behind) := by
  obtain ⟨front, back, hrule⟩ := h
  have hwide := Rewrites.rule (before ++ front) (back ++ behind) hrule
  simpa using hwide

namespace Derives

theorem length_le {xs ys : List Instruction} (h : Derives xs ys) : ys.length ≤ xs.length := by
  induction h with
  | refl => exact Nat.le_refl _
  | tail _ hlast ih => exact Nat.le_trans (Nat.le_of_lt hlast.length_lt) ih

/-- A list can be rewritten with more instructions around. -/
theorem within {xs ys : List Instruction} (h : Derives xs ys)
    (before behind : List Instruction) :
    Derives (before ++ xs ++ behind) (before ++ ys ++ behind) := by
  induction h with
  | refl => exact Relation.ReflTransGen.refl
  | tail _ hlast ih => exact ih.tail (hlast.within before behind)

/-- Two lists that stand side by side can be rewritten each on its own. -/
theorem append {xs xs' ys ys' : List Instruction} (hxs : Derives xs xs') (hys : Derives ys ys') :
    Derives (xs ++ ys) (xs' ++ ys') := by
  have hleft : Derives (xs ++ ys) (xs' ++ ys) := by simpa using hxs.within [] ys
  have hright : Derives (xs' ++ ys) (xs' ++ ys') := by simpa using hys.within xs' []
  exact hleft.trans hright

/-- Nothing else can be derived from a normal list. -/
theorem eq_of_normal {xs ys : List Instruction} (h : Derives xs ys) (hxs : Normal xs) :
    ys = xs := by
  rcases h.cases_head with heq | ⟨zs, hfirst, _⟩
  · exact heq.symm
  · exact absurd hfirst (hxs zs)

end Derives

/-! ## The pass only rewrites -/

/-- Settling an instruction uses at most one rule. -/
theorem derives_settle (out : List Instruction) (c : Instruction) :
    Derives (out.reverse ++ [c]) (settle out c).reverse := by
  rcases settle_cases out c with ⟨_, _, hkeep⟩ | ⟨b, rest, d, rfl, hmerge, hd⟩ |
    ⟨a, b, rest, d, rfl, hcollapse, hd⟩
  · rw [hkeep, List.reverse_cons]
  · have hstep := Rewrites.of_merge hmerge rest.reverse []
    rw [hd]
    exact Relation.ReflTransGen.single (by simpa using hstep)
  · have hstep := Rewrites.of_collapse hcollapse rest.reverse []
    rw [hd]
    exact Relation.ReflTransGen.single (by simpa using hstep)

/-- What has been settled, with the rest of the list behind it, can be
rewritten to what will have been settled at the end. -/
theorem derives_foldl_settle (ops out : List Instruction) :
    Derives (out.reverse ++ ops) (ops.foldl settle out).reverse := by
  induction ops generalizing out with
  | nil =>
      rw [List.append_nil]
      exact Relation.ReflTransGen.refl
  | cons c ops ih =>
      have hfirst := (derives_settle out c).append (Relation.ReflTransGen.refl (a := ops))
      rw [List.append_assoc] at hfirst
      exact hfirst.trans (ih (settle out c))

theorem derives_shrink (ops : List Instruction) : Derives ops (shrink ops) := by
  rw [shrink_eq_foldl_settle]
  exact derives_foldl_settle ops []

/-! ## Nothing is left to rewrite -/

/-- A list with one more instruction behind it is normal exactly if the list
is and the instruction completes no rule. Lists are written last
instruction first. -/
theorem normal_cons_iff {c : Instruction} {out : List Instruction} :
    Normal (c :: out).reverse ↔
      Normal out.reverse ∧
      (∀ b rest, out = b :: rest → merge b c = none) ∧
      ∀ a b rest, out = b :: a :: rest → collapse a b c = none := by
  constructor
  · intro h
    refine ⟨fun ops' hstep => ?_, fun b rest hout => ?_, fun a b rest hout => ?_⟩
    · exact h _ (by simpa using hstep.within [] [c])
    · subst hout
      by_contra hsome
      obtain ⟨d, hd⟩ := Option.ne_none_iff_exists'.mp hsome
      exact h _ (by simpa using Rewrites.of_merge hd rest.reverse [])
    · subst hout
      by_contra hsome
      obtain ⟨d, hd⟩ := Option.ne_none_iff_exists'.mp hsome
      exact h _ (by simpa using Rewrites.of_collapse hd rest.reverse [])
  · rintro ⟨hout, hmerge, hcollapse⟩ ops' hstep
    rw [List.reverse_cons] at hstep
    generalize hlist : out.reverse ++ [c] = ops at hstep
    obtain @⟨front, back, old, new, hrule⟩ := hstep
    rcases List.eq_nil_or_concat' back with rfl | ⟨back, c', rfl⟩
    · -- the rule ends in `c`
      rcases rule_iff.mp hrule with ⟨b, c', rfl, hb⟩ | ⟨a, b, c', rfl, hab⟩
      · have hlast : out = b :: front.reverse ∧ c = c' := by
          have hrev := congrArg List.reverse hlist
          simp at hrev
          exact ⟨hrev.2, hrev.1⟩
        rw [← hlast.2, hmerge b _ hlast.1] at hb
        cases hb
      · have hlast : out = b :: a :: front.reverse ∧ c = c' := by
          have hrev := congrArg List.reverse hlist
          simp at hrev
          exact ⟨hrev.2, hrev.1⟩
        rw [← hlast.2, hcollapse a b _ hlast.1] at hab
        cases hab
    · -- it ends before `c`
      have hinner : out.reverse = front ++ old ++ back := by
        rw [← List.append_assoc] at hlist
        exact (List.append_inj' hlist rfl).1
      rw [hinner] at hout
      exact hout _ (Rewrites.rule front back hrule)

/-- A merged instruction merges with what stands before it only if its first
part does. -/
theorem merge_eq_none {b x y z : Instruction} (hxy : merge x y = some z) (hb : merge b x = none) :
    merge b z = none := by
  unfold merge at hxy
  split at hxy <;> cases hxy <;> cases b <;> simp_all [merge]

/-- What a loop has become closes no loop and merges with nothing before it. -/
theorem isIdiom_stays {d : Instruction} (hd : isIdiom d = true) :
    d.isClose = false ∧ ∀ x, merge x d = none := by
  cases d with
  | set v => exact ⟨rfl, fun x => by cases x <;> rfl⟩
  | seek k => exact ⟨rfl, fun x => by cases x <;> rfl⟩
  | _ => cases hd

theorem Normal.settle {out : List Instruction} (hout : Normal out.reverse) (c : Instruction) :
    Normal (settle out c).reverse := by
  rcases settle_cases out c with ⟨hmerge, hcollapse, hkeep⟩ | ⟨b, rest, d, rfl, hmerge, hd⟩ |
    ⟨a, b, rest, d, rfl, hcollapse, hd⟩
  · rw [hkeep]
    exact normal_cons_iff.mpr ⟨hout, hmerge, hcollapse⟩
  · -- `d` merges with what is in front of it only if `b` did
    obtain ⟨hrest, hbefore, _⟩ := normal_cons_iff.mp hout
    rw [hd]
    refine normal_cons_iff.mpr ⟨hrest, fun b' rest' heq => ?_, fun a' b' rest' _ => ?_⟩
    · exact merge_eq_none hmerge (hbefore b' rest' heq)
    · exact collapse_of_not_close (flat_of_merge hmerge).2.2.2
  · -- an idiom takes part in no rule as the later instruction
    obtain ⟨hbefore, _, _⟩ := normal_cons_iff.mp hout
    obtain ⟨hrest, _, _⟩ := normal_cons_iff.mp hbefore
    obtain ⟨hclose, hmerge⟩ := isIdiom_stays (isIdiom_of_collapse hcollapse)
    rw [hd]
    refine normal_cons_iff.mpr ⟨hrest, fun b' rest' _ => hmerge b', fun a' b' rest' _ => ?_⟩
    exact collapse_of_not_close hclose

theorem normal_shrink (ops : List Instruction) : Normal (shrink ops) := by
  have hrun : ∀ out : List Instruction, Normal out.reverse →
      Normal (ops.foldl settle out).reverse := by
    induction ops with
    | nil =>
        intro out hout
        exact hout
    | cons c ops ih =>
        intro out hout
        exact ih _ (hout.settle c)
  have hnil : Normal ([] : List Instruction).reverse := by
    intro ops' hstep
    exact absurd hstep.length_lt (Nat.not_lt_zero _)
  rw [shrink_eq_foldl_settle]
  exact hrun [] hnil

/-! ## The order does not matter -/

/-- Merging is associative. -/
theorem merge_merge {b x y z u : Instruction} (hb : merge b x = some u) (hxy : merge x y = some z) :
    ∃ w, merge u y = some w ∧ merge b z = some w := by
  unfold merge at hb
  split at hb <;> cases hb <;> cases y <;> simp [merge] at hxy <;> subst hxy
  all_goals exact ⟨_, rfl, by simp [merge, Int32.add_assoc]⟩

/-- Two neighbours that merge settle as the merged instruction does. -/
theorem settle_settle_of_merge {x y z : Instruction} (h : merge x y = some z)
    (out : List Instruction) : settle (settle out x) y = settle out z := by
  obtain ⟨hx, _, hz⟩ := flat_of_merge h
  rcases settle_cases out x with ⟨hmerge, _, hkeep⟩ | ⟨b, rest, u, rfl, hmerge, hu⟩ |
    ⟨a, b, rest, d, rfl, hcollapse, _⟩
  · -- `x` was kept, so `z` is too
    have hout : settle out z = z :: out := by
      apply settle_keep
      · intro b rest hout
        exact merge_eq_none h (hmerge b rest hout)
      · intro a b rest _
        exact collapse_of_not_close hz.2
    rw [hkeep, settle_merge h, hout]
  · -- merging is associative: `b` takes `x` and then `y`, or their sum at once
    obtain ⟨w, huy, hbz⟩ := merge_merge hmerge h
    rw [hu, settle_merge huy, settle_merge hbz]
  · -- only a closing bracket collapses
    rw [collapse_of_not_close hx.2] at hcollapse
    cases hcollapse

/-- A loop that collapses settles as what it collapses to does. -/
theorem settle_settle_of_collapse {a b c d : Instruction} (h : collapse a b c = some d)
    (out : List Instruction) : settle (settle (settle out a) b) c = settle out d := by
  obtain ⟨hclose, hmerge⟩ := isIdiom_stays (isIdiom_of_collapse h)
  have hd : settle out d = d :: out := by
    apply settle_keep
    · intro x rest _
      exact hmerge x
    · intro x y rest _
      exact collapse_of_not_close hclose
  obtain ⟨⟨i, rfl⟩, hflat, ⟨j, rfl⟩, _⟩ := brackets_of_collapse h
  -- the opening bracket keeps `b` from merging with what is in front
  have hb : settle (.loopOpen i :: out) b = b :: .loopOpen i :: out := by
    apply settle_keep
    · intro x rest hx
      cases hx
      cases b <;> rfl
    · intro x y rest _
      exact collapse_of_not_close hflat.2
  have hbehind : merge b (.loopClose j) = none := by
    cases b <;> rfl
  rw [settle_open, hb, settle_collapse hbehind h, hd]

/-- One use of a rule does not change what the pass makes of a list. -/
theorem Rewrites.shrink_eq {xs ys : List Instruction} (h : Rewrites xs ys) :
    shrink xs = shrink ys := by
  obtain ⟨front, back, hrule⟩ := h
  -- both lists settle alike in front, and alike behind once the rule's place is passed
  simp only [shrink_eq_foldl_settle, List.foldl_append, List.foldl_cons]
  rcases rule_iff.mp hrule with ⟨b, c, rfl, hmerge⟩ | ⟨a, b, c, rfl, hcollapse⟩
  · simp only [List.foldl_cons, List.foldl_nil, settle_settle_of_merge hmerge]
  · simp only [List.foldl_cons, List.foldl_nil, settle_settle_of_collapse hcollapse]

theorem Derives.shrink_eq {xs ys : List Instruction} (h : Derives xs ys) :
    shrink xs = shrink ys := by
  induction h with
  | refl => rfl
  | tail _ hlast ih => rw [ih, hlast.shrink_eq]

/-- The pass leaves a list as it is exactly if no rule can be used in it. -/
theorem shrink_eq_self_iff {ops : List Instruction} : shrink ops = ops ↔ Normal ops := by
  constructor
  · intro h
    have hnormal := normal_shrink ops
    rwa [h] at hnormal
  · intro h
    exact (derives_shrink ops).eq_of_normal h

instance (ops : List Instruction) : Decidable (Normal ops) :=
  decidable_of_iff _ shrink_eq_self_iff

/-- The pass computes the normal form of a list under its rules, which is
the only one. So a second pass changes nothing, the list never grows, the
lists that stay are the normal ones, and it does not matter if the parts of
a list are passed over before the whole. -/
theorem shrink_computes_normal_form (ops : List Instruction) :
    (Derives ops (shrink ops) ∧ Normal (shrink ops) ∧
      ∀ ops', Derives ops ops' → Normal ops' → ops' = shrink ops) ∧
    shrink (shrink ops) = shrink ops ∧
    (shrink ops).length ≤ ops.length ∧
    (shrink ops = ops ↔ Normal ops) ∧
    ∀ rest, shrink (ops ++ rest) = shrink (shrink ops ++ shrink rest) := by
  have hderives := derives_shrink ops
  have hnormal := normal_shrink ops
  refine ⟨⟨hderives, hnormal, ?_⟩, ?_, hderives.length_le, shrink_eq_self_iff, ?_⟩
  · intro ops' hops' hnormal'
    rw [hops'.shrink_eq]
    exact (shrink_eq_self_iff.mpr hnormal').symm
  · exact shrink_eq_self_iff.mpr hnormal
  · intro rest
    exact (hderives.append (derives_shrink rest)).shrink_eq

/-- Rewriting `[--+]+>>` from its end to its beginning comes to the normal
form that the pass finds from the beginning on. -/
theorem backward_rewriting_reaches_normal_form :
    Derives [.loopOpen 0, .add (-1), .add (-1), .add 1, .loopClose 0, .add 1, .move 1, .move 1]
      [.set 1, .move 2] ∧ Normal [.set 1, .move 2] ∧
    [.set 1, .move 2] =
      shrink [.loopOpen 0, .add (-1), .add (-1), .add 1, .loopClose 0, .add 1, .move 1,
        .move 1] := by
  have hderives : Derives
      [.loopOpen 0, .add (-1), .add (-1), .add 1, .loopClose 0, .add 1, .move 1, .move 1]
      [.set 1, .move 2] := by
    -- the last two are merged first, and the adds within the loop from behind
    refine Relation.ReflTransGen.head (Rewrites.rule
      [.loopOpen 0, .add (-1), .add (-1), .add 1, .loopClose 0, .add 1] [] (Rule.moves 1 1)) ?_
    refine Relation.ReflTransGen.head (Rewrites.rule
      [.loopOpen 0, .add (-1)] [.loopClose 0, .add 1, .move 2] (Rule.adds (-1) 1)) ?_
    refine Relation.ReflTransGen.head (Rewrites.rule
      [.loopOpen 0] [.loopClose 0, .add 1, .move 2] (Rule.adds (-1) 0)) ?_
    refine Relation.ReflTransGen.head (Rewrites.rule
      [] [.add 1, .move 2] (Rule.clear 0 0)) ?_
    exact Relation.ReflTransGen.single (Rewrites.rule [] [.move 2] (Rule.setAdd 0 1))
  have hnormal : Normal [.set 1, .move 2] := by decide
  exact ⟨hderives, hnormal, (shrink_computes_normal_form _).1.2.2 _ hderives hnormal⟩

end TapeLang.Peephole
