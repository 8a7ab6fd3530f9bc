import TapeLang.Instruction

/-!
# TapeLang.Proofs.Nesting — brackets as a forest of loops

Two views of the brackets in a list of instructions, and that they agree.

* `Balanced` counts: no beginning of the list closes more than it opens,
  and the whole list closes as much as it opens;
* `Nests` builds: a forest of `Tree`s, in which a loop is a tree that holds
  its body. Operands of brackets play no part in it.

The main statements are `Balanced.nests` (a balanced list has a forest) and
`Nests.unique` (it has only one).

A distance in a forest is a 64-bit word, as the head is. The 32-bit operand
of an instruction becomes one by sign extension, so that distances can be
added up without loss.
-/

namespace TapeLang

/-! ## Forests -/

/-- What is executed once each time it is reached. -/
inductive Leaf where
  /-- Shift the head by `offset` cells. -/
  | move (offset : Int64)
  /-- Add `amount` to the current cell. -/
  | add (amount : Int32)
  /-- Put `value` into the current cell. -/
  | set (value : Int32)
  | print
  | read
  | halt
deriving DecidableEq, Repr

/-- A tree of a forest of loops. -/
inductive Tree where
  | leaf (op : Leaf)
  /-- Shift the head by `stride` until the current cell is zero. -/
  | seek (stride : Int64)
  /-- Repeat `body` while the current cell is not zero. -/
  | loop (body : List Tree)
deriving Repr

/-- The tree of an instruction that is not a bracket. -/
def Tree.ofInstruction? : Instruction → Option Tree
  | .move n => some (.leaf (.move n.toInt64))
  | .add n => some (.leaf (.add n))
  | .set v => some (.leaf (.set v))
  | .seek k => some (.seek k.toInt64)
  | .print => some (.leaf .print)
  | .read => some (.leaf .read)
  | .halt => some (.leaf .halt)
  | .loopOpen _ | .loopClose _ => none

/-- `Nests ops trees`: matching the brackets of `ops` gives the forest
`trees`. -/
inductive Nests : List Instruction → List Tree → Prop where
  | nil : Nests [] []
  | tree {op : Instruction} {tree : Tree} {ops : List Instruction} {trees : List Tree}
      (hop : Tree.ofInstruction? op = some tree) (hops : Nests ops trees) :
      Nests (op :: ops) (tree :: trees)
  | loop (i j : Nat) {inner ops : List Instruction} {body trees : List Tree}
      (hinner : Nests inner body) (hops : Nests ops trees) :
      Nests (.loopOpen i :: (inner ++ .loopClose j :: ops)) (.loop body :: trees)

namespace Nests

/-- Forests of two lists stand side by side in the forest of both. -/
theorem append {xs ys : List Instruction} {ts us : List Tree}
    (hxs : Nests xs ts) (hys : Nests ys us) : Nests (xs ++ ys) (ts ++ us) := by
  induction hxs with
  | nil => exact hys
  | tree hop _ ih => exact Nests.tree hop ih
  | loop i j hinner _ _ ih =>
      have hloop := Nests.loop i j hinner ih
      simpa using hloop

/-- A forest that falls into two parts comes from a list that does. -/
theorem split {us : List Tree} (ts : List Tree) {ops : List Instruction}
    (h : Nests ops (ts ++ us)) :
    ∃ xs ys, ops = xs ++ ys ∧ Nests xs ts ∧ Nests ys us := by
  induction ts generalizing ops with
  | nil => exact ⟨[], ops, rfl, Nests.nil, h⟩
  | cons t ts ih =>
      cases h with
      | tree hop hops =>
          rcases ih hops with ⟨xs, ys, rfl, hxs, hys⟩
          exact ⟨_ :: xs, ys, rfl, Nests.tree hop hxs, hys⟩
      | loop i j hinner hops =>
          rcases ih hops with ⟨xs, ys, rfl, hxs, hys⟩
          exact ⟨_, ys, by simp, Nests.loop i j hinner hxs, hys⟩

/-- Two lists that agree up to a closing bracket have the same forest up to
it: a forest closes every loop that it opens, so neither list can be the
longer one. -/
theorem unique_before_close {xs : List Instruction} {ts : List Tree} (hxs : Nests xs ts)
    {xs' ys ys' : List Instruction} {us : List Tree} {j j' : Nat} (hxs' : Nests xs' us)
    (heq : xs ++ .loopClose j :: ys = xs' ++ .loopClose j' :: ys') :
    ts = us ∧ ys = ys' := by
  induction hxs generalizing xs' ys ys' us j j' with
  | nil =>
      cases hxs' with
      | nil =>
          have hsame : j = j' ∧ ys = ys' := by simpa using heq
          exact ⟨rfl, hsame.2⟩
      | tree hop _ =>
          rcases List.cons.inj heq with ⟨rfl, _⟩
          simp [Tree.ofInstruction?] at hop
      | loop => simp at heq
  | tree hop _ ih =>
      cases hxs' with
      | nil =>
          rcases List.cons.inj heq with ⟨rfl, _⟩
          simp [Tree.ofInstruction?] at hop
      | tree hop' hops' =>
          rcases List.cons.inj heq with ⟨rfl, htail⟩
          rcases ih hops' htail with ⟨rfl, hys⟩
          rw [hop] at hop'
          exact ⟨by simpa using hop', hys⟩
      | loop =>
          rcases List.cons.inj heq with ⟨rfl, _⟩
          simp [Tree.ofInstruction?] at hop
  | loop i j hinner _ ihinner ihops =>
      cases hxs' with
      | nil => simp at heq
      | tree hop' _ =>
          rcases List.cons.inj heq with ⟨rfl, _⟩
          simp [Tree.ofInstruction?] at hop'
      | loop i' j' hinner' hops' =>
          -- the bodies agree up to their own closing brackets, then what follows them does
          simp only [List.cons_append, List.append_assoc, List.cons.injEq] at heq
          rcases ihinner hinner' heq.2 with ⟨rfl, htail⟩
          rcases ihops hops' htail with ⟨rfl, hys⟩
          exact ⟨rfl, hys⟩

/-- A list has at most one forest. -/
theorem unique {ops : List Instruction} {ts us : List Tree}
    (h : Nests ops ts) (h' : Nests ops us) : ts = us := by
  have hclosed : ops ++ .loopClose 0 :: [] = ops ++ .loopClose 0 :: [] := rfl
  exact (h.unique_before_close h' hclosed).1

end Nests

/-! ## Counting brackets -/

/-- Whether an instruction opens a loop. -/
def Instruction.isOpen : Instruction → Bool
  | .loopOpen _ => true
  | _ => false

/-- Whether an instruction closes a loop. -/
def Instruction.isClose : Instruction → Bool
  | .loopClose _ => true
  | _ => false

/-- An instruction opens a loop, or closes one, or is flat. -/
theorem Instruction.bracket_cases (op : Instruction) :
    (∃ k, op = .loopOpen k) ∨ (∃ k, op = .loopClose k) ∨
      op.isOpen = false ∧ op.isClose = false := by
  cases op with
  | loopOpen k => exact Or.inl ⟨k, rfl⟩
  | loopClose k => exact Or.inr (Or.inl ⟨k, rfl⟩)
  | _ => exact Or.inr (Or.inr ⟨rfl, rfl⟩)

/-- An instruction with a tree of its own is no bracket. -/
theorem Tree.not_bracket {op : Instruction} {tree : Tree}
    (h : Tree.ofInstruction? op = some tree) : op.isOpen = false ∧ op.isClose = false := by
  cases op <;> simp_all [Tree.ofInstruction?, Instruction.isOpen, Instruction.isClose]

/-- The brackets of a list balance when `depth` loops are open before it:
no beginning closes a loop that is not open, and behind the list no loop
is open. -/
def BalancedFrom (depth : Nat) (ops : List Instruction) : Prop :=
  (∀ front, front <+: ops →
    front.countP Instruction.isClose ≤ depth + front.countP Instruction.isOpen) ∧
  ops.countP Instruction.isClose = depth + ops.countP Instruction.isOpen

/-- The brackets of a list balance: no beginning of it has more closing
than opening brackets, and all of it has as many of the one as of the
other. -/
def Balanced (ops : List Instruction) : Prop :=
  (∀ front, front <+: ops →
    front.countP Instruction.isClose ≤ front.countP Instruction.isOpen) ∧
  ops.countP Instruction.isClose = ops.countP Instruction.isOpen

theorem balanced_iff_from_zero {ops : List Instruction} :
    Balanced ops ↔ BalancedFrom 0 ops := by
  simp [Balanced, BalancedFrom]

@[simp] theorem balancedFrom_nil {depth : Nat} : BalancedFrom depth [] ↔ depth = 0 := by
  constructor
  · intro h
    have htotal := h.2
    simp at htotal
    omega
  · intro h
    subst h
    refine ⟨fun front hfront => ?_, by simp⟩
    have hnil : front = [] := List.prefix_nil.mp hfront
    simp [hnil]

/-- What is left to balance behind an instruction, in terms of how it
changes the depth: it needs `closes` open loops and leaves `opens` more. -/
theorem balancedFrom_cons {depth : Nat} {op : Instruction} {ops : List Instruction} :
    BalancedFrom depth (op :: ops) ↔
      op.isClose.toNat ≤ depth + op.isOpen.toNat ∧
        BalancedFrom (depth + op.isOpen.toNat - op.isClose.toNat) ops := by
  have hcount : ∀ (f : Instruction → Bool) (xs : List Instruction),
      (op :: xs).countP f = (f op).toNat + xs.countP f := by
    intro f xs
    cases h : f op <;> simp [h, Nat.add_comm]
  constructor
  · intro h
    -- the front of one instruction says that the depth suffices for it
    have hfirst := h.1 [op] (by simp)
    simp only [hcount, List.countP_nil] at hfirst
    refine ⟨by omega, fun front hfront => ?_, ?_⟩
    · have hstep := h.1 (op :: front) (List.cons_prefix_cons.mpr ⟨rfl, hfront⟩)
      simp only [hcount] at hstep
      omega
    · have htotal := h.2
      simp only [hcount] at htotal
      omega
  · intro h
    refine ⟨fun front hfront => ?_, ?_⟩
    · -- a front is empty or begins with `op`
      cases front with
      | nil => simp
      | cons x front =>
          rcases List.cons_prefix_cons.mp hfront with ⟨rfl, hrest⟩
          have hstep := h.2.1 front hrest
          simp only [hcount]
          omega
    · have htotal := h.2.2
      simp only [hcount]
      omega

/-- A list that nests changes nothing for what stands behind it. -/
theorem Nests.balancedFrom_append {xs : List Instruction} {ts : List Tree} (h : Nests xs ts)
    (depth : Nat) (ys : List Instruction) :
    BalancedFrom depth (xs ++ ys) ↔ BalancedFrom depth ys := by
  induction h generalizing depth ys with
  | nil => exact Iff.rfl
  | tree hop _ ih =>
      have hflat := Tree.not_bracket hop
      simp only [List.cons_append, balancedFrom_cons, hflat.1, hflat.2, ih]
      simp
  | loop i j _ _ ihinner ihops =>
      simp only [List.cons_append, List.append_assoc, balancedFrom_cons, ihinner, ihops,
        Instruction.isOpen, Instruction.isClose]
      simp

/-- A list that nests is balanced. -/
theorem Nests.balanced {ops : List Instruction} {trees : List Tree} (h : Nests ops trees) :
    Balanced ops := by
  have hzero := (h.balancedFrom_append 0 []).mpr (balancedFrom_nil.mpr rfl)
  simpa using balanced_iff_from_zero.mpr hzero

/-! ## From counting to forests -/

/-- A list that begins inside some loops: the forest up to the bracket that
closes the innermost of them, then the same for the loops around it. -/
inductive Unwinds : List Instruction → List Tree → List (List Tree) → Prop where
  | last {ops : List Instruction} {trees : List Tree} (hops : Nests ops trees) :
      Unwinds ops trees []
  | close (j : Nat) {inner ops : List Instruction} {trees next : List Tree}
      {levels : List (List Tree)} (hinner : Nests inner trees) (hops : Unwinds ops next levels) :
      Unwinds (inner ++ .loopClose j :: ops) trees (next :: levels)

/-- More instructions in front of a list that unwinds. -/
theorem Unwinds.append {xs ops : List Instruction} {ts trees : List Tree}
    {levels : List (List Tree)} (hxs : Nests xs ts) (h : Unwinds ops trees levels) :
    Unwinds (xs ++ ops) (ts ++ trees) levels := by
  cases h with
  | last hops => exact Unwinds.last (hxs.append hops)
  | close j hinner hops =>
      have hclose := Unwinds.close j (hxs.append hinner) hops
      simpa using hclose

/-- A list that balances from a depth unwinds that many loops. The induction
is on the list: an opening bracket takes its body and what follows its
partner from the two innermost levels behind it. -/
theorem BalancedFrom.unwinds {depth : Nat} {ops : List Instruction}
    (h : BalancedFrom depth ops) :
    ∃ trees levels, Unwinds ops trees levels ∧ levels.length = depth := by
  induction ops generalizing depth with
  | nil =>
      have hdepth : depth = 0 := balancedFrom_nil.mp h
      exact ⟨[], [], Unwinds.last Nests.nil, by simp [hdepth]⟩
  | cons op ops ih =>
      rcases balancedFrom_cons.mp h with ⟨hroom, hrest⟩
      rcases ih hrest with ⟨trees, levels, hunw, hlen⟩
      cases hop : Tree.ofInstruction? op with
      | some tree =>
          have hflat := Tree.not_bracket hop
          refine ⟨tree :: trees, levels, ?_, ?_⟩
          · exact Unwinds.append (Nests.tree hop Nests.nil) hunw
          · simpa [hflat.1, hflat.2] using hlen
      | none =>
          cases op with
          | loopOpen i =>
              simp only [Instruction.isOpen, Instruction.isClose, Bool.toNat_true,
                Bool.toNat_false] at hlen
              -- the level that is closed first is the body of this loop
              cases hunw with
              | last => simp at hlen
              | @close j _ _ _ next levels hinner hops =>
                  refine ⟨.loop trees :: next, levels, ?_, by simpa using hlen⟩
                  have hloop := Unwinds.append (Nests.loop i j hinner Nests.nil) hops
                  simpa using hloop
          | loopClose j =>
              simp only [Instruction.isOpen, Instruction.isClose, Bool.toNat_true,
                Bool.toNat_false] at hlen hroom
              -- one more level to unwind, with nothing before its bracket
              refine ⟨[], trees :: levels, Unwinds.close j Nests.nil hunw, ?_⟩
              simp only [List.length_cons, hlen]
              omega
          | _ => simp [Tree.ofInstruction?] at hop

/-- A balanced list has a forest. -/
theorem Balanced.nests {ops : List Instruction} (h : Balanced ops) :
    ∃ trees, Nests ops trees := by
  rcases (balanced_iff_from_zero.mp h).unwinds with ⟨trees, levels, hunw, hlen⟩
  cases hunw with
  | last hops => exact ⟨trees, hops⟩
  | close => simp at hlen

end TapeLang
