import Mathlib.Data.List.Infix
import TapeLang.Proofs.Commands
import TapeLang.Proofs.Linking
import TapeLang.Proofs.Shrinking

/-!
# TapeLang.Proofs.Rejection — the peephole pass keeps every verdict

Whether a list can be linked, and what is wrong with it if it cannot, is
decided by its brackets alone. `Bracketing` is what linking knows of them
while it reads: the bracket that broke it, or the brackets still open.

The pass takes brackets away before linking sees them. It only takes away
pairs that linking would have matched, so the two bracketings stay in step:
`bracketing_shrink` says that they are the same up to the places at which
the brackets stand. The bracket at `r` goes to the place behind the shrunk
instructions before it.

The main statement is `shrink_keeps_verdict`.
-/

namespace TapeLang

/-! ## What linking knows of the brackets -/

/-- What the brackets of a list come to, read from the left. -/
inductive Bracketing where
  /-- The closing bracket at `index` has nothing to close. -/
  | broken (index : Nat)
  /-- The brackets at `indices` are open, innermost first. -/
  | pending (indices : List Nat)
deriving DecidableEq, Repr

namespace Bracketing

/-- The bracketing after `op`, which stands at the index `n`. -/
def after : Bracketing → Nat → Instruction → Bracketing
  | .pending indices, n, .loopOpen _ => .pending (n :: indices)
  | .pending [], n, .loopClose _ => .broken n
  | .pending (_ :: outer), _, .loopClose _ => .pending outer
  | b, _, _ => b

/-- The bracketing after some instructions, the first of which stands at the
index `n`. -/
def read (b : Bracketing) (n : Nat) : List Instruction → Bracketing
  | [] => b
  | op :: ops => (b.after n op).read (n + 1) ops

/-- What linking says about a list with this bracketing. -/
def fault : Bracketing → Option CompileError
  | .broken i => some (.unopened i)
  | .pending [] => none
  | .pending (i :: _) => some (.unclosed i)

/-- The same brackets at other places. -/
def map (f : Nat → Nat) : Bracketing → Bracketing
  | .broken i => .broken (f i)
  | .pending indices => .pending (indices.map f)

@[simp] theorem after_broken (i n : Nat) (op : Instruction) :
    (broken i).after n op = broken i := by
  cases op <;> rfl

@[simp] theorem read_broken (i n : Nat) (ops : List Instruction) :
    (broken i).read n ops = broken i := by
  induction ops generalizing n with
  | nil => rfl
  | cons op ops ih => rw [read, after_broken, ih]

/-- Only brackets change the bracketing. -/
theorem after_flat {op : Instruction} (hopen : op.isOpen = false) (hclose : op.isClose = false)
    (b : Bracketing) (n : Nat) : b.after n op = b := by
  cases op with
  | loopOpen j => cases hopen
  | loopClose j => cases hclose
  | _ => cases b <;> rfl

/-- A bracket that is closed at once leaves no trace. -/
theorem after_open_close (b : Bracketing) (n m i j : Nat) :
    (b.after n (.loopOpen i)).after m (.loopClose j) = b := by
  cases b <;> rfl

theorem after_map (f : Nat → Nat) (b : Bracketing) (n : Nat) (op : Instruction) :
    (b.map f).after (f n) op = (b.after n op).map f := by
  cases b with
  | broken i => simp [map]
  | pending indices => cases op <;> cases indices <;> rfl

theorem read_append (b : Bracketing) (n : Nat) (xs ys : List Instruction) :
    b.read n (xs ++ ys) = (b.read n xs).read (n + xs.length) ys := by
  induction xs generalizing b n with
  | nil => rfl
  | cons x xs ih =>
      rw [List.cons_append, read, read, ih, List.length_cons, Nat.add_right_comm, Nat.add_assoc]

end Bracketing

/-- The bracketing of a whole list. -/
def bracketing (ops : List Instruction) : Bracketing :=
  (Bracketing.pending []).read 0 ops

theorem bracketing_concat (ops : List Instruction) (c : Instruction) :
    bracketing (ops ++ [c]) = (bracketing ops).after ops.length c := by
  simp [bracketing, Bracketing.read_append, Bracketing.read]

/-- Linking fails as the bracketing says. -/
theorem Linking.fault_extend (code : Array Instruction) (pending : List Nat)
    (ops : List Instruction) :
    (Linking.extend code pending ops).fault =
      ((Bracketing.pending pending).read code.size ops).fault := by
  induction ops generalizing code pending with
  | nil => cases pending <;> rfl
  | cons op ops ih =>
      cases op with
      | loopClose j =>
          cases pending with
          | nil => simp [Linking.extend, Bracketing.read, Bracketing.after, Bracketing.fault]
          | cons i pending => simp [Linking.extend, Bracketing.read, Bracketing.after, ih]
      | _ => simp [Linking.extend, Bracketing.read, Bracketing.after, ih]

theorem link_fault (ops : List Instruction) : (link ops).fault = (bracketing ops).fault :=
  Linking.fault_extend #[] [] ops

/-! ## Faults and the brackets that they name -/

/-- The same fault at another place. -/
def CompileError.relocate (f : Nat → Nat) : CompileError → CompileError
  | .unopened i => .unopened (f i)
  | .unclosed i => .unclosed (f i)
  | .unsupported e => .unsupported e

/-- The fault names a bracket of the list, of the kind that it is about. -/
def CompileError.Blames (ops : List Instruction) : CompileError → Prop
  | .unopened i => ∃ j, ops[i]? = some (.loopClose j)
  | .unclosed i => ∃ j, ops[i]? = some (.loopOpen j)
  | .unsupported _ => False

theorem Bracketing.fault_map (f : Nat → Nat) (b : Bracketing) :
    (b.map f).fault = b.fault.map (CompileError.relocate f) := by
  cases b with
  | broken i => rfl
  | pending indices => cases indices <;> rfl

/-- The indices of a bracketing are those of brackets in the list. -/
def Bracketing.Within (ops : List Instruction) : Bracketing → Prop
  | .broken i => ∃ j, ops[i]? = some (.loopClose j)
  | .pending indices => ∀ i ∈ indices, ∃ j, ops[i]? = some (.loopOpen j)

theorem Bracketing.Within.after {b : Bracketing} {ops : List Instruction} (h : b.Within ops)
    (c : Instruction) : (b.after ops.length c).Within (ops ++ [c]) := by
  have hold : ∀ {i : Nat} {op : Instruction}, ops[i]? = some op → (ops ++ [c])[i]? = some op := by
    intro i op hop
    rw [List.getElem?_append_left (List.getElem?_eq_some_iff.mp hop).1, hop]
  cases b with
  | broken i =>
      -- the blame stays on the bracket it fell on
      obtain ⟨j, hj⟩ := h
      rw [Bracketing.after_broken]
      exact ⟨j, hold hj⟩
  | pending indices =>
      have hindices : ∀ i ∈ indices, ∃ j, (ops ++ [c])[i]? = some (.loopOpen j) := by
        intro i hi
        obtain ⟨j, hj⟩ := h i hi
        exact ⟨j, hold hj⟩
      cases c with
      | loopOpen k =>
          intro i hi
          rcases List.mem_cons.mp hi with rfl | hi
          · exact ⟨k, by simp⟩
          · exact hindices i hi
      | loopClose k =>
          -- with none pending the blame falls on this bracket
          cases indices with
          | nil => exact ⟨k, by simp⟩
          | cons i outer =>
              intro i' hi'
              exact hindices i' (List.mem_cons_of_mem i hi')
      | _ => exact hindices

theorem bracketing_within (ops : List Instruction) : (bracketing ops).Within ops := by
  induction ops using List.reverseRecOn with
  | nil =>
      intro i hi
      cases hi
  | append_singleton ops c ih =>
      rw [bracketing_concat]
      exact ih.after c

theorem blames_of_fault {ops : List Instruction} {e : CompileError}
    (h : (link ops).fault = some e) : e.Blames ops := by
  rw [link_fault] at h
  have hwithin := bracketing_within ops
  cases hb : bracketing ops with
  | broken i =>
      rw [hb] at h hwithin
      cases h
      exact hwithin
  | pending indices =>
      rw [hb] at h hwithin
      cases indices with
      | nil => cases h
      | cons i outer =>
          -- the innermost bracket is the one named
          cases h
          exact hwithin i (by simp)

/-! ## The bracketing of a shrunk list -/

open Peephole (settle shrink)

/-- Settling an instruction does to the bracketing what reading it does: a
merge is between flat instructions, and a loop that collapses has just been
closed. -/
theorem bracketing_settle (out : List Instruction) (c : Instruction) :
    bracketing (settle out c).reverse = (bracketing out.reverse).after out.length c := by
  rcases Peephole.settle_cases out c with ⟨_, _, hkeep⟩ | ⟨b, rest, d, rfl, hmerge, hd⟩ |
    ⟨a, b, rest, d, rfl, hcollapse, hd⟩
  · rw [hkeep, List.reverse_cons, bracketing_concat, List.length_reverse]
  · obtain ⟨hb, hc, hflat⟩ := Peephole.flat_of_merge hmerge
    simp only [hd, List.reverse_cons, bracketing_concat, Bracketing.after_flat hb.1 hb.2,
      Bracketing.after_flat hc.1 hc.2, Bracketing.after_flat hflat.1 hflat.2]
  · obtain ⟨⟨i, rfl⟩, hb, ⟨j, rfl⟩, hflat⟩ := Peephole.brackets_of_collapse hcollapse
    simp only [hd, List.reverse_cons, bracketing_concat, Bracketing.after_flat hb.1 hb.2,
      Bracketing.after_flat hflat.1 hflat.2, Bracketing.after_open_close]

/-- A shrunk list has the brackets of the list that linking can tell of, each
behind the shrunk instructions before it. -/
theorem bracketing_shrink (ops : List Instruction) :
    bracketing (shrink ops) = (bracketing ops).map fun r => (shrink (ops.take r)).length := by
  -- places are taken in the whole list, so that they do not change as the beginning grows
  have hfront : ∀ front rest : List Instruction, ops = front ++ rest →
      bracketing (shrink front) =
        (bracketing front).map fun r => (shrink (ops.take r)).length := by
    intro front
    induction front using List.reverseRecOn with
    | nil =>
        intro rest _
        rfl
    | append_singleton front c ih =>
        intro rest hops
        have hbefore := ih (c :: rest) (by simpa using hops)
        have hplace : (shrink front).length = (shrink (ops.take front.length)).length := by
          rw [hops, List.append_assoc, List.take_left]
        rw [Peephole.shrink_concat, bracketing_settle, List.reverse_reverse,
          List.length_reverse, hbefore, hplace, bracketing_concat]
        exact Bracketing.after_map _ _ _ _
  exact hfront ops [] (by simp)

theorem link_fault_shrink (ops : List Instruction) :
    (link (shrink ops)).fault =
      (link ops).fault.map (CompileError.relocate fun r => (shrink (ops.take r)).length) := by
  rw [link_fault, link_fault, bracketing_shrink, Bracketing.fault_map]

/-! ## Verdicts -/

theorem balanced_shrink_iff {ops : List Instruction} : Balanced (shrink ops) ↔ Balanced ops := by
  rw [← link_fault_eq_none_iff, ← link_fault_eq_none_iff, link_fault_shrink,
    Option.map_eq_none_iff]

/-- The brackets of a text balance, whatever else is in it: no beginning of
it has more closing than opening ones, and all of it has as many. -/
def BalancedText (cs : List Char) : Prop :=
  (∀ front, front <+: cs → front.count ']' ≤ front.count '[') ∧ cs.count ']' = cs.count '['

/-- Instructions of one kind that come from one character are as many as
that character. -/
theorem countP_ofChar? {kind : Instruction → Bool} {b : Char}
    (h : ∀ c, ((Instruction.ofChar? c).map kind).getD false = (c == b)) (cs : List Char) :
    (cs.filterMap Instruction.ofChar?).countP kind = cs.count b := by
  rw [List.countP_filterMap, List.count]
  exact List.countP_congr fun c _ => by simp [← h c]

theorem ofChar?_isOpen (c : Char) :
    ((Instruction.ofChar? c).map Instruction.isOpen).getD false = (c == '[') := by
  unfold Instruction.ofChar?
  split <;> simp_all [Instruction.isOpen]

theorem ofChar?_isClose (c : Char) :
    ((Instruction.ofChar? c).map Instruction.isClose).getD false = (c == ']') := by
  unfold Instruction.ofChar?
  split <;> simp_all [Instruction.isClose]

/-- The brackets of a text balance exactly if those of its instructions do. -/
theorem balanced_commands_iff {source : String} :
    Balanced (commands source) ↔ BalancedText source.toList := by
  have hopen := countP_ofChar? ofChar?_isOpen
  have hclose := countP_ofChar? ofChar?_isClose
  rw [commands_eq_filterMap, Balanced, BalancedText, hopen, hclose]
  refine and_congr_left fun _ => ?_
  constructor
  · intro h front hfront
    have hcount := h _ (hfront.filterMap Instruction.ofChar?)
    rwa [hopen, hclose] at hcount
  · intro h front hfront
    -- a front of the commands is read off a front of the text
    obtain ⟨cs, hcs, rfl⟩ := List.prefix_filterMap_iff.mp hfront
    rw [hopen, hclose]
    exact h cs hcs

/-- A text compiles, with the pass or without it, exactly if its brackets
balance. -/
theorem compile_isOk_iff {optimize : Bool} {source : String} :
    (∃ p, compile optimize source = .ok p) ↔ BalancedText source.toList := by
  unfold compile
  rw [ofInstructions_isOk_iff, ← balanced_commands_iff]
  cases optimize with
  | false => exact Iff.rfl
  | true => exact balanced_shrink_iff

/-- The pass changes neither whether a list is rejected nor why. If the fault
is with the bracket at `r`, the shrunk list has the same fault with a
bracket of the same kind, which stands behind the shrunk instructions before
`r`. So a text is accepted with the pass and without it exactly if its
brackets balance. -/
theorem shrink_keeps_verdict (ops : List Instruction) (source : String) :
    ((∃ p, Program.ofInstructions ops = .ok p) ↔
      ∃ p, Program.ofInstructions (shrink ops) = .ok p) ∧
    (∀ e, Program.ofInstructions ops = .error e →
      e.Blames ops ∧
      Program.ofInstructions (shrink ops) =
        .error (e.relocate fun r => (shrink (ops.take r)).length) ∧
      (e.relocate fun r => (shrink (ops.take r)).length).Blames (shrink ops)) ∧
    ∀ optimize, (∃ p, compile optimize source = .ok p) ↔ BalancedText source.toList := by
  refine ⟨?_, fun e he => ?_, fun optimize => compile_isOk_iff⟩
  · rw [ofInstructions_isOk_iff, ofInstructions_isOk_iff, balanced_shrink_iff]
  · have hfault := ofInstructions_eq_error_iff.mp he
    have hshrunk := link_fault_shrink ops
    rw [hfault] at hshrunk
    exact ⟨blames_of_fault hfault, ofInstructions_eq_error_iff.mpr hshrunk,
      blames_of_fault hshrunk⟩

/-- In `+[-]]` the fault is with the last of five instructions; two are left
before it by the pass. -/
theorem extra_close_keeps_verdict :
    Program.ofInstructions [.add 1, .loopOpen 0, .add (-1), .loopClose 0, .loopClose 0] =
      .error (.unopened 4) ∧
    Program.ofInstructions
        (shrink [.add 1, .loopOpen 0, .add (-1), .loopClose 0, .loopClose 0]) =
      .error (.unopened 2) := by
  have hplain : Program.ofInstructions
      [.add 1, .loopOpen 0, .add (-1), .loopClose 0, .loopClose 0] = .error (.unopened 4) := rfl
  exact ⟨hplain, ((shrink_keeps_verdict _ "").2.1 _ hplain).2.1⟩

end TapeLang
