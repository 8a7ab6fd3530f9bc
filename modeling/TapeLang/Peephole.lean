import TapeLang.Instruction

/-!
# TapeLang.Peephole — merging neighbours and recognising loop idioms

One forward pass with a window of at most two pending instructions. A
pending instruction has not been emitted, so what comes next can still
merge into it or close an idiom around it.

* `merge` — two neighbours that do the work of one;
* `collapse` — a loop of one instruction that does the work of one: taking
  one off until the cell is zero sets it to zero, and moving until the
  cell is zero is a search;
* `Window.push` — one instruction enters, at most one leaves;
* `shrink` — the pass over a whole list.

Amounts add up modulo 2³². A merge that sums to zero stays.
-/

namespace TapeLang.Peephole

/-- The one instruction that replaces two neighbours, if there is one. -/
def merge : Instruction → Instruction → Option Instruction
  | .move a, .move b => some (.move (a + b))
  | .add a, .add b => some (.add (a + b))
  | .set v, .add m => some (.set (v + m))
  | _, _ => none

/-- The one instruction that replaces a loop around one instruction, if
there is one. -/
def collapse : Instruction → Instruction → Instruction → Option Instruction
  | .loopOpen _, .add n, .loopClose _ => if n = -1 then some (.set 0) else none
  | .loopOpen _, .move k, .loopClose _ => some (.seek k)
  | _, _, _ => none

/-- The pending instructions, oldest first. -/
inductive Window where
  | empty
  | one (last : Instruction)
  | two (older last : Instruction)
deriving DecidableEq, Repr, Inhabited

namespace Window

/-- The pending instructions as a list, oldest first. -/
def toList : Window → List Instruction
  | .empty => []
  | .one b => [b]
  | .two a b => [a, b]

/-- The window after `c` has entered, and the instruction that had to leave
for it. -/
def push : Window → Instruction → Window × Option Instruction
  | .empty, c => (.one c, none)
  | .one b, c =>
    match merge b c with
    | some d => (.one d, none)
    | none => (.two b c, none)
  | .two a b, c =>
    match merge b c with
    | some d => (.two a d, none)
    | none =>
      match collapse a b c with
      | some d => (.one d, none)
      | none => (.two b c, some a)

end Window

/-- A pass under way: what has been emitted, and what is pending. -/
structure Pass where
  emitted : Array Instruction := #[]
  window : Window := .empty
deriving DecidableEq, Repr

namespace Pass

/-- The pass after one more instruction. -/
def push (s : Pass) (op : Instruction) : Pass :=
  match s.window.push op with
  | (w, none) => { s with window := w }
  | (w, some out) => { emitted := s.emitted.push out, window := w }

/-- All instructions of the pass: the emitted ones, then the pending ones. -/
def finish (s : Pass) : List Instruction :=
  s.emitted.toList ++ s.window.toList

end Pass

/-- The list after one pass. -/
def shrink (ops : List Instruction) : List Instruction :=
  (ops.foldl Pass.push {}).finish

end TapeLang.Peephole
