import TapeLang.Text

/-!
# TapeLang.Instruction — the instruction set

The eight commands of the language and the three instructions that only
the compiler writes: `set` and `seek` stand for whole loops, `halt` ends a
program. Operands of `move`, `add`, `set` and `seek` are 32-bit words, so
that merging them wraps; the operand of a bracket is the index of its
partner, which is 0 until the program is linked.
-/

namespace TapeLang

/-- One instruction. -/
inductive Instruction where
  /-- Shift the head by `offset` cells. -/
  | move (offset : Int32)
  /-- Add `amount` to the current cell. -/
  | add (amount : Int32)
  /-- Skip past `partner` if the current cell is zero. -/
  | loopOpen (partner : Nat)
  /-- Go back behind `partner` unless the current cell is zero. -/
  | loopClose (partner : Nat)
  /-- Put `value` into the current cell. -/
  | set (value : Int32)
  /-- Shift the head by `stride` until the current cell is zero. -/
  | seek (stride : Int32)
  /-- Write the current cell as one byte. -/
  | print
  /-- Read one byte. Nothing implements it. -/
  | read
  /-- End the program. -/
  | halt
deriving DecidableEq, Repr, Inhabited

namespace Instruction

/-- The instruction that a command character stands for. Every other
character is a comment. -/
def ofChar? : Char → Option Instruction
  | '<' => some (.move (-1))
  | '>' => some (.move 1)
  | '-' => some (.add (-1))
  | '+' => some (.add 1)
  | '.' => some .print
  | ',' => some .read
  | '[' => some (.loopOpen 0)
  | ']' => some (.loopClose 0)
  | _ => none

/-- The name of an instruction in a listing. -/
def mnemonic : Instruction → String
  | .move _ => "MOVE"
  | .add _ => "MOD"
  | .loopOpen _ => "LOOP_OPEN"
  | .loopClose _ => "LOOP_CLOSE"
  | .set _ => "SET_CELL"
  | .seek _ => "SEARCH_ZERO"
  | .print => "PRINT"
  | .read => "READ"
  | .halt => "END"

/-- An instruction as a term, with its operand in brackets. -/
def term : Instruction → String
  | .move n => "Move(" ++ Text.signed n.toInt ++ ")"
  | .add n => "Mod(" ++ Text.signed n.toInt ++ ")"
  | .loopOpen j => "LoopOpen(" ++ Nat.repr j ++ ")"
  | .loopClose j => "LoopClose(" ++ Nat.repr j ++ ")"
  | .set n => "SetCell(" ++ Text.signed n.toInt ++ ")"
  | .seek n => "SearchZeroCell(" ++ Text.signed n.toInt ++ ")"
  | .print => "Print"
  | .read => "Read"
  | .halt => "End"

/-- The partner index that a bracket carries. -/
def partner? : Instruction → Option Nat
  | .loopOpen j => some j
  | .loopClose j => some j
  | _ => none

end Instruction

end TapeLang
