import Std.Data.HashSet
import TapeLang.Program

/-!
# TapeLang.Listing — instructions as lines of text

One line per instruction, with its index. Where a bracket can send the
run, a rule is drawn above the line and the line is marked.
-/

namespace TapeLang.Listing

/-- Where a run goes on when the jump of `op` is taken: behind the
partner. -/
def resume? (op : Instruction) : Option Nat :=
  op.partner?.map (· + 1)

/-- The indices behind a partner of some bracket in `ops`. -/
def targets (ops : List Instruction) : Std.HashSet Nat :=
  Std.HashSet.ofList (ops.filterMap resume?)

/-- The operand of a bracket at `ip`: which way it jumps, and where to. -/
def jump (ip partner : Nat) : String :=
  (if partner < ip then "↑" else "↓") ++ " (→ " ++ Text.padded 4 partner ++ ")"

/-- What stands behind the name of an instruction at `ip`. -/
def operands (ip : Nat) : Instruction → String
  | .move n => Text.withSign n.toInt
  | .add n => Text.withSign n.toInt
  | .set n => Text.signed n.toInt
  | .seek n => Text.withSign n.toInt ++ "   ; stride until cell == 0"
  | .loopOpen j => jump ip j ++ " ; if cell == 0"
  | .loopClose j => jump ip j ++ " ; if cell != 0"
  | .print => "; ( cell -- )"
  | .read => "; unsupported"
  | .halt => ""

/-- The instruction part of a line. An instruction with nothing behind its
name is written without trailing blanks. -/
def body (ip : Nat) (op : Instruction) : String :=
  match op with
  | .halt => op.mnemonic
  | _ => Text.column 12 op.mnemonic ++ operands ip op

/-- The rule above a line that a jump leads to. -/
def rule : String := "      ┌──────────────────────────────────"

/-- The lines of the instruction at `ip`: itself, below a rule if a jump
leads there. -/
def entry (marked : Bool) (ip : Nat) (op : Instruction) : List String :=
  if marked then [rule, Text.padded 4 ip ++ " ► " ++ body ip op]
  else [Text.padded 4 ip ++ "   " ++ body ip op]

/-- The listing of a list of instructions. -/
def render (ops : List Instruction) : String :=
  let marks := targets ops
  Text.ofLines (ops.mapIdx fun ip op => entry (marks.contains ip) ip op).flatten

/-- The line above and below the heading of a program. -/
def border : String := "════════════════════════════════════════"

/-- The listing of a whole program, below a heading. -/
def titled (p : Program) : String :=
  Text.ofLines [border, " main", " " ++ Nat.repr p.code.size ++ " instructions", border]
    ++ render p.code.toList

end TapeLang.Listing
