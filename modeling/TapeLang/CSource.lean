import TapeLang.Program
import TapeLang.Tape

/-!
# TapeLang.CSource — a program as C text

The text is a `main` with a `char` array for the tape and a `size_t` for
the head. Brackets become the two ends of a `while` block, so only their
nesting is used and not their partners. Amounts for a cell are written as
the cell will see them, cut to eight bits.

* `Statement` — a line of the body;
* `body` — the statements of a program, in order;
* `indented` — statements laid out by the depth of the blocks around them;
* `render` — the whole text, or the `read` that has none.
-/

namespace TapeLang.CSource

/-- A line of the body. -/
inductive Statement where
  /-- Move the head. -/
  | advance (offset : Int32)
  /-- Add to the cell. -/
  | increase (amount : Int8)
  /-- Set the cell. -/
  | assign (value : Int8)
  /-- Begin a block that is repeated while the cell is not zero. -/
  | openWhile
  /-- End the innermost block. -/
  | closeWhile
  /-- Move the head until the cell is zero. -/
  | scan (stride : Int32)
  /-- Write the cell. -/
  | putchar
deriving DecidableEq, Repr

/-- The text of a statement. -/
def Statement.text : Statement → String
  | .advance n => "pos += " ++ Text.signed n.toInt ++ ";"
  | .increase n => "memory[pos] += " ++ Text.signed n.toInt ++ ";"
  | .assign n => "memory[pos] = " ++ Text.signed n.toInt ++ ";"
  | .openWhile => "while (memory[pos] != 0) \x7b"
  | .closeWhile => "\x7d"
  | .scan n => "while (memory[pos] != 0) \x7b pos += " ++ Text.signed n.toInt ++ "; \x7d"
  | .putchar => "putchar(memory[pos]);"

/-- The statement of an instruction. The end of the program needs none, and
a `read` has none. -/
def Statement.ofInstruction? : Instruction → Option Statement
  | .move n => some (.advance n)
  | .add n => some (.increase n.toInt8)
  | .loopOpen _ => some .openWhile
  | .loopClose _ => some .closeWhile
  | .set v => some (.assign v.toInt8)
  | .seek k => some (.scan k)
  | .print => some .putchar
  | .read | .halt => none

/-- The statements of a program, in order. -/
def body (p : Program) : List Statement :=
  p.code.toList.filterMap Statement.ofInstruction?

/-- A line of text inside `depth` blocks. -/
def indent (depth : Nat) (text : String) : String :=
  String.ofList (List.replicate (2 * depth) ' ') ++ text

/-- Adds the lines of the statements to `lines`, the first of them being
inside `depth` blocks, and gives the depth behind the last one. The two
ends of a block stand at the depth around it. -/
def indented (lines : Array String) (depth : Nat) : List Statement → Array String × Nat
  | [] => (lines, depth)
  | .openWhile :: rest =>
    indented (lines.push (indent depth Statement.openWhile.text)) (depth + 1) rest
  | .closeWhile :: rest =>
    indented (lines.push (indent (depth - 1) Statement.closeWhile.text)) (depth - 1) rest
  | s :: rest => indented (lines.push (indent depth s.text)) depth rest

/-- The lines before the body, which is inside one block. -/
def prologue : List String :=
  ["#include <stdio.h>", "#include <stdlib.h>", "#include <string.h>", "", "int main(void) \x7b",
    indent 1 ("char memory[" ++ Nat.repr tapeLength ++ "];"),
    indent 1 "memset(memory, 0, sizeof(memory));",
    indent 1 "size_t pos = 0;"]

/-- The lines behind a body that ends inside `depth` blocks. -/
def epilogue (depth : Nat) : List String :=
  [indent depth "return 0;", indent (depth - 1) "\x7d"]

/-- The text of a list of statements. -/
def text (statements : List Statement) : String :=
  match indented #[] 1 statements with
  | (lines, depth) => Text.ofLines (prologue ++ lines.toList ++ epilogue depth)

/-- The C text of a program, or the first `read` in it. -/
def render (p : Program) : Except CompileError String :=
  match p.code.findIdx? (· = .read) with
  | some i => .error (.unsupported ⟨i⟩)
  | none => .ok (text (body p))

end TapeLang.CSource
