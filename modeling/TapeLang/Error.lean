import TapeLang.Text

/-!
# TapeLang.Error — what can go wrong, and how it is said

Each way to fail is a constructor that carries the facts; the wording is in
the `message` function of its type and nowhere else. Instruction indices
are written with at least four digits.
-/

namespace TapeLang

/-- A `read` that was met while running, or while writing C. -/
structure UnsupportedRead where
  index : Nat
deriving DecidableEq, Repr

/-- The wording, which is part of a longer message. -/
def UnsupportedRead.message (e : UnsupportedRead) : String :=
  "unsupported instruction: READ at " ++ Text.padded 4 e.index ++ " (input is not implemented)"

/-- Why a list of instructions is not a program, or has no C text. -/
inductive CompileError where
  /-- A closing bracket with no open one before it. -/
  | unopened (index : Nat)
  /-- An opening bracket that is never closed. -/
  | unclosed (index : Nat)
  /-- An instruction that has no C text. -/
  | unsupported (read : UnsupportedRead)
deriving DecidableEq, Repr

/-- The wording of a compile error. -/
def CompileError.message : CompileError → String
  | .unopened i => "compile error: missing loop start for ']' at instruction " ++ Text.padded 4 i
  | .unclosed i => "compile error: missing loop end for '[' at instruction " ++ Text.padded 4 i
  | .unsupported e => "compile error: " ++ e.message

/-- Why a run stopped before the end of its program. -/
inductive RuntimeError where
  /-- An instruction that cannot be executed. -/
  | unsupported (read : UnsupportedRead)
  /-- The instruction at `ip` needed the cell under a head off the tape. -/
  | offTape (head : Int64) (ip : Nat)
  /-- More than `limit` steps were needed. -/
  | stepLimit (limit : Nat)
  /-- The writer did not take the output. -/
  | output (cause : String)
deriving DecidableEq, Repr

/-- The wording of a runtime error. -/
def RuntimeError.message : RuntimeError → String
  | .unsupported e => "runtime error: " ++ e.message
  | .offTape head ip =>
    "runtime error: cell " ++ Text.signed head.toInt ++ " is outside the tape (instruction "
      ++ Text.padded 4 ip ++ ")"
  | .stepLimit limit => "runtime error: execution step limit exceeded (" ++ Nat.repr limit ++ ")"
  | .output cause => "runtime error: cannot write output: " ++ cause

/-- Anything that ends a command with a failure. -/
inductive Error where
  | compile (e : CompileError)
  | runtime (e : RuntimeError)
  /-- The source file could not be read. -/
  | readSource (path cause : String)
  /-- The output file could not be written. -/
  | writeOutput (path cause : String)
deriving DecidableEq, Repr

namespace Error

/-- The wording of an error. -/
def message : Error → String
  | .compile e => e.message
  | .runtime e => e.message
  | .readSource path cause => "cannot read '" ++ path ++ "': " ++ cause
  | .writeOutput path cause => "cannot write '" ++ path ++ "': " ++ cause

/-- The `read` that is to blame, if one is. -/
def unsupported? : Error → Option UnsupportedRead
  | .compile (.unsupported e) => some e
  | .runtime (.unsupported e) => some e
  | _ => none

end Error

end TapeLang
