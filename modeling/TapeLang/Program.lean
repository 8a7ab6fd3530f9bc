import TapeLang.Error
import TapeLang.Peephole
import TapeLang.Token

/-!
# TapeLang.Program — linking brackets into a program

A program is a list of instructions in which every bracket carries the
index of its partner, closed by a `halt`. `link` goes through the list once
with the indices of the brackets that are still open, innermost first.
Where it cannot go on, it leaves the pairs that it has closed so far.

* `link` — the outcome and the instructions as they were left;
* `Program.ofInstructions` — only the outcome;
* `compile` — from source text, with or without the peephole pass.
-/

namespace TapeLang

/-- Linked code, ready to run. -/
structure Program where
  code : Array Instruction
deriving DecidableEq, Repr

/-- What linking made of a list: the instructions as they were left, and
what stopped it, if something did. -/
structure Linking where
  code : Array Instruction
  fault : Option CompileError
deriving DecidableEq, Repr

namespace Linking

/-- Links the rest of a list. `code` is what has been linked, and `pending`
holds the indices in it of the brackets still open, innermost first. -/
def extend (code : Array Instruction) (pending : List Nat) : List Instruction → Linking
  | [] =>
    match pending with
    | [] => { code := code.push .halt, fault := none }
    | i :: _ => { code, fault := some (.unclosed i) }
  | .loopOpen j :: rest =>
    let i := code.size
    extend (code.push (.loopOpen j)) (i :: pending) rest
  | .loopClose j :: rest =>
    match pending with
    | [] =>
      { code := code ++ (.loopClose j :: rest), fault := some (.unopened code.size) }
    | i :: pending =>
      extend ((code.setIfInBounds i (.loopOpen code.size)).push (.loopClose i)) pending rest
  | op :: rest => extend (code.push op) pending rest

end Linking

/-- Gives each bracket the index of its partner, and adds the final
`halt`. -/
def link (ops : List Instruction) : Linking :=
  Linking.extend #[] [] ops

namespace Program

/-- The program of a list of instructions whose brackets pair up. -/
def ofInstructions (ops : List Instruction) : Except CompileError Program :=
  match link ops with
  | { code, fault := none } => .ok { code }
  | { fault := some e, .. } => .error e

/-- The instruction at `ip`. Behind the code there is nothing to do. -/
def fetch (p : Program) (ip : Nat) : Instruction :=
  p.code.getD ip .halt

end Program

/-- The program of a source text, after a peephole pass if `optimize`. -/
def compile (optimize : Bool) (source : String) : Except CompileError Program :=
  let ops := commands source
  Program.ofInstructions (if optimize then Peephole.shrink ops else ops)

end TapeLang
