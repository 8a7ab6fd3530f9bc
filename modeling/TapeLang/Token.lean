import TapeLang.Instruction

/-!
# TapeLang.Token — commands found in a source text

A source text is any sequence of characters. Each command character yields
one token, which knows where it stood; everything else is a comment, so
reading a text cannot fail.

* `Position.after` — how a character moves the position in the text;
* `Reader` — a text that has been read up to some position;
* `tokenize` and `commands` — all tokens, or only their instructions.
-/

namespace TapeLang

/-- A place in a text. Lines and columns count from 1, and columns count
characters. -/
structure Position where
  line : Nat := 1
  column : Nat := 1
deriving DecidableEq, Repr, Inhabited

/-- The place behind the character `c`. Only a newline ends a line. -/
def Position.after (p : Position) (c : Char) : Position :=
  if c = '\n' then ⟨p.line + 1, 1⟩ else ⟨p.line, p.column + 1⟩

/-- A command and the place of its character. -/
structure Token where
  instruction : Instruction
  position : Position
deriving DecidableEq, Repr, Inhabited

/-- A text in the middle of being read: what is left of it, and where that
begins. -/
structure Reader where
  rest : List Char
  position : Position := {}
deriving DecidableEq, Repr

namespace Reader

/-- A text of which nothing has been read. -/
def ofString (source : String) : Reader :=
  { rest := source.toList }

/-- Reads to the end, adding the tokens met to `found`. -/
def scan (found : Array Token) (p : Position) : List Char → Array Token × Reader
  | [] => (found, { rest := [], position := p })
  | c :: cs =>
    match Instruction.ofChar? c with
    | some op => scan (found.push ⟨op, p⟩) (p.after c) cs
    | none => scan found (p.after c) cs

/-- The tokens of what is left, and the reader at the end of the text. -/
def tokens (r : Reader) : List Token × Reader :=
  match scan #[] r.position r.rest with
  | (found, r') => (found.toList, r')

end Reader

/-- All tokens of a source text, in order. -/
def tokenize (source : String) : List Token :=
  (Reader.ofString source).tokens.1

/-- All commands of a source text, in order. -/
def commands (source : String) : List Instruction :=
  (tokenize source).map (·.instruction)

end TapeLang
