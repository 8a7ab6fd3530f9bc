import TapeLang.Token

/-!
# TapeLang.Token.Table — tokens as lines of text

One line per token: its place, the kind of its instruction in a column of
eight, and the instruction itself, either as a term or as the character
that stands for it. The last two may be coloured with terminal escapes.
-/

namespace TapeLang.Token.Table

/-- How a token table is written. -/
structure Style where
  /-- Wrap kind and instruction in terminal colours. -/
  colored : Bool := true
  /-- Show the command character instead of the term. -/
  quoted : Bool := false
deriving DecidableEq, Repr

/-- The kind of an instruction. -/
def kind : Instruction → String
  | .move _ => "MOVE"
  | .add _ => "MOD"
  | .loopOpen _ | .loopClose _ => "LOOP"
  | .print | .read => "IO"
  | .set _ | .seek _ | .halt => "SYNTH"

/-- The terminal escape that goes back to plain text. -/
def reset : String := "\x1b[0m"

/-- The terminal escape for the colour of an instruction. Instructions
that no command stands for have none of their own. -/
def color : Instruction → String
  | .move _ => "\x1b[33m"
  | .add _ => "\x1b[36m"
  | .loopOpen _ | .loopClose _ => "\x1b[35m"
  | .print => "\x1b[32m"
  | .read => "\x1b[31m"
  | .set _ | .seek _ | .halt => reset

/-- The command character of an instruction, whatever its amount; `?` if
there is none. -/
def symbol : Instruction → Char
  | .move n => if n < 0 then '<' else '>'
  | .add n => if n < 0 then '-' else '+'
  | .print => '.'
  | .read => ','
  | .loopOpen _ => '['
  | .loopClose _ => ']'
  | .set _ | .seek _ | .halt => '?'

/-- The instruction part of a line. -/
def label (style : Style) (op : Instruction) : String :=
  if style.quoted then "'" ++ String.singleton (symbol op) ++ "'" else op.term

/-- The line of one token. -/
def line (style : Style) (t : Token) : String :=
  let before := if style.colored then color t.instruction else ""
  let behind := if style.colored then reset else ""
  "[" ++ Text.padded 2 t.position.line ++ ":" ++ Text.padded 2 t.position.column ++ "] "
    ++ before ++ Text.column 8 (kind t.instruction) ++ " " ++ label style t.instruction ++ behind

/-- The table of a list of tokens. -/
def render (style : Style) (tokens : List Token) : String :=
  Text.ofLines (tokens.map (line style))

end TapeLang.Token.Table
