/-!
# TapeLang.Command.Options — what the arguments ask for

The arguments are read from left to right as a sequence of items: a flag,
a step limit with its value, or a file name. The items then say what the
options are.

* `Item.readAll` — the items, or the first argument that is none;
* `Options.ofItems` — a flag counts however often it is given, the last
  step limit and the first file name win;
* `Options.ofArguments` — both together.
-/

namespace TapeLang.Command

/-- A switch. -/
inductive Flag where
  /-- Run the program. -/
  | run
  /-- Show the listing. -/
  | listing
  /-- Show the tokens. -/
  | tokens
  /-- Show the tokens without colours. -/
  | noColor
  /-- Show command characters in the token table. -/
  | pretty
  /-- Leave out the peephole pass. -/
  | noOpt
deriving DecidableEq, Repr

/-- The switch that an argument names. -/
def Flag.ofString? : String → Option Flag
  | "--run" => some .run
  | "--bc" => some .listing
  | "--bytecode" => some .listing
  | "--tokens" => some .tokens
  | "--no-color" => some .noColor
  | "--pretty" => some .pretty
  | "--no-opt" => some .noOpt
  | _ => none

/-- What one or two arguments say. -/
inductive Item where
  | flag (f : Flag)
  | maxSteps (limit : Nat)
  | file (name : String)
deriving DecidableEq, Repr

/-- Why the arguments cannot be read. -/
inductive ArgumentError where
  /-- An argument that begins like a flag and is none. -/
  | unknownFlag (flag : String)
  /-- A step limit that is no number of steps. -/
  | invalidStepCount (value : String)
  /-- A step limit with nothing behind it. -/
  | missingStepCount
deriving DecidableEq, Repr

/-- The wording of an argument error. -/
def ArgumentError.message : ArgumentError → String
  | .unknownFlag flag => "unknown flag '" ++ flag ++ "'"
  | .invalidStepCount value => "invalid step count '" ++ value ++ "'"
  | .missingStepCount => "--max-steps needs a value"

/-- The value of a row of decimal digits. -/
def digitsValue (digits : List Char) : Nat :=
  digits.foldl (fun n c => 10 * n + (c.toNat - '0'.toNat)) 0

/-- A number of steps: at least one decimal digit, with at most one plus in
front, and a value below 2⁶⁴. -/
def stepCount? (text : String) : Option Nat :=
  let digits :=
    match text.toList with
    | '+' :: rest => rest
    | cs => cs
  if digits ≠ [] ∧ digits.all Char.isDigit ∧ digitsValue digits < UInt64.size then
    some (digitsValue digits)
  else
    none

/-- Whether an argument has to be a flag. -/
def looksLikeFlag (arg : String) : Bool :=
  arg.toList.head? = some '-'

/-- The items that the arguments consist of. -/
def Item.readAll : List String → Except ArgumentError (List Item)
  | [] => .ok []
  | "--max-steps" :: rest =>
    match rest with
    | [] => .error .missingStepCount
    | value :: rest =>
      match stepCount? value with
      | none => .error (.invalidStepCount value)
      | some n => (readAll rest).map (.maxSteps n :: ·)
  | arg :: rest =>
    match Flag.ofString? arg with
    | some f => (readAll rest).map (.flag f :: ·)
    | none =>
      if looksLikeFlag arg then .error (.unknownFlag arg)
      else (readAll rest).map (.file arg :: ·)

/-- What a command is to do. -/
structure Options where
  /-- Run the program. -/
  run : Bool := false
  /-- Show the listing. -/
  listing : Bool := false
  /-- Show the tokens. -/
  tokens : Bool := false
  /-- Leave out the colours of the token table. -/
  noColor : Bool := false
  /-- Show command characters in the token table. -/
  pretty : Bool := false
  /-- Make a peephole pass. -/
  optimize : Bool := true
  /-- The step limit of a run. -/
  maxSteps : Option Nat := none
  /-- The source file. -/
  filename : Option String := none
deriving DecidableEq, Repr

namespace Options

/-- The options with one switch set. -/
def switch (o : Options) : Flag → Options
  | .run => { o with run := true }
  | .listing => { o with listing := true }
  | .tokens => { o with tokens := true }
  | .noColor => { o with noColor := true }
  | .pretty => { o with pretty := true }
  | .noOpt => { o with optimize := false }

/-- The options after one more item. -/
def apply (o : Options) : Item → Options
  | .flag f => o.switch f
  | .maxSteps n => { o with maxSteps := some n }
  | .file name => { o with filename := o.filename <|> some name }

/-- The options that a sequence of items asks for. -/
def ofItems (items : List Item) : Options :=
  items.foldl apply {}

/-- The options that the arguments ask for. -/
def ofArguments (args : List String) : Except ArgumentError Options :=
  (Item.readAll args).map ofItems

end Options

end TapeLang.Command
