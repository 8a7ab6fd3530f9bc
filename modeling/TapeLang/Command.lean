import TapeLang.CSource
import TapeLang.Command.Options
import TapeLang.FileTree
import TapeLang.Listing
import TapeLang.Machine
import TapeLang.Token.Table

/-!
# TapeLang.Command — the command line as a function

A command reads one source file and does one thing with it. What it does is
decided in two steps that need no files, `Plan.ofArguments` from the
arguments and `Task.ofSource` from the source text; `run?` carries both out
on a file tree and a standard output, which is a sink and may fail. A failed
run says so in its report; whatever else cannot be printed breaks the
command off.

Of two reasons to stop, the earlier in this order wins: help, arguments
that cannot be read, no file named, a file that cannot be read, the token
table, a program that does not compile, the listing, a run, C text.
-/

namespace TapeLang.Command

/-- The file that the C text goes to. -/
def outputFile : String := "generated.c"

/-- How the command is used. -/
def usage : String :=
  Text.ofLines [
    "TAPEC - compiler for the eight-command tape language",
    "",
    "Usage:",
    "  tapec <file>                 Compile to C and write " ++ outputFile,
    "  tapec --run <file>           Interpret the program instead",
    "  tapec --bc <file>            Show the optimized instruction listing",
    "  tapec --tokens <file>        Show the commands found by the lexer",
    "",
    "Flags:",
    "  --no-opt                     Skip the peephole optimizer",
    "  --max-steps <n>              Stop interpretation after n steps",
    "  --no-color, --pretty         Token dump formatting",
    "  --help, -h                   Show this help"]

/-- What the arguments come to. -/
inductive Plan where
  /-- Explain how the command is used. -/
  | help
  /-- Explain that, and what is wrong with the arguments. -/
  | reject (e : ArgumentError)
  /-- Explain it because no file is named. -/
  | noFile
  /-- Read a source file and go on. -/
  | process (path : String) (options : Options)
deriving DecidableEq, Repr

/-- The plan for a list of arguments. Asking for help anywhere beats
everything else. -/
def Plan.ofArguments (args : List String) : Plan :=
  if args = [] ∨ "--help" ∈ args ∨ "-h" ∈ args then .help
  else
    match Options.ofArguments args with
    | .error e => .reject e
    | .ok options =>
      match options.filename with
      | none => .noFile
      | some path => .process path options

/-- What is left to do once the source text is known. -/
inductive Task where
  /-- Print a text. -/
  | display (text : String)
  /-- Run a program. -/
  | run (p : Program) (limit : Option Nat)
  /-- Write C text to the output file. -/
  | write (text : String)
  /-- Give up. -/
  | fail (e : Error)

/-- The task for a source text. -/
def Task.ofSource (options : Options) (source : String) : Task :=
  if options.tokens then
    .display (Token.Table.render ⟨!options.noColor, options.pretty⟩ (tokenize source))
  else
    match compile options.optimize source with
    | .error e => .fail (.compile e)
    | .ok p =>
      if options.listing then .display (Listing.titled p)
      else if options.run then .run p options.maxSteps
      else
        match CSource.render p with
        | .error e => .fail (.compile e)
        | .ok text => .write text

/-- What a command leaves besides files. -/
structure Report where
  /-- The exit code. -/
  code : UInt8 := 0
  /-- The bytes that standard output holds. -/
  output : ByteArray := ByteArray.empty
  /-- The text on standard error. -/
  errors : String := ""

namespace Report

instance : DecidableEq Report := fun r s =>
  decidable_of_iff (r.code = s.code ∧ r.output.data = s.output.data ∧ r.errors = s.errors)
    (by cases r; cases s; simp [ByteArray.ext_iff])

/-- Failure for the reason `e`, after what `out` holds has been printed. -/
def failure (e : Error) (out : Sink := {}) : Report :=
  { code := 1, output := out.content, errors := e.message ++ "\n" }

/-- The report `r` of a command that is broken off because it cannot print.
Of what is said about it, the cause is kept. -/
def brokenOff (r : Report) (cause : String) : Report :=
  { r with code := 101, errors := r.errors ++ "failed printing to stdout: " ++ cause ++ "\n" }

/-- The report `r`, once a text has been printed to `out`. -/
def printing (text : String) (out : Sink) (r : Report := {}) : Report :=
  match Writer.sendAll Writer.put out text.toUTF8.data.toList with
  | (none, out) => { r with output := out.content }
  | (some cause, out) => brokenOff { r with output := out.content } cause

/-- The report of a run that printed to a sink. -/
def ofResult (r : Result Sink) : Report :=
  match r.failure with
  | none => { output := r.state.writer.content }
  | some e => failure (.runtime e) r.state.writer

end Report

/-- Carries out a task, with `out` as standard output. A run without a step
limit is given `fuel`, and if it needs more there is no report. -/
def Task.perform? (fuel : Nat) (tree : FileTree) (out : Sink) :
    Task → Option (Report × FileTree)
  | .display text => some (Report.printing text out, tree)
  | .run p limit => (p.run? limit fuel out).map fun r => (Report.ofResult r, tree)
  | .write text =>
    match tree.write outputFile text.toUTF8 with
    | .ok tree => some ({ output := out.content }, tree)
    | .error e => some (Report.failure (.writeOutput outputFile e.message) out, tree)
  | .fail e => some (Report.failure e out, tree)

/-- Carries out a plan. -/
def Plan.perform? (fuel : Nat) (tree : FileTree) (out : Sink) : Plan → Option (Report × FileTree)
  | .help => some (Report.printing usage out, tree)
  | .reject e =>
    some (Report.printing usage out { code := 1, errors := "Error: " ++ e.message ++ "\n" }, tree)
  | .noFile => some (Report.printing usage out { code := 1 }, tree)
  | .process path options =>
    match tree.readText path with
    | .error e => some (Report.failure (.readSource path e.message) out, tree)
    | .ok source => (Task.ofSource options source).perform? fuel tree out

/-- One command on a file tree. What it prints goes to `out`, which is a
sink that never fails unless another one is given. -/
def run? (fuel : Nat) (args : List String) (tree : FileTree) (out : Sink := {}) :
    Option (Report × FileTree) :=
  (Plan.ofArguments args).perform? fuel tree out

end TapeLang.Command
