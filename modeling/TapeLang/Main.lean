import TapeLang.Command
import TapeLang.Stream

/-!
# TapeLang.Main — the command

Carries out `Command.Plan` and `Command.Task` on real files and standard
streams.
-/

namespace TapeLang.Command

/-- The wording of an error number of the operating system, which may come
negated. Where the library has no wording for it, `details` serves. -/
def osMessage (code : UInt32) (details : String) : String :=
  let n := if code < 0x80000000 then code.toNat else (-code).toNat
  match FileFailure.ofCode? n with
  | some e => e.message
  | none => details ++ " (os error " ++ Nat.repr n ++ ")"

/-- The cause of a failed file or stream operation. -/
def causeOf : IO.Error → String
  | .alreadyExists _ code details => osMessage code details
  | .otherError code details => osMessage code details
  | .resourceBusy code details => osMessage code details
  | .resourceVanished code details => osMessage code details
  | .unsupportedOperation code details => osMessage code details
  | .hardwareFault code details => osMessage code details
  | .unsatisfiedConstraints code details => osMessage code details
  | .illegalOperation code details => osMessage code details
  | .protocolError code details => osMessage code details
  | .timeExpired code details => osMessage code details
  | .interrupted _ code details => osMessage code details
  | .noFileOrDirectory _ code details => osMessage code details
  | .invalidArgument _ code details => osMessage code details
  | .permissionDenied _ code details => osMessage code details
  | .resourceExhausted _ code details => osMessage code details
  | .inappropriateType _ code details => osMessage code details
  | .noSuchThing _ code details => osMessage code details
  | .unexpectedEof => "unexpected end of file"
  | .userError message => message

/-- Passes bytes on to standard output, and says what went wrong. -/
def pass (bytes : ByteArray) : IO (Option String) := do
  if bytes.isEmpty then return none
  try
    let out ← IO.getStdout
    out.write bytes
    out.flush
    return none
  catch e =>
    return some (causeOf e)

/-- Prints a report and gives its exit code. -/
def Report.deliver (r : Report) : IO UInt32 := do
  let r := match ← pass r.output with
    | none => r
    | some cause => r.brokenOff cause
  let err ← IO.getStderr
  err.putStr r.errors
  err.flush
  return r.code.toUInt32

/-- The text of a file. -/
def readSource (path : String) : IO (Except String String) := do
  try
    let content ← IO.FS.readBinFile path
    return (FileTree.decodeText content).mapError FileFailure.message
  catch e =>
    return .error (causeOf e)

/-- Steps between two looks at what has been printed. -/
def chunk : Nat := 4096

/-- More chunks than any run will come to. -/
def patience : Nat := 0x4000000000000000

/-- Carries out a task. What a run prints is passed on as it goes. -/
def Task.carryOut : Task → IO UInt32
  | .display text => (Report.printing text {}).deliver
  | .run p limit => do
    match ← p.stream chunk (fun bytes => pass ⟨bytes⟩) patience (Paused.start limit) with
    | some none => return 0
    | some (some e) => (Report.failure (.runtime e)).deliver
    | none => return 1
  | .write text => do
    try
      IO.FS.writeFile outputFile text
      return 0
    catch e =>
      (Report.failure (.writeOutput outputFile (causeOf e))).deliver
  | .fail e => (Report.failure e).deliver

/-- Carries out a plan. The plans that need no file are carried out as on
any file tree. -/
def Plan.carryOut (plan : Plan) : IO UInt32 := do
  match plan with
  | .process path options =>
    match ← readSource path with
    | .ok source => (Task.ofSource options source).carryOut
    | .error cause => (Report.failure (.readSource path cause)).deliver
  | plan =>
    match plan.perform? 0 (FileTree.empty []) {} with
    | some (report, _) => report.deliver
    | none => return 1

end TapeLang.Command

/-- The command. -/
def main (args : List String) : IO UInt32 :=
  (TapeLang.Command.Plan.ofArguments args).carryOut
