import TapeLang.Program
import TapeLang.Tape
import TapeLang.Writer

/-!
# TapeLang.Machine — running a program

A run is a sequence of counted steps. A step executes one instruction,
except that a search moves the head once and stays where it is, so that
each of its strides is a step of its own.

* `Program.step` — one counted step;
* `Program.runFor` — at most so many steps;
* `Program.runWithin` — a run with a step limit, which always ends;
* `Program.run?` — a run with or without a limit; without one it is given
  fuel, and has no result if it needs more;
* `Interpreter.run?` — a run on an interpreter that may have run before;
* `Interpreter.runAll?`, `Session.run?` — several runs on one interpreter.
-/

namespace TapeLang

variable {σ : Type}

/-- What a run acts on. -/
structure State (σ : Type) where
  tape : Tape
  head : Int64
  writer : σ

namespace State

/-- A blank tape with the head on its first cell. -/
def initial (w : σ) : State σ :=
  { tape := Tape.blank, head := 0, writer := w }

/-- The state in which the next run begins: the tape is blank again and the
head is back on its first cell. The writer goes on as it is. -/
@[inline] def reset (s : State σ) : State σ :=
  { s with tape := Tape.blank, head := 0 }

/-- The head moved by `n` cells, on or off the tape. -/
@[inline] def shift (s : State σ) (n : Int32) : State σ :=
  { s with head := s.head + n.toInt64 }

/-- The cell `i` set to `v`. -/
@[inline] def put (s : State σ) (i : Fin tapeLength) (v : Int8) : State σ :=
  { s with tape := s.tape.set i v }

end State

/-- How a run ended, and what it left. -/
structure Result (σ : Type) where
  /-- The reason, unless the program came to its end. -/
  failure : Option RuntimeError
  state : State σ

/-- A run after some steps. -/
inductive Progress (σ : Type) where
  /-- It goes on with the instruction at `ip`. -/
  | running (ip : Nat) (state : State σ)
  /-- It is over. -/
  | ended (result : Result σ)

namespace Program

/-- Goes on with the cell under the head, or fails at `ip` if the head is
off the tape. -/
@[inline] def onCell (ip : Nat) (s : State σ) (act : Fin tapeLength → State σ → Progress σ) :
    Progress σ :=
  match Tape.cell? s.head with
  | some i => act i s
  | none => .ended ⟨some (.offTape s.head ip), s⟩

/-- One counted step at `ip`. -/
@[specialize] def step [Writer σ] (p : Program) (ip : Nat) (s : State σ) : Progress σ :=
  match p.fetch ip with
  | .move n => .running (ip + 1) (s.shift n)
  | .add n => onCell ip s fun i s =>
    let v := s.tape.get i + n.toInt8
    .running (ip + 1) (s.put i v)
  | .loopOpen partner => onCell ip s fun i s =>
    .running (if s.tape.get i = 0 then partner + 1 else ip + 1) s
  | .loopClose partner => onCell ip s fun i s =>
    .running (if s.tape.get i = 0 then ip + 1 else partner + 1) s
  | .set v => onCell ip s fun i s => .running (ip + 1) (s.put i v.toInt8)
  | .seek stride => onCell ip s fun i s =>
    if s.tape.get i = 0 then .running (ip + 1) s else .running ip (s.shift stride)
  | .print => onCell ip s fun i s =>
    match Writer.emit s.writer (s.tape.get i).toUInt8 with
    | (none, w) => .running (ip + 1) { s with writer := w }
    | (some cause, w) => .ended ⟨some (.output cause), { s with writer := w }⟩
  | .read => .ended ⟨some (.unsupported ⟨ip⟩), s⟩
  | .halt => .ended ⟨none, s⟩

/-- At most `n` counted steps from `ip`. -/
@[specialize] def runFor [Writer σ] (p : Program) : (n ip : Nat) → State σ → Progress σ
  | 0, ip, s => .running ip s
  | n + 1, ip, s =>
    match p.step ip s with
    | .running ip s => runFor p n ip s
    | .ended r => .ended r

/-- A run that may count `limit` steps. If it wants another one, it fails
in the state it has then. -/
@[specialize] def runWithin [Writer σ] (p : Program) (limit : Nat) (w : σ) : Result σ :=
  match p.runFor limit 0 (State.initial w) with
  | .running _ s => ⟨some (.stepLimit limit), s⟩
  | .ended r => r

/-- A run with or without a step limit. Without one it stops for want of
`fuel` after that many steps, and then has no result. -/
@[specialize] def run? [Writer σ] (p : Program) (limit : Option Nat) (fuel : Nat) (w : σ) :
    Option (Result σ) :=
  match limit with
  | some m => some (p.runWithin m w)
  | none =>
    match p.runFor fuel 0 (State.initial w) with
    | .running _ _ => none
    | .ended r => some r

end Program

/-- What a run has come to when it may not go on. If it is not over, its
limit cuts it off; without a limit it has no result. -/
@[inline] def Progress.result? (limit : Option Nat) : Progress σ → Option (Result σ)
  | .ended r => some r
  | .running _ s => limit.map fun m => ⟨some (.stepLimit m), s⟩

/-- An interpreter: its step limit, and the state that its last run left. -/
structure Interpreter (σ : Type) where
  limit : Option Nat
  state : State σ

namespace Interpreter

/-- An interpreter that has not run yet. -/
def fresh (limit : Option Nat) (w : σ) : Interpreter σ :=
  { limit, state := State.initial w }

/-- A run on an interpreter, which is reset first. -/
@[specialize] def run? [Writer σ] (vm : Interpreter σ) (fuel : Nat) (p : Program) :
    Option (Result σ) :=
  (p.runFor (vm.limit.getD fuel) 0 vm.state.reset).result? vm.limit

/-- Runs one after another on one interpreter, and the interpreter behind
them. What did not compile is passed on and changes nothing. There is no
result if one of the runs has none. -/
@[specialize] def runAll? [Writer σ] (fuel : Nat) :
    Interpreter σ → List (Except CompileError Program) →
      Option (List (Except CompileError (Result σ)) × Interpreter σ)
  | vm, [] => some ([], vm)
  | vm, .error e :: rest =>
    (runAll? fuel vm rest).map fun (results, vm) => (.error e :: results, vm)
  | vm, .ok p :: rest =>
    match vm.run? fuel p with
    | none => none
    | some r =>
      (runAll? fuel { vm with state := r.state } rest).map fun (results, vm) =>
        (.ok r :: results, vm)

end Interpreter

/-- Runs one after another on an interpreter that has not run before. -/
@[specialize] def Session.run? [Writer σ] (limit : Option Nat) (fuel : Nat) (w : σ)
    (programs : List (Except CompileError Program)) :
    Option (List (Except CompileError (Result σ))) :=
  ((Interpreter.fresh limit w).runAll? fuel programs).map (·.1)

end TapeLang
