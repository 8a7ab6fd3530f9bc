import TapeLang.Machine

/-!
# TapeLang.Stream — a run in pieces

A run can be carried out in pieces of so many steps. A piece prints to a
sink of its own, and what the sink holds is passed on before the next piece
begins.

* `Paused.next` — one piece;
* `Program.stream` — piece after piece, in any monad that can pass bytes on;
* `Writer.pass` — passing them on to a writer.
-/

namespace TapeLang

/-- A run between two pieces. -/
structure Paused where
  limit : Option Nat
  /-- The steps that have been made. -/
  steps : Nat
  ip : Nat
  tape : Tape
  head : Int64

/-- What comes behind a piece. -/
inductive Sequel where
  /-- The run goes on. -/
  | more (rest : Paused)
  /-- It is over. The reason, unless the program came to its end. -/
  | done (failure : Option RuntimeError)

namespace Paused

/-- A run that has not begun. -/
def start (limit : Option Nat) : Paused :=
  { limit, steps := 0, ip := 0, tape := Tape.blank, head := 0 }

/-- The state of the run, with a writer. -/
@[inline] def state {σ : Type} (s : Paused) (w : σ) : State σ :=
  { tape := s.tape, head := s.head, writer := w }

/-- How many steps the limit leaves. -/
def left (s : Paused) : Option Nat :=
  s.limit.map (· - s.steps)

/-- How many steps the next piece makes, unless the run ends in it. -/
def span (s : Paused) (size : Nat) : Nat :=
  min (s.left.getD size) size

/-- What comes behind a piece of `n` steps that has led to `ip` and `t`. -/
def sequel {σ : Type} (s : Paused) (n ip : Nat) (t : State σ) : Sequel :=
  let rest := { s with steps := s.steps + n, ip, tape := t.tape, head := t.head }
  match s.limit with
  | none => .more rest
  | some m => if m ≤ s.steps + n then .done (some (.stepLimit m)) else .more rest

/-- The next piece, of at most `size` steps: the bytes that it prints, and
what comes behind it. -/
def next (p : Program) (size : Nat) (s : Paused) : Array UInt8 × Sequel :=
  match p.runFor (s.span size) s.ip (s.state ({} : Sink)) with
  | .ended r => (r.state.writer.bytes, .done r.failure)
  | .running ip t => (t.writer.bytes, s.sequel (s.span size) ip t)

end Paused

/-- Goes on with a run, for at most so many pieces of `size` steps. Bytes
that cannot be passed on end it. Gives the reason it stopped, unless the
program came to its end, and nothing if it wants another piece. -/
@[specialize] def Program.stream {m : Type → Type} [Monad m] (p : Program) (size : Nat)
    (pass : Array UInt8 → m (Option String)) : Nat → Paused → m (Option (Option RuntimeError))
  | 0, _ => pure none
  | pieces + 1, s => do
    let (bytes, sequel) := s.next p size
    match ← pass bytes with
    | some cause => pure (some (some (.output cause)))
    | none =>
      match sequel with
      | .done failure => pure (some failure)
      | .more rest => stream p size pass pieces rest

/-- Passes bytes on to a writer, which is the state. -/
def Writer.pass {σ : Type} [Writer σ] (bytes : Array UInt8) : StateM σ (Option String) :=
  fun w => Writer.sendAll Writer.emit w bytes.toList

end TapeLang
