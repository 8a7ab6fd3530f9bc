/-!
# TapeLang.Writer — where printed bytes go

A writer takes one byte at a time and is flushed after each. Both may fail,
and a writer is free to change even when it fails, so each operation gives
back the writer as it is afterwards.

* `Writer` — what a run needs of the place it prints to;
* `Writer.put` — one byte that has to be taken;
* `Writer.emit` — one printed byte: put, then flush;
* `Writer.sendAll` — bytes one after another, in one of these ways;
* `Sink` — a writer that keeps what it is given, and that can be told to
  fail at a chosen moment.
-/

namespace TapeLang

/-- What a writer did with a byte. -/
inductive Receipt where
  /-- It has the byte. -/
  | taken
  /-- It did not fail, but it has not taken the byte. -/
  | declined
  /-- It failed. -/
  | failed (cause : String)
deriving DecidableEq, Repr

/-- A place to print to. -/
class Writer (σ : Type) where
  /-- Offers one byte. -/
  write : σ → UInt8 → Receipt × σ
  /-- Asks for everything taken so far to be passed on; gives the cause of
  a failure. -/
  flush : σ → Option String × σ

namespace Writer

variable {σ : Type}

/-- One byte that has to be taken. Gives the cause of the failure, if there
is one. -/
@[specialize] def put [Writer σ] (w : σ) (byte : UInt8) : Option String × σ :=
  match Writer.write w byte with
  | (.taken, w) => (none, w)
  | (.declined, w) => (some "failed to write whole buffer", w)
  | (.failed cause, w) => (some cause, w)

/-- One printed byte: it is written, then the writer is flushed. The first
failure ends it. Gives the cause of the failure, if there is one. -/
@[specialize] def emit [Writer σ] (w : σ) (byte : UInt8) : Option String × σ :=
  match Writer.put w byte with
  | (none, w) => Writer.flush w
  | (some cause, w) => (some cause, w)

/-- Bytes one after another, each of them by `send`. The first failure ends
it. -/
@[specialize] def sendAll (send : σ → UInt8 → Option String × σ) :
    σ → List UInt8 → Option String × σ
  | w, [] => (none, w)
  | w, byte :: bytes =>
    match send w byte with
    | (none, w) => sendAll send w bytes
    | (some cause, w) => (some cause, w)

end Writer

/-- When a sink fails. -/
inductive Sink.Policy where
  /-- Never. -/
  | reliable
  /-- A write fails once `capacity` bytes are held. -/
  | full (capacity : Nat)
  /-- A write is declined once `capacity` bytes are held. -/
  | stalled (capacity : Nat)
  /-- A flush fails once `capacity` flushes have succeeded. -/
  | clogged (capacity : Nat)
deriving DecidableEq, Repr

/-- A writer that keeps what it is given. -/
structure Sink where
  policy : Sink.Policy := .reliable
  /-- The bytes taken, in order. -/
  bytes : Array UInt8 := #[]
  /-- How many flushes have succeeded. -/
  flushes : Nat := 0
deriving DecidableEq, Repr

namespace Sink

/-- The bytes that a sink holds. -/
def content (s : Sink) : ByteArray :=
  ByteArray.mk s.bytes

/-- The sink with one more byte. -/
def take (s : Sink) (byte : UInt8) : Sink :=
  { s with bytes := s.bytes.push byte }

/-- Offers one byte to a sink. -/
def write (s : Sink) (byte : UInt8) : Receipt × Sink :=
  match s.policy with
  | .full n => if n ≤ s.bytes.size then (.failed "sink full", s) else (.taken, s.take byte)
  | .stalled n => if n ≤ s.bytes.size then (.declined, s) else (.taken, s.take byte)
  | .reliable | .clogged _ => (.taken, s.take byte)

/-- Flushes a sink. -/
def flush (s : Sink) : Option String × Sink :=
  match s.policy with
  | .clogged n =>
    if n ≤ s.flushes then (some "flush failed", s) else (none, { s with flushes := s.flushes + 1 })
  | .reliable | .full _ | .stalled _ => (none, { s with flushes := s.flushes + 1 })

instance : Writer Sink where
  write := Sink.write
  flush := Sink.flush

end Sink

end TapeLang
