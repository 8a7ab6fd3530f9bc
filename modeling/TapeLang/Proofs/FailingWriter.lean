import Mathlib.Tactic.IntervalCases
import TapeLang.Proofs.Printing

/-!
# TapeLang.Proofs.FailingWriter — a failure cuts a run at the print that fails

A writer may fail in two ways (`Fault`): it does not take a byte, or it
takes the byte and then cannot be flushed. A run whose writer takes `n`
bytes and fails at the next one is compared with the run whose writer never
fails.

* `Program.exists_print` — if more than `n` bytes are printed, there is a
  moment at which `n` have been printed and the next one is;
* `Program.Prints.runFor_fails` — the run with the failing writer ends
  there;
* `failing_writer_cuts_run` — so the two runs are the same up to that
  moment, and altogether if it never comes.

Sinks are such writers: `Sink.fails_at_write` and `Sink.fails_at_flush` say
which fault a policy comes to, and when.
-/

namespace TapeLang

variable {σ τ : Type}

/-! ## Faults -/

/-- What a writer fails at when a byte is printed. -/
inductive Fault where
  /-- It does not take the byte, and says so or not. -/
  | write
  /-- It takes the byte, and then it cannot be flushed. -/
  | flush
deriving DecidableEq, Repr

/-- How many bytes of a print that fails the writer keeps. -/
def Fault.kept : Fault → Nat
  | .write => 0
  | .flush => 1

namespace Gauge

variable [Writer σ]

/-- Nothing has been printed to the writer. -/
structure Empty (g : Gauge σ) (w : σ) : Prop where
  bytes : g.bytes w = []
  flushes : g.flushes w = 0

/-- The next byte that is printed makes the writer fail. -/
def Fails (g : Gauge σ) : Fault → σ → Prop
  | .write, w => ∀ byte, ∃ receipt w', Writer.write w byte = (receipt, w') ∧
      receipt ≠ .taken ∧ g.bytes w' = g.bytes w ∧ g.flushes w' = g.flushes w
  | .flush, w => ∀ byte, ∃ w₁ cause w', Writer.write w byte = (.taken, w₁) ∧
      Writer.flush w₁ = (some cause, w') ∧ g.bytes w' = g.bytes w ++ [byte] ∧
      g.flushes w' = g.flushes w

theorem Fails.emit {g : Gauge σ} {fault : Fault} {w : σ} (h : g.Fails fault w) (byte : UInt8) :
    ∃ cause w', Writer.emit w byte = (some cause, w') ∧
      g.bytes w' = g.bytes w ++ [byte].take fault.kept ∧ g.flushes w' = g.flushes w := by
  unfold Writer.emit Writer.put
  cases fault with
  | write =>
      obtain ⟨receipt, w', hwrite, hreceipt, hbytes, hflushes⟩ := h byte
      rw [hwrite]
      cases receipt with
      | taken => exact absurd rfl hreceipt
      | declined => exact ⟨_, w', rfl, by simp [hbytes, Fault.kept], hflushes⟩
      | failed cause => exact ⟨cause, w', rfl, by simp [hbytes, Fault.kept], hflushes⟩
  | flush =>
      obtain ⟨w₁, cause, w', hwrite, hflush, hbytes, hflushes⟩ := h byte
      rw [hwrite]
      exact ⟨cause, w', hflush, by simp [hbytes, Fault.kept], hflushes⟩

end Gauge

/-! ## The print that fails -/

namespace Program

/-- `p.Prints w n k ip s`: the run of `p` that prints to `w` comes to the
index `ip` in the state `s` after `k` steps. There it prints a byte, and it
has printed `n` bytes before. -/
structure Prints [Writer σ] (p : Program) (w : σ) (n k ip : Nat) (s : State σ) : Prop where
  reached : p.runFor k 0 (State.initial w) = .running ip s
  prints : ∃ byte, p.printed? ip s = some byte
  before : (p.printedFor k 0 (State.initial w)).length = n

variable [Writer σ] [Writer τ] {p : Program}

/-- If more than `n` bytes are printed in `m` steps, there is a step among
them that prints the byte with `n` before it. -/
theorem exists_print {m n ip : Nat} {s : State σ} (h : n < (p.printedFor m ip s).length) :
    ∃ k ip' s' byte rest, k < m ∧ p.runFor k ip s = .running ip' s' ∧
      p.printed? ip' s' = some byte ∧ (p.printedFor k ip s).length = n ∧
      p.printedFor m ip s = p.printedFor k ip s ++ byte :: rest := by
  induction m generalizing n ip s with
  | zero => cases h
  | succ m ih =>
      by_cases hnow : n = 0 ∧ ∃ byte, p.printed? ip s = some byte
      · -- the first step is the one
        obtain ⟨rfl, byte, hprint⟩ := hnow
        have hbytes : ∃ rest, p.printedFor (m + 1) ip s = byte :: rest := by
          unfold printedFor
          rw [hprint]
          exact ⟨_, rfl⟩
        obtain ⟨rest, hrest⟩ := hbytes
        exact ⟨0, ip, s, byte, rest, by omega, rfl, hprint, rfl, hrest⟩
      · -- it is a later one, with what the first step prints counted off
        cases hstep : p.step ip s with
        | running ip₁ s₁ =>
            rw [printedFor_succ_of_running hstep, List.length_append] at h
            have hfirst : (p.printed? ip s).toList.length ≤ n := by
              cases hprint : p.printed? ip s with
              | none => exact Nat.zero_le n
              | some byte =>
                  have hn : n ≠ 0 := fun hn => hnow ⟨hn, byte, hprint⟩
                  exact Nat.one_le_iff_ne_zero.mpr hn
            have hlater : n - (p.printed? ip s).toList.length < (p.printedFor m ip₁ s₁).length := by
              omega
            obtain ⟨k, ip', s', byte, rest, hk, hrun, hprint, hlen, hrest⟩ := ih hlater
            refine ⟨k + 1, ip', s', byte, rest, by omega, ?_, hprint, ?_, ?_⟩
            · rw [runFor_succ_of_running hstep, hrun]
            · rw [printedFor_succ_of_running hstep, List.length_append, hlen]
              omega
            · rw [printedFor_succ_of_running hstep, printedFor_succ_of_running hstep, hrest,
                List.append_assoc]
        | ended r =>
            rw [printedFor_succ_of_ended hstep] at h
            cases hprint : p.printed? ip s with
            | none =>
                rw [hprint] at h
                cases h
            | some byte =>
                rw [hprint, Option.toList_some, List.length_singleton] at h
                exact absurd ⟨by omega, byte, hprint⟩ hnow

/-- The run with the failing writer ends at the print that has as many bytes
before it as the writer takes. -/
theorem Prints.runFor_fails {g : Gauge σ} {h : Gauge τ} {w : σ} {v : τ} {fault : Fault}
    {n k ip : Nat} {s : State σ} {byte : UInt8} (hp : p.Prints w n k ip s)
    (hbyte : p.printed? ip s = some byte) (hw : g.Reliable w)
    (hv : h.After (h.Fails fault) n v) :
    ∃ cause v', p.runFor (k + 1) 0 (State.initial v) =
        .ended ⟨some (.output cause), s.withWriter v'⟩ ∧
      h.bytes v' = h.bytes v ++
        (p.printedFor k 0 (State.initial w) ++ [byte].take fault.kept) ∧
      h.flushes v' = h.flushes v + n := by
  -- up to the print the two runs go together, which uses up what `v` takes
  rw [← hp.before] at hv
  obtain ⟨v₁, hrun, hgets, hfails⟩ := runFor_withWriter (s := State.initial w) (k := 0) hw hv
  rw [hp.reached, State.initial_withWriter] at hrun
  obtain ⟨cause, v', hemit, hbytes, hflushes⟩ := Gauge.Fails.emit hfails byte
  refine ⟨cause, v', ?_, ?_, ?_⟩
  · have hprint : p.printed? ip (s.withWriter v₁) = some byte := hbyte
    rw [runFor_concat hrun, step_of_printed hprint, State.writer_withWriter, hemit]
    rfl
  · rw [hbytes, hgets.bytes, List.append_assoc]
  · rw [hflushes, hgets.flushes, hp.before]

end Program

/-! ## Whole runs -/

/-- All that is known of a run that is over. -/
structure Observation where
  failure : Option RuntimeError
  tape : Tape
  head : Int64
  bytes : List UInt8
  flushes : Nat

/-- What a result and a gauge of its writer show. -/
def Gauge.observe (g : Gauge σ) (r : Result σ) : Observation where
  failure := r.failure
  tape := r.state.tape
  head := r.state.head
  bytes := g.bytes r.state.writer
  flushes := g.flushes r.state.writer

theorem Gauge.observe_withWriter {g : Gauge σ} {h : Gauge τ} {r : Result σ} {v : τ}
    (hbytes : h.bytes v = g.bytes r.state.writer)
    (hflushes : h.flushes v = g.flushes r.state.writer) :
    h.observe (r.withWriter v) = g.observe r := by
  unfold observe
  rw [← hbytes, ← hflushes]
  rfl

namespace Program

variable [Writer σ] [Writer τ] {p : Program} {g : Gauge σ} {h : Gauge τ} {w : σ} {v : τ}

/-- If the writer takes as many bytes as are printed, the run is the same. -/
theorem run?_observe_eq {Then : τ → Prop} {limit : Option Nat} {fuel n : Nat}
    (hw : g.Reliable w) (hwe : g.Empty w) (hv : h.After Then n v) (hve : h.Empty v)
    (hfew : (p.printedFor (limit.getD fuel) 0 (State.initial w)).length ≤ n) :
    (p.run? limit fuel v).map h.observe = (p.run? limit fuel w).map g.observe := by
  obtain ⟨d, rfl⟩ := Nat.exists_eq_add_of_le hfew
  obtain ⟨v', hrun, hgets, -⟩ := run?_withWriter hw hv
  rw [hrun, Option.map_map]
  apply Option.map_congr
  intro r hr
  obtain ⟨hgets', -⟩ := run?_gets hw hr
  apply Gauge.observe_withWriter
  · rw [hgets.bytes, hgets'.bytes, hve.bytes, hwe.bytes]
  · rw [hgets.flushes, hgets'.flushes, hve.flushes, hwe.flushes]

end Program

/-! ## Sinks -/

namespace Sink

/-- A sink that is full or stalled fails at the write. -/
theorem fails_at_write {s : Sink} {n : Nat}
    (h : s.policy = .full (s.bytes.size + n) ∨ s.policy = .stalled (s.bytes.size + n)) :
    gauge.After (gauge.Fails .write) n s := by
  refine after_of_room (fun n s =>
    s.policy = .full (s.bytes.size + n) ∨ s.policy = .stalled (s.bytes.size + n)) ?_ ?_ h
  · intro n s hs
    constructor
    · rcases hs with hs | hs <;> simp [HasRoom, hs]
    · intro byte
      have hsize : (s.printed byte).bytes.size + n = s.bytes.size + (n + 1) := by
        simp [printed]
        omega
      rw [hsize]
      exact hs
  · intro s hs byte
    rcases hs with hs | hs
    · exact ⟨.failed "sink full", s, by simp [Writer.write, write, hs], by simp, rfl, rfl⟩
    · exact ⟨.declined, s, by simp [Writer.write, write, hs], by simp, rfl, rfl⟩

/-- A sink that is clogged fails at the flush. -/
theorem fails_at_flush {s : Sink} {n : Nat} (h : s.policy = .clogged (s.flushes + n)) :
    gauge.After (gauge.Fails .flush) n s := by
  refine after_of_room (fun n s => s.policy = .clogged (s.flushes + n)) ?_ ?_ h
  · intro n s hs
    refine ⟨by simp [HasRoom, hs], ?_⟩
    intro byte
    have hflushes : (s.printed byte).flushes + n = s.flushes + (n + 1) := by
      simp [printed]
      omega
    rw [hflushes]
    exact hs
  · intro s hs byte
    refine ⟨s.take byte, "flush failed", s.take byte, by simp [Writer.write, write, hs], ?_, ?_,
      rfl⟩
    · simp [Writer.flush, flush, take, hs]
    · simp [gauge, take]

end Sink

/-- **A failure cuts a run.** One writer never fails, and the other takes `n`
bytes and fails at the next one; both have got nothing yet. If the program
prints at most `n` bytes within its limit, the two runs are the same. If it
prints more, whether or not it would end, the run with the failing writer
ends at the print with `n` bytes before it: with the tape and the head of
that moment, `n` flushes, and the first `n` bytes that the other run prints,
or one more if it is the flush that fails. -/
theorem failing_writer_cuts_run [Writer σ] [Writer τ] {g : Gauge σ} {h : Gauge τ} {w : σ} {v : τ}
    {fault : Fault} {n : Nat} (hw : g.Reliable w) (hwe : g.Empty w)
    (hv : h.After (h.Fails fault) n v) (hve : h.Empty v) (p : Program) (limit : Option Nat) :
    ((∀ m, (∀ l ∈ limit, m ≤ l) → (p.printedFor m 0 (State.initial w)).length ≤ n) →
      ∀ fuel, (p.run? limit fuel v).map h.observe = (p.run? limit fuel w).map g.observe) ∧
    ∀ m, (∀ l ∈ limit, m ≤ l) → n < (p.printedFor m 0 (State.initial w)).length →
      ∃ k ip s cause, k < m ∧ p.Prints w n k ip s ∧
        ∀ fuel, m ≤ fuel → (p.run? limit fuel v).map h.observe = some
          { failure := some (.output cause)
            tape := s.tape
            head := s.head
            bytes := (g.bytes (p.runFor m 0 (State.initial w)).state.writer).take (n + fault.kept)
            flushes := n } := by
  constructor
  · -- the fault is never met
    intro hfew fuel
    have hsteps : ∀ l ∈ limit, limit.getD fuel ≤ l := by
      rintro l rfl
      exact Nat.le_refl l
    exact Program.run?_observe_eq hw hwe hv hve (hfew _ hsteps)
  · intro m hm hmore
    -- print number `n` is the one that meets it
    obtain ⟨k, ip, s, byte, rest, hk, hrun, hprint, hlen, hrest⟩ := Program.exists_print hmore
    have hp : p.Prints w n k ip s := ⟨hrun, ⟨byte, hprint⟩, hlen⟩
    obtain ⟨cause, v', hends, hbytes, hflushes⟩ := hp.runFor_fails hprint hw hv
    refine ⟨k, ip, s, cause, hk, hp, ?_⟩
    intro fuel hfuel
    have hsteps : k + 1 ≤ limit.getD fuel := by
      cases limit with
      | none => exact Nat.le_trans hk hfuel
      | some l => exact Nat.le_trans hk (hm l rfl)
    have hgets : g.Gets w (p.printedFor m 0 (State.initial w))
        (p.runFor m 0 (State.initial w)).state.writer :=
      Program.runFor_gets p m 0 (s := State.initial w) hw
    -- what was printed before, and this byte too if only its flush failed
    have hkept : h.bytes v' =
        (g.bytes (p.runFor m 0 (State.initial w)).state.writer).take (n + fault.kept) := by
      rw [hbytes, hve.bytes, hgets.bytes, hwe.bytes, hrest, ← hlen, List.nil_append,
        List.nil_append, List.take_length_add_append]
      cases fault <;> rfl
    have hcount : h.flushes v' = n := by
      rw [hflushes, hve.flushes, Nat.zero_add]
    rw [Program.run?_eq_result?, Program.runFor_of_ended_of_le hends hsteps, ← hkept, ← hcount]
    rfl

/-- The program of `+.+.` and a sink that is full with one byte. Three steps
print no more than that. Five steps do, and the second print ends the run,
after the second `+`. If the sink is clogged after one flush instead, the
run ends at the same print, but the sink has taken the second byte. -/
theorem second_print_cuts_run :
    ((Program.run? ⟨#[.add 1, .print, .add 1, .print, .halt]⟩ (some 3) 0
        ({ policy := .full 1 } : Sink)).map Sink.gauge.observe =
      (Program.run? ⟨#[.add 1, .print, .add 1, .print, .halt]⟩ (some 3) 0
        ({} : Sink)).map Sink.gauge.observe) ∧
    1 < (Program.printedFor ⟨#[.add 1, .print, .add 1, .print, .halt]⟩ 5 0
      (State.initial ({} : Sink))).length ∧
    (∃ k ip s cause, k < 5 ∧
      Program.Prints ⟨#[.add 1, .print, .add 1, .print, .halt]⟩ ({} : Sink) 1 k ip s ∧
      (Program.run? ⟨#[.add 1, .print, .add 1, .print, .halt]⟩ none 5
        ({ policy := .full 1 } : Sink)).map Sink.gauge.observe =
          some ⟨some (.output cause), s.tape, s.head, [1], 1⟩) ∧
    ∃ k ip s cause, k < 5 ∧
      Program.Prints ⟨#[.add 1, .print, .add 1, .print, .halt]⟩ ({} : Sink) 1 k ip s ∧
      (Program.run? ⟨#[.add 1, .print, .add 1, .print, .halt]⟩ none 5
        ({ policy := .clogged 1 } : Sink)).map Sink.gauge.observe =
          some ⟨some (.output cause), s.tape, s.head, [1, 2], 1⟩ := by
  let p : Program := ⟨#[.add 1, .print, .add 1, .print, .halt]⟩
  have hw : Sink.gauge.Reliable {} := Sink.reliable rfl
  have hfew : ∀ m, (∀ l ∈ some 3, m ≤ l) →
      (p.printedFor m 0 (State.initial ({} : Sink))).length ≤ 1 := by
    intro m hm
    have hle : m ≤ 3 := hm 3 rfl
    interval_cases m <;> decide +kernel
  have hmore : 1 < (p.printedFor 5 0 (State.initial ({} : Sink))).length := by decide +kernel
  have hbytes :
      Sink.gauge.bytes (p.runFor 5 0 (State.initial ({} : Sink))).state.writer = [1, 2] := by
    decide +kernel
  -- both faults come at the second print; they differ in what the sink keeps of it
  have hcut : ∀ (fault : Fault) (v : Sink), Sink.gauge.After (Sink.gauge.Fails fault) 1 v →
      Sink.gauge.Empty v → ∃ k ip s cause, k < 5 ∧ p.Prints ({} : Sink) 1 k ip s ∧
        (p.run? none 5 v).map Sink.gauge.observe =
          some ⟨some (.output cause), s.tape, s.head, [1, 2].take (1 + fault.kept), 1⟩ := by
    intro fault v hv hve
    obtain ⟨k, ip, s, cause, hk, hprints, hends⟩ :=
      (failing_writer_cuts_run hw ⟨rfl, rfl⟩ hv hve p none).2 5 (by simp) hmore
    have hrun := hends 5 (Nat.le_refl 5)
    rw [hbytes] at hrun
    exact ⟨k, ip, s, cause, hk, hprints, hrun⟩
  have hfull : Sink.gauge.After (Sink.gauge.Fails .write) 1 { policy := .full 1 } :=
    Sink.fails_at_write (Or.inl rfl)
  have hclogged : Sink.gauge.After (Sink.gauge.Fails .flush) 1 { policy := .clogged 1 } :=
    Sink.fails_at_flush rfl
  refine ⟨?_, hmore, hcut .write _ hfull ⟨rfl, rfl⟩, hcut .flush _ hclogged ⟨rfl, rfl⟩⟩
  exact (failing_writer_cuts_run hw ⟨rfl, rfl⟩ hfull ⟨rfl, rfl⟩ p (some 3)).1 hfew 0

end TapeLang
