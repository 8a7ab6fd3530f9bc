import TapeLang.Stream
import TapeLang.Proofs.Printing

/-!
# TapeLang.Proofs.Streaming — a run in pieces is the run

A run that is carried out piece by piece prints to sinks that never fail,
and its writer gets the bytes of a piece when the piece is over. The run
that prints to the writer directly is cut by it at the print that fails, and
may be far from the end of the piece then.

* `Program.runFor_sendAll` — steps with a writer are the steps with a sink,
  up to the byte that the writer fails at;
* `Paused.finish?_of_unpassed`, `Paused.finish?_of_done` and
  `Paused.finish?_of_more` — what a piece says of the run from there on;
* `Program.stream_eq_some_iff` — so the run in pieces stops for the same
  reason, with the same bytes passed on.
-/

namespace TapeLang

variable {σ τ : Type}

/-! ## The steps of a piece -/

namespace Program

variable [Writer σ] [Writer τ]

/-- **Steps with a writer that may fail**, compared with those of a writer
that does not. The induction is on the number of steps. -/
theorem runFor_sendAll {g : Gauge σ} (p : Program) (n ip : Nat) {s : State σ}
    (hs : g.Reliable s.writer) (v : τ) :
    match Writer.sendAll Writer.emit v (p.printedFor n ip s) with
    | (none, v') => p.runFor n ip (s.withWriter v) = (p.runFor n ip s).withWriter v'
    | (some cause, v') => ∃ t, p.runFor n ip (s.withWriter v) =
        .ended ⟨some (.output cause), t⟩ ∧ t.writer = v' := by
  induction n generalizing ip s v with
  | zero => rfl
  | succ n ih =>
      cases hprint : p.printed? ip s with
      | none =>
          -- neither writer is touched
          have hsame := step_withWriter hprint v
          cases hstep : p.step ip s with
          | running ip₁ s₁ =>
              have hwriter : s₁.writer = s.writer := by
                have := step_writer hprint
                rwa [hstep] at this
              rw [hstep] at hsame
              rw [printedFor_succ_of_running hstep, hprint, runFor_succ_of_running hstep,
                runFor_succ_of_running hsame]
              exact ih ip₁ (hwriter ▸ hs) v
          | ended r =>
              rw [hstep] at hsame
              rw [printedFor_succ_of_ended hstep, hprint, runFor_succ_of_ended hstep,
                runFor_succ_of_ended hsame]
              rfl
      | some byte =>
          obtain ⟨w₁, hemit, hw₁⟩ := hs.emit byte
          have hstep := step_of_emit hprint hemit
          have hprint' : p.printed? ip (s.withWriter v) = some byte := hprint
          have hsame := step_of_printed hprint'
          rw [printedFor_succ_of_running hstep, hprint, Option.toList_some, List.singleton_append,
            runFor_succ_of_running hstep, Writer.sendAll]
          rw [State.writer_withWriter] at hsame
          rcases hemit' : Writer.emit v byte with ⟨cause | _, v₁⟩
          · -- both writers have the byte
            rw [hemit'] at hsame
            rw [runFor_succ_of_running hsame]
            exact ih (ip + 1) (s := s.withWriter w₁) hw₁ v₁
          · -- the byte is the one that the writer fails at
            rw [hemit'] at hsame
            exact ⟨_, runFor_succ_of_ended hsame n, rfl⟩

end Program

/-! ## One piece -/

/-- What is known of a run in pieces that is over. -/
def Result.shown (r : Result σ) : Option RuntimeError × σ :=
  (r.failure, r.state.writer)

namespace Paused

variable {p : Program} {size : Nat} {s rest : Paused} {w w' : σ}

/-- Only a limit ends a run that has made the steps of a piece. -/
theorem sequel_eq_done {n ip : Nat} {t : State σ} {failure : Option RuntimeError}
    (h : s.sequel n ip t = .done failure) :
    ∃ m, s.limit = some m ∧ m ≤ s.steps + n ∧ failure = some (.stepLimit m) := by
  unfold sequel at h
  split at h
  · cases h
  next m hlimit =>
    split at h
    next hm =>
      cases h
      exact ⟨m, hlimit, hm, rfl⟩
    next => cases h

theorem sequel_eq_more {n ip : Nat} {t : State σ} (h : s.sequel n ip t = .more rest) :
    rest = { s with steps := s.steps + n, ip, tape := t.tape, head := t.head } ∧
      ∀ m, s.limit = some m → s.steps + n < m := by
  unfold sequel at h
  split at h
  next hlimit =>
    -- without a limit there is always more to do
    cases h
    exact ⟨rfl, fun m hm => by simp [hlimit] at hm⟩
  next m hlimit =>
    split at h
    · -- at the limit the run is over
      cases h
    next hm =>
      cases h
      refine ⟨rfl, fun m' hm' => ?_⟩
      obtain rfl : m = m' := by simpa [hlimit] using hm'
      omega

/-- A piece that is not the last makes all its steps. -/
theorem span_eq (h : ∀ m, s.limit = some m → s.steps + s.span size < m) :
    s.span size = size := by
  cases hlimit : s.limit with
  | none => simp [span, left, hlimit]
  | some m =>
      have hm := h m hlimit
      simp only [span, left, hlimit, Option.map_some, Option.getD_some] at hm ⊢
      omega

/-- The rest of a run is left what a piece has not used up. -/
theorem left_eq (h : ∀ m, s.limit = some m → s.steps + size < m) (ip : Nat) (tape : Tape)
    (head : Int64) (fuel : Nat) :
    s.left.getD (size + fuel) =
      size + ({ s with steps := s.steps + size, ip, tape, head } : Paused).left.getD fuel := by
  cases hlimit : s.limit with
  | none => simp [left, hlimit]
  | some m =>
      have hm := h m hlimit
      simp only [left, hlimit, Option.map_some, Option.getD_some]
      omega

theorem next_eq (p : Program) (size : Nat) (s : Paused) :
    s.next p size =
      ((p.runFor (s.span size) s.ip (s.state ({} : Sink))).state.writer.bytes,
        match p.runFor (s.span size) s.ip (s.state ({} : Sink)) with
        | .ended r => .done r.failure
        | .running ip t => s.sequel (s.span size) ip t) := by
  rw [next]
  cases p.runFor (s.span size) s.ip (s.state ({} : Sink)) <;> rfl

/-- The bytes of a piece are those that its steps print. -/
theorem next_bytes (p : Program) (size : Nat) (s : Paused) :
    (s.next p size).1.toList = p.printedFor (s.span size) s.ip (s.state ({} : Sink)) := by
  have hgets : Sink.gauge.Gets {} (p.printedFor (s.span size) s.ip (s.state ({} : Sink)))
      (p.runFor (s.span size) s.ip (s.state ({} : Sink))).state.writer :=
    Program.runFor_gets p (s.span size) s.ip (s := s.state ({} : Sink)) (Sink.reliable rfl)
  rw [next_eq]
  exact hgets.bytes

variable [Writer σ]

/-- What the run comes to from here on if it prints to `w` directly. -/
def finish? (p : Program) (fuel : Nat) (s : Paused) (w : σ) : Option (Result σ) :=
  (p.runFor (s.left.getD fuel) s.ip (s.state w)).result? s.limit

theorem finish?_start (p : Program) (limit : Option Nat) (fuel : Nat) (w : σ) :
    (start limit).finish? p fuel w = p.run? limit fuel w := by
  rw [Program.run?_eq_result?]
  cases limit <;> rfl

/-- More fuel does not change what the run comes to. -/
theorem finish?_mono {fuel fuel' : Nat} {r : Result σ} (h : s.finish? p fuel w = some r)
    (hfuel : fuel ≤ fuel') : s.finish? p fuel' w = some r := by
  cases hlimit : s.limit with
  | some m =>
      rw [finish?, left, hlimit] at h ⊢
      exact h
  | none =>
      rw [finish?, left, hlimit] at h ⊢
      cases hrun : p.runFor fuel s.ip (s.state w) with
      | running ip t => simp [hrun, Progress.result?] at h
      | ended r' =>
          have hrun' := Program.runFor_of_ended_of_le hrun hfuel
          simpa [hrun, hrun'] using h

theorem finish?_of_ended {r : Result σ} (h : p.runFor (s.span size) s.ip (s.state w) = .ended r) :
    s.finish? p size w = some r := by
  rw [finish?, Program.runFor_of_ended_of_le h (Nat.min_le_left _ _)]
  rfl

/-- A run that comes to a result is left fewer steps behind a piece. -/
theorem left_lt {fuel : Nat} {r : Result σ} (hsize : 0 < size) (h : s.finish? p fuel w = some r)
    (hleft : s.left.getD (size + (fuel - size)) = size + rest.left.getD (fuel - size)) :
    rest.left.getD (fuel - size) < s.left.getD fuel := by
  cases hlimit : s.limit with
  | some m =>
      simp only [left, hlimit, Option.map_some, Option.getD_some] at hleft ⊢
      omega
  | none =>
      -- without a limit the fuel is what is left, and without fuel there is no result
      have hfuel : fuel ≠ 0 := by
        rintro rfl
        simp [finish?, left, hlimit, Program.runFor, Progress.result?] at h
      simp only [left, hlimit, Option.map_none, Option.getD_none] at hleft ⊢
      omega

/-- The steps of a piece in the run that prints to the writer. -/
theorem runFor_span (p : Program) (size : Nat) (s : Paused) (w : σ) :
    match Writer.sendAll Writer.emit w (s.next p size).1.toList with
    | (none, w') => p.runFor (s.span size) s.ip (s.state w) =
        (p.runFor (s.span size) s.ip (s.state ({} : Sink))).withWriter w'
    | (some cause, w') => ∃ t, p.runFor (s.span size) s.ip (s.state w) =
        .ended ⟨some (.output cause), t⟩ ∧ t.writer = w' := by
  rw [next_bytes]
  exact Program.runFor_sendAll p (s.span size) s.ip (s := s.state ({} : Sink))
    (Sink.reliable rfl) w

/-- If the bytes of a piece can be passed on, its steps are those of the run
that prints to the writer. -/
theorem runFor_of_passed
    (hpass : Writer.sendAll Writer.emit w (s.next p size).1.toList = (none, w')) :
    p.runFor (s.span size) s.ip (s.state w) =
      (p.runFor (s.span size) s.ip (s.state ({} : Sink))).withWriter w' := by
  have hpiece := runFor_span p size s w
  rw [hpass] at hpiece
  exact hpiece

/-- If they cannot, that run has ended inside the piece. -/
theorem finish?_of_unpassed {cause : String}
    (hpass : Writer.sendAll Writer.emit w (s.next p size).1.toList = (some cause, w')) :
    (s.finish? p size w).map Result.shown = some (some (.output cause), w') := by
  have hpiece := runFor_span p size s w
  rw [hpass] at hpiece
  obtain ⟨t, ht, rfl⟩ := hpiece
  rw [finish?_of_ended ht]
  rfl

/-- The last piece ends the run that prints to the writer, too. -/
theorem finish?_of_done {failure : Option RuntimeError}
    (hpass : Writer.sendAll Writer.emit w (s.next p size).1.toList = (none, w'))
    (h : (s.next p size).2 = .done failure) :
    (s.finish? p size w).map Result.shown = some (failure, w') := by
  have hpiece := runFor_of_passed hpass
  rw [next_eq] at h
  cases hrun : p.runFor (s.span size) s.ip (s.state ({} : Sink)) with
  | ended r =>
      -- the program came to its end, or failed by itself
      rw [hrun] at h hpiece
      obtain rfl : r.failure = failure := Sequel.done.inj h
      rw [finish?_of_ended hpiece]
      rfl
  | running ip t =>
      -- the steps of the piece were the last that the limit left
      rw [hrun] at h hpiece
      obtain ⟨m, hlimit, hm, rfl⟩ := sequel_eq_done h
      have hspan : s.span size = s.left.getD size := by
        simp only [span, left, hlimit, Option.map_some, Option.getD_some] at hm ⊢
        omega
      rw [finish?, ← hspan, hpiece, hlimit]
      rfl

/-- Any other piece leads that run to where the rest begins. -/
theorem finish?_of_more
    (hpass : Writer.sendAll Writer.emit w (s.next p size).1.toList = (none, w'))
    (h : (s.next p size).2 = .more rest) (fuel : Nat) :
    s.finish? p (size + fuel) w = rest.finish? p fuel w' ∧
      s.left.getD (size + fuel) = size + rest.left.getD fuel := by
  have hpiece := runFor_of_passed hpass
  rw [next_eq] at h
  cases hrun : p.runFor (s.span size) s.ip (s.state ({} : Sink)) with
  | ended r =>
      rw [hrun] at h
      cases h
  | running ip t =>
      rw [hrun] at h hpiece
      obtain ⟨rfl, hlimit⟩ := sequel_eq_more h
      -- the limit is not met, so the piece had its full size
      have hspan := span_eq hlimit
      rw [hspan] at hlimit hpiece ⊢
      have hleft := left_eq hlimit ip t.tape t.head fuel
      refine ⟨?_, hleft⟩
      rw [finish?, hleft, Program.runFor_add hpiece]
      rfl

end Paused

/-! ## All pieces -/

theorem Writer.run_pass [Writer σ] (bytes : Array UInt8) (w : σ) :
    (Writer.pass bytes).run w = Writer.sendAll Writer.emit w bytes.toList :=
  rfl

namespace Program

variable [Writer σ] {p : Program} {size pieces : Nat} {s : Paused} {w w' : σ}
  {failure : Option RuntimeError}

/-- The next piece, passed on to a writer. -/
theorem stream_succ (p : Program) (size pieces : Nat) (s : Paused) (w : σ) :
    (p.stream size Writer.pass (pieces + 1) s).run w =
      match Writer.sendAll Writer.emit w (s.next p size).1.toList with
      | (some cause, w') => (some (some (.output cause)), w')
      | (none, w') =>
        match (s.next p size).2 with
        | .done failure => (some failure, w')
        | .more rest => (p.stream size Writer.pass pieces rest).run w' := by
  rcases hnext : s.next p size with ⟨bytes, sequel⟩
  rw [stream, hnext, StateT.run_bind, Writer.run_pass]
  rcases Writer.sendAll Writer.emit w bytes.toList with ⟨_ | cause, w'⟩
  · cases sequel <;> rfl
  · rfl

/-- What the pieces come to is what the run comes to. -/
theorem finish?_of_stream
    (h : (p.stream size Writer.pass pieces s).run w = (some failure, w')) :
    ∃ fuel, (s.finish? p fuel w).map Result.shown = some (failure, w') := by
  induction pieces generalizing s w with
  | zero => cases h
  | succ pieces ih =>
      rw [stream_succ] at h
      -- one piece is passed on; the fuel is a piece for each that was
      rcases hpass : Writer.sendAll Writer.emit w (s.next p size).1.toList with ⟨_ | cause, w₁⟩
      · rw [hpass] at h
        cases hnext : (s.next p size).2 with
        | done failure' =>
            rw [hnext] at h
            cases h
            exact ⟨size, Paused.finish?_of_done hpass hnext⟩
        | more rest =>
            rw [hnext] at h
            obtain ⟨fuel, hfuel⟩ := ih h
            exact ⟨size + fuel, by rw [(Paused.finish?_of_more hpass hnext fuel).1, hfuel]⟩
      · rw [hpass] at h
        cases h
        -- the output broke within this piece, and there the whole run fails
        exact ⟨size, Paused.finish?_of_unpassed hpass⟩

/-- If the run comes to a result, so do the pieces, and they need not be more
than its steps. The induction is on the pieces. -/
theorem stream_of_finish? {fuel : Nat} {r : Result σ} (hsize : 0 < size)
    (h : s.finish? p fuel w = some r) (hpieces : s.left.getD fuel < pieces) :
    (p.stream size Writer.pass pieces s).run w = (some r.failure, r.state.writer) := by
  induction pieces generalizing s w fuel with
  | zero => cases hpieces
  | succ pieces ih =>
      -- whatever the piece comes to, the run comes to with the fuel of the piece
      have hmore : ∀ x, (s.finish? p size w).map Result.shown = some x →
          x = r.shown := by
        intro x hx
        obtain ⟨r', hr', rfl⟩ := Option.map_eq_some_iff.mp hx
        have hr := Paused.finish?_mono h (Nat.le_max_left fuel size)
        rw [Paused.finish?_mono hr' (Nat.le_max_right fuel size), Option.some.injEq] at hr
        rw [hr]
      rw [stream_succ]
      rcases hpass : Writer.sendAll Writer.emit w (s.next p size).1.toList with ⟨_ | cause, w₁⟩
      · cases hnext : (s.next p size).2 with
        | done failure' =>
            exact congrArg (Prod.map some id) (hmore _ (Paused.finish?_of_done hpass hnext))
        | more rest =>
            -- the rest of the run is left fewer steps, since the piece has some
            obtain ⟨hrest, hleft⟩ := Paused.finish?_of_more hpass hnext (fuel - size)
            have hfuel : fuel ≤ size + (fuel - size) := by omega
            rw [Paused.finish?_mono h hfuel] at hrest
            have hfewer := Paused.left_lt hsize h hleft
            exact ih hrest.symm (by omega)
      · exact congrArg (Prod.map some id) (hmore _ (Paused.finish?_of_unpassed hpass))

/-- **A run in pieces is the run.** Whatever the writer and whatever the size
of the pieces, they come to an end exactly if the run that prints to the
writer directly does, for the same reason, and they leave the writer as it
does. -/
theorem stream_eq_some_iff (p : Program) (limit : Option Nat) {size : Nat} (hsize : 0 < size)
    (w w' : σ) (failure : Option RuntimeError) :
    (∃ pieces, (p.stream size Writer.pass pieces (Paused.start limit)).run w =
        (some failure, w')) ↔
      ∃ fuel, (p.run? limit fuel w).map Result.shown = some (failure, w') := by
  constructor
  · rintro ⟨pieces, h⟩
    obtain ⟨fuel, hfuel⟩ := finish?_of_stream h
    rw [Paused.finish?_start] at hfuel
    exact ⟨fuel, hfuel⟩
  · rintro ⟨fuel, h⟩
    obtain ⟨r, hr, hshown⟩ := Option.map_eq_some_iff.mp h
    cases hshown
    rw [← Paused.finish?_start] at hr
    exact ⟨_, stream_of_finish? hsize hr (Nat.lt_succ_self _)⟩

end Program

end TapeLang
