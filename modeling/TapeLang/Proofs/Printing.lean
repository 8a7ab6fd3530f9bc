import TapeLang.Proofs.Bounds

/-!
# TapeLang.Proofs.Printing — a run and its writer

A run meets its writer only where it prints. A step that prints nothing is
the same step with any other writer, and leaves each of them as it is; a
step that prints hands one byte to the writer and does nothing else.

* `Program.printed?` — the byte that a step prints, if it prints one;
* `Program.step_withWriter`, `Program.step_of_printed` — the two kinds of
  steps;
* `Program.printedFor` — the bytes that are printed in so many steps;
* `Program.runFor_withWriter` — two runs go together as long as neither
  writer fails, and each writer gets the bytes that are printed.

What is known of a writer is said by a `Gauge`, which shows the bytes that
it holds and how often it has been flushed. `Sink.gauge` is that of a sink.
-/

namespace TapeLang

variable {σ τ : Type}

/-! ## The same with another writer -/

namespace State

/-- The same tape and head with the writer `v`. -/
def withWriter (s : State σ) (v : τ) : State τ :=
  { tape := s.tape, head := s.head, writer := v }

@[simp] theorem writer_withWriter (s : State σ) (v : τ) : (s.withWriter v).writer = v := rfl

@[simp] theorem withWriter_self (s : State σ) : s.withWriter s.writer = s := rfl

@[simp] theorem initial_withWriter (w : σ) (v : τ) :
    (State.initial w).withWriter v = State.initial v := rfl

end State

/-- The same result with the writer `v`. -/
def Result.withWriter (r : Result σ) (v : τ) : Result τ :=
  { failure := r.failure, state := r.state.withWriter v }

namespace Progress

/-- The same progress with the writer `v`. -/
def withWriter (v : τ) : Progress σ → Progress τ
  | .running ip s => .running ip (s.withWriter v)
  | .ended r => .ended (r.withWriter v)

/-- The state in which a run is, or which it has left. -/
def state : Progress σ → State σ
  | .running _ s => s
  | .ended r => r.state

@[simp] theorem writer_withWriter (x : Progress σ) (v : τ) :
    (x.withWriter v).state.writer = v := by
  cases x <;> rfl

theorem result?_withWriter (x : Progress σ) (v : τ) (limit : Option Nat) :
    (x.withWriter v).result? limit = (x.result? limit).map (·.withWriter v) := by
  cases x with
  | running ip s => cases limit <;> rfl
  | ended r => rfl

theorem state_of_result? {x : Progress σ} {limit : Option Nat} {r : Result σ}
    (h : x.result? limit = some r) : r.state = x.state := by
  cases x with
  | running ip s =>
      cases limit <;> cases h
      rfl
  | ended r' =>
      cases h
      rfl

end Progress

/-! ## Steps that print and steps that do not -/

namespace Program

/-- The byte that the instruction at `ip` prints in the state `s`. -/
def printed? (p : Program) (ip : Nat) (s : State σ) : Option UInt8 :=
  match p.fetch ip with
  | .print => s.current?.map Int8.toUInt8
  | _ => none

variable [Writer σ] [Writer τ]

/-- A step that prints nothing is the same with every writer. -/
theorem step_withWriter {p : Program} {ip : Nat} {s : State σ} (h : p.printed? ip s = none)
    (v : τ) : p.step ip (s.withWriter v) = (p.step ip s).withWriter v := by
  unfold step
  unfold printed? at h
  cases hop : p.fetch ip <;> rw [hop] at h
  case print =>
    -- there is no cell to print
    have hcell : Tape.cell? s.head = none := by
      simpa [State.current?] using h
    simp only [onCell, State.withWriter, hcell]
    rfl
  case move n => rfl
  case read => rfl
  case halt => rfl
  case seek k =>
    simp only [onCell, State.withWriter]
    cases Tape.cell? s.head with
    | none => rfl
    | some i => by_cases hzero : s.tape.get i = 0 <;> simp only [hzero] <;> rfl
  all_goals
    simp only [onCell, State.withWriter]
    cases Tape.cell? s.head <;> rfl

/-- A step that prints nothing leaves the writer as it is. -/
theorem step_writer {p : Program} {ip : Nat} {s : State σ} (h : p.printed? ip s = none) :
    (p.step ip s).state.writer = s.writer := by
  have hsame := step_withWriter h s.writer
  rw [State.withWriter_self] at hsame
  rw [hsame, Progress.writer_withWriter]

/-- A step that prints hands the byte to the writer. -/
theorem step_of_printed {p : Program} {ip : Nat} {s : State σ} {byte : UInt8}
    (h : p.printed? ip s = some byte) :
    p.step ip s =
      match Writer.emit s.writer byte with
      | (none, w) => .running (ip + 1) (s.withWriter w)
      | (some cause, w) => .ended ⟨some (.output cause), s.withWriter w⟩ := by
  unfold printed? at h
  split at h
  case h_2 => cases h
  case h_1 hop =>
    unfold State.current? at h
    simp only [step, hop, onCell]
    cases hcell : Tape.cell? s.head with
    | none => simp [hcell] at h
    | some i =>
        rw [hcell] at h
        cases h
        rfl

/-- The bytes that are printed in at most `n` counted steps from `ip`. -/
def printedFor (p : Program) : (n ip : Nat) → State σ → List UInt8
  | 0, _, _ => []
  | n + 1, ip, s =>
    (p.printed? ip s).toList ++
      match p.step ip s with
      | .running ip s => printedFor p n ip s
      | .ended _ => []

theorem printedFor_succ_of_running {p : Program} {ip ip' : Nat} {s s' : State σ}
    (h : p.step ip s = .running ip' s') (n : Nat) :
    p.printedFor (n + 1) ip s = (p.printed? ip s).toList ++ p.printedFor n ip' s' := by
  simp [printedFor, h]

theorem printedFor_succ_of_ended {p : Program} {ip : Nat} {s : State σ} {r : Result σ}
    (h : p.step ip s = .ended r) (n : Nat) :
    p.printedFor (n + 1) ip s = (p.printed? ip s).toList := by
  simp [printedFor, h]

theorem run?_eq_result? (p : Program) (limit : Option Nat) (fuel : Nat) (w : σ) :
    p.run? limit fuel w = (p.runFor (limit.getD fuel) 0 (State.initial w)).result? limit := by
  cases limit with
  | none =>
      change p.run? none fuel w = (p.runFor fuel 0 (State.initial w)).result? none
      unfold run?
      cases p.runFor fuel 0 (State.initial w) <;> rfl
  | some m =>
      change some (p.runWithin m w) = (p.runFor m 0 (State.initial w)).result? (some m)
      unfold runWithin
      cases p.runFor m 0 (State.initial w) <;> rfl

end Program

/-! ## What writers do with the bytes -/

/-- What is known of a writer. -/
structure Gauge (σ : Type) where
  /-- The bytes that it holds, in order. -/
  bytes : σ → List UInt8
  /-- How many flushes have succeeded. -/
  flushes : σ → Nat

namespace Gauge

/-- Between `w` and `w'` the writer has got the bytes `more`, with a flush
behind each of them. -/
structure Gets (g : Gauge σ) (w : σ) (more : List UInt8) (w' : σ) : Prop where
  bytes : g.bytes w' = g.bytes w ++ more
  flushes : g.flushes w' = g.flushes w + more.length

theorem Gets.refl (g : Gauge σ) (w : σ) : g.Gets w [] w where
  bytes := by simp
  flushes := rfl

theorem Gets.trans {g : Gauge σ} {w w₁ w₂ : σ} {more more' : List UInt8}
    (h : g.Gets w more w₁) (h' : g.Gets w₁ more' w₂) : g.Gets w (more ++ more') w₂ where
  bytes := by rw [h'.bytes, h.bytes, List.append_assoc]
  flushes := by rw [h'.flushes, h.flushes, List.length_append, Nat.add_assoc]

variable [Writer σ] [Writer τ]

/-- The next `n` bytes that are printed are taken without a failure, whatever
they are, and then the writer is as `Then` says. -/
def After (g : Gauge σ) (Then : σ → Prop) : Nat → σ → Prop
  | 0, w => Then w
  | n + 1, w => ∀ byte, ∃ w', Writer.emit w byte = (none, w') ∧ g.Gets w [byte] w' ∧
      g.After Then n w'

/-- No printed byte makes the writer fail, however many there have been. -/
def Reliable (g : Gauge σ) (w : σ) : Prop :=
  ∀ n, g.After (fun _ => True) n w

theorem Reliable.emit {g : Gauge σ} {w : σ} (h : g.Reliable w) (byte : UInt8) :
    ∃ w', Writer.emit w byte = (none, w') ∧ g.Reliable w' := by
  obtain ⟨w', hemit, -, -⟩ := h 1 byte
  refine ⟨w', hemit, ?_⟩
  intro n
  obtain ⟨w₁, hemit₁, -, hafter⟩ := h (n + 1) byte
  rw [hemit] at hemit₁
  cases hemit₁
  exact hafter

end Gauge

namespace Sink

/-- What a sink holds, and how often it has been flushed. -/
def gauge : Gauge Sink where
  bytes s := s.bytes.toList
  flushes s := s.flushes

/-- The sink with one more byte, flushed once more. -/
def printed (s : Sink) (byte : UInt8) : Sink :=
  { s with bytes := s.bytes.push byte, flushes := s.flushes + 1 }

/-- The policy of the sink lets it take one more byte and be flushed. -/
def HasRoom (s : Sink) : Prop :=
  match s.policy with
  | .reliable => True
  | .full n | .stalled n => s.bytes.size < n
  | .clogged n => s.flushes < n

theorem emit_of_hasRoom {s : Sink} (h : s.HasRoom) (byte : UInt8) :
    Writer.emit s byte = (none, s.printed byte) := by
  rcases s with ⟨policy, bytes, flushes⟩
  unfold HasRoom at h
  cases policy with
  | reliable => rfl
  | full n =>
      have hroom : ¬ n ≤ bytes.size := Nat.not_le.mpr h
      simp [Writer.emit, Writer.put, Writer.write, Writer.flush, write, flush, take, printed, hroom]
  | stalled n =>
      have hroom : ¬ n ≤ bytes.size := Nat.not_le.mpr h
      simp [Writer.emit, Writer.put, Writer.write, Writer.flush, write, flush, take, printed, hroom]
  | clogged n =>
      -- every byte is taken here; the room is for a flush
      have hroom : ¬ n ≤ flushes := Nat.not_le.mpr h
      simp [Writer.emit, Writer.put, Writer.write, Writer.flush, write, flush, take, printed, hroom]

/-- A sink takes as many bytes as there is room for. `Room n` is what holds
of a sink with room for `n` bytes. -/
theorem after_of_room {Then : Sink → Prop} (Room : Nat → Sink → Prop)
    (hroom : ∀ n s, Room (n + 1) s → s.HasRoom ∧ ∀ byte, Room n (s.printed byte))
    (hlast : ∀ s, Room 0 s → Then s) {n : Nat} {s : Sink} (h : Room n s) :
    gauge.After Then n s := by
  induction n generalizing s with
  | zero => exact hlast s h
  | succ n ih =>
      intro byte
      obtain ⟨hnow, hlater⟩ := hroom n s h
      refine ⟨s.printed byte, emit_of_hasRoom hnow byte, ?_, ih (hlater byte)⟩
      exact ⟨by simp [gauge, printed], by simp [gauge, printed]⟩

theorem reliable {s : Sink} (h : s.policy = .reliable) : gauge.Reliable s := by
  intro n
  refine after_of_room (fun _ s => s.policy = .reliable) ?_ (fun _ _ => trivial) h
  intro n s hs
  exact ⟨by simp [HasRoom, hs], fun byte => hs⟩

end Sink

/-! ## Two runs -/

namespace Program

variable [Writer σ] [Writer τ] {g : Gauge σ} {h : Gauge τ} {p : Program}

/-- A step that prints goes on if the writer does not fail. -/
theorem step_of_emit {ip : Nat} {s : State σ} {byte : UInt8} {w : σ}
    (hprint : p.printed? ip s = some byte) (hemit : Writer.emit s.writer byte = (none, w)) :
    p.step ip s = .running (ip + 1) (s.withWriter w) := by
  rw [step_of_printed hprint, hemit]

/-- **Two runs go together** as long as neither writer fails. The induction
is on the number of steps; a step that prints uses up one of the bytes that
the writer `v` takes. -/
theorem runFor_withWriter {Then : τ → Prop} {n k ip : Nat} {s : State σ} {v : τ}
    (hs : g.Reliable s.writer) (hv : h.After Then ((p.printedFor n ip s).length + k) v) :
    ∃ v', p.runFor n ip (s.withWriter v) = (p.runFor n ip s).withWriter v' ∧
      h.Gets v (p.printedFor n ip s) v' ∧ h.After Then k v' := by
  induction n generalizing ip s v with
  | zero =>
      refine ⟨v, rfl, Gauge.Gets.refl h v, ?_⟩
      simpa [printedFor] using hv
  | succ n ih =>
      cases hprint : p.printed? ip s with
      | none =>
          -- neither writer is touched
          have hsame := step_withWriter hprint v
          cases hstep : p.step ip s with
          | running ip₁ s₁ =>
              have hwriter := step_writer hprint
              rw [hstep] at hsame hwriter
              rw [printedFor_succ_of_running hstep, hprint] at hv ⊢
              have hs₁ : g.Reliable s₁.writer := by
                change s₁.writer = s.writer at hwriter
                rw [hwriter]
                exact hs
              obtain ⟨v', hrun, hgets, hafter⟩ := ih hs₁ hv
              refine ⟨v', ?_, hgets, hafter⟩
              rw [runFor_succ_of_running hstep, runFor_succ_of_running hsame, hrun]
          | ended r =>
              rw [hstep] at hsame
              rw [printedFor_succ_of_ended hstep, hprint] at hv ⊢
              refine ⟨v, ?_, Gauge.Gets.refl h v, by simpa using hv⟩
              rw [runFor_succ_of_ended hstep, runFor_succ_of_ended hsame]
              rfl
      | some byte =>
          -- both writers get the byte, and `v` takes one less from here on
          obtain ⟨w₁, hemit, hw₁⟩ := hs.emit byte
          have hstep := step_of_emit hprint hemit
          rw [printedFor_succ_of_running hstep, hprint, Option.toList_some,
            List.singleton_append] at hv ⊢
          rw [List.length_cons, Nat.add_right_comm] at hv
          obtain ⟨v₁, hemit₁, hgets₁, hv₁⟩ := hv byte
          have hsame : p.step ip (s.withWriter v) = .running (ip + 1) (s.withWriter v₁) :=
            step_of_emit hprint hemit₁
          obtain ⟨v', hrun, hgets, hafter⟩ := ih (s := s.withWriter w₁) hw₁ hv₁
          refine ⟨v', ?_, hgets₁.trans hgets, hafter⟩
          rw [runFor_succ_of_running hstep, runFor_succ_of_running hsame]
          exact hrun

/-- A writer that does not fail gets what is printed. -/
theorem runFor_gets (p : Program) (n ip : Nat) {s : State σ} (hs : g.Reliable s.writer) :
    g.Gets s.writer (p.printedFor n ip s) (p.runFor n ip s).state.writer := by
  obtain ⟨w, hrun, hgets, -⟩ := runFor_withWriter (k := 0) hs (hs (p.printedFor n ip s).length)
  rw [State.withWriter_self] at hrun
  rw [hrun, Progress.writer_withWriter]
  exact hgets

/-- It still does not fail behind the run. -/
theorem runFor_reliable (p : Program) (n ip : Nat) {s : State σ} (hs : g.Reliable s.writer) :
    g.Reliable (p.runFor n ip s).state.writer := by
  intro k
  obtain ⟨w, hrun, -, hafter⟩ := runFor_withWriter hs (hs ((p.printedFor n ip s).length + k))
  rw [State.withWriter_self] at hrun
  rw [hrun, Progress.writer_withWriter]
  exact hafter

theorem run?_gets {limit : Option Nat} {fuel : Nat} {w : σ} {r : Result σ} (hw : g.Reliable w)
    (hr : p.run? limit fuel w = some r) :
    g.Gets w (p.printedFor (limit.getD fuel) 0 (State.initial w)) r.state.writer ∧
      g.Reliable r.state.writer := by
  rw [run?_eq_result?] at hr
  rw [Progress.state_of_result? hr]
  exact ⟨runFor_gets p _ 0 (s := State.initial w) hw, runFor_reliable p _ 0 hw⟩

/-- Whole runs go together if neither writer fails. -/
theorem run?_withWriter {Then : τ → Prop} {limit : Option Nat} {fuel k : Nat} {w : σ} {v : τ}
    (hw : g.Reliable w)
    (hv : h.After Then ((p.printedFor (limit.getD fuel) 0 (State.initial w)).length + k) v) :
    ∃ v', p.run? limit fuel v = (p.run? limit fuel w).map (·.withWriter v') ∧
      h.Gets v (p.printedFor (limit.getD fuel) 0 (State.initial w)) v' ∧ h.After Then k v' := by
  obtain ⟨v', hrun, hgets, hafter⟩ := runFor_withWriter (s := State.initial w) hw hv
  refine ⟨v', ?_, hgets, hafter⟩
  rw [State.initial_withWriter] at hrun
  rw [run?_eq_result?, run?_eq_result?, hrun, Progress.result?_withWriter]

end Program

end TapeLang
