import TapeLang.Proofs.Printing
import TapeLang.Proofs.ShrunkRun

/-!
# TapeLang.Proofs.Travel — the head is where its shifts add up to

The head wraps, and nothing checks it while it moves. But a single shift is
at most 2³¹ cells long, so it takes more than 2³² of them to lead once
around. Until then the head is the exact sum of its shifts, and it cannot
come back to the tape from the wrong side.

* `Program.shift?` — the offset by which a step shifts the head;
* `Program.travelled` — the exact sum of the offsets of a run;
* `Program.runFor_head` — the head is that sum, cut to 64 bits;
* `few_shifts_are_exact` — after at most 2³² shifts nothing is cut, and who
  looks at a cell finds the one with that number, or fails with it.
-/

namespace TapeLang

variable {σ : Type}

/-! ## Shifts -/

namespace Program

/-- The offset by which the instruction at `ip` shifts the head in the state
`s`: a move always does, and a search does unless it is over. -/
def shift? (p : Program) (ip : Nat) (s : State σ) : Option Int32 :=
  match p.fetch ip with
  | .move n => some n
  | .seek k =>
    match s.current? with
    | none => none
    | some v => if v = 0 then none else some k
  | _ => none

variable [Writer σ]

/-- A step that shifts the head goes on and does nothing else. -/
theorem step_of_shift {p : Program} {ip : Nat} {s : State σ} {n : Int32}
    (h : p.shift? ip s = some n) : ∃ ip', p.step ip s = .running ip' (s.shift n) := by
  unfold shift? at h
  cases hop : p.fetch ip <;> rw [hop] at h
  case move m =>
    cases h
    exact ⟨ip + 1, by simp only [step, hop]⟩
  case seek k =>
    refine ⟨ip, ?_⟩
    rw [step_seek (k := k.toInt64) (by rw [hop]; rfl)]
    cases hcell : s.current? with
    | none => simp [hcell] at h
    | some v =>
        by_cases hv : v = 0
        · simp [hcell, hv] at h
        · simp only [hcell, if_neg hv] at h ⊢
          cases h
          rfl
  all_goals cases h

/-- Any other step leaves the head where it is. -/
theorem step_head {p : Program} {ip : Nat} {s : State σ} (h : p.shift? ip s = none) :
    (p.step ip s).state.head = s.head := by
  unfold shift? at h
  cases hop : p.fetch ip <;> rw [hop] at h
  case move n => cases h
  case seek k =>
    -- a search that does not shift is off the tape or done
    rw [step_seek (k := k.toInt64) (by rw [hop]; rfl)]
    cases hcell : s.current? with
    | none => rfl
    | some v =>
        by_cases hv : v = 0
        · simp only [if_pos hv]
          rfl
        · simp [hcell, hv] at h
  case print =>
    simp only [step, hop, onCell]
    cases Tape.cell? s.head with
    | none => rfl
    | some i =>
        rcases hemit : Writer.emit s.writer (s.tape.get i).toUInt8 with ⟨cause, w⟩
        cases cause <;> simp [hemit, Progress.state]
  all_goals
    simp only [step, hop, onCell]
  all_goals first
    | rfl
    | cases Tape.cell? s.head <;> rfl

/-- The offsets by which the head is shifted in at most `n` counted steps
from `ip`. -/
def shiftsFor (p : Program) : (n ip : Nat) → State σ → List Int32
  | 0, _, _ => []
  | n + 1, ip, s =>
    (p.shift? ip s).toList ++
      match p.step ip s with
      | .running ip s => shiftsFor p n ip s
      | .ended _ => []

theorem shiftsFor_succ_of_running {p : Program} {ip ip' : Nat} {s s' : State σ}
    (h : p.step ip s = .running ip' s') (n : Nat) :
    p.shiftsFor (n + 1) ip s = (p.shift? ip s).toList ++ p.shiftsFor n ip' s' := by
  simp [shiftsFor, h]

theorem shiftsFor_succ_of_ended {p : Program} {ip : Nat} {s : State σ} {r : Result σ}
    (h : p.step ip s = .ended r) (n : Nat) :
    p.shiftsFor (n + 1) ip s = (p.shift? ip s).toList := by
  simp [shiftsFor, h]

end Program

/-! ## Their exact sum -/

/-- The exact sum of offsets. -/
def distance (offsets : List Int32) : Int :=
  (offsets.map Int32.toInt).sum

@[simp] theorem distance_nil : distance [] = 0 := rfl

@[simp] theorem distance_cons (n : Int32) (offsets : List Int32) :
    distance (n :: offsets) = n.toInt + distance offsets := by
  simp [distance]

/-- Each offset adds at most 2³¹ to the left, and less to the right. -/
theorem distance_bounds (offsets : List Int32) :
    -2 ^ 31 * (offsets.length : Int) ≤ distance offsets ∧
      distance offsets ≤ (2 ^ 31 - 1) * offsets.length := by
  induction offsets with
  | nil => simp
  | cons n offsets ih =>
      have hlow := n.le_toInt
      have hhigh := n.toInt_lt
      rw [distance_cons, List.length_cons]
      constructor <;> omega

/-- The sum of at most 2³² offsets is a number of 64 bits. -/
theorem toInt_ofInt_distance {offsets : List Int32} (h : offsets.length ≤ 2 ^ 32) :
    (Int64.ofInt (distance offsets)).toInt = distance offsets := by
  have hbounds := distance_bounds offsets
  apply Int64.toInt_ofInt_of_le <;> omega

namespace Program

variable [Writer σ]

/-- A run leads the head as far as the shifts add up to. -/
theorem runFor_head (p : Program) (n ip : Nat) (s : State σ) :
    (p.runFor n ip s).state.head = s.head + .ofInt (distance (p.shiftsFor n ip s)) := by
  induction n generalizing ip s with
  | zero =>
      change s.head = s.head + .ofInt 0
      simp
  | succ n ih =>
      cases hshift : p.shift? ip s with
      | some m =>
          -- the first step shifts by `m`, and sums are taken modulo `2 ^ 64` on both sides
          obtain ⟨ip', hstep⟩ := step_of_shift hshift
          rw [runFor_succ_of_running hstep, shiftsFor_succ_of_running hstep, ih, hshift,
            Option.toList_some, List.singleton_append, distance_cons, Int64.ofInt_add,
            Int64.ofInt_int32ToInt, ← Int64.add_assoc]
          rfl
      | none =>
          have hhead := step_head hshift
          cases hstep : p.step ip s with
          | running ip' s' =>
              rw [hstep] at hhead
              rw [runFor_succ_of_running hstep, shiftsFor_succ_of_running hstep, ih, hshift]
              change s'.head + _ = s.head + _
              rw [← hhead]
              rfl
          | ended r =>
              rw [hstep] at hhead
              rw [runFor_succ_of_ended hstep, shiftsFor_succ_of_ended hstep, hshift, hhead]
              simp

/-- The exact sum of all offsets by which the head has been shifted in the
first `n` counted steps of the run of `p` that prints to `w`. -/
def travelled (p : Program) (n : Nat) (w : σ) : Int :=
  distance (p.shiftsFor n 0 (State.initial w))

end Program

/-! ## Looking at a cell -/

/-- Whether an instruction looks at the cell under the head. -/
def Instruction.looks : Instruction → Bool
  | .move _ | .read | .halt => false
  | _ => true

namespace Program

variable [Writer σ]

/-- Such an instruction acts on the cell under the head, and only if there is
none does it fail because of the head. -/
theorem step_of_looks {p : Program} {ip : Nat} {s : State σ} (hop : (p.fetch ip).looks = true) :
    ∃ act, p.step ip s = onCell ip s act ∧
      ∀ i head ip' t, act i s ≠ .ended ⟨some (.offTape head ip'), t⟩ := by
  cases hfetch : p.fetch ip <;> rw [hfetch] at hop
  case move => cases hop
  case read => cases hop
  case halt => cases hop
  all_goals
    refine ⟨_, by simp only [step, hfetch]; rfl, ?_⟩
    intro i head ip' t
  case seek => split <;> simp
  case print =>
    rcases Writer.emit s.writer (s.tape.get i).toUInt8 with ⟨cause, w⟩
    cases cause <;> simp
  all_goals simp

/-- Off the tape it fails, and changes nothing. -/
theorem step_of_looks_off {p : Program} {ip : Nat} {s : State σ}
    (hop : (p.fetch ip).looks = true) (hoff : ¬ OnTape s.head) :
    p.step ip s = .ended ⟨some (.offTape s.head ip), s⟩ := by
  obtain ⟨act, hstep, -⟩ := step_of_looks (s := s) hop
  rw [hstep, onCell, cell?_eq_none_iff.mpr hoff]

/-- On the tape it does not fail because of the head. -/
theorem step_of_looks_on {p : Program} {ip : Nat} {s : State σ}
    (hop : (p.fetch ip).looks = true) (hon : OnTape s.head) (head : Int64) (ip' : Nat)
    (t : State σ) : p.step ip s ≠ .ended ⟨some (.offTape head ip'), t⟩ := by
  obtain ⟨act, hstep, hact⟩ := step_of_looks (s := s) hop
  rw [hstep, onCell]
  cases hcell : Tape.cell? s.head with
  | none => exact absurd hon (cell?_eq_none_iff.mp hcell)
  | some i => exact hact i head ip' t

/-- A run whose next step ends it has the result of that step, if it may make
the step. -/
theorem run?_of_last {p : Program} {n ip fuel : Nat} {w : σ} {s : State σ} {r : Result σ}
    {limit : Option Nat} (hrun : p.runFor n 0 (State.initial w) = .running ip s)
    (hstep : p.step ip s = .ended r) (hn : n < limit.getD fuel) :
    p.run? limit fuel w = some r := by
  have hlast : p.runFor (n + 1) 0 (State.initial w) = .ended r := by
    rw [runFor_concat hrun, hstep]
  rw [run?_eq_result?, runFor_of_ended_of_le hlast hn]
  rfl

end Program

/-- **The head does not come around.** As long as a run has shifted its head
at most 2³² times, the head is the exact sum of the offsets. So what looks at
a cell next finds the cell with that number, if there is one. Otherwise the
run fails there, reports that number, and leaves the tape and the writer as
they were. -/
theorem few_shifts_are_exact [Writer σ] (p : Program) (w : σ) (n : Nat)
    (hfew : (p.shiftsFor n 0 (State.initial w)).length ≤ 2 ^ 32) :
    (p.runFor n 0 (State.initial w)).state.head.toInt = p.travelled n w ∧
    ∀ ip s, p.runFor n 0 (State.initial w) = .running ip s → (p.fetch ip).looks = true →
      ((∀ head ip' t, p.step ip s ≠ .ended ⟨some (.offTape head ip'), t⟩) ↔
        0 ≤ p.travelled n w ∧ p.travelled n w < tapeLength) ∧
      (∀ i : Fin tapeLength, p.travelled n w = i → Tape.cell? s.head = some i) ∧
      (¬ (0 ≤ p.travelled n w ∧ p.travelled n w < tapeLength) →
        ∃ head : Int64, head.toInt = p.travelled n w ∧
          ∀ limit fuel, n < Option.getD limit fuel →
            p.run? limit fuel w = some ⟨some (.offTape head ip), s⟩) := by
  -- so few shifts cannot carry the sum past the ends of the word
  have hexact : (p.runFor n 0 (State.initial w)).state.head.toInt = p.travelled n w := by
    rw [Program.runFor_head]
    change ((0 : Int64) + _).toInt = _
    rw [Int64.zero_add]
    exact toInt_ofInt_distance hfew
  refine ⟨hexact, ?_⟩
  intro ip s hrun hop
  rw [hrun] at hexact
  change s.head.toInt = p.travelled n w at hexact
  rw [← hexact]
  refine ⟨?_, fun i hi => cell?_of_toInt hi, ?_⟩
  · constructor
    · intro hstep
      by_contra hoff
      exact hstep _ _ _ (Program.step_of_looks_off hop hoff)
    · intro hon
      exact Program.step_of_looks_on hop hon
  · intro hoff
    refine ⟨s.head, rfl, ?_⟩
    intro limit fuel hn
    exact Program.run?_of_last hrun (Program.step_of_looks_off hop hoff) hn

/-- A move to the right and the longest stride to the left: the search fails
at the sum of both, far off the tape. -/
theorem long_stride_is_exact :
    (Program.shiftsFor ⟨#[.move 1, .add 1, .seek (-2147483648), .halt]⟩ 3 0
      (State.initial ({} : Sink))).length ≤ 2 ^ 32 ∧
    Program.travelled ⟨#[.move 1, .add 1, .seek (-2147483648), .halt]⟩ 3 ({} : Sink) =
      -2147483647 ∧
    ∃ (head : Int64) (s : State Sink), head.toInt = -2147483647 ∧
      Program.run? ⟨#[.move 1, .add 1, .seek (-2147483648), .halt]⟩ none 4 {} =
        some ⟨some (.offTape head 2), s⟩ := by
  let p : Program := ⟨#[.move 1, .add 1, .seek (-2147483648), .halt]⟩
  have hshifts : p.shiftsFor 3 0 (State.initial ({} : Sink)) = [1, -2147483648] := by
    decide +kernel
  have hfew : (p.shiftsFor 3 0 (State.initial ({} : Sink))).length ≤ 2 ^ 32 := by
    rw [hshifts]
    decide
  have hsum : p.travelled 3 ({} : Sink) = -2147483647 := by
    rw [Program.travelled, hshifts]
    decide
  have hrun : p.runFor 3 0 (State.initial ({} : Sink)) = .running 2 _ := rfl
  have hfail := ((few_shifts_are_exact p ({} : Sink) 3 hfew).2 2 _ hrun rfl).2.2
  rw [hsum] at hfail
  obtain ⟨head, hhead, hresult⟩ := hfail (by decide)
  exact ⟨hfew, hsum, head, _, hhead, hresult none 4 (by decide)⟩

end TapeLang
