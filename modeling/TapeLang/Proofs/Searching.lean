import Mathlib.Data.Nat.Find
import TapeLang.Proofs.ShrunkRun
import TapeLang.Proofs.StepLimit

/-!
# TapeLang.Proofs.Searching — a search comes to an end

A search strides on until it finds a zero, and has no bound of its own. If
its stride is not zero, it always goes the same way and leaves the tape
sooner or later, by less than one stride, so that the head does not wrap.

* `Tape.Stops` — the places at which a search is over;
* `State.StopsAfter` — how many strides it takes to the first of them;
* `Program.runFor_strides` — the strides of a search, one by one;
* `search_comes_to_an_end` — a whole search, and what becomes of a stride of
  zero.

Places are exact integers, on the tape or off it.
-/

namespace TapeLang

variable {σ : Type}

/-! ## Places -/

/-- A search that has come to the place `x` is over: there is no such cell,
or it is zero. -/
def Tape.Stops (t : Tape) (x : Int) : Prop :=
  ¬ (0 ≤ x ∧ x < tapeLength) ∨ ∃ i : Fin tapeLength, x = i ∧ t.get i = 0

theorem Tape.not_stops_iff {t : Tape} {x : Int} :
    ¬ t.Stops x ↔ ∃ i : Fin tapeLength, x = i ∧ t.get i ≠ 0 := by
  constructor
  · -- a place that does not stop is on the tape, and its cell is not zero
    intro h
    have hrange : 0 ≤ x ∧ x < tapeLength := by
      by_contra hoff
      exact h (Or.inl hoff)
    refine ⟨⟨x.toNat, by omega⟩, by simp [hrange.1], ?_⟩
    intro hzero
    exact h (Or.inr ⟨⟨x.toNat, by omega⟩, by simp [hrange.1], hzero⟩)
  · rintro ⟨i, rfl, hi⟩ (hoff | ⟨i', hi', hzero⟩)
    · have hlt := i.isLt
      omega
    · have hsame : i = i' := Fin.ext (by exact_mod_cast hi')
      rw [hsame] at hi
      exact hi hzero

namespace State

/-- The place to which `j` strides by `k` lead. -/
def place (s : State σ) (k : Int32) (j : Nat) : Int :=
  s.head.toInt + j * k.toInt

/-- The state with the head at the place `x`. -/
def headAt (s : State σ) (x : Int) : State σ :=
  { s with head := .ofInt x }

/-- A search by `k` is over after `j` strides, and not before. -/
structure StopsAfter (s : State σ) (k : Int32) (j : Nat) : Prop where
  stops : s.tape.Stops (s.place k j)
  first : ∀ i < j, ¬ s.tape.Stops (s.place k i)

theorem headAt_toInt (s : State σ) : s.headAt s.head.toInt = s := by
  simp [headAt]

theorem headAt_shift (s : State σ) (x : Int) (k : Int32) :
    (s.headAt x).shift k = s.headAt (x + k.toInt) := by
  simp [headAt, shift, Int64.ofInt_add, Int64.ofInt_int32ToInt]

theorem place_zero (s : State σ) (k : Int32) : s.place k 0 = s.head.toInt := by
  simp [place]

theorem place_succ (s : State σ) (k : Int32) (j : Nat) :
    s.place k (j + 1) = s.place k j + k.toInt := by
  simp only [place]
  rw [Int.natCast_succ, Int.add_mul, Int.one_mul, Int.add_assoc]

theorem current?_headAt {s : State σ} {x : Int} {i : Fin tapeLength} (hx : x = i) :
    (s.headAt x).current? = some (s.tape.get i) := by
  have hi := i.isLt
  have hhead : (s.headAt x).head.toInt = i := by
    unfold tapeLength at hi
    rw [← hx]
    apply Int64.toInt_ofInt_of_le <;> omega
  rw [current?, cell?_of_toInt hhead]
  rfl

/-- Strides of a length other than zero lead off the tape. -/
theorem exists_stopsAfter {s : State σ} {k : Int32} (hs : OnTape s.head) (hk : k ≠ 0) :
    ∃ j, s.StopsAfter k j := by
  have hlen : k.toInt ≠ 0 := by
    intro hzero
    exact hk (Int32.toInt_inj.mp hzero)
  have hleave : ∃ j, s.tape.Stops (s.place k j) := by
    refine ⟨tapeLength, Or.inl ?_⟩
    unfold OnTape tapeLength at hs
    unfold place tapeLength
    omega
  classical
  exact ⟨Nat.find hleave, Nat.find_spec hleave, fun i hi => Nat.find_min hleave hi⟩

/-- All strides but the last one stay on the tape. -/
theorem StopsAfter.strides_lt {s : State σ} {k : Int32} {j : Nat} (h : s.StopsAfter k j)
    (hs : OnTape s.head) : j * k.toInt.natAbs < tapeLength + k.toInt.natAbs := by
  cases j with
  | zero =>
      unfold tapeLength
      omega
  | succ j =>
      -- the place before the last is still on the tape
      obtain ⟨i, hi, -⟩ := Tape.not_stops_iff.mp (h.first j (Nat.lt_succ_self j))
      have hlt := i.isLt
      have hlen : ((j : Int) * k.toInt).natAbs = j * k.toInt.natAbs := by
        rw [Int.natAbs_mul, Int.natAbs_natCast]
      unfold OnTape at hs
      unfold place at hi
      rw [Nat.succ_mul, ← hlen]
      omega

end State

/-! ## Strides -/

namespace Program

variable [Writer σ] {p : Program} {ip : Nat} {k : Int32}

/-- As long as a search is not over, it strides on, and the head is exact. -/
theorem runFor_strides (hop : p.fetch ip = .seek k) {s : State σ} {j : Nat}
    (hfirst : ∀ i < j, ¬ s.tape.Stops (s.place k i)) :
    p.runFor j ip s = .running ip (s.headAt (s.place k j)) ∧
      (s.headAt (s.place k j)).head.toInt = s.place k j := by
  induction j with
  | zero =>
      rw [State.place_zero, State.headAt_toInt]
      exact ⟨rfl, rfl⟩
  | succ j ih =>
      obtain ⟨hrun, -⟩ := ih (fun i hi => hfirst i (by omega))
      obtain ⟨i, hi, hcell⟩ := Tape.not_stops_iff.mp (hfirst j (Nat.lt_succ_self j))
      constructor
      · rw [runFor_concat hrun, step_of_seek hop, State.current?_headAt hi]
        simp only [if_neg hcell]
        rw [State.headAt_shift, State.place_succ]
      · -- one stride from the tape does not wrap
        have hlt := i.isLt
        have hlow := k.le_toInt
        have hhigh := k.toInt_lt
        unfold tapeLength at hlt
        rw [State.place_succ, hi]
        apply Int64.toInt_ofInt_of_le <;> omega

/-- Where it is over, the next counted step leads behind it or fails. -/
theorem runFor_stopsAfter (hop : p.fetch ip = .seek k) {s : State σ} {j : Nat}
    (h : s.StopsAfter k j) :
    p.runFor (j + 1) ip s =
      if 0 ≤ s.place k j ∧ s.place k j < tapeLength then
        .running (ip + 1) (s.headAt (s.place k j))
      else
        .ended ⟨some (.offTape (s.headAt (s.place k j)).head ip), s.headAt (s.place k j)⟩ := by
  obtain ⟨hrun, hexact⟩ := runFor_strides hop h.first
  rw [runFor_concat hrun, step_of_seek hop]
  rcases h.stops with hoff | ⟨i, hi, hzero⟩
  · have hcell : (s.headAt (s.place k j)).current? = none := by
      rw [current?_eq_none_iff, OnTape, hexact]
      exact hoff
    rw [if_neg hoff, hcell]
  · have hlt := i.isLt
    rw [if_pos (by omega), State.current?_headAt hi, hzero]
    rfl

/-- A search with a stride of zero that does not find a zero stays for
ever. -/
theorem runFor_zero_stride (hop : p.fetch ip = .seek 0) {s : State σ} {v : Int8}
    (hcell : s.current? = some v) (hv : v ≠ 0) (n : Nat) : p.runFor n ip s = .running ip s := by
  have hstep : p.step ip s = .running ip s := by
    rw [step_of_seek hop, hcell]
    simp only [if_neg hv]
    simp [State.shift]
  induction n with
  | zero => rfl
  | succ n ih => rw [runFor_succ_of_running hstep, ih]

end Program

/-- **A search comes to an end.** Let it begin on the tape. If its stride `k`
is not zero, there is a first place on its way that is off the tape or holds
a zero, which is `j` strides away. It makes these strides, each a counted
step, and one step more, which leads behind it if the place is on the tape,
and fails with this place otherwise. The tape and the writer are left as
they are. If its stride is zero, it is over at once on a zero, and otherwise
it stays until the step limit cuts it. -/
theorem search_comes_to_an_end [Writer σ] {p : Program} {ip : Nat} {k : Int32}
    (hop : p.fetch ip = .seek k) {s : State σ} (hs : OnTape s.head) :
    (k ≠ 0 → ∃ j, s.StopsAfter k j ∧ j * k.toInt.natAbs < tapeLength + k.toInt.natAbs ∧
      (∀ i ≤ j, p.runFor i ip s = .running ip (s.headAt (s.place k i)) ∧
        (s.headAt (s.place k i)).head.toInt = s.place k i) ∧
      p.runFor (j + 1) ip s =
        if 0 ≤ s.place k j ∧ s.place k j < tapeLength then
          .running (ip + 1) (s.headAt (s.place k j))
        else
          .ended ⟨some (.offTape (s.headAt (s.place k j)).head ip), s.headAt (s.place k j)⟩) ∧
    (k = 0 →
      (s.current? = some 0 → p.runFor 1 ip s = .running (ip + 1) s) ∧
      (s.current? ≠ some 0 → (∀ n, p.runFor n ip s = .running ip s) ∧
        ∀ (w : σ) (n m fuel : Nat), p.runFor n 0 (State.initial w) = .running ip s → n ≤ m →
          p.run? (some m) fuel w = some ⟨some (.stepLimit m), s⟩)) := by
  constructor
  · intro hk
    obtain ⟨j, hj⟩ := State.exists_stopsAfter hs hk
    refine ⟨j, hj, hj.strides_lt hs, ?_, Program.runFor_stopsAfter hop hj⟩
    intro i hi
    exact Program.runFor_strides hop (fun i' hi' => hj.first i' (by omega))
  · rintro rfl
    constructor
    · intro hzero
      have hstep : p.step ip s = .running (ip + 1) s := by
        rw [Program.step_of_seek hop, hzero]
        rfl
      exact Program.runFor_succ_of_running hstep 0
    · -- the head stays where it is, so the cell never changes
      intro hcell
      obtain ⟨v, hv⟩ : ∃ v, s.current? = some v := by
        cases hcur : s.current? with
        | none => exact absurd hs (current?_eq_none_iff.mp hcur)
        | some v => exact ⟨v, rfl⟩
      have hne : v ≠ 0 := by
        rintro rfl
        exact hcell hv
      have hstays := Program.runFor_zero_stride hop hv hne
      refine ⟨hstays, ?_⟩
      intro w n m fuel hrun hm
      -- the steps that the limit leaves are spent in place
      obtain ⟨d, rfl⟩ := Nat.exists_eq_add_of_le hm
      have hcut : p.runFor (n + d) 0 (State.initial w) = .running ip s := by
        rw [Program.runFor_add hrun, hstays]
      exact Program.run?_some_of_running hcut fuel

/-- A search to the left on a tape without a zero. It begins on cell 5 and
leaves the tape with its second stride of three cells. -/
theorem search_leaves_tape :
    Program.fetch ⟨#[.seek (-3), .halt]⟩ 0 = .seek (-3) ∧ OnTape 5 ∧
    ∃ t, Program.runFor ⟨#[.seek (-3), .halt]⟩ 3 0
      ⟨Vector.replicate tapeLength 1, 5, ({} : Sink)⟩ =
        .ended ⟨some (.offTape (-1) 0), t⟩ := by
  let s : State Sink := ⟨Vector.replicate tapeLength 1, 5, {}⟩
  have hop : Program.fetch ⟨#[.seek (-3), .halt]⟩ 0 = .seek (-3) := rfl
  have hs : OnTape s.head := by
    constructor <;> decide
  obtain ⟨j, hj, -, -, hend⟩ := (search_comes_to_an_end hop hs).1 (by decide)
  have hplace : ∀ i, s.place (-3) i = 5 - 3 * i := by
    intro i
    have hhead : s.head.toInt = 5 := by decide
    have hstride : (-3 : Int32).toInt = -3 := by decide
    rw [State.place, hhead, hstride]
    omega
  have hfull : ∀ i : Fin tapeLength, s.tape.get i ≠ 0 := by
    intro i
    simp [s, Vector.get]
  -- no place on the tape holds a zero, so the first one off the tape is the end
  have htwo : j = 2 := by
    rcases hj.stops with hoff | ⟨i, -, hzero⟩
    · rcases Nat.lt_trichotomy j 2 with hlt | rfl | hgt
      · rw [hplace] at hoff
        unfold tapeLength at hoff
        omega
      · rfl
      · refine absurd (Or.inl ?_) (hj.first 2 hgt)
        rw [hplace]
        decide
    · exact absurd hzero (hfull i)
  subst htwo
  rw [if_neg (by rw [hplace]; decide)] at hend
  exact ⟨hop, hs, _, hend⟩

end TapeLang
