import Mathlib.Data.Finset.Card
import Mathlib.Data.Finset.Range
import TapeLang.Proofs.Bounds

/-!
# TapeLang.Proofs.Depth — how many loops an instruction is in

The brackets of a program carry the indices of their partners, so the loops
around an index can be counted without going through the code. Who goes
through it can keep a counter instead.

* `Program.enclosing` — how many loops are strictly around an index;
* `Program.openBefore` — how many loops are open before an index;
* `WellLinked.openBefore_eq`, `WellLinked.openBefore_succ` — the two differ
  by one at a bracket, and are equal elsewhere;
* `WellLinked.openBefore_size` — at the end no loop is open;
* `WellLinked.enclosing_eq` — partners are in the same loops.
-/

namespace TapeLang

/-! ## Counting loops -/

namespace Program

/-- Whether a loop opens at `a` and closes at `t` or behind it. -/
def reaches (p : Program) (t a : Nat) : Bool :=
  match p.fetch a with
  | .loopOpen b => t ≤ b
  | _ => false

theorem reaches_iff {p : Program} {t a : Nat} :
    p.reaches t a = true ↔ ∃ b, p.fetch a = .loopOpen b ∧ t ≤ b := by
  unfold reaches
  cases p.fetch a <;> simp

/-- The number of loops that open before `i` and close behind it. -/
def enclosing (p : Program) (i : Nat) : Nat :=
  ((Finset.range i).filter fun a => p.reaches (i + 1) a).card

/-- The number of loops that open before `t` and do not close before it. -/
def openBefore (p : Program) (t : Nat) : Nat :=
  ((Finset.range t).filter fun a => p.reaches t a).card

end Program

namespace WellLinked

variable {ops : List Instruction} {p : Program}

theorem partners_of_fetch_open (h : WellLinked ops p) {i j : Nat}
    (hi : p.fetch i = .loopOpen j) : Partners ops i j :=
  h.partners_of_open (Program.getElem?_of_fetch hi (by simp))

theorem partners_of_fetch_close (h : WellLinked ops p) {i j : Nat}
    (hj : p.fetch j = .loopClose i) : Partners ops i j :=
  h.partners_of_close (Program.getElem?_of_fetch hj (by simp))

/-- Partners name each other. -/
theorem fetch_of_partners (h : WellLinked ops p) {i j : Nat} (hij : Partners ops i j) :
    p.fetch i = .loopOpen j ∧ p.fetch j = .loopClose i := by
  obtain ⟨k, hk⟩ := hij.opens
  obtain ⟨j', hij', hi, hj⟩ := h.opens i k hk
  cases hij.right_unique hij'
  exact ⟨Program.fetch_of_getElem? hi, Program.fetch_of_getElem? hj⟩

/-! ## One instruction -/

/-- Behind an index, a loop is open that opens there. -/
theorem openBefore_succ (h : WellLinked ops p) (t : Nat) :
    p.openBefore (t + 1) = p.enclosing t + if (p.fetch t).isOpen then 1 else 0 := by
  -- the bracket at `t` counts if it opens, since its partner is behind it
  have hnew : p.reaches (t + 1) t = (p.fetch t).isOpen := by
    rw [Bool.eq_iff_iff, Program.reaches_iff]
    constructor
    · rintro ⟨b, hopen, _⟩
      rw [hopen]
      rfl
    · intro hopen
      rcases (p.fetch t).bracket_cases with ⟨b, hb⟩ | ⟨b, hb⟩ | ⟨hno, _⟩
      · exact ⟨b, hb, (h.partners_of_fetch_open hb).lt⟩
      · rw [hb] at hopen
        cases hopen
      · rw [hno] at hopen
        cases hopen
  rw [Program.openBefore, Finset.range_add_one, Finset.filter_insert, hnew]
  by_cases hopen : (p.fetch t).isOpen = true
  · rw [if_pos hopen, if_pos hopen, Finset.card_insert_of_notMem (by simp)]
    rfl
  · rw [if_neg hopen, if_neg hopen]
    rfl

/-- Before an index, a loop is still open that closes there. -/
theorem openBefore_eq (h : WellLinked ops p) (t : Nat) :
    p.openBefore t = p.enclosing t + if (p.fetch t).isClose then 1 else 0 := by
  by_cases hclose : ∃ i, p.fetch t = .loopClose i
  · -- the loop that closes at `t` is open before it and not around it
    obtain ⟨i, hi⟩ := hclose
    have hit := h.partners_of_fetch_close hi
    have hset : (Finset.range t).filter (fun a => p.reaches t a) =
        insert i ((Finset.range t).filter fun a => p.reaches (t + 1) a) := by
      ext a
      simp only [Finset.mem_insert, Finset.mem_filter, Finset.mem_range, Program.reaches_iff]
      constructor
      · rintro ⟨ha, b, hopen, hb⟩
        rcases Nat.eq_or_lt_of_le hb with rfl | hlt
        · exact Or.inl ((h.partners_of_fetch_open hopen).left_unique hit)
        · exact Or.inr ⟨ha, b, hopen, hlt⟩
      · rintro (rfl | ⟨ha, b, hopen, hb⟩)
        · exact ⟨hit.lt, t, (h.fetch_of_partners hit).1, Nat.le_refl t⟩
        · exact ⟨ha, b, hopen, by omega⟩
    have hnew : i ∉ (Finset.range t).filter fun a => p.reaches (t + 1) a := by
      simp only [Finset.mem_filter, Program.reaches_iff]
      rintro ⟨_, b, hopen, hb⟩
      have hsame := (h.partners_of_fetch_open hopen).right_unique hit
      omega
    rw [Program.openBefore, hset, Finset.card_insert_of_notMem hnew, hi]
    rfl
  · -- no loop closes at `t`, so what is open before it is around it
    have hset : (Finset.range t).filter (fun a => p.reaches t a) =
        (Finset.range t).filter fun a => p.reaches (t + 1) a := by
      apply Finset.filter_congr
      intro a _
      rw [Program.reaches_iff, Program.reaches_iff]
      constructor
      · rintro ⟨b, hopen, hb⟩
        have hne : t ≠ b := by
          rintro rfl
          exact hclose ⟨a, (h.fetch_of_partners (h.partners_of_fetch_open hopen)).2⟩
        exact ⟨b, hopen, by omega⟩
      · rintro ⟨b, hopen, hb⟩
        exact ⟨b, hopen, by omega⟩
    have hflat : (p.fetch t).isClose = false := by
      rcases (p.fetch t).bracket_cases with ⟨k, hk⟩ | hk | ⟨_, hk⟩
      · rw [hk]
        rfl
      · exact absurd hk hclose
      · exact hk
    rw [Program.openBefore, hset, hflat]
    rfl

/-! ## Whole programs -/

/-- At the end no loop is open. -/
theorem openBefore_size (h : WellLinked ops p) : p.openBefore p.code.size = 0 := by
  rw [Program.openBefore, Finset.card_eq_zero, Finset.filter_eq_empty_iff]
  intro a _ hreach
  obtain ⟨b, hopen, hle⟩ := Program.reaches_iff.mp hreach
  have hlt := (h.partners_of_fetch_open hopen).lt_length
  have hsize := h.size
  omega

/-- Partners are in the same loops. -/
theorem enclosing_eq (h : WellLinked ops p) {i j : Nat} (hij : Partners ops i j) :
    p.enclosing i = p.enclosing j := by
  unfold Program.enclosing
  congr 1
  ext a
  simp only [Finset.mem_filter, Finset.mem_range, Program.reaches_iff]
  have hlt := hij.lt
  constructor
  · -- a loop around the opening bracket is around its partner, since loops nest
    rintro ⟨ha, b, hopen, hb⟩
    have hnested := (h.partners_of_fetch_open hopen).nested hij ha
    exact ⟨by omega, b, hopen, by omega⟩
  · rintro ⟨ha, b, hopen, hb⟩
    have hab := h.partners_of_fetch_open hopen
    rcases Nat.lt_trichotomy a i with hai | rfl | hia
    · exact ⟨hai, b, hopen, by omega⟩
    · -- the loop itself is around neither
      have hsame := hab.right_unique hij
      omega
    · -- a loop that opens inside has closed before
      have hnested := hij.nested hab hia
      omega

end WellLinked

end TapeLang
