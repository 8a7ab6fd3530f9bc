import TapeLang.Proofs.Pairing
import TapeLang.Proofs.StructuredRun

/-!
# TapeLang.Proofs.Bounds — a run stays inside its program

The instruction at an index is looked up without asking whether the index
is in the code. It always is, if the code has been linked: a jump leads
behind a bracket, and behind each bracket there is at least the final
`halt`, which leads nowhere.

* `Program.step_goes` — where a step can lead;
* `WellLinked.step_lt` — one step stays inside the code;
* `WellLinked.runFor_lt` — so does a whole run;
* `run_stays_inside` — for every step limit and every writer, and a run that
  ends does so at an instruction of the code.
-/

namespace TapeLang

variable {σ : Type}

namespace Program

/-! ## Where a step leads -/

theorem onCell_eq_running {ip ip' : Nat} {s s' : State σ}
    {act : Fin tapeLength → State σ → Progress σ} (h : onCell ip s act = .running ip' s') :
    ∃ i, act i s = .running ip' s' := by
  unfold onCell at h
  split at h
  · exact ⟨_, h⟩
  · cases h

theorem onCell_eq_ended {ip : Nat} {s : State σ} {r : Result σ}
    {act : Fin tapeLength → State σ → Progress σ} (h : onCell ip s act = .ended r) :
    (∃ i, act i s = .ended r) ∨ ∃ e, r.failure = some e := by
  unfold onCell at h
  split at h
  · exact Or.inl ⟨_, h⟩
  · cases h
    exact Or.inr ⟨_, rfl⟩

variable [Writer σ]

/-- A step leads to the next instruction, or it is a jump and leads behind
its target, or it is a search and stays. A `halt` leads nowhere. -/
theorem step_goes {p : Program} {ip ip' : Nat} {s s' : State σ}
    (h : p.step ip s = .running ip' s') :
    (ip' = ip + 1 ∧ p.fetch ip ≠ .halt) ∨
    (∃ k, (p.fetch ip = .loopOpen k ∨ p.fetch ip = .loopClose k) ∧ ip' = k + 1) ∨
    ip' = ip := by
  unfold step at h
  cases hop : p.fetch ip <;> rw [hop] at h
  case move n =>
    cases h
    exact Or.inl ⟨rfl, by simp⟩
  case loopOpen k =>
    -- behind the partner if the cell is zero, and into the body if not
    obtain ⟨i, h⟩ := onCell_eq_running h
    split at h <;> cases h
    · exact Or.inr (Or.inl ⟨k, Or.inl rfl, rfl⟩)
    · exact Or.inl ⟨rfl, by simp⟩
  case loopClose k =>
    obtain ⟨i, h⟩ := onCell_eq_running h
    split at h <;> cases h
    · exact Or.inl ⟨rfl, by simp⟩
    · exact Or.inr (Or.inl ⟨k, Or.inr rfl, rfl⟩)
  case seek k =>
    -- a search is the only instruction that stays where it is
    obtain ⟨i, h⟩ := onCell_eq_running h
    split at h <;> cases h
    · exact Or.inl ⟨rfl, by simp⟩
    · exact Or.inr (Or.inr rfl)
  case print =>
    obtain ⟨i, h⟩ := onCell_eq_running h
    split at h <;> cases h
    exact Or.inl ⟨rfl, by simp⟩
  case read => cases h
  case halt => cases h
  all_goals
    obtain ⟨i, h⟩ := onCell_eq_running h
    cases h
    exact Or.inl ⟨rfl, by simp⟩

/-- A step that ends a run does so without a failure exactly if it is a
`halt`. -/
theorem failure_eq_none_iff {p : Program} {ip : Nat} {s : State σ} {r : Result σ}
    (h : p.step ip s = .ended r) : r.failure = none ↔ p.fetch ip = .halt := by
  unfold step at h
  cases hop : p.fetch ip <;> rw [hop] at h
  case move n => cases h
  case read =>
    cases h
    simp
  case halt =>
    cases h
    simp
  -- what needs a cell fails without one; only printing can fail with one
  all_goals rcases onCell_eq_ended h with ⟨i, h⟩ | ⟨e, he⟩
  case print.inl =>
    split at h <;> cases h
    simp
  case seek.inl => split at h <;> cases h
  all_goals first
    | cases h
    | simp [he]

/-- A run that has not ended goes on from where it is. -/
theorem runFor_add {p : Program} {n ip ip' : Nat} {s s' : State σ}
    (h : p.runFor n ip s = .running ip' s') (m : Nat) :
    p.runFor (n + m) ip s = p.runFor m ip' s' := by
  induction n generalizing ip s with
  | zero =>
      cases h
      rw [Nat.zero_add]
  | succ n ih =>
      rw [Nat.add_right_comm]
      cases hstep : p.step ip s with
      | running ip₁ s₁ =>
          rw [runFor_succ_of_running hstep] at h ⊢
          exact ih h
      | ended r =>
          rw [runFor_succ_of_ended hstep] at h
          cases h

theorem runFor_concat {p : Program} {n ip ip' : Nat} {s s' : State σ}
    (h : p.runFor n ip s = .running ip' s') : p.runFor (n + 1) ip s = p.step ip' s' := by
  rw [runFor_add h]
  cases hstep : p.step ip' s' with
  | running ip₁ s₁ => exact runFor_succ_of_running hstep 0
  | ended r => exact runFor_succ_of_ended hstep 0

/-- A run that has ended did so in a last step. -/
theorem runFor_last {p : Program} {n ip : Nat} {s : State σ} {r : Result σ}
    (h : p.runFor n ip s = .ended r) :
    ∃ k ip' s', k < n ∧ p.runFor k ip s = .running ip' s' ∧ p.step ip' s' = .ended r := by
  induction n generalizing ip s with
  | zero => cases h
  | succ n ih =>
      cases hstep : p.step ip s with
      | running ip₁ s₁ =>
          rw [runFor_succ_of_running hstep] at h
          obtain ⟨k, ip', s', hk, hrun, hlast⟩ := ih h
          refine ⟨k + 1, ip', s', by omega, ?_, hlast⟩
          rw [runFor_succ_of_running hstep, hrun]
      | ended r₁ =>
          -- the first step is the last one
          rw [runFor_succ_of_ended hstep] at h
          cases h
          exact ⟨0, ip, s, by omega, rfl, hstep⟩

/-- The run of `p` that prints to `w` comes to the instruction at `ip` in
the state `s`, and the step limit, if there is one, lets it go on there. -/
def Visits (p : Program) (limit : Option Nat) (w : σ) (ip : Nat) (s : State σ) : Prop :=
  ∃ n, (∀ m, limit = some m → n < m) ∧ p.runFor n 0 (State.initial w) = .running ip s

/-- A run that is over has made a last step, or it has reached its limit. -/
theorem run?_eq_some {p : Program} {limit : Option Nat} {fuel : Nat} {w : σ} {r : Result σ}
    (h : p.run? limit fuel w = some r) :
    (∃ ip s, p.Visits limit w ip s ∧ p.step ip s = .ended r) ∨
      ∃ m, limit = some m ∧ r.failure = some (.stepLimit m) := by
  cases limit with
  | none =>
      obtain ⟨k, ip, s, _, hrun, hlast⟩ := runFor_last (run?_none_eq_some_iff.mp h)
      exact Or.inl ⟨ip, s, ⟨k, by simp, hrun⟩, hlast⟩
  | some m =>
      simp only [run?, runWithin, Option.some.injEq] at h
      cases hrun : p.runFor m 0 (State.initial w) with
      | running ip s =>
          -- the limit has cut the run off
          rw [hrun] at h
          subst h
          exact Or.inr ⟨m, rfl, rfl⟩
      | ended r' =>
          -- the run has ended within its limit
          rw [hrun] at h
          subst h
          obtain ⟨k, ip, s, hk, hrun', hlast⟩ := runFor_last hrun
          exact Or.inl ⟨ip, s, ⟨k, by simpa using hk, hrun'⟩, hlast⟩

theorem code_getElem? {p : Program} {ip : Nat} (h : ip < p.code.size) :
    p.code[ip]? = some (p.fetch ip) := by
  simp [fetch, Array.getD_eq_getD_getElem?, h]

theorem fetch_of_getElem? {p : Program} {ip : Nat} {op : Instruction}
    (h : p.code[ip]? = some op) : p.fetch ip = op := by
  simp [fetch, Array.getD_eq_getD_getElem?, h]

/-- What is no `halt` stands inside the code. -/
theorem getElem?_of_fetch {p : Program} {ip : Nat} {op : Instruction} (h : p.fetch ip = op)
    (hop : op ≠ .halt) : p.code[ip]? = some op := by
  cases hcode : p.code[ip]? with
  | none => simp_all [fetch, Array.getD_eq_getD_getElem?]
  | some op' => rw [← h, fetch_of_getElem? hcode]

end Program

/-! ## Staying inside -/

namespace WellLinked

variable [Writer σ] {ops : List Instruction} {p : Program}

/-- One step stays inside the code. -/
theorem step_lt (h : WellLinked ops p) {ip ip' : Nat} {s s' : State σ} (hip : ip < p.code.size)
    (hstep : p.step ip s = .running ip' s') : ip' < p.code.size := by
  have hcode := Program.code_getElem? hip
  have hsize := h.size
  rcases Program.step_goes hstep with ⟨rfl, hhalt⟩ | ⟨k, hop | hop, rfl⟩ | rfl
  · -- the last instruction leads nowhere, so this is not the last one
    have hne : ip ≠ ops.length := by
      rintro rfl
      rw [h.last] at hcode
      exact hhalt (Option.some.inj hcode).symm
    omega
  · -- an opening bracket leads behind its partner, which has the last instruction behind it
    rw [hop] at hcode
    have hlen := (h.partners_of_open hcode).lt_length
    omega
  · -- a closing bracket leads back
    rw [hop] at hcode
    have hpair := h.partners_of_close hcode
    have hlt := hpair.lt
    have hlen := hpair.lt_length
    omega
  · exact hip

/-- A whole run does. -/
theorem runFor_lt (h : WellLinked ops p) {n ip ip' : Nat} {s s' : State σ}
    (hip : ip < p.code.size) (hrun : p.runFor n ip s = .running ip' s') : ip' < p.code.size := by
  induction n generalizing ip s with
  | zero =>
      cases hrun
      exact hip
  | succ n ih =>
      cases hstep : p.step ip s with
      | running ip₁ s₁ =>
          rw [Program.runFor_succ_of_running hstep] at hrun
          exact ih (h.step_lt hip hstep) hrun
      | ended r =>
          rw [Program.runFor_succ_of_ended hstep] at hrun
          cases hrun

theorem visits_lt (h : WellLinked ops p) {limit : Option Nat} {w : σ} {ip : Nat} {s : State σ}
    (hvisits : p.Visits limit w ip s) : ip < p.code.size := by
  obtain ⟨n, _, hrun⟩ := hvisits
  have hstart : 0 < p.code.size := by
    rw [h.size]
    omega
  exact h.runFor_lt hstart hrun

end WellLinked

/-- Under any step limit and with any writer, a run of linked code only comes
to indices inside the code. If it ends, it does so in a step from such an
index, which is a `halt` exactly if there is no failure, or at its limit. -/
theorem run_stays_inside [Writer σ] {ops : List Instruction} {p : Program}
    (h : Program.ofInstructions ops = .ok p) (limit : Option Nat) (w : σ) :
    (∀ ip s, p.Visits limit w ip s → ip < p.code.size) ∧
    ∀ fuel r, p.run? limit fuel w = some r →
      (∃ ip s, p.Visits limit w ip s ∧ p.step ip s = .ended r ∧
        (r.failure = none ↔ p.code[ip]? = some .halt)) ∨
      ∃ m, limit = some m ∧ r.failure = some (.stepLimit m) := by
  have hlinked := ofInstructions_wellLinked h
  refine ⟨fun ip s hvisits => hlinked.visits_lt hvisits, fun fuel r hrun => ?_⟩
  rcases Program.run?_eq_some hrun with ⟨ip, s, hvisits, hlast⟩ | hlimit
  · left
    refine ⟨ip, s, hvisits, hlast, ?_⟩
    rw [Program.failure_eq_none_iff hlast, Program.code_getElem? (hlinked.visits_lt hvisits)]
    simp
  · exact Or.inr hlimit

/-- The loop of `[]` is skipped: the jump leads behind the last bracket, to
the last index of the code. -/
theorem skipped_loop_stays_inside :
    Program.ofInstructions [.loopOpen 0, .loopClose 0] =
      .ok ⟨#[.loopOpen 1, .loopClose 0, .halt]⟩ ∧
    Program.Visits ⟨#[.loopOpen 1, .loopClose 0, .halt]⟩ none ({} : Sink) 2 (State.initial {}) ∧
    2 < (#[.loopOpen 1, .loopClose 0, .halt] : Array Instruction).size := by
  have hp : Program.ofInstructions [.loopOpen 0, .loopClose 0] =
      .ok ⟨#[.loopOpen 1, .loopClose 0, .halt]⟩ := rfl
  have hvisits : Program.Visits ⟨#[.loopOpen 1, .loopClose 0, .halt]⟩ none ({} : Sink) 2
      (State.initial {}) := ⟨1, by simp, rfl⟩
  exact ⟨hp, hvisits, (run_stays_inside hp none ({} : Sink)).1 2 _ hvisits⟩

end TapeLang
