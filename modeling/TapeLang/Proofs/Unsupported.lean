import TapeLang.CSource
import TapeLang.Proofs.Rejection
import TapeLang.Proofs.Sessions
import TapeLang.Proofs.Travel

/-!
# TapeLang.Proofs.Unsupported — reads in both backends

Nothing implements `read`. Writing C gives up at the first one in the code,
whether or not a run would come to it; a run gives up at the first one that
it comes to.

* `render_eq_error_iff` — what writing C gives up at;
* `Program.step_unsupported_iff` — one step gives up exactly at a `read`;
* `Program.run?_unsupported_iff` — so does a whole run;
* `backends_reject_reads` — the two compared, and what an error says of it.
-/

namespace TapeLang

/-- The first `read` of the code is at `j`. -/
structure Program.FirstRead (p : Program) (j : Nat) : Prop where
  read : p.code[j]? = some .read
  first : ∀ i, p.code[i]? = some .read → j ≤ i

/-! ## Writing C -/

theorem findIdx?_read_iff {p : Program} {j : Nat} :
    p.code.findIdx? (· = .read) = some j ↔ p.FirstRead j := by
  rw [Array.findIdx?_eq_some_iff_getElem]
  constructor
  · rintro ⟨hj, hread, hbefore⟩
    refine ⟨by simpa [hj] using hread, ?_⟩
    intro i hi
    obtain ⟨hlt, hi⟩ := Array.getElem?_eq_some_iff.mp hi
    by_contra hij
    exact hbefore i (by omega) (by simpa using hi)
  · rintro ⟨hread, hfirst⟩
    obtain ⟨hj, hread⟩ := Array.getElem?_eq_some_iff.mp hread
    refine ⟨hj, by simpa using hread, ?_⟩
    intro i hi hreadi
    have hle := hfirst i (by simpa [Nat.lt_trans hi hj] using hreadi)
    omega

theorem mem_read_iff {p : Program} : Instruction.read ∈ p.code ↔ ∃ j, p.FirstRead j := by
  constructor
  · intro hmem
    exact ⟨_, findIdx?_read_iff.mp (Array.findIdx?_eq_some_of_exists ⟨.read, hmem, by simp⟩)⟩
  · rintro ⟨j, hj⟩
    exact Array.mem_of_getElem? hj.read

/-- Writing C gives up exactly at the first `read`. -/
theorem render_eq_error_iff {p : Program} {e : CompileError} :
    CSource.render p = .error e ↔ ∃ j, p.FirstRead j ∧ e = .unsupported ⟨j⟩ := by
  simp only [← findIdx?_read_iff]
  unfold CSource.render
  cases p.code.findIdx? (· = .read) with
  | none => simp
  | some j => simp [eq_comm]

/-- A program has a C text exactly if it has no `read`. -/
theorem render_isOk_iff {p : Program} :
    (∃ text, CSource.render p = .ok text) ↔ .read ∉ p.code := by
  rw [mem_read_iff]
  constructor
  · rintro ⟨text, htext⟩ ⟨j, hj⟩
    rw [render_eq_error_iff.mpr ⟨j, hj, rfl⟩] at htext
    cases htext
  · intro hread
    cases hrender : CSource.render p with
    | ok text => exact ⟨text, rfl⟩
    | error e =>
        obtain ⟨j, hj, _⟩ := render_eq_error_iff.mp hrender
        exact absurd ⟨j, hj⟩ hread

/-! ## Running -/

namespace Program

variable {σ : Type} [Writer σ]

/-- A step gives up exactly at a `read`, and changes nothing. -/
theorem step_unsupported_iff {p : Program} {ip i : Nat} {s s' : State σ} :
    p.step ip s = .ended ⟨some (.unsupported ⟨i⟩), s'⟩ ↔
      p.fetch ip = .read ∧ ip = i ∧ s = s' := by
  constructor
  · intro h
    unfold step onCell at h
    cases hop : p.fetch ip <;> rw [hop] at h
    case read => simpa using h
    -- what else ends a step is a `halt`, a head off the tape or a writer that fails
    all_goals
      simp only at h
      repeat' split at h
    all_goals simp at h
  · rintro ⟨hop, rfl, rfl⟩
    simp [step, hop]

/-- A run gives up at `i` exactly if it comes there, its limit lets it go on,
and a `read` is there. -/
theorem run?_unsupported_iff {p : Program} {limit : Option Nat} {w : σ} {i : Nat} {s : State σ} :
    (∃ fuel, p.run? limit fuel w = some ⟨some (.unsupported ⟨i⟩), s⟩) ↔
      p.Visits limit w i s ∧ p.code[i]? = some .read := by
  constructor
  · rintro ⟨fuel, hrun⟩
    rcases run?_eq_some hrun with ⟨ip, s', hvisits, hlast⟩ | ⟨m, _, hlimit⟩
    · obtain ⟨hop, rfl, rfl⟩ := step_unsupported_iff.mp hlast
      exact ⟨hvisits, getElem?_of_fetch hop (by simp)⟩
    · cases hlimit
  · rintro ⟨⟨n, hn, hrun⟩, hread⟩
    -- the step that gives up is counted too, so the limit must leave room for it
    have hlast : p.step i s = .ended ⟨some (.unsupported ⟨i⟩), s⟩ :=
      step_unsupported_iff.mpr ⟨fetch_of_getElem? hread, rfl, rfl⟩
    refine ⟨n + 1, run?_of_last hrun hlast ?_⟩
    cases limit with
    | none => simp
    | some m => simpa using hn m rfl

end Program

/-! ## Errors -/

/-- Linking never blames a `read`. -/
theorem unsupported?_of_ofInstructions {ops : List Instruction} {e : CompileError}
    (h : Program.ofInstructions ops = .error e) : (Error.compile e).unsupported? = none := by
  have hblames := blames_of_fault (ofInstructions_eq_error_iff.mp h)
  cases e with
  | unopened i => rfl
  | unclosed i => rfl
  | unsupported read => exact absurd hblames id

theorem unsupported?_of_compile {optimize : Bool} {source : String} {e : CompileError}
    (h : compile optimize source = .error e) : (Error.compile e).unsupported? = none :=
  unsupported?_of_ofInstructions h

/-- Of the runtime errors, one kind blames a `read`. -/
theorem unsupported?_runtime_eq_none {e : RuntimeError} (h : ∀ i, e ≠ .unsupported ⟨i⟩) :
    (Error.runtime e).unsupported? = none := by
  cases e with
  | unsupported read => exact absurd rfl (h read.index)
  | offTape head ip => rfl
  | stepLimit limit => rfl
  | output cause => rfl

/-- **Both backends reject reads.** A program has a C text exactly if it has
no `read`, and otherwise writing C gives up at the first one. On any
interpreter, a run gives up at an index exactly if it comes there and finds a
`read`; then writing C gives up as well, there or before. So a program that
has a C text never gives up at a `read`. Either way the error tells the
index, and no other error of compiling, writing C or running does. -/
theorem backends_reject_reads (p : Program) :
    ((∃ e, CSource.render p = .error e) ↔ .read ∈ p.code) ∧
    (∀ e, CSource.render p = .error e → ∃ j, p.FirstRead j ∧ e = .unsupported ⟨j⟩ ∧
      (Error.compile e).unsupported? = some ⟨j⟩) ∧
    (∀ (σ : Type) [Writer σ] (vm : Interpreter σ) (i : Nat) (s : State σ),
      (∃ fuel, vm.run? fuel p = some ⟨some (.unsupported ⟨i⟩), s⟩) ↔
        p.Visits vm.limit vm.state.writer i s ∧ p.code[i]? = some .read) ∧
    (∀ (σ : Type) [Writer σ] (vm : Interpreter σ) (fuel : Nat) (r : Result σ) (e : RuntimeError),
      vm.run? fuel p = some r → r.failure = some e →
      (∀ i, e = .unsupported ⟨i⟩ →
        p.code[i]? = some .read ∧ (Error.runtime e).unsupported? = some ⟨i⟩ ∧
        ∃ j, j ≤ i ∧ CSource.render p = .error (.unsupported ⟨j⟩)) ∧
      ((∀ i, e ≠ .unsupported ⟨i⟩) → (Error.runtime e).unsupported? = none)) ∧
    (∀ text, CSource.render p = .ok text →
      ∀ (σ : Type) [Writer σ] (vm : Interpreter σ) (fuel : Nat) (r : Result σ) (i : Nat),
        vm.run? fuel p = some r → r.failure ≠ some (.unsupported ⟨i⟩)) ∧
    ∀ (optimize : Bool) (source : String) (e : CompileError),
      compile optimize source = .error e → (Error.compile e).unsupported? = none := by
  -- what a run meets is in the code, so writing C meets it or an earlier one
  have hmet : ∀ (σ : Type) [Writer σ] (vm : Interpreter σ) (fuel : Nat) (r : Result σ) (i : Nat),
      vm.run? fuel p = some r → r.failure = some (.unsupported ⟨i⟩) →
      p.code[i]? = some .read ∧ ∃ j, j ≤ i ∧ CSource.render p = .error (.unsupported ⟨j⟩) := by
    intro σ _ vm fuel r i hrun hfailure
    rw [Interpreter.run?_eq] at hrun
    obtain ⟨failure, s⟩ := r
    subst hfailure
    have hread := (Program.run?_unsupported_iff.mp ⟨fuel, hrun⟩).2
    obtain ⟨j, hj⟩ := mem_read_iff.mp (Array.mem_of_getElem? hread)
    exact ⟨hread, j, hj.first i hread, render_eq_error_iff.mpr ⟨j, hj, rfl⟩⟩
  refine ⟨?_, ?_, ?_, ?_, ?_, fun _ _ _ => unsupported?_of_compile⟩
  · rw [mem_read_iff]
    constructor
    · rintro ⟨e, he⟩
      obtain ⟨j, hj, _⟩ := render_eq_error_iff.mp he
      exact ⟨j, hj⟩
    · rintro ⟨j, hj⟩
      exact ⟨_, render_eq_error_iff.mpr ⟨j, hj, rfl⟩⟩
  · intro e he
    obtain ⟨j, hj, rfl⟩ := render_eq_error_iff.mp he
    exact ⟨j, hj, rfl, rfl⟩
  · intro σ _ vm i s
    simp only [Interpreter.run?_eq]
    exact Program.run?_unsupported_iff
  · intro σ _ vm fuel r e hrun hfailure
    refine ⟨?_, unsupported?_runtime_eq_none⟩
    rintro i rfl
    obtain ⟨hread, hearlier⟩ := hmet σ vm fuel r i hrun hfailure
    exact ⟨hread, rfl, hearlier⟩
  · intro text htext σ _ vm fuel r i hrun hfailure
    obtain ⟨_, j, _, herror⟩ := hmet σ vm fuel r i hrun hfailure
    rw [htext] at herror
    cases herror

/-- In `[,].,` the first `read` is skipped, so that writing C gives up at it
and a run at the second. -/
theorem skipped_read_is_rejected :
    CSource.render ⟨#[.loopOpen 2, .read, .loopClose 0, .print, .read, .halt]⟩ =
      .error (.unsupported ⟨1⟩) ∧
    ∃ s : State Sink, (Interpreter.fresh none ({} : Sink)).run? 9
        ⟨#[.loopOpen 2, .read, .loopClose 0, .print, .read, .halt]⟩ =
          some ⟨some (.unsupported ⟨4⟩), s⟩ ∧
      (Error.runtime (.unsupported ⟨4⟩)).unsupported? = some ⟨4⟩ ∧
      ∃ j, j ≤ 4 ∧ CSource.render ⟨#[.loopOpen 2, .read, .loopClose 0, .print, .read, .halt]⟩ =
        .error (.unsupported ⟨j⟩) := by
  let p : Program := ⟨#[.loopOpen 2, .read, .loopClose 0, .print, .read, .halt]⟩
  have hresult : ((Interpreter.fresh none ({} : Sink)).run? 9 p).map (·.failure) =
      some (some (.unsupported ⟨4⟩)) := by
    decide +kernel
  obtain ⟨⟨failure, s⟩, hrun, hfailure⟩ := Option.map_eq_some_iff.mp hresult
  subst hfailure
  obtain ⟨_, _, _, hruns, _⟩ := backends_reject_reads p
  obtain ⟨_, hindex, hearlier⟩ := (hruns Sink _ 9 _ _ hrun rfl).1 4 rfl
  exact ⟨by decide +kernel, s, hrun, hindex, hearlier⟩

end TapeLang
