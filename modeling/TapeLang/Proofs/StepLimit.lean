import Mathlib.Data.List.Infix
import TapeLang.Proofs.Printing

/-!
# TapeLang.Proofs.StepLimit — a limit cuts a run and does nothing else

A run counts at two sites: before each instruction, and inside a search
behind each stride. `Program.Counts` follows the run without a limit from
one count to the next, instruction by instruction and stride by stride.

* `Program.runFor_eq_running_iff` — the count number `n + 1` is made where
  `n` counted steps lead;
* `Program.endsWithin_iff` — a run ends without a further count exactly if
  that many counted steps end it;
* `Program.runFor_grows` — what a writer holds only grows along a run.

The main statement is `step_limit_cuts_run`: a limit of `m` leaves a run as
it is that counts no more than `m` times, and stops any other run at the
count number `m + 1`, in the state of that moment.
-/

namespace TapeLang

variable {σ : Type}

/-! ## Where a run counts -/

/-- A place at which a run counts. -/
inductive Site where
  /-- Before the instruction at `ip`. -/
  | instruction (ip : Nat)
  /-- Inside the search at `ip`, behind a stride. -/
  | stride (ip : Nat)
deriving DecidableEq, Repr

/-- The index of the instruction that is next, or that is under way. -/
def Site.ip : Site → Nat
  | .instruction ip => ip
  | .stride ip => ip

namespace Program

variable [Writer σ]

/-- `p.Counts w n site s`: the run of `p` that prints to `w` and has no limit
counts for the `n`-th time at `site`, and is in the state `s` then. -/
inductive Counts (p : Program) (w : σ) : Nat → Site → State σ → Prop where
  | start : p.Counts w 1 (.instruction 0) (State.initial w)
  /-- What is no search is executed as a whole before the next count. -/
  | executed {n ip ip' : Nat} {s s' : State σ} (hcount : p.Counts w n (.instruction ip) s)
      (hop : ∀ k, p.fetch ip ≠ .seek k) (hstep : p.step ip s = .running ip' s') :
      p.Counts w (n + 1) (.instruction ip') s'
  /-- A search that finds a zero leads to the next instruction. -/
  | found {n : Nat} {site : Site} {s : State σ} {k : Int32} (hcount : p.Counts w n site s)
      (hop : p.fetch site.ip = .seek k) (hcell : s.current? = some 0) :
      p.Counts w (n + 1) (.instruction (site.ip + 1)) s
  /-- A search that finds none makes a stride and counts behind it. -/
  | missed {n : Nat} {site : Site} {s : State σ} {k : Int32} {v : Int8}
      (hcount : p.Counts w n site s) (hop : p.fetch site.ip = .seek k)
      (hcell : s.current? = some v) (hv : v ≠ 0) :
      p.Counts w (n + 1) (.stride site.ip) (s.shift k)

/-! ## Counts are counted steps -/

/-- A run that has not ended after one more step had not ended before it. -/
theorem runFor_running_before {p : Program} {n ip ip' : Nat} {s s' : State σ}
    (h : p.runFor (n + 1) ip s = .running ip' s') :
    ∃ ip₁ s₁, p.runFor n ip s = .running ip₁ s₁ ∧ p.step ip₁ s₁ = .running ip' s' := by
  cases hrun : p.runFor n ip s with
  | running ip₁ s₁ =>
      rw [runFor_concat hrun] at h
      exact ⟨ip₁, s₁, rfl, h⟩
  | ended r =>
      rw [runFor_of_ended_of_le hrun (Nat.le_succ n)] at h
      cases h

theorem step_of_seek {p : Program} {ip : Nat} {k : Int32} {s : State σ}
    (hop : p.fetch ip = .seek k) :
    p.step ip s =
      match s.current? with
      | none => .ended ⟨some (.offTape s.head ip), s⟩
      | some v => if v = 0 then .running (ip + 1) s else .running ip (s.shift k) := by
  have htree : Tree.ofInstruction? (p.fetch ip) = some (.seek k.toInt64) := by
    rw [hop]
    rfl
  exact step_seek htree s

namespace Counts

variable {p : Program} {w : σ} {n : Nat} {site : Site} {s : State σ}

/-- The count number `n + 1` has `n` counted steps before it. -/
theorem reached (h : p.Counts w n site s) :
    ∃ m, n = m + 1 ∧ p.runFor m 0 (State.initial w) = .running site.ip s := by
  induction h with
  | start => exact ⟨0, rfl, rfl⟩
  | executed _ _ hstep ih =>
      -- each count but the first is one step later
      obtain ⟨m, rfl, hrun⟩ := ih
      exact ⟨m + 1, rfl, by rw [runFor_concat hrun]; exact hstep⟩
  | found _ hop hcell ih =>
      obtain ⟨m, rfl, hrun⟩ := ih
      exact ⟨m + 1, rfl, by rw [runFor_concat hrun, step_of_seek hop, hcell]; rfl⟩
  | missed _ hop hcell hv ih =>
      obtain ⟨m, rfl, hrun⟩ := ih
      refine ⟨m + 1, rfl, ?_⟩
      rw [runFor_concat hrun, step_of_seek hop, hcell]
      simp only [if_neg hv]
      rfl

/-- Behind a stride there is a search under way. -/
theorem seek_of_stride {ip : Nat} (h : p.Counts w n (.stride ip) s) :
    ∃ k, p.fetch ip = .seek k := by
  generalize hsite : Site.stride ip = site' at h
  cases h with
  | start => cases hsite
  | executed => cases hsite
  | found => cases hsite
  | missed _ hop =>
      cases hsite
      exact ⟨_, hop⟩

/-- A counted step leads from one count to the next. -/
theorem next {ip' : Nat} {s' : State σ} (h : p.Counts w n site s)
    (hstep : p.step site.ip s = .running ip' s') :
    ∃ site', site'.ip = ip' ∧ p.Counts w (n + 1) site' s' := by
  by_cases hseek : ∃ k, p.fetch site.ip = .seek k
  · -- at a search both sites go on alike
    obtain ⟨k, hop⟩ := hseek
    rw [step_of_seek hop] at hstep
    cases hcell : s.current? with
    | none =>
        rw [hcell] at hstep
        cases hstep
    | some v =>
        rw [hcell] at hstep
        by_cases hv : v = 0
        · subst hv
          cases hstep
          exact ⟨.instruction (site.ip + 1), rfl, found h hop hcell⟩
        · simp only [if_neg hv] at hstep
          cases hstep
          exact ⟨.stride site.ip, rfl, missed h hop hcell hv⟩
  · cases site with
    | instruction ip =>
        have hop : ∀ k, p.fetch ip ≠ .seek k := fun k hk => hseek ⟨k, hk⟩
        exact ⟨.instruction ip', rfl, executed h hop hstep⟩
    | stride ip => exact absurd h.seek_of_stride hseek

end Counts

/-- The count number `n + 1` is made where `n` counted steps lead. -/
theorem runFor_eq_running_iff {p : Program} {w : σ} {n ip : Nat} {s : State σ} :
    p.runFor n 0 (State.initial w) = .running ip s ↔
      ∃ site, site.ip = ip ∧ p.Counts w (n + 1) site s := by
  constructor
  · intro h
    induction n generalizing ip s with
    | zero =>
        cases h
        exact ⟨.instruction 0, rfl, Counts.start⟩
    | succ n ih =>
        obtain ⟨ip₁, s₁, hrun, hstep⟩ := runFor_running_before h
        obtain ⟨site, rfl, hcount⟩ := ih hrun
        exact hcount.next hstep
  · rintro ⟨site, rfl, hcount⟩
    obtain ⟨m, hm, hrun⟩ := hcount.reached
    cases hm
    exact hrun

/-! ## The run without a limit -/

/-- The run of `p` that prints to `w` and has no limit ends with the result
`r`, and counts at most `m` times before. -/
def EndsWithin (p : Program) (m : Nat) (w : σ) (r : Result σ) : Prop :=
  (∃ fuel, p.run? none fuel w = some r) ∧ ∀ site s, ¬ p.Counts w (m + 1) site s

theorem endsWithin_iff {p : Program} {m : Nat} {w : σ} {r : Result σ} :
    p.EndsWithin m w r ↔ p.runFor m 0 (State.initial w) = .ended r := by
  constructor
  · rintro ⟨⟨fuel, hfuel⟩, hcount⟩
    rw [run?_none_eq_some_iff] at hfuel
    cases hrun : p.runFor m 0 (State.initial w) with
    | running ip s =>
        obtain ⟨site, -, hsite⟩ := runFor_eq_running_iff.mp hrun
        exact absurd hsite (hcount site s)
    | ended r' =>
        -- `fuel` may be less than `m`; the longer run has both results
        have hlong := runFor_of_ended_of_le hrun (Nat.le_max_left m fuel)
        rw [runFor_of_ended_of_le hfuel (Nat.le_max_right m fuel)] at hlong
        exact hlong.symm
  · intro hrun
    refine ⟨⟨m, run?_none_eq_some_iff.mpr hrun⟩, ?_⟩
    intro site s hcount
    rw [runFor_eq_running_iff.mpr ⟨site, rfl, hcount⟩] at hrun
    cases hrun

end Program

/-! ## Writers that grow -/

/-- What `view` shows of a writer is never taken back: writing and flushing
can only add to it. -/
structure Writer.Grows [Writer σ] (view : σ → List UInt8) : Prop where
  write : ∀ w byte, view w <+: view (Writer.write w byte).2
  flush : ∀ w, view w <+: view (Writer.flush w).2

/-- The bytes of a sink are never taken back, whatever its policy. -/
theorem Sink.grows_bytes : Writer.Grows fun s : Sink => s.bytes.toList where
  write := by
    intro s byte
    have htake : s.bytes.toList <+: (s.take byte).bytes.toList := by
      simp [Sink.take]
    change s.bytes.toList <+: (s.write byte).2.bytes.toList
    unfold Sink.write
    split
    case h_1 n _ =>
      -- a full sink takes nothing, and any other takes the byte behind the rest
      by_cases hfull : n ≤ s.bytes.size
      · rw [if_pos hfull]
      · rw [if_neg hfull]
        exact htake
    case h_2 n _ =>
      by_cases hfull : n ≤ s.bytes.size
      · rw [if_pos hfull]
      · rw [if_neg hfull]
        exact htake
    all_goals exact htake
  flush := by
    intro s
    change s.bytes.toList <+: s.flush.2.bytes.toList
    unfold Sink.flush
    split
    case h_1 n => split <;> exact List.prefix_rfl
    all_goals exact List.prefix_rfl

namespace Program

variable [Writer σ] {view : σ → List UInt8}

theorem emit_grows (h : Writer.Grows view) (w : σ) (byte : UInt8) :
    view w <+: view (Writer.emit w byte).2 := by
  have hwrite := h.write w byte
  unfold Writer.emit Writer.put
  rcases hreceipt : Writer.write w byte with ⟨receipt, w'⟩
  rw [hreceipt] at hwrite
  cases receipt with
  | taken => exact hwrite.trans (h.flush w')
  | declined => exact hwrite
  | failed cause => exact hwrite

theorem step_grows (h : Writer.Grows view) (p : Program) (ip : Nat) (s : State σ) :
    view s.writer <+: view (p.step ip s).state.writer := by
  cases hprint : p.printed? ip s with
  | none => rw [step_writer hprint]
  | some byte =>
      have hemit := emit_grows h s.writer byte
      rw [step_of_printed hprint]
      rcases hw : Writer.emit s.writer byte with ⟨cause, w⟩
      rw [hw] at hemit
      cases cause <;> exact hemit

/-- What a writer holds only grows along a run. -/
theorem runFor_grows (h : Writer.Grows view) (p : Program) (n ip : Nat) (s : State σ) :
    view s.writer <+: view (p.runFor n ip s).state.writer := by
  induction n generalizing ip s with
  | zero => exact List.prefix_rfl
  | succ n ih =>
      have hfirst := step_grows h p ip s
      cases hstep : p.step ip s with
      | running ip₁ s₁ =>
          rw [hstep] at hfirst
          rw [runFor_succ_of_running hstep]
          exact hfirst.trans (ih ip₁ s₁)
      | ended r =>
          rw [hstep] at hfirst
          rw [runFor_succ_of_ended hstep]
          exact hfirst

theorem runFor_grows_of_le (h : Writer.Grows view) (p : Program) {m m' : Nat} (hm : m ≤ m')
    (ip : Nat) (s : State σ) :
    view (p.runFor m ip s).state.writer <+: view (p.runFor m' ip s).state.writer := by
  cases hrun : p.runFor m ip s with
  | running ip₁ s₁ =>
      obtain ⟨d, rfl⟩ := Nat.exists_eq_add_of_le hm
      rw [runFor_add hrun]
      exact runFor_grows h p d ip₁ s₁
  | ended r => rw [runFor_of_ended_of_le hrun hm]

/-! ## Limited runs -/

theorem run?_some_of_running {p : Program} {m ip : Nat} {w : σ} {s : State σ}
    (h : p.runFor m 0 (State.initial w) = .running ip s) (fuel : Nat) :
    p.run? (some m) fuel w = some ⟨some (.stepLimit m), s⟩ := by
  rw [run?_eq_result?, Option.getD_some, h]
  rfl

theorem run?_some_of_ended {p : Program} {m : Nat} {w : σ} {r : Result σ}
    (h : p.runFor m 0 (State.initial w) = .ended r) (fuel : Nat) :
    p.run? (some m) fuel w = some r := by
  rw [run?_eq_result?, Option.getD_some, h]
  rfl

/-- A larger limit keeps every result but that the limit was exceeded. -/
theorem run?_some_of_le {p : Program} {m m' fuel : Nat} {w : σ} {r : Result σ} (hm : m ≤ m')
    (h : p.run? (some m) fuel w = some r) (hr : r.failure ≠ some (.stepLimit m)) :
    p.run? (some m') fuel w = some r := by
  cases hrun : p.runFor m 0 (State.initial w) with
  | running ip s =>
      rw [run?_some_of_running hrun] at h
      cases h
      exact absurd rfl hr
  | ended r' =>
      rw [run?_some_of_ended hrun] at h
      cases h
      exact run?_some_of_ended (runFor_of_ended_of_le hrun hm) fuel

/-- A larger limit takes nothing back that has been printed. -/
theorem run?_some_grows {p : Program} {m m' fuel : Nat} {w : σ} {r r' : Result σ} (hm : m ≤ m')
    (h : p.run? (some m) fuel w = some r) (h' : p.run? (some m') fuel w = some r')
    (hview : Writer.Grows view) : view r.state.writer <+: view r'.state.writer := by
  rw [run?_eq_result?] at h h'
  rw [Progress.state_of_result? h, Progress.state_of_result? h']
  exact runFor_grows_of_le hview p hm 0 (State.initial w)

end Program

/-- **A limit cuts a run.** With a limit of `m` a run always has a result. If
the run without a limit ends and counts at most `m` times, that is its
result. Otherwise there is a count number `m + 1`, and the result is that
the limit has been exceeded, in the state of that count. So a larger limit
keeps every other result, and never takes back what has been printed. -/
theorem step_limit_cuts_run [Writer σ] (p : Program) (w : σ) (m fuel : Nat) :
    (∃ r, p.run? (some m) fuel w = some r) ∧
    (∀ r, p.EndsWithin m w r → p.run? (some m) fuel w = some r) ∧
    ((¬ ∃ r, p.EndsWithin m w r) → ∃ site s, p.Counts w (m + 1) site s) ∧
    (∀ site s, p.Counts w (m + 1) site s →
      p.run? (some m) fuel w = some ⟨some (.stepLimit m), s⟩) ∧
    ∀ m', m ≤ m' → ∀ r, p.run? (some m) fuel w = some r →
      (r.failure ≠ some (.stepLimit m) → p.run? (some m') fuel w = some r) ∧
      ∀ view : σ → List UInt8, Writer.Grows view → ∀ r', p.run? (some m') fuel w = some r' →
        view r.state.writer <+: view r'.state.writer := by
  refine ⟨⟨p.runWithin m w, rfl⟩, ?_, ?_, ?_, ?_⟩
  · intro r hends
    exact Program.run?_some_of_ended (Program.endsWithin_iff.mp hends) fuel
  · -- a run that has not ended in `m` steps is on its way, about to be counted again
    intro hends
    cases hrun : p.runFor m 0 (State.initial w) with
    | running ip s =>
        obtain ⟨site, -, hcount⟩ := Program.runFor_eq_running_iff.mp hrun
        exact ⟨site, s, hcount⟩
    | ended r => exact absurd ⟨r, Program.endsWithin_iff.mpr hrun⟩ hends
  · intro site s hcount
    have hrun := Program.runFor_eq_running_iff.mpr ⟨site, rfl, hcount⟩
    exact Program.run?_some_of_running hrun fuel
  · intro m' hm r hr
    refine ⟨Program.run?_some_of_le hm hr, ?_⟩
    intro view hview r' hr'
    exact Program.run?_some_grows hm hr hr' hview

/-- The program of `+[>]` counts before each of its instructions, and once
more behind the one stride of its search. A limit of 2 cuts it there, with
the head moved. It needs a limit of 4. -/
theorem search_is_cut_behind_stride :
    ∃ s t : State Sink,
      Program.Counts ⟨#[.add 1, .seek 1, .halt]⟩ {} 3 (.stride 1) s ∧ s.head = 1 ∧
      Program.run? ⟨#[.add 1, .seek 1, .halt]⟩ (some 2) 0 {} =
        some ⟨some (.stepLimit 2), s⟩ ∧
      Program.EndsWithin ⟨#[.add 1, .seek 1, .halt]⟩ 4 {} ⟨none, t⟩ ∧
      Program.run? ⟨#[.add 1, .seek 1, .halt]⟩ (some 4) 0 {} = some ⟨none, t⟩ ∧
      Program.run? ⟨#[.add 1, .seek 1, .halt]⟩ (some 9) 0 {} = some ⟨none, t⟩ ∧
      s.writer.bytes.toList <+: t.writer.bytes.toList := by
  let p : Program := ⟨#[.add 1, .seek 1, .halt]⟩
  let s : State Sink := (State.initial {}).put ⟨0, by decide⟩
    ((State.initial ({} : Sink)).tape.get ⟨0, by decide⟩ + (1 : Int32).toInt8)
  -- the add is the first count, the look at cell 0 the second
  have hcell : s.current? = some 1 := by decide +kernel
  have hcount : p.Counts {} 3 (.stride 1) (s.shift 1) :=
    .missed (.executed .start (by simp [p, Program.fetch]) rfl) rfl hcell (by decide)
  have hends : p.EndsWithin 4 ({} : Sink) ⟨none, _⟩ := Program.endsWithin_iff.mpr rfl
  have hcut := (step_limit_cuts_run p ({} : Sink) 2 0).2.2.2.1 _ _ hcount
  have hdone := (step_limit_cuts_run p ({} : Sink) 4 0).2.1 _ hends
  have hmore := (step_limit_cuts_run p ({} : Sink) 4 0).2.2.2.2 9 (by decide) _ hdone
  have hlonger := (step_limit_cuts_run p ({} : Sink) 2 0).2.2.2.2 4 (by decide) _ hcut
  exact ⟨_, _, hcount, rfl, hcut, hends, hdone, hmore.1 (by simp),
    hlonger.2 _ Sink.grows_bytes _ hdone⟩

end TapeLang
