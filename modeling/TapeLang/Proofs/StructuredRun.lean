import TapeLang.Proofs.BigStep
import TapeLang.Proofs.Linking

/-!
# TapeLang.Proofs.StructuredRun — jumps are loops

A run of linked code, which goes from index to index, does what the forest
of loops says, step by step and in both directions.

* `Runs.shown` — from a run of a forest to a run of the code it is laid
  out in, with the same number of counted steps;
* `Laid.haltsThrough` — from a run of the code that ends back to the
  forest;
* `balanced_program_follows_forest` — for a whole program: it ends as its
  forest does, and goes on for ever exactly if its forest does.

The step that repeats a loop does not go back to the opening bracket but
behind it. It has no need to: the test at the closing bracket leads where
the test at the opening one would lead (`Program.halts_close_iff_open`).
-/

namespace TapeLang

variable {σ : Type} [Writer σ]

/-! ## One step -/

/-- No instruction is a whole loop. -/
theorem Tree.ofInstruction?_ne_loop (op : Instruction) (body : List Tree) :
    Tree.ofInstruction? op ≠ some (.loop body) := by
  cases op <;> simp [Tree.ofInstruction?]

namespace Program

theorem step_leaf {p : Program} {ip : Nat} {op : Leaf}
    (hop : Tree.ofInstruction? (p.fetch ip) = some (.leaf op)) (s : State σ) :
    p.step ip s =
      match op.act s with
      | .next s' => .running (ip + 1) s'
      | .stop e s' => .ended ⟨e.failure ip, s'⟩ := by
  unfold step
  cases hfetch : p.fetch ip <;> rw [hfetch] at hop <;> simp [Tree.ofInstruction?] at hop
  -- on a cell only printing can go both ways
  case print =>
    subst hop
    simp only [Leaf.act, onCell, State.onCell]
    cases Tape.cell? s.head with
    | none => rfl
    | some i =>
        rcases hemit : Writer.emit s.writer (s.tape.get i).toUInt8 with ⟨cause, w⟩
        cases cause <;> simp [hemit, Ending.failure]
  all_goals
    subst hop
    simp only [Leaf.act, onCell, State.onCell, State.advance, State.shift, Ending.failure]
  all_goals cases Tape.cell? s.head <;> rfl

theorem step_seek {p : Program} {ip : Nat} {k : Int64}
    (hop : Tree.ofInstruction? (p.fetch ip) = some (.seek k)) (s : State σ) :
    p.step ip s =
      match s.current? with
      | none => .ended ⟨(Ending.offTape s.head).failure ip, s⟩
      | some v => if v = 0 then .running (ip + 1) s else .running ip (s.advance k) := by
  unfold step
  cases hfetch : p.fetch ip <;> rw [hfetch] at hop <;> simp [Tree.ofInstruction?] at hop
  subst hop
  simp only [onCell, State.current?]
  cases Tape.cell? s.head <;> rfl

theorem step_open {p : Program} {i j : Nat} (hopen : p.fetch i = .loopOpen j) (s : State σ) :
    p.step i s =
      match s.current? with
      | none => .ended ⟨(Ending.offTape s.head).failure i, s⟩
      | some v => .running (if v = 0 then j + 1 else i + 1) s := by
  simp only [step, hopen, onCell, State.current?]
  cases Tape.cell? s.head <;> rfl

theorem step_close {p : Program} {i j : Nat} (hclose : p.fetch j = .loopClose i)
    (s : State σ) :
    p.step j s =
      match s.current? with
      | none => .ended ⟨(Ending.offTape s.head).failure j, s⟩
      | some v => .running (if v = 0 then j + 1 else i + 1) s := by
  simp only [step, hclose, onCell, State.current?]
  cases Tape.cell? s.head <;> rfl

/-- A step that ends a run ends it in one of the ways that `Ending` lists:
the step limit is not the business of a step. -/
theorem step_ended {p : Program} {ip : Nat} {s : State σ} {r : Result σ}
    (h : p.step ip s = .ended r) : ∃ e, r.ending? = some e := by
  cases hop : Tree.ofInstruction? (p.fetch ip) with
  | some tree =>
      cases tree with
      | leaf op =>
          rw [step_leaf hop] at h
          cases hact : op.act s <;> rw [hact] at h <;> cases h
          exact ⟨_, Ending.ending?_failure _ _ _⟩
      | seek k =>
          rw [step_seek hop] at h
          cases hcell : s.current? <;> rw [hcell] at h <;> simp only at h
          · cases h
            exact ⟨_, Ending.ending?_failure _ _ _⟩
          · -- a search over a cell goes on
            split at h <;> cases h
      | loop body => exact absurd hop (Tree.ofInstruction?_ne_loop _ _)
  | none =>
      cases hfetch : p.fetch ip <;> rw [hfetch] at hop <;> simp [Tree.ofInstruction?] at hop
      · -- a bracket fails only off the tape
        rw [step_open hfetch] at h
        cases hcell : s.current? <;> rw [hcell] at h <;> cases h
        exact ⟨_, Ending.ending?_failure _ _ _⟩
      · rw [step_close hfetch] at h
        cases hcell : s.current? <;> rw [hcell] at h <;> cases h
        exact ⟨_, Ending.ending?_failure _ _ _⟩

/-! ## Several steps -/

theorem runFor_succ_of_running {p : Program} {ip ip' : Nat} {s s' : State σ}
    (h : p.step ip s = .running ip' s') (n : Nat) :
    p.runFor (n + 1) ip s = p.runFor n ip' s' := by
  simp [runFor, h]

theorem runFor_succ_of_ended {p : Program} {ip : Nat} {s : State σ} {r : Result σ}
    (h : p.step ip s = .ended r) (n : Nat) : p.runFor (n + 1) ip s = .ended r := by
  simp [runFor, h]

/-- A run that has ended does not change with more steps. -/
theorem runFor_of_ended_of_le {p : Program} {n m ip : Nat} {s : State σ} {r : Result σ}
    (h : p.runFor n ip s = .ended r) (hnm : n ≤ m) : p.runFor m ip s = .ended r := by
  induction n generalizing m ip s with
  | zero => cases h
  | succ n ih =>
      rcases Nat.exists_eq_add_of_le' hnm with ⟨d, rfl⟩
      rw [← Nat.add_assoc]
      cases hstep : p.step ip s with
      | running ip₁ s₁ =>
          rw [runFor_succ_of_running hstep] at h ⊢
          exact ih h (Nat.le_add_left n d)
      | ended r₁ =>
          rw [runFor_succ_of_ended hstep] at h ⊢
          exact h

theorem runFor_ended {p : Program} {n ip : Nat} {s : State σ} {r : Result σ}
    (h : p.runFor n ip s = .ended r) : ∃ e, r.ending? = some e := by
  induction n generalizing ip s with
  | zero => cases h
  | succ n ih =>
      cases hstep : p.step ip s with
      | running ip₁ s₁ =>
          rw [runFor_succ_of_running hstep] at h
          exact ih h
      | ended r₁ =>
          rw [runFor_succ_of_ended hstep] at h
          cases h
          exact step_ended hstep

/-- The run from `ip` in `s` ends within `n` steps with the ending `e`, in
the state `t`. -/
def Halts (p : Program) (n ip : Nat) (s : State σ) (e : Ending) (t : State σ) : Prop :=
  ∃ r, p.runFor n ip s = .ended r ∧ r.ending? = some e ∧ r.state = t

theorem halts_succ_of_running {p : Program} {ip ip' : Nat} {s s' : State σ}
    (h : p.step ip s = .running ip' s') (n : Nat) (e : Ending) (t : State σ) :
    p.Halts (n + 1) ip s e t ↔ p.Halts n ip' s' e t := by
  simp only [Halts, runFor_succ_of_running h]

theorem halts_succ_of_ended {p : Program} {ip : Nat} {s s' : State σ} {e e' : Ending} {k : Nat}
    (h : p.step ip s = .ended ⟨e'.failure k, s'⟩) (n : Nat) (t : State σ) :
    p.Halts (n + 1) ip s e t ↔ e' = e ∧ s' = t := by
  simp only [Halts, runFor_succ_of_ended h, Progress.ended.injEq]
  constructor
  · rintro ⟨r, rfl, he, ht⟩
    rw [Ending.ending?_failure] at he
    exact ⟨Option.some.inj he, ht⟩
  · rintro ⟨rfl, rfl⟩
    exact ⟨_, rfl, Ending.ending?_failure _ _ _, rfl⟩

theorem not_halts_zero {p : Program} {ip : Nat} {s t : State σ} {e : Ending} :
    ¬ p.Halts 0 ip s e t := by
  rintro ⟨r, hrun, _⟩
  cases hrun

/-- A run that ends has the same ending with more steps. -/
theorem Halts.mono {p : Program} {n m ip : Nat} {s t : State σ} {e : Ending}
    (h : p.Halts n ip s e t) (hnm : n ≤ m) : p.Halts m ip s e t := by
  rcases h with ⟨r, hrun, he, ht⟩
  exact ⟨r, runFor_of_ended_of_le hrun hnm, he, ht⟩

/-- Behind the body of a loop it makes no difference whether the run goes
on at the closing bracket or at the opening one. -/
theorem halts_close_iff_open {p : Program} {i j : Nat} (hopen : p.fetch i = .loopOpen j)
    (hclose : p.fetch j = .loopClose i) (n : Nat) (s : State σ) (e : Ending) (t : State σ) :
    p.Halts n j s e t ↔ p.Halts n i s e t := by
  cases n with
  | zero => exact ⟨fun h => absurd h not_halts_zero, fun h => absurd h not_halts_zero⟩
  | succ n =>
      have hi := step_open hopen s
      have hj := step_close hclose s
      -- on zero both go on behind the loop, and otherwise at its body
      cases hcell : s.current? with
      | none =>
          rw [hcell] at hi hj
          rw [halts_succ_of_ended hi, halts_succ_of_ended hj]
      | some v =>
          rw [hcell] at hi hj
          rw [halts_succ_of_running hi, halts_succ_of_running hj]

/-! ## From the forest to the code -/

/-- What the code between `ip` and `j` has to do, if it is to have the
outcome of a forest after `n` steps: to end the run, or to leave it to the
code behind `j`. -/
def Shows (p : Program) (n ip : Nat) (s : State σ) (j : Nat) : Outcome σ → Prop
  | .next s' => ∀ m e t, p.Halts m j s' e t → p.Halts (n + m) ip s e t
  | .stop e t => p.Halts n ip s e t

theorem Shows.of_running {p : Program} {n ip ip' j : Nat} {s s' : State σ} {o : Outcome σ}
    (hstep : p.step ip s = .running ip' s') (h : p.Shows n ip' s' j o) :
    p.Shows (n + 1) ip s j o := by
  cases o with
  | next s'' =>
      intro m e t ht
      rw [Nat.add_right_comm, halts_succ_of_running hstep]
      exact h m e t ht
  | stop e t => exact (halts_succ_of_running hstep n e t).mpr h

theorem Shows.append {p : Program} {n m ip j k : Nat} {s s' : State σ} {o : Outcome σ}
    (h : p.Shows n ip s j (.next s')) (h' : p.Shows m j s' k o) :
    p.Shows (n + m) ip s k o := by
  cases o with
  | next s'' =>
      intro l e t ht
      rw [Nat.add_assoc]
      exact h _ e t (h' l e t ht)
  | stop e t => exact h m e t h'

theorem Shows.close_of_open {p : Program} {n i j k : Nat} {s : State σ} {o : Outcome σ}
    (hopen : p.fetch i = .loopOpen j) (hclose : p.fetch j = .loopClose i)
    (h : p.Shows n i s k o) : p.Shows n j s k o := by
  cases o with
  | next s'' =>
      intro m e t ht
      exact (halts_close_iff_open hopen hclose _ s e t).mpr (h m e t ht)
  | stop e t => exact (halts_close_iff_open hopen hclose n s e t).mpr h

end Program

/-- The code of a forest has the outcome of the forest, after the same
number of counted steps. -/
theorem Runs.shown {trees : List Tree} {s : State σ} {n : Nat} {o : Outcome σ}
    (h : Runs trees s n o) {p : Program} {i j : Nat} (hlaid : Laid p i trees j) :
    p.Shows n i s j o := by
  induction h generalizing i j with
  | nil s =>
      cases hlaid
      intro m e t ht
      simpa using ht
  | @leafNext op rest s s' n o hact _ ih =>
      cases hlaid with
      | tree hop hrest =>
          have hstep := Program.step_leaf hop s
          rw [hact] at hstep
          exact Program.Shows.of_running hstep (ih hrest)
  | @leafStop op rest s s' e hact =>
      cases hlaid with
      | tree hop hrest =>
          have hstep := Program.step_leaf hop s
          rw [hact] at hstep
          exact (Program.halts_succ_of_ended hstep 0 _).mpr ⟨rfl, rfl⟩
  | @seekOff k rest s hcell =>
      cases hlaid with
      | tree hop hrest =>
          have hstep := Program.step_seek hop s
          rw [hcell] at hstep
          exact (Program.halts_succ_of_ended hstep 0 _).mpr ⟨rfl, rfl⟩
  | @seekDone k rest s n o hcell _ ih =>
      cases hlaid with
      | tree hop hrest =>
          have hstep := Program.step_seek hop s
          rw [hcell] at hstep
          exact Program.Shows.of_running hstep (ih hrest)
  | @seekMore k rest s v n o hcell hv _ ih =>
      cases hlaid with
      | tree hop hrest =>
          have hstep := Program.step_seek hop s
          rw [hcell] at hstep
          simp only [if_neg hv] at hstep
          -- the search goes on at its own index
          exact Program.Shows.of_running hstep (ih (Laid.tree hop hrest))
  | @loopOff body rest s hcell =>
      cases hlaid with
      | tree hop _ => exact absurd hop (Tree.ofInstruction?_ne_loop _ _)
      | loop hopen _ _ _ =>
          have hstep := Program.step_open hopen s
          rw [hcell] at hstep
          exact (Program.halts_succ_of_ended hstep 0 _).mpr ⟨rfl, rfl⟩
  | @loopDone body rest s n o hcell _ ih =>
      cases hlaid with
      | tree hop _ => exact absurd hop (Tree.ofInstruction?_ne_loop _ _)
      | loop hopen _ _ hrest =>
          have hstep := Program.step_open hopen s
          rw [hcell] at hstep
          exact Program.Shows.of_running hstep (ih hrest)
  | @loopMore body rest s s' v n m o hcell hv _ _ ihbody ihagain =>
      cases hlaid with
      | tree hop _ => exact absurd hop (Tree.ofInstruction?_ne_loop _ _)
      | loop hopen hbody hclose hrest =>
          have hstep := Program.step_open hopen s
          rw [hcell] at hstep
          simp only [if_neg hv] at hstep
          -- behind the body the code is at the closing bracket, the forest at the loop
          have hagain := ihagain (Laid.loop hopen hbody hclose hrest)
          have hround := (ihbody hbody).append (hagain.close_of_open hopen hclose)
          exact Program.Shows.of_running hstep hround
  | @loopStop body rest s s' v n e hcell hv _ ihbody =>
      cases hlaid with
      | tree hop _ => exact absurd hop (Tree.ofInstruction?_ne_loop _ _)
      | loop hopen hbody _ _ =>
          have hstep := Program.step_open hopen s
          rw [hcell] at hstep
          simp only [if_neg hv] at hstep
          exact (Program.halts_succ_of_running hstep _ _ _).mpr (ihbody hbody)

/-! ## From the code to the forest -/

/-- A run that ends within `n` steps goes through the forest `trees`: the
forest ends it, or the forest comes to its end and the code at `j` ends
it. -/
def Program.HaltsThrough (p : Program) (trees : List Tree) (n : Nat) (s : State σ) (j : Nat)
    (e : Ending) (t : State σ) : Prop :=
  (∃ m, m ≤ n ∧ Runs trees s m (.stop e t)) ∨
    ∃ m n' s', n = m + n' ∧ Runs trees s m (.next s') ∧ p.Halts n' j s' e t

/-- Where `k` steps lead from the forest `xs` to the forest `ys`, a run goes
through `xs` if it goes through `ys` from there on. -/
theorem Program.HaltsThrough.prepend {p : Program} {xs ys : List Tree} {k n j : Nat}
    {s s₁ t : State σ} {e : Ending} (h : p.HaltsThrough ys n s₁ j e t)
    (hlead : ∀ m o, Runs ys s₁ m o → Runs xs s (m + k) o) :
    p.HaltsThrough xs (n + k) s j e t := by
  rcases h with ⟨m, hm, hstop⟩ | ⟨m, n', s', rfl, hnext, hj⟩
  · exact Or.inl ⟨m + k, by omega, hlead m _ hstop⟩
  · exact Or.inr ⟨m + k, n', s', by omega, hlead m _ hnext, hj⟩

/-- If the run of the code of a forest ends, it goes through the forest. The
induction is on the number of steps, since a loop is run again after its
body. -/
theorem Laid.haltsThrough {p : Program} {n i j : Nat} {trees : List Tree} {s t : State σ}
    {e : Ending} (hlaid : Laid p i trees j) (h : p.Halts n i s e t) :
    p.HaltsThrough trees n s j e t := by
  induction n using Nat.strongRecOn generalizing i j trees s with
  | ind n ih =>
    cases n with
    | zero => exact absurd h Program.not_halts_zero
    | succ n =>
      cases hlaid with
      | nil => exact Or.inr ⟨0, n + 1, s, by omega, Runs.nil s, h⟩
      | @tree _ _ node rest hop hrest =>
        cases node with
        | leaf op =>
          have hstep := Program.step_leaf hop s
          cases hact : op.act s with
          | next s₁ =>
              rw [hact] at hstep
              rw [Program.halts_succ_of_running hstep] at h
              exact (ih n (by omega) hrest h).prepend (fun _ _ => Runs.leafNext hact)
          | stop e₁ s₁ =>
              rw [hact] at hstep
              rw [Program.halts_succ_of_ended hstep] at h
              rcases h with ⟨rfl, rfl⟩
              exact Or.inl ⟨1, by omega, Runs.leafStop hact⟩
        | seek k =>
          have hstep := Program.step_seek hop s
          cases hcell : s.current? with
          | none =>
              rw [hcell] at hstep
              rw [Program.halts_succ_of_ended hstep] at h
              rcases h with ⟨rfl, rfl⟩
              exact Or.inl ⟨1, by omega, Runs.seekOff hcell⟩
          | some v =>
              rw [hcell] at hstep
              by_cases hv : v = 0
              · subst hv
                simp only [if_true] at hstep
                rw [Program.halts_succ_of_running hstep] at h
                exact (ih n (by omega) hrest h).prepend (fun _ _ => Runs.seekDone hcell)
              · simp only [if_neg hv] at hstep
                rw [Program.halts_succ_of_running hstep] at h
                have hagain := ih n (by omega) (Laid.tree hop hrest) h
                exact hagain.prepend (fun _ _ => Runs.seekMore hcell hv)
        | loop body => exact absurd hop (Tree.ofInstruction?_ne_loop _ _)
      | loop hopen hbody hclose hrest =>
        have hstep := Program.step_open hopen s
        cases hcell : s.current? with
        | none =>
            rw [hcell] at hstep
            rw [Program.halts_succ_of_ended hstep] at h
            rcases h with ⟨rfl, rfl⟩
            exact Or.inl ⟨1, by omega, Runs.loopOff hcell⟩
        | some v =>
            rw [hcell] at hstep
            by_cases hv : v = 0
            · subst hv
              simp only [if_true] at hstep
              rw [Program.halts_succ_of_running hstep] at h
              exact (ih n (by omega) hrest h).prepend (fun _ _ => Runs.loopDone hcell)
            · simp only [if_neg hv] at hstep
              rw [Program.halts_succ_of_running hstep] at h
              rcases ih n (by omega) hbody h with ⟨m, hm, hround⟩ | ⟨m, n', s', rfl, hround, hj⟩
              · exact Or.inl ⟨m + 1, by omega, Runs.loopStop hcell hv hround⟩
              · -- one round is over: the rest is a shorter run from the opening bracket
                have hagain := (Program.halts_close_iff_open hopen hclose n' s' e t).mp hj
                have hrounds := ih n' (by omega) (Laid.loop hopen hbody hclose hrest) hagain
                have hsteps : m + n' + 1 = n' + (m + 1) := by omega
                rw [hsteps]
                apply hrounds.prepend
                intro m' o hruns
                exact (Runs.loopMore hcell hv hround hruns).steps_eq (by omega)

/-! ## Whole programs -/

/-- The state that an outcome leaves. -/
def Outcome.state : Outcome σ → State σ
  | .next s => s
  | .stop _ s => s

/-- How a run ends that has nothing behind its forest. -/
def Outcome.ending : Outcome σ → Ending
  | .next _ => .done
  | .stop e _ => e

/-- A forest with a `halt` behind it always ends the run. -/
theorem runs_halt_iff {trees : List Tree} {s t : State σ} {n : Nat} {e : Ending} :
    Runs (trees ++ [.leaf .halt]) s n (.stop e t) ↔
      Runs trees s n (.stop e t) ∨ (e = .done ∧ ∃ m, n = m + 1 ∧ Runs trees s m (.next t)) := by
  constructor
  · intro h
    rcases h.split with ⟨_, _, _, hstop⟩ | ⟨k, m, s', rfl, hnext, hhalt⟩
    · exact Or.inl hstop
    · -- the trees came to their end, and the `halt` takes one step more
      cases hhalt with
      | leafNext hact _ => cases hact
      | leafStop hact =>
          cases hact
          exact Or.inr ⟨rfl, k, rfl, hnext⟩
  · rintro (hstop | ⟨rfl, m, rfl, hnext⟩)
    · exact hstop.append_stop _
    · exact hnext.append (Runs.leafStop rfl)

theorem not_runs_halt_next {trees : List Tree} {s t : State σ} {n : Nat} :
    ¬ Runs (trees ++ [.leaf .halt]) s n (.next t) := by
  intro h
  rcases h.split with ⟨_, _, hout, _⟩ | ⟨k, m, s', _, _, hhalt⟩
  · cases hout
  · cases hhalt with
    | leafNext hact _ => cases hact

/-- A program ends within `n` steps exactly if its forest, with a `halt`
behind it, ends after at most `n` steps. -/
theorem halts_iff_runs {ops : List Instruction} {trees : List Tree} {p : Program}
    (hnests : Nests ops trees) (hp : Program.ofInstructions ops = .ok p) {n : Nat}
    {s t : State σ} {e : Ending} :
    p.Halts n 0 s e t ↔ ∃ m, m ≤ n ∧ Runs (trees ++ [.leaf .halt]) s m (.stop e t) := by
  rcases hnests.linked with ⟨p', hp', hlaid, _⟩
  rw [hp] at hp'
  cases hp'
  constructor
  · intro h
    rcases hlaid.haltsThrough h with hstop | ⟨_, _, _, _, hnext, _⟩
    · exact hstop
    · exact absurd hnext not_runs_halt_next
  · rintro ⟨m, hm, hruns⟩
    exact Program.Halts.mono (hruns.shown hlaid) hm

namespace Program

/-- The run of `p` that prints to `w` and has no step limit ends with the
ending `e` in the state `s`. -/
def Ends (p : Program) (w : σ) (e : Ending) (s : State σ) : Prop :=
  ∃ fuel r, p.run? none fuel w = some r ∧ r.ending? = some e ∧ r.state = s

theorem run?_none_eq_some_iff {p : Program} {fuel : Nat} {w : σ} {r : Result σ} :
    p.run? none fuel w = some r ↔ p.runFor fuel 0 (State.initial w) = .ended r := by
  simp only [run?]
  cases p.runFor fuel 0 (State.initial w) <;> simp

theorem ends_iff_halts {p : Program} {w : σ} {e : Ending} {s : State σ} :
    p.Ends w e s ↔ ∃ n, p.Halts n 0 (State.initial w) e s := by
  simp only [Ends, Halts, run?_none_eq_some_iff]

/-- A run ends in one way at most. -/
theorem Ends.det {p : Program} {w : σ} {e e' : Ending} {s s' : State σ} (h : p.Ends w e s)
    (h' : p.Ends w e' s') : e = e' ∧ s = s' := by
  rcases ends_iff_halts.mp h with ⟨n, hhalts⟩
  rcases ends_iff_halts.mp h' with ⟨n', hhalts'⟩
  rcases hhalts.mono (Nat.le_max_left n n') with ⟨r, hrun, he, rfl⟩
  rcases hhalts'.mono (Nat.le_max_right n n') with ⟨r', hrun', he', rfl⟩
  rw [hrun] at hrun'
  cases hrun'
  rw [he] at he'
  exact ⟨Option.some.inj he', rfl⟩

/-- A program ends as its forest does with a `halt` behind it. -/
theorem ends_iff_runs {ops : List Instruction} {trees : List Tree} {p : Program}
    (hnests : Nests ops trees) (hp : Program.ofInstructions ops = .ok p) {w : σ} {e : Ending}
    {s : State σ} :
    p.Ends w e s ↔ ∃ n, Runs (trees ++ [.leaf .halt]) (State.initial w) n (.stop e s) := by
  rw [ends_iff_halts]
  constructor
  · rintro ⟨n, hhalts⟩
    rcases (halts_iff_runs hnests hp).mp hhalts with ⟨m, _, hruns⟩
    exact ⟨m, hruns⟩
  · rintro ⟨n, hruns⟩
    exact ⟨n, (halts_iff_runs hnests hp).mpr ⟨n, Nat.le_refl n, hruns⟩⟩

/-- Whatever it prints to, the run of `p` without a step limit ends exactly
as the forest `trees` does, and goes on for ever exactly if the forest
does. -/
def Follows (p : Program) (trees : List Tree) : Prop :=
  ∀ (σ : Type) [Writer σ] (w : σ),
    (∀ e s, p.Ends w e s ↔
      ∃ n o, Runs trees (State.initial w) n o ∧ o.ending = e ∧ o.state = s) ∧
    ((∀ fuel, p.run? none fuel w = none) ↔ ¬ ∃ n o, Runs trees (State.initial w) n o)

theorem follows_of_nests {ops : List Instruction} {trees : List Tree} {p : Program}
    (hnests : Nests ops trees) (hp : Program.ofInstructions ops = .ok p) : p.Follows trees := by
  intro σ _ w
  have hends : ∀ e s, p.Ends w e s ↔
      ∃ n o, Runs trees (State.initial w) n o ∧ o.ending = e ∧ o.state = s := by
    intro e s
    rw [ends_iff_runs hnests hp]
    constructor
    · rintro ⟨n, hruns⟩
      rcases runs_halt_iff.mp hruns with hstop | ⟨rfl, k, _, hnext⟩
      · exact ⟨n, _, hstop, rfl, rfl⟩
      · exact ⟨k, _, hnext, rfl, rfl⟩
    · rintro ⟨n, o, hruns, rfl, rfl⟩
      cases o with
      | next s => exact ⟨n + 1, runs_halt_iff.mpr (Or.inr ⟨rfl, n, rfl, hruns⟩)⟩
      | stop e s => exact ⟨n, runs_halt_iff.mpr (Or.inl hruns)⟩
  -- going on for ever is having no ending at all, on either side
  refine ⟨hends, ?_, ?_⟩
  · rintro hnone ⟨n, o, hruns⟩
    rcases (hends o.ending o.state).mpr ⟨n, o, hruns, rfl, rfl⟩ with ⟨fuel, r, hrun, _⟩
    rw [hnone fuel] at hrun
    cases hrun
  · intro hnone fuel
    cases hrun : p.run? none fuel w with
    | none => rfl
    | some r =>
        rcases runFor_ended (run?_none_eq_some_iff.mp hrun) with ⟨e, he⟩
        rcases (hends e r.state).mp ⟨fuel, r, hrun, he, rfl⟩ with ⟨n, o, hruns, _⟩
        exact absurd ⟨n, o, hruns⟩ hnone

end Program

/-- **Jumps are loops.** A balanced list has one forest and can be linked,
and the program that comes out ends as the forest does, or goes on for ever
as it does, for every writer. -/
theorem balanced_program_follows_forest {ops : List Instruction} (hbal : Balanced ops) :
    ∃ trees p, Nests ops trees ∧ (∀ trees', Nests ops trees' → trees' = trees) ∧
      Program.ofInstructions ops = .ok p ∧ p.Follows trees := by
  rcases hbal.nests with ⟨trees, hnests⟩
  rcases ofInstructions_isOk_iff.mpr hbal with ⟨p, hp⟩
  exact ⟨trees, p, hnests, fun _ h => h.unique hnests, hp, Program.follows_of_nests hnests hp⟩

/-- The list of `+[>[-]<-]`, with arbitrary operands in its brackets. -/
theorem nested_loops_follow_forest :
    Balanced [.add 1, .loopOpen 7, .move 1, .loopOpen 7, .add (-1), .loopClose 7, .move (-1),
      .add (-1), .loopClose 7] ∧
    ∃ trees p, Nests [.add 1, .loopOpen 7, .move 1, .loopOpen 7, .add (-1), .loopClose 7,
        .move (-1), .add (-1), .loopClose 7] trees ∧
      (∀ trees', Nests [.add 1, .loopOpen 7, .move 1, .loopOpen 7, .add (-1), .loopClose 7,
        .move (-1), .add (-1), .loopClose 7] trees' → trees' = trees) ∧
      Program.ofInstructions [.add 1, .loopOpen 7, .move 1, .loopOpen 7, .add (-1),
        .loopClose 7, .move (-1), .add (-1), .loopClose 7] = .ok p ∧
      p.Follows trees := by
  have hbal : Balanced [.add 1, .loopOpen 7, .move 1, .loopOpen 7, .add (-1), .loopClose 7,
      .move (-1), .add (-1), .loopClose 7] := by
    exact ofInstructions_isOk_iff.mp ⟨_, rfl⟩
  exact ⟨hbal, balanced_program_follows_forest hbal⟩

end TapeLang
