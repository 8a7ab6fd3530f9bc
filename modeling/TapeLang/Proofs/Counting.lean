import TapeLang.Counting
import TapeLang.Proofs.Sessions
import TapeLang.Proofs.StepLimit

/-!
# TapeLang.Proofs.Counting — counting steps is allotting them

The interpreter that counts its steps in a register against the interpreter
that is given as many steps as its limit allows. The register wraps, so the
greatest limit that it can hold is never exceeded and is no limit:
`CountingInterpreter.bound` is what is left of a limit then.

* `CountingInterpreter.search_of_result?` — the loop of a search, with what
  comes behind it, is so many counted steps;
* `CountingInterpreter.runFrom_of_result?` — the counting run follows a run
  that is allotted its steps;
* `CountingInterpreter.endsFrom_of_runFrom` — without a bound, it has a
  result only if that run ends.

The main statements are `CountingInterpreter.run?_eq_some_iff` and
`CountingInterpreter.runAll?_eq_some_iff`: on any interpreter, a run or a
session comes to a result exactly if it does so on the other one.
-/

namespace TapeLang

variable {σ : Type}

namespace Program

variable [Writer σ] {p : Program} {ip ip' : Nat} {s s' : State σ}

/-- A run from `ip` on ends after some number of steps. -/
def EndsFrom (p : Program) (ip : Nat) (s : State σ) : Prop :=
  ∃ n r, p.runFor n ip s = .ended r

theorem EndsFrom.of_ended {r : Result σ} (hstep : p.step ip s = .ended r) : p.EndsFrom ip s :=
  ⟨1, r, runFor_succ_of_ended hstep 0⟩

theorem EndsFrom.of_running (hstep : p.step ip s = .running ip' s') (h : p.EndsFrom ip' s') :
    p.EndsFrom ip s := by
  obtain ⟨n, r, hr⟩ := h
  exact ⟨n + 1, r, by rw [runFor_succ_of_running hstep, hr]⟩

end Program

namespace Interpreter

variable [Writer σ] {vm : Interpreter σ} {m : Nat}

/-- A run with a limit always has a result. -/
theorem exists_run? (hlimit : vm.limit = some m) (fuel : Nat) (p : Program) :
    ∃ r, vm.run? fuel p = some r := by
  rw [run?_eq, hlimit]
  exact ⟨_, rfl⟩

theorem exists_runAll? (hlimit : vm.limit = some m) (fuel : Nat)
    (programs : List (Except CompileError Program)) :
    ∃ x, vm.runAll? fuel programs = some x := by
  induction programs generalizing vm with
  | nil => exact ⟨([], vm), rfl⟩
  | cons program rest ih =>
      cases program with
      | error e =>
          obtain ⟨⟨results, vm'⟩, hrest⟩ := ih hlimit
          exact ⟨_, runAll?_error_eq_some_iff.mpr ⟨results, rfl, hrest⟩⟩
      | ok p =>
          obtain ⟨r, hr⟩ := exists_run? hlimit fuel p
          have hleft : ({ vm with state := r.state } : Interpreter σ).limit = some m := hlimit
          obtain ⟨⟨results, vm'⟩, hrest⟩ := ih hleft
          exact ⟨_, runAll?_cons_eq_some_iff.mpr ⟨r, results, hr, rfl, hrest⟩⟩

end Interpreter

namespace CountingInterpreter

/-- The greatest number of steps that a run may count. -/
def bound (vm : CountingInterpreter σ) : Option Nat :=
  (vm.limit.map UInt64.toNat).filter (· < UInt64.size - 1)

/-- The interpreter that is given its steps. -/
def toInterpreter (vm : CountingInterpreter σ) : Interpreter σ :=
  { limit := vm.bound, state := vm.state }

/-- How a run ended, and what it left. -/
def result (x : Option RuntimeError × CountingInterpreter σ) : Result σ :=
  ⟨x.1, x.2.state⟩

/-! ## One count -/

@[simp] theorem tick_state (vm : CountingInterpreter σ) : vm.tick.state = vm.state := rfl

@[simp] theorem tick_limit (vm : CountingInterpreter σ) : vm.tick.limit = vm.limit := rfl

@[simp] theorem tick_bound (vm : CountingInterpreter σ) : vm.tick.bound = vm.bound := rfl

theorem bound_eq_some_iff {vm : CountingInterpreter σ} {m : Nat} :
    vm.bound = some m ↔ ∃ k, vm.limit = some k ∧ k.toNat = m ∧ m < UInt64.size - 1 := by
  rw [bound, Option.filter_eq_some_iff, Option.map_eq_some_iff, decide_eq_true_iff]
  grind

/-- A limit that is no bound is the greatest number that the register can
hold. -/
theorem check_of_bound_eq_none {vm : CountingInterpreter σ} (h : vm.bound = none) :
    vm.check = (none, vm.tick) := by
  cases hlimit : vm.limit with
  | none => simp [check, tick, hlimit]
  | some k =>
      have hk : UInt64.size - 1 ≤ k.toNat := by simpa [bound, hlimit] using h
      have hsteps : ¬ k < vm.steps + 1 := by
        have hlt : (vm.steps + 1).toNat < UInt64.size := (vm.steps + 1).toNat_lt_size
        rw [UInt64.lt_iff_toNat_lt]
        omega
      simp [check, tick, hlimit, hsteps]

/-- Below a bound the register does not wrap. -/
theorem steps_tick {vm : CountingInterpreter σ} {m : Nat} (hbound : vm.bound = some m)
    (h : vm.steps.toNat ≤ m) : vm.tick.steps.toNat = vm.steps.toNat + 1 := by
  obtain ⟨k, -, -, hm⟩ := bound_eq_some_iff.mp hbound
  have hlt : vm.steps.toNat + 1 < 2 ^ 64 := by
    have hsize : UInt64.size = 2 ^ 64 := rfl
    omega
  rw [tick, UInt64.toNat_add, UInt64.toNat_one, Nat.mod_eq_of_lt hlt]

theorem check_of_bound_eq_some {vm : CountingInterpreter σ} {m : Nat}
    (hbound : vm.bound = some m) (h : vm.steps.toNat ≤ m) :
    vm.check = (if vm.steps.toNat = m then some (.stepLimit m) else none, vm.tick) := by
  obtain ⟨k, hlimit, rfl, -⟩ := bound_eq_some_iff.mp hbound
  have hexceeds : k < vm.tick.steps ↔ vm.steps.toNat = k.toNat := by
    rw [UInt64.lt_iff_toNat_lt, steps_tick hbound h]
    omega
  by_cases hspent : vm.steps.toNat = k.toNat
  · simp [check, hlimit, hexceeds.mpr hspent, hspent]
  · simp [check, hlimit, mt hexceeds.mp hspent, hspent]

/-- The limit leaves exactly `n` more steps, or it is no bound. -/
def Leaves (vm : CountingInterpreter σ) (n : Nat) : Prop :=
  ∀ m, vm.bound = some m → vm.steps.toNat + n = m

theorem check_of_spent {vm : CountingInterpreter σ} {m : Nat} (h : vm.Leaves 0)
    (hbound : vm.bound = some m) : vm.check = (some (.stepLimit m), vm.tick) := by
  have hspent : vm.steps.toNat = m := h m hbound
  rw [check_of_bound_eq_some hbound hspent.le, if_pos hspent]

theorem check_of_leaves {vm : CountingInterpreter σ} {n : Nat} (h : vm.Leaves (n + 1)) :
    vm.check = (none, vm.tick) ∧ vm.tick.Leaves n := by
  cases hbound : vm.bound with
  | none => exact ⟨check_of_bound_eq_none hbound, fun m hm => by simp [hbound] at hm⟩
  | some m =>
      have hleft : vm.steps.toNat + (n + 1) = m := h m hbound
      have hle : vm.steps.toNat ≤ m := by omega
      refine ⟨?_, ?_⟩
      · rw [check_of_bound_eq_some hbound hle, if_neg (by omega)]
      · intro m' hm'
        obtain rfl : m = m' := by simpa [hbound] using hm'
        rw [steps_tick hbound hle]
        omega

/-! ## A search -/

theorem search_succ (k : Int32) (ip fuel : Nat) (vm : CountingInterpreter σ) :
    search k ip (fuel + 1) vm =
      match vm.state.current? with
      | none => some (some (.offTape vm.state.head ip), vm)
      | some v =>
        if v = 0 then some (none, vm)
        else
          match check { vm with state := vm.state.shift k } with
          | (some e, vm) => some (some e, vm)
          | (none, vm) => search k ip fuel vm := by
  rw [search, State.current?]
  cases Tape.cell? vm.state.head <;> rfl

/-- More fuel does not change what a search comes to. -/
theorem search_mono {k : Int32} {ip fuel fuel' : Nat} {vm : CountingInterpreter σ}
    {x : Option RuntimeError × CountingInterpreter σ} (h : search k ip fuel vm = some x)
    (hfuel : fuel ≤ fuel') : search k ip fuel' vm = some x := by
  induction fuel generalizing vm fuel' with
  | zero => cases h
  | succ fuel ih =>
      obtain ⟨fuel', rfl⟩ : ∃ f, fuel' = f + 1 := ⟨fuel' - 1, by omega⟩
      rw [search_succ] at h ⊢
      cases hcell : vm.state.current? with
      | none =>
          rw [hcell] at h
          exact h
      | some v =>
          rw [hcell] at h
          by_cases hv : v = 0
          · simpa only [if_pos hv] using h
          · simp only [if_neg hv] at h ⊢
            -- only a stride within the limit uses fuel
            rcases hcheck : check { vm with state := vm.state.shift k } with ⟨e | e, vm'⟩
            · rw [hcheck] at h
              exact ih h (by omega)
            · rw [hcheck] at h
              exact h

variable [Writer σ] {p : Program} {ip : Nat} {vm : CountingInterpreter σ} {r : Result σ}

/-- What a run does behind the search at `ip`. -/
def resume (p : Program) (fuel ip : Nat) (x : Option RuntimeError × CountingInterpreter σ) :
    Option (Option RuntimeError × CountingInterpreter σ) :=
  match x with
  | (some e, vm) => some (some e, vm)
  | (none, vm) => runFrom p fuel (ip + 1) vm

/-- What a run does behind any other instruction. -/
def proceed (p : Program) (fuel : Nat) (vm : CountingInterpreter σ) (x : Progress σ) :
    Option (Option RuntimeError × CountingInterpreter σ) :=
  match x with
  | .running ip s => runFrom p fuel ip { vm with state := s }
  | .ended r => some (r.failure, { vm with state := r.state })

theorem runFrom_of_exceeded {e : RuntimeError} {vm' : CountingInterpreter σ}
    (hcheck : vm.check = (some e, vm')) (p : Program) (fuel ip : Nat) :
    runFrom p (fuel + 1) ip vm = some (some e, vm') := by
  rw [runFrom, hcheck]

theorem runFrom_of_seek {k : Int32} {vm' : CountingInterpreter σ}
    (hcheck : vm.check = (none, vm')) (hop : p.fetch ip = .seek k) (fuel : Nat) :
    runFrom p (fuel + 1) ip vm = (search k ip fuel vm').bind (resume p fuel ip) := by
  rw [runFrom, hcheck]
  simp only [hop]
  rfl

theorem runFrom_of_other {vm' : CountingInterpreter σ} (hcheck : vm.check = (none, vm'))
    (hop : ∀ k, p.fetch ip ≠ .seek k) (fuel : Nat) :
    runFrom p (fuel + 1) ip vm = proceed p fuel vm' (p.step ip vm'.state) := by
  rw [runFrom, hcheck]
  dsimp only
  split
  next k hseek => exact absurd hseek (hop k)
  next => rfl

/-- The counting run from `ip` on has the result `r`, and keeps its limit. -/
def ComesTo (p : Program) (fuel ip : Nat) (vm : CountingInterpreter σ) (r : Result σ) : Prop :=
  ∃ steps, runFrom p fuel ip vm = some (r.failure, { vm with state := r.state, steps })

/-- The loop of a search, and the run behind it, follow a run that is allotted
the steps that the limit leaves. The induction is on the fuel of the loop;
each stride uses up one of the steps. -/
theorem search_of_result? {k : Int32} {n fuel fuel' : Nat} (hop : p.fetch ip = .seek k)
    (hbehind : ∀ m ≤ n, ∀ vm : CountingInterpreter σ, vm.Leaves m →
      (p.runFor m (ip + 1) vm.state).result? vm.bound = some r → ComesTo p fuel' (ip + 1) vm r)
    (hfuel : n < fuel) (hleft : vm.Leaves n)
    (h : (p.runFor (n + 1) ip vm.state).result? vm.bound = some r) :
    ∃ steps, (search k ip fuel vm).bind (resume p fuel' ip) =
      some (r.failure, { vm with state := r.state, steps }) := by
  induction fuel generalizing vm n with
  | zero => cases hfuel
  | succ fuel ih =>
      have hstep := Program.step_of_seek (s := vm.state) hop
      rw [search_succ]
      cases hcell : vm.state.current? with
      | none =>
          -- off the tape
          rw [hcell] at hstep
          rw [Program.runFor_succ_of_ended hstep] at h
          cases h
          exact ⟨vm.steps, rfl⟩
      | some v =>
          by_cases hv : v = 0
          · -- a zero is found, and the run goes on behind the search
            rw [hcell, hv] at hstep
            rw [Program.runFor_succ_of_running hstep] at h
            simp only [if_pos hv]
            exact hbehind n (Nat.le_refl n) vm hleft h
          · -- a stride, and a count behind it
            rw [hcell] at hstep
            rw [Program.runFor_succ_of_running (hstep.trans (if_neg hv))] at h
            simp only [if_neg hv]
            have hshifted : Leaves { vm with state := vm.state.shift k } n := hleft
            cases n with
            | zero =>
                obtain ⟨m, hbound, rfl⟩ := Option.map_eq_some_iff.mp h
                rw [check_of_spent hshifted hbound]
                exact ⟨_, rfl⟩
            | succ n =>
                obtain ⟨hcheck, hleft'⟩ := check_of_leaves hshifted
                rw [hcheck]
                exact ih (fun m hm => hbehind m (by omega)) (by omega) hleft' h

/-! ## A run -/

/-- The counting run follows a run that is allotted the steps that its limit
leaves. The induction is on these steps. -/
theorem runFrom_of_result? {n fuel : Nat} (hfuel : n < fuel) (hleft : vm.Leaves n)
    (h : (p.runFor n ip vm.state).result? vm.bound = some r) : ComesTo p fuel ip vm r := by
  induction n using Nat.strong_induction_on generalizing ip vm fuel with
  | _ n ih =>
      obtain ⟨fuel, rfl⟩ : ∃ f, fuel = f + 1 := ⟨fuel - 1, by omega⟩
      cases n with
      | zero =>
          -- nothing is left, so the run has a bound, and the next count exceeds it
          obtain ⟨m, hbound, rfl⟩ := Option.map_eq_some_iff.mp h
          exact ⟨vm.tick.steps, runFrom_of_exceeded (check_of_spent hleft hbound) p fuel ip⟩
      | succ n =>
          obtain ⟨hcheck, hleft'⟩ := check_of_leaves hleft
          by_cases hop : ∃ k, p.fetch ip = .seek k
          · -- all strides of a search are behind one instruction
            obtain ⟨k, hop⟩ := hop
            rw [ComesTo, runFrom_of_seek hcheck hop]
            refine search_of_result? hop ?_ (by omega) hleft' h
            intro m hm vm' hvm' hm'
            exact ih m (by omega) (by omega) hvm' hm'
          · rw [ComesTo, runFrom_of_other hcheck (not_exists.mp hop), tick_state]
            cases hstep : p.step ip vm.state with
            | running ip' s' =>
                rw [Program.runFor_succ_of_running hstep] at h
                have hrest : Leaves { vm.tick with state := s' } n := hleft'
                have hless : n < fuel := by omega
                exact ih n (by omega) hless hrest h
            | ended r' =>
                rw [Program.runFor_succ_of_ended hstep] at h
                cases h
                exact ⟨vm.tick.steps, rfl⟩

/-- More fuel does not change what a run comes to. -/
theorem runFrom_mono {fuel fuel' : Nat} {x : Option RuntimeError × CountingInterpreter σ}
    (h : runFrom p fuel ip vm = some x) (hfuel : fuel ≤ fuel') :
    runFrom p fuel' ip vm = some x := by
  induction fuel generalizing ip vm fuel' with
  | zero => cases h
  | succ fuel ih =>
      obtain ⟨fuel', rfl⟩ : ∃ f, fuel' = f + 1 := ⟨fuel' - 1, by omega⟩
      have hless : fuel ≤ fuel' := by omega
      rcases hcheck : vm.check with ⟨e | e, vm'⟩
      · by_cases hop : ∃ k, p.fetch ip = .seek k
        · obtain ⟨k, hop⟩ := hop
          rw [runFrom_of_seek hcheck hop] at h ⊢
          -- the search and what follows it share the fuel
          obtain ⟨⟨e | e, vm''⟩, hsearch, hresume⟩ := Option.bind_eq_some_iff.mp h
          · exact Option.bind_eq_some_iff.mpr ⟨_, search_mono hsearch hless, ih hresume hless⟩
          · exact Option.bind_eq_some_iff.mpr ⟨_, search_mono hsearch hless, hresume⟩
        · rw [runFrom_of_other hcheck (not_exists.mp hop)] at h ⊢
          cases hstep : p.step ip vm'.state with
          | running ip' s' =>
              rw [hstep] at h
              exact ih h hless
          | ended r' =>
              rw [hstep] at h
              exact h
      · rw [runFrom_of_exceeded hcheck] at h ⊢
        exact h

/-- Without a bound, a run that goes through a search ends if it ends behind
it. -/
theorem endsFrom_of_search {k : Int32} {fuel : Nat}
    {x : Option RuntimeError × CountingInterpreter σ} (hop : p.fetch ip = .seek k)
    (hbound : vm.bound = none) (h : search k ip fuel vm = some x)
    (hrest : x.1 = none → x.2.bound = none → p.EndsFrom (ip + 1) x.2.state) :
    p.EndsFrom ip vm.state := by
  induction fuel generalizing vm with
  | zero => cases h
  | succ fuel ih =>
      have hstep := Program.step_of_seek (s := vm.state) hop
      rw [search_succ] at h
      cases hcell : vm.state.current? with
      | none =>
          rw [hcell] at hstep
          exact .of_ended hstep
      | some v =>
          rw [hcell] at hstep h
          by_cases hv : v = 0
          · simp only [if_pos hv] at h
            cases h
            exact .of_running (hstep.trans (if_pos hv)) (hrest rfl hbound)
          · -- the count behind the stride cannot fail
            have hshifted : bound { vm with state := vm.state.shift k } = none := hbound
            simp only [if_neg hv, check_of_bound_eq_none hshifted] at h
            have hbehind : p.EndsFrom ip (vm.state.shift k) :=
              ih ((tick_bound _).trans hshifted) h
            exact .of_running (hstep.trans (if_neg hv)) hbehind

/-- Without a bound, a run that comes to a result ends after so many steps. -/
theorem endsFrom_of_runFrom {fuel : Nat} {x : Option RuntimeError × CountingInterpreter σ}
    (hbound : vm.bound = none) (h : runFrom p fuel ip vm = some x) : p.EndsFrom ip vm.state := by
  induction fuel generalizing ip vm with
  | zero => cases h
  | succ fuel ih =>
      -- no check fails, so every way out is an end of the program itself
      have hcheck := check_of_bound_eq_none hbound
      have hticked : vm.tick.bound = none := hbound
      by_cases hop : ∃ k, p.fetch ip = .seek k
      · obtain ⟨k, hop⟩ := hop
        rw [runFrom_of_seek hcheck hop] at h
        obtain ⟨⟨e, vm'⟩, hsearch, hresume⟩ := Option.bind_eq_some_iff.mp h
        rw [← tick_state vm]
        refine endsFrom_of_search hop hticked hsearch ?_
        rintro rfl hbound'
        exact ih hbound' hresume
      · rw [runFrom_of_other hcheck (not_exists.mp hop), tick_state] at h
        cases hstep : p.step ip vm.state with
        | running ip' s' =>
            rw [hstep] at h
            have hrest : bound { vm.tick with state := s' } = none := hbound
            have hbehind : p.EndsFrom ip' s' := ih hrest h
            exact .of_running hstep hbehind
        | ended r => exact .of_ended hstep

/-! ## The refinement -/

/-- The counting run has the result of the run that is allotted its steps, if
it is given more fuel than that. -/
theorem run?_of_allotted {fuel fuel' : Nat} (hfuel : vm.bound.getD fuel < fuel')
    (h : vm.toInterpreter.run? fuel p = some r) :
    ∃ steps, vm.run? fuel' p = some (r.failure, { vm with state := r.state, steps }) := by
  have hleft : vm.reset.Leaves (vm.bound.getD fuel) := by
    intro m hm
    rw [show vm.bound = some m from hm]
    exact Nat.zero_add m
  exact runFrom_of_result? hfuel hleft h

/-- If the counting run comes to a result, so does the run that is allotted
its steps. -/
theorem allotted_isSome {fuel : Nat} {x : Option RuntimeError × CountingInterpreter σ}
    (h : vm.run? fuel p = some x) : ∃ fuel' r, vm.toInterpreter.run? fuel' p = some r := by
  cases hbound : vm.bound with
  | some m =>
      have hlimit : vm.toInterpreter.limit = some m := hbound
      exact ⟨0, Interpreter.exists_run? hlimit 0 p⟩
  | none =>
      have hreset : vm.reset.bound = none := hbound
      obtain ⟨n, r, hr⟩ := endsFrom_of_runFrom hreset h
      refine ⟨n, r, ?_⟩
      rw [Interpreter.run?_eq, toInterpreter, hbound]
      exact Program.run?_none_eq_some_iff.mpr hr

/-- A counting run that comes to a result has that of the run that is allotted
its steps, and keeps its limit. -/
theorem allotted_of_run? {fuel : Nat} {e : Option RuntimeError} {vm' : CountingInterpreter σ}
    (h : vm.run? fuel p = some (e, vm')) :
    vm'.limit = vm.limit ∧ ∃ fuel', vm.toInterpreter.run? fuel' p = some ⟨e, vm'.state⟩ := by
  obtain ⟨fuel', r, hr⟩ := allotted_isSome h
  have hless : vm.bound.getD fuel' < max fuel (vm.bound.getD fuel' + 1) := by omega
  obtain ⟨steps, hrun⟩ := run?_of_allotted hless hr
  rw [run?, runFrom_mono h (Nat.le_max_left _ _)] at hrun
  cases hrun
  exact ⟨rfl, fuel', hr⟩

/-- **Counting is allotting, for a run.** On an interpreter in any state, the
counting run comes to a result exactly if the run that is allotted its steps
does, and to the same one. If there is a bound, any fuel above it will do. -/
theorem run?_eq_some_iff (vm : CountingInterpreter σ) (p : Program) :
    (∀ r, (∃ fuel, (vm.run? fuel p).map result = some r) ↔
      ∃ fuel, vm.toInterpreter.run? fuel p = some r) ∧
    ∀ m fuel, vm.bound = some m → m < fuel →
      (vm.run? fuel p).map result = vm.toInterpreter.run? fuel p := by
  refine ⟨fun r => ⟨?_, ?_⟩, ?_⟩
  · rintro ⟨fuel, hr⟩
    obtain ⟨⟨e, vm'⟩, hrun, rfl⟩ := Option.map_eq_some_iff.mp hr
    exact (allotted_of_run? hrun).2
  · rintro ⟨fuel, hr⟩
    obtain ⟨steps, hrun⟩ := run?_of_allotted (Nat.lt_succ_self _) hr
    exact ⟨_, Option.map_eq_some_iff.mpr ⟨_, hrun, rfl⟩⟩
  · -- under a limit both end, so it is enough that they agree on one result
    intro m fuel hbound hfuel
    have hlimit : vm.toInterpreter.limit = some m := hbound
    obtain ⟨r, hr⟩ := Interpreter.exists_run? hlimit fuel p
    have hless : vm.bound.getD fuel < fuel := by simpa [hbound] using hfuel
    obtain ⟨steps, hrun⟩ := run?_of_allotted hless hr
    rw [hrun, hr]
    rfl

/-! ## Sessions -/

variable {programs rest : List (Except CompileError Program)}
  {results : List (Except CompileError (Result σ))} {fuel fuel' : Nat}

/-- The first run of a session leaves the interpreter to the others. -/
theorem runAll?_cons_eq_some_iff {vm' : CountingInterpreter σ} :
    vm.runAll? fuel (.ok p :: rest) = some (results, vm') ↔
      ∃ e vm₁ results', vm.run? fuel p = some (e, vm₁) ∧
        results = .ok ⟨e, vm₁.state⟩ :: results' ∧
        vm₁.runAll? fuel rest = some (results', vm') := by
  rw [runAll?]
  cases vm.run? fuel p with
  | none => simp
  | some x =>
      simp only [Option.map_eq_some_iff, Prod.exists, Prod.mk.injEq, Option.some.injEq]
      constructor
      · rintro ⟨results', vm₂, hrest, rfl, rfl⟩
        exact ⟨x.1, x.2, results', rfl, rfl, hrest⟩
      · rintro ⟨e, vm₁, results', rfl, rfl, hrest⟩
        exact ⟨results', vm', hrest, rfl, rfl⟩

/-- What did not compile changes nothing. -/
theorem runAll?_error_eq_some_iff {e : CompileError} {vm' : CountingInterpreter σ} :
    vm.runAll? fuel (.error e :: rest) = some (results, vm') ↔
      ∃ results', results = .error e :: results' ∧
        vm.runAll? fuel rest = some (results', vm') := by
  rw [runAll?, Option.map_eq_some_iff]
  grind

/-- A counting session has the results of the session that is allotted its
steps, if it is given more fuel than that. -/
theorem runAll?_of_allotted {final : Interpreter σ} (hfuel : vm.bound.getD fuel < fuel')
    (h : vm.toInterpreter.runAll? fuel programs = some (results, final)) :
    ∃ vm', vm.runAll? fuel' programs = some (results, vm') ∧ vm'.toInterpreter = final := by
  induction programs generalizing vm results with
  | nil =>
      cases h
      exact ⟨vm, rfl, rfl⟩
  | cons program rest ih =>
      cases program with
      | error e =>
          obtain ⟨results', rfl, hrest⟩ := Interpreter.runAll?_error_eq_some_iff.mp h
          obtain ⟨vm', hvm', hfinal⟩ := ih hfuel hrest
          exact ⟨vm', runAll?_error_eq_some_iff.mpr ⟨results', rfl, hvm'⟩, hfinal⟩
      | ok p =>
          obtain ⟨r, results', hr, rfl, hrest⟩ := Interpreter.runAll?_cons_eq_some_iff.mp h
          obtain ⟨steps, hrun⟩ := run?_of_allotted hfuel hr
          -- the interpreter is left in the same state, with another count
          let vm₁ : CountingInterpreter σ := { vm with state := r.state, steps }
          have hfuel₁ : vm₁.bound.getD fuel < fuel' := hfuel
          obtain ⟨vm', hvm', hfinal⟩ := ih hfuel₁ hrest
          exact ⟨vm', runAll?_cons_eq_some_iff.mpr ⟨_, _, results', hrun, rfl, hvm'⟩, hfinal⟩

/-- A counting session that comes to results has those of the session that is
allotted its steps. -/
theorem allotted_of_runAll? {vm' : CountingInterpreter σ}
    (h : vm.runAll? fuel programs = some (results, vm')) :
    ∃ fuel', vm.toInterpreter.runAll? fuel' programs = some (results, vm'.toInterpreter) := by
  induction programs generalizing vm results with
  | nil =>
      cases h
      exact ⟨0, rfl⟩
  | cons program rest ih =>
      cases program with
      | error e =>
          obtain ⟨results', rfl, hrest⟩ := runAll?_error_eq_some_iff.mp h
          obtain ⟨fuel', hothers⟩ := ih hrest
          exact ⟨fuel', Interpreter.runAll?_error_eq_some_iff.mpr ⟨results', rfl, hothers⟩⟩
      | ok p =>
          obtain ⟨e, vm₁, results', hrun, rfl, hrest⟩ := runAll?_cons_eq_some_iff.mp h
          obtain ⟨hlimit, fuel₁, hfirst⟩ := allotted_of_run? hrun
          obtain ⟨fuel₂, hothers⟩ := ih hrest
          have hvm₁ : { vm.toInterpreter with state := vm₁.state } = vm₁.toInterpreter := by
            simp only [toInterpreter, bound, hlimit]
          -- the fuel of the run and that of the others, whichever is more
          refine ⟨max fuel₁ fuel₂,
            Interpreter.runAll?_cons_eq_some_iff.mpr ⟨_, results', ?_, rfl, ?_⟩⟩
          · exact Interpreter.run?_mono hfirst (Nat.le_max_left fuel₁ fuel₂)
          · rw [hvm₁]
            exact Interpreter.runAll?_mono hothers (Nat.le_max_right fuel₁ fuel₂)

/-- **Counting is allotting, for a session.** Runs one after another come to
results exactly if those that are allotted their steps do, to the same ones,
and they leave the interpreter in the same state. If there is a bound, any
fuel above it will do. -/
theorem runAll?_eq_some_iff (vm : CountingInterpreter σ)
    (programs : List (Except CompileError Program)) :
    (∀ x, (∃ fuel, (vm.runAll? fuel programs).map (Prod.map id toInterpreter) = some x) ↔
      ∃ fuel, vm.toInterpreter.runAll? fuel programs = some x) ∧
    ∀ m fuel, vm.bound = some m → m < fuel →
      (vm.runAll? fuel programs).map (Prod.map id toInterpreter) =
        vm.toInterpreter.runAll? fuel programs := by
  refine ⟨fun (results, final) => ⟨?_, ?_⟩, ?_⟩
  · rintro ⟨fuel, hx⟩
    obtain ⟨⟨results, vm'⟩, hruns, heq⟩ := Option.map_eq_some_iff.mp hx
    cases heq
    exact allotted_of_runAll? hruns
  · rintro ⟨fuel, hruns⟩
    obtain ⟨vm', hvm', rfl⟩ := runAll?_of_allotted (Nat.lt_succ_self _) hruns
    exact ⟨_, Option.map_eq_some_iff.mpr ⟨_, hvm', rfl⟩⟩
  · intro m fuel hbound hfuel
    have hlimit : vm.toInterpreter.limit = some m := hbound
    obtain ⟨⟨results, final⟩, hruns⟩ := Interpreter.exists_runAll? hlimit fuel programs
    have hless : vm.bound.getD fuel < fuel := by simpa [hbound] using hfuel
    obtain ⟨vm', hvm', rfl⟩ := runAll?_of_allotted hless hruns
    rw [hvm', hruns]
    rfl

end CountingInterpreter

end TapeLang
