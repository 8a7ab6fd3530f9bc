import Mathlib.Data.List.Forall2
import TapeLang.Proofs.Printing

/-!
# TapeLang.Proofs.Sessions — runs on one interpreter

An interpreter that has run a program is left with a tape, a head and a
writer, however the run ended. The next run finds the tape and the head
reset, and of the writer it only learns whether it fails.

* `Interpreter.run?_eq` — of the state that an interpreter is left in, a run
  takes over the writer and nothing else;
* `Interpreter.run?_alone` — with a writer that does not fail, it is the run
  of a fresh interpreter, and what it prints is added to what the writer
  holds;
* `runs_on_one_interpreter_are_independent` — so it is for any number of
  runs, one after another.
-/

namespace TapeLang

variable {σ τ : Type} [Writer σ] [Writer τ]

/-- More fuel does not change a result. -/
theorem Program.run?_mono {p : Program} {limit : Option Nat} {fuel fuel' : Nat} {w : σ}
    {r : Result σ} (h : p.run? limit fuel w = some r) (hfuel : fuel ≤ fuel') :
    p.run? limit fuel' w = some r := by
  cases limit with
  | none =>
      rw [run?_none_eq_some_iff] at h ⊢
      exact runFor_of_ended_of_le h hfuel
  | some m => exact h

namespace Interpreter

/-- A run takes over the writer and nothing else. -/
theorem run?_eq (vm : Interpreter σ) (fuel : Nat) (p : Program) :
    vm.run? fuel p = p.run? vm.limit fuel vm.state.writer := by
  rw [Program.run?_eq_result?]
  rfl

theorem fresh_run?_eq (limit : Option Nat) (v : τ) (fuel : Nat) (p : Program) :
    (fresh limit v).run? fuel p = p.run? limit fuel v :=
  run?_eq _ fuel p

/-- More fuel does not change the result of a run. -/
theorem run?_mono {vm : Interpreter σ} {fuel fuel' : Nat} {p : Program} {r : Result σ}
    (h : vm.run? fuel p = some r) (hfuel : fuel ≤ fuel') : vm.run? fuel' p = some r := by
  rw [run?_eq] at h ⊢
  exact Program.run?_mono h hfuel

variable {g : Gauge σ} {h : Gauge τ} {vm : Interpreter σ} {v : τ}

/-- A run is the run of a fresh interpreter, with another writer. -/
theorem run?_alone (hw : g.Reliable vm.state.writer) (hv : h.Reliable v) (hve : h.bytes v = [])
    (fuel : Nat) (p : Program) :
    ∃ v', (fresh vm.limit v).run? fuel p = (vm.run? fuel p).map (·.withWriter v') ∧
      ∀ r, vm.run? fuel p = some r →
        g.bytes r.state.writer = g.bytes vm.state.writer ++ h.bytes v' ∧
        g.Reliable r.state.writer := by
  rw [fresh_run?_eq, run?_eq]
  obtain ⟨v', hrun, hgets, -⟩ := Program.run?_withWriter (k := 0) hw (hv _)
  refine ⟨v', hrun, ?_⟩
  intro r hr
  obtain ⟨hgets', hreliable⟩ := Program.run?_gets hw hr
  refine ⟨?_, hreliable⟩
  rw [hgets'.bytes, hgets.bytes, hve, List.nil_append]

/-- The first run of a session leaves the interpreter to the others. -/
theorem runAll?_cons_eq_some_iff {fuel : Nat} {p : Program}
    {rest : List (Except CompileError Program)}
    {results : List (Except CompileError (Result σ))} {vm' : Interpreter σ} :
    vm.runAll? fuel (.ok p :: rest) = some (results, vm') ↔
      ∃ r results', vm.run? fuel p = some r ∧ results = .ok r :: results' ∧
        runAll? fuel { vm with state := r.state } rest = some (results', vm') := by
  rw [runAll?]
  cases vm.run? fuel p with
  | none => simp
  | some r =>
      simp only [Option.map_eq_some_iff, Prod.exists, Prod.mk.injEq, Option.some.injEq]
      constructor
      · rintro ⟨results', vm₁, hrest, rfl, rfl⟩
        exact ⟨r, results', rfl, rfl, hrest⟩
      · rintro ⟨r', results', rfl, rfl, hrest⟩
        exact ⟨results', vm', hrest, rfl, rfl⟩

/-- What did not compile changes nothing. -/
theorem runAll?_error_eq_some_iff {fuel : Nat} {e : CompileError}
    {rest : List (Except CompileError Program)}
    {results : List (Except CompileError (Result σ))} {vm' : Interpreter σ} :
    vm.runAll? fuel (.error e :: rest) = some (results, vm') ↔
      ∃ results', results = .error e :: results' ∧
        vm.runAll? fuel rest = some (results', vm') := by
  rw [runAll?, Option.map_eq_some_iff]
  grind

/-- More fuel does not change the results of a session. -/
theorem runAll?_mono {fuel fuel' : Nat} {programs : List (Except CompileError Program)}
    {results : List (Except CompileError (Result σ))} {vm' : Interpreter σ}
    (h : vm.runAll? fuel programs = some (results, vm')) (hfuel : fuel ≤ fuel') :
    vm.runAll? fuel' programs = some (results, vm') := by
  induction programs generalizing vm results with
  | nil => exact h
  | cons program rest ih =>
      cases program with
      | error e =>
          obtain ⟨results', rfl, hrest⟩ := runAll?_error_eq_some_iff.mp h
          exact runAll?_error_eq_some_iff.mpr ⟨results', rfl, ih hrest⟩
      | ok p =>
          obtain ⟨r, results', hr, rfl, hrest⟩ := runAll?_cons_eq_some_iff.mp h
          exact runAll?_cons_eq_some_iff.mpr ⟨r, results', run?_mono hr hfuel, rfl, ih hrest⟩

/-- A session has a result if each of its programs has one alone. -/
theorem runAll?_isSome (hw : g.Reliable vm.state.writer) (hv : h.Reliable v)
    (hve : h.bytes v = []) {fuel : Nat} {ps : List Program}
    (hps : ∀ p ∈ ps, ∃ r, (fresh vm.limit v).run? fuel p = some r) :
    ∃ results vm', vm.runAll? fuel (ps.map .ok) = some (results, vm') := by
  induction ps generalizing vm with
  | nil => exact ⟨[], vm, rfl⟩
  | cons p ps ih =>
      -- alone or in the session, this run ends with the same fuel
      obtain ⟨v', hrun, hbehind⟩ := run?_alone hw hv hve fuel p
      obtain ⟨r', hr'⟩ := hps p List.mem_cons_self
      rw [hrun, Option.map_eq_some_iff] at hr'
      obtain ⟨r, hr, -⟩ := hr'
      have hrest : ∃ results vm', runAll? fuel { vm with state := r.state } (ps.map .ok) =
          some (results, vm') :=
        ih (hbehind r hr).2 (fun q hq => hps q (List.mem_cons_of_mem p hq))
      obtain ⟨results, vm', hresults⟩ := hrest
      exact ⟨.ok r :: results, vm', runAll?_cons_eq_some_iff.mpr ⟨r, results, hr, rfl, hresults⟩⟩

/-- The results of a session are those of fresh interpreters, and the writer
gets what is printed to theirs, one after the other. The induction is on the
programs, for an interpreter in any state. -/
theorem runAll?_alone (hw : g.Reliable vm.state.writer) (hv : h.Reliable v)
    (hve : h.bytes v = []) {fuel : Nat} {ps : List Program}
    {results : List (Except CompileError (Result σ))} {vm' : Interpreter σ}
    (hsession : vm.runAll? fuel (ps.map .ok) = some (results, vm')) :
    ∃ alone : List (Result τ),
      List.Forall₂ (fun p r => (fresh vm.limit v).run? fuel p = some r) ps alone ∧
      results.map (Except.map (·.withWriter ())) = alone.map (fun r => .ok (r.withWriter ())) ∧
      g.bytes vm'.state.writer =
        g.bytes vm.state.writer ++ alone.flatMap (fun r => h.bytes r.state.writer) := by
  induction ps generalizing vm results with
  | nil =>
      cases hsession
      exact ⟨[], List.Forall₂.nil, rfl, by simp⟩
  | cons p ps ih =>
      obtain ⟨v', hrun, hbehind⟩ := run?_alone hw hv hve fuel p
      obtain ⟨r, results', hr, rfl, hrest⟩ := runAll?_cons_eq_some_iff.mp hsession
      -- the writer is as good as before, so the rest goes on from any state `r` is in
      obtain ⟨hbytes, hreliable⟩ := hbehind r hr
      obtain ⟨alone, halone, hsame, hmore⟩ := ih hreliable hrest
      refine ⟨r.withWriter v' :: alone, List.Forall₂.cons ?_ halone, ?_, ?_⟩
      · rw [hrun, hr]
        rfl
      · rw [List.map_cons, List.map_cons, hsame]
        rfl
      · rw [hmore, hbytes, List.flatMap_cons, List.append_assoc]
        rfl

/-- Programs that end with some fuel each end with one fuel. -/
theorem exists_fuel {vm : Interpreter σ} {ps : List Program}
    (h : ∀ p ∈ ps, ∃ fuel r, vm.run? fuel p = some r) :
    ∃ fuel, ∀ p ∈ ps, ∃ r, vm.run? fuel p = some r := by
  induction ps with
  | nil => exact ⟨0, by simp⟩
  | cons p ps ih =>
      obtain ⟨fuel₁, r₁, hfirst⟩ := h p List.mem_cons_self
      obtain ⟨fuel₂, hrest⟩ := ih fun q hq => h q (List.mem_cons_of_mem p hq)
      refine ⟨max fuel₁ fuel₂, ?_⟩
      intro q hq
      rcases List.mem_cons.mp hq with rfl | hq
      · exact ⟨r₁, run?_mono hfirst (Nat.le_max_left _ _)⟩
      · obtain ⟨r, hr⟩ := hrest q hq
        exact ⟨r, run?_mono hr (Nat.le_max_right _ _)⟩

end Interpreter

/-- **Runs on one interpreter are independent.** Take an interpreter in any
state, with a writer that does not fail, and programs that are run on it one
after another. They all have results exactly if each of them has one on a
fresh interpreter with the same limit. Then each run has the failure, the
tape and the head of the run on the fresh interpreter, and the bytes that
the fresh ones have printed, in order, are what the writer has got. -/
theorem runs_on_one_interpreter_are_independent {g : Gauge σ} {h : Gauge τ} {vm : Interpreter σ}
    {v : τ} (hw : g.Reliable vm.state.writer) (hv : h.Reliable v) (hve : h.bytes v = [])
    (ps : List Program) :
    ((∃ fuel results vm', vm.runAll? fuel (ps.map .ok) = some (results, vm')) ↔
      ∀ p ∈ ps, ∃ fuel r, (Interpreter.fresh vm.limit v).run? fuel p = some r) ∧
    ∀ fuel results vm', vm.runAll? fuel (ps.map .ok) = some (results, vm') →
      ∃ alone : List (Result τ),
        List.Forall₂ (fun p r => (Interpreter.fresh vm.limit v).run? fuel p = some r) ps alone ∧
        results.map (Except.map (·.withWriter ())) = alone.map (fun r => .ok (r.withWriter ())) ∧
        g.bytes vm'.state.writer =
          g.bytes vm.state.writer ++ alone.flatMap (fun r => h.bytes r.state.writer) := by
  refine ⟨⟨?_, ?_⟩, fun fuel results vm' => Interpreter.runAll?_alone hw hv hve⟩
  · rintro ⟨fuel, results, vm', hsession⟩ p hp
    obtain ⟨alone, halone, -⟩ := Interpreter.runAll?_alone hw hv hve hsession
    have hends : ∀ q ∈ ps, ∃ fuel r, (Interpreter.fresh vm.limit v).run? fuel q = some r :=
      ((List.forall₂_and_left ps alone).mp (halone.imp fun q r hr => ⟨⟨fuel, r, hr⟩, hr⟩)).1
    exact hends p hp
  · intro hps
    obtain ⟨fuel, hfuel⟩ := Interpreter.exists_fuel hps
    obtain ⟨results, vm', hsession⟩ := Interpreter.runAll?_isSome hw hv hve hfuel
    exact ⟨fuel, results, vm', hsession⟩

/-- An interpreter whose tape is full and whose head is off it runs `+.<+`,
which ends off the tape, and then `.`, which finds its cell zero. With a
limit of five steps it runs `+[.]`, which is cut at its sixth, and then `.`
again, which has all its steps and finds its cell zero. -/
theorem aborted_run_leaves_no_trace :
    (∃ results vm' alone,
      Interpreter.runAll? 9 ⟨none, ⟨Vector.replicate tapeLength 5, -1, ({} : Sink)⟩⟩
        ([⟨#[.add 1, .print, .move (-1), .add 1, .halt]⟩, ⟨#[.print, .halt]⟩].map .ok) =
          some (results, vm') ∧
      List.Forall₂ (fun p r => (Interpreter.fresh none ({} : Sink)).run? 9 p = some r)
        [⟨#[.add 1, .print, .move (-1), .add 1, .halt]⟩, ⟨#[.print, .halt]⟩] alone ∧
      results.map (Except.map (·.withWriter ())) = alone.map (fun r => .ok (r.withWriter ())) ∧
      results.map (·.toOption.bind Result.failure) = [some (.offTape (-1) 3), none] ∧
      Sink.gauge.bytes vm'.state.writer = [1, 0]) ∧
    ∃ results vm' alone,
      Interpreter.runAll? 9 ⟨some 5, ⟨Vector.replicate tapeLength 5, -1, ({} : Sink)⟩⟩
        ([⟨#[.add 1, .loopOpen 3, .print, .loopClose 1, .halt]⟩, ⟨#[.print, .halt]⟩].map .ok) =
          some (results, vm') ∧
      List.Forall₂ (fun p r => (Interpreter.fresh (some 5) ({} : Sink)).run? 9 p = some r)
        [⟨#[.add 1, .loopOpen 3, .print, .loopClose 1, .halt]⟩, ⟨#[.print, .halt]⟩] alone ∧
      results.map (Except.map (·.withWriter ())) = alone.map (fun r => .ok (r.withWriter ())) ∧
      results.map (·.toOption.bind Result.failure) = [some (.stepLimit 5), none] ∧
      Sink.gauge.bytes vm'.state.writer = [1, 1, 0] := by
  -- what a session shows, when it is run, it also has in common with fresh interpreters
  have hshown : ∀ (limit : Option Nat) (ps : List Program) failures bytes,
      ((Interpreter.mk limit ⟨Vector.replicate tapeLength 5, -1, ({} : Sink)⟩).runAll? 9
          (ps.map .ok)).map (fun x =>
        (x.1.map (·.toOption.bind Result.failure), Sink.gauge.bytes x.2.state.writer)) =
          some (failures, bytes) →
      ∃ results vm' alone,
        (Interpreter.mk limit ⟨Vector.replicate tapeLength 5, -1, ({} : Sink)⟩).runAll? 9
          (ps.map .ok) = some (results, vm') ∧
        List.Forall₂ (fun p r => (Interpreter.fresh limit ({} : Sink)).run? 9 p = some r) ps alone ∧
        results.map (Except.map (·.withWriter ())) = alone.map (fun r => .ok (r.withWriter ())) ∧
        results.map (·.toOption.bind Result.failure) = failures ∧
        Sink.gauge.bytes vm'.state.writer = bytes := by
    intro limit ps failures bytes hrun
    obtain ⟨⟨results, vm'⟩, hsession, hseen⟩ := Option.map_eq_some_iff.mp hrun
    have hv : Sink.gauge.Reliable {} := Sink.reliable rfl
    obtain ⟨alone, halone, hsame, -⟩ :=
      (runs_on_one_interpreter_are_independent (Sink.reliable rfl) hv rfl ps).2 9 results vm'
        hsession
    exact ⟨results, vm', alone, hsession, halone, hsame, congrArg Prod.fst hseen,
      congrArg Prod.snd hseen⟩
  refine ⟨hshown _ _ _ _ ?_, hshown _ _ _ _ ?_⟩
  · decide +kernel
  · decide +kernel

end TapeLang
