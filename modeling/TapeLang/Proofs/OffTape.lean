import TapeLang.Proofs.Fitting
import TapeLang.Proofs.StepLimit

/-!
# TapeLang.Proofs.OffTape — runs that leave the tape

A run that fails because its head is off the tape has a counterpart after
the peephole pass: the shrunk program comes to the same tape and the same
writer, and looks at the cell under its head too. Its head may have drifted
by a multiple of 2³², since distances are added up in 32 bits. Then it
fails at another place, or it has drifted onto the tape and goes on.

* `Leads` — one forest in one state has the outcomes of another forest in
  another state;
* `Looks` — a forest that looks at the cell under the head first;
* `Runs.narrow_leads` — where a tidy forest fails, the forest with its
  distances cut comes to a look, near the same state;
* `shrunk_run_looks_off_tape` — the same for programs.
-/

namespace TapeLang

variable {σ : Type} [Writer σ]

/-! ## Forests on the way -/

/-- The forest `xs` started in `s` has the outcomes that `ys` started in `t`
has. -/
def Leads (xs : List Tree) (s : State σ) (ys : List Tree) (t : State σ) : Prop :=
  ∀ o, (∃ n, Runs xs s n o) ↔ ∃ m, Runs ys t m o

namespace Leads

theorem refl (xs : List Tree) (s : State σ) : Leads xs s xs s :=
  fun _ => Iff.rfl

theorem trans {xs ys zs : List Tree} {s t u : State σ} (h : Leads xs s ys t)
    (h' : Leads ys t zs u) : Leads xs s zs u :=
  fun o => (h o).trans (h' o)

theorem symm {xs ys : List Tree} {s t : State σ} (h : Leads xs s ys t) : Leads ys t xs s :=
  fun o => (h o).symm

/-- What has come to its end leads to what stands behind it. -/
theorem of_next {xs : List Tree} {s t : State σ} {n : Nat} (h : Runs xs s n (.next t))
    (ys : List Tree) : Leads (xs ++ ys) s ys t := by
  intro o
  constructor
  · rintro ⟨m, hruns⟩
    rcases hruns.split with ⟨e, u, rfl, hstop⟩ | ⟨k, m, u, rfl, hnext, hys⟩
    · cases (h.det hstop).2
    · cases (h.det hnext).2
      exact ⟨m, hys⟩
  · rintro ⟨m, hys⟩
    exact ⟨n + m, h.append hys⟩

/-- One search with a stride ahead of it leads behind the stride. -/
theorem of_stride {s : State σ} {v : Int8} (hcell : s.current? = some v) (hv : v ≠ 0) (k : Int64)
    (rest : List Tree) : Leads (.seek k :: rest) s (.seek k :: rest) (s.advance k) := by
  intro o
  constructor
  · rintro ⟨n, hruns⟩
    cases hruns with
    | seekOff hoff => simp_all
    | seekDone hzero _ => simp_all
    | seekMore _ _ hagain => exact ⟨_, hagain⟩
  · rintro ⟨n, hagain⟩
    exact ⟨_, Runs.seekMore hcell hv hagain⟩

/-- A loop with a round ahead of it leads into the round. -/
theorem of_round {s : State σ} {v : Int8} (hcell : s.current? = some v) (hv : v ≠ 0)
    (body rest : List Tree) : Leads (.loop body :: rest) s (body ++ .loop body :: rest) s := by
  intro o
  constructor
  · rintro ⟨n, hruns⟩
    cases hruns with
    | loopOff hoff => simp_all
    | loopDone hzero _ => simp_all
    | loopMore _ _ hbody hagain => exact ⟨_, hbody.append hagain⟩
    | loopStop _ _ hbody => exact ⟨_, hbody.append_stop _⟩
  · rintro ⟨n, hruns⟩
    -- the unrolled run ends within the first round, or goes on to the loop again
    rcases hruns.split with ⟨e, u, rfl, hstop⟩ | ⟨k, m, u, rfl, hnext, hagain⟩
    · exact ⟨_, Runs.loopStop hcell hv hstop⟩
    · exact ⟨_, Runs.loopMore hcell hv hnext hagain⟩

theorem append_runs {xs ys : List Tree} {s t : State σ} (h : Leads xs s ys t) {zs : List Tree}
    {n : Nat} {o : Outcome σ} (hruns : Runs (xs ++ zs) s n o) : ∃ m, Runs (ys ++ zs) t m o := by
  rcases hruns.split with ⟨e, u, rfl, hstop⟩ | ⟨k, m, u, rfl, hnext, hzs⟩
  · rcases (h _).mp ⟨n, hstop⟩ with ⟨m, hys⟩
    exact ⟨m, hys.append_stop zs⟩
  · rcases (h _).mp ⟨k, hnext⟩ with ⟨k', hys⟩
    exact ⟨k' + m, hys.append hzs⟩

theorem append {xs ys : List Tree} {s t : State σ} (h : Leads xs s ys t) (zs : List Tree) :
    Leads (xs ++ zs) s (ys ++ zs) t := by
  intro o
  constructor
  · rintro ⟨n, hruns⟩
    exact h.append_runs hruns
  · rintro ⟨n, hruns⟩
    exact h.symm.append_runs hruns

end Leads

/-! ## Looking at the cell under the head -/

/-- The forest looks at the cell under the head before it does anything. -/
def Looks (σ : Type) [Writer σ] (trees : List Tree) : Prop :=
  ∀ s : State σ, s.current? = none → ∃ n, Runs trees s n (.stop (.offTape s.head) s)

theorem Looks.append {xs : List Tree} (h : Looks σ xs) (ys : List Tree) :
    Looks σ (xs ++ ys) := by
  intro s hcell
  rcases h s hcell with ⟨n, hruns⟩
  exact ⟨n, hruns.append_stop ys⟩

theorem looks_seek (k : Int64) (rest : List Tree) : Looks σ (.seek k :: rest) :=
  fun _ hcell => ⟨1, Runs.seekOff hcell⟩

theorem looks_loop (body rest : List Tree) : Looks σ (.loop body :: rest) :=
  fun _ hcell => ⟨1, Runs.loopOff hcell⟩

theorem looks_leaf {op : Leaf} {act : State σ → Fin tapeLength → Outcome σ}
    (hop : ∀ s, op.act s = s.onCell (act s)) (rest : List Tree) : Looks σ (.leaf op :: rest) :=
  fun s hcell => ⟨1, Runs.leafStop ((hop s).trans (State.onCell_of_current hcell _))⟩

/-- A leaf that fails off the tape looks at the cell under the head, and has
done nothing before. -/
theorem Leaf.looks_of_offTape {op : Leaf} {s t : State σ} {head : Int64}
    (h : op.act s = .stop (.offTape head) t) :
    (∀ k, op ≠ .move k) ∧ (∀ rest, Looks σ (.leaf op :: rest)) ∧
      s.current? = none ∧ t = s ∧ head = s.head := by
  cases op with
  | move k => cases h
  | read => cases h
  | halt => cases h
  | add n => exact ⟨by simp, looks_leaf fun _ => rfl, State.offTape_of_onCell (by simp) h⟩
  | set v => exact ⟨by simp, looks_leaf fun _ => rfl, State.offTape_of_onCell (by simp) h⟩
  | print =>
      refine ⟨by simp, looks_leaf fun _ => rfl, State.offTape_of_onCell ?_ h⟩
      intro i head t hprint
      split at hprint <;> cases hprint

/-- Where a tidy forest fails off the tape, the forest with its distances
cut comes to a look at the cell under its head, near the same state. The
induction is on the run, as in `Runs.narrow`, which also gives the rounds
that are over. -/
theorem Runs.narrow_leads {trees : List Tree} {s s' t : State σ} {n : Nat} {head : Int64}
    (h : Runs trees s n (.stop (.offTape head) t)) (htidy : Tidy trees) (hnear : Near s s')
    (hstart : ∀ k rest, trees = .leaf (.move k) :: rest → OnTape s.head) :
    ∃ rest t', Leads (TapeLang.narrow trees) s' rest t' ∧ Looks σ rest ∧ Near t t' ∧
      t.current? = none ∧ head = t.head := by
  generalize hout : Outcome.stop (.offTape head) t = o at h
  induction h generalizing s' with
  | nil => cases hout
  | @leafNext op rest s s₁ n o hact _ ih =>
      rcases Leaf.narrow_next hact htidy hnear hstart with ⟨op', s₁', hop, hact', hnear', hrest⟩
      rcases ih htidy.tail hnear' hrest hout with ⟨ys, t', hlead, hfail⟩
      refine ⟨ys, t', ?_, hfail⟩
      rw [narrow_cons, hop]
      exact (Leads.of_next (Runs.leafNext hact' (Runs.nil _)) _).trans hlead
  | leafStop hact =>
      cases hout
      rcases Leaf.looks_of_offTape hact with ⟨hop, hlooks, hcell, rfl, rfl⟩
      rw [narrow_cons, Tree.narrow_leaf hop]
      exact ⟨_, s', Leads.refl _ s', hlooks _, hnear, hcell, rfl⟩
  | seekOff hcell =>
      cases hout
      rw [narrow_cons, Tree.narrow]
      exact ⟨_, s', Leads.refl _ s', looks_seek _ _, hnear, hcell, rfl⟩
  | @seekDone k rest s n o hcell _ ih =>
      rcases hnear.of_current hcell with ⟨hs, rfl⟩
      rcases ih htidy.tail hnear (fun _ _ _ => hs) hout with ⟨ys, t', hlead, hfail⟩
      refine ⟨ys, t', ?_, hfail⟩
      rw [narrow_cons, Tree.narrow]
      exact (Leads.of_next (Runs.seekDone hcell (Runs.nil _)) _).trans hlead
  | @seekMore k rest s v n o hcell hv _ ih =>
      rcases hnear.of_current hcell with ⟨hs, rfl⟩
      rcases ih htidy (Near.advance hs k) (by simp) hout with ⟨ys, t', hlead, hfail⟩
      refine ⟨ys, t', ?_, hfail⟩
      rw [narrow_cons, Tree.narrow] at hlead ⊢
      exact (Leads.of_stride hcell hv _ _).trans hlead
  | loopOff hcell =>
      cases hout
      rw [narrow_cons, Tree.narrow]
      exact ⟨_, s', Leads.refl _ s', looks_loop _ _, hnear, hcell, rfl⟩
  | @loopDone body rest s n o hcell _ ih =>
      rcases hnear.of_current hcell with ⟨hs, rfl⟩
      rcases ih htidy.tail hnear (fun _ _ _ => hs) hout with ⟨ys, t', hlead, hfail⟩
      refine ⟨ys, t', ?_, hfail⟩
      rw [narrow_cons, Tree.narrow]
      exact (Leads.of_next (Runs.loopDone hcell (Runs.nil _)) _).trans hlead
  | @loopMore body rest s s₁ v n m o hcell hv hbody _ _ ihagain =>
      rcases hnear.of_current hcell with ⟨hs, rfl⟩
      rcases hbody.narrow htidy.body rfl hnear (fun _ _ _ => hs) with ⟨t₁, ht₁, hround⟩
      rcases ihagain htidy ht₁ (by simp) hout with ⟨ys, t', hlead, hfail⟩
      refine ⟨ys, t', ?_, hfail⟩
      rw [narrow_cons, Tree.narrow] at hlead ⊢
      exact (Leads.of_round hcell hv _ _).trans ((Leads.of_next hround _).trans hlead)
  | @loopStop body rest s s₁ v n e hcell hv _ ihbody =>
      cases hout
      rcases hnear.of_current hcell with ⟨hs, rfl⟩
      rcases ihbody htidy.body hnear (fun _ _ _ => hs) rfl with ⟨ys, t', hlead, hlooks, hfail⟩
      -- the failure is inside the round, with the rest of the loop behind it
      refine ⟨ys ++ .loop (TapeLang.narrow body) :: TapeLang.narrow rest, t', ?_,
        hlooks.append _, hfail⟩
      rw [narrow_cons, Tree.narrow]
      exact (Leads.of_round hcell hv _ _).trans (hlead.append _)

/-! ## What was printed before -/

theorem Leaf.act_grows {view : σ → List UInt8} (hview : Writer.Grows view) (op : Leaf)
    (s : State σ) : view s.writer <+: view (op.act s).state.writer := by
  -- off the tape nothing is done, so it is enough to look at the act on a cell
  have hcell : ∀ act : Fin tapeLength → Outcome σ,
      (∀ i, view s.writer <+: view (act i).state.writer) →
      view s.writer <+: view (s.onCell act).state.writer := by
    intro act hact
    rcases State.onCell_cases (rfl : s.onCell act = _) with ⟨i, _, hi⟩ | hoff
    · rw [← hi]
      exact hact i
    · rw [hoff]
      exact List.prefix_rfl
  cases op with
  | move k => exact List.prefix_rfl
  | add n => exact hcell _ fun _ => List.prefix_rfl
  | set v => exact hcell _ fun _ => List.prefix_rfl
  | read => exact List.prefix_rfl
  | halt => exact List.prefix_rfl
  | print =>
      -- the only leaf that touches the writer
      apply hcell
      intro i
      have hemit := Program.emit_grows hview s.writer (s.tape.get i).toUInt8
      rcases hw : Writer.emit s.writer (s.tape.get i).toUInt8 with ⟨cause, w⟩
      rw [hw] at hemit
      cases cause <;> exact hemit

/-- What a writer holds only grows while a forest is run. -/
theorem Runs.grows {view : σ → List UInt8} (hview : Writer.Grows view) {trees : List Tree}
    {s : State σ} {n : Nat} {o : Outcome σ} (h : Runs trees s n o) :
    view s.writer <+: view o.state.writer := by
  induction h with
  | nil => exact List.prefix_rfl
  | @leafNext op rest s s' n o hact _ ih =>
      have hleaf := op.act_grows hview s
      rw [hact] at hleaf
      exact hleaf.trans ih
  | @leafStop op rest s s' e hact =>
      have hleaf := op.act_grows hview s
      rw [hact] at hleaf
      exact hleaf
  | seekOff => exact List.prefix_rfl
  | seekDone _ _ ih => exact ih
  | seekMore _ _ _ ih => exact ih
  | loopOff => exact List.prefix_rfl
  | loopDone _ _ ih => exact ih
  | loopMore _ _ _ _ ihbody ihagain => exact ihbody.trans ihagain
  | loopStop _ _ _ ihbody => exact ihbody

/-! ## Programs -/

theorem Drift.not_onTape {wide short : Int64} (h : Drift wide short)
    (hfar : (tapeLength : Int) ≤ wide.toInt % 2 ^ 32) : ¬ OnTape short := by
  intro hshort
  have hmod := h.emod_eq
  unfold OnTape tapeLength at *
  omega

/-- The forest of a shrunk list leads to a look at the cell under the head
where the forest of the list fails off the tape. -/
theorem Runs.shrunk_leads {trees : List Tree} {w : σ} {n : Nat} {head : Int64} {s : State σ}
    (h : Runs (trees ++ [.leaf .halt]) (State.initial w) n (.stop (.offTape head) s)) :
    ∃ rest s', Leads (TapeLang.narrow (squeeze trees) ++ [.leaf .halt]) (State.initial w) rest s' ∧
      Looks σ rest ∧ Near s s' ∧ s.current? = none ∧ head = s.head := by
  have hsqueeze : Tightens σ (trees ++ [.leaf .halt]) (squeeze trees ++ [.leaf .halt]) :=
    (tightens_squeeze trees).append (Tightens.refl _)
  rcases hsqueeze.fewer h with ⟨m, _, hruns⟩
  have hzero := onTape_initial w
  have hleads := hruns.narrow_leads (squeeze_tidy trees).append_halt (Near.refl hzero)
    (fun _ _ _ => hzero)
  rw [narrow_append_halt] at hleads
  exact hleads

/-- **The peephole pass and the end of the tape.** If the program fails off
the tape, printing to any writer and without a step limit, then the shrunk
one fails with the same head, tape and writer, if the moves fit or the head
is in sight of the tape. Otherwise its head may have drifted by a multiple
of 2³². It fails all the same, with the same tape and writer, unless that
leads onto the tape; and then it has printed what the program has, before
it goes on. -/
theorem shrunk_run_looks_off_tape {ops : List Instruction} {p : Program}
    (hp : Program.ofInstructions ops = .ok p) :
    ∃ q, Program.ofInstructions (Peephole.shrink ops) = .ok q ∧
      ∀ (σ : Type) [Writer σ] (w : σ) (head : Int64) (s : State σ), p.Ends w (.offTape head) s →
        (MovesFit ops ∨ InSight head → q.Ends w (.offTape head) s) ∧
        ((tapeLength : Int) ≤ head.toInt % 2 ^ 32 →
          ∃ head', head'.toInt % 2 ^ 32 = head.toInt % 2 ^ 32 ∧
            q.Ends w (.offTape head') { s with head := head' }) ∧
        ∀ view, Writer.Grows view → ∀ e t, q.Ends w e t → view s.writer <+: view t.writer := by
  rcases (ofInstructions_isOk_iff.mp ⟨p, hp⟩).nests with ⟨trees, hnests⟩
  have hshrunk := hnests.shrink
  rcases ofInstructions_isOk_iff.mpr hshrunk.balanced with ⟨q, hq⟩
  refine ⟨q, hq, ?_⟩
  intro σ _ w head s hends
  rcases (Program.ends_iff_runs hnests hp).mp hends with ⟨n, hruns⟩
  rcases hruns.shrunk_leads with ⟨rest, s', hlead, hlooks, hnear, hcell, rfl⟩
  -- the shrunk run comes to the same look, so it fails wherever its head is off the tape
  have hfails : s'.current? = none → q.Ends w (.offTape s'.head) s' := by
    intro hoff
    rw [Program.ends_iff_runs hshrunk hq, hlead]
    exact hlooks s' hoff
  refine ⟨?_, ?_, ?_⟩
  · rintro (hfits | hsight)
    · -- no move is cut, so shrinking only tightens
      rw [narrow_squeeze_of_fits hnests hfits] at hshrunk
      have halike := Program.endsAlike_of_tightens hnests hshrunk hp hq
        fun σ _ => tightens_squeeze trees
      exact (halike.alike σ w _ s).mp hends
    · have hsame := hnear.eq_of_inSight hsight
      subst hsame
      exact hfails hcell
  · -- the heads differ by a multiple of `2 ^ 32`, which cannot bring this one back on
    intro hfar
    have hs' : s' = { s with head := s'.head } := by
      rcases s' with ⟨tape, head, writer⟩
      cases hnear.tape
      cases hnear.writer
      rfl
    refine ⟨s'.head, hnear.drift.emod_eq, ?_⟩
    rw [← hs']
    exact hfails (current?_eq_none_iff.mpr (hnear.drift.not_onTape hfar))
  · -- from the look on, output is only added
    intro view hview e t hend
    rw [Program.ends_iff_runs hshrunk hq, hlead] at hend
    rcases hend with ⟨m, hrest⟩
    rw [← hnear.writer]
    exact hrest.grows hview

/-- A list that prints, and whose two moves do not add up in 32 bits: the
program fails at 2³¹, the shrunk one at −2³¹, and both have printed. -/
theorem long_moves_look_off_tape :
    ∃ p q, Program.ofInstructions [.add 1, .print, .move 2147483647, .move 1, .print] = .ok p ∧
      Program.ofInstructions (Peephole.shrink [.add 1, .print, .move 2147483647, .move 1,
        .print]) = .ok q ∧
      ∃ s : State Sink, p.Ends {} (.offTape 2147483648) s ∧ s.writer.bytes = #[1] ∧
        ∃ head', head'.toInt % 2 ^ 32 = 2147483648 ∧
          q.Ends {} (.offTape head') { s with head := head' } := by
  have hp : Program.ofInstructions [.add 1, .print, .move 2147483647, .move 1, .print] =
      .ok ⟨#[.add 1, .print, .move 2147483647, .move 1, .print, .halt]⟩ := rfl
  rcases shrunk_run_looks_off_tape hp with ⟨q, hq, hkeep⟩
  have hends : Program.Ends ⟨#[.add 1, .print, .move 2147483647, .move 1, .print, .halt]⟩
      ({} : Sink) (.offTape 2147483648) _ := ⟨5, _, rfl, rfl, rfl⟩
  exact ⟨_, q, hp, hq, _, hends, rfl, (hkeep Sink {} _ _ hends).2.1 (by decide)⟩

/-- The pass can move a failure to another place, and it can even hide it:
two moves by −2³¹ lead off the tape, and add up to a move by 0. -/
theorem long_moves_hide_failure :
    (∃ p q, Program.ofInstructions [.move (-2147483648), .move (-2147483648), .print] = .ok p ∧
      Program.ofInstructions (Peephole.shrink [.move (-2147483648), .move (-2147483648),
        .print]) = .ok q ∧
      (∃ s : State Sink, p.Ends {} (.offTape (-4294967296)) s ∧ s.writer.bytes = #[]) ∧
      (∃ t : State Sink, q.Ends {} .done t ∧ t.writer.bytes = #[0]) ∧
      ¬ ∃ head, ∃ t : State Sink, q.Ends {} (.offTape head) t) ∧
    ∃ p q, Program.ofInstructions [.move 2147483647, .move 1, .print] = .ok p ∧
      Program.ofInstructions (Peephole.shrink [.move 2147483647, .move 1, .print]) = .ok q ∧
      (∃ s : State Sink, p.Ends {} (.offTape 2147483648) s) ∧
      (∃ t : State Sink, q.Ends {} (.offTape (-2147483648)) t) ∧
      ¬ ∃ t : State Sink, q.Ends {} (.offTape 2147483648) t := by
  constructor
  · -- the two moves cancel in the narrow sum, so the run prints and ends
    have hdone : Program.Ends ⟨#[.move 0, .print, .halt]⟩ ({} : Sink) .done _ :=
      ⟨3, _, rfl, rfl, rfl⟩
    refine ⟨_, ⟨#[.move 0, .print, .halt]⟩, rfl, rfl, ⟨_, ⟨3, _, rfl, rfl, rfl⟩, rfl⟩,
      ⟨_, hdone, rfl⟩, ?_⟩
    rintro ⟨head, t, hoff⟩
    cases (hdone.det hoff).1
  · -- the sum wraps round, so the run fails at another head
    have hoff : Program.Ends ⟨#[.move (-2147483648), .print, .halt]⟩ ({} : Sink)
        (.offTape (-2147483648)) _ := ⟨2, _, rfl, rfl, rfl⟩
    refine ⟨_, ⟨#[.move (-2147483648), .print, .halt]⟩, rfl, rfl, ⟨_, 3, _, rfl, rfl, rfl⟩,
      ⟨_, hoff⟩, ?_⟩
    rintro ⟨t, hsame⟩
    have hheads := (hoff.det hsame).1
    revert hheads
    decide

end TapeLang
