import Mathlib.Algebra.Order.Ring.Int
import TapeLang.Proofs.Shrinking
import TapeLang.Proofs.StructuredRun

/-!
# TapeLang.Proofs.ShrunkRun — runs before and after the peephole pass

Distances that are added up in 32 bits may come out wrong, by a multiple of
2³². Whoever looks at the cell under the head finds out: a head that is off
by so much and a head that is not cannot both be on the tape. So a run that
comes to its end has looked at no wrong head.

* `Drift` — how far a head may be off: one move away from a cell;
* `Runs.narrow` — a tidy forest that comes to its end still does so with
  its distances cut, with the same tape and writer;
* `shrink_keeps_finished_runs` — the same for programs, with any step
  limit.
-/

namespace TapeLang

variable {σ : Type}

/-! ## Heads -/

/-- The head is on the tape. -/
def OnTape (head : Int64) : Prop :=
  0 ≤ head.toInt ∧ head.toInt < tapeLength

theorem onTape_of_cell {head : Int64} {i : Fin tapeLength} (h : Tape.cell? head = some i) :
    OnTape head := by
  unfold Tape.cell? at h
  split at h
  · assumption
  · cases h

/-- Off the tape there is no cell. -/
theorem cell?_eq_none_iff {head : Int64} : Tape.cell? head = none ↔ ¬ OnTape head := by
  unfold Tape.cell? OnTape
  split
  · simp_all
  · simp_all

theorem current?_eq_none_iff {s : State σ} : s.current? = none ↔ ¬ OnTape s.head := by
  rw [State.current?, Option.map_eq_none_iff, cell?_eq_none_iff]

/-- The cell under the head has the head's number. -/
theorem cell?_of_toInt {head : Int64} {i : Fin tapeLength} (h : head.toInt = i) :
    Tape.cell? head = some i := by
  have hi := i.isLt
  have htape : 0 ≤ head.toInt ∧ head.toInt < tapeLength := by omega
  unfold Tape.cell?
  rw [dif_pos htape, Option.some_inj, Fin.ext_iff]
  change head.toInt.toNat = i
  omega

theorem onTape_initial (w : σ) : OnTape (State.initial w).head := by
  change OnTape 0
  constructor <;> decide

theorem onTape_of_current {s : State σ} {v : Int8} (h : s.current? = some v) :
    OnTape s.head := by
  rcases Option.map_eq_some_iff.mp h with ⟨i, hi, _⟩
  exact onTape_of_cell hi

/-- The head `wide` is one move away from a cell, and `short` is as far
away from it as the move says with its distance cut. -/
def Drift (wide short : Int64) : Prop :=
  ∃ cell k, OnTape cell ∧ wide = cell + k ∧ short = cell + narrowed k

theorem toInt_narrowed (k : Int64) : (narrowed k).toInt = k.toInt.bmod (2 ^ 32) := by
  simp [narrowed, Int64.toInt_toInt32, Int32.toInt_toInt64]

/-- A distance that fits into 32 bits is not changed. -/
theorem narrowed_eq_self {k : Int64} (hlow : -2 ^ 31 ≤ k.toInt) (hhigh : k.toInt < 2 ^ 31) :
    narrowed k = k := by
  apply Int64.toInt_inj.mp
  rw [toInt_narrowed]
  exact Int.bmod_eq_of_le (by omega) (by omega)

/-- The head can be reached from every cell by a distance of 32 bits. -/
def InSight (head : Int64) : Prop :=
  (tapeLength : Int) - 1 - 2 ^ 31 ≤ head.toInt ∧ head.toInt < 2 ^ 31

theorem OnTape.inSight {head : Int64} (h : OnTape head) : InSight head := by
  unfold OnTape at h
  unfold InSight tapeLength at *
  omega

/-- What is in sight is a short distance apart from a cell. -/
theorem narrowed_of_inSight {cell k : Int64} (hcell : OnTape cell) (hmoved : InSight (cell + k)) :
    narrowed k = k := by
  have hlow := k.le_toInt
  have hhigh := k.toInt_lt
  unfold OnTape tapeLength at hcell
  unfold InSight tapeLength at hmoved
  -- a sum that wraps around ends far from the tape
  rw [Int64.toInt_add, Int.bmod_def] at hmoved
  apply narrowed_eq_self
  · split at hmoved <;> omega
  · split at hmoved <;> omega

/-- The low half of a sum. -/
theorem toInt_add_emod (a b : Int64) :
    (a + b).toInt % 2 ^ 32 = (a.toInt + b.toInt) % 2 ^ 32 := by
  have hword : (a + b).toInt % 2 ^ 64 = (a.toInt + b.toInt) % 2 ^ 64 := by
    rw [Int64.toInt_add]
    exact Int.bmod_emod
  omega

namespace Drift

theorem refl {cell : Int64} (hcell : OnTape cell) : Drift cell cell :=
  ⟨cell, 0, hcell, by simp, by simp [narrowed]⟩

/-- In sight of the tape there is no drift. -/
theorem eq_of_inSight {wide short : Int64} (h : Drift wide short) (hwide : InSight wide) :
    short = wide := by
  rcases h with ⟨cell, k, hcell, rfl, rfl⟩
  rw [narrowed_of_inSight hcell hwide]

/-- Heads drift by multiples of 2³². -/
theorem emod_eq {wide short : Int64} (h : Drift wide short) :
    short.toInt % 2 ^ 32 = wide.toInt % 2 ^ 32 := by
  rcases h with ⟨cell, k, hcell, rfl, rfl⟩
  have hcut : (narrowed k).toInt % 2 ^ 32 = k.toInt % 2 ^ 32 := by
    rw [toInt_narrowed]
    exact Int.bmod_emod
  rw [toInt_add_emod, toInt_add_emod, Int.add_emod, hcut, ← Int.add_emod]

end Drift

/-! ## Runs with distances cut -/

/-- Two states that differ in the head only, and there by a drift. -/
structure Near (wide short : State σ) : Prop where
  tape : short.tape = wide.tape
  writer : short.writer = wide.writer
  drift : Drift wide.head short.head

theorem Near.refl {s : State σ} (hs : OnTape s.head) : Near s s :=
  ⟨rfl, rfl, Drift.refl hs⟩

theorem Near.eq_of_inSight {s t : State σ} (h : Near s t) (hs : InSight s.head) : t = s := by
  have hhead := h.drift.eq_of_inSight hs
  rcases s with ⟨tape, head, writer⟩
  rcases t with ⟨tape', head', writer'⟩
  cases h.tape
  cases h.writer
  cases hhead
  rfl

theorem Near.eq_of_onTape {s t : State σ} (h : Near s t) (hs : OnTape s.head) : t = s :=
  h.eq_of_inSight hs.inSight

/-- Whoever finds a cell under the head has not drifted. -/
theorem Near.of_current {s t : State σ} {v : Int8} (h : Near s t) (hcell : s.current? = some v) :
    OnTape s.head ∧ t = s := by
  have hs := onTape_of_current hcell
  exact ⟨hs, h.eq_of_onTape hs⟩

/-- A move from the tape leads near to where the same move leads with its
distance cut. -/
theorem Near.advance {s : State σ} (hs : OnTape s.head) (k : Int64) :
    Near (s.advance k) (s.advance (narrowed k)) :=
  ⟨rfl, rfl, s.head, k, hs, rfl, rfl⟩

/-- The same outcome in another state. -/
def Outcome.within (o : Outcome σ) (t : State σ) : Outcome σ :=
  match o with
  | .next _ => .next t
  | .stop e _ => .stop e t

/-- Parts of a tidy forest are tidy. -/
theorem Tidy.tail {t : Tree} {trees : List Tree} (h : Tidy (t :: trees)) : Tidy trees := by
  refine ⟨?_, h.chain.tail⟩
  intro u hu
  exact h.each u (List.mem_cons_of_mem t hu)

theorem Tidy.body {body trees : List Tree} (h : Tidy (.loop body :: trees)) : Tidy body := by
  have hloop := h.each _ List.mem_cons_self
  cases hloop with
  | loop hbody hchain => exact ⟨hbody, hchain⟩

/-- No move follows a move. -/
theorem Tidy.not_move_move {a b : Int64} {trees : List Tree} :
    ¬ Tidy (.leaf (.move a) :: .leaf (.move b) :: trees) := by
  intro h
  have hpair := (List.isChain_cons_cons.mp h.chain).1
  cases hpair

section

variable [Writer σ]

/-- A leaf that is no move looks at the cell under the head, and leaves the
head there. -/
theorem Leaf.onTape_of_next {op : Leaf} {s s' : State σ} (hop : ∀ k, op ≠ .move k)
    (hact : op.act s = .next s') : OnTape s.head ∧ s'.head = s.head := by
  cases op with
  | move k => exact absurd rfl (hop k)
  | add n =>
      -- an act on a cell goes on only if there is a cell
      rcases State.onCell_cases hact with ⟨i, hi, hput⟩ | hoff
      · cases hput
        exact ⟨onTape_of_cell hi, rfl⟩
      · cases hoff
  | set v =>
      rcases State.onCell_cases hact with ⟨i, hi, hput⟩ | hoff
      · cases hput
        exact ⟨onTape_of_cell hi, rfl⟩
      · cases hoff
  | print =>
      rcases State.onCell_cases hact with ⟨i, hi, hprint⟩ | hoff
      · refine ⟨onTape_of_cell hi, ?_⟩
        split at hprint <;> cases hprint
        rfl
      · cases hoff
  | read => cases hact
  | halt => cases hact

/-- Only `halt` ends a run well, and it does so wherever the head is. -/
theorem Leaf.eq_halt_of_done {op : Leaf} {s s' : State σ}
    (hact : op.act s = .stop .done s') : op = .halt ∧ s' = s := by
  cases op with
  | halt =>
      cases hact
      exact ⟨rfl, rfl⟩
  | move k => cases hact
  | read => cases hact
  | add n =>
      -- an act on a cell goes on or fails
      rcases State.onCell_cases hact with ⟨i, _, hput⟩ | hoff
      · cases hput
      · cases hoff
  | set v =>
      rcases State.onCell_cases hact with ⟨i, _, hput⟩ | hoff
      · cases hput
      · cases hoff
  | print =>
      rcases State.onCell_cases hact with ⟨i, _, hprint⟩ | hoff
      · split at hprint <;> cases hprint
      · cases hoff

theorem Tree.narrow_leaf {op : Leaf} (hop : ∀ k, op ≠ .move k) :
    (Tree.leaf op).narrow = .leaf op := by
  cases op with
  | move k => exact absurd rfl (hop k)
  | _ => simp [Tree.narrow]

/-- One leaf with its distance cut. A move starts on the tape, and between
it and the next move somebody looks at the cell under the head. -/
theorem Leaf.narrow_next {op : Leaf} {rest : List Tree} {s s' s₁ : State σ}
    (hact : op.act s = .next s₁) (htidy : Tidy (.leaf op :: rest)) (hnear : Near s s')
    (hstart : ∀ k rest', .leaf op :: rest = .leaf (.move k) :: rest' → OnTape s.head) :
    ∃ op' s₁', (Tree.leaf op).narrow = .leaf op' ∧ op'.act s' = .next s₁' ∧ Near s₁ s₁' ∧
      ∀ k rest', rest = .leaf (.move k) :: rest' → OnTape s₁.head := by
  by_cases hop : ∃ k, op = .move k
  · -- a move
    rcases hop with ⟨k, rfl⟩
    have hs := hstart k rest rfl
    have hsame := hnear.eq_of_onTape hs
    subst hsame
    cases hact
    refine ⟨.move (narrowed k), _, by rw [Tree.narrow], rfl, Near.advance hs k, ?_⟩
    intro k' rest' heq
    subst heq
    exact absurd htidy Tidy.not_move_move
  · -- a leaf that looks
    have hop' : ∀ k, op ≠ .move k := not_exists.mp hop
    rcases Leaf.onTape_of_next hop' hact with ⟨hs, hhead⟩
    have hsame := hnear.eq_of_onTape hs
    subst hsame
    have hs₁ : OnTape s₁.head := by
      rw [hhead]
      exact hs
    exact ⟨op, s₁, Tree.narrow_leaf hop', hact, Near.refl hs₁, fun _ _ _ => hs₁⟩

/-- A tidy forest that comes to its end does so with its distances cut. The
induction is on the run. -/
theorem Runs.narrow {trees : List Tree} {s s' : State σ} {n : Nat} {o : Outcome σ}
    (h : Runs trees s n o) (htidy : Tidy trees) (hend : o.ending = .done) (hnear : Near s s')
    (hstart : ∀ k rest, trees = .leaf (.move k) :: rest → OnTape s.head) :
    ∃ t, Near o.state t ∧ Runs (narrow trees) s' n (o.within t) := by
  induction h generalizing s' with
  | nil s =>
      refine ⟨s', hnear, ?_⟩
      rw [narrow_nil]
      exact Runs.nil s'
  | @leafNext op rest s s₁ n o hact _ ih =>
      rcases Leaf.narrow_next hact htidy hnear hstart with ⟨op', s₁', hop, hact', hnear', hrest⟩
      rcases ih htidy.tail hend hnear' hrest with ⟨t, ht, hruns⟩
      refine ⟨t, ht, ?_⟩
      rw [narrow_cons, hop]
      exact Runs.leafNext hact' hruns
  | @leafStop op rest s s₁ e hact =>
      have hdone : e = .done := hend
      subst hdone
      rcases Leaf.eq_halt_of_done hact with ⟨rfl, rfl⟩
      -- `halt` does not look at the cell, so a drift may be left
      refine ⟨s', hnear, ?_⟩
      rw [narrow_cons, Tree.narrow_leaf (by simp)]
      exact Runs.leafStop rfl
  | seekOff hcell => cases hend
  | @seekDone k rest s n o hcell _ ih =>
      rcases hnear.of_current hcell with ⟨hs, rfl⟩
      rcases ih htidy.tail hend hnear (fun _ _ _ => hs) with ⟨t, ht, hruns⟩
      refine ⟨t, ht, ?_⟩
      rw [narrow_cons, Tree.narrow]
      exact Runs.seekDone hcell hruns
  | @seekMore k rest s v n o hcell hv _ ih =>
      rcases hnear.of_current hcell with ⟨hs, rfl⟩
      rcases ih htidy hend (Near.advance hs k) (by simp) with ⟨t, ht, hruns⟩
      refine ⟨t, ht, ?_⟩
      rw [narrow_cons, Tree.narrow] at hruns ⊢
      exact Runs.seekMore hcell hv hruns
  | loopOff hcell => cases hend
  | @loopDone body rest s n o hcell _ ih =>
      rcases hnear.of_current hcell with ⟨hs, rfl⟩
      rcases ih htidy.tail hend hnear (fun _ _ _ => hs) with ⟨t, ht, hruns⟩
      refine ⟨t, ht, ?_⟩
      rw [narrow_cons, Tree.narrow]
      exact Runs.loopDone hcell hruns
  | @loopMore body rest s s₁ v n m o hcell hv _ _ ihbody ihagain =>
      rcases hnear.of_current hcell with ⟨hs, rfl⟩
      -- a round may end with a drift, which the test behind it excludes
      rcases ihbody htidy.body rfl hnear (fun _ _ _ => hs) with ⟨t₁, ht₁, hround⟩
      rcases ihagain htidy hend ht₁ (by simp) with ⟨t, ht, hruns⟩
      refine ⟨t, ht, ?_⟩
      rw [narrow_cons, Tree.narrow] at hruns ⊢
      exact Runs.loopMore hcell hv hround hruns
  | @loopStop body rest s s₁ v n e hcell hv _ ihbody =>
      rcases hnear.of_current hcell with ⟨hs, rfl⟩
      rcases ihbody htidy.body hend hnear (fun _ _ _ => hs) with ⟨t, ht, hround⟩
      refine ⟨t, ht, ?_⟩
      rw [narrow_cons, Tree.narrow]
      exact Runs.loopStop hcell hv hround

end

/-! ## Finished runs -/

theorem Tidy.append_halt {trees : List Tree} (h : Tidy trees) :
    Tidy (trees ++ [.leaf .halt]) := by
  constructor
  · intro t ht
    rcases List.mem_append.mp ht with hold | hnew
    · exact h.each t hold
    · rw [List.mem_singleton.mp hnew]
      exact Tree.Tidy.leaf _
  · refine List.isChain_append.mpr ⟨h.chain, by simp, ?_⟩
    -- nothing merges with a `halt`
    intro t _ u hu
    have hhalt : u = .leaf .halt := by simpa using hu.symm
    rw [hhalt]
    unfold Tree.merge?
    split <;> simp_all

theorem narrow_append_halt (trees : List Tree) :
    narrow (trees ++ [.leaf .halt]) = narrow trees ++ [.leaf .halt] := by
  rw [narrow_append, narrow_cons, narrow_nil, Tree.narrow_leaf (by simp)]

/-- A result without a failure. -/
theorem Result.eq_finished_iff {r : Result σ} {s : State σ} :
    r = ⟨none, s⟩ ↔ r.ending? = some .done ∧ r.state = s := by
  rcases r with ⟨failure, state⟩
  rcases failure with _ | cause
  · simp [Result.ending?]
  · cases cause <;> simp [Result.ending?]

section

variable [Writer σ]

/-- A run with a step limit ends by itself exactly if the program halts
within the limit. -/
theorem Program.runWithin_ending_iff {p : Program} {m : Nat} {w : σ} {e : Ending} {s : State σ} :
    (p.runWithin m w).ending? = some e ∧ (p.runWithin m w).state = s ↔
      p.Halts m 0 (State.initial w) e s := by
  unfold Program.runWithin Program.Halts
  cases p.runFor m 0 (State.initial w) with
  | running ip t => simp [Result.ending?]
  | ended r => simp

/-- A run finishes exactly if the program comes to its end within the limit,
or within the fuel if there is none. -/
theorem Program.run?_finished_iff {p : Program} {limit : Option Nat} {fuel : Nat} {w : σ}
    {s : State σ} :
    p.run? limit fuel w = some ⟨none, s⟩ ↔
      p.Halts (limit.getD fuel) 0 (State.initial w) .done s := by
  cases limit with
  | some m =>
      -- the limit alone decides how far the run goes
      have hwithin : p.run? (some m) fuel w = some (p.runWithin m w) := rfl
      rw [hwithin, Option.some_inj, Result.eq_finished_iff]
      exact Program.runWithin_ending_iff
  | none =>
      rw [Program.run?_none_eq_some_iff]
      constructor
      · intro hrun
        exact ⟨_, hrun, rfl, rfl⟩
      · rintro ⟨r, hrun, hdone⟩
        rw [← Result.eq_finished_iff.mpr hdone]
        exact hrun

/-- The forest of a shrunk list comes to its end if the forest of the list
does, in no more steps and near the same state. -/
theorem Runs.shrunk {trees : List Tree} {w : σ} {n : Nat} {s : State σ}
    (h : Runs (trees ++ [.leaf .halt]) (State.initial w) n (.stop .done s)) :
    ∃ m t, m ≤ n ∧ Near s t ∧
      Runs (TapeLang.narrow (squeeze trees) ++ [.leaf .halt]) (State.initial w) m
        (.stop .done t) := by
  have hsqueeze : Tightens σ (trees ++ [.leaf .halt]) (squeeze trees ++ [.leaf .halt]) :=
    (tightens_squeeze trees).append (Tightens.refl _)
  rcases hsqueeze.fewer h with ⟨m, hm, hruns⟩
  have hzero := onTape_initial w
  rcases hruns.narrow (squeeze_tidy trees).append_halt rfl (Near.refl hzero)
    (fun _ _ _ => hzero) with ⟨t, ht, hcut⟩
  rw [narrow_append_halt] at hcut
  exact ⟨m, t, hm, ht, hcut⟩

end

/-- **Shrinking keeps finished runs.** What can be linked can be linked
after the pass. If the program comes to its end, printing to any writer
and with any step limit or none, so does the shrunk one with the same
limit. It leaves the same tape and the same writer, and a head that differs
by a multiple of 2³² if at all. -/
theorem shrink_keeps_finished_runs {ops : List Instruction} {p : Program}
    (hp : Program.ofInstructions ops = .ok p) :
    ∃ q, Program.ofInstructions (Peephole.shrink ops) = .ok q ∧
      ∀ (σ : Type) [Writer σ] (w : σ) (limit : Option Nat) (fuel : Nat) (s : State σ),
        p.run? limit fuel w = some ⟨none, s⟩ →
        ∃ s', q.run? limit fuel w = some ⟨none, s'⟩ ∧ s'.tape = s.tape ∧
          s'.writer = s.writer ∧ s'.head.toInt % 2 ^ 32 = s.head.toInt % 2 ^ 32 := by
  rcases (ofInstructions_isOk_iff.mp ⟨p, hp⟩).nests with ⟨trees, hnests⟩
  rcases ofInstructions_isOk_iff.mpr hnests.shrink.balanced with ⟨q, hq⟩
  refine ⟨q, hq, ?_⟩
  intro σ _ w limit fuel s hrun
  rw [Program.run?_finished_iff] at hrun
  rcases (halts_iff_runs hnests hp).mp hrun with ⟨n, hn, hruns⟩
  rcases hruns.shrunk with ⟨m, t, hm, hnear, hshrunk⟩
  refine ⟨t, ?_, hnear.tape, hnear.writer, hnear.drift.emod_eq⟩
  rw [Program.run?_finished_iff]
  exact (halts_iff_runs hnests.shrink hq).mpr ⟨m, by omega, hshrunk⟩

/-- The lists of `+[-]` and of two moves whose distances do not add up in 32
bits: the heads differ at the end, by 2³². -/
theorem long_moves_keep_finished_run :
    ∃ p q, Program.ofInstructions [.add 1, .loopOpen 0, .add (-1), .loopClose 0,
        .move 2147483647, .move 1] = .ok p ∧
      Program.ofInstructions (Peephole.shrink [.add 1, .loopOpen 0, .add (-1), .loopClose 0,
        .move 2147483647, .move 1]) = .ok q ∧
      ∃ s s' : State Sink, p.run? (some 7) 0 {} = some ⟨none, s⟩ ∧
        q.run? (some 7) 0 {} = some ⟨none, s'⟩ ∧ s'.tape = s.tape ∧ s'.writer = s.writer ∧
        s'.head.toInt % 2 ^ 32 = s.head.toInt % 2 ^ 32 ∧ s.head = 2147483648 := by
  have hp : Program.ofInstructions [.add 1, .loopOpen 0, .add (-1), .loopClose 0,
      .move 2147483647, .move 1] = .ok ⟨#[.add 1, .loopOpen 3, .add (-1), .loopClose 1,
      .move 2147483647, .move 1, .halt]⟩ := rfl
  rcases shrink_keeps_finished_runs hp with ⟨q, hq, hkeep⟩
  have hrun : Program.run? ⟨#[.add 1, .loopOpen 3, .add (-1), .loopClose 1,
      .move 2147483647, .move 1, .halt]⟩ (some 7) 0 ({} : Sink) = some ⟨none, _⟩ := rfl
  rcases hkeep Sink {} (some 7) 0 _ hrun with ⟨s', hrun', htape, hwriter, hhead⟩
  exact ⟨_, q, hp, hq, _, s', hrun, hrun', htape, hwriter, hhead, rfl⟩

end TapeLang
