import TapeLang.Proofs.BigStep

/-!
# TapeLang.Proofs.Tightening — the same in no more steps

`Tightens σ xs ys`: the forest `ys` has exactly the outcomes of `xs`, and
has each of them after at most as many counted steps. In particular `ys`
goes on for ever where `xs` does.

* `Tightens.append` and `Tightens.loop` — it may be applied anywhere in a
  forest;
* `Tightens.of_act` — two leaves that do the work of one;
* `tightens_clear` — taking one off until the cell is zero sets it to zero;
* `tightens_scan` — moving until the cell is zero is a search.
-/

namespace TapeLang

variable {σ : Type} [Writer σ]

/-- `ys` has the outcomes of `xs`, each after at most as many steps, and no
others. -/
structure Tightens (σ : Type) [Writer σ] (xs ys : List Tree) : Prop where
  fewer : ∀ {s : State σ} {n : Nat} {o : Outcome σ},
    Runs xs s n o → ∃ m, m ≤ n ∧ Runs ys s m o
  only : ∀ {s : State σ} {m : Nat} {o : Outcome σ}, Runs ys s m o → ∃ n, Runs xs s n o

namespace Tightens

theorem refl (xs : List Tree) : Tightens σ xs xs where
  fewer h := ⟨_, Nat.le_refl _, h⟩
  only h := ⟨_, h⟩

theorem trans {xs ys zs : List Tree} (h : Tightens σ xs ys) (h' : Tightens σ ys zs) :
    Tightens σ xs zs where
  fewer hxs := by
    rcases h.fewer hxs with ⟨m, hm, hys⟩
    rcases h'.fewer hys with ⟨k, hk, hzs⟩
    exact ⟨k, Nat.le_trans hk hm, hzs⟩
  only hzs := by
    rcases h'.only hzs with ⟨m, hys⟩
    exact h.only hys

theorem append {xs ys xs' ys' : List Tree} (h : Tightens σ xs ys) (h' : Tightens σ xs' ys') :
    Tightens σ (xs ++ xs') (ys ++ ys') where
  fewer hruns := by
    rcases hruns.split with ⟨e, t, rfl, hstop⟩ | ⟨k, m, t, rfl, hnext, hrest⟩
    · rcases h.fewer hstop with ⟨m, hm, hys⟩
      exact ⟨m, hm, hys.append_stop _⟩
    · rcases h.fewer hnext with ⟨k', hk, hys⟩
      rcases h'.fewer hrest with ⟨m', hm, hys'⟩
      exact ⟨k' + m', by omega, hys.append hys'⟩
  only hruns := by
    rcases hruns.split with ⟨e, t, rfl, hstop⟩ | ⟨k, m, t, rfl, hnext, hrest⟩
    · rcases h.only hstop with ⟨n, hxs⟩
      exact ⟨n, hxs.append_stop _⟩
    · rcases h.only hnext with ⟨n, hxs⟩
      rcases h'.only hrest with ⟨n', hxs'⟩
      exact ⟨n + n', hxs.append hxs'⟩

/-- A loop with another body makes the same rounds, if the bodies have the
same outcomes. -/
theorem loop {xs ys : List Tree} (h : Tightens σ xs ys) :
    Tightens σ [.loop xs] [.loop ys] where
  fewer hruns := by
    induction hruns using Runs.loop_induction with
    | off hcell => exact ⟨1, Nat.le_refl 1, Runs.loopOff hcell⟩
    | done hcell => exact ⟨1, Nat.le_refl 1, Runs.loopDone hcell (Runs.nil _)⟩
    | more hcell hv hbody _ ih =>
        -- a round of the one is a round of the other; the rest is by induction
        rcases h.fewer hbody with ⟨k, hk, hys⟩
        rcases ih with ⟨m, hm, hagain⟩
        exact ⟨k + m + 1, by omega, Runs.loopMore hcell hv hys hagain⟩
    | stop hcell hv hbody =>
        rcases h.fewer hbody with ⟨k, hk, hys⟩
        exact ⟨k + 1, by omega, Runs.loopStop hcell hv hys⟩
  only hruns := by
    induction hruns using Runs.loop_induction with
    | off hcell => exact ⟨1, Runs.loopOff hcell⟩
    | done hcell => exact ⟨1, Runs.loopDone hcell (Runs.nil _)⟩
    | more hcell hv hbody _ ih =>
        rcases h.only hbody with ⟨k, hxs⟩
        rcases ih with ⟨m, hagain⟩
        exact ⟨k + m + 1, Runs.loopMore hcell hv hxs hagain⟩
    | stop hcell hv hbody =>
        rcases h.only hbody with ⟨k, hxs⟩
        exact ⟨k + 1, Runs.loopStop hcell hv hxs⟩

end Tightens

/-! ## Two leaves for one -/

/-- The outcome of going on with `act`. -/
def Outcome.bind (o : Outcome σ) (act : State σ → Outcome σ) : Outcome σ :=
  match o with
  | .next s => act s
  | .stop e s => .stop e s

/-- A leaf comes to its end or ends the run, in one step. -/
theorem runs_leaf_iff {op : Leaf} {s : State σ} {n : Nat} {o : Outcome σ} :
    Runs [.leaf op] s n o ↔ n = 1 ∧ op.act s = o := by
  constructor
  · intro h
    cases h with
    | leafNext hact hrest =>
        cases hrest
        exact ⟨rfl, hact⟩
    | leafStop hact => exact ⟨rfl, hact⟩
  · rintro ⟨rfl, hact⟩
    cases o with
    | next t => exact Runs.leafNext hact (Runs.nil t)
    | stop e t => exact Runs.leafStop hact

/-- One leaf may stand for two that do the same one after the other. -/
theorem Tightens.of_act {a b c : Leaf} (h : ∀ s : State σ, (a.act s).bind b.act = c.act s) :
    Tightens σ [.leaf a, .leaf b] [.leaf c] where
  fewer {s n o} hruns := by
    rcases hruns.split_cons with ⟨e, t, rfl, hstop⟩ | ⟨k, m, t, rfl, hnext, hrest⟩
    · rcases runs_leaf_iff.mp hstop with ⟨rfl, hact⟩
      have hc := h s
      rw [hact] at hc
      exact ⟨1, Nat.le_refl 1, runs_leaf_iff.mpr ⟨rfl, hc.symm⟩⟩
    · rcases runs_leaf_iff.mp hnext with ⟨rfl, hact⟩
      rcases runs_leaf_iff.mp hrest with ⟨rfl, hact'⟩
      have hc := h s
      rw [hact, Outcome.bind, hact'] at hc
      exact ⟨1, by omega, runs_leaf_iff.mpr ⟨rfl, hc.symm⟩⟩
  only {s n o} hruns := by
    rcases runs_leaf_iff.mp hruns with ⟨rfl, hact⟩
    rw [← h s] at hact
    cases ha : a.act s with
    | next t =>
        rw [ha, Outcome.bind] at hact
        exact ⟨2, Runs.leafNext ha (runs_leaf_iff.mpr ⟨rfl, hact⟩)⟩
    | stop e t =>
        -- where the first of the pair stops, the second is not reached
        rw [ha, Outcome.bind] at hact
        cases hact
        exact ⟨1, Runs.leafStop ha⟩

theorem tightens_moves (a b : Int64) :
    Tightens σ [.leaf (.move a), .leaf (.move b)] [.leaf (.move (a + b))] := by
  apply Tightens.of_act
  intro s
  simp only [Leaf.act, Outcome.bind, State.advance_advance]

theorem tightens_adds (a b : Int32) :
    Tightens σ [.leaf (.add a), .leaf (.add b)] [.leaf (.add (a + b))] := by
  apply Tightens.of_act
  intro s
  simp only [Leaf.act, State.onCell]
  cases hcell : Tape.cell? s.head with
  | none => rfl
  | some i => simp [Outcome.bind, Leaf.act, State.onCell, hcell, Int8.add_assoc]

theorem tightens_set_add (v m : Int32) :
    Tightens σ [.leaf (.set v), .leaf (.add m)] [.leaf (.set (v + m))] := by
  apply Tightens.of_act
  intro s
  simp only [Leaf.act, State.onCell]
  cases hcell : Tape.cell? s.head with
  | none => rfl
  | some i => simp [Outcome.bind, Leaf.act, State.onCell, hcell]

/-! ## Loops of one leaf -/

/-- One less than a byte that is not zero is a smaller byte. -/
theorem byte_pred_lt {v : Int8} (hv : v ≠ 0) :
    (v + (-1 : Int32).toInt8).toUInt8.toNat < v.toUInt8.toNat := by
  have hpos : v.toUInt8.toNat ≠ 0 := by
    intro hzero
    apply hv
    have hbyte : v.toUInt8 = 0 := UInt8.toNat_inj.mp hzero
    simpa using congrArg UInt8.toInt8 hbyte
  have hlt : v.toUInt8.toNat < 256 := UInt8.toNat_lt _
  have hsum : (v + (-1 : Int32).toInt8).toUInt8 = v.toUInt8 + 255 := by
    rw [Int8.toUInt8_add]
    rfl
  have htop : (255 : UInt8).toNat = 255 := rfl
  rw [hsum, UInt8.toNat_add]
  omega

/-- Taking one off until the cell is zero comes to an end with a zero in
the cell. The induction is on the value of the cell, read as a byte: it
goes down in each round, since only a zero would wrap. -/
theorem runs_clear {s : State σ} {i : Fin tapeLength} (hcell : Tape.cell? s.head = some i) :
    ∃ n, Runs [.loop [.leaf (.add (-1))]] s (n + 1) (.next (s.put i 0)) := by
  generalize hsize : (s.tape.get i).toUInt8.toNat = size
  -- the cell as a byte goes down with every round
  induction size using Nat.strongRecOn generalizing s with
  | ind size ih =>
    have hcur : s.current? = some (s.tape.get i) := by simp [State.current?, hcell]
    by_cases hv : s.tape.get i = 0
    · rw [hv] at hcur
      have hput : s.put i 0 = s := by
        have hget := s.put_get i
        rwa [hv] at hget
      rw [hput]
      exact ⟨0, Runs.loopDone hcur (Runs.nil s)⟩
    · let s' := s.put i (s.tape.get i + (-1 : Int32).toInt8)
      have hround : Runs [.leaf (.add (-1))] s 1 (.next s') := by
        apply runs_leaf_iff.mpr
        refine ⟨rfl, ?_⟩
        simp only [Leaf.act, State.onCell, hcell, s']
      have hless : (s'.tape.get i).toUInt8.toNat < size := by
        rw [← hsize, State.get_put]
        exact byte_pred_lt hv
      rcases ih _ hless (s := s') hcell rfl with ⟨n, hagain⟩
      rw [State.put_put] at hagain
      exact ⟨1 + (n + 1), Runs.loopMore hcur hv hround hagain⟩

theorem tightens_clear :
    Tightens σ [.loop [.leaf (.add (-1))]] [.leaf (.set 0)] where
  fewer {s n o} hruns := by
    cases hcell : Tape.cell? s.head with
    | none =>
        have hoff : s.current? = none := by simp [State.current?, hcell]
        rcases hruns.det (Runs.loopOff hoff) with ⟨rfl, rfl⟩
        refine ⟨1, Nat.le_refl 1, runs_leaf_iff.mpr ⟨rfl, ?_⟩⟩
        simp [Leaf.act, State.onCell, hcell]
    | some i =>
        -- the loop has one outcome only, and that is known
        rcases runs_clear hcell with ⟨k, hclear⟩
        rcases hruns.det hclear with ⟨rfl, rfl⟩
        refine ⟨1, by omega, runs_leaf_iff.mpr ⟨rfl, ?_⟩⟩
        simp [Leaf.act, State.onCell, hcell]
  only {s n o} hruns := by
    rcases runs_leaf_iff.mp hruns with ⟨rfl, hact⟩
    simp only [Leaf.act, State.onCell] at hact
    cases hcell : Tape.cell? s.head with
    | none =>
        rw [hcell] at hact
        have hoff : s.current? = none := by simp [State.current?, hcell]
        subst hact
        exact ⟨1, Runs.loopOff hoff⟩
    | some i =>
        rw [hcell] at hact
        subst hact
        rcases runs_clear hcell with ⟨k, hclear⟩
        exact ⟨k + 1, hclear⟩

theorem tightens_scan (k : Int64) : Tightens σ [.loop [.leaf (.move k)]] [.seek k] where
  fewer hruns := by
    induction hruns using Runs.loop_induction with
    | off hcell => exact ⟨1, Nat.le_refl 1, Runs.seekOff hcell⟩
    | done hcell => exact ⟨1, Nat.le_refl 1, Runs.seekDone hcell (Runs.nil _)⟩
    | more hcell hv hbody _ ih =>
        rcases runs_leaf_iff.mp hbody with ⟨rfl, hact⟩
        cases hact
        rcases ih with ⟨m, hm, hagain⟩
        exact ⟨m + 1, by omega, Runs.seekMore hcell hv hagain⟩
    | stop hcell hv hbody =>
        -- a move does not end a run
        rcases runs_leaf_iff.mp hbody with ⟨_, hact⟩
        cases hact
  only hruns := by
    generalize hlist : [Tree.seek k] = list at hruns
    induction hruns with
    | seekOff hcell =>
        cases hlist
        exact ⟨1, Runs.loopOff hcell⟩
    | seekDone hcell hrest _ =>
        cases hlist
        exact ⟨_, Runs.loopDone hcell hrest⟩
    | seekMore hcell hv _ ih =>
        cases hlist
        rcases ih rfl with ⟨m, hagain⟩
        exact ⟨1 + m + 1, Runs.loopMore hcell hv (runs_leaf_iff.mpr ⟨rfl, rfl⟩) hagain⟩
    | _ => cases hlist

end TapeLang
