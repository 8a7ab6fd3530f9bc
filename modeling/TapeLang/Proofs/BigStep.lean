import TapeLang.Machine
import TapeLang.Proofs.Nesting

/-!
# TapeLang.Proofs.BigStep — running a forest of loops

What a forest does, said without indices and jumps. `Runs trees s n o`: the
forest `trees`, started in `s`, makes `n` counted steps and then has the
outcome `o`. Either it comes to its end (`Outcome.next`), or something in
it ends the whole run (`Outcome.stop`). A forest that goes on for ever has
no outcome.

A loop tests the current cell before each round and repeats its body while
the cell is not zero. Each test is one counted step, and so is each leaf
and each test of a search.

The main statements are `Runs.det` (there is at most one outcome, after one
number of steps), and `Runs.append` with its converse `Runs.split`.
-/

namespace TapeLang

variable {σ : Type}

/-! ## Endings and outcomes -/

/-- How a run ends by itself. The index of the instruction that ended it is
left out. -/
inductive Ending where
  | done
  | unsupported
  | offTape (head : Int64)
  | output (cause : String)
deriving DecidableEq, Repr

/-- What a run reports that is ended so by the instruction at `ip`. -/
def Ending.failure (ip : Nat) : Ending → Option RuntimeError
  | .done => none
  | .unsupported => some (.unsupported ⟨ip⟩)
  | .offTape head => some (.offTape head ip)
  | .output cause => some (.output cause)

/-- How a run ended by itself, unless a step limit cut it off. -/
def Result.ending? (r : Result σ) : Option Ending :=
  match r.failure with
  | none => some .done
  | some (.unsupported _) => some .unsupported
  | some (.offTape head _) => some (.offTape head)
  | some (.output cause) => some (.output cause)
  | some (.stepLimit _) => none

@[simp] theorem Ending.ending?_failure (e : Ending) (ip : Nat) (s : State σ) :
    (Result.mk (e.failure ip) s).ending? = some e := by
  cases e <;> rfl

/-- What becomes of a forest that is run. -/
inductive Outcome (σ : Type) where
  /-- It came to its end, and what stands behind it is next. -/
  | next (state : State σ)
  /-- It ended the run. -/
  | stop (ending : Ending) (state : State σ)

/-! ## Leaves -/

namespace State

/-- The head moved by the distance `k`. -/
def advance (s : State σ) (k : Int64) : State σ :=
  { s with head := s.head + k }

/-- The value of the current cell, if the head is on the tape. -/
def current? (s : State σ) : Option Int8 :=
  (Tape.cell? s.head).map s.tape.get

/-- Goes on with the cell under the head, or stops if there is none. -/
def onCell (s : State σ) (act : Fin tapeLength → Outcome σ) : Outcome σ :=
  match Tape.cell? s.head with
  | some i => act i
  | none => .stop (.offTape s.head) s

/-- What acts on the current cell finds one, or stops. -/
theorem onCell_cases {s : State σ} {act : Fin tapeLength → Outcome σ} {o : Outcome σ}
    (h : s.onCell act = o) :
    (∃ i, Tape.cell? s.head = some i ∧ act i = o) ∨ o = .stop (.offTape s.head) s := by
  unfold onCell at h
  cases hcell : Tape.cell? s.head with
  | some i =>
      rw [hcell] at h
      exact Or.inl ⟨i, rfl, h⟩
  | none =>
      rw [hcell] at h
      exact Or.inr h.symm

/-- What acts on the current cell stops if there is none. -/
theorem onCell_of_current {s : State σ} (h : s.current? = none)
    (act : Fin tapeLength → Outcome σ) : s.onCell act = .stop (.offTape s.head) s := by
  have hcell : Tape.cell? s.head = none := Option.map_eq_none_iff.mp h
  unfold onCell
  rw [hcell]

/-- Where only the look at the current cell can fail off the tape, there was
no cell. -/
theorem offTape_of_onCell {s t : State σ} {act : Fin tapeLength → Outcome σ} {head : Int64}
    (hact : ∀ i head t, act i ≠ .stop (.offTape head) t)
    (h : s.onCell act = .stop (.offTape head) t) : s.current? = none ∧ t = s ∧ head = s.head := by
  cases hcell : Tape.cell? s.head with
  | some i =>
      rw [onCell, hcell] at h
      exact absurd h (hact i head t)
  | none =>
      have hnone : s.current? = none := Option.map_eq_none_iff.mpr hcell
      rw [onCell_of_current hnone] at h
      cases h
      exact ⟨hnone, rfl, rfl⟩

@[simp] theorem put_head (s : State σ) (i : Fin tapeLength) (v : Int8) :
    (s.put i v).head = s.head := rfl

@[simp] theorem get_put (s : State σ) (i : Fin tapeLength) (v : Int8) :
    (s.put i v).tape.get i = v := by
  change (s.tape.set i v)[i.val] = v
  simp

@[simp] theorem put_put (s : State σ) (i : Fin tapeLength) (u v : Int8) :
    (s.put i u).put i v = s.put i v := by
  simp [put]

theorem put_get (s : State σ) (i : Fin tapeLength) : s.put i (s.tape.get i) = s := by
  have htape : s.tape.set i (s.tape.get i) = s.tape := by
    change s.tape.set i s.tape[i.val] = s.tape
    simp
  simp [put, htape]

theorem advance_advance (s : State σ) (a b : Int64) :
    (s.advance a).advance b = s.advance (a + b) := by
  simp [advance, Int64.add_assoc]

end State

/-- What a leaf does. -/
def Leaf.act [Writer σ] (op : Leaf) (s : State σ) : Outcome σ :=
  match op with
  | .move k => .next (s.advance k)
  | .add n => s.onCell fun i => .next (s.put i (s.tape.get i + n.toInt8))
  | .set v => s.onCell fun i => .next (s.put i v.toInt8)
  | .print => s.onCell fun i =>
    match Writer.emit s.writer (s.tape.get i).toUInt8 with
    | (none, w) => .next { s with writer := w }
    | (some cause, w) => .stop (.output cause) { s with writer := w }
  | .read => .stop .unsupported s
  | .halt => .stop .done s

/-! ## Forests -/

/-- `Runs trees s n o`: the forest `trees`, started in `s`, has the outcome
`o` after `n` counted steps. -/
inductive Runs [Writer σ] : List Tree → State σ → Nat → Outcome σ → Prop where
  | nil (s : State σ) : Runs [] s 0 (.next s)
  | leafNext {op : Leaf} {rest : List Tree} {s s' : State σ} {n : Nat} {o : Outcome σ}
      (hact : op.act s = .next s') (hrest : Runs rest s' n o) :
      Runs (.leaf op :: rest) s (n + 1) o
  | leafStop {op : Leaf} {rest : List Tree} {s s' : State σ} {e : Ending}
      (hact : op.act s = .stop e s') : Runs (.leaf op :: rest) s 1 (.stop e s')
  | seekOff {k : Int64} {rest : List Tree} {s : State σ} (hcell : s.current? = none) :
      Runs (.seek k :: rest) s 1 (.stop (.offTape s.head) s)
  | seekDone {k : Int64} {rest : List Tree} {s : State σ} {n : Nat} {o : Outcome σ}
      (hcell : s.current? = some 0) (hrest : Runs rest s n o) :
      Runs (.seek k :: rest) s (n + 1) o
  | seekMore {k : Int64} {rest : List Tree} {s : State σ} {v : Int8} {n : Nat} {o : Outcome σ}
      (hcell : s.current? = some v) (hv : v ≠ 0)
      (hagain : Runs (.seek k :: rest) (s.advance k) n o) :
      Runs (.seek k :: rest) s (n + 1) o
  | loopOff {body rest : List Tree} {s : State σ} (hcell : s.current? = none) :
      Runs (.loop body :: rest) s 1 (.stop (.offTape s.head) s)
  | loopDone {body rest : List Tree} {s : State σ} {n : Nat} {o : Outcome σ}
      (hcell : s.current? = some 0) (hrest : Runs rest s n o) :
      Runs (.loop body :: rest) s (n + 1) o
  | loopMore {body rest : List Tree} {s s' : State σ} {v : Int8} {n m : Nat} {o : Outcome σ}
      (hcell : s.current? = some v) (hv : v ≠ 0) (hbody : Runs body s n (.next s'))
      (hagain : Runs (.loop body :: rest) s' m o) :
      Runs (.loop body :: rest) s (n + m + 1) o
  | loopStop {body rest : List Tree} {s s' : State σ} {v : Int8} {n : Nat} {e : Ending}
      (hcell : s.current? = some v) (hv : v ≠ 0) (hbody : Runs body s n (.stop e s')) :
      Runs (.loop body :: rest) s (n + 1) (.stop e s')

namespace Runs

variable [Writer σ]

/-- A forest has at most one outcome, after one number of steps. -/
theorem det {trees : List Tree} {s : State σ} {n m : Nat} {o o' : Outcome σ}
    (h : Runs trees s n o) (h' : Runs trees s m o') : n = m ∧ o = o' := by
  -- a run is decided by the leaf or by the tested cell, so both take the same constructor
  induction h generalizing m o' with
  | nil s =>
      cases h'
      exact ⟨rfl, rfl⟩
  | leafNext hact _ ih =>
      cases h' with
      | leafNext hact' hrest' =>
          rw [hact] at hact'
          cases hact'
          rcases ih hrest' with ⟨rfl, rfl⟩
          exact ⟨rfl, rfl⟩
      | leafStop hact' =>
          rw [hact] at hact'
          cases hact'
  | leafStop hact =>
      cases h' with
      | leafNext hact' _ =>
          rw [hact] at hact'
          cases hact'
      | leafStop hact' =>
          rw [hact] at hact'
          cases hact'
          exact ⟨rfl, rfl⟩
  | seekOff hcell => cases h' <;> simp_all
  | seekDone hcell _ ih =>
      cases h' with
      | seekOff hcell' => simp_all
      | seekDone _ hrest' =>
          rcases ih hrest' with ⟨rfl, rfl⟩
          exact ⟨rfl, rfl⟩
      | seekMore hcell' hv' _ => simp_all
  | seekMore hcell hv _ ih =>
      cases h' with
      | seekOff hcell' => simp_all
      | seekDone hcell' _ => simp_all
      | seekMore _ _ hagain' =>
          rcases ih hagain' with ⟨rfl, rfl⟩
          exact ⟨rfl, rfl⟩
  | loopOff hcell => cases h' <;> simp_all
  | loopDone hcell _ ih =>
      cases h' with
      | loopOff hcell' => simp_all
      | loopDone _ hrest' =>
          rcases ih hrest' with ⟨rfl, rfl⟩
          exact ⟨rfl, rfl⟩
      | loopMore hcell' hv' _ _ => simp_all
      | loopStop hcell' hv' _ => simp_all
  | loopMore hcell hv _ _ ihbody ihagain =>
      cases h' with
      | loopOff hcell' => simp_all
      | loopDone hcell' _ => simp_all
      | loopMore _ _ hbody' hagain' =>
          rcases ihbody hbody' with ⟨rfl, hs⟩
          cases hs
          rcases ihagain hagain' with ⟨rfl, rfl⟩
          exact ⟨rfl, rfl⟩
      | loopStop _ _ hbody' =>
          rcases ihbody hbody' with ⟨_, hs⟩
          cases hs
  | loopStop hcell hv _ ihbody =>
      cases h' with
      | loopOff hcell' => simp_all
      | loopDone hcell' _ => simp_all
      | loopMore _ _ hbody' _ =>
          rcases ihbody hbody' with ⟨_, hs⟩
          cases hs
      | loopStop _ _ hbody' =>
          rcases ihbody hbody' with ⟨rfl, hs⟩
          cases hs
          exact ⟨rfl, rfl⟩

/-- The number of steps, written in another way. -/
theorem steps_eq {trees : List Tree} {s : State σ} {n m : Nat} {o : Outcome σ}
    (h : Runs trees s n o) (hnm : n = m) : Runs trees s m o := by
  subst hnm
  exact h

/-- Induction over the rounds of a loop with nothing behind it: a test ends
it, or a round ends the run, or a round comes to its end and the loop is run
again. -/
@[elab_as_elim]
theorem loop_induction {body : List Tree}
    {motive : (s : State σ) → (n : Nat) → (o : Outcome σ) → Runs [.loop body] s n o → Prop}
    (off : ∀ {s : State σ} (hcell : s.current? = none), motive s 1 _ (loopOff hcell))
    (done : ∀ {s : State σ} (hcell : s.current? = some 0), motive s 1 _ (loopDone hcell (nil s)))
    (more : ∀ {s s' : State σ} {v : Int8} {n m : Nat} {o : Outcome σ} (hcell : s.current? = some v)
      (hv : v ≠ 0) (hbody : Runs body s n (.next s')) (hagain : Runs [.loop body] s' m o),
      motive s' m o hagain → motive s (n + m + 1) o (loopMore hcell hv hbody hagain))
    (stop : ∀ {s s' : State σ} {v : Int8} {n : Nat} {e : Ending} (hcell : s.current? = some v)
      (hv : v ≠ 0) (hbody : Runs body s n (.stop e s')),
      motive s (n + 1) (.stop e s') (loopStop hcell hv hbody))
    {s : State σ} {n : Nat} {o : Outcome σ} (h : Runs [.loop body] s n o) : motive s n o h := by
  -- only the constructors of a loop can have produced a run of this forest
  suffices hall : ∀ list (hrun : Runs list s n o) (hlist : list = [.loop body]),
      motive s n o (hlist ▸ hrun) by
    exact hall _ h rfl
  clear h
  intro list hrun
  induction hrun with
  | loopOff hcell =>
      rintro ⟨⟩
      exact off hcell
  | loopDone hcell hrest _ =>
      rintro ⟨⟩
      cases hrest
      exact done hcell
  | loopMore hcell hv hbody hagain _ ih =>
      rintro ⟨⟩
      exact more hcell hv hbody hagain (ih rfl)
  | loopStop hcell hv hbody =>
      rintro ⟨⟩
      exact stop hcell hv hbody
  | _ => rintro ⟨⟩

/-- What stands behind a forest is run once the forest has come to its
end. -/
theorem append {xs ys : List Tree} {s s' : State σ} {n m : Nat} {o : Outcome σ}
    (hxs : Runs xs s n (.next s')) (hys : Runs ys s' m o) : Runs (xs ++ ys) s (n + m) o := by
  generalize hout : Outcome.next s' = out at hxs
  -- the front runs through, so the rules that stop it do not apply
  induction hxs with
  | nil s =>
      cases hout
      simpa using hys
  | leafNext hact _ ih => exact (leafNext hact (ih hout)).steps_eq (by omega)
  | leafStop => cases hout
  | seekOff => cases hout
  | seekDone hcell _ ih => exact (seekDone hcell (ih hout)).steps_eq (by omega)
  | seekMore hcell hv _ ih => exact (seekMore hcell hv (ih hout)).steps_eq (by omega)
  | loopOff => cases hout
  | loopDone hcell _ ih => exact (loopDone hcell (ih hout)).steps_eq (by omega)
  | loopMore hcell hv hbody _ _ ih =>
      exact (loopMore hcell hv hbody (ih hout)).steps_eq (by omega)
  | loopStop => cases hout

/-- What stands behind a forest that ends the run is not reached. -/
theorem append_stop {xs : List Tree} (ys : List Tree) {s s' : State σ} {n : Nat} {e : Ending}
    (hxs : Runs xs s n (.stop e s')) : Runs (xs ++ ys) s n (.stop e s') := by
  generalize hout : Outcome.stop e s' = out at hxs ⊢
  -- the rule that stops the front stops the whole
  induction hxs with
  | nil => cases hout
  | leafNext hact _ ih => exact leafNext hact (ih hout)
  | leafStop hact => exact leafStop hact
  | seekOff hcell => exact seekOff hcell
  | seekDone hcell _ ih => exact seekDone hcell (ih hout)
  | seekMore hcell hv _ ih => exact seekMore hcell hv (ih hout)
  | loopOff hcell => exact loopOff hcell
  | loopDone hcell _ ih => exact loopDone hcell (ih hout)
  | loopMore hcell hv hbody _ _ ih => exact loopMore hcell hv hbody (ih hout)
  | loopStop hcell hv hbody => exact loopStop hcell hv hbody

/-- A run of a tree and a rest is a run of the tree that ends the whole, or
one that comes to its end and a run of the rest. -/
theorem split_cons {x : Tree} {rest : List Tree} {s : State σ} {n : Nat} {o : Outcome σ}
    (h : Runs (x :: rest) s n o) :
    (∃ e s', o = .stop e s' ∧ Runs [x] s n o) ∨
      ∃ k m s', n = k + m ∧ Runs [x] s k (.next s') ∧ Runs rest s' m o := by
  generalize hlist : x :: rest = list at h
  induction h with
  | nil => cases hlist
  | leafNext hact hrest _ =>
      cases hlist
      exact Or.inr ⟨1, _, _, Nat.add_comm _ _, leafNext hact (nil _), hrest⟩
  | leafStop hact =>
      cases hlist
      exact Or.inl ⟨_, _, rfl, leafStop hact⟩
  | seekOff hcell =>
      cases hlist
      exact Or.inl ⟨_, _, rfl, seekOff hcell⟩
  | seekDone hcell hrest _ =>
      cases hlist
      exact Or.inr ⟨1, _, _, Nat.add_comm _ _, seekDone hcell (nil _), hrest⟩
  | seekMore hcell hv _ ih =>
      -- the search goes on, and what is left of it is split
      cases hlist
      rcases ih rfl with ⟨e, s', rfl, hx⟩ | ⟨k, m, s', rfl, hx, hrest⟩
      · exact Or.inl ⟨e, s', rfl, seekMore hcell hv hx⟩
      · exact Or.inr ⟨k + 1, m, s', by omega, seekMore hcell hv hx, hrest⟩
  | loopOff hcell =>
      cases hlist
      exact Or.inl ⟨_, _, rfl, loopOff hcell⟩
  | loopDone hcell hrest _ =>
      cases hlist
      exact Or.inr ⟨1, _, _, Nat.add_comm _ _, loopDone hcell (nil _), hrest⟩
  | loopMore hcell hv hbody _ _ ih =>
      -- the body has run once more, and what is left of the loop is split
      cases hlist
      rcases ih rfl with ⟨e, s', rfl, hx⟩ | ⟨k, m, s', rfl, hx, hrest⟩
      · exact Or.inl ⟨e, s', rfl, loopMore hcell hv hbody hx⟩
      · exact Or.inr ⟨_, m, s', by omega, loopMore hcell hv hbody hx, hrest⟩
  | loopStop hcell hv hbody =>
      cases hlist
      exact Or.inl ⟨_, _, rfl, loopStop hcell hv hbody⟩

/-- The same for two forests. -/
theorem split {xs ys : List Tree} {s : State σ} {n : Nat} {o : Outcome σ}
    (h : Runs (xs ++ ys) s n o) :
    (∃ e s', o = .stop e s' ∧ Runs xs s n o) ∨
      ∃ k m s', n = k + m ∧ Runs xs s k (.next s') ∧ Runs ys s' m o := by
  induction xs generalizing s n with
  | nil => exact Or.inr ⟨0, n, s, by omega, nil s, h⟩
  | cons x xs ih =>
      rcases split_cons h with ⟨e, s', rfl, hx⟩ | ⟨k, m, s', rfl, hx, hrest⟩
      · exact Or.inl ⟨e, s', rfl, append_stop xs hx⟩
      · rcases ih hrest with ⟨e, s'', rfl, hxs⟩ | ⟨k', m', s'', rfl, hxs, hys⟩
        · exact Or.inl ⟨e, s'', rfl, append hx hxs⟩
        · exact Or.inr ⟨k + k', m', s'', by omega, append hx hxs, hys⟩

end Runs

end TapeLang
