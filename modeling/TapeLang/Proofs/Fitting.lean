import TapeLang.Proofs.Commands
import TapeLang.Proofs.ShrunkRun

/-!
# TapeLang.Proofs.Fitting — lists whose moves add up

The peephole pass adds up the operands of consecutive moves in 32 bits. In
a list in which every such sum fits into 32 bits, nothing is cut, and the
shrunk program does all that the program does: it also fails where the
program fails, and it goes on for ever if the program does.

* `MovesFit` — every block of consecutive moves has a sum that fits;
* `narrow_squeeze_of_fits` — then squeezing leaves no distance to cut;
* `shrink_ends_alike` — the programs before and after the pass.
-/

namespace TapeLang

/-! ## Blocks of moves -/

/-- The numbers of a 32-bit word. -/
def InRange (x : Int) : Prop :=
  -2 ^ 31 ≤ x ∧ x < 2 ^ 31

/-- The offsets of every block of consecutive moves that is as long as it
can be have a sum of 32 bits. -/
def MovesFit (ops : List Instruction) : Prop :=
  ∀ (before after : List Instruction) (offsets : List Int32),
    ops = before ++ offsets.map .move ++ after →
    (∀ n, before.getLast? ≠ some (.move n)) → (∀ n, after.head? ≠ some (.move n)) →
    InRange (offsets.map Int32.toInt).sum

/-- The same read from left to right, where the moves just before `ops` sum
up to `x`. -/
def FitsFrom (x : Int) : List Instruction → Prop
  | [] => InRange x
  | .move n :: ops => FitsFrom (x + n.toInt) ops
  | _ :: ops => InRange x ∧ FitsFrom 0 ops

theorem fitsFrom_cons {op : Instruction} (hop : ∀ n, op ≠ .move n) (x : Int)
    (ops : List Instruction) : FitsFrom x (op :: ops) ↔ InRange x ∧ FitsFrom 0 ops := by
  cases op with
  | move n => exact absurd rfl (hop n)
  | _ => rfl

/-- The induction is on what has not been read. The block before it is the
longest one there, since it starts behind an instruction that is no move. -/
theorem MovesFit.fitsFrom {ops : List Instruction} (h : MovesFit ops) : FitsFrom 0 ops := by
  -- the block that is under way is split off in front of the rest
  suffices hblock : ∀ (after before : List Instruction) (offsets : List Int32),
      ops = before ++ offsets.map .move ++ after →
      (∀ n, before.getLast? ≠ some (.move n)) →
      FitsFrom (offsets.map Int32.toInt).sum after by
    exact hblock ops [] [] (by simp) (by simp)
  intro after
  induction after with
  | nil =>
      intro before offsets heq hbefore
      exact h before [] offsets heq hbefore (by simp)
  | cons op after ih =>
      intro before offsets heq hbefore
      by_cases hop : ∃ n, op = .move n
      · -- the block grows
        rcases hop with ⟨n, rfl⟩
        have hgrown := ih before (offsets ++ [n]) (by simp [heq]) hbefore
        simpa [FitsFrom] using hgrown
      · -- the block ends, and an empty one begins
        have hop' : ∀ n, op ≠ .move n := not_exists.mp hop
        have hrange := h before (op :: after) offsets heq hbefore (by simpa using hop')
        have hfresh := ih (before ++ offsets.map .move ++ [op]) [] (by simp [heq])
          (by simpa using hop')
        exact (fitsFrom_cons hop' _ _).mpr ⟨hrange, by simpa using hfresh⟩

/-- Steps of one cell add up to no more than their number. -/
theorem sum_unit_offsets_le {offsets : List Int32} (h : ∀ n ∈ offsets, n = 1 ∨ n = -1) :
    -(offsets.length : Int) ≤ (offsets.map Int32.toInt).sum ∧
      (offsets.map Int32.toInt).sum ≤ offsets.length := by
  induction offsets with
  | nil => simp
  | cons n offsets ih =>
      have hrest := ih (fun m hm => h m (List.mem_cons_of_mem n hm))
      have hn : n.toInt = 1 ∨ n.toInt = -1 := by
        rcases h n List.mem_cons_self with rfl | rfl
        · exact Or.inl (by decide)
        · exact Or.inr (by decide)
      simp only [List.map_cons, List.sum_cons, List.length_cons]
      omega

/-- The moves of a text of fewer than 2³¹ commands fit. -/
theorem movesFit_commands {source : String} (h : (commands source).length < 2 ^ 31) :
    MovesFit (commands source) := by
  intro before after offsets heq _ _
  -- commands move by one cell, so a sum is no longer than the text
  have hunit : ∀ n ∈ offsets, n = 1 ∨ n = -1 := by
    intro n hn
    have hmem : Instruction.move n ∈ commands source := by
      rw [heq]
      simp [hn]
    exact offset_of_mem_commands hmem
  have hlen : offsets.length ≤ (commands source).length := by
    rw [heq]
    simp
    omega
  have hsum := sum_unit_offsets_le hunit
  constructor <;> omega

/-! ## Squeezing what fits -/

/-- A tree without a distance to cut. -/
def Tree.Fits (t : Tree) : Prop :=
  t.narrow = t

theorem narrow_eq_self {trees : List Tree} (h : ∀ t ∈ trees, t.Fits) : narrow trees = trees := by
  induction trees with
  | nil => exact narrow_nil
  | cons t trees ih =>
      have ht : t.narrow = t := h t List.mem_cons_self
      rw [narrow_cons, ht, ih (fun u hu => h u (List.mem_cons_of_mem t hu))]

theorem Tree.fits_move_iff {k : Int64} : (Tree.leaf (.move k)).Fits ↔ narrowed k = k := by
  simp [Tree.Fits, Tree.narrow]

/-- A forest, last tree first, with `x` the sum of the moves at its end. The
move that holds the sum may be too long yet, but nothing else is. -/
inductive Pending : List Tree → Int → Prop where
  | none {acc : List Tree} (hacc : ∀ t ∈ acc, t.Fits)
      (hlast : ∀ k, acc.head? ≠ some (.leaf (.move k))) : Pending acc 0
  | moves (x : Int) {acc : List Tree} (hacc : ∀ t ∈ acc, t.Fits)
      (hlast : ∀ k, acc.head? ≠ some (.leaf (.move k))) :
      Pending (.leaf (.move (.ofInt x)) :: acc) x

namespace Pending

/-- A sum that fits leaves nothing too long. -/
theorem fits {acc : List Tree} {x : Int} (h : Pending acc x) (hx : InRange x) :
    ∀ t ∈ acc, t.Fits := by
  cases h with
  | none hacc _ => exact hacc
  | moves x hacc _ =>
      -- the pending sum is in range, so it fits too
      have hsum : (Tree.leaf (.move (.ofInt x))).Fits := by
        have hvalue : (Int64.ofInt x).toInt = x := by
          apply Int64.toInt_ofInt_of_le <;> unfold InRange at hx <;> omega
        rw [Tree.fits_move_iff]
        apply narrowed_eq_self
        · rw [hvalue]
          exact hx.1
        · rw [hvalue]
          exact hx.2
      intro t ht
      rcases List.mem_cons.mp ht with rfl | hold
      · exact hsum
      · exact hacc t hold

/-- One more move. -/
theorem attach_move {acc : List Tree} {x : Int} (h : Pending acc x) (n : Int32) :
    Pending (Tree.attach acc (.leaf (.move n.toInt64))) (x + n.toInt) := by
  have hword : n.toInt64 = .ofInt n.toInt := by
    have hlow := n.le_toInt
    have hhigh := n.toInt_lt
    apply Int64.toInt_inj.mp
    rw [Int32.toInt_toInt64, Int64.toInt_ofInt_of_le] <;> omega
  cases h with
  | none hacc hlast =>
      -- the move begins a block
      have hkeep : Tree.attach acc (.leaf (.move n.toInt64)) =
          .leaf (.move n.toInt64) :: acc := by
        cases acc with
        | nil => rfl
        | cons last before =>
            apply Tree.attach_of_not_merge
            unfold Tree.merge?
            split <;> simp_all
      rw [hkeep, hword, Int.zero_add]
      exact Pending.moves _ hacc hlast
  | @moves x acc hacc hlast =>
      -- it is added to the move before it
      have hsum : Int64.ofInt x + n.toInt64 = .ofInt (x + n.toInt) := by
        rw [hword, Int64.ofInt_add]
      rw [Tree.attach_of_merge rfl, hsum]
      exact Pending.moves _ hacc hlast

/-- Anything else. -/
theorem attach_other {acc : List Tree} {t : Tree} (hacc : ∀ t ∈ acc, t.Fits) (ht : t.Fits)
    (hmove : ∀ k, t ≠ .leaf (.move k)) : Pending (Tree.attach acc t) 0 := by
  cases acc with
  | nil => exact Pending.none (by simpa [Tree.attach] using ht) (by simpa [Tree.attach] using hmove)
  | cons last before =>
      have hbefore : ∀ u ∈ before, u.Fits := by
        intro u hu
        exact hacc u (List.mem_cons_of_mem last hu)
      cases hmerge : Tree.merge? last t with
      | some u =>
          -- two adds, or a set and an add: what they merge into is no move
          have hu : u.Fits ∧ ∀ k, u ≠ .leaf (.move k) := by
            unfold Tree.merge? at hmerge
            split at hmerge <;> cases hmerge
            · exact absurd rfl (hmove _)
            · simp [Tree.Fits, Tree.narrow]
            · simp [Tree.Fits, Tree.narrow]
          rw [Tree.attach_of_merge hmerge]
          refine Pending.none ?_ (by simpa using hu.2)
          intro v hv
          rcases List.mem_cons.mp hv with rfl | hold
          · exact hu.1
          · exact hbefore v hold
      | none =>
          rw [Tree.attach_of_not_merge hmerge]
          refine Pending.none ?_ (by simpa using hmove)
          intro v hv
          rcases List.mem_cons.mp hv with rfl | hold
          · exact ht
          · exact hacc v hold

end Pending

/-- A loop around what fits becomes something that fits, and no move. -/
theorem Tree.collapse_fits {body : List Tree} (h : ∀ t ∈ body, t.Fits) :
    (Tree.collapse body).Fits ∧ ∀ k, Tree.collapse body ≠ .leaf (.move k) := by
  rcases Tree.collapse_cases body with ⟨_, hset⟩ | ⟨k, rfl, hseek⟩ | hloop
  · simp [hset, Tree.Fits, Tree.narrow]
  · have hk := Tree.fits_move_iff.mp (h _ List.mem_cons_self)
    simp [hseek, Tree.Fits, Tree.narrow, hk]
  · simp [hloop, Tree.Fits, Tree.narrow, narrow_eq_self h]

/-- Squeezing a list that fits. The induction is on the nesting; a bracket
ends the moves before it, so a loop starts and ends without any. -/
theorem Nests.pending_squeezeOnto {ops : List Instruction} {trees : List Tree}
    (h : Nests ops trees) {acc : List Tree} {x : Int} {rest : List Instruction}
    (hacc : Pending acc x) (hfits : FitsFrom x (ops ++ rest)) :
    ∃ y, Pending (squeezeOnto acc trees) y ∧ FitsFrom y rest := by
  induction h generalizing acc x rest with
  | nil =>
      rw [squeezeOnto]
      exact ⟨x, hacc, hfits⟩
  | @tree op tree ops trees hop _ ih =>
      rw [squeezeOnto, Tree.squeeze_ofInstruction? hop]
      by_cases hmove : ∃ n, op = .move n
      · -- a move joins the sum
        rcases hmove with ⟨n, rfl⟩
        cases hop
        exact ih (hacc.attach_move n) hfits
      · -- anything else ends the block, and the sum of a block fits
        have hother : ∀ n, op ≠ .move n := not_exists.mp hmove
        have htree : ∀ k, tree ≠ .leaf (.move k) := by
          intro k hk
          cases op <;> simp_all [Tree.ofInstruction?]
        rcases (fitsFrom_cons hother x _).mp hfits with ⟨hx, hrest⟩
        exact ih (Pending.attach_other (hacc.fits hx) (Tree.narrow_ofInstruction? hop) htree) hrest
  | @loop i j inner ops body trees _ _ ihinner ihops =>
      -- both brackets end a block, and the body begins one of its own
      rw [squeezeOnto, Tree.squeeze]
      have hopen : FitsFrom x (.loopOpen i :: (inner ++ .loopClose j :: (ops ++ rest))) := by
        simpa using hfits
      rcases (fitsFrom_cons (by simp) x _).mp hopen with ⟨hx, hbody⟩
      have hempty : Pending [] 0 := Pending.none (by simp) (by simp)
      rcases ihinner hempty hbody with ⟨y, hy, hclose⟩
      rcases (fitsFrom_cons (by simp) y _).mp hclose with ⟨hyrange, hrest⟩
      have hinside : ∀ t ∈ (squeezeOnto [] body).reverse, t.Fits := by
        intro t ht
        exact hy.fits hyrange t (List.mem_reverse.mp ht)
      rcases Tree.collapse_fits hinside with ⟨hfit, hmove⟩
      exact ihops (Pending.attach_other (hacc.fits hx) hfit hmove) hrest

/-- Squeezing a list that fits leaves no distance to cut. -/
theorem narrow_squeeze_of_fits {ops : List Instruction} {trees : List Tree}
    (h : Nests ops trees) (hfits : MovesFit ops) : narrow (squeeze trees) = squeeze trees := by
  have hall : FitsFrom 0 (ops ++ []) := by
    simpa using hfits.fitsFrom
  have hempty : Pending [] 0 := Pending.none (by simp) (by simp)
  rcases h.pending_squeezeOnto hempty hall with ⟨y, hy, hyrange⟩
  apply narrow_eq_self
  intro t ht
  exact hy.fits hyrange t (by simpa [squeeze] using ht)

/-! ## Programs -/

/-- Whatever they print to, `p` and `q` end alike or both go on for ever,
and under a step limit `q` ends as `p` does if `p` is not cut off. -/
structure Program.EndsAlike (p q : Program) : Prop where
  /-- One ends if the other does. -/
  ends : ∀ (σ : Type) [Writer σ] (w : σ),
    (∃ fuel r, p.run? none fuel w = some r) ↔ ∃ fuel r, q.run? none fuel w = some r
  /-- They end with the same ending in the same state. -/
  alike : ∀ (σ : Type) [Writer σ] (w : σ) (e : Ending) (s : State σ),
    p.Ends w e s ↔ q.Ends w e s
  /-- The second needs no more steps. -/
  within : ∀ (σ : Type) [Writer σ] (w : σ) (limit : Nat) (e : Ending),
    (p.runWithin limit w).ending? = some e →
    (q.runWithin limit w).ending? = some e ∧
      (q.runWithin limit w).state = (p.runWithin limit w).state

/-- A run without a limit that has a result has an ending. -/
theorem Program.ended_iff_ends {σ : Type} [Writer σ] {p : Program} {w : σ} :
    (∃ fuel r, p.run? none fuel w = some r) ↔ ∃ e s, p.Ends w e s := by
  constructor
  · rintro ⟨fuel, r, hrun⟩
    rcases runFor_ended (run?_none_eq_some_iff.mp hrun) with ⟨e, he⟩
    exact ⟨e, r.state, fuel, r, hrun, he, rfl⟩
  · rintro ⟨e, s, fuel, r, hrun, _⟩
    exact ⟨fuel, r, hrun⟩

/-- Programs end alike if the forest of the second tightens that of the
first. -/
theorem Program.endsAlike_of_tightens {xs ys : List Instruction} {ts us : List Tree}
    {p q : Program} (hxs : Nests xs ts) (hys : Nests ys us)
    (hp : Program.ofInstructions xs = .ok p) (hq : Program.ofInstructions ys = .ok q)
    (h : ∀ (σ : Type) [Writer σ], Tightens σ ts us) : p.EndsAlike q := by
  have htight : ∀ (σ : Type) [Writer σ],
      Tightens σ (ts ++ [.leaf .halt]) (us ++ [.leaf .halt]) := by
    intro σ _
    exact (h σ).append (Tightens.refl _)
  -- what `p` ends in with so many steps, `q` ends in with no more
  have hfewer : ∀ (σ : Type) [Writer σ] (n : Nat) (s t : State σ) (e : Ending),
      p.Halts n 0 s e t → q.Halts n 0 s e t := by
    intro σ _ n s t e hhalts
    rcases (halts_iff_runs hxs hp).mp hhalts with ⟨m, hm, hruns⟩
    rcases (htight σ).fewer hruns with ⟨m', hm', hruns'⟩
    exact (halts_iff_runs hys hq).mpr ⟨m', by omega, hruns'⟩
  -- and `q` ends in nothing else
  have halike : ∀ (σ : Type) [Writer σ] (w : σ) (e : Ending) (s : State σ),
      p.Ends w e s ↔ q.Ends w e s := by
    intro σ _ w e s
    rw [Program.ends_iff_runs hxs hp, Program.ends_iff_runs hys hq]
    constructor
    · rintro ⟨n, hruns⟩
      rcases (htight σ).fewer hruns with ⟨m, _, hruns'⟩
      exact ⟨m, hruns'⟩
    · rintro ⟨n, hruns⟩
      exact (htight σ).only hruns
  refine ⟨?_, halike, ?_⟩
  · intro σ _ w
    simp only [Program.ended_iff_ends, halike]
  · intro σ _ w limit e he
    exact Program.runWithin_ending_iff.mpr
      (hfewer σ limit _ _ _ (Program.runWithin_ending_iff.mp ⟨he, rfl⟩))

/-- **Shrinking keeps every run whose moves fit.** Before and after the pass
a program ends alike, failures included, if the operands of consecutive
moves always add up within 32 bits, as they do for every text of fewer than
2³¹ commands. -/
theorem shrink_ends_alike :
    (∀ source, (commands source).length < 2 ^ 31 → MovesFit (commands source)) ∧
    ∀ (ops : List Instruction) (p : Program), MovesFit ops →
      Program.ofInstructions ops = .ok p →
      ∃ q, Program.ofInstructions (Peephole.shrink ops) = .ok q ∧ p.EndsAlike q := by
  refine ⟨fun source => movesFit_commands, ?_⟩
  intro ops p hfits hp
  rcases (ofInstructions_isOk_iff.mp ⟨p, hp⟩).nests with ⟨trees, hnests⟩
  have hshrunk := hnests.shrink
  rw [narrow_squeeze_of_fits hnests hfits] at hshrunk
  rcases ofInstructions_isOk_iff.mpr hshrunk.balanced with ⟨q, hq⟩
  refine ⟨q, hq, ?_⟩
  apply Program.endsAlike_of_tightens hnests hshrunk hp hq
  intro σ _
  exact tightens_squeeze trees

/-- The text `+[-]<<+`, which fails two cells left of the tape, and fails
there after the pass too. -/
theorem left_of_tape_ends_alike :
    (commands "+[-]<<+").length < 2 ^ 31 ∧ MovesFit (commands "+[-]<<+") ∧
    ∃ p q, Program.ofInstructions (commands "+[-]<<+") = .ok p ∧
      Program.ofInstructions (Peephole.shrink (commands "+[-]<<+")) = .ok q ∧
      p.EndsAlike q ∧
      (p.runWithin 7 ({} : Sink)).ending? = some (.offTape (-2)) ∧
      (q.runWithin 7 ({} : Sink)).ending? = some (.offTape (-2)) ∧
      (q.runWithin 7 ({} : Sink)).state = (p.runWithin 7 ({} : Sink)).state := by
  have hops : commands "+[-]<<+" = [.add 1, .loopOpen 0, .add (-1), .loopClose 0, .move (-1),
      .move (-1), .add 1] := by
    decide
  have hlen : (commands "+[-]<<+").length < 2 ^ 31 := by
    rw [hops]
    decide
  have hfits := shrink_ends_alike.1 _ hlen
  have hp : Program.ofInstructions (commands "+[-]<<+") = .ok ⟨#[.add 1, .loopOpen 3, .add (-1),
      .loopClose 1, .move (-1), .move (-1), .add 1, .halt]⟩ := by
    rw [hops]
    rfl
  rcases shrink_ends_alike.2 _ _ hfits hp with ⟨q, hq, halike⟩
  -- the plain run looks at the cell two to the left of the tape
  have hend : (Program.runWithin ⟨#[.add 1, .loopOpen 3, .add (-1), .loopClose 1, .move (-1),
      .move (-1), .add 1, .halt]⟩ 7 ({} : Sink)).ending? = some (.offTape (-2)) := rfl
  exact ⟨hlen, hfits, _, q, hp, hq, halike, hend, halike.within Sink {} 7 _ hend⟩

end TapeLang
