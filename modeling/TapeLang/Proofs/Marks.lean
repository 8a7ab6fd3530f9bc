import Std.Data.HashSet.Lemmas
import TapeLang.Proofs.Depth
import TapeLang.Proofs.ListingReading

/-!
# TapeLang.Proofs.Marks — what a listing marks

A listing marks the index behind the partner of each bracket, which is where
a jump of that bracket leads. It finds it in the operand, and does not look
at the brackets themselves. In linked code partners name each other, so the
marked indices are those behind brackets, each of them once.

* `Listing.contains_targets_iff` — which indices are marked, in any list;
* `Program.resumesAt_iff` — they are where a jump can lead, in any program;
* `WellLinked.contains_targets` — in linked code, they are behind brackets;
* `WellLinked.count_rule` — so there are as many rules as brackets;
* `listing_marks_resumptions` — the whole listing of a program.
-/

namespace TapeLang

variable {σ : Type}

/-- Whether an instruction opens a loop or closes one. -/
def Instruction.isBracket (op : Instruction) : Bool :=
  op.isOpen || op.isClose

/-- The brackets are the instructions that name a partner. -/
theorem Instruction.partner?_eq_some_iff {op : Instruction} {j : Nat} :
    op.partner? = some j ↔ op = .loopOpen j ∨ op = .loopClose j := by
  cases op <;> simp [Instruction.partner?]

/-! ## Jumps -/

namespace Program

/-- Whether a bracket stands right before `ip`. -/
def behindBracket (p : Program) : Nat → Bool
  | 0 => false
  | j + 1 => (p.fetch j).isBracket

/-- In the state `s` the bracket at `ip` makes the run jump: it opens a loop
and the current cell is zero, or it closes one and the cell is not. -/
def Jumps (p : Program) (ip : Nat) (s : State σ) : Prop :=
  ((p.fetch ip).isOpen = true ∧ s.current? = some 0) ∨
    ((p.fetch ip).isClose = true ∧ ∃ v, s.current? = some v ∧ v ≠ 0)

/-- Some jump of `p`, taken in some state of tape and head, leads to `ip`. -/
def ResumesAt [Writer σ] (p : Program) (w : σ) (ip : Nat) : Prop :=
  ∃ (source : Nat) (s s' : State σ), s.writer = w ∧ p.Jumps source s ∧
    p.step source s = .running ip s'

/-- A jump leads behind the partner. -/
theorem step_of_jumps [Writer σ] {p : Program} {ip : Nat} {s : State σ} (h : p.Jumps ip s) :
    ∃ j, (p.fetch ip).partner? = some j ∧ p.step ip s = .running (j + 1) s := by
  rcases h with ⟨hopen, hzero⟩ | ⟨hclose, v, hv, hne⟩
  · -- an opening bracket over zero; the other instructions open nothing
    rcases (p.fetch ip).bracket_cases with ⟨j, hj⟩ | ⟨j, hj⟩ | ⟨hflat, _⟩
    · refine ⟨j, by rw [hj]; rfl, ?_⟩
      rw [step_open hj, hzero]
      rfl
    · rw [hj] at hopen
      cases hopen
    · rw [hflat] at hopen
      cases hopen
  · -- a closing bracket over a cell that is not zero
    rcases (p.fetch ip).bracket_cases with ⟨j, hj⟩ | ⟨j, hj⟩ | ⟨_, hflat⟩
    · rw [hj] at hclose
      cases hclose
    · refine ⟨j, by rw [hj]; rfl, ?_⟩
      rw [step_close hj, hv]
      simp [hne]
    · rw [hflat] at hclose
      cases hclose

/-- Every bracket can jump: a cell can be zero, and it can be something
else. -/
theorem exists_jumps {p : Program} {ip j : Nat} (h : (p.fetch ip).partner? = some j) (w : σ) :
    ∃ s : State σ, s.writer = w ∧ p.Jumps ip s := by
  have hfirst : Tape.cell? (State.initial w).head = some ⟨0, by decide⟩ := by
    simp [Tape.cell?, State.initial, tapeLength]
  rcases Instruction.partner?_eq_some_iff.mp h with hop | hop
  · refine ⟨State.initial w, rfl, Or.inl ⟨by rw [hop]; rfl, ?_⟩⟩
    rw [State.current?, hfirst]
    rfl
  · have hone : ((State.initial w).put ⟨0, by decide⟩ 1).current? = some 1 := by
      rw [State.current?, State.put_head, hfirst, Option.map_some, State.get_put]
    exact ⟨_, rfl, Or.inr ⟨by rw [hop]; rfl, 1, hone, by decide⟩⟩

theorem mem_code_iff {p : Program} {op : Instruction} (hop : op ≠ .halt) :
    op ∈ p.code.toList ↔ ∃ ip, p.fetch ip = op := by
  constructor
  · intro hmem
    obtain ⟨ip, hip⟩ := List.mem_iff_getElem?.mp hmem
    rw [Array.getElem?_toList] at hip
    exact ⟨ip, fetch_of_getElem? hip⟩
  · rintro ⟨ip, hip⟩
    have hget := getElem?_of_fetch hip hop
    exact Array.mem_toList_iff.mpr (Array.mem_of_getElem? hget)

end Program

/-! ## Marks -/

namespace Listing

/-- The marked indices are those behind the operands of brackets. -/
theorem contains_targets_iff {ops : List Instruction} {ip : Nat} :
    (targets ops).contains ip = true ↔ ∃ op ∈ ops, ∃ j, op.partner? = some j ∧ ip = j + 1 := by
  rw [targets, Std.HashSet.contains_ofList, List.contains_iff_mem, List.mem_filterMap]
  constructor
  · rintro ⟨op, hop, hresume⟩
    obtain ⟨j, hj, rfl⟩ := Option.map_eq_some_iff.mp hresume
    exact ⟨op, hop, j, hj, rfl⟩
  · rintro ⟨op, hop, j, hj, rfl⟩
    exact ⟨op, hop, by simp [resume?, hj]⟩

theorem contains_targets_code_iff {p : Program} {ip : Nat} :
    (targets p.code.toList).contains ip = true ↔
      ∃ source j, (p.fetch source).partner? = some j ∧ ip = j + 1 := by
  rw [contains_targets_iff]
  constructor
  · rintro ⟨op, hmem, j, hj, hip⟩
    have hop : op ≠ .halt := by
      rintro rfl
      cases hj
    obtain ⟨source, hsource⟩ := (Program.mem_code_iff hop).mp hmem
    exact ⟨source, j, by rw [hsource, hj], hip⟩
  · rintro ⟨source, j, hj, hip⟩
    have hop : p.fetch source ≠ .halt := by
      intro hhalt
      rw [hhalt] at hj
      cases hj
    exact ⟨_, (Program.mem_code_iff hop).mpr ⟨source, rfl⟩, j, hj, hip⟩

end Listing

/-- A run can go on at an index after a jump exactly if the listing marks
it, whatever the operands of the brackets are. -/
theorem Program.resumesAt_iff [Writer σ] {p : Program} (w : σ) (ip : Nat) :
    p.ResumesAt w ip ↔ (Listing.targets p.code.toList).contains ip = true := by
  rw [Listing.contains_targets_code_iff]
  constructor
  · rintro ⟨source, s, s', _, hjumps, hstep⟩
    obtain ⟨j, hj, hstep'⟩ := Program.step_of_jumps hjumps
    rw [hstep] at hstep'
    cases hstep'
    exact ⟨source, j, hj, rfl⟩
  · rintro ⟨source, j, hj, rfl⟩
    -- some state makes this very bracket jump
    obtain ⟨s, hw, hjumps⟩ := Program.exists_jumps hj w
    obtain ⟨j', hj', hstep⟩ := Program.step_of_jumps hjumps
    rw [hj] at hj'
    cases hj'
    exact ⟨source, s, s, hw, hjumps, hstep⟩

namespace WellLinked

variable {ops : List Instruction} {p : Program}

/-- The partner of a bracket names it in turn. -/
theorem partner?_partner? (h : WellLinked ops p) {i j : Nat}
    (hi : (p.fetch i).partner? = some j) : (p.fetch j).partner? = some i := by
  rcases Instruction.partner?_eq_some_iff.mp hi with hopen | hclose
  · rw [(h.fetch_of_partners (h.partners_of_fetch_open hopen)).2]
    rfl
  · rw [(h.fetch_of_partners (h.partners_of_fetch_close hclose)).1]
    rfl

/-- In linked code the marked indices are those behind brackets. -/
theorem contains_targets (h : WellLinked ops p) (ip : Nat) :
    (Listing.targets p.code.toList).contains ip = p.behindBracket ip := by
  have hbracket : ∀ i, (p.fetch i).isBracket = true ↔ ∃ j, (p.fetch i).partner? = some j := by
    intro i
    cases p.fetch i <;>
      simp [Instruction.isBracket, Instruction.isOpen, Instruction.isClose, Instruction.partner?]
  rw [Bool.eq_iff_iff, Listing.contains_targets_code_iff]
  constructor
  · rintro ⟨source, j, hj, rfl⟩
    -- the target is the partner, and a partner has a partner
    exact (hbracket j).mpr ⟨source, h.partner?_partner? hj⟩
  · intro hbehind
    cases ip with
    | zero => cases hbehind
    | succ j =>
        obtain ⟨i, hi⟩ := (hbracket j).mp hbehind
        exact ⟨i, j, h.partner?_partner? hi, rfl⟩

end WellLinked

/-! ## Lines -/

/-- The code of a program, index by index. -/
theorem Program.zipIdx_code (p : Program) :
    p.code.toList.zipIdx = (List.range p.code.size).map fun ip => (p.fetch ip, ip) := by
  apply List.ext_getElem?
  intro ip
  rw [List.getElem?_zipIdx, Array.getElem?_toList, List.getElem?_map]
  by_cases hip : ip < p.code.size
  · rw [List.getElem?_range hip, Program.code_getElem? hip]
    simp
  · rw [Array.getElem?_eq_none (by omega), List.getElem?_eq_none (by simpa using hip)]
    rfl

theorem Program.toList_code (p : Program) :
    p.code.toList = (List.range p.code.size).map p.fetch := by
  rw [← List.zipIdx_map_fst 0 p.code.toList, Program.zipIdx_code, List.map_map]
  rfl

namespace Listing

/-- The lines of the instruction at `ip` of a program: behind a bracket a
rule and a line with the sign, else a line without it. -/
def block (p : Program) (ip : Nat) : List String :=
  if p.behindBracket ip then
    [rule, Text.padded 4 ip ++ " ► " ++ body ip (p.fetch ip)]
  else
    [Text.padded 4 ip ++ "   " ++ body ip (p.fetch ip)]

theorem lines_code {ops : List Instruction} {p : Program} (h : WellLinked ops p) :
    lines p.code.toList = (List.range p.code.size).flatMap (block p) := by
  rw [lines, List.mapIdx_eq_zipIdx_map, Program.zipIdx_code, List.map_map, ← List.flatMap_def]
  congr 1
  funext ip
  rw [Function.comp_apply]
  dsimp only
  rw [h.contains_targets]
  rfl

/-- A bracket points down to a partner behind it. -/
theorem body_open {ip j : Nat} (h : ip < j) : body ip (.loopOpen j) =
    "LOOP_OPEN   ↓ (→ " ++ Text.padded 4 j ++ ") ; if cell == 0" := by
  have hname : Text.column 12 "LOOP_OPEN" = "LOOP_OPEN   " := rfl
  rw [body, Instruction.mnemonic, hname, operands, jump, if_neg (by omega), ← String.toList_inj]
  · simp
  · simp

/-- It points up to a partner before it. -/
theorem body_close {ip j : Nat} (h : j < ip) : body ip (.loopClose j) =
    "LOOP_CLOSE  ↑ (→ " ++ Text.padded 4 j ++ ") ; if cell != 0" := by
  have hname : Text.column 12 "LOOP_CLOSE" = "LOOP_CLOSE  " := rfl
  rw [body, Instruction.mnemonic, hname, operands, jump, if_pos h, ← String.toList_inj]
  · simp
  · simp

/-- The line of an instruction is no rule: a rule shows no instruction. -/
theorem line_ne_rule (marked : Bool) (ip : Nat) (op : Instruction) : line marked ip op ≠ rule := by
  intro hsame
  have hshown := instruction?_line marked ip op
  rw [hsame, instruction?_rule] at hshown
  cases hshown

theorem count_block (p : Program) (ip : Nat) :
    (block p ip).count rule = if p.behindBracket ip then 1 else 0 := by
  have hblock : block p ip = entry (p.behindBracket ip) ip (p.fetch ip) := rfl
  have hline : [line (p.behindBracket ip) ip (p.fetch ip)].count rule = 0 := by
    rw [List.count_singleton, if_neg (by simpa using line_ne_rule _ ip _)]
  rw [hblock, entry_eq, List.count_append, hline]
  cases p.behindBracket ip <;> simp

/-- The rules in front of an index are as many as the marked indices. -/
theorem count_blocks (p : Program) (n : Nat) :
    ((List.range n).flatMap (block p)).count rule = (List.range n).countP p.behindBracket := by
  induction n with
  | zero => rfl
  | succ n ih =>
      rw [List.range_succ, List.flatMap_append, List.count_append, List.countP_append, ih,
        List.flatMap_singleton, count_block, List.countP_singleton]

end Listing

/-- There are as many rules as brackets. The last instruction is no bracket,
so behind each of them there is a line. -/
theorem WellLinked.count_rule {ops : List Instruction} {p : Program} (h : WellLinked ops p) :
    ((Listing.render p.code.toList).toList.splitOn '\n').count Listing.rule.toList =
      p.code.toList.countP Instruction.isBracket := by
  have hlast : p.fetch ops.length = .halt := Program.fetch_of_getElem? h.last
  have hbehind : (List.range p.code.size).countP p.behindBracket =
      (List.range ops.length).countP fun j => (p.fetch j).isBracket := by
    rw [h.size, List.range_succ_eq_map, List.countP_cons, List.countP_map]
    rfl
  have hcode : p.code.toList.countP Instruction.isBracket =
      (List.range ops.length).countP fun j => (p.fetch j).isBracket := by
    rw [Program.toList_code, h.size, List.countP_map, List.range_succ, List.countP_append,
      List.countP_singleton]
    simp [hlast, Instruction.isBracket, Instruction.isOpen, Instruction.isClose,
      Function.comp_def]
  -- the last line of the text is empty, and a rule is not
  have hempty : "" ≠ Listing.rule := by
    intro hsame
    have hlist := congrArg String.toList hsame
    rw [Listing.toList_rule] at hlist
    cases hlist
  rw [Listing.splitOn_render, List.count_map_of_injective _ _ (fun _ _ => String.toList_inj.mp),
    List.count_append, List.count_singleton, if_neg (by simpa using hempty), Listing.lines_code h,
    Listing.count_blocks, hbehind, hcode]
  rfl

/-! ## The whole listing -/

/-- What the listing of a program looks like. -/
structure Listing.Marks (p : Program) (text : String) : Prop where
  /-- There is a line for each instruction. It has a rule above it and the
  sign in it exactly if it is behind a bracket. -/
  lines : text.toList.splitOn '\n' =
    ((List.range p.code.size).flatMap (block p) ++ [""]).map String.toList
  /-- Opening brackets point down. -/
  opens : ∀ ip j, p.fetch ip = .loopOpen j → body ip (p.fetch ip) =
    "LOOP_OPEN   ↓ (→ " ++ Text.padded 4 j ++ ") ; if cell == 0"
  /-- Closing brackets point up. -/
  closes : ∀ ip j, p.fetch ip = .loopClose j → body ip (p.fetch ip) =
    "LOOP_CLOSE  ↑ (→ " ++ Text.padded 4 j ++ ") ; if cell != 0"
  /-- There are as many rules as brackets. -/
  rules : (text.toList.splitOn '\n').count rule.toList = p.code.toList.countP Instruction.isBracket

/-- **A listing marks where jumps lead.** In the listing of a program the
marked lines are those behind brackets, and these are the indices at which a
run can go on after a jump. -/
theorem listing_marks_resumptions [Writer σ] (w : σ) {ops : List Instruction} {p : Program}
    (hp : Program.ofInstructions ops = .ok p) :
    Listing.Marks p (Listing.render p.code.toList) ∧
      ∀ ip, p.behindBracket ip = true ↔ p.ResumesAt w ip := by
  have h := ofInstructions_wellLinked hp
  constructor
  · constructor
    case lines => rw [Listing.splitOn_render, Listing.lines_code h]
    case opens =>
      intro ip j hopen
      rw [hopen]
      exact Listing.body_open (h.partners_of_fetch_open hopen).lt
    case closes =>
      intro ip j hclose
      rw [hclose]
      exact Listing.body_close (h.partners_of_fetch_close hclose).lt
    case rules => exact h.count_rule
  · intro ip
    rw [Program.resumesAt_iff, h.contains_targets]

/-- In the listing of `+[>+<-]` two of the eight lines are marked: the first
one of the body of the loop, and the one behind the loop. -/
theorem product_loop_marks_resumptions :
    ∃ p, Program.ofInstructions [.add 1, .loopOpen 0, .move 1, .add 1, .move (-1), .add (-1),
        .loopClose 0] = .ok p ∧
      Listing.Marks p (Listing.render p.code.toList) ∧ p.code.size = 8 ∧
      p.code.toList.countP Instruction.isBracket = 2 ∧ p.ResumesAt ({} : Sink) 2 ∧
      p.ResumesAt ({} : Sink) 7 ∧ ¬ p.ResumesAt ({} : Sink) 1 := by
  have hp : Program.ofInstructions [.add 1, .loopOpen 0, .move 1, .add 1, .move (-1), .add (-1),
      .loopClose 0] = .ok ⟨#[.add 1, .loopOpen 6, .move 1, .add 1, .move (-1), .add (-1),
      .loopClose 1, .halt]⟩ := rfl
  have hresumes := (listing_marks_resumptions ({} : Sink) hp).2
  refine ⟨_, hp, (listing_marks_resumptions ({} : Sink) hp).1, rfl, rfl, ?_, ?_, ?_⟩
  · exact (hresumes 2).mp rfl
  · exact (hresumes 7).mp rfl
  · intro hone
    cases (hresumes 1).mpr hone

end TapeLang
