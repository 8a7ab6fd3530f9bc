import TapeLang.Proofs.CBackend

/-!
# TapeLang.Proofs.CFaithful — what the C text keeps of a program

The text of a program has one line for each instruction, and no two
statements have the same line. So the text gives back the instructions, up
to what a cell does not see of an operand and up to the partners of brackets;
and the partners are found again by linking.

* `text_injective` — the statements can be read off the lines;
* `Linking.extend_inBytes` — linking does not look at amounts;
* `Linking.extend_unlinked` — nor at the operands that brackets had;
* `c_text_keeps_bytes` — what two programs with the same text have in common.
-/

namespace TapeLang

open CLang CSource

/-! ## Statements -/

theorem statementClauses_injective : Function.Injective statementClauses := by
  intro s t h
  cases s <;> cases t <;> simp_all [statementClauses, Int32.toInt_inj, Int8.toInt_inj]

/-- The clauses of a line tell its statement, also where the line holds a
whole loop. -/
theorem statementTokens_injective : Function.Injective statementTokens := by
  intro s t h
  have hread : ∀ u, (clauses [] (statementTokens u)).mapM Clause.ofLexemes? =
      some (statementClauses u) := by
    intro u
    have hstatement := read_statement u []
    simpa [clauses] using hstatement
  have hclauses : some (statementClauses s) = some (statementClauses t) := by
    rw [← hread, ← hread, h]
  exact statementClauses_injective (Option.some.inj hclauses)

/-- Different statements have different texts. -/
theorem text_injective : Function.Injective text := by
  intro xs ys h
  obtain ⟨xlines, depth, hx, hxlines, hxtokens⟩ := text_lines xs
  obtain ⟨ylines, depth', hy, hylines, hytokens⟩ := text_lines ys
  rw [hx, hy] at h
  -- both texts end in two lines, so the lines between the ends are the same
  have hlines := ofLines_injOn hxlines hylines h
  have hbody := (List.append_inj' hlines rfl).1
  have hsame : xlines = ylines := List.append_cancel_left hbody
  apply List.map_injective_iff.mpr statementTokens_injective
  rw [← hxtokens, ← hytokens, hsame]

/-! ## Amounts -/

/-- An instruction with its amount for a cell cut to a signed byte. -/
def Instruction.inBytes : Instruction → Instruction
  | .add n => .add n.toInt8.toInt32
  | .set v => .set v.toInt8.toInt32
  | op => op

/-- A program with all amounts for cells cut to signed bytes. -/
def Program.inBytes (p : Program) : Program :=
  { code := p.code.map Instruction.inBytes }

theorem ofInstruction?_inBytes (op : Instruction) :
    Statement.ofInstruction? op.inBytes = Statement.ofInstruction? op := by
  cases op <;> simp [Instruction.inBytes, Statement.ofInstruction?]

theorem isOpen_inBytes (op : Instruction) : op.inBytes.isOpen = op.isOpen := by
  cases op <;> rfl

theorem isClose_inBytes (op : Instruction) : op.inBytes.isClose = op.isClose := by
  cases op <;> rfl

theorem inBytes_eq_read_iff (op : Instruction) : op.inBytes = .read ↔ op = .read := by
  cases op <;> simp [Instruction.inBytes]

/-- The text only shows amounts as a cell sees them. -/
theorem render_inBytes (p : Program) : render p.inBytes = render p := by
  have hbody : body p.inBytes = body p := by
    simp only [body, Program.inBytes, Array.toList_map, List.filterMap_map]
    congr 1
    funext op
    exact ofInstruction?_inBytes op
  have hread : p.inBytes.code.findIdx? (· = .read) = p.code.findIdx? (· = .read) := by
    simp only [Program.inBytes, Array.findIdx?_map]
    congr 1
    funext op
    simp [inBytes_eq_read_iff]
  rw [render, render, hbody, hread]

/-- Linking does not look at amounts. -/
theorem Linking.extend_inBytes (code : Array Instruction) (pending : List Nat)
    (ops : List Instruction) :
    Linking.extend (code.map Instruction.inBytes) pending (ops.map Instruction.inBytes) =
      { code := (Linking.extend code pending ops).code.map Instruction.inBytes,
        fault := (Linking.extend code pending ops).fault } := by
  induction ops generalizing code pending with
  | nil => cases pending <;> simp [Linking.extend, Instruction.inBytes]
  | cons op ops ih =>
      rw [List.map_cons]
      rcases op.bracket_cases with ⟨j, rfl⟩ | ⟨j, rfl⟩ | ⟨hopen, hclose⟩
      · have hrest := ih (code.push (.loopOpen j)) (code.size :: pending)
        simpa [Linking.extend, Instruction.inBytes] using hrest
      · cases pending with
        | nil =>
            -- the rest of the list is copied as it is
            simp [Linking.extend, Instruction.inBytes, ← Array.toList_inj]
        | cons i pending =>
            have hrest := ih ((code.setIfInBounds i (.loopOpen code.size)).push (.loopClose i))
              pending
            simpa [Linking.extend, Instruction.inBytes] using hrest
      · have hrest := ih (code.push op) pending
        rw [Array.map_push] at hrest
        rw [Linking.extend_flat hopen hclose, ← hrest, Linking.extend_flat]
        · rw [isOpen_inBytes, hopen]
        · rw [isClose_inBytes, hclose]

theorem ofInstructions_inBytes {ops : List Instruction} {p : Program}
    (hp : Program.ofInstructions ops = .ok p) :
    Program.ofInstructions (ops.map Instruction.inBytes) = .ok p.inBytes := by
  -- linking does not look at amounts, so cutting them before or after is the same
  have hlink : link (ops.map Instruction.inBytes) =
      { code := (link ops).code.map Instruction.inBytes, fault := (link ops).fault } := by
    simpa [link] using Linking.extend_inBytes #[] [] ops
  unfold Program.ofInstructions at hp ⊢
  rw [hlink]
  rcases hops : link ops with ⟨code, fault⟩
  rw [hops] at hp
  cases fault with
  | none =>
      cases hp
      rfl
  | some e => cases hp

/-! ## Operands of brackets -/

/-- Linking does not look at the operands that brackets have before it. What
has been linked may differ at the brackets still open, since they will get
their operands when they are closed. -/
theorem Linking.extend_unlinked {code code' : Array Instruction} {pending : List Nat}
    {ops : List Instruction} (hsize : code'.size = code.size)
    (hsame : ∀ i, i ∉ pending → code'[i]? = code[i]?)
    (hok : (Linking.extend code pending ops).fault = none) :
    Linking.extend code' pending (ops.map Instruction.unlinked) =
      Linking.extend code pending ops := by
  induction ops generalizing code code' pending with
  | nil =>
      cases pending with
      | nil =>
          have hcode : code' = code := Array.ext_getElem? fun i => hsame i (by simp)
          rw [hcode]
          rfl
      | cons i pending => cases hok
  | cons op ops ih =>
      rw [List.map_cons]
      rcases op.bracket_cases with ⟨k, rfl⟩ | ⟨k, rfl⟩ | ⟨hopen, hclose⟩
      · -- the new bracket is pending, so its operand does not matter
        simp only [Linking.extend, Instruction.unlinked, hsize] at hok ⊢
        apply ih _ _ hok
        · simp [hsize]
        · intro i hi
          have hne : i ≠ code.size ∧ i ∉ pending := by simpa using hi
          rw [Array.getElem?_push, Array.getElem?_push, hsize, if_neg hne.1, if_neg hne.1,
            hsame i hne.2]
      · cases pending with
        | nil => cases hok
        | cons j pending =>
            -- both brackets of the loop get the same operands on both sides
            simp only [Linking.extend, Instruction.unlinked, hsize] at hok ⊢
            apply ih _ _ hok
            · simp [hsize]
            · intro i hi
              rw [Array.getElem?_push, Array.getElem?_push, Array.size_setIfInBounds,
                Array.size_setIfInBounds, hsize, Array.getElem?_setIfInBounds,
                Array.getElem?_setIfInBounds, hsize]
              by_cases hij : j = i
              · rw [if_pos hij, if_pos hij]
              · rw [if_neg hij, if_neg hij, hsame i (by simpa [Ne.symm hij] using hi)]
      · have hflat : op.unlinked = op := by
          cases op with
          | loopOpen k => cases hopen
          | loopClose k => cases hclose
          | _ => rfl
        rw [Linking.extend_flat hopen hclose] at hok
        rw [hflat, Linking.extend_flat hopen hclose, Linking.extend_flat hopen hclose]
        apply ih _ _ hok
        · simp [hsize]
        · intro i hi
          rw [Array.getElem?_push, Array.getElem?_push, hsize, hsame i hi]

theorem ofInstructions_unlinked {ops : List Instruction} {p : Program}
    (hp : Program.ofInstructions ops = .ok p) :
    Program.ofInstructions (ops.map Instruction.unlinked) = .ok p := by
  have hok : (link ops).fault = none := by
    rw [link_fault_eq_none_iff]
    exact ofInstructions_isOk_iff.mp ⟨p, hp⟩
  have hlink : link (ops.map Instruction.unlinked) = link ops :=
    Linking.extend_unlinked rfl (fun _ _ => rfl) hok
  unfold Program.ofInstructions at hp ⊢
  rw [hlink]
  exact hp

/-! ## Programs -/

/-- What a statement says of its instruction. -/
def CSource.Statement.instruction : Statement → Instruction
  | .advance n => .move n
  | .increase n => .add n.toInt32
  | .assign n => .set n.toInt32
  | .openWhile => .loopOpen 0
  | .closeWhile => .loopClose 0
  | .scan n => .seek n
  | .putchar => .print

theorem instruction_of_statement {op : Instruction} (hread : op ≠ .read) (hhalt : op ≠ .halt) :
    (Statement.ofInstruction? op).map Statement.instruction = some op.inBytes.unlinked := by
  cases op with
  | read => exact absurd rfl hread
  | halt => exact absurd rfl hhalt
  | _ => rfl

/-- The statements of a list give it back, up to amounts and the operands of
brackets. -/
theorem map_instruction_statements {ops : List Instruction} (hread : Instruction.read ∉ ops)
    (hhalt : Instruction.halt ∉ ops) :
    (ops.filterMap Statement.ofInstruction?).map Statement.instruction =
      (ops.map Instruction.inBytes).map Instruction.unlinked := by
  rw [List.map_filterMap, List.map_map, ← List.filterMap_eq_map]
  apply List.filterMap_congr
  intro op hop
  apply instruction_of_statement
  · rintro rfl
    exact hread hop
  · rintro rfl
    exact hhalt hop

/-- **The C text loses nothing but what the cells lose.** Programs of lists
without `read` and `halt` have texts, and their texts are the same exactly if
the programs are the same when all amounts for cells are cut to signed
bytes. -/
theorem c_text_keeps_bytes {ops ops' : List Instruction} {p q : Program}
    (hp : Program.ofInstructions ops = .ok p) (hq : Program.ofInstructions ops' = .ok q)
    (hread : Instruction.read ∉ ops) (hhalt : Instruction.halt ∉ ops)
    (hread' : Instruction.read ∉ ops') (hhalt' : Instruction.halt ∉ ops') :
    ∃ s t, render p = .ok s ∧ render q = .ok t ∧ (s = t ↔ p.inBytes = q.inBytes) := by
  obtain ⟨trees, hnests⟩ := (ofInstructions_isOk_iff.mp ⟨p, hp⟩).nests
  obtain ⟨trees', hnests'⟩ := (ofInstructions_isOk_iff.mp ⟨q, hq⟩).nests
  have hs := render_linked hnests hp hread
  have ht := render_linked hnests' hq hread'
  refine ⟨_, _, hs, ht, ?_⟩
  constructor
  · -- the text gives back the statements, and these the instructions up to their links
    intro hsame
    have hstatements := text_injective hsame
    have hops : (ops.map Instruction.inBytes).map Instruction.unlinked =
        (ops'.map Instruction.inBytes).map Instruction.unlinked := by
      rw [← map_instruction_statements hread hhalt, ← map_instruction_statements hread' hhalt',
        hstatements]
    have hpBytes := ofInstructions_unlinked (ofInstructions_inBytes hp)
    have hqBytes := ofInstructions_unlinked (ofInstructions_inBytes hq)
    rw [hops, hqBytes] at hpBytes
    exact (Except.ok.inj hpBytes).symm
  · -- the text is written from the bytes alone
    intro hsame
    have hrender : render p = render q := by
      rw [← render_inBytes p, hsame, render_inBytes]
    rw [hs, ht] at hrender
    exact Except.ok.inj hrender

/-- Amounts of 200 and 300 are written as -56 and 44, and a loop that only
moves is not written like a search. -/
theorem wide_amounts_keep_bytes :
    ∃ p q r, Program.ofInstructions [.add 200, .loopOpen 7, .move (-3), .loopClose 7, .set 300] =
        .ok p ∧
      Program.ofInstructions [.add (-56), .loopOpen 0, .move (-3), .loopClose 0, .set 44] = .ok q ∧
      Program.ofInstructions [.add 200, .seek (-3), .set 300] = .ok r ∧
      p ≠ q ∧ render p = render q ∧ render p ≠ render r := by
  have hp : Program.ofInstructions [.add 200, .loopOpen 7, .move (-3), .loopClose 7, .set 300] =
      .ok ⟨#[.add 200, .loopOpen 3, .move (-3), .loopClose 1, .set 300, .halt]⟩ := rfl
  have hq : Program.ofInstructions [.add (-56), .loopOpen 0, .move (-3), .loopClose 0, .set 44] =
      .ok ⟨#[.add (-56), .loopOpen 3, .move (-3), .loopClose 1, .set 44, .halt]⟩ := rfl
  have hr : Program.ofInstructions [.add 200, .seek (-3), .set 300] =
      .ok ⟨#[.add 200, .seek (-3), .set 300, .halt]⟩ := rfl
  refine ⟨_, _, _, hp, hq, hr, by decide, ?_, ?_⟩
  · -- the same bytes: 200 and -56, 300 and 44
    obtain ⟨s, t, hs, ht, hsame⟩ := c_text_keeps_bytes hp hq (by decide) (by decide) (by decide)
      (by decide)
    rw [hs, ht, hsame.mpr (by decide +kernel)]
  · -- a search is not written as the loop that it stands for
    obtain ⟨s, t, hs, ht, hsame⟩ := c_text_keeps_bytes hp hr (by decide) (by decide) (by decide)
      (by decide)
    rw [hs, ht]
    intro heq
    exact absurd (hsame.mp (Except.ok.inj heq)) (by decide +kernel)

end TapeLang
