import TapeLang.Token

/-!
# TapeLang.Proofs.Commands — the instructions of a source text

Positions apart, reading a text is a `filterMap`: each command character
gives its instruction, and nothing else gives one.

* `commands_eq_filterMap` — the instructions of a text;
* `mem_commands` — what kinds of instruction a text can have.

No text has a `halt`, and its `read`s are its commas.
-/

namespace TapeLang

/-- What reading adds to the tokens already found. -/
theorem Reader.scan_instructions (cs : List Char) (found : Array Token) (p : Position) :
    (Reader.scan found p cs).1.toList.map (·.instruction) =
      found.toList.map (·.instruction) ++ cs.filterMap Instruction.ofChar? := by
  induction cs generalizing found p with
  | nil => simp [Reader.scan]
  | cons c cs ih =>
      unfold Reader.scan
      cases hop : Instruction.ofChar? c with
      | none => simp [ih, hop]
      | some op => simp [ih, hop]

/-- The instructions of a text are those of its command characters, in
order. -/
theorem commands_eq_filterMap (source : String) :
    commands source = source.toList.filterMap Instruction.ofChar? := by
  have hscan := Reader.scan_instructions source.toList #[] {}
  simpa [commands, tokenize, Reader.tokens, Reader.ofString] using hscan

theorem mem_commands {source : String} {op : Instruction} :
    op ∈ commands source ↔ ∃ c, c ∈ source.toList ∧ Instruction.ofChar? c = some op := by
  rw [commands_eq_filterMap, List.mem_filterMap]

theorem halt_not_mem_commands (source : String) : Instruction.halt ∉ commands source := by
  intro hmem
  obtain ⟨c, _, hc⟩ := mem_commands.mp hmem
  unfold Instruction.ofChar? at hc
  split at hc <;> simp_all

theorem read_mem_commands_iff {source : String} :
    Instruction.read ∈ commands source ↔ ',' ∈ source.toList := by
  have hcomma : ∀ c, Instruction.ofChar? c = some .read ↔ c = ',' := by
    intro c
    unfold Instruction.ofChar?
    split <;> simp_all
  simp only [mem_commands, hcomma, exists_eq_right]

/-- A text moves the head one cell at a time. -/
theorem offset_of_mem_commands {source : String} {n : Int32}
    (h : Instruction.move n ∈ commands source) : n = 1 ∨ n = -1 := by
  rcases mem_commands.mp h with ⟨c, _, hc⟩
  unfold Instruction.ofChar? at hc
  split at hc <;> simp_all

end TapeLang
