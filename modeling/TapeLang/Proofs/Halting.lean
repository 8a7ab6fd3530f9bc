import TapeLang.Proofs.CBackend
import TapeLang.Proofs.Pairing

/-!
# TapeLang.Proofs.Halting — how many halts linked code has

Linking puts a `halt` behind the code and leaves alone those that are in it.
So the code always ends in a `halt`, but it has just this one only if the
list had none. Lists that come from a text never have one.

A `halt` inside the code is where the two backends part: a run that comes to
it is over, and the C text says nothing about it.

* `ofInstructions_image` — linked code is the list, up to the operands of
  brackets, and a `halt`;
* `Program.endsOnce_iff` — when the last `halt` is the only one;
* `render_without_halts` — the C text is that of the list without halts;
* `linking_keeps_halts` — all of it together.
-/

namespace TapeLang

/-- The last instruction is a `halt`, and no other is. -/
def Program.EndsOnce (p : Program) : Prop :=
  ∃ front, p.code.toList = front ++ [.halt] ∧ .halt ∉ front

/-! ## Halts of a list and of its program -/

theorem Instruction.unlinked_eq_halt_iff {op : Instruction} : op.unlinked = .halt ↔ op = .halt := by
  cases op <;> simp [Instruction.unlinked]

/-- Linked code is the list, up to the operands of brackets, with a `halt`
behind it. -/
theorem ofInstructions_image {ops : List Instruction} {p : Program}
    (h : Program.ofInstructions ops = .ok p) :
    ∃ image, p.code.toList = image ++ [.halt] ∧
      image.map Instruction.unlinked = ops.map Instruction.unlinked := by
  obtain ⟨trees, hnests⟩ := (ofInstructions_isOk_iff.mp ⟨p, h⟩).nests
  obtain ⟨p', hp', _, hcode⟩ := hnests.linked
  rw [h] at hp'
  cases hp'
  -- forgetting operands keeps the seam between the list and the `halt` behind it
  obtain ⟨image, last, hsplit, himage, hlast⟩ := List.map_eq_append_iff.mp hcode
  obtain ⟨op, rest, rfl, hop, hrest⟩ := List.map_eq_cons_iff.mp hlast
  rw [Instruction.unlinked_eq_halt_iff] at hop
  rw [List.map_eq_nil_iff] at hrest
  exact ⟨image, by rw [hsplit, hop, hrest], himage⟩

section

variable {image ops : List Instruction}

/-- Lists that differ in the operands of brackets only have halts at the same
places. -/
theorem getElem?_halt_iff (h : image.map Instruction.unlinked = ops.map Instruction.unlinked)
    (i : Nat) : image[i]? = some .halt ↔ ops[i]? = some .halt := by
  have hget : ∀ code : List Instruction,
      code[i]? = some .halt ↔ (code.map Instruction.unlinked)[i]? = some .halt := by
    intro code
    simp [Instruction.unlinked_eq_halt_iff]
  rw [hget image, h, ← hget ops]

theorem mem_halt_iff (h : image.map Instruction.unlinked = ops.map Instruction.unlinked) :
    Instruction.halt ∈ image ↔ Instruction.halt ∈ ops := by
  simp only [List.mem_iff_getElem?, getElem?_halt_iff h]

theorem count_halt_eq (h : image.map Instruction.unlinked = ops.map Instruction.unlinked) :
    image.count .halt = ops.count .halt := by
  have hcount : ∀ code : List Instruction,
      code.count .halt = (code.map Instruction.unlinked).count .halt := by
    intro code
    simp only [List.count, List.countP_map]
    refine List.countP_congr fun op _ => ?_
    simp [Instruction.unlinked_eq_halt_iff]
  rw [hcount image, h, ← hcount ops]

end

theorem Program.endsOnce_iff {ops : List Instruction} {p : Program}
    (h : Program.ofInstructions ops = .ok p) : p.EndsOnce ↔ .halt ∉ ops := by
  obtain ⟨image, hcode, himage⟩ := ofInstructions_image h
  rw [← mem_halt_iff himage]
  constructor
  · rintro ⟨front, hfront, hhalt⟩
    rw [hcode] at hfront
    rwa [(List.append_inj_left' hfront rfl)]
  · intro hhalt
    exact ⟨image, hcode, hhalt⟩

/-! ## What the C text makes of them -/

/-- A list without its halts. -/
def withoutHalts (ops : List Instruction) : List Instruction :=
  ops.filter (· ≠ .halt)

theorem halt_not_mem_withoutHalts (ops : List Instruction) : .halt ∉ withoutHalts ops := by
  simp [withoutHalts]

/-- What a `halt` is not, is counted as before. -/
theorem countP_withoutHalts (kind : Instruction → Bool) (hkind : kind .halt = false)
    (ops : List Instruction) : (withoutHalts ops).countP kind = ops.countP kind := by
  rw [withoutHalts, List.countP_filter]
  refine List.countP_congr fun op _ => ?_
  cases op <;> simp [hkind]

theorem Balanced.withoutHalts {ops : List Instruction} (h : Balanced ops) :
    Balanced (withoutHalts ops) := by
  have hopen := countP_withoutHalts Instruction.isOpen rfl
  have hclose := countP_withoutHalts Instruction.isClose rfl
  constructor
  · intro front hfront
    -- the front comes from a front of the whole list, with the same brackets
    obtain ⟨whole, hwhole, rfl⟩ := List.prefix_filter_iff.mp hfront
    have hle := h.1 whole hwhole
    rwa [← hopen, ← hclose] at hle
  · rw [hopen, hclose]
    exact h.2

/-- The C text of a program is that of the list without its halts. -/
theorem render_without_halts {ops : List Instruction} {p : Program}
    (h : Program.ofInstructions ops = .ok p) (hread : .read ∉ ops) :
    ∃ q, Program.ofInstructions (withoutHalts ops) = .ok q ∧ q.EndsOnce ∧
      CSource.render p = CSource.render q := by
  have hbalanced := ofInstructions_isOk_iff.mp ⟨p, h⟩
  obtain ⟨q, hq⟩ := ofInstructions_isOk_iff.mpr hbalanced.withoutHalts
  refine ⟨q, hq, (Program.endsOnce_iff hq).mpr (halt_not_mem_withoutHalts ops), ?_⟩
  obtain ⟨trees, hnests⟩ := hbalanced.nests
  obtain ⟨trees', hnests'⟩ := hbalanced.withoutHalts.nests
  have hread' : .read ∉ withoutHalts ops := fun hmem => hread (List.mem_of_mem_filter hmem)
  -- a `halt` has no statement
  have hbody : (withoutHalts ops).filterMap CSource.Statement.ofInstruction? =
      ops.filterMap CSource.Statement.ofInstruction? := by
    rw [withoutHalts, List.filterMap_filter]
    refine List.filterMap_congr fun op _ => ?_
    cases op <;> simp [CSource.Statement.ofInstruction?]
  rw [render_linked hnests h hread, render_linked hnests' hq hread', hbody]

/-! ## Programs -/

/-- Linked code ends in a `halt`; its other halts are those of the list, at
their places. So the last one is the only one exactly if the list has none,
as is the case with every text. The C text knows of no others: it is the text
of a program that ends once. -/
theorem linking_keeps_halts (p : Program) :
    (∀ ops : List Instruction, Program.ofInstructions ops = .ok p →
      p.code.back? = some .halt ∧
      (∀ i, p.code[i]? = some .halt ↔ ops[i]? = some .halt ∨ i = ops.length) ∧
      p.code.count .halt = ops.count .halt + 1 ∧
      (p.EndsOnce ↔ .halt ∉ ops) ∧
      (.read ∉ ops → ∃ q, Program.ofInstructions (withoutHalts ops) = .ok q ∧ q.EndsOnce ∧
        CSource.render p = CSource.render q)) ∧
    ∀ (optimize : Bool) (source : String), compile optimize source = .ok p → p.EndsOnce := by
  constructor
  · -- the code is an image of the list that keeps each `halt`, with one more behind it
    intro ops h
    obtain ⟨image, hcode, himage⟩ := ofInstructions_image h
    have hlength : image.length = ops.length := by
      simpa using congrArg List.length himage
    refine ⟨?_, ?_, ?_, Program.endsOnce_iff h, render_without_halts h⟩
    · rw [← Array.getLast?_toList, hcode, List.getLast?_concat]
    · intro i
      rw [← Array.getElem?_toList, hcode, getElem?_concat, hlength, ← getElem?_halt_iff himage]
      by_cases hi : i = ops.length <;> simp [hi]
    · rw [← Array.count_toList, hcode, List.count_append, count_halt_eq himage]
      simp
  · -- commands have no `halt`, and shrinking brings none in
    intro optimize source h
    obtain ⟨ops, hops, hhalt, _⟩ := compile_eq_ok h
    exact (Program.endsOnce_iff hops).mpr hhalt

/-- The code of a program, linked again, ends twice. -/
theorem relinked_code_ends_twice :
    Program.ofInstructions [.add 1] = .ok ⟨#[.add 1, .halt]⟩ ∧
    Program.ofInstructions [.add 1, .halt] = .ok ⟨#[.add 1, .halt, .halt]⟩ ∧
    ¬ Program.EndsOnce ⟨#[.add 1, .halt, .halt]⟩ := by
  have hagain : Program.ofInstructions [.add 1, .halt] = .ok ⟨#[.add 1, .halt, .halt]⟩ := rfl
  refine ⟨rfl, hagain, ?_⟩
  rw [Program.endsOnce_iff hagain]
  simp

/-- In `halt, print` the first instruction ends the run, so nothing is
printed. The C text is that of the program of `print`, whose run prints a
byte. -/
theorem early_halt_parts_backends :
    Program.ofInstructions [.halt, .print] = .ok ⟨#[.halt, .print, .halt]⟩ ∧
    ¬ Program.EndsOnce ⟨#[.halt, .print, .halt]⟩ ∧
    CSource.render ⟨#[.halt, .print, .halt]⟩ = CSource.render ⟨#[.print, .halt]⟩ ∧
    (Program.run? ⟨#[.halt, .print, .halt]⟩ none 9 ({} : Sink)).map (·.state.writer.bytes) =
      some #[] ∧
    (Program.run? ⟨#[.print, .halt]⟩ none 9 ({} : Sink)).map (·.state.writer.bytes) =
      some #[0] := by
  have hp : Program.ofInstructions [.halt, .print] = .ok ⟨#[.halt, .print, .halt]⟩ := rfl
  obtain ⟨_, _, _, hends, htext⟩ := (linking_keeps_halts _).1 _ hp
  obtain ⟨q, hq, _, hsame⟩ := htext (by simp)
  have hprint :
      Program.ofInstructions (withoutHalts [.halt, .print]) = .ok ⟨#[.print, .halt]⟩ := rfl
  rw [hprint] at hq
  cases hq
  refine ⟨hp, ?_, hsame, by decide +kernel, by decide +kernel⟩
  rw [hends]
  simp

end TapeLang
