import TapeLang.Listing
import TapeLang.Proofs.TextReading

/-!
# TapeLang.Proofs.ListingReading — a listing read back

A line of a listing is an index, a mark, the name of an instruction in a
column, and what stands behind the name. Index and mark depend on the rest
of the list, name and operand on the instruction alone, so each line gives
its instruction back, and a rule gives none. Nothing is assumed of the
operands: the list need not be linked, and a bracket may name any index.

* `Listing.recover` — the instructions of a listing;
* `Listing.splitOn_render` — a listing falls into its lines;
* `Listing.ofBody?_body`, `Listing.instruction?_line` — one line;
* `listing_is_faithful` — the whole listing.
-/

namespace TapeLang

namespace Listing

/-! ## Reading -/

/-- The instruction with this name, and with the operand that stands in
`operand`. -/
def ofName? (name : String) (operand : List Char) : Option Instruction :=
  match name with
  | "MOVE" => some (.move (Int32.ofInt (Text.leadingInt operand)))
  | "MOD" => some (.add (Int32.ofInt (Text.leadingInt operand)))
  | "SET_CELL" => some (.set (Int32.ofInt (Text.leadingInt operand)))
  | "SEARCH_ZERO" => some (.seek (Int32.ofInt (Text.leadingInt operand)))
  -- the partner stands behind an arrow, a blank, a bracket, an arrow and a blank
  | "LOOP_OPEN" => some (.loopOpen (Text.leadingNat (operand.drop 5)))
  | "LOOP_CLOSE" => some (.loopClose (Text.leadingNat (operand.drop 5)))
  | "PRINT" => some .print
  | "READ" => some .read
  | "END" => some .halt
  | _ => none

/-- The instruction that a line shows behind its index and its mark. -/
def ofBody? (body : List Char) : Option Instruction :=
  ofName? (String.ofList (body.takeWhile (· ≠ ' '))) (body.drop 12)

/-- The instruction that a line shows. A rule shows none. -/
def instruction? (line : List Char) : Option Instruction :=
  ofBody? ((line.dropWhile Char.isDigit).drop 3)

/-- The instructions that a listing shows, line by line. -/
def recover (text : String) : List Instruction :=
  (text.toList.splitOn '\n').filterMap instruction?

/-! ## One instruction -/

theorem mnemonic_fits (op : Instruction) :
    op.mnemonic.length < 12 ∧ ' ' ∉ op.mnemonic.toList ∧ '\n' ∉ op.mnemonic.toList := by
  have hnames : ∀ name ∈ ["MOVE", "MOD", "LOOP_OPEN", "LOOP_CLOSE", "SET_CELL", "SEARCH_ZERO",
      "PRINT", "READ", "END"], name.length < 12 ∧ ' ' ∉ name.toList ∧ '\n' ∉ name.toList := by
    decide +kernel
  apply hnames
  cases op <;> simp [Instruction.mnemonic]

/-- In front of the operand stands the name, in a column of twelve. -/
theorem body_eq {op : Instruction} (ip : Nat) (hop : op ≠ .halt) :
    (body ip op).toList = (Text.column 12 op.mnemonic).toList ++ (operands ip op).toList := by
  rw [body, String.toList_append]
  exact hop

/-- So the name and the operand are read from their places. -/
theorem ofBody?_eq {op : Instruction} (ip : Nat) (hop : op ≠ .halt) :
    ofBody? (body ip op).toList = ofName? op.mnemonic (operands ip op).toList := by
  obtain ⟨hlt, hblank, _⟩ := mnemonic_fits op
  rw [ofBody?, body_eq ip hop, Text.takeWhile_column hlt hblank,
    Text.drop_column (Nat.le_of_lt hlt), String.ofList_toList]

/-- The partner of a bracket is found behind the arrow. -/
theorem leadingNat_jump (ip partner : Nat) (rest : String) :
    Text.leadingNat ((jump ip partner ++ rest).toList.drop 5) = partner := by
  have hrest : Text.EndsNumber (')' :: rest.toList) := Text.endsNumber_cons (by decide) _
  have hdrop : (jump ip partner ++ rest).toList.drop 5 =
      (Text.padded 4 partner).toList ++ ')' :: rest.toList := by
    by_cases hlt : partner < ip
    · simp [jump, hlt]
    · simp [jump, hlt]
  rw [hdrop, Text.leadingNat_padded 4 partner hrest]

/-- The part of a line that shows an instruction gives it back. -/
theorem ofBody?_body (ip : Nat) (op : Instruction) : ofBody? (body ip op).toList = some op := by
  -- an operand at the end of its line is followed by nothing
  have hsigned : ∀ i, Text.leadingInt (Text.signed i).toList = i := by
    intro i
    simpa using Text.leadingInt_signed i Text.endsNumber_nil
  have hwith : ∀ i, Text.leadingInt (Text.withSign i).toList = i := by
    intro i
    simpa using Text.leadingInt_withSign i Text.endsNumber_nil
  cases op with
  | move n =>
      rw [ofBody?_eq ip (by simp)]
      simp [ofName?, Instruction.mnemonic, operands, hwith]
  | add n =>
      rw [ofBody?_eq ip (by simp)]
      simp [ofName?, Instruction.mnemonic, operands, hwith]
  | set n =>
      rw [ofBody?_eq ip (by simp)]
      simp [ofName?, Instruction.mnemonic, operands, hsigned]
  | seek n =>
      have hstride : Text.leadingInt (operands ip (.seek n)).toList = n.toInt := by
        rw [operands, String.toList_append]
        exact Text.leadingInt_withSign n.toInt (Text.endsNumber_cons (by decide) _)
      rw [ofBody?_eq ip (by simp)]
      simp [ofName?, Instruction.mnemonic, hstride]
  | loopOpen j =>
      rw [ofBody?_eq ip (by simp)]
      simp only [ofName?, Instruction.mnemonic, operands, leadingNat_jump]
  | loopClose j =>
      rw [ofBody?_eq ip (by simp)]
      simp only [ofName?, Instruction.mnemonic, operands, leadingNat_jump]
  | print =>
      rw [ofBody?_eq ip (by simp)]
      simp [ofName?, Instruction.mnemonic]
  | read =>
      rw [ofBody?_eq ip (by simp)]
      simp [ofName?, Instruction.mnemonic]
  | halt => simp [ofBody?, ofName?, body, Instruction.mnemonic]

/-! ## One line -/

/-- The mark in front of an instruction. -/
def mark (marked : Bool) : String :=
  if marked then " ► " else "   "

/-- The line of an instruction. -/
def line (marked : Bool) (ip : Nat) (op : Instruction) : String :=
  Text.padded 4 ip ++ mark marked ++ body ip op

theorem entry_eq (marked : Bool) (ip : Nat) (op : Instruction) :
    entry marked ip op = (if marked then [rule] else []) ++ [line marked ip op] := by
  cases marked <;> rfl

theorem instruction?_line (marked : Bool) (ip : Nat) (op : Instruction) :
    instruction? (line marked ip op).toList = some op := by
  -- marked or not, two characters stand between the index and the body
  have hmark : ∃ c d, (mark marked).toList = [' ', c, d] := by
    cases marked <;> simp [mark]
  obtain ⟨c, d, hmark⟩ := hmark
  have hrest : Text.EndsNumber (' ' :: c :: d :: (body ip op).toList) :=
    Text.endsNumber_cons (by decide) _
  have hdigits : ∀ e ∈ (Text.padded 4 ip).toList, e.isDigit = true :=
    fun _ he => isDigit_of_mem_padded he
  have hline : (line marked ip op).toList =
      (Text.padded 4 ip).toList ++ ' ' :: c :: d :: (body ip op).toList := by
    rw [line, String.toList_append, String.toList_append, hmark]
    simp
  rw [instruction?, hline, Text.dropWhile_digits hdigits hrest]
  exact ofBody?_body ip op

theorem toList_rule :
    rule.toList = List.replicate 6 ' ' ++ '┌' :: List.replicate 34 '─' := String.toList_ofList

/-- What begins with three blanks and one more shows nothing. -/
theorem instruction?_blank (cs : List Char) :
    instruction? (' ' :: ' ' :: ' ' :: ' ' :: cs) = none := by
  simp [instruction?, ofBody?, ofName?, Char.isDigit]

theorem instruction?_rule : instruction? rule.toList = none := by
  rw [toList_rule]
  exact instruction?_blank _

theorem instruction?_nil : instruction? [] = none := by
  simp [instruction?, ofBody?, ofName?]

/-- The lines of an instruction give back that instruction only. -/
theorem instruction?_entry (marked : Bool) (ip : Nat) (op : Instruction) :
    (entry marked ip op).filterMap (instruction? ∘ String.toList) = [op] := by
  rw [entry_eq, List.filterMap_append]
  cases marked <;> simp [instruction?_rule, instruction?_line]

/-! ## Newlines -/

theorem newline_not_mem_jump (ip partner : Nat) : '\n' ∉ (jump ip partner).toList := by
  by_cases hlt : partner < ip
  · simp [jump, hlt, newline_not_mem_padded]
  · simp [jump, hlt, newline_not_mem_padded]

theorem newline_not_mem_operands (ip : Nat) (op : Instruction) :
    '\n' ∉ (operands ip op).toList := by
  cases op <;>
    simp [operands, newline_not_mem_signed, newline_not_mem_withSign, newline_not_mem_jump]

theorem newline_not_mem_body (ip : Nat) (op : Instruction) : '\n' ∉ (body ip op).toList := by
  obtain ⟨_, _, hname⟩ := mnemonic_fits op
  by_cases hop : op = .halt
  · subst hop
    exact hname
  · rw [body_eq ip hop]
    simp [Text.column, hname, newline_not_mem_operands]

theorem newline_not_mem_line (marked : Bool) (ip : Nat) (op : Instruction) :
    '\n' ∉ (line marked ip op).toList := by
  have hmark : '\n' ∉ (mark marked).toList := by
    cases marked <;> simp [mark]
  simp [line, hmark, newline_not_mem_padded, newline_not_mem_body]

theorem newline_not_mem_entry {marked : Bool} {ip : Nat} {op : Instruction} {text : String}
    (h : text ∈ entry marked ip op) : '\n' ∉ text.toList := by
  rw [entry_eq, List.mem_append, List.mem_singleton] at h
  rcases h with hrule | rfl
  · have htext : text = rule := by
      cases marked <;> simp_all
    rw [htext, toList_rule]
    simp
  · exact newline_not_mem_line marked ip op

/-! ## Whole listings -/

/-- The lines of a listing. -/
def lines (ops : List Instruction) : List String :=
  (ops.mapIdx fun ip op => entry ((targets ops).contains ip) ip op).flatten

theorem render_eq (ops : List Instruction) : render ops = Text.ofLines (lines ops) := rfl

theorem splitOn_render (ops : List Instruction) :
    (render ops).toList.splitOn '\n' = (lines ops ++ [""]).map String.toList := by
  rw [render_eq]
  apply splitOn_ofLines
  intro text htext
  obtain ⟨block, hblock, htext⟩ := List.mem_flatten.mp htext
  obtain ⟨ip, hip, rfl⟩ := List.mem_mapIdx.mp hblock
  exact newline_not_mem_entry htext

/-- If each entry gives one instruction back, all of them give the list
back, wherever it begins. -/
theorem filterMap_flatten_mapIdx {g : String → Option Instruction}
    {f : Nat → Instruction → List String} (h : ∀ ip op, (f ip op).filterMap g = [op])
    (ops : List Instruction) : (ops.mapIdx f).flatten.filterMap g = ops := by
  induction ops generalizing f with
  | nil => rfl
  | cons op ops ih =>
      rw [List.mapIdx_cons, List.flatten_cons, List.filterMap_append, h,
        ih fun ip op => h (ip + 1) op]
      rfl

theorem recover_render (ops : List Instruction) : recover (render ops) = ops := by
  have hlines : (lines ops).filterMap (instruction? ∘ String.toList) = ops := by
    rw [lines]
    exact filterMap_flatten_mapIdx (fun ip op => instruction?_entry _ ip op) ops
  rw [recover, splitOn_render, List.filterMap_map, List.filterMap_append, hlines]
  simp [instruction?_nil]

end Listing

/-- **A listing is faithful.** The instructions can be read back from it, so
two lists with the same listing are the same. -/
theorem listing_is_faithful (xs ys : List Instruction) :
    Listing.recover (Listing.render xs) = xs ∧
      (Listing.render xs = Listing.render ys ↔ xs = ys) := by
  refine ⟨Listing.recover_render xs, ?_⟩
  constructor
  · intro hsame
    calc xs = Listing.recover (Listing.render xs) := (Listing.recover_render xs).symm
      _ = Listing.recover (Listing.render ys) := by rw [hsame]
      _ = ys := Listing.recover_render ys
  · intro hsame
    rw [hsame]

end TapeLang
