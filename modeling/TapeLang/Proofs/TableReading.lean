import Mathlib.Data.List.Basic
import TapeLang.Token.Table
import TapeLang.Proofs.Commands
import TapeLang.Proofs.TextReading

/-!
# TapeLang.Proofs.TableReading — a token table read back

A line of a token table is a place, the kind of an instruction in a column,
and a label. Colours are terminal escapes around the last two, and the rest
of a line has no control characters, so deleting the escapes gives the table
as it is without colours, and one way of reading serves for both.

* `Text.withoutEscapes` — a text without its terminal escapes;
* `Token.Table.withoutEscapes_render` — colours are nothing but escapes;
* `Token.Table.rows_render` — every line shows its place and its label;
* `Token.Table.Legible` — a label tells its instruction: always if it is a
  term, and for the commands if it is a character;
* `token_table_is_faithful` — the whole table.
-/

namespace TapeLang

namespace Text

/-! ## Terminal escapes -/

def isParameter (c : Char) : Bool :=
  '0' ≤ c ∧ c ≤ '?'

def isIntermediate (c : Char) : Bool :=
  ' ' ≤ c ∧ c ≤ '/'

def isFinal (c : Char) : Bool :=
  '@' ≤ c ∧ c ≤ '~'

/-- A terminal escape: the escape character and a bracket, then parameters,
intermediate characters and one final character. -/
def IsEscape (escape : List Char) : Prop :=
  ∃ parameters intermediates last,
    escape = '\x1b' :: '[' :: (parameters ++ (intermediates ++ [last])) ∧
      parameters.all isParameter = true ∧ intermediates.all isIntermediate = true ∧
      isFinal last = true

/-- What stands behind the terminal escape that a text begins with, if it
begins with one. -/
def behindEscape? : List Char → Option (List Char)
  | '\x1b' :: '[' :: cs =>
    match (cs.dropWhile isParameter).dropWhile isIntermediate with
    | c :: rest => if isFinal c then some rest else none
    | [] => none
  | _ => none

theorem not_isParameter_of_isIntermediate {c : Char} (hc : isIntermediate c = true) :
    isParameter c = false := by
  have hle : c ≤ '/' := (of_decide_eq_true hc).2
  refine decide_eq_false fun hrange => ?_
  exact absurd (Char.le_trans hrange.1 hle) (by decide)

theorem not_isParameter_of_isFinal {c : Char} (hc : isFinal c = true) :
    isParameter c = false := by
  have hle : '@' ≤ c := (of_decide_eq_true hc).1
  refine decide_eq_false fun hrange => ?_
  exact absurd (Char.le_trans hle hrange.2) (by decide)

theorem not_isIntermediate_of_isFinal {c : Char} (hc : isFinal c = true) :
    isIntermediate c = false := by
  have hle : '@' ≤ c := (of_decide_eq_true hc).1
  refine decide_eq_false fun hrange => ?_
  exact absurd (Char.le_trans hle hrange.2) (by decide)

/-- An escape is found, whatever comes behind it. -/
theorem IsEscape.behindEscape? {escape : List Char} (h : IsEscape escape) (rest : List Char) :
    behindEscape? (escape ++ rest) = some rest := by
  obtain ⟨parameters, intermediates, last, rfl, hparameters, hintermediates, hlast⟩ := h
  rw [List.all_eq_true] at hparameters hintermediates
  -- the three kinds of characters exclude each other, so each part ends where the next begins
  have hparameters_end : (intermediates ++ last :: rest).dropWhile isParameter =
      intermediates ++ last :: rest := by
    cases intermediates with
    | nil => simp [not_isParameter_of_isFinal hlast]
    | cons c cs =>
        simp [not_isParameter_of_isIntermediate (hintermediates c List.mem_cons_self)]
  simp [Text.behindEscape?, List.dropWhile_append_of_pos hparameters, hparameters_end,
    List.dropWhile_append_of_pos hintermediates, not_isIntermediate_of_isFinal hlast, hlast]

/-- Nothing but an escape is found. -/
theorem isEscape_of_behindEscape? {text rest : List Char} (h : behindEscape? text = some rest) :
    ∃ escape, IsEscape escape ∧ text = escape ++ rest := by
  unfold behindEscape? at h
  split at h
  case h_2 => cases h
  case h_1 cs =>
    split at h
    case h_2 => cases h
    case h_1 last _ hbehind =>
      obtain ⟨hlast, hrest⟩ := Option.ite_none_right_eq_some.mp h
      cases hrest
      -- parameters, intermediates and a final character, as far as they go
      have hcs : cs = cs.takeWhile isParameter ++
          ((cs.dropWhile isParameter).takeWhile isIntermediate ++ last :: rest) := by
        rw [← hbehind, List.takeWhile_append_dropWhile, List.takeWhile_append_dropWhile]
      refine ⟨_, ⟨cs.takeWhile isParameter, (cs.dropWhile isParameter).takeWhile isIntermediate,
        last, rfl, List.all_takeWhile, List.all_takeWhile, hlast⟩, ?_⟩
      simpa using hcs

theorem length_lt_of_behindEscape? {text rest : List Char}
    (h : behindEscape? text = some rest) : rest.length < text.length := by
  obtain ⟨_, ⟨_, _, _, rfl, _⟩, rfl⟩ := isEscape_of_behindEscape? h
  simp only [List.length_append, List.length_cons]
  omega

/-- A text without its terminal escapes. -/
def withoutEscapes : List Char → List Char
  | [] => []
  | c :: cs =>
    match _h : behindEscape? (c :: cs) with
    | some rest => withoutEscapes rest
    | none => c :: withoutEscapes cs
termination_by text => text.length
decreasing_by
  · exact length_lt_of_behindEscape? ‹_›
  · simp

/-- An escape in front is deleted. -/
theorem withoutEscapes_escape {text rest : List Char} (h : behindEscape? text = some rest) :
    withoutEscapes text = withoutEscapes rest := by
  cases text with
  | nil => cases h
  | cons c cs =>
      rw [withoutEscapes]
      split
      · next rest' hrest =>
          rw [h] at hrest
          cases hrest
          rfl
      · next hnone =>
          rw [h] at hnone
          cases hnone

/-- A character that begins no escape stays. -/
theorem withoutEscapes_cons {c : Char} (hc : c ≠ '\x1b') (cs : List Char) :
    withoutEscapes (c :: cs) = c :: withoutEscapes cs := by
  have hnone : behindEscape? (c :: cs) = none := by
    unfold behindEscape?
    split
    · next heq =>
        cases heq
        exact absurd rfl hc
    · rfl
  rw [withoutEscapes]
  split
  · next rest hrest =>
      rw [hnone] at hrest
      cases hrest
  · rfl

/-! ## Ranges of characters -/

/-- Every character of `cs` is `least` or comes behind it. From the blank on,
there are neither newlines nor escape characters. -/
def AtLeast (least : Char) (cs : List Char) : Prop :=
  ∀ c ∈ cs, least ≤ c

instance (least : Char) (cs : List Char) : Decidable (AtLeast least cs) :=
  decidable_of_iff (cs.all (least ≤ ·) = true) (by simp [AtLeast])

theorem atLeast_append {least : Char} {front back : List Char} :
    AtLeast least (front ++ back) ↔ AtLeast least front ∧ AtLeast least back :=
  List.forall_mem_append

theorem AtLeast.mono {least less : Char} {cs : List Char} (h : AtLeast least cs)
    (hle : less ≤ least) : AtLeast less cs :=
  fun c hc => Char.le_trans hle (h c hc)

theorem AtLeast.not_mem {least c : Char} {cs : List Char} (h : AtLeast least cs)
    (hc : c < least) : c ∉ cs := by
  intro hmem
  exact Char.not_le.mpr hc (h c hmem)

/-- A front without control characters stays as it is. -/
theorem AtLeast.withoutEscapes_append {front : List Char} (h : AtLeast ' ' front)
    (back : List Char) : withoutEscapes (front ++ back) = front ++ withoutEscapes back := by
  induction front with
  | nil => rfl
  | cons c front ih =>
      have hc : c ≠ '\x1b' := by
        rintro rfl
        exact h.not_mem (by decide) List.mem_cons_self
      rw [List.cons_append, withoutEscapes_cons hc, ih fun d hd => h d (List.mem_cons_of_mem c hd),
        List.cons_append]

theorem zero_le_of_isDigit {c : Char} (hc : c.isDigit = true) : '0' ≤ c := by
  simp only [Char.isDigit, Bool.and_eq_true, decide_eq_true_eq] at hc
  exact hc.1

theorem atLeast_padded (width n : Nat) : AtLeast '0' (padded width n).toList :=
  fun _ hc => zero_le_of_isDigit (isDigit_of_mem_padded hc)

theorem atLeast_repr (n : Nat) : AtLeast '0' (Nat.repr n).toList :=
  fun _ hc => zero_le_of_isDigit (isDigit_of_mem_repr hc)

theorem atLeast_signed (i : Int) : AtLeast '-' (signed i).toList := by
  intro c hc
  rcases mem_signed hc with rfl | hdigit
  · exact Char.le_refl _
  · exact Char.le_trans (by decide) (zero_le_of_isDigit hdigit)

theorem AtLeast.column {word : String} (h : AtLeast ' ' word.toList) (width : Nat) :
    AtLeast ' ' (column width word).toList := by
  rw [Text.column, String.toList_append, String.toList_ofList, atLeast_append]
  refine ⟨h, ?_⟩
  intro c hc
  obtain rfl := List.eq_of_mem_replicate hc
  exact Char.le_refl _

end Text

namespace Token.Table

/-! ## Reading -/

/-- The instruction whose term has this name, and the operand that stands in
`operand`. -/
def ofName? (name : String) (operand : List Char) : Option Instruction :=
  match name with
  | "Move" => some (.move (Int32.ofInt (Text.leadingInt operand)))
  | "Mod" => some (.add (Int32.ofInt (Text.leadingInt operand)))
  | "LoopOpen" => some (.loopOpen (Text.leadingNat operand))
  | "LoopClose" => some (.loopClose (Text.leadingNat operand))
  | "SetCell" => some (.set (Int32.ofInt (Text.leadingInt operand)))
  | "SearchZeroCell" => some (.seek (Int32.ofInt (Text.leadingInt operand)))
  | "Print" => some .print
  | "Read" => some .read
  | "End" => some .halt
  | _ => none

/-- The instruction that a term writes. -/
def ofTerm? (term : List Char) : Option Instruction :=
  ofName? (String.ofList (term.takeWhile (· ≠ '('))) ((term.dropWhile (· ≠ '(')).drop 1)

/-- The instruction that a label shows, as a character in quotes or as a
term. -/
def ofLabel? : List Char → Option Instruction
  | '\x27' :: c :: _ => Instruction.ofChar? c
  | term => ofTerm? term

/-- The place and the label of a line. -/
def row? : List Char → Option (Position × List Char)
  | '[' :: place =>
    let behindLine := (place.dropWhile Char.isDigit).drop 1
    -- a bracket and a blank close the place, and the kind has eight columns and a blank
    let body := (behindLine.dropWhile Char.isDigit).drop 2
    some (⟨Text.leadingNat place, Text.leadingNat behindLine⟩, (body.drop 8).drop 1)
  | _ => none

/-- The places and labels of a table, with colours or without, line by
line. -/
def rows (text : String) : List (Position × List Char) :=
  ((Text.withoutEscapes text.toList).splitOn '\n').filterMap row?

/-- The tokens that a table shows. -/
def recover (text : String) : List Token :=
  (rows text).filterMap fun (place, label) => (ofLabel? label).map (⟨·, place⟩)

/-! ## Labels -/

/-- In this style, the label of an instruction tells which one it is. -/
def Legible (style : Style) (op : Instruction) : Prop :=
  ofLabel? (label style op).toList = some op

instance (style : Style) (op : Instruction) : Decidable (Legible style op) :=
  inferInstanceAs (Decidable (ofLabel? (label style op).toList = some op))

/-- Name and operand of a term are read from their places. -/
theorem ofTerm?_operand {name : String} (hname : '(' ∉ name.toList) (operand : List Char) :
    ofTerm? (name.toList ++ '(' :: operand) = ofName? name operand := by
  have hletters : ∀ c ∈ name.toList, decide (c ≠ '(') = true := by
    intro c hc
    have hne : c ≠ '(' := by
      rintro rfl
      exact hname hc
    simpa using hne
  rw [ofTerm?, List.takeWhile_append_of_pos hletters, List.dropWhile_append_of_pos hletters]
  simp

/-- A term with a signed operand. -/
theorem ofTerm?_amount (name : String) {make : Int32 → Instruction} (hname : '(' ∉ name.toList)
    (hmake : ∀ cs, ofName? name cs = some (make (Int32.ofInt (Text.leadingInt cs))))
    {n : Int32} (hterm : (make n).term = name ++ "(" ++ Text.signed n.toInt ++ ")") :
    ofTerm? (make n).term.toList = some (make n) := by
  have hlist : (make n).term.toList =
      name.toList ++ '(' :: ((Text.signed n.toInt).toList ++ [')']) := by
    simp [hterm]
  have hclose : Text.EndsNumber [')'] := Text.endsNumber_cons (by decide) _
  rw [hlist, ofTerm?_operand hname, hmake, Text.leadingInt_signed _ hclose, Int32.ofInt_toInt]

/-- A term with the index of a partner. -/
theorem ofTerm?_partner (name : String) {make : Nat → Instruction} (hname : '(' ∉ name.toList)
    (hmake : ∀ cs, ofName? name cs = some (make (Text.leadingNat cs)))
    {j : Nat} (hterm : (make j).term = name ++ "(" ++ Nat.repr j ++ ")") :
    ofTerm? (make j).term.toList = some (make j) := by
  have hlist : (make j).term.toList = name.toList ++ '(' :: ((Nat.repr j).toList ++ [')']) := by
    simp [hterm]
  have hclose : Text.EndsNumber [')'] := Text.endsNumber_cons (by decide) _
  rw [hlist, ofTerm?_operand hname, hmake, Text.leadingNat_repr _ hclose]

theorem ofTerm?_term (op : Instruction) : ofTerm? op.term.toList = some op := by
  cases op with
  | move n => exact ofTerm?_amount "Move" (by decide) (fun _ => rfl) rfl
  | add n => exact ofTerm?_amount "Mod" (by decide) (fun _ => rfl) rfl
  | loopOpen j => exact ofTerm?_partner "LoopOpen" (by decide) (fun _ => rfl) rfl
  | loopClose j => exact ofTerm?_partner "LoopClose" (by decide) (fun _ => rfl) rfl
  | set n => exact ofTerm?_amount "SetCell" (by decide) (fun _ => rfl) rfl
  | seek n => exact ofTerm?_amount "SearchZeroCell" (by decide) (fun _ => rfl) rfl
  | print => rfl
  | read => rfl
  | halt => rfl

/-- Digits and signs come behind the opening bracket, so in a term with an
operand that is the least character. -/
theorem atLeast_operand {front operand : String} (hfront : Text.AtLeast '(' front.toList)
    (hoperand : Text.AtLeast '-' operand.toList) :
    Text.AtLeast '(' (front ++ operand ++ ")").toList := by
  rw [String.toList_append, String.toList_append, Text.atLeast_append, Text.atLeast_append]
  exact ⟨⟨hfront, hoperand.mono (by decide)⟩, by decide⟩

theorem atLeast_term (op : Instruction) : Text.AtLeast '(' op.term.toList := by
  have hpartner : ∀ j, Text.AtLeast '-' (Nat.repr j).toList :=
    fun j => (Text.atLeast_repr j).mono (by decide)
  cases op with
  | move n => exact atLeast_operand (by decide) (Text.atLeast_signed _)
  | add n => exact atLeast_operand (by decide) (Text.atLeast_signed _)
  | loopOpen j => exact atLeast_operand (by decide) (hpartner j)
  | loopClose j => exact atLeast_operand (by decide) (hpartner j)
  | set n => exact atLeast_operand (by decide) (Text.atLeast_signed _)
  | seek n => exact atLeast_operand (by decide) (Text.atLeast_signed _)
  | print => decide
  | read => decide
  | halt => decide

/-- Without a quote in front, a label is a term. -/
theorem ofLabel?_of_not_mem {cs : List Char} (h : '\x27' ∉ cs) : ofLabel? cs = ofTerm? cs := by
  unfold ofLabel?
  split
  · exact absurd List.mem_cons_self h
  · rfl

theorem legible_term (colored : Bool) (op : Instruction) : Legible ⟨colored, false⟩ op := by
  have hquote : '\x27' ∉ op.term.toList := (atLeast_term op).not_mem (by decide)
  have hlabel : label ⟨colored, false⟩ op = op.term := rfl
  rw [Legible, hlabel, ofLabel?_of_not_mem hquote, ofTerm?_term]

theorem toList_label_quoted (colored : Bool) (op : Instruction) :
    (label ⟨colored, true⟩ op).toList = ['\x27', symbol op, '\x27'] := by
  simp [label]

/-- The character of a command is the one that was read. -/
theorem symbol_of_ofChar? {c : Char} {op : Instruction} (h : Instruction.ofChar? c = some op) :
    symbol op = c := by
  unfold Instruction.ofChar? at h
  split at h
  case h_9 => cases h
  all_goals
    cases h
    decide

theorem legible_symbol (colored : Bool) {c : Char} {op : Instruction}
    (h : Instruction.ofChar? c = some op) : Legible ⟨colored, true⟩ op := by
  rw [Legible, toList_label_quoted, symbol_of_ofChar? h]
  exact h

-- A character does not tell how far a move goes; that of a command goes one cell.
example : ¬ Legible ⟨false, true⟩ (.move 2) := by decide

theorem atLeast_label (style : Style) (op : Instruction) :
    Text.AtLeast ' ' (label style op).toList := by
  obtain ⟨colored, quoted⟩ := style
  cases quoted with
  | false => exact (atLeast_term op).mono (by decide)
  | true =>
      have hsymbol : ' ' ≤ symbol op := by
        unfold symbol
        repeat' split
        all_goals decide
      rw [toList_label_quoted]
      simp [Text.AtLeast, hsymbol]

/-! ## Lines -/

/-- The front of a line. -/
def place (p : Position) : String :=
  "[" ++ Text.padded 2 p.line ++ ":" ++ Text.padded 2 p.column ++ "] "

/-- What a line shows of an instruction. -/
def body (style : Style) (op : Instruction) : String :=
  Text.column 8 (kind op) ++ " " ++ label style op

/-- A terminal escape, if the style has colours. -/
def tint (style : Style) (escape : String) : String :=
  if style.colored then escape else ""

theorem line_eq (style : Style) (t : Token) :
    line style t = place t.position ++ tint style (color t.instruction) ++
      body style t.instruction ++ tint style reset := by
  simp only [line, place, body, tint, String.append_assoc]

/-- Without colours, a line is its place and what it shows of its
instruction. -/
theorem toList_line_uncolored (style : Style) (t : Token) :
    (line ⟨false, style.quoted⟩ t).toList =
      (place t.position).toList ++ (body style t.instruction).toList := by
  simp [line_eq, tint, body, label]

theorem kind_fits (op : Instruction) :
    (kind op).length ≤ 8 ∧ Text.AtLeast ' ' (kind op).toList := by
  have hkinds : ∀ word ∈ ["MOVE", "MOD", "LOOP", "IO", "SYNTH"],
      word.length ≤ 8 ∧ Text.AtLeast ' ' word.toList := by
    decide +kernel
  apply hkinds
  cases op <;> simp [kind]

theorem atLeast_place (p : Position) : Text.AtLeast ' ' (place p).toList := by
  have hnumber : ∀ n, Text.AtLeast ' ' (Text.padded 2 n).toList :=
    fun n => (Text.atLeast_padded 2 n).mono (by decide)
  simp only [place, String.toList_append, Text.atLeast_append]
  exact ⟨⟨⟨⟨by decide, hnumber _⟩, by decide⟩, hnumber _⟩, by decide⟩

theorem atLeast_body (style : Style) (op : Instruction) :
    Text.AtLeast ' ' (body style op).toList := by
  simp only [body, String.toList_append, Text.atLeast_append]
  exact ⟨⟨(kind_fits op).2.column 8, by decide⟩, atLeast_label style op⟩

/-! ## Colours -/

theorem isEscape_reset : Text.IsEscape reset.toList :=
  ⟨['0'], [], 'm', rfl, by decide⟩

theorem isEscape_color (op : Instruction) : Text.IsEscape (color op).toList := by
  cases op with
  | move n => exact ⟨['3', '3'], [], 'm', by simp [color], by decide⟩
  | add n => exact ⟨['3', '6'], [], 'm', by simp [color], by decide⟩
  | loopOpen j => exact ⟨['3', '5'], [], 'm', by simp [color], by decide⟩
  | loopClose j => exact ⟨['3', '5'], [], 'm', by simp [color], by decide⟩
  | print => exact ⟨['3', '2'], [], 'm', by simp [color], by decide⟩
  | read => exact ⟨['3', '1'], [], 'm', by simp [color], by decide⟩
  | set n => exact isEscape_reset
  | seek n => exact isEscape_reset
  | halt => exact isEscape_reset

/-- Where a style adds an escape, deleting takes it away. -/
theorem withoutEscapes_tint (style : Style) {escape : String} (h : Text.IsEscape escape.toList)
    (rest : List Char) :
    Text.withoutEscapes ((tint style escape).toList ++ rest) = Text.withoutEscapes rest := by
  unfold tint
  split
  · exact Text.withoutEscapes_escape (h.behindEscape? rest)
  · rfl

theorem withoutEscapes_line (style : Style) (t : Token) (rest : List Char) :
    Text.withoutEscapes ((line style t).toList ++ rest) =
      (line ⟨false, style.quoted⟩ t).toList ++ Text.withoutEscapes rest := by
  rw [toList_line_uncolored, line_eq]
  simp only [String.toList_append, List.append_assoc]
  rw [(atLeast_place t.position).withoutEscapes_append,
    withoutEscapes_tint style (isEscape_color t.instruction),
    (atLeast_body style t.instruction).withoutEscapes_append,
    withoutEscapes_tint style isEscape_reset]

/-- Without its escapes, a table is the one without colours. -/
theorem withoutEscapes_render (style : Style) (tokens : List Token) :
    Text.withoutEscapes (render style tokens).toList =
      (render ⟨false, style.quoted⟩ tokens).toList := by
  induction tokens with
  | nil => simp [render, Text.ofLines, Text.withoutEscapes]
  | cons t tokens ih =>
      have hlines : ∀ style', (render style' (t :: tokens)).toList =
          (line style' t).toList ++ '\n' :: (render style' tokens).toList :=
        fun style' => toList_ofLines_cons _ _
      rw [hlines, hlines, withoutEscapes_line, Text.withoutEscapes_cons (by decide), ih]

/-! ## Rows -/

theorem row?_line (style : Style) (t : Token) :
    row? (line ⟨false, style.quoted⟩ t).toList =
      some (t.position, (label style t.instruction).toList) := by
  obtain ⟨op, ⟨row, column⟩⟩ := t
  have hline : (line ⟨false, style.quoted⟩ ⟨op, ⟨row, column⟩⟩).toList =
      '[' :: ((Text.padded 2 row).toList ++ ':' :: ((Text.padded 2 column).toList ++
        ']' :: ' ' :: ((Text.column 8 (kind op)).toList ++ ' ' :: (label style op).toList))) := by
    simp [toList_line_uncolored, place, body]
  have hdigits : ∀ n, ∀ c ∈ (Text.padded 2 n).toList, c.isDigit = true :=
    fun _ _ hc => isDigit_of_mem_padded hc
  -- neither the colon nor the bracket is a digit, so both numbers end where they should
  have hcolon : ∀ cs, Text.EndsNumber (':' :: cs) := Text.endsNumber_cons (by decide)
  have hbracket : ∀ cs, Text.EndsNumber (']' :: cs) := Text.endsNumber_cons (by decide)
  rw [hline, row?, Text.leadingNat_padded 2 row (hcolon _),
    Text.dropWhile_digits (hdigits row) (hcolon _), List.drop_one, List.tail_cons,
    Text.leadingNat_padded 2 column (hbracket _),
    Text.dropWhile_digits (hdigits column) (hbracket _)]
  simp only [List.drop_succ_cons, List.drop_zero, Text.drop_column (kind_fits op).1]

theorem newline_not_mem_line (style : Style) (t : Token) :
    '\n' ∉ (line ⟨false, style.quoted⟩ t).toList := by
  rw [toList_line_uncolored]
  exact (Text.atLeast_append.mpr ⟨atLeast_place _, atLeast_body _ _⟩).not_mem (by decide)

/-- Every line of a table shows its place and its label. -/
theorem rows_render (style : Style) (tokens : List Token) :
    rows (render style tokens) =
      tokens.map fun t => (t.position, (label style t.instruction).toList) := by
  have hlines : ∀ text ∈ tokens.map (line ⟨false, style.quoted⟩), '\n' ∉ text.toList := by
    intro text htext
    obtain ⟨t, _, rfl⟩ := List.mem_map.mp htext
    exact newline_not_mem_line style t
  have hrows : (tokens.map (line ⟨false, style.quoted⟩)).filterMap (row? ∘ String.toList) =
      tokens.map fun t => (t.position, (label style t.instruction).toList) := by
    rw [List.filterMap_map, List.filterMap_eq_map_iff_forall_eq_some]
    intro t _
    rw [Function.comp_apply, Function.comp_apply, row?_line]
  rw [rows, withoutEscapes_render, render, splitOn_ofLines hlines, List.filterMap_map,
    List.filterMap_append, hrows]
  -- behind the last newline comes an empty line, which is no row
  simp [row?]

/-- If the labels tell the instructions, the table gives its tokens back. -/
theorem recover_render {style : Style} {tokens : List Token}
    (h : ∀ t ∈ tokens, Legible style t.instruction) :
    recover (render style tokens) = tokens := by
  have hread : ∀ t ∈ tokens,
      (ofLabel? (label style t.instruction).toList).map (⟨·, t.position⟩) = some t := by
    intro t ht
    rw [h t ht]
    rfl
  calc recover (render style tokens)
      = tokens.filterMap fun t =>
          (ofLabel? (label style t.instruction).toList).map (⟨·, t.position⟩) := by
        rw [recover, rows_render, List.filterMap_map]
        rfl
    _ = tokens.filterMap some := List.filterMap_congr hread
    _ = tokens := List.filterMap_some

/-- If the labels tell the instructions, different tokens make different
tables. -/
theorem render_inj {style : Style} {xs ys : List Token}
    (hxs : ∀ t ∈ xs, Legible style t.instruction) (hys : ∀ t ∈ ys, Legible style t.instruction) :
    render style xs = render style ys ↔ xs = ys := by
  constructor
  · intro hsame
    calc xs = recover (render style xs) := (recover_render hxs).symm
      _ = recover (render style ys) := by rw [hsame]
      _ = ys := recover_render hys
  · intro hsame
    rw [hsame]

/-- What a reader finds are commands, so their characters tell them. -/
theorem legible_of_mem_tokens {r : Reader} {t : Token} (ht : t ∈ r.tokens.1) (colored : Bool) :
    Legible ⟨colored, true⟩ t.instruction := by
  have hscan := Reader.scan_instructions r.rest #[] r.position
  have hmem : t.instruction ∈ r.rest.filterMap Instruction.ofChar? := by
    have hinstructions : r.tokens.1.map (·.instruction) =
        r.rest.filterMap Instruction.ofChar? := by
      simpa [Reader.tokens] using hscan
    rw [← hinstructions]
    exact List.mem_map_of_mem ht
  obtain ⟨c, _, hc⟩ := List.mem_filterMap.mp hmem
  exact legible_symbol colored hc

end Token.Table

/-- **A token table is faithful.** If it shows the terms of the instructions,
all tokens can be read back from it, with colours or without; if it shows
characters, this holds for the tokens that a reader finds in a text. And
colours add nothing but terminal escapes: without these, the table is the one
without colours. -/
theorem token_table_is_faithful :
    (∀ (colored : Bool) (xs ys : List Token),
      Token.Table.recover (Token.Table.render ⟨colored, false⟩ xs) = xs ∧
        (Token.Table.render ⟨colored, false⟩ xs = Token.Table.render ⟨colored, false⟩ ys ↔
          xs = ys)) ∧
    (∀ (colored : Bool) (r r' : Reader),
      Token.Table.recover (Token.Table.render ⟨colored, true⟩ r.tokens.1) = r.tokens.1 ∧
        (Token.Table.render ⟨colored, true⟩ r.tokens.1 =
            Token.Table.render ⟨colored, true⟩ r'.tokens.1 ↔
          r.tokens.1 = r'.tokens.1)) ∧
    ∀ (quoted : Bool) (xs : List Token),
      Text.withoutEscapes (Token.Table.render ⟨true, quoted⟩ xs).toList =
        (Token.Table.render ⟨false, quoted⟩ xs).toList := by
  refine ⟨?_, ?_, ?_⟩
  · intro colored xs ys
    -- unquoted, the label is the instruction's own term
    have hterms : ∀ tokens : List Token, ∀ t ∈ tokens,
        Token.Table.Legible ⟨colored, false⟩ t.instruction :=
      fun _ t _ => Token.Table.legible_term colored t.instruction
    exact ⟨Token.Table.recover_render (hterms xs),
      Token.Table.render_inj (hterms xs) (hterms ys)⟩
  · intro colored r r'
    -- quoted, it is the command, which every token of a text has
    have hcommands : ∀ r : Reader, ∀ t ∈ r.tokens.1,
        Token.Table.Legible ⟨colored, true⟩ t.instruction :=
      fun _ _ ht => Token.Table.legible_of_mem_tokens ht colored
    exact ⟨Token.Table.recover_render (hcommands r),
      Token.Table.render_inj (hcommands r) (hcommands r')⟩
  · intro quoted xs
    exact Token.Table.withoutEscapes_render ⟨true, quoted⟩ xs

end TapeLang
