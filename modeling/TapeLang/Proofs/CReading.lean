import TapeLang.CSource
import TapeLang.Proofs.CLanguage
import TapeLang.Proofs.Nesting
import TapeLang.Proofs.TextReading

/-!
# TapeLang.Proofs.CReading — the C text of a program read back

Reading the text of a program gives back its loops: the `while` blocks nest
as its brackets do, whatever partners the brackets carry.

* `constant?_toDigits` — a number is read back as it was written;
* `tokens_text` — what is left of a text when its layout is gone;
* `read?_text` — the statements of a text are those of the forest.
-/

namespace TapeLang

open CLang CSource

/-! ## Numbers -/

/-- A positive number is written without a zero in front. -/
theorem head?_toDigits {n : Nat} (hn : 0 < n) : (Nat.toDigits 10 n).head? ≠ some '0' := by
  have hdigit : ∀ d < 10, 0 < d → Nat.digitChar d ≠ '0' := by decide
  induction n using Nat.strongRecOn with
  | ind n ih =>
      rw [Nat.toDigits_eq_if (by omega)]
      by_cases hlt : n < 10
      · rw [if_pos hlt]
        simpa using hdigit n hlt hn
      · -- the first digit is that of the tenth part
        rw [if_neg hlt]
        have hhead := ih (n / 10) (by omega) (by omega)
        rcases List.exists_cons_of_ne_nil (Nat.toDigits_ne_nil (b := 10) (n := n / 10)) with
          ⟨c, cs, hcons⟩
        rw [hcons] at hhead ⊢
        simpa using hhead

/-- A number is read back as it was written. -/
theorem constant?_toDigits (n : Nat) : constant? (Nat.toDigits 10 n) = some n := by
  unfold constant?
  rw [Nat.ofDigitChars_toDigits (by omega) (by omega), if_pos]
  refine ⟨Nat.toDigits_ne_nil, ?_, ?_⟩
  · rw [List.all_eq_true]
    intro c hc
    exact Nat.isDigit_of_mem_toDigits (by omega) (by omega) hc
  · -- a zero in front is allowed only if it is the number
    intro hhead
    by_cases hn : 0 < n
    · exact absurd hhead (head?_toDigits hn)
    · have hzero : n = 0 := by omega
      subst hzero
      rfl

/-- The tokens of a number. -/
def numeral : Int → List Lexeme
  | .ofNat n => [.number n]
  | .negSucc n => [.minus, .number (n + 1)]

theorem literal?_numeral (i : Int) : literal? (numeral i ++ [.semicolon]) = some i := by
  cases i with
  | ofNat n => rfl
  | negSucc n => rfl

/-! ## Tokens of a line -/

/-- A character of a word is added to the word. -/
theorem lex_word {c : Char} (hc : isWord c = true) (word cs : List Char) :
    lex word (c :: cs) = lex (c :: word) cs := by
  have hplus : c ≠ '+' := by
    rintro rfl
    cases hc
  have hbang : c ≠ '!' := by
    rintro rfl
    cases hc
  rw [lex]
  · simp [hc]
  · simp [hplus]
  · simp [hbang]

theorem lex_words {ds : List Char} (h : ∀ c ∈ ds, isWord c = true) (word cs : List Char) :
    lex word (ds ++ cs) = lex (ds.reverse ++ word) cs := by
  induction ds generalizing word with
  | nil => rfl
  | cons d ds ih =>
      have hd := h d List.mem_cons_self
      have hds := ih (fun c hc => h c (List.mem_cons_of_mem d hc)) (d :: word)
      rw [List.cons_append, lex_word hd, hds]
      simp

/-- A written number is one token, if what comes next ends the word. -/
theorem lex_digits (n : Nat) {cs : List Char}
    (hcs : ∀ word, lex word cs = wordOf word ++ lex [] cs) :
    lex [] (Nat.toDigits 10 n ++ cs) = .number n :: lex [] cs := by
  have hdigits : ∀ c ∈ Nat.toDigits 10 n, isWord c = true := by
    intro c hc
    have hdigit := Nat.isDigit_of_mem_toDigits (by omega) (by omega) hc
    simp [isWord, Char.isAlphanum, hdigit]
  -- the word is collected backwards
  have hword : wordOf (Nat.toDigits 10 n).reverse = [.number n] := by
    cases hrev : (Nat.toDigits 10 n).reverse with
    | nil => exact absurd (List.reverse_eq_nil_iff.mp hrev) Nat.toDigits_ne_nil
    | cons c word =>
        have hback : (c :: word).reverse = Nat.toDigits 10 n := by
          rw [← hrev, List.reverse_reverse]
        rw [wordOf, hback, Lexeme.ofWord, constant?_toDigits]
  rw [lex_words hdigits, List.append_nil, hcs, hword]
  rfl

theorem lex_signed (i : Int) (cs : List Char) :
    lex [] ((Text.signed i).toList ++ ';' :: cs) = numeral i ++ .semicolon :: lex [] cs := by
  cases i with
  | ofNat n =>
      have hlist : (Text.signed (.ofNat n)).toList = Nat.toDigits 10 n := Nat.toList_repr
      rw [hlist, lex_digits n (fun _ => rfl)]
      rfl
  | negSucc n =>
      -- the sign is a token of its own
      have hlist : (Text.signed (.negSucc n)).toList = '-' :: Nat.toDigits 10 (n + 1) := by
        simp [Text.signed, Nat.toList_repr]
      have hminus : ∀ ds, lex [] ('-' :: ds) = .minus :: lex [] ds := by
        intro ds
        rfl
      rw [hlist, List.cons_append, hminus, lex_digits _ (fun _ => rfl)]
      rfl

/-- Blanks in front of a line do not matter. -/
theorem lex_indent (depth : Nat) (line : String) :
    lex [] (indent depth line).toList = lex [] line.toList := by
  have hblanks : ∀ (n : Nat) (cs : List Char),
      lex [] (List.replicate n ' ' ++ cs) = lex [] cs := by
    intro n cs
    induction n with
    | zero => rfl
    | succ n ih =>
        rw [List.replicate_succ, List.cons_append]
        exact ih
  simp only [indent, String.toList_append, String.toList_ofList, hblanks]

/-- The tokens of the test of a loop, with what stands around it. -/
def whileTokens : List Lexeme :=
  [.whileKey, .parenOpen, .memory, .bracketOpen, .pos, .bracketClose, .notEqual, .number 0,
    .parenClose, .braceOpen]

/-- The tokens of a statement. -/
def statementTokens : Statement → List Lexeme
  | .advance n => [.pos, .addAssign] ++ (numeral n.toInt ++ [.semicolon])
  | .increase n =>
    [.memory, .bracketOpen, .pos, .bracketClose, .addAssign] ++ (numeral n.toInt ++ [.semicolon])
  | .assign n =>
    [.memory, .bracketOpen, .pos, .bracketClose, .assign] ++ (numeral n.toInt ++ [.semicolon])
  | .openWhile => whileTokens
  | .closeWhile => [.braceClose]
  | .scan n =>
    whileTokens ++ [.pos, .addAssign] ++ (numeral n.toInt ++ [.semicolon, .braceClose])
  | .putchar => [.putchar, .parenOpen, .memory, .bracketOpen, .pos, .bracketClose, .parenClose,
      .semicolon]

/-- What a line that ends in a value consists of. -/
theorem lex_value {front back : String} {start rest : List Char} {words : List Lexeme} (i : Int)
    (hfront : front.toList = start) (hback : back.toList = ';' :: rest)
    (hwords : ∀ cs, lex [] (start ++ cs) = words ++ lex [] cs) :
    lex [] (front ++ Text.signed i ++ back).toList =
      words ++ (numeral i ++ .semicolon :: lex [] rest) := by
  rw [String.toList_append, String.toList_append, hfront, hback, List.append_assoc, hwords,
    lex_signed]

/-- The test of a loop, character by character. -/
def whileChars : List Char :=
  ['w', 'h', 'i', 'l', 'e', ' ', '(', 'm', 'e', 'm', 'o', 'r', 'y', '[', 'p', 'o', 's', ']', ' ',
    '!', '=', ' ', '0', ')', ' ', '\x7b']

/-- A loop begins with its test. -/
theorem lex_whileChars (cs : List Char) :
    lex [] (whileChars ++ cs) = whileTokens ++ lex [] cs := rfl

theorem lex_text (s : Statement) : lex [] s.text.toList = statementTokens s := by
  have hsemi : ";".toList = ';' :: [] := String.toList_ofList
  -- each text is spelled out up to its number, and `lex_value` reads on from there
  cases s with
  | advance n =>
      have hfront : "pos += ".toList = ['p', 'o', 's', ' ', '+', '=', ' '] :=
        String.toList_ofList
      have hwords : ∀ cs, lex [] (['p', 'o', 's', ' ', '+', '=', ' '] ++ cs) =
          [.pos, .addAssign] ++ lex [] cs := by
        intro cs
        rfl
      exact lex_value n.toInt hfront hsemi hwords
  | increase n =>
      have hfront : "memory[pos] += ".toList = ['m', 'e', 'm', 'o', 'r', 'y', '[', 'p', 'o', 's',
          ']', ' ', '+', '=', ' '] := String.toList_ofList
      have hwords : ∀ cs, lex [] (['m', 'e', 'm', 'o', 'r', 'y', '[', 'p', 'o', 's', ']', ' ', '+',
          '=', ' '] ++ cs) =
          [.memory, .bracketOpen, .pos, .bracketClose, .addAssign] ++ lex [] cs := by
        intro cs
        rfl
      exact lex_value n.toInt hfront hsemi hwords
  | assign n =>
      have hfront : "memory[pos] = ".toList = ['m', 'e', 'm', 'o', 'r', 'y', '[', 'p', 'o', 's',
          ']', ' ', '=', ' '] := String.toList_ofList
      have hwords : ∀ cs, lex [] (['m', 'e', 'm', 'o', 'r', 'y', '[', 'p', 'o', 's', ']', ' ', '=',
          ' '] ++ cs) = [.memory, .bracketOpen, .pos, .bracketClose, .assign] ++ lex [] cs := by
        intro cs
        rfl
      exact lex_value n.toInt hfront hsemi hwords
  | scan n =>
      -- a loop in one line, with its brace behind the number
      have hfront : "while (memory[pos] != 0) \x7b pos += ".toList =
          whileChars ++ [' ', 'p', 'o', 's', ' ', '+', '=', ' '] := String.toList_ofList
      have hback : "; \x7d".toList = ';' :: [' ', '\x7d'] := String.toList_ofList
      have hwords : ∀ cs, lex [] (whileChars ++ [' ', 'p', 'o', 's', ' ', '+', '=', ' '] ++ cs) =
          whileTokens ++ [.pos, .addAssign] ++ lex [] cs := by
        intro cs
        rw [List.append_assoc, lex_whileChars, List.append_assoc]
        rfl
      exact lex_value n.toInt hfront hback hwords
  | openWhile =>
      have hline : Statement.openWhile.text.toList = whileChars ++ [] := String.toList_ofList
      rw [hline, lex_whileChars]
      rfl
  | closeWhile =>
      have hline : Statement.closeWhile.text.toList = ['\x7d'] := String.toList_ofList
      rw [hline]
      rfl
  | putchar =>
      have hline : Statement.putchar.text.toList = ['p', 'u', 't', 'c', 'h', 'a', 'r', '(', 'm',
          'e', 'm', 'o', 'r', 'y', '[', 'p', 'o', 's', ']', ')', ';'] := String.toList_ofList
      rw [hline]
      rfl

/-! ## Tokens of a text -/

/-- The tokens of a line, unless it is for the preprocessor. -/
def lineTokens (line : String) : List Lexeme :=
  if isDirective line.toList then [] else lex [] line.toList

/-- A text consists of what its lines consist of. -/
theorem tokens_ofLines {lines : List String} (h : ∀ line ∈ lines, '\n' ∉ line.toList) :
    tokens (Text.ofLines lines).toList = lines.flatMap lineTokens := by
  induction lines with
  | nil => rfl
  | cons line lines ih =>
      have hlines := ih (fun l hl => h l (List.mem_cons_of_mem line hl))
      unfold tokens at hlines ⊢
      rw [splitOn_ofLines_cons (h line List.mem_cons_self), List.filter_cons, List.flatMap_cons,
        ← hlines]
      by_cases hdir : isDirective line.toList = true
      · simp [lineTokens, hdir]
      · simp [lineTokens, hdir]

/-- Whether a character neither ends a line nor marks one for the
preprocessor. -/
def isPlain (c : Char) : Bool :=
  c != '\n' && c != '#'

/-- A line of plain characters. -/
def Plain (line : String) : Prop :=
  line.toList.all isPlain = true

theorem Plain.append {front back : String} (hfront : Plain front) (hback : Plain back) :
    Plain (front ++ back) := by
  unfold Plain at hfront hback ⊢
  rw [String.toList_append, List.all_append, hfront, hback]
  rfl

theorem plain_signed (i : Int) : Plain (Text.signed i) := by
  unfold Plain
  rw [List.all_eq_true]
  intro c hc
  rcases mem_signed hc with rfl | hdigit
  · rfl
  · -- a digit is neither a newline nor the beginning of a directive
    have hnewline : c ≠ '\n' := by
      rintro rfl
      cases hdigit
    have hhash : c ≠ '#' := by
      rintro rfl
      cases hdigit
    simp [isPlain, hnewline, hhash]

theorem plain_text (s : Statement) : Plain s.text := by
  have hsemi : Plain ";" := by simp [Plain, isPlain]
  cases s with
  | advance n =>
      have hfront : Plain "pos += " := by simp [Plain, isPlain]
      exact (hfront.append (plain_signed _)).append hsemi
  | increase n =>
      have hfront : Plain "memory[pos] += " := by simp [Plain, isPlain]
      exact (hfront.append (plain_signed _)).append hsemi
  | assign n =>
      have hfront : Plain "memory[pos] = " := by simp [Plain, isPlain]
      exact (hfront.append (plain_signed _)).append hsemi
  | scan n =>
      have hfront : Plain "while (memory[pos] != 0) \x7b pos += " := by simp [Plain, isPlain]
      have hback : Plain "; \x7d" := by simp [Plain, isPlain]
      exact (hfront.append (plain_signed _)).append hback
  | openWhile =>
      have hline : Plain "while (memory[pos] != 0) \x7b" := by simp [Plain, isPlain]
      exact hline
  | closeWhile =>
      have hline : Plain "\x7d" := by simp [Plain, isPlain]
      exact hline
  | putchar =>
      have hline : Plain "putchar(memory[pos]);" := by simp [Plain, isPlain]
      exact hline

theorem Plain.indent {line : String} (hline : Plain line) (depth : Nat) :
    Plain (CSource.indent depth line) := by
  apply Plain.append _ hline
  unfold Plain
  rw [String.toList_ofList, List.all_eq_true]
  intro c hc
  rw [List.eq_of_mem_replicate hc]
  rfl

theorem Plain.newline_not_mem {line : String} (hline : Plain line) : '\n' ∉ line.toList := by
  intro hmem
  have hplain := List.all_eq_true.mp hline _ hmem
  cases hplain

theorem Plain.not_directive {line : String} (hline : Plain line) :
    isDirective line.toList = false := by
  cases hdir : isDirective line.toList with
  | false => rfl
  | true =>
      have hhead : (line.toList.dropWhile Char.isWhitespace).head? = some '#' := by
        simpa [isDirective] using hdir
      have hmem := List.dropWhile_subset _ (List.mem_of_mem_head? hhead)
      have hplain := List.all_eq_true.mp hline _ hmem
      cases hplain

theorem Plain.lineTokens {line : String} (hline : Plain line) :
    TapeLang.lineTokens line = lex [] line.toList := by
  unfold TapeLang.lineTokens
  rw [hline.not_directive]
  rfl

/-- The tokens of a plain line, however far to the right it stands. -/
theorem lineTokens_indent {line : String} (hline : Plain line) (depth : Nat) :
    lineTokens (indent depth line) = lex [] line.toList := by
  rw [(hline.indent depth).lineTokens, lex_indent]

/-- The depth at which a statement is written that comes at `depth`. -/
def CSource.Statement.lineDepth (depth : Nat) : Statement → Nat
  | .closeWhile => depth - 1
  | _ => depth

/-- The depth behind a statement that comes at `depth`. -/
def CSource.Statement.nextDepth (depth : Nat) : Statement → Nat
  | .openWhile => depth + 1
  | .closeWhile => depth - 1
  | _ => depth

theorem indented_cons (lines : Array String) (depth : Nat) (s : Statement)
    (rest : List Statement) :
    indented lines depth (s :: rest) =
      indented (lines.push (indent (s.lineDepth depth) s.text)) (s.nextDepth depth) rest := by
  cases s <;> rfl

/-- The lines of statements, one for each. -/
theorem indented_lines (statements : List Statement) (lines : Array String) (depth : Nat) :
    ∃ more, (indented lines depth statements).1.toList = lines.toList ++ more ∧
      (∀ line ∈ more, '\n' ∉ line.toList) ∧
      more.map lineTokens = statements.map statementTokens := by
  induction statements generalizing lines depth with
  | nil => exact ⟨[], by simp [indented], by simp, rfl⟩
  | cons s statements ih =>
      -- one line for `s`, at a depth that does not matter, and the lines of the rest
      rw [indented_cons]
      generalize s.lineDepth depth = d, s.nextDepth depth = depth'
      rcases ih (lines.push (indent d s.text)) depth' with ⟨more, hmore, hplain, htokens⟩
      refine ⟨indent d s.text :: more, ?_, ?_, ?_⟩
      · rw [hmore]
        simp
      · intro line hline
        rcases List.mem_cons.mp hline with rfl | hrest
        · exact ((plain_text s).indent d).newline_not_mem
        · exact hplain line hrest
      · rw [List.map_cons, List.map_cons, htokens, lineTokens_indent (plain_text s) d, lex_text]

theorem epilogue_lines (depth : Nat) :
    (∀ line ∈ epilogue depth, '\n' ∉ line.toList) ∧
      (epilogue depth).flatMap lineTokens =
        [.returnKey, .number 0, .semicolon, .braceClose] := by
  have hreturn : Plain "return 0;" := by simp [Plain, isPlain]
  have hbrace : Plain "\x7d" := by simp [Plain, isPlain]
  constructor
  · intro line hline
    have hcases : line = indent depth "return 0;" ∨ line = indent (depth - 1) "\x7d" := by
      simpa [epilogue] using hline
    rcases hcases with rfl | rfl
    · exact (hreturn.indent depth).newline_not_mem
    · exact (hbrace.indent (depth - 1)).newline_not_mem
  · -- how deep the two lines are does not change their tokens
    have hfirst : "return 0;".toList = ['r', 'e', 't', 'u', 'r', 'n', ' ', '0', ';'] :=
      String.toList_ofList
    have hlast : "\x7d".toList = ['\x7d'] := String.toList_ofList
    rw [epilogue, List.flatMap_cons, List.flatMap_cons, List.flatMap_nil,
      lineTokens_indent hreturn, lineTokens_indent hbrace, hfirst, hlast]
    rfl

/-- The tokens before the statements, clause by clause. -/
def prologueClauses : List (List Lexeme) :=
  [[.int, .main, .parenOpen, .void, .parenClose, .braceOpen],
    [.char, .memory, .bracketOpen, .number tapeLength, .bracketClose, .semicolon],
    [.memset, .parenOpen, .memory, .comma, .number 0, .comma, .sizeof, .parenOpen, .memory,
      .parenClose, .parenClose, .semicolon],
    [.sizeType, .pos, .assign, .number 0, .semicolon]]

/-- The declaration of the array. -/
theorem lex_array (n : Nat) :
    lex [] ("char memory[" ++ Nat.repr n ++ "];").toList =
      [.char, .memory, .bracketOpen, .number n, .bracketClose, .semicolon] := by
  have hfront : "char memory[".toList = ['c', 'h', 'a', 'r', ' ', 'm', 'e', 'm', 'o', 'r', 'y',
      '['] := String.toList_ofList
  have hback : "];".toList = [']', ';'] := String.toList_ofList
  have hwords : ∀ cs, lex [] (['c', 'h', 'a', 'r', ' ', 'm', 'e', 'm', 'o', 'r', 'y', '['] ++ cs)
      = [.char, .memory, .bracketOpen] ++ lex [] cs := by
    intro cs
    rfl
  rw [String.toList_append, String.toList_append, hfront, hback, List.append_assoc, hwords,
    Nat.toList_repr, lex_digits n (fun _ => rfl)]
  rfl

theorem prologue_lines :
    (∀ line ∈ prologue, '\n' ∉ line.toList) ∧
      prologue.flatMap lineTokens = prologueClauses.flatten := by
  have hmain : Plain "int main(void) \x7b" := by simp [Plain, isPlain]
  have harray : Plain ("char memory[" ++ Nat.repr tapeLength ++ "];") := by
    have hfront : Plain "char memory[" := by simp [Plain, isPlain]
    have hback : Plain "];" := by simp [Plain, isPlain]
    exact (hfront.append (plain_signed tapeLength)).append hback
  have hclear : Plain "memset(memory, 0, sizeof(memory));" := by simp [Plain, isPlain]
  have hstart : Plain "size_t pos = 0;" := by simp [Plain, isPlain]
  constructor
  · -- the directives and the blank line, and then four lines of code
    intro line hline
    simp only [prologue, List.mem_cons, List.not_mem_nil, or_false] at hline
    rcases hline with rfl | rfl | rfl | rfl | rfl | rfl | rfl | rfl
    · simp
    · simp
    · simp
    · simp
    · exact hmain.newline_not_mem
    · exact (harray.indent 1).newline_not_mem
    · exact (hclear.indent 1).newline_not_mem
    · exact (hstart.indent 1).newline_not_mem
  · -- directives are not read, and neither is the blank line
    have hdirective : lineTokens "#include <stdio.h>" = [] ∧
        lineTokens "#include <stdlib.h>" = [] ∧ lineTokens "#include <string.h>" = [] ∧
        lineTokens "" = [] := by
      simp [lineTokens, isDirective, lex, wordOf]
    have hmainChars : "int main(void) \x7b".toList = ['i', 'n', 't', ' ', 'm', 'a', 'i', 'n', '(',
        'v', 'o', 'i', 'd', ')', ' ', '\x7b'] := String.toList_ofList
    have hclearChars : "memset(memory, 0, sizeof(memory));".toList = ['m', 'e', 'm', 's', 'e',
        't', '(', 'm', 'e', 'm', 'o', 'r', 'y', ',', ' ', '0', ',', ' ', 's', 'i', 'z', 'e', 'o',
        'f', '(', 'm', 'e', 'm', 'o', 'r', 'y', ')', ')', ';'] := String.toList_ofList
    have hstartChars : "size_t pos = 0;".toList = ['s', 'i', 'z', 'e', '_', 't', ' ', 'p', 'o',
        's', ' ', '=', ' ', '0', ';'] := String.toList_ofList
    simp only [prologue, List.flatMap_cons, List.flatMap_nil, hdirective, hmain.lineTokens,
      lineTokens_indent harray, lineTokens_indent hclear, lineTokens_indent hstart, lex_array,
      hmainChars, hclearChars, hstartChars]
    rfl

/-- The text of statements has a line for each of them, between the prologue
and the epilogue. -/
theorem text_lines (statements : List Statement) :
    ∃ more depth, text statements = Text.ofLines (prologue ++ more ++ epilogue depth) ∧
      (∀ line ∈ prologue ++ more ++ epilogue depth, '\n' ∉ line.toList) ∧
      more.map lineTokens = statements.map statementTokens := by
  obtain ⟨more, hmore, hbody, htokens⟩ := indented_lines statements #[] 1
  refine ⟨more, (indented #[] 1 statements).2, ?_, ?_, htokens⟩
  · have htext : text statements = Text.ofLines
        (prologue ++ (indented #[] 1 statements).1.toList ++
          epilogue (indented #[] 1 statements).2) := rfl
    rw [htext, hmore]
    rfl
  · -- each line is of one of the three parts
    intro line hline
    rcases List.mem_append.mp hline with hfront | hend
    · rcases List.mem_append.mp hfront with hstart | hmiddle
      · exact prologue_lines.1 line hstart
      · exact hbody line hmiddle
    · exact (epilogue_lines _).1 line hend

/-- What is left of a text when its layout is gone. -/
theorem tokens_text (statements : List Statement) :
    tokens (text statements).toList = prologueClauses.flatten ++
      (statements.flatMap statementTokens ++
        [.returnKey, .number 0, .semicolon, .braceClose]) := by
  obtain ⟨more, depth, htext, hlines, hmore⟩ := text_lines statements
  have hmiddle : more.flatMap lineTokens = statements.flatMap statementTokens := by
    rw [List.flatMap_def, hmore, ← List.flatMap_def]
  rw [htext, tokens_ofLines hlines, List.flatMap_append, List.flatMap_append, prologue_lines.2,
    hmiddle, (epilogue_lines depth).2, List.append_assoc]

/-! ## Clauses -/

/-- What a statement says, clause by clause. -/
def statementClauses : Statement → List Clause
  | .advance n => [.simple (.advance n.toInt)]
  | .increase n => [.simple (.increase n.toInt)]
  | .assign n => [.simple (.assign n.toInt)]
  | .openWhile => [.openLoop]
  | .closeWhile => [.close]
  | .scan n => [.openLoop, .simple (.advance n.toInt), .close]
  | .putchar => [.simple .putchar]

/-- Whether tokens are one clause: the last of them is a stop, and no other
is. -/
def isClause (ts : List Lexeme) : Bool :=
  ts.dropLast.all (!·.isStop) && ts.getLast?.any Lexeme.isStop

/-- A clause is cut off behind its stop. -/
theorem clauses_append {ts : List Lexeme} (h : isClause ts = true) (rest : List Lexeme) :
    clauses [] (ts ++ rest) = ts :: clauses [] rest := by
  -- the same when the clause has already begun
  suffices hbegun : ∀ clause : List Lexeme,
      clauses clause (ts ++ rest) = (clause.reverse ++ ts) :: clauses [] rest by
    exact hbegun []
  induction ts with
  | nil => cases h
  | cons t ts ih =>
      intro clause
      cases ts with
      | nil =>
          have hstop : t.isStop = true := by simpa [isClause] using h
          simp [clauses, hstop]
      | cons u ts =>
          have hparts : t.isStop = false ∧ isClause (u :: ts) = true := by
            simpa [isClause, and_assoc] using h
          rw [List.cons_append, clauses, if_neg (by simp [hparts.1]), ih hparts.2]
          simp

theorem clauses_flatten {front : List (List Lexeme)} (h : ∀ ts ∈ front, isClause ts = true)
    (rest : List Lexeme) : clauses [] (front.flatten ++ rest) = front ++ clauses [] rest := by
  induction front with
  | nil => rfl
  | cons ts front ih =>
      have hts := h ts List.mem_cons_self
      have hfront := ih (fun us hus => h us (List.mem_cons_of_mem ts hus))
      rw [List.flatten_cons, List.append_assoc, clauses_append hts, hfront]
      rfl

/-- A statement that ends in a value is one clause. -/
theorem isClause_value {words : List Lexeme} (h : words.all (!·.isStop) = true) (i : Int) :
    isClause (words ++ (numeral i ++ [.semicolon])) = true := by
  have hnumeral : (numeral i).all (!·.isStop) = true := by
    cases i <;> rfl
  unfold isClause
  rw [← List.append_assoc, List.dropLast_concat, List.getLast?_concat, List.all_append, h,
    hnumeral]
  rfl

/-- Reading one clause after another. -/
theorem read_clause {ts : List Lexeme} {clause : Clause} (h : isClause ts = true)
    (hread : Clause.ofLexemes? ts = some clause) (rest : List Lexeme) :
    (clauses [] (ts ++ rest)).mapM Clause.ofLexemes? =
      ((clauses [] rest).mapM Clause.ofLexemes?).map (clause :: ·) := by
  rw [clauses_append h, List.mapM_cons, hread]
  cases (clauses [] rest).mapM Clause.ofLexemes? <;> rfl

/-- Reading a clause that ends in a value. -/
theorem read_value (words : List Lexeme) (make : Int → Clause)
    (hwords : words.all (!·.isStop) = true)
    (hread : ∀ value, Clause.ofLexemes? (words ++ value) = (literal? value).map make) (i : Int)
    (rest : List Lexeme) :
    (clauses [] (words ++ (numeral i ++ [.semicolon]) ++ rest)).mapM Clause.ofLexemes? =
      ((clauses [] rest).mapM Clause.ofLexemes?).map (make i :: ·) := by
  apply read_clause (isClause_value hwords i)
  rw [hread, literal?_numeral]
  rfl

/-- Reading the clauses of a statement. -/
theorem read_statement (s : Statement) (rest : List Lexeme) :
    (clauses [] (statementTokens s ++ rest)).mapM Clause.ofLexemes? =
      ((clauses [] rest).mapM Clause.ofLexemes?).map (statementClauses s ++ ·) := by
  cases s with
  | advance n =>
      exact read_value [.pos, .addAssign] (.simple ∘ .advance) rfl (fun _ => rfl) n.toInt rest
  | increase n =>
      exact read_value [.memory, .bracketOpen, .pos, .bracketClose, .addAssign]
        (.simple ∘ .increase) rfl (fun _ => rfl) n.toInt rest
  | assign n =>
      exact read_value [.memory, .bracketOpen, .pos, .bracketClose, .assign]
        (.simple ∘ .assign) rfl (fun _ => rfl) n.toInt rest
  | openWhile => exact read_clause rfl rfl rest
  | closeWhile => exact read_clause rfl rfl rest
  | scan n =>
      -- a loop around one statement
      have htokens : statementTokens (.scan n) ++ rest =
          whileTokens ++ ([.pos, .addAssign] ++ (numeral n.toInt ++ [.semicolon]) ++
            ([.braceClose] ++ rest)) := by
        simp [statementTokens]
      have hopen : Clause.ofLexemes? whileTokens = some .openLoop := rfl
      have hadvance := read_value [.pos, .addAssign] (.simple ∘ .advance) rfl (fun _ => rfl)
      have hclose : Clause.ofLexemes? [.braceClose] = some .close := rfl
      rw [htokens, read_clause rfl hopen, hadvance, read_clause rfl hclose]
      cases (clauses [] rest).mapM Clause.ofLexemes? <;> rfl
  | putchar => exact read_clause rfl rfl rest

/-- Reading the clauses of all statements. -/
theorem read_statements (statements : List Statement) (rest : List Lexeme) :
    (clauses [] (statements.flatMap statementTokens ++ rest)).mapM Clause.ofLexemes? =
      ((clauses [] rest).mapM Clause.ofLexemes?).map
        (statements.flatMap statementClauses ++ ·) := by
  induction statements with
  | nil => cases h : (clauses [] rest).mapM Clause.ofLexemes? <;> simp [h]
  | cons s statements ih =>
      rw [List.flatMap_cons, List.append_assoc, read_statement, ih, Option.map_map]
      congr 1
      funext more
      simp

/-! ## Statements of a forest -/

mutual

/-- The statements that do what a tree does. Those that end a run have
none. -/
def Tree.inC : Tree → List Stmt
  | .leaf (.move k) => [.simple (.advance k.toInt)]
  | .leaf (.add n) => [.simple (.increase n.toInt8.toInt)]
  | .leaf (.set v) => [.simple (.assign v.toInt8.toInt)]
  | .leaf .print => [.simple .putchar]
  | .leaf .read | .leaf .halt => []
  | .seek k => [.loop [.simple (.advance k.toInt)]]
  | .loop body => [.loop (inC body)]

/-- The statements that do what a forest does. -/
def inC : List Tree → List Stmt
  | [] => []
  | t :: trees => t.inC ++ inC trees

end

/-- One instruction adds the statements of its tree. -/
theorem nest_instruction {op : Instruction} {tree : Tree} (hop : Tree.ofInstruction? op = some tree)
    (around : List (List Stmt)) (current : List Stmt) (rest : List Clause) :
    nest around current
        ((Statement.ofInstruction? op).toList.flatMap statementClauses ++ rest) =
      nest around (tree.inC.reverse ++ current) rest := by
  cases op <;> cases hop
  all_goals
    simp [Statement.ofInstruction?, statementClauses, Tree.inC, nest, Int32.toInt_toInt64]

/-- The clauses of a list nest as its brackets do. -/
theorem Nests.nest_clauses {ops : List Instruction} {trees : List Tree} (h : Nests ops trees)
    (around : List (List Stmt)) (current : List Stmt) (rest : List Clause) :
    nest around current
        ((ops.filterMap Statement.ofInstruction?).flatMap statementClauses ++ rest) =
      nest around ((inC trees).reverse ++ current) rest := by
  induction h generalizing around current rest with
  | nil =>
      rw [inC]
      rfl
  | @tree op tree ops trees hop _ ih =>
      -- one instruction, with no clause or with one
      have hlist : ((op :: ops).filterMap Statement.ofInstruction?).flatMap statementClauses ++
          rest = (Statement.ofInstruction? op).toList.flatMap statementClauses ++
            ((ops.filterMap Statement.ofInstruction?).flatMap statementClauses ++ rest) := by
        cases hs : Statement.ofInstruction? op <;> simp [hs]
      rw [inC, hlist, nest_instruction hop, ih]
      simp
  | @loop i j inner ops body trees _ _ ihinner ihops =>
      -- the body is read inside its braces, and then what is behind them
      have hlist : ((Instruction.loopOpen i :: (inner ++ .loopClose j :: ops)).filterMap
          Statement.ofInstruction?).flatMap statementClauses ++ rest =
          .openLoop :: ((inner.filterMap Statement.ofInstruction?).flatMap statementClauses ++
            .close :: ((ops.filterMap Statement.ofInstruction?).flatMap statementClauses ++
              rest)) := by
        simp [Statement.ofInstruction?, statementClauses]
      rw [inC, Tree.inC, hlist, nest, ihinner, nest, ihops]
      simp

/-- Behind the declarations come the statements. -/
theorem read?_of_clauses {source : String} {rest : List (List Lexeme)}
    (h : clauses [] (tokens source.toList) = prologueClauses ++ rest) :
    read? source = (rest.mapM Clause.ofLexemes?).bind fun said =>
      (nest [] [] said).bind fun body => some (Code.mk tapeLength body) := by
  unfold read?
  rw [h]
  rfl

/-- The statements of a text are those of the forest. -/
theorem read?_text {ops : List Instruction} {trees : List Tree} (h : Nests ops trees) :
    read? (text (ops.filterMap Statement.ofInstruction?)) =
      some { cells := tapeLength, body := inC trees } := by
  have hprologue : ∀ ts ∈ prologueClauses, isClause ts = true := by decide
  -- behind the statements there are the `return` and the brace of the function
  have hlast : (clauses [] [.returnKey, .number 0, .semicolon, .braceClose]).mapM
      Clause.ofLexemes? = some [.leave, .close] := rfl
  have hbody : nest [] [] ((ops.filterMap Statement.ofInstruction?).flatMap statementClauses ++
      [.leave, .close]) = some (inC trees) := by
    rw [h.nest_clauses]
    simp [nest]
  have hclauses : clauses [] (tokens (text (ops.filterMap Statement.ofInstruction?)).toList) =
      prologueClauses ++ clauses [] ((ops.filterMap Statement.ofInstruction?).flatMap
        statementTokens ++ [.returnKey, .number 0, .semicolon, .braceClose]) := by
    rw [tokens_text, clauses_flatten hprologue]
  rw [read?_of_clauses hclauses, read_statements, hlast]
  rw [Option.map_some, Option.bind_some, hbody]
  rfl

/-- A program without a `read` has a text. -/
theorem render_of_not_mem_read {p : Program} (h : Instruction.read ∉ p.code) :
    render p = .ok (text (body p)) := by
  have hnone : p.code.findIdx? (· = .read) = none := by
    rw [Array.findIdx?_eq_none_iff]
    intro op hop
    have hne : op ≠ .read := by
      rintro rfl
      exact h hop
    simpa using hne
  rw [render, hnone]

end TapeLang
