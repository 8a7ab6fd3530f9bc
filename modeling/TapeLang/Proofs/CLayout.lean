import TapeLang.Proofs.CReading
import TapeLang.Proofs.Depth

/-!
# TapeLang.Proofs.CLayout — the lines of the C text

The text is laid out with a counter that knows nothing of partners: it goes
up behind an opening bracket and down before a closing one, and stays at
zero if it is there. In the text of a program the counter is always the
number of loops that are open, and one for the `main` around them. So it is
never at zero, and the text indents each line by the loops around its
instruction.

* `braces` — the braces of a text, opened and closed in order;
* `WellLinked.indented_take` — the lines and the counter in the middle of a
  program;
* `WellLinked.braces_bodyLines` — the braces of the text agree with it;
* `c_text_is_laid_out` — the whole text.
-/

namespace TapeLang

open CSource

/-! ## Braces -/

/-- How many braces are open behind a text with `depth` open before it,
unless it closes one that is not open. -/
def braces : Nat → List Char → Option Nat
  | depth, [] => some depth
  | depth, c :: cs =>
    if c = '\x7b' then
      braces (depth + 1) cs
    else if c = '\x7d' then
      if depth = 0 then none else braces (depth - 1) cs
    else
      braces depth cs

theorem braces_append (depth : Nat) (xs ys : List Char) :
    braces depth (xs ++ ys) = (braces depth xs).bind fun inner => braces inner ys := by
  induction xs generalizing depth with
  | nil => rfl
  | cons c xs ih =>
      rw [List.cons_append, braces, braces]
      split_ifs
      · exact ih (depth + 1)
      · rfl
      · exact ih (depth - 1)
      · exact ih depth

/-- A text without braces leaves them as they are. -/
theorem braces_of_not_mem {cs : List Char} (hopen : '\x7b' ∉ cs) (hclose : '\x7d' ∉ cs)
    (depth : Nat) : braces depth cs = some depth := by
  induction cs with
  | nil => rfl
  | cons c cs ih =>
      simp only [List.mem_cons, not_or] at hopen hclose
      rw [braces, if_neg (Ne.symm hopen.1), if_neg (Ne.symm hclose.1), ih hopen.2 hclose.2]

/-- Braces that are open were open before or have been opened. -/
theorem braces_count {depth inner : Nat} {cs : List Char} (h : braces depth cs = some inner) :
    depth + cs.count '\x7b' = inner + cs.count '\x7d' := by
  induction cs generalizing depth with
  | nil =>
      cases h
      rfl
  | cons c cs ih =>
      rw [braces] at h
      split_ifs at h with hopen hclose hzero
      · -- one brace more is open
        subst hopen
        have hrest := ih h
        simp
        omega
      · -- one brace less is open, and there was one
        subst hclose
        have hrest := ih h
        simp
        omega
      · have hrest := ih h
        simpa [hopen, hclose] using hrest

/-- If no brace is open before a text or behind it, then no part of it from
its start closes more braces than it opens. -/
theorem count_le_of_braces {cs front : List Char} (h : braces 0 cs = some 0)
    (hfront : front <+: cs) : front.count '\x7d' ≤ front.count '\x7b' := by
  obtain ⟨back, rfl⟩ := hfront
  rw [braces_append] at h
  obtain ⟨inner, hinner, _⟩ := Option.bind_eq_some_iff.mp h
  have hcount := braces_count hinner
  omega

/-! ## Lines -/

theorem braces_ofLines_cons {depth inner : Nat} {line : String}
    (h : braces depth line.toList = some inner) (lines : List String) :
    braces depth (Text.ofLines (line :: lines)).toList =
      braces inner (Text.ofLines lines).toList := by
  rw [toList_ofLines_cons, braces_append, h]
  rfl

/-- The number of blanks in front of a line. -/
def blanks (line : String) : Nat :=
  (line.toList.takeWhile (· = ' ')).length

theorem braces_indent {depth inner : Nat} {line : String}
    (h : braces depth line.toList = some inner) (d : Nat) :
    braces depth (indent d line).toList = some inner := by
  have hblanks : braces depth (List.replicate (2 * d) ' ') = some depth := by
    apply braces_of_not_mem <;> simp
  rw [indent, String.toList_append, String.toList_ofList, braces_append, hblanks,
    Option.bind_some, h]

/-! ## Statements -/

theorem braces_signed (depth : Nat) (i : Int) :
    braces depth (Text.signed i).toList = some depth := by
  have hno : ∀ c ∈ (Text.signed i).toList, c ≠ '\x7b' ∧ c ≠ '\x7d' := by
    intro c hc
    rcases mem_signed hc with rfl | hdigit
    · decide
    · constructor
      · rintro rfl
        cases hdigit
      · rintro rfl
        cases hdigit
  exact braces_of_not_mem (fun h => (hno _ h).1 rfl) (fun h => (hno _ h).2 rfl) depth

/-- The braces around a number. -/
theorem braces_value {front back : String} {depth inner outer : Nat} (i : Int)
    (hfront : braces depth front.toList = some inner)
    (hback : braces inner back.toList = some outer) :
    braces depth (front ++ Text.signed i ++ back).toList = some outer := by
  rw [String.toList_append, String.toList_append, braces_append, braces_append, hfront,
    Option.bind_some, braces_signed, Option.bind_some, hback]

/-- The braces of a statement move as the counter does. -/
theorem braces_text (s : Statement) {depth : Nat} (h : s = .closeWhile → 0 < depth) :
    braces depth s.text.toList = some (s.nextDepth depth) := by
  have hsemi : ∀ d, braces d ";".toList = some d := by simp [braces]
  cases s with
  | advance n =>
      have hfront : braces depth "pos += ".toList = some depth := by simp [braces]
      exact braces_value _ hfront (hsemi depth)
  | increase n =>
      have hfront : braces depth "memory[pos] += ".toList = some depth := by simp [braces]
      exact braces_value _ hfront (hsemi depth)
  | assign n =>
      have hfront : braces depth "memory[pos] = ".toList = some depth := by simp [braces]
      exact braces_value _ hfront (hsemi depth)
  | scan n =>
      -- the only line with both braces
      have hfront : braces depth "while (memory[pos] != 0) \x7b pos += ".toList =
          some (depth + 1) := by simp [braces]
      have hback : braces (depth + 1) "; \x7d".toList = some depth := by simp [braces]
      exact braces_value _ hfront hback
  | putchar =>
      have hline : braces depth "putchar(memory[pos]);".toList = some depth := by simp [braces]
      exact hline
  | openWhile =>
      have hline : braces depth "while (memory[pos] != 0) \x7b".toList = some (depth + 1) := by
        simp [braces]
      exact hline
  | closeWhile =>
      have hline : braces depth "\x7d".toList = some (depth - 1) := by
        have hpos := h rfl
        simp [braces]
        omega
      exact hline

/-- The text of a statement does not start with a blank. -/
theorem head?_text (s : Statement) : ∃ c, s.text.toList.head? = some c ∧ c ≠ ' ' := by
  -- what stands behind a front does not change how a line begins
  have happend : ∀ {front : String} (back : String) {c : Char},
      front.toList.head? = some c → (front ++ back).toList.head? = some c := by
    intro front back c hfront
    rw [String.toList_append, List.head?_append, hfront]
    rfl
  cases s with
  | advance n =>
      have hfront : "pos += ".toList.head? = some 'p' := by simp
      exact ⟨'p', happend _ (happend _ hfront), by decide⟩
  | increase n =>
      have hfront : "memory[pos] += ".toList.head? = some 'm' := by simp
      exact ⟨'m', happend _ (happend _ hfront), by decide⟩
  | assign n =>
      have hfront : "memory[pos] = ".toList.head? = some 'm' := by simp
      exact ⟨'m', happend _ (happend _ hfront), by decide⟩
  | scan n =>
      have hfront : "while (memory[pos] != 0) \x7b pos += ".toList.head? = some 'w' := by simp
      exact ⟨'w', happend _ (happend _ hfront), by decide⟩
  | putchar =>
      have hline : "putchar(memory[pos]);".toList.head? = some 'p' := by simp
      exact ⟨'p', hline, by decide⟩
  | openWhile =>
      have hline : "while (memory[pos] != 0) \x7b".toList.head? = some 'w' := by simp
      exact ⟨'w', hline, by decide⟩
  | closeWhile =>
      have hline : "\x7d".toList.head? = some '\x7d' := by simp
      exact ⟨'\x7d', hline, by decide⟩

/-- A statement inside `d` blocks has two blanks in front for each. -/
theorem blanks_indent (d : Nat) (s : Statement) : blanks (indent d s.text) = 2 * d := by
  obtain ⟨c, hhead, hc⟩ := head?_text s
  obtain ⟨cs, hcs⟩ := List.head?_eq_some_iff.mp hhead
  have hfront : ∀ c ∈ List.replicate (2 * d) ' ', decide (c = ' ') = true := by
    intro c hc
    simpa using List.eq_of_mem_replicate hc
  rw [blanks, indent, String.toList_append, String.toList_ofList,
    List.takeWhile_append_of_pos hfront, hcs, List.takeWhile_cons_of_neg (by simpa using hc)]
  simp

/-! ## Lines of a program -/

/-- The line of the instruction at `i`, inside `main` and the loops around
it. -/
def CSource.line (p : Program) (i : Nat) : String :=
  indent (1 + p.enclosing i) (((Statement.ofInstruction? (p.fetch i)).map Statement.text).getD "")

/-- The lines of the instructions before `n`, in order. Only `halt` has
none. -/
def CSource.bodyLines (p : Program) (n : Nat) : List String :=
  ((List.range n).filter fun i => p.fetch i ≠ .halt).map (line p)

/-- The counter when the instruction at `i` is next. -/
def CSource.depthBefore (p : Program) (i : Nat) : Nat :=
  (indented #[] 1 ((p.code.toList.take i).filterMap Statement.ofInstruction?)).2

theorem bodyLines_succ_of_halt {p : Program} {n : Nat} (h : p.fetch n = .halt) :
    bodyLines p (n + 1) = bodyLines p n := by
  simp [bodyLines, List.range_succ, h]

theorem bodyLines_succ {p : Program} {n : Nat} (h : p.fetch n ≠ .halt) :
    bodyLines p (n + 1) = bodyLines p n ++ [line p n] := by
  simp [bodyLines, List.range_succ, h]

theorem line_eq {p : Program} {i : Nat} {s : Statement}
    (h : Statement.ofInstruction? (p.fetch i) = some s) :
    line p i = indent (1 + p.enclosing i) s.text := by
  rw [line, h]
  rfl

/-- An instruction is written as a statement, or it is a `halt` and is not
written, if it is no `read`. -/
theorem statement_cases {op : Instruction} (h : op ≠ .read) :
    (op = .halt ∧ Statement.ofInstruction? op = none) ∨
      op ≠ .halt ∧ ∃ s, Statement.ofInstruction? op = some s := by
  cases op with
  | halt => exact Or.inl ⟨rfl, rfl⟩
  | read => exact absurd rfl h
  | _ => exact Or.inr ⟨by simp, _, rfl⟩

theorem Program.fetch_ne_read {p : Program} (h : Instruction.read ∉ p.code) (i : Nat) :
    p.fetch i ≠ .read := by
  intro hread
  exact h (Array.mem_of_getElem? (Program.getElem?_of_fetch hread (by simp)))

theorem indented_append (lines : Array String) (depth : Nat) (xs ys : List Statement) :
    indented lines depth (xs ++ ys) =
      indented (indented lines depth xs).1 (indented lines depth xs).2 ys := by
  induction xs generalizing lines depth with
  | nil => rfl
  | cons s xs ih => rw [List.cons_append, indented_cons, indented_cons, ih]

namespace WellLinked

variable {ops : List Instruction} {p : Program}

/-- The counter and the loops around an instruction: its line is inside
them, and behind it the counter has followed the brackets. -/
theorem statement_depths (h : WellLinked ops p) {i : Nat} {s : Statement}
    (hs : Statement.ofInstruction? (p.fetch i) = some s) :
    s.lineDepth (1 + p.openBefore i) = 1 + p.enclosing i ∧
      s.nextDepth (1 + p.openBefore i) = 1 + p.openBefore (i + 1) ∧
      (s = .closeWhile → 2 ≤ 1 + p.openBefore i) := by
  have hbefore := h.openBefore_eq i
  have hbehind := h.openBefore_succ i
  generalize p.fetch i = op at hs hbefore hbehind
  cases op with
  | read => cases hs
  | halt => cases hs
  | loopOpen j =>
      cases hs
      have hsame : p.openBefore i = p.enclosing i := hbefore
      have hmore : p.openBefore (i + 1) = p.enclosing i + 1 := hbehind
      rw [Statement.lineDepth, Statement.nextDepth, hsame, hmore]
      · exact ⟨rfl, rfl, by simp⟩
      · simp
  | loopClose j =>
      -- the counter is above one here, since the loop is still open
      cases hs
      have hmore : p.openBefore i = p.enclosing i + 1 := hbefore
      have hsame : p.openBefore (i + 1) = p.enclosing i := hbehind
      rw [Statement.lineDepth, Statement.nextDepth, hsame, hmore]
      exact ⟨rfl, rfl, fun _ => by omega⟩
  | _ =>
      cases hs
      have hsame : p.openBefore i = p.enclosing i := hbefore
      have hsame' : p.openBefore (i + 1) = p.enclosing i := hbehind
      rw [hsame, hsame']
      exact ⟨rfl, rfl, by simp⟩

theorem openBefore_succ_of_halt (h : WellLinked ops p) {i : Nat} (hi : p.fetch i = .halt) :
    p.openBefore (i + 1) = p.openBefore i := by
  rw [h.openBefore_succ, h.openBefore_eq, hi]
  rfl

/-- In the middle of a program the counter is one more than the number of
open loops, and every line so far is inside the loops around its
instruction. -/
theorem indented_take (h : WellLinked ops p) (hread : Instruction.read ∉ p.code) {n : Nat}
    (hn : n ≤ p.code.size) :
    indented #[] 1 ((p.code.toList.take n).filterMap Statement.ofInstruction?) =
      ((bodyLines p n).toArray, 1 + p.openBefore n) := by
  induction n with
  | zero => rfl
  | succ n ih =>
      -- the last instruction is laid out behind the lines and at the depth of the others
      have htake : p.code.toList.take (n + 1) = p.code.toList.take n ++ [p.fetch n] := by
        rw [List.take_add_one, Array.getElem?_toList, Program.code_getElem? hn]
        rfl
      rw [htake, List.filterMap_append, indented_append, ih (by omega)]
      rcases statement_cases (Program.fetch_ne_read hread n) with ⟨hhalt, hs⟩ | ⟨hne, s, hs⟩
      · rw [bodyLines_succ_of_halt hhalt, h.openBefore_succ_of_halt hhalt]
        simp [hs, indented]
      · obtain ⟨hline, hnext, _⟩ := h.statement_depths hs
        rw [bodyLines_succ hne, line_eq hs]
        simp [hs, indented_cons, indented, hline, hnext]

/-- The braces that are open in the middle of the text are those of `main`
and of the open loops. -/
theorem braces_bodyLines (h : WellLinked ops p) (hread : Instruction.read ∉ p.code) (n : Nat) :
    braces 1 (Text.ofLines (bodyLines p n)).toList = some (1 + p.openBefore n) := by
  induction n with
  | zero => rfl
  | succ n ih =>
      rcases statement_cases (Program.fetch_ne_read hread n) with ⟨hhalt, hs⟩ | ⟨hne, s, hs⟩
      · -- a `halt` has no line
        rw [bodyLines_succ_of_halt hhalt, h.openBefore_succ_of_halt hhalt, ih]
      · -- any other instruction has one, and it opens or closes what its depth says
        obtain ⟨_, hnext, _⟩ := h.statement_depths hs
        have hpos : s = .closeWhile → 0 < 1 + p.openBefore n := fun _ => by omega
        have hline : braces (1 + p.openBefore n) (line p n).toList =
            some (1 + p.openBefore (n + 1)) := by
          rw [line_eq hs, ← hnext]
          exact braces_indent (braces_text s hpos) _
        rw [bodyLines_succ hne, toList_ofLines_append, braces_append, ih, Option.bind_some,
          braces_ofLines_cons hline]
        rfl

end WellLinked

/-! ## The whole text -/

/-- The text in front of the body opens `main`. -/
theorem braces_prologue : braces 0 (Text.ofLines prologue).toList = some 1 := by
  have hstdio : braces 0 "#include <stdio.h>".toList = some 0 := by simp [braces]
  have hstdlib : braces 0 "#include <stdlib.h>".toList = some 0 := by simp [braces]
  have hstring : braces 0 "#include <string.h>".toList = some 0 := by simp [braces]
  have hempty : braces 0 "".toList = some 0 := by simp [braces]
  -- the last three lines are inside the function
  have hmain : braces 0 "int main(void) \x7b".toList = some 1 := by simp [braces]
  have harray : braces 1 ("char memory[" ++ Nat.repr tapeLength ++ "];").toList = some 1 := by
    have hfront : braces 1 "char memory[".toList = some 1 := by simp [braces]
    have hback : braces 1 "];".toList = some 1 := by simp [braces]
    have hnumber : Nat.repr tapeLength = Text.signed tapeLength := rfl
    rw [hnumber]
    exact braces_value _ hfront hback
  have hclear : braces 1 "memset(memory, 0, sizeof(memory));".toList = some 1 := by simp [braces]
  have hstart : braces 1 "size_t pos = 0;".toList = some 1 := by simp [braces]
  rw [prologue, braces_ofLines_cons hstdio, braces_ofLines_cons hstdlib,
    braces_ofLines_cons hstring, braces_ofLines_cons hempty, braces_ofLines_cons hmain,
    braces_ofLines_cons (braces_indent harray 1), braces_ofLines_cons (braces_indent hclear 1),
    braces_ofLines_cons (braces_indent hstart 1)]
  rfl

/-- The text behind the body closes it. -/
theorem braces_epilogue : braces 1 (Text.ofLines (epilogue 1)).toList = some 0 := by
  have hreturn : braces 1 "return 0;".toList = some 1 := by simp [braces]
  have hbrace : braces 1 "\x7d".toList = some 0 := by simp [braces]
  rw [epilogue, braces_ofLines_cons (braces_indent hreturn 1),
    braces_ofLines_cons (braces_indent hbrace _)]
  rfl

theorem newline_not_mem_bodyLines {p : Program} (hread : Instruction.read ∉ p.code) {n : Nat}
    {text : String} (htext : text ∈ bodyLines p n) : '\n' ∉ text.toList := by
  obtain ⟨i, hi, rfl⟩ := List.mem_map.mp htext
  have hne : p.fetch i ≠ .halt := by simpa using (List.mem_filter.mp hi).2
  rcases statement_cases (Program.fetch_ne_read hread i) with ⟨hhalt, _⟩ | ⟨_, s, hs⟩
  · exact absurd hhalt hne
  · rw [line_eq hs]
    exact ((plain_text s).indent _).newline_not_mem

/-- What the text of a program looks like. -/
structure CSource.LaidOut (p : Program) (text : String) : Prop where
  /-- Between lines that are always the same, there is one line for each
  instruction but `halt`, in order. -/
  lines : text.toList.splitOn '\n' =
    (prologue ++ bodyLines p p.code.size ++ epilogue 1 ++ [""]).map String.toList
  /-- A line has two blanks in front for `main` and for each loop around
  its instruction. -/
  indents : ∀ i, p.fetch i ≠ .halt → blanks (line p i) = 2 * (1 + p.enclosing i)
  /-- The two ends of a loop are in the same loops. -/
  partners : ∀ i j, p.fetch i = .loopOpen j →
    p.fetch j = .loopClose i ∧ p.enclosing i = p.enclosing j
  /-- The counter has not run out where a loop is closed. -/
  closing : ∀ i j, p.fetch i = .loopClose j → 2 ≤ depthBefore p i
  /-- Behind the body the counter is where it started. -/
  leaving : (indented #[] 1 (body p)).2 = 1
  /-- Nowhere in the text have more braces been closed than opened. -/
  fronts : ∀ front, front <+: text.toList → front.count '\x7d' ≤ front.count '\x7b'
  /-- In the whole text as many are closed as opened. -/
  total : text.toList.count '\x7d' = text.toList.count '\x7b'

/-- **The C text is laid out as the loops nest.** A program without a `read`
has a text. Its lines, their indentation and its braces are those of the
loops of the program. -/
theorem c_text_is_laid_out {ops : List Instruction} {p : Program}
    (hp : Program.ofInstructions ops = .ok p) (hread : Instruction.read ∉ p.code) :
    ∃ text, render p = .ok text ∧ LaidOut p text := by
  have hlinked := ofInstructions_wellLinked hp
  -- behind the last instruction all loops are closed, and one depth is left
  have hbody : indented #[] 1 (body p) = ((bodyLines p p.code.size).toArray, 1) := by
    have htake := hlinked.indented_take hread (Nat.le_refl _)
    rw [hlinked.openBefore_size, List.take_of_length_le (by simp)] at htake
    exact htake
  have htext : text (body p) =
      Text.ofLines (prologue ++ bodyLines p p.code.size ++ epilogue 1) := by
    rw [text, hbody]
  -- so the braces of the three parts close each other
  have hbraces : braces 0 (text (body p)).toList = some 0 := by
    rw [htext, toList_ofLines_append, toList_ofLines_append, braces_append, braces_append,
      braces_prologue, Option.bind_some, hlinked.braces_bodyLines hread, hlinked.openBefore_size,
      Option.bind_some, braces_epilogue]
  refine ⟨text (body p), render_of_not_mem_read hread, ?_⟩
  constructor
  case lines =>
    -- no part has a line with a newline in it, so the lines can be split again
    rw [htext]
    apply splitOn_ofLines
    intro line hline
    rcases List.mem_append.mp hline with hfront | hend
    · rcases List.mem_append.mp hfront with hstart | hmiddle
      · exact prologue_lines.1 line hstart
      · exact newline_not_mem_bodyLines hread hmiddle
    · exact (epilogue_lines 1).1 line hend
  case indents =>
    intro i hne
    rcases statement_cases (Program.fetch_ne_read hread i) with ⟨hhalt, _⟩ | ⟨_, s, hs⟩
    · exact absurd hhalt hne
    · rw [line_eq hs, blanks_indent]
  case partners =>
    intro i j hi
    have hij := hlinked.partners_of_fetch_open hi
    exact ⟨(hlinked.fetch_of_partners hij).2, hlinked.enclosing_eq hij⟩
  case closing =>
    -- a closing bracket is inside the code, so its depth is that of the lines before it
    intro i j hi
    have hlt := (hlinked.partners_of_fetch_close hi).lt_length
    have hsize := hlinked.size
    have hs : Statement.ofInstruction? (p.fetch i) = some .closeWhile := by
      rw [hi]
      rfl
    rw [depthBefore, hlinked.indented_take hread (by omega)]
    exact (hlinked.statement_depths hs).2.2 rfl
  case leaving => rw [hbody]
  case fronts =>
    intro front hfront
    exact count_le_of_braces hbraces hfront
  case total =>
    have hcount := braces_count hbraces
    omega

/-- The list of `+[>[.<]-]`, with arbitrary operands in its brackets: the
text exists, and its innermost lines are inside two loops. -/
theorem nested_loops_are_laid_out :
    ∃ p, Program.ofInstructions [.add 1, .loopOpen 9, .move 1, .loopOpen 9, .print, .move (-1),
        .loopClose 9, .add (-1), .loopClose 9] = .ok p ∧
      Instruction.read ∉ p.code ∧ p.enclosing 4 = 2 ∧ p.fetch 4 = .print ∧
      ∃ text, render p = .ok text ∧ LaidOut p text := by
  have hp : Program.ofInstructions [.add 1, .loopOpen 9, .move 1, .loopOpen 9, .print, .move (-1),
      .loopClose 9, .add (-1), .loopClose 9] = .ok ⟨#[.add 1, .loopOpen 8, .move 1, .loopOpen 6,
      .print, .move (-1), .loopClose 3, .add (-1), .loopClose 1, .halt]⟩ := rfl
  have hread : Instruction.read ∉ #[.add 1, .loopOpen 8, .move 1, .loopOpen 6, .print, .move (-1),
      .loopClose 3, .add (-1), .loopClose 1, .halt] := by simp
  exact ⟨_, hp, hread, by decide, rfl, c_text_is_laid_out hp hread⟩

end TapeLang
