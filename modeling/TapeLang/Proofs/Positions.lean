import Mathlib.Data.List.DropRight
import TapeLang.Program
import TapeLang.Proofs.Commands
import TapeLang.Proofs.TextReading

/-!
# TapeLang.Proofs.Positions — where the commands of a text stand

A reader keeps the place of the next character and moves it as it goes on.
`Position.behind` gives the same place from what has been read, without
going through it: lines are newlines, and a column is the distance from the
last of them. That the two agree is the invariant of reading.

* `Position.behind_concat` — one character keeps the invariant;
* `Reader.scan_behind` — so it holds for every token, up to the end;
* `Position.behind_before` — places come one after the other;
* `Position.character?_behind` — a place can be looked up in the lines of
  the text;
* `tokens_locate_commands` — the tokens of a text, and what follows.
-/

namespace TapeLang

/-! ## Command characters -/

/-- The characters that stand for commands. -/
def commandCharacters : List Char :=
  ['<', '>', '-', '+', '.', ',', '[', ']']

theorem isSome_ofChar?_iff (c : Char) :
    (Instruction.ofChar? c).isSome = true ↔ c ∈ commandCharacters := by
  constructor
  · intro h
    unfold Instruction.ofChar? at h
    split at h
    case h_9 => cases h
    all_goals simp [commandCharacters]
  · intro h
    simp only [commandCharacters, List.mem_cons, List.not_mem_nil, or_false] at h
    rcases h with rfl | rfl | rfl | rfl | rfl | rfl | rfl | rfl <;> rfl

/-- What is no command character gives no instruction, so it can be left
out. -/
theorem filterMap_ofChar?_filter (cs : List Char) :
    (cs.filter (· ∈ commandCharacters)).filterMap Instruction.ofChar? =
      cs.filterMap Instruction.ofChar? := by
  rw [List.filterMap_filter]
  congr 1
  funext c
  by_cases hc : c ∈ commandCharacters
  · rw [if_pos (by simpa using hc)]
  · rw [if_neg (by simpa using hc)]
    have hnone : Instruction.ofChar? c = none := by
      rw [← Option.not_isSome_iff_eq_none, isSome_ofChar?_iff]
      exact hc
    exact hnone.symm

/-! ## Places -/

namespace Position

/-- The place behind `front`. Its line is one more than there are newlines,
and its column one more than there are characters since the last one. -/
def behind (front : List Char) : Position where
  line := 1 + front.count '\n'
  column := 1 + (front.rtakeWhile (· ≠ '\n')).length

/-- One place is on an earlier line than another, or on the same one and
further to the left. -/
def Before (p q : Position) : Prop :=
  p.line < q.line ∨ p.line = q.line ∧ p.column < q.column

/-- The character at a place of a text. -/
def character? (p : Position) (text : List Char) : Option Char :=
  (text.splitOn '\n')[p.line - 1]?.bind fun row => row[p.column - 1]?

theorem behind_nil : behind [] = {} := rfl

/-- One more character moves the place as reading it does. -/
theorem behind_concat (front : List Char) (c : Char) :
    behind (front ++ [c]) = (behind front).after c := by
  unfold behind after
  by_cases hc : c = '\n'
  · subst hc
    rw [if_pos rfl, List.rtakeWhile_concat_neg _ _ _ (by simp)]
    simp [Nat.add_assoc]
  · rw [if_neg hc, List.rtakeWhile_concat_pos _ _ _ (by simpa using hc)]
    simp [hc, Nat.add_assoc]

theorem Before.trans {p q r : Position} (hpq : p.Before q) (hqr : q.Before r) : p.Before r := by
  unfold Before at *
  omega

theorem before_after (p : Position) (c : Char) : p.Before (p.after c) := by
  unfold Before after
  split
  · exact Or.inl (Nat.lt_succ_self _)
  · exact Or.inr ⟨rfl, Nat.lt_succ_self _⟩

/-- The more has been read, the later is the place. -/
theorem behind_before (front : List Char) {more : List Char} (hmore : more ≠ []) :
    (behind front).Before (behind (front ++ more)) := by
  induction more using List.reverseRecOn with
  | nil => exact absurd rfl hmore
  | append_singleton more c ih =>
      have hlast := before_after (behind (front ++ more)) c
      rw [← List.append_assoc, behind_concat]
      by_cases hnil : more = []
      · subst hnil
        simpa using hlast
      · exact (ih hnil).trans hlast

/-- Of the lines of a text, those from the place behind `front` on: the first
of them has the characters since the last newline in front. -/
theorem drop_splitOn (front rest : List Char) :
    ((front ++ rest).splitOn '\n').drop (front.count '\n') =
      (rest.splitOn '\n').modifyHead (front.rtakeWhile (· ≠ '\n') ++ ·) := by
  -- one character at a time moves from the start of `rest` to the end of `front`
  induction front using List.reverseRecOn generalizing rest with
  | nil => cases h : rest.splitOn '\n' <;> simp [h]
  | append_singleton front c ih =>
      have hrest := ih (c :: rest)
      rw [List.append_assoc, List.singleton_append, List.count_append]
      by_cases hc : c = '\n'
      · subst hc
        rw [List.rtakeWhile_concat_neg _ _ _ (by simp), List.count_singleton_self,
          ← List.drop_drop, hrest, splitOn_newline_cons]
        cases rest.splitOn '\n' <;> simp
      · rw [List.rtakeWhile_concat_pos _ _ _ (by simpa using hc), List.count_singleton,
          if_neg (by simpa using hc), Nat.add_zero, hrest, splitOn_cons hc]
        cases rest.splitOn '\n' <;> simp

/-- At the place behind `front` stands the character that comes next. -/
theorem character?_behind (front back : List Char) {c : Char} (hc : c ≠ '\n') :
    (behind front).character? (front ++ c :: back) = some c := by
  have hline : ((front ++ c :: back).splitOn '\n')[front.count '\n']? =
      (((c :: back).splitOn '\n').modifyHead (front.rtakeWhile (· ≠ '\n') ++ ·))[0]? := by
    rw [← drop_splitOn, List.getElem?_drop, Nat.add_zero]
  unfold character? behind
  rw [Nat.add_sub_cancel_left, Nat.add_sub_cancel_left, hline, splitOn_cons hc]
  cases h : back.splitOn '\n' with
  | nil => exact absurd h (List.splitOnP_ne_nil _ _)
  | cons line lines => simp

end Position

/-! ## Tokens -/

/-- The token of the character at an index of a text, if that is a
command. -/
def tokenAt? (text : List Char) (i : Nat) : Option Token :=
  (text[i]?.bind Instruction.ofChar?).map fun op => ⟨op, Position.behind (text.take i)⟩

theorem tokenAt?_eq_some_iff {text : List Char} {i : Nat} {t : Token} :
    tokenAt? text i = some t ↔ ∃ c, text[i]? = some c ∧
      Instruction.ofChar? c = some t.instruction ∧ t.position = Position.behind (text.take i) := by
  unfold tokenAt?
  constructor
  · intro h
    obtain ⟨op, hop, rfl⟩ := Option.map_eq_some_iff.mp h
    obtain ⟨c, hc, hop⟩ := Option.bind_eq_some_iff.mp hop
    exact ⟨c, hc, hop, rfl⟩
  · rintro ⟨c, hc, hop, hposition⟩
    rw [hc, Option.bind_some, hop, Option.map_some, ← hposition]

theorem isSome_tokenAt?_iff (text : List Char) (i : Nat) :
    (tokenAt? text i).isSome = true ↔ ∃ c ∈ commandCharacters, text[i]? = some c := by
  unfold tokenAt?
  cases hc : text[i]? with
  | none => simp
  | some c => simp [isSome_ofChar?_iff]

/-- Reading on behind `front` finds the tokens of what is left, each at the
place of its character, and comes to the place behind the text. -/
theorem Reader.scan_behind (front cs : List Char) (found : Array Token) :
    Reader.scan found (Position.behind front) cs =
      (found ++ ((List.range cs.length).filterMap fun i =>
          tokenAt? (front ++ cs) (front.length + i)),
        { rest := [], position := Position.behind (front ++ cs) }) := by
  induction cs generalizing front found with
  | nil => simp [Reader.scan]
  | cons c cs ih =>
      -- the first character moves over to `front`, and the other indices shift
      have hrest : ∀ found', Reader.scan found' ((Position.behind front).after c) cs =
          (found' ++ ((List.range cs.length).filterMap fun i =>
              tokenAt? (front ++ c :: cs) (front.length + (i + 1))),
            { rest := [], position := Position.behind (front ++ c :: cs) }) := by
        intro found'
        have hnext := ih (front ++ [c]) found'
        rw [Position.behind_concat] at hnext
        simpa [Nat.add_assoc, Nat.add_comm 1] using hnext
      have hfirst : tokenAt? (front ++ c :: cs) front.length =
          (Instruction.ofChar? c).map fun op => ⟨op, Position.behind front⟩ := by
        simp [tokenAt?]
      rw [Reader.scan, List.length_cons, List.range_succ_eq_map, List.filterMap_cons,
        Nat.add_zero, hfirst, List.filterMap_map]
      cases Instruction.ofChar? c with
      | none => exact hrest found
      | some op =>
          have hpushed := hrest (found.push ⟨op, Position.behind front⟩)
          simpa using hpushed

theorem Reader.tokens_ofString (source : String) :
    (Reader.ofString source).tokens =
      ((List.range source.toList.length).filterMap (tokenAt? source.toList),
        { rest := [], position := Position.behind source.toList }) := by
  have hscan := Reader.scan_behind [] source.toList #[]
  rw [Position.behind_nil] at hscan
  simp only [List.nil_append, List.length_nil, Nat.zero_add] at hscan
  unfold Reader.tokens Reader.ofString
  rw [hscan]
  simp

/-- At the end of a text nothing is left to be found. -/
theorem Reader.tokens_nil (p : Position) :
    ({ rest := [], position := p } : Reader).tokens = ([], { rest := [], position := p }) := rfl

/-- The reader behind `n` readings of what is left. -/
def Reader.after : Nat → Reader → Reader
  | 0, r => r
  | n + 1, r => Reader.after n r.tokens.2

theorem Reader.after_nil (n : Nat) (p : Position) :
    Reader.after n { rest := [], position := p } = { rest := [], position := p } := by
  induction n with
  | zero => rfl
  | succ n ih => rw [Reader.after, Reader.tokens_nil, ih]

theorem tokenize_eq (source : String) :
    tokenize source =
      (List.range source.toList.length).filterMap (tokenAt? source.toList) := by
  rw [tokenize, Reader.tokens_ofString]

/-- Tokens come in the order of their places. -/
theorem tokenize_pairwise (source : String) :
    (tokenize source).Pairwise fun t u => t.position.Before u.position := by
  rw [tokenize_eq, List.pairwise_filterMap]
  refine List.pairwise_lt_range.imp_of_mem ?_
  intro i j _ hj hij t ht u hu
  obtain ⟨_, _, _, ht⟩ := tokenAt?_eq_some_iff.mp ht
  obtain ⟨_, _, _, hu⟩ := tokenAt?_eq_some_iff.mp hu
  rw [ht, hu]
  -- what stands before `j` is what stands before `i`, and something more
  have htake : source.toList.take j =
      source.toList.take i ++ (source.toList.drop i).take (j - i) := by
    rw [← List.take_add, Nat.add_sub_cancel' (Nat.le_of_lt hij)]
  rw [htake]
  apply Position.behind_before
  intro hnil
  have hlen := congrArg List.length hnil
  have hlt := List.mem_range.mp hj
  simp only [List.length_take, List.length_drop, List.length_nil] at hlen
  omega

/-- The place of a token leads back to its character. -/
theorem character?_of_mem_tokenize {source : String} {t : Token} (ht : t ∈ tokenize source) :
    ∃ c ∈ commandCharacters, t.position.character? source.toList = some c ∧
      Instruction.ofChar? c = some t.instruction := by
  rw [tokenize_eq] at ht
  obtain ⟨i, hi, ht⟩ := List.mem_filterMap.mp ht
  obtain ⟨c, hc, hop, hposition⟩ := tokenAt?_eq_some_iff.mp ht
  have hcommand : c ∈ commandCharacters := by
    rw [← isSome_ofChar?_iff, hop]
    rfl
  -- a newline is no command, so the line of the command goes on past it
  have hnewline : c ≠ '\n' := by
    rintro rfl
    revert hcommand
    decide
  obtain ⟨hlt, rfl⟩ := List.getElem?_eq_some_iff.mp hc
  have htext : source.toList =
      source.toList.take i ++ source.toList[i] :: source.toList.drop (i + 1) := by
    rw [← List.drop_eq_getElem_cons hlt, List.take_append_drop]
  refine ⟨_, hcommand, ?_, hop⟩
  rw [hposition]
  have hbehind := Position.character?_behind (source.toList.take i) (source.toList.drop (i + 1))
    hnewline
  rw [← htext] at hbehind
  exact hbehind

/-! ## Instructions -/

theorem commands_append (front back : String) :
    commands (front ++ back) = commands front ++ commands back := by
  simp [commands_eq_filterMap]

/-- Only the command characters of a text count. -/
theorem commands_eq_of_filter {source source' : String}
    (h : source.toList.filter (· ∈ commandCharacters) =
      source'.toList.filter (· ∈ commandCharacters)) : commands source = commands source' := by
  rw [commands_eq_filterMap, commands_eq_filterMap, ← filterMap_ofChar?_filter, h,
    filterMap_ofChar?_filter]

/-- **Tokens locate the commands of a text.** There is one token for each
index at which a command stands, in order, with the instruction and the place
of that command; the places increase and lead back to the commands. So texts
are read piece by piece, comments do not matter, and once a text has been
read there is nothing more to find in it. -/
theorem tokens_locate_commands :
    (∀ source : String,
      tokenize source =
          (List.range source.toList.length).filterMap (tokenAt? source.toList) ∧
        (∀ i, (tokenAt? source.toList i).isSome = true ↔
          ∃ c ∈ commandCharacters, source.toList[i]? = some c) ∧
        ((tokenize source).Pairwise fun t u => t.position.Before u.position) ∧
        ∀ t ∈ tokenize source, ∃ c ∈ commandCharacters,
          t.position.character? source.toList = some c ∧
            Instruction.ofChar? c = some t.instruction) ∧
    (∀ front back : String, commands (front ++ back) = commands front ++ commands back) ∧
    (∀ source source' : String,
      source.toList.filter (· ∈ commandCharacters) =
          source'.toList.filter (· ∈ commandCharacters) →
        ∀ optimize, compile optimize source = compile optimize source') ∧
    ∀ (source : String) (n : Nat),
      (Reader.after (n + 1) (Reader.ofString source)).tokens.1 = [] := by
  refine ⟨?_, commands_append, ?_, ?_⟩
  · intro source
    refine ⟨tokenize_eq source, isSome_tokenAt?_iff source.toList, tokenize_pairwise source, ?_⟩
    intro t ht
    exact character?_of_mem_tokenize ht
  · intro source source' hsame optimize
    unfold compile
    rw [commands_eq_of_filter hsame]
  · intro source n
    rw [Reader.after, Reader.tokens_ofString, Reader.after_nil, Reader.tokens_nil]

/-- In the second line of a text the columns count from 1 again, and without
its comments the text compiles to the same. -/
theorem second_line_is_located :
    tokenize "x+\n  [é]" =
        [⟨.add 1, ⟨1, 2⟩⟩, ⟨.loopOpen 0, ⟨2, 3⟩⟩, ⟨.loopClose 0, ⟨2, 5⟩⟩] ∧
    (∃ c ∈ commandCharacters, Position.character? ⟨2, 5⟩ "x+\n  [é]".toList = some c ∧
      Instruction.ofChar? c = some (.loopClose 0)) ∧
    "x+\n  [é]".toList.filter (· ∈ commandCharacters) =
      "+[]".toList.filter (· ∈ commandCharacters) ∧
    ∀ optimize, compile optimize "x+\n  [é]" = compile optimize "+[]" := by
  have htokens : tokenize "x+\n  [é]" =
      [⟨.add 1, ⟨1, 2⟩⟩, ⟨.loopOpen 0, ⟨2, 3⟩⟩, ⟨.loopClose 0, ⟨2, 5⟩⟩] := by decide +kernel
  have hfilter : "x+\n  [é]".toList.filter (· ∈ commandCharacters) =
      "+[]".toList.filter (· ∈ commandCharacters) := by decide +kernel
  have hlast : (⟨.loopClose 0, ⟨2, 5⟩⟩ : Token) ∈ tokenize "x+\n  [é]" := by simp [htokens]
  refine ⟨htokens, ?_, hfilter, tokens_locate_commands.2.2.1 _ _ hfilter⟩
  exact (tokens_locate_commands.1 _).2.2.2 _ hlast

end TapeLang
