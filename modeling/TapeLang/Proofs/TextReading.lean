import TapeLang.Text

/-!
# TapeLang.Proofs.TextReading — printed lines and numbers read back

What every printed form of this library needs to be read back: its lines are
found again at their newlines, its numbers at their digits, and its columns
by their width.

* `splitOn_ofLines` — a text falls into its lines;
* `leadingNat_padded`, `leadingInt_signed`, `leadingInt_withSign` — a number
  is read back as it was written, whatever comes behind it;
* `drop_column` — behind a column comes what was written behind it.
-/

namespace TapeLang

/-! ## Lines -/

theorem splitOn_newline_cons (cs : List Char) :
    ('\n' :: cs).splitOn '\n' = [] :: cs.splitOn '\n' := by
  rw [List.splitOn, List.splitOnP_cons_eq_if_modifyHead, if_pos (by simp)]
  rfl

theorem splitOn_cons {c : Char} (hc : c ≠ '\n') (cs : List Char) :
    (c :: cs).splitOn '\n' = (cs.splitOn '\n').modifyHead (c :: ·) := by
  rw [List.splitOn, List.splitOnP_cons_eq_if_modifyHead, if_neg (by simpa using hc)]
  rfl

theorem toList_ofLines_cons (line : String) (lines : List String) :
    (Text.ofLines (line :: lines)).toList =
      line.toList ++ '\n' :: (Text.ofLines lines).toList := by
  simp [Text.ofLines]

theorem toList_ofLines_append (xs ys : List String) :
    (Text.ofLines (xs ++ ys)).toList = (Text.ofLines xs).toList ++ (Text.ofLines ys).toList := by
  simp [Text.ofLines]

/-- A line without a newline of its own is cut off exactly behind it. -/
theorem splitOn_ofLines_cons {line : String} (h : '\n' ∉ line.toList) (lines : List String) :
    (Text.ofLines (line :: lines)).toList.splitOn '\n' =
      line.toList :: (Text.ofLines lines).toList.splitOn '\n' := by
  have hline : ∀ c ∈ line.toList, (c == '\n') = false := by
    intro c hc
    have hne : c ≠ '\n' := by
      rintro rfl
      exact h hc
    simpa using hne
  rw [toList_ofLines_cons]
  exact List.splitOnP_append_cons_of_forall_mem hline '\n' (by decide) _

/-- Lines without newlines of their own are found again in their text. -/
theorem splitOn_ofLines {lines : List String} (h : ∀ line ∈ lines, '\n' ∉ line.toList) :
    (Text.ofLines lines).toList.splitOn '\n' = (lines ++ [""]).map String.toList := by
  induction lines with
  | nil => simp [Text.ofLines]
  | cons line lines ih =>
      rw [splitOn_ofLines_cons (h line List.mem_cons_self),
        ih fun l hl => h l (List.mem_cons_of_mem line hl)]
      rfl

/-- Such lines are given by their text. -/
theorem ofLines_injOn {xs ys : List String} (hxs : ∀ line ∈ xs, '\n' ∉ line.toList)
    (hys : ∀ line ∈ ys, '\n' ∉ line.toList) (h : Text.ofLines xs = Text.ofLines ys) : xs = ys := by
  have hlines : (xs ++ [""]).map String.toList = (ys ++ [""]).map String.toList := by
    rw [← splitOn_ofLines hxs, ← splitOn_ofLines hys, h]
  have hsame : xs ++ [""] = ys ++ [""] :=
    (List.map_inj_right fun _ _ => String.toList_inj.mp).mp hlines
  exact List.append_cancel_right hsame

/-! ## Digits -/

theorem isDigit_of_mem_repr {n : Nat} {c : Char} (hc : c ∈ (Nat.repr n).toList) :
    c.isDigit = true := by
  rw [Nat.toList_repr] at hc
  exact Nat.isDigit_of_mem_toDigits (by omega) (by omega) hc

theorem isDigit_of_mem_padded {width n : Nat} {c : Char}
    (hc : c ∈ (Text.padded width n).toList) : c.isDigit = true := by
  simp only [Text.padded, String.toList_append, String.toList_ofList, List.mem_append] at hc
  rcases hc with hzero | hdigit
  · rw [List.eq_of_mem_replicate hzero]
    rfl
  · exact isDigit_of_mem_repr hdigit

/-- A signed number consists of digits, with a minus in front or not. -/
theorem mem_signed {i : Int} {c : Char} (hc : c ∈ (Text.signed i).toList) :
    c = '-' ∨ c.isDigit = true := by
  cases i with
  | ofNat n => exact Or.inr (isDigit_of_mem_repr hc)
  | negSucc n =>
      rw [Text.signed, String.toList_append] at hc
      rcases List.mem_append.mp hc with hminus | hrest
      · exact Or.inl (by simpa using hminus)
      · exact Or.inr (isDigit_of_mem_repr hrest)

/-- With its sign written, it has a plus or a minus in front. -/
theorem mem_withSign {i : Int} {c : Char} (hc : c ∈ (Text.withSign i).toList) :
    c = '+' ∨ c = '-' ∨ c.isDigit = true := by
  cases i with
  | ofNat n =>
      rw [Text.withSign, String.toList_append] at hc
      rcases List.mem_append.mp hc with hplus | hrest
      · exact Or.inl (by simpa using hplus)
      · exact Or.inr (Or.inr (isDigit_of_mem_repr hrest))
  | negSucc n =>
      rw [Text.withSign, String.toList_append] at hc
      rcases List.mem_append.mp hc with hminus | hrest
      · exact Or.inr (Or.inl (by simpa using hminus))
      · exact Or.inr (Or.inr (isDigit_of_mem_repr hrest))

theorem newline_not_digit {c : Char} (hc : c.isDigit = true) : c ≠ '\n' := by
  rintro rfl
  cases hc

theorem newline_not_mem_padded (width n : Nat) : '\n' ∉ (Text.padded width n).toList := by
  intro h
  exact newline_not_digit (isDigit_of_mem_padded h) rfl

theorem newline_not_mem_signed (i : Int) : '\n' ∉ (Text.signed i).toList := by
  intro h
  rcases mem_signed h with hminus | hdigit
  · cases hminus
  · exact newline_not_digit hdigit rfl

theorem newline_not_mem_withSign (i : Int) : '\n' ∉ (Text.withSign i).toList := by
  intro h
  rcases mem_withSign h with hplus | hminus | hdigit
  · cases hplus
  · cases hminus
  · exact newline_not_digit hdigit rfl

/-! ## Numbers -/

namespace Text

/-- The number that a text begins with; zero if it begins with none. -/
def leadingNat (cs : List Char) : Nat :=
  Nat.ofDigitChars 10 (cs.takeWhile Char.isDigit) 0

/-- The number that a text begins with, with a sign in front or not. -/
def leadingInt : List Char → Int
  | '+' :: cs => leadingNat cs
  | '-' :: cs => -leadingNat cs
  | cs => leadingNat cs

/-- What can stand behind a number: anything but another digit. -/
def EndsNumber (rest : List Char) : Prop :=
  ∀ c, rest.head? = some c → c.isDigit = false

theorem endsNumber_nil : EndsNumber [] := by
  intro c hc
  cases hc

theorem endsNumber_cons {c : Char} (hc : c.isDigit = false) (cs : List Char) :
    EndsNumber (c :: cs) := by
  intro d hd
  cases hd
  exact hc

variable {rest : List Char}

theorem takeWhile_digits {ds : List Char} (hds : ∀ c ∈ ds, c.isDigit = true)
    (hrest : EndsNumber rest) : (ds ++ rest).takeWhile Char.isDigit = ds := by
  rw [List.takeWhile_append_of_pos hds]
  cases rest with
  | nil => simp
  | cons c rest => simp [hrest c rfl]

theorem dropWhile_digits {ds : List Char} (hds : ∀ c ∈ ds, c.isDigit = true)
    (hrest : EndsNumber rest) : (ds ++ rest).dropWhile Char.isDigit = rest := by
  rw [List.dropWhile_append_of_pos hds]
  cases rest with
  | nil => rfl
  | cons c rest => simp [hrest c rfl]

/-- Zeros in front do not change a number. -/
theorem ofDigitChars_zeros (k : Nat) (ds : List Char) :
    Nat.ofDigitChars 10 (List.replicate k '0' ++ ds) 0 = Nat.ofDigitChars 10 ds 0 := by
  induction k with
  | zero => rfl
  | succ k ih =>
      rw [List.replicate_succ, List.cons_append, Nat.ofDigitChars_cons]
      exact ih

theorem leadingNat_padded (width n : Nat) (hrest : EndsNumber rest) :
    leadingNat ((padded width n).toList ++ rest) = n := by
  have hdigits : ∀ c ∈ (padded width n).toList, c.isDigit = true :=
    fun _ hc => isDigit_of_mem_padded hc
  rw [leadingNat, takeWhile_digits hdigits hrest, padded, String.toList_append,
    String.toList_ofList, ofDigitChars_zeros, Nat.toList_repr,
    Nat.ofDigitChars_toDigits (by omega) (by omega)]

theorem leadingNat_repr (n : Nat) (hrest : EndsNumber rest) :
    leadingNat ((Nat.repr n).toList ++ rest) = n := by
  have hpadded : (padded 0 n).toList = (Nat.repr n).toList := by simp [padded]
  rw [← hpadded, leadingNat_padded 0 n hrest]

/-- Without a sign in front, the number is that of the digits. -/
theorem leadingInt_of_digit {c : Char} (hc : c.isDigit = true) (cs : List Char) :
    leadingInt (c :: cs) = leadingNat (c :: cs) := by
  unfold leadingInt
  split
  · next heq =>
      cases heq
      cases hc
  · next heq =>
      cases heq
      cases hc
  · rfl

theorem leadingInt_signed (i : Int) (hrest : EndsNumber rest) :
    leadingInt ((signed i).toList ++ rest) = i := by
  cases i with
  | ofNat n =>
      have hnumber := leadingNat_repr n hrest
      have hdigits : ∀ c ∈ (Nat.repr n).toList, c.isDigit = true :=
        fun _ hc => isDigit_of_mem_repr hc
      rw [signed]
      cases hcs : (Nat.repr n).toList with
      | nil => simp at hcs
      | cons c cs =>
          rw [hcs] at hnumber hdigits
          rw [List.cons_append, leadingInt_of_digit (hdigits c List.mem_cons_self)]
          exact congrArg Int.ofNat hnumber
  | negSucc n =>
      have hlist : (signed (.negSucc n)).toList = '-' :: (Nat.repr (n + 1)).toList := by
        simp [signed]
      rw [hlist, List.cons_append, leadingInt, leadingNat_repr (n + 1) hrest]
      rfl

theorem leadingInt_withSign (i : Int) (hrest : EndsNumber rest) :
    leadingInt ((withSign i).toList ++ rest) = i := by
  cases i with
  | ofNat n =>
      have hlist : (withSign (.ofNat n)).toList = '+' :: (Nat.repr n).toList := by
        simp [withSign]
      rw [hlist, List.cons_append, leadingInt, leadingNat_repr n hrest]
      rfl
  | negSucc n =>
      have hlist : (withSign (.negSucc n)).toList = '-' :: (Nat.repr (n + 1)).toList := by
        simp [withSign]
      rw [hlist, List.cons_append, leadingInt, leadingNat_repr (n + 1) hrest]
      rfl

/-! ## Columns -/

/-- Behind a column comes what was written behind it, if the word fits. -/
theorem drop_column {width : Nat} {word : String} (hword : word.length ≤ width)
    (rest : List Char) : ((column width word).toList ++ rest).drop width = rest := by
  have hlength : (column width word).toList.length = width := by
    rw [column, String.toList_append, String.toList_ofList, List.length_append,
      List.length_replicate, String.length_toList, Nat.add_sub_cancel' hword]
  exact List.drop_left' hlength

/-- A column begins with its word, if the word has no blanks. -/
theorem takeWhile_column {width : Nat} {word : String} (hlt : word.length < width)
    (hword : ' ' ∉ word.toList) (rest : List Char) :
    ((column width word).toList ++ rest).takeWhile (· ≠ ' ') = word.toList := by
  have hletters : ∀ c ∈ word.toList, decide (c ≠ ' ') = true := by
    intro c hc
    have hne : c ≠ ' ' := by
      rintro rfl
      exact hword hc
    simpa using hne
  obtain ⟨k, hk⟩ : ∃ k, width - word.length = k + 1 := ⟨width - word.length - 1, by omega⟩
  rw [column, String.toList_append, String.toList_ofList, hk, List.replicate_succ,
    List.append_assoc, List.takeWhile_append_of_pos hletters]
  simp

end Text

end TapeLang
