/-!
# TapeLang.Text — numbers in columns, words in columns, lines

The few layout rules that every printed form of this library shares.

* `Text.padded` — a number with zeros in front, up to a least width;
* `Text.signed` and `Text.withSign` — a signed number, the sign written
  only if negative, or always;
* `Text.column` — a word with blanks behind it, up to a least width;
* `Text.ofLines` — lines, each closed by a newline.

No rule ever cuts: a number or word that is wider than its column is
written in full.
-/

namespace TapeLang.Text

/-- `n` in decimal, with zeros in front up to `width` digits. -/
def padded (width n : Nat) : String :=
  let digits := Nat.repr n
  String.ofList (List.replicate (width - digits.length) '0') ++ digits

/-- `i` in decimal; only a negative number has a sign. -/
def signed : Int → String
  | .ofNat n => Nat.repr n
  | .negSucc n => "-" ++ Nat.repr (n + 1)

/-- `i` in decimal with its sign, which is a plus for zero. -/
def withSign : Int → String
  | .ofNat n => "+" ++ Nat.repr n
  | .negSucc n => "-" ++ Nat.repr (n + 1)

/-- `word` followed by blanks up to `width` characters. -/
def column (width : Nat) (word : String) : String :=
  word ++ String.ofList (List.replicate (width - word.length) ' ')

/-- The text made of `lines`, each closed by a newline. -/
def ofLines (lines : List String) : String :=
  String.join (lines.map (· ++ "\n"))

end TapeLang.Text
