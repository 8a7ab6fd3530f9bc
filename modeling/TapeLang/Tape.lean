/-!
# TapeLang.Tape — cells and the head

The tape is a fixed row of signed bytes that wrap. The head is a 64-bit
position that wraps too, and it may stand anywhere: only an instruction
that needs the cell under it asks whether there is one.
-/

namespace TapeLang

/-- The number of cells. -/
def tapeLength : Nat := 30000

/-- The cells, from left to right. -/
abbrev Tape := Vector Int8 tapeLength

namespace Tape

/-- A tape of zeros. -/
def blank : Tape := Vector.replicate tapeLength 0

/-- The cell under `head`, if the head is on the tape. -/
@[inline] def cell? (head : Int64) : Option (Fin tapeLength) :=
  if h : 0 ≤ head.toInt ∧ head.toInt < tapeLength then
    some ⟨head.toInt.toNat, by omega⟩
  else
    none

/-- The cells that are not zero, with their indices, from left to right. -/
def nonzero (t : Tape) : List (Nat × Int8) :=
  (t.toList.mapIdx fun i v => (i, v)).filter (·.2 ≠ 0)

end Tape

end TapeLang
