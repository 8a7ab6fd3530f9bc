import TapeLang.Proofs.Pairing

/-!
# TapeLang.Proofs.LinkFaults — what linking says and leaves when it fails

Brackets that do not balance are wrong in one of two ways. Either some
beginning of the list closes more than it opens (`Overclosed`); then linking
stops at the first bracket that does so. Or no beginning does, and a bracket
is left open; then linking goes through the whole list and names the last
such bracket, which is the innermost one.

In both cases the list has been changed where a pair was closed before
linking stopped, and nowhere else (`LeftBehind`).

* `StillOpen.not_overclosed` — what has been read with brackets left open
  closes nothing that is not open;
* `Linking.Behind.lastUnclosed`, `Linking.Behind.firstExcess` — what is wrong
  at the end of the list, and at a closing bracket with an empty stack;
* `Linking.Behind.leftBehind` — what has been changed up to there;
* `failed_linking_is_precise` — the two cases together.
-/

namespace TapeLang

/-! ## What can be wrong with a list -/

/-- The list closes more than it opens. -/
def Overclosed (ops : List Instruction) : Prop :=
  ops.countP Instruction.isOpen < ops.countP Instruction.isClose

/-- The instruction at `i` is the first one up to which the list closes more
than it opens. -/
structure FirstExcess (ops : List Instruction) (i : Nat) : Prop where
  lt_length : i < ops.length
  excess : Overclosed (ops.take (i + 1))
  least : ∀ j, j < i → ¬ Overclosed (ops.take (j + 1))

/-- The instruction at `i` is the last one that opens a loop which is never
closed. -/
structure LastUnclosed (ops : List Instruction) (i : Nat) : Prop where
  opens : ∃ k, ops[i]? = some (.loopOpen k)
  unclosed : ∀ j, ¬ Partners ops i j
  last : ∀ i' k, i < i' → ops[i']? = some (.loopOpen k) → ∃ j, Partners ops i' j

/-- `code` is the list with each other's index in those partners of which the
closing one stands before `stop`. -/
structure LeftBehind (ops : List Instruction) (stop : Nat) (code : Array Instruction) : Prop where
  size : code.size = ops.length
  paired : ∀ i j, Partners ops i j → j < stop →
    code[i]? = some (.loopOpen j) ∧ code[j]? = some (.loopClose i)
  single : ∀ i, (∀ j, ¬ (Partners ops i j ∧ j < stop) ∧ ¬ (Partners ops j i ∧ i < stop)) →
    code[i]? = ops[i]?

theorem Balanced.not_overclosed {ops front : List Instruction} (h : Balanced ops)
    (hfront : front <+: ops) : ¬ Overclosed front :=
  Nat.not_lt.mpr (h.1 front hfront)

/-! ## What the stack says -/

namespace StillOpen

variable {ops : List Instruction}

theorem lt_length {indices : List Nat} (h : StillOpen ops indices) :
    ∀ i ∈ indices, i < ops.length := by
  induction h with
  | none => simp
  | more k _ _ ih =>
      intro i hi
      rw [List.length_append, List.length_cons]
      rcases List.mem_cons.mp hi with rfl | houter
      · omega
      · have hlt := ih i houter
        omega

/-- The innermost bracket that is open is the last one. -/
theorem lt_of_mem_outer {i : Nat} {outer : List Nat} (h : StillOpen ops (i :: outer)) :
    ∀ i' ∈ outer, i' < i := by
  generalize hindices : i :: outer = indices at h
  cases h with
  | none => cases hindices
  | more k hfront _ =>
      cases hindices
      exact hfront.lt_length

/-- What is open can still be closed. -/
theorem completes {indices : List Nat} (h : StillOpen ops indices) :
    ∃ rest, Balanced (ops ++ rest) := by
  induction indices generalizing ops with
  | nil =>
      cases h with
      | none hops => exact ⟨[], by simpa using hops⟩
  | cons i outer ih =>
      -- one closing bracket takes the innermost one off
      obtain ⟨rest, hrest⟩ := ih (h.close 0).1
      exact ⟨.loopClose 0 :: rest, by simpa using hrest⟩

/-- So no beginning of the list closes more than it opens. -/
theorem not_overclosed {indices : List Nat} (h : StillOpen ops indices)
    {front : List Instruction} (hfront : front <+: ops) : ¬ Overclosed front := by
  obtain ⟨rest, hrest⟩ := h.completes
  exact hrest.not_overclosed (hfront.trans (List.prefix_append ops rest))

/-- A bracket that is open has no partner: its partner would be the next
closing bracket, if one came. -/
theorem unclosed {i : Nat} {outer : List Nat} (h : StillOpen ops (i :: outer)) (j : Nat) :
    ¬ Partners ops i j := by
  intro hij
  -- a closing bracket put behind the list would pair with `i` as well
  have hnext := (h.close 0).2
  have hj := hij.lt_length
  have hsame := (hij.append [.loopClose 0]).right_unique hnext
  omega

end StillOpen

/-! ## Where linking stops -/

namespace Linking.Behind

variable {front : List Instruction} {code : Array Instruction} {pending : List Nat}

/-- At the end of the list, with a bracket open. -/
theorem lastUnclosed {i : Nat} {outer : List Nat} (h : Behind front code (i :: outer)) :
    LastUnclosed front i where
  opens := by
    obtain ⟨k, hk⟩ := (h.stack.close 0).2.opens
    rw [List.getElem?_append_left (h.stack.lt_length i List.mem_cons_self)] at hk
    exact ⟨k, hk⟩
  unclosed := h.stack.unclosed
  last := by
    intro i' k hlt hi'
    -- a later bracket is closed, or it would be on top of `i`
    rcases h.opens i' k hi' with hmem | hclosed
    · rcases List.mem_cons.mp hmem with rfl | houter
      · omega
      · have hbefore := h.stack.lt_of_mem_outer i' houter
        omega
    · exact hclosed

/-- At a closing bracket, with no bracket open. -/
theorem firstExcess (h : Behind front code []) (k : Nat) (tail : List Instruction) :
    FirstExcess (front ++ .loopClose k :: tail) front.length where
  lt_length := by simp
  excess := by
    have hbalanced : Balanced front := by
      cases h.stack with
      | none hfront => exact hfront
    have htotal := hbalanced.2
    rw [List.take_length_add_append]
    simp [Overclosed, Instruction.isOpen, Instruction.isClose]
    omega
  least := by
    intro j hj
    rw [List.take_append_of_le_length hj]
    exact h.stack.not_overclosed (List.take_prefix (j + 1) front)

theorem getElem?_append (h : Behind front code pending) (rest : List Instruction) (i : Nat) :
    (code ++ rest)[i]? =
      if i < front.length then code[i]? else (front ++ rest)[i]? := by
  rw [← Array.getElem?_toList, Array.toList_appendList, List.getElem?_append,
    List.getElem?_append, Array.length_toList, h.size, Array.getElem?_toList]
  split <;> rfl

/-- What linking did not come to is left as it is. -/
theorem leftBehind (h : Behind front code pending) (rest : List Instruction) :
    LeftBehind (front ++ rest) front.length (code ++ rest) where
  size := by
    rw [← Array.length_toList, Array.toList_appendList, List.length_append, List.length_append,
      Array.length_toList, h.size]
  paired := by
    intro i j hij hj
    have hi := Nat.lt_trans hij.lt hj
    rw [h.getElem?_append, h.getElem?_append, if_pos hi, if_pos hj]
    exact h.paired i j (hij.of_append hj)
  single := by
    intro i hi
    rw [h.getElem?_append]
    -- what has been linked is as it was, and the rest is not touched
    by_cases hlt : i < front.length
    · rw [if_pos hlt, List.getElem?_append_left hlt]
      apply h.single
      intro j
      exact ⟨fun hij => (hi j).1 ⟨hij.append rest, hij.lt_length⟩,
        fun hji => (hi j).2 ⟨hji.append rest, hlt⟩⟩
    · rw [if_neg hlt]

end Linking.Behind

/-- **A failure is precise.** Take a list whose brackets do not balance. If
some beginning closes more than it opens, linking names the first bracket
that makes it so, and leaves the partners before it linked. Otherwise it
names the last bracket that is never closed, and leaves all partners linked.
Nothing else is changed, and no `halt` is added. -/
theorem failed_linking_is_precise {ops : List Instruction} (h : ¬ Balanced ops) :
    ((∃ front, front <+: ops ∧ Overclosed front) →
      ∃ i, FirstExcess ops i ∧ (link ops).fault = some (.unopened i) ∧
        LeftBehind ops i (link ops).code) ∧
    ((¬ ∃ front, front <+: ops ∧ Overclosed front) →
      ∃ i, LastUnclosed ops i ∧ (link ops).fault = some (.unclosed i) ∧
        LeftBehind ops ops.length (link ops).code) := by
  rcases Linking.Behind.start.extend ops with ⟨code, pending, hcode, hlink⟩ |
    ⟨front, k, tail, code, rfl, hcode, hlink⟩
  · -- linking came to the end of the list
    rw [List.nil_append] at hcode
    constructor
    · rintro ⟨front, hfront, hover⟩
      exact absurd hover (hcode.stack.not_overclosed hfront)
    · intro _
      cases pending with
      | nil =>
          -- with nothing pending the list would be balanced
          cases hcode.stack with
          | none hops => exact absurd hops h
      | cons i outer =>
          change link ops = ⟨code, some (.unclosed i)⟩ at hlink
          rw [hlink]
          exact ⟨i, hcode.lastUnclosed, rfl, by simpa using hcode.leftBehind []⟩
  · -- it came to a bracket with nothing to close
    rw [List.nil_append] at hcode
    have hfirst := hcode.firstExcess k tail
    constructor
    · intro _
      change link (front ++ .loopClose k :: tail) =
        ⟨code ++ (.loopClose k :: tail), some (.unopened code.size)⟩ at hlink
      rw [hlink, hcode.size]
      exact ⟨front.length, hfirst, rfl, hcode.leftBehind _⟩
    · intro hnone
      exact absurd ⟨_, List.take_prefix _ _, hfirst.excess⟩ hnone

/-- In `[]][` the second closing bracket is one too many, and the pair before
it has been linked. In `[[]` the first bracket is left open, and the pair
behind it has been linked. -/
theorem surplus_brackets_are_named :
    ¬ Balanced [.loopOpen 7, .loopClose 7, .loopClose 7, .loopOpen 7] ∧
    link [.loopOpen 7, .loopClose 7, .loopClose 7, .loopOpen 7] =
      ⟨#[.loopOpen 1, .loopClose 0, .loopClose 7, .loopOpen 7], some (.unopened 2)⟩ ∧
    FirstExcess [.loopOpen 7, .loopClose 7, .loopClose 7, .loopOpen 7] 2 ∧
    ¬ Balanced [.loopOpen 7, .loopOpen 7, .loopClose 7] ∧
    link [.loopOpen 7, .loopOpen 7, .loopClose 7] =
      ⟨#[.loopOpen 7, .loopOpen 2, .loopClose 1], some (.unclosed 0)⟩ ∧
    LastUnclosed [.loopOpen 7, .loopOpen 7, .loopClose 7] 0 := by
  have hover : Overclosed [.loopOpen 7, .loopClose 7, .loopClose 7] :=
    (by decide : (1 : Nat) < 2)
  have hfront : [.loopOpen 7, .loopClose 7, .loopClose 7] <+:
      [Instruction.loopOpen 7, .loopClose 7, .loopClose 7, .loopOpen 7] := ⟨[.loopOpen 7], rfl⟩
  have hsurplus : ¬ Balanced [.loopOpen 7, .loopClose 7, .loopClose 7, .loopOpen 7] :=
    fun h => h.not_overclosed hfront hover
  obtain ⟨i, hfirst, hi, _⟩ := (failed_linking_is_precise hsurplus).1 ⟨_, hfront, hover⟩
  cases hi
  have hopen : ¬ Balanced [.loopOpen 7, .loopOpen 7, .loopClose 7] :=
    fun h => absurd h.2 (by decide)
  -- no front is overclosed, as another fault would be found then
  obtain ⟨i, hlast, hi, _⟩ := (failed_linking_is_precise hopen).2 fun hex => by
    obtain ⟨_, _, hi, _⟩ := (failed_linking_is_precise hopen).1 hex
    cases hi
  cases hi
  exact ⟨hsurplus, rfl, hfirst, hopen, rfl, hlast⟩

end TapeLang
