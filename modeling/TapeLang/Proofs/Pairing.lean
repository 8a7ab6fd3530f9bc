import Mathlib.Data.List.Infix
import TapeLang.Proofs.Linking

/-!
# TapeLang.Proofs.Pairing — linking finds the partner of every bracket

Which brackets belong together is a matter of the list alone: `Partners ops
i j` says that a loop opens at `i` and closes at `j`, because the brackets
strictly between the two balance. Two loops are nested or disjoint
(`Partners.nested`), so a bracket has at most one partner.

Linking reads the list once, with a stack of the brackets still open.
`Linking.Behind` is what holds at each point of that: the brackets whose
partners have been read carry their partner's index, all else is as it was,
and the stack splits what has been read into balanced pieces (`StillOpen`).

* `Linking.Behind.copied`, `Linking.Behind.closed` — one instruction keeps it;
* `Linking.Behind.extend` — so it holds wherever linking stops;
* `ofInstructions_wellLinked` — the program of a list is `WellLinked`;
* `WellLinked.unique` — and a list has no other program that is.
-/

namespace TapeLang

/-! ## Partners -/

/-- The instructions strictly between two indices. -/
def between (ops : List Instruction) (i j : Nat) : List Instruction :=
  (ops.take j).drop (i + 1)

/-- The brackets at `i` and `j` open and close one loop. -/
structure Partners (ops : List Instruction) (i j : Nat) : Prop where
  lt : i < j
  opens : ∃ k, ops[i]? = some (.loopOpen k)
  closes : ∃ k, ops[j]? = some (.loopClose k)
  balanced : Balanced (between ops i j)

theorem between_split {ops : List Instruction} {i m j : Nat} {op : Instruction} (him : i < m)
    (hmj : m < j) (hop : ops[m]? = some op) :
    between ops i j = between ops i m ++ op :: between ops m j := by
  obtain ⟨hm, rfl⟩ := List.getElem?_eq_some_iff.mp hop
  have htake : (ops.take j).take m = ops.take m := by
    rw [List.take_take, Nat.min_eq_left (Nat.le_of_lt hmj)]
  have hm' : m < (ops.take j).length := by
    rw [List.length_take]
    omega
  have hdrop : (ops.take j).drop m = ops[m] :: (ops.take j).drop (m + 1) := by
    rw [List.drop_eq_getElem_cons hm', List.getElem_take]
  have hlen : i + 1 ≤ ((ops.take j).take m).length := by
    rw [List.length_take]
    omega
  unfold between
  rw [← hdrop, ← htake, ← List.drop_append_of_le_length hlen, List.take_append_drop]

theorem between_mono (ops : List Instruction) (i : Nat) {j j' : Nat} (h : j ≤ j') :
    between ops i j <+: between ops i j' := by
  unfold between
  have htake : ops.take j <+: ops.take j' := List.take_prefix_take_left h
  exact htake.drop (i + 1)

theorem between_append {xs : List Instruction} {j : Nat} (h : j ≤ xs.length)
    (ys : List Instruction) (i : Nat) : between (xs ++ ys) i j = between xs i j := by
  unfold between
  rw [List.take_append_of_le_length h]

namespace Partners

variable {ops : List Instruction} {i j i' j' : Nat}

theorem lt_length (h : Partners ops i j) : j < ops.length := by
  obtain ⟨k, hk⟩ := h.closes
  exact (List.getElem?_eq_some_iff.mp hk).1

/-- Of two loops, the one that opens later is behind the other or inside
it. Otherwise the part that they share would close too much for the one or
too little for the other. -/
theorem nested (h : Partners ops i j) (h' : Partners ops i' j') (hlt : i < i') :
    j < i' ∨ j' < j := by
  rcases Nat.lt_or_ge j i' with hbehind | hshare
  · exact Or.inl hbehind
  rcases Nat.lt_or_ge j' j with hinside | hcross
  · exact Or.inr hinside
  -- were they to cross, `i'` would be opened between `i` and `j` and not closed there
  exfalso
  obtain ⟨k, hk⟩ := h'.opens
  have hne : i' ≠ j := by
    rintro rfl
    obtain ⟨l, hl⟩ := h.closes
    rw [hk] at hl
    cases hl
  have hsplit := between_split hlt (by omega : i' < j) hk
  have htotal := h.balanced.2
  have hfront := h.balanced.1 (between ops i i') (by simp [hsplit])
  have hshared := h'.balanced.1 (between ops i' j) (between_mono ops i' (by omega))
  rw [hsplit] at htotal
  simp [List.countP_cons, Instruction.isOpen, Instruction.isClose] at htotal
  omega

theorem left_unique (h : Partners ops i j) (h' : Partners ops i' j) : i = i' := by
  have hlt := h.lt
  have hlt' := h'.lt
  rcases Nat.lt_trichotomy i i' with hii | rfl | hii
  · have hnested := h.nested h' hii
    omega
  · rfl
  · have hnested := h'.nested h hii
    omega

/-- A loop does not close twice. -/
theorem not_lt (h : Partners ops i j) (h' : Partners ops i j') : ¬ j < j' := by
  intro hjj
  obtain ⟨k, hk⟩ := h.closes
  have hsplit := between_split h.lt hjj hk
  have hfront := h'.balanced.1 (between ops i j ++ [.loopClose k]) (by simp [hsplit])
  have htotal := h.balanced.2
  simp [Instruction.isOpen, Instruction.isClose] at hfront
  omega

theorem right_unique (h : Partners ops i j) (h' : Partners ops i j') : j = j' := by
  have hle := h.not_lt h'
  have hge := h'.not_lt h
  omega

/-- More instructions behind a list do not part partners. -/
theorem append (h : Partners ops i j) (rest : List Instruction) : Partners (ops ++ rest) i j := by
  have hj := h.lt_length
  have hi : i < ops.length := Nat.lt_trans h.lt hj
  refine ⟨h.lt, ?_, ?_, ?_⟩
  · rw [List.getElem?_append_left hi]
    exact h.opens
  · rw [List.getElem?_append_left hj]
    exact h.closes
  · rw [between_append (Nat.le_of_lt hj)]
    exact h.balanced

/-- Nor do they join any brackets before them. -/
theorem of_append {rest : List Instruction} (h : Partners (ops ++ rest) i j)
    (hj : j < ops.length) : Partners ops i j := by
  have hi : i < ops.length := Nat.lt_trans h.lt hj
  refine ⟨h.lt, ?_, ?_, ?_⟩
  · rw [← List.getElem?_append_left hi]
    exact h.opens
  · rw [← List.getElem?_append_left hj]
    exact h.closes
  · rw [← between_append (Nat.le_of_lt hj)]
    exact h.balanced

theorem of_concat {c : Instruction} (h : Partners (ops ++ [c]) i j) (hj : j ≠ ops.length) :
    Partners ops i j := by
  have hlen := h.lt_length
  rw [List.length_append, List.length_singleton] at hlen
  exact h.of_append (by omega)

/-- One more instruction that is no closing bracket joins none at all. -/
theorem of_concat_not_close {c : Instruction} (hc : c.isClose = false)
    (h : Partners (ops ++ [c]) i j) : Partners ops i j := by
  apply h.of_concat
  rintro rfl
  obtain ⟨k, hk⟩ := h.closes
  simp at hk
  rw [hk] at hc
  cases hc

/-- If it closes the loop at `i`, it joins nothing else. -/
theorem concat_cases {c : Instruction} (hnew : Partners (ops ++ [c]) i ops.length)
    (h : Partners (ops ++ [c]) i' j') :
    (i' = i ∧ j' = ops.length) ∨ (Partners ops i' j' ∧ i' ≠ i ∧ j' ≠ i) := by
  by_cases hj : j' = ops.length
  · subst hj
    exact Or.inl ⟨h.left_unique hnew, rfl⟩
  · refine Or.inr ⟨h.of_concat hj, ?_, ?_⟩
    · rintro rfl
      exact hj (h.right_unique hnew)
    · rintro rfl
      obtain ⟨k, hk⟩ := h.closes
      obtain ⟨l, hl⟩ := hnew.opens
      rw [hk] at hl
      cases hl

end Partners

/-! ## Brackets still open -/

theorem Balanced.append {xs ys : List Instruction} (hxs : Balanced xs) (hys : Balanced ys) :
    Balanced (xs ++ ys) := by
  obtain ⟨ts, hts⟩ := hxs.nests
  obtain ⟨us, hus⟩ := hys.nests
  exact (hts.append hus).balanced

theorem Balanced.enclose {inner : List Instruction} (h : Balanced inner) (i j : Nat) :
    Balanced (.loopOpen i :: inner ++ [.loopClose j]) := by
  obtain ⟨body, hbody⟩ := h.nests
  have hloop := Nests.loop i j hbody Nests.nil
  exact hloop.balanced

theorem balanced_nil : Balanced [] :=
  Nests.nil.balanced

theorem balanced_singleton {op : Instruction} (hopen : op.isOpen = false)
    (hclose : op.isClose = false) : Balanced [op] := by
  rw [balanced_iff_from_zero, balancedFrom_cons]
  simp [hopen, hclose]

/-- `StillOpen ops indices`: behind `ops` the brackets at `indices` are open,
innermost first, and what stands before, between and behind them balances. -/
inductive StillOpen : List Instruction → List Nat → Prop where
  | none {ops : List Instruction} (hops : Balanced ops) : StillOpen ops []
  | more {front inner : List Instruction} {outer : List Nat} (k : Nat)
      (hfront : StillOpen front outer) (hinner : Balanced inner) :
      StillOpen (front ++ .loopOpen k :: inner) (front.length :: outer)

theorem StillOpen.append {ops ys : List Instruction} {indices : List Nat}
    (h : StillOpen ops indices) (hys : Balanced ys) : StillOpen (ops ++ ys) indices := by
  cases h with
  | none hops => exact StillOpen.none (hops.append hys)
  | more k hfront hinner =>
      have hmore := StillOpen.more k hfront (hinner.append hys)
      simpa using hmore

/-- A closing bracket closes the loop that has been opened last. -/
theorem StillOpen.close {ops : List Instruction} {i : Nat} {outer : List Nat}
    (h : StillOpen ops (i :: outer)) (k : Nat) :
    StillOpen (ops ++ [.loopClose k]) outer ∧ Partners (ops ++ [.loopClose k]) i ops.length := by
  generalize hindices : i :: outer = indices at h
  cases h with
  | none => cases hindices
  | @more front inner _ j hfront hinner =>
      cases hindices
      constructor
      · have hloop := hfront.append (hinner.enclose j k)
        simpa using hloop
      · refine ⟨by simp, ⟨j, by simp⟩, ⟨k, by simp⟩, ?_⟩
        rw [between_append (Nat.le_refl _), between, List.take_length, List.drop_length_add_append]
        exact hinner

/-! ## Linking step by step -/

/-- What holds when linking has read `front`: `code` is what it has made of
it, and `pending` is its stack. -/
structure Linking.Behind (front : List Instruction) (code : Array Instruction)
    (pending : List Nat) : Prop where
  size : code.size = front.length
  stack : StillOpen front pending
  /-- An opening bracket is on the stack or has been closed. -/
  opens : ∀ i k, front[i]? = some (.loopOpen k) → i ∈ pending ∨ ∃ j, Partners front i j
  /-- A closing bracket has closed something. -/
  closes : ∀ j k, front[j]? = some (.loopClose k) → ∃ i, Partners front i j
  /-- Partners carry each other's index. -/
  paired : ∀ i j, Partners front i j →
    code[i]? = some (.loopOpen j) ∧ code[j]? = some (.loopClose i)
  /-- What has no partner is as it was. -/
  single : ∀ i, (∀ j, ¬ Partners front i j ∧ ¬ Partners front j i) → code[i]? = front[i]?

theorem getElem?_concat (front : List Instruction) (c : Instruction) (i : Nat) :
    (front ++ [c])[i]? = if i = front.length then some c else front[i]? := by
  have hpush : (front.toArray.push c)[i]? =
      if i = front.toArray.size then some c else front.toArray[i]? := Array.getElem?_push
  simpa using hpush

theorem getElem?_concat_cases {front : List Instruction} {c op : Instruction} {i : Nat}
    (h : (front ++ [c])[i]? = some op) : front[i]? = some op ∨ i = front.length ∧ c = op := by
  rw [getElem?_concat] at h
  split at h
  · exact Or.inr ⟨‹_›, Option.some.inj h⟩
  · exact Or.inl h

/-- What closing the loop at `i` makes of the code. -/
theorem Linking.getElem?_join {code : Array Instruction} {i : Nat} (hi : i < code.size) (x : Nat) :
    ((code.setIfInBounds i (.loopOpen code.size)).push (.loopClose i))[x]? =
      if x = code.size then some (.loopClose i)
      else if x = i then some (.loopOpen code.size) else code[x]? := by
  rw [Array.getElem?_push, Array.size_setIfInBounds]
  by_cases hx : x = i
  · subst hx
    rw [Array.getElem?_setIfInBounds_self_of_lt hi, if_pos rfl]
  · rw [Array.getElem?_setIfInBounds_ne (Ne.symm hx), if_neg hx]

namespace Linking.Behind

variable {front : List Instruction} {code : Array Instruction} {pending : List Nat}

theorem start : Behind [] #[] [] where
  size := rfl
  stack := StillOpen.none balanced_nil
  opens := by simp
  closes := by simp
  paired := by
    intro i j h
    exact absurd h.lt_length (Nat.not_lt_zero j)
  single := by simp

/-- What closes no loop is copied. -/
theorem copied (h : Behind front code pending) {c : Instruction} (hc : c.isClose = false)
    {pending' : List Nat} (hstack : StillOpen (front ++ [c]) pending')
    (hold : ∀ i ∈ pending, i ∈ pending') (hnew : c.isOpen = true → front.length ∈ pending') :
    Behind (front ++ [c]) (code.push c) pending' where
  size := by simp [h.size]
  stack := hstack
  opens := by
    intro i k hi
    rcases getElem?_concat_cases hi with hi | ⟨rfl, rfl⟩
    · rcases h.opens i k hi with hmem | ⟨j, hij⟩
      · exact Or.inl (hold i hmem)
      · exact Or.inr ⟨j, hij.append [c]⟩
    · exact Or.inl (hnew rfl)
  closes := by
    intro j k hj
    rcases getElem?_concat_cases hj with hj | ⟨rfl, rfl⟩
    · obtain ⟨i, hij⟩ := h.closes j k hj
      exact ⟨i, hij.append [c]⟩
    · -- the copied instruction closes nothing
      cases hc
  paired := by
    intro i j hij
    -- a pair ends in a closing bracket, so both stand in front of `c`
    have hfront := hij.of_concat_not_close hc
    have hj := hfront.lt_length
    have hlt := hfront.lt
    obtain ⟨hi', hj'⟩ := h.paired i j hfront
    rw [Array.getElem?_push, Array.getElem?_push, if_neg (by rw [h.size]; omega),
      if_neg (by rw [h.size]; omega)]
    exact ⟨hi', hj'⟩
  single := by
    intro i hi
    have hfront := h.single i fun j =>
      ⟨fun hij => (hi j).1 (hij.append [c]), fun hij => (hi j).2 (hij.append [c])⟩
    rw [Array.getElem?_push, getElem?_concat, h.size, hfront]

/-- A closing bracket and the one on top of the stack become partners. -/
theorem closed {i : Nat} {outer : List Nat} (h : Behind front code (i :: outer)) (k : Nat) :
    Behind (front ++ [.loopClose k])
      ((code.setIfInBounds i (.loopOpen code.size)).push (.loopClose i)) outer := by
  obtain ⟨hstack, hnew⟩ := h.stack.close k
  have hlt := hnew.lt
  have hi : i < code.size := by
    rw [h.size]
    exact hlt
  have hjoin := Linking.getElem?_join hi
  rw [h.size] at hjoin ⊢
  constructor
  · simp [h.size]
  · exact hstack
  · intro i' k' hi'
    rcases getElem?_concat_cases hi' with hi' | ⟨_, hclose⟩
    · rcases h.opens i' k' hi' with hmem | ⟨j, hij⟩
      · -- the innermost pending bracket is the one that closes here
        rcases List.mem_cons.mp hmem with rfl | houter
        · exact Or.inr ⟨_, hnew⟩
        · exact Or.inl houter
      · exact Or.inr ⟨j, hij.append _⟩
    · cases hclose
  · intro j k' hj
    rcases getElem?_concat_cases hj with hj | ⟨rfl, _⟩
    · obtain ⟨i', hij⟩ := h.closes j k' hj
      exact ⟨i', hij.append _⟩
    · exact ⟨i, hnew⟩
  · -- the new pair has just been written, and no older one shares a place with it
    intro i' j hij
    rw [hjoin, hjoin]
    rcases hnew.concat_cases hij with ⟨rfl, rfl⟩ | ⟨hfront, hi', hj'⟩
    · rw [if_neg (by omega), if_pos rfl, if_pos rfl]
      exact ⟨rfl, rfl⟩
    · have hlen := hfront.lt_length
      have hlt' := hfront.lt
      rw [if_neg (by omega), if_neg hi', if_neg (by omega), if_neg hj']
      exact h.paired i' j hfront
  · -- neither end of the new pair is single
    intro x hx
    have hxi : x ≠ i := by
      rintro rfl
      exact (hx _).1 hnew
    have hxn : x ≠ front.length := by
      rintro rfl
      exact (hx _).2 hnew
    have hfront := h.single x fun j =>
      ⟨fun hij => (hx j).1 (hij.append _), fun hij => (hx j).2 (hij.append _)⟩
    rw [hjoin, if_neg hxn, if_neg hxi, getElem?_concat, if_neg hxn, hfront]

/-- What is no bracket is as it was. -/
theorem flat (h : Behind front code pending) {i : Nat} {op : Instruction}
    (hi : front[i]? = some op) (hopen : op.isOpen = false) (hclose : op.isClose = false) :
    code[i]? = some op := by
  rw [← hi]
  apply h.single
  -- pairs are of brackets
  intro j
  constructor
  · intro hij
    obtain ⟨k, hk⟩ := hij.opens
    rw [hi] at hk
    cases hk
    cases hopen
  · intro hji
    obtain ⟨k, hk⟩ := hji.closes
    rw [hi] at hk
    cases hk
    cases hclose

/-- Linking goes on behind the next instruction, unless that closes a loop
and none is open. -/
theorem step (h : Behind front code pending) (op : Instruction) :
    (∃ code' pending', Behind (front ++ [op]) code' pending' ∧
      ∀ rest, Linking.extend code pending (op :: rest) = Linking.extend code' pending' rest) ∨
    pending = [] ∧ ∃ k, op = .loopClose k := by
  rcases op.bracket_cases with ⟨k, rfl⟩ | ⟨k, rfl⟩ | ⟨hopen, hclose⟩
  · have hstack := StillOpen.more k h.stack balanced_nil
    refine Or.inl ⟨code.push (.loopOpen k), front.length :: pending, ?_, fun rest => ?_⟩
    · exact h.copied rfl hstack (fun i hi => List.mem_cons_of_mem _ hi)
        (fun _ => List.mem_cons_self)
    · rw [← h.size]
      rfl
  · cases pending with
    -- nothing is open: the only step that fails
    | nil => exact Or.inr ⟨rfl, k, rfl⟩
    | cons i outer => exact Or.inl ⟨_, _, h.closed k, fun _ => rfl⟩
  · have hstack := h.stack.append (balanced_singleton hopen hclose)
    refine Or.inl ⟨code.push op, pending, ?_, Linking.extend_flat hopen hclose code pending⟩
    exact h.copied hclose hstack (fun i hi => hi) (fun hopen' => by simp [hopen] at hopen')

/-- Linking comes to the end of the list, or to a closing bracket with
nothing to close. -/
theorem extend (h : Behind front code pending) (rest : List Instruction) :
    (∃ code' pending', Behind (front ++ rest) code' pending' ∧
      Linking.extend code pending rest = Linking.extend code' pending' []) ∨
    ∃ mid k tail code', rest = mid ++ .loopClose k :: tail ∧ Behind (front ++ mid) code' [] ∧
      Linking.extend code pending rest = Linking.extend code' [] (.loopClose k :: tail) := by
  induction rest generalizing front code pending with
  | nil => exact Or.inl ⟨code, pending, by simpa using h, rfl⟩
  | cons op rest ih =>
      rcases h.step op with ⟨code₁, pending₁, h₁, hstep⟩ | ⟨rfl, k, rfl⟩
      · rcases ih h₁ with ⟨code₂, pending₂, h₂, hrest⟩ | ⟨mid, k, tail, code₂, rfl, h₂, hrest⟩
        · refine Or.inl ⟨code₂, pending₂, by simpa using h₂, ?_⟩
          rw [hstep, hrest]
        · refine Or.inr ⟨op :: mid, k, tail, code₂, rfl, by simpa using h₂, ?_⟩
          rw [hstep, hrest]
      · exact Or.inr ⟨[], k, rest, code, rfl, by simpa using h, rfl⟩

end Linking.Behind

/-- The code of a program is what linking has made of the whole list, and a
`halt`. -/
theorem ofInstructions_behind {ops : List Instruction} {p : Program}
    (h : Program.ofInstructions ops = .ok p) :
    ∃ code, Linking.Behind ops code [] ∧ p.code = code.push .halt := by
  unfold Program.ofInstructions link at h
  rcases Linking.Behind.start.extend ops with ⟨code, pending, hcode, hextend⟩ |
    ⟨mid, k, tail, code, _, _, hextend⟩
  · rw [hextend] at h
    cases pending with
    | nil =>
        cases h
        exact ⟨code, hcode, rfl⟩
    | cons i outer => cases h
  · rw [hextend] at h
    cases h

/-! ## Well-linked programs -/

/-- What a program has to do with the list that it comes from. -/
structure WellLinked (ops : List Instruction) (p : Program) : Prop where
  size : p.code.size = ops.length + 1
  last : p.code[ops.length]? = some .halt
  /-- What is no bracket stays. -/
  flat : ∀ (i : Nat) (op : Instruction), ops[i]? = some op → op.isOpen = false →
    op.isClose = false → p.code[i]? = some op
  /-- An opening bracket carries the index of its partner, which carries the
  index of the bracket. -/
  opens : ∀ i k, ops[i]? = some (.loopOpen k) → ∃ j, Partners ops i j ∧
    p.code[i]? = some (.loopOpen j) ∧ p.code[j]? = some (.loopClose i)
  /-- So does a closing bracket. -/
  closes : ∀ j k, ops[j]? = some (.loopClose k) → ∃ i, Partners ops i j ∧
    p.code[j]? = some (.loopClose i) ∧ p.code[i]? = some (.loopOpen j)

/-- The program of a list is well linked. -/
theorem ofInstructions_wellLinked {ops : List Instruction} {p : Program}
    (h : Program.ofInstructions ops = .ok p) : WellLinked ops p := by
  obtain ⟨code, hcode, hp⟩ := ofInstructions_behind h
  have hget : ∀ i, i < ops.length → p.code[i]? = code[i]? := by
    intro i hi
    rw [hp, Array.getElem?_push, if_neg (by rw [hcode.size]; omega)]
  have hpaired : ∀ i j, Partners ops i j →
      p.code[i]? = some (.loopOpen j) ∧ p.code[j]? = some (.loopClose i) := by
    intro i j hij
    rw [hget i (Nat.lt_trans hij.lt hij.lt_length), hget j hij.lt_length]
    exact hcode.paired i j hij
  constructor
  · rw [hp, Array.size_push, hcode.size]
  · rw [hp, Array.getElem?_push, if_pos hcode.size.symm]
  · intro i op hi hopen hclose
    rw [hget i (List.getElem?_eq_some_iff.mp hi).1]
    exact hcode.flat hi hopen hclose
  · intro i k hi
    rcases hcode.opens i k hi with hmem | ⟨j, hij⟩
    · -- at the end nothing is pending
      cases hmem
    · exact ⟨j, hij, hpaired i j hij⟩
  · intro j k hj
    obtain ⟨i, hij⟩ := hcode.closes j k hj
    obtain ⟨hi', hj'⟩ := hpaired i j hij
    exact ⟨i, hij, hj', hi'⟩

namespace WellLinked

variable {ops : List Instruction} {p : Program}

/-- What can stand at an index of the code. -/
theorem fetched (h : WellLinked ops p) {i : Nat} {op : Instruction} (hi : p.code[i]? = some op) :
    (i = ops.length ∧ op = .halt) ∨
    (ops[i]? = some op ∧ op.isOpen = false ∧ op.isClose = false) ∨
    (∃ j, op = .loopOpen j ∧ Partners ops i j) ∨
    ∃ j, op = .loopClose j ∧ Partners ops j i := by
  have hlt := (Array.getElem?_eq_some_iff.mp hi).1
  rw [h.size] at hlt
  rcases Nat.lt_succ_iff_lt_or_eq.mp hlt with hlt | rfl
  · have hsource : ops[i]? = some ops[i] := List.getElem?_eq_getElem hlt
    -- each instruction of the list tells what stands in its place
    generalize ops[i] = source at hsource
    rcases source.bracket_cases with ⟨k, rfl⟩ | ⟨k, rfl⟩ | ⟨hopen, hclose⟩
    · obtain ⟨j, hij, hcode, _⟩ := h.opens i k hsource
      rw [hi] at hcode
      exact Or.inr (Or.inr (Or.inl ⟨j, Option.some.inj hcode, hij⟩))
    · obtain ⟨j, hji, hcode, _⟩ := h.closes i k hsource
      rw [hi] at hcode
      exact Or.inr (Or.inr (Or.inr ⟨j, Option.some.inj hcode, hji⟩))
    · have hcode := h.flat i source hsource hopen hclose
      rw [hi] at hcode
      cases hcode
      exact Or.inr (Or.inl ⟨hsource, hopen, hclose⟩)
  · rw [h.last] at hi
    exact Or.inl ⟨rfl, (Option.some.inj hi).symm⟩

theorem partners_of_open (h : WellLinked ops p) {i j : Nat}
    (hi : p.code[i]? = some (.loopOpen j)) : Partners ops i j := by
  rcases h.fetched hi with ⟨_, hop⟩ | ⟨_, hflat, _⟩ | ⟨k, hop, hij⟩ | ⟨k, hop, _⟩
  · cases hop
  · cases hflat
  · cases hop
    exact hij
  · cases hop

theorem partners_of_close (h : WellLinked ops p) {i j : Nat}
    (hj : p.code[j]? = some (.loopClose i)) : Partners ops i j := by
  rcases h.fetched hj with ⟨_, hop⟩ | ⟨_, _, hflat⟩ | ⟨k, hop, _⟩ | ⟨k, hop, hij⟩
  · cases hop
  · cases hflat
  · cases hop
  · cases hop
    exact hij

/-- A list has at most one well-linked program: what is no bracket is given,
and a bracket has one partner. -/
theorem unique {q : Program} (hp : WellLinked ops p) (hq : WellLinked ops q) : p = q := by
  have hcode : p.code = q.code := by
    apply Array.ext_getElem?
    intro i
    rcases Nat.lt_trichotomy i ops.length with hi | rfl | hi
    · have hop : ops[i]? = some ops[i] := List.getElem?_eq_getElem hi
      generalize ops[i] = op at hop
      -- a bracket has one partner, so both programs jump to the same place
      rcases op.bracket_cases with ⟨k, rfl⟩ | ⟨k, rfl⟩ | ⟨hopen, hclose⟩
      · obtain ⟨j, hij, hpi, _⟩ := hp.opens i k hop
        obtain ⟨j', hij', hqi, _⟩ := hq.opens i k hop
        rw [hpi, hqi, hij.right_unique hij']
      · obtain ⟨j, hji, hpi, _⟩ := hp.closes i k hop
        obtain ⟨j', hji', hqi, _⟩ := hq.closes i k hop
        rw [hpi, hqi, hji.left_unique hji']
      · rw [hp.flat i op hop hopen hclose, hq.flat i op hop hopen hclose]
    · rw [hp.last, hq.last]
    · have hpsize := hp.size
      have hqsize := hq.size
      rw [Array.getElem?_eq_none (by omega), Array.getElem?_eq_none (by omega)]
  cases p
  cases q
  exact congrArg Program.mk hcode

end WellLinked

/-- A list can be linked exactly if its brackets balance. Its program is
then the one that is well linked to it, and any two loops of the program are
disjoint or nested. -/
theorem linking_pairs_brackets (ops : List Instruction) :
    ((∃ p, Program.ofInstructions ops = .ok p) ↔ Balanced ops) ∧
    (∀ p, Program.ofInstructions ops = .ok p ↔ Balanced ops ∧ WellLinked ops p) ∧
    ∀ p, Program.ofInstructions ops = .ok p → ∀ i j i' j' : Nat,
      p.code[i]? = some (.loopOpen j) → p.code[i']? = some (.loopOpen j') → i < i' →
        j < i' ∨ j' < j := by
  refine ⟨ofInstructions_isOk_iff, fun p => ?_, fun p hp i j i' j' hi hi' hlt => ?_⟩
  · constructor
    · intro hp
      exact ⟨ofInstructions_isOk_iff.mp ⟨p, hp⟩, ofInstructions_wellLinked hp⟩
    · rintro ⟨hbalanced, hlinked⟩
      obtain ⟨q, hq⟩ := ofInstructions_isOk_iff.mpr hbalanced
      rw [hq, hlinked.unique (ofInstructions_wellLinked hq)]
  · have hlinked := ofInstructions_wellLinked hp
    exact (hlinked.partners_of_open hi).nested (hlinked.partners_of_open hi') hlt

/-- The list of `[[-]>]`, with arbitrary operands in its brackets. -/
theorem nested_loops_pair_brackets :
    Program.ofInstructions
        [.loopOpen 7, .loopOpen 7, .add (-1), .loopClose 7, .move 1, .loopClose 7] =
      .ok ⟨#[.loopOpen 5, .loopOpen 3, .add (-1), .loopClose 1, .move 1, .loopClose 0, .halt]⟩ ∧
    WellLinked [.loopOpen 7, .loopOpen 7, .add (-1), .loopClose 7, .move 1, .loopClose 7]
      ⟨#[.loopOpen 5, .loopOpen 3, .add (-1), .loopClose 1, .move 1, .loopClose 0, .halt]⟩ := by
  have hp : Program.ofInstructions
      [.loopOpen 7, .loopOpen 7, .add (-1), .loopClose 7, .move 1, .loopClose 7] =
    .ok ⟨#[.loopOpen 5, .loopOpen 3, .add (-1), .loopClose 1, .move 1, .loopClose 0, .halt]⟩ := rfl
  exact ⟨hp, (((linking_pairs_brackets _).2.1 _).mp hp).2⟩

end TapeLang
