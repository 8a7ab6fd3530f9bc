import TapeLang.Program
import TapeLang.Proofs.Nesting

/-!
# TapeLang.Proofs.Linking — where a forest stands in linked code

`Laid p i trees j`: in the program `p`, the forest `trees` begins at the
index `i` and ends before the index `j`, and the brackets of each of its
loops carry each other's index.

The main statements are `ofInstructions_isOk_iff` (a list can be linked
exactly if it is balanced) and `Nests.linked` (the program of a list has
the forest of that list from its first instruction on, and a `halt` behind
it).
-/

namespace TapeLang

/-! ## Code at an index -/

/-- The program has the instructions `ops` from the index `i` on. -/
def Program.Holds (p : Program) : Nat → List Instruction → Prop
  | _, [] => True
  | i, op :: ops => p.fetch i = op ∧ p.Holds (i + 1) ops

theorem Program.holds_append {p : Program} {i : Nat} {xs ys : List Instruction} :
    p.Holds i (xs ++ ys) ↔ p.Holds i xs ∧ p.Holds (i + xs.length) ys := by
  induction xs generalizing i with
  | nil => simp [Program.Holds]
  | cons x xs ih =>
      simp only [List.cons_append, Program.Holds, ih, List.length_cons, and_assoc]
      rw [Nat.add_right_comm, Nat.add_assoc]

/-- A program has its own code from the beginning on. -/
theorem Program.holds_code (p : Program) : p.Holds 0 p.code.toList := by
  -- the part of the code that has been passed grows from the left
  have htail : ∀ ys xs : List Instruction, p.code.toList = xs ++ ys → p.Holds xs.length ys := by
    intro ys
    induction ys with
    | nil => intro xs _; trivial
    | cons y ys ih =>
        intro xs hcode
        refine ⟨?_, ?_⟩
        · have hget : p.code[xs.length]? = some y := by
            rw [← Array.getElem?_toList, hcode]
            simp
          simp [Program.fetch, Array.getD_eq_getD_getElem?, hget]
        · have hnext := ih (xs ++ [y]) (by simp [hcode])
          simpa using hnext
  exact htail p.code.toList [] rfl

/-- The forest `trees` stands in `p` from the index `i` up to the index
`j`. -/
inductive Laid (p : Program) : Nat → List Tree → Nat → Prop where
  | nil (i : Nat) : Laid p i [] i
  | tree {i k : Nat} {tree : Tree} {rest : List Tree}
      (hop : Tree.ofInstruction? (p.fetch i) = some tree) (hrest : Laid p (i + 1) rest k) :
      Laid p i (tree :: rest) k
  | loop {i j k : Nat} {body rest : List Tree}
      (hopen : p.fetch i = .loopOpen j) (hbody : Laid p (i + 1) body j)
      (hclose : p.fetch j = .loopClose i) (hrest : Laid p (j + 1) rest k) :
      Laid p i (.loop body :: rest) k

theorem Laid.append {p : Program} {i j k : Nat} {xs ys : List Tree}
    (hxs : Laid p i xs j) (hys : Laid p j ys k) : Laid p i (xs ++ ys) k := by
  induction hxs with
  | nil => exact hys
  | tree hop _ ih => exact Laid.tree hop (ih hys)
  | loop hopen hbody hclose _ _ ih => exact Laid.loop hopen hbody hclose (ih hys)

/-! ## Linking a list -/

/-- Linking copies what is no bracket. -/
theorem Linking.extend_flat {op : Instruction} (hopen : op.isOpen = false)
    (hclose : op.isClose = false) (code : Array Instruction) (pending : List Nat)
    (rest : List Instruction) :
    Linking.extend code pending (op :: rest) = Linking.extend (code.push op) pending rest := by
  cases op with
  | loopOpen k => cases hopen
  | loopClose k => cases hclose
  | _ => rfl

/-- Linking succeeds exactly if the list balances from as many loops as are
pending. -/
theorem Linking.fault_extend_eq_none_iff {code : Array Instruction} {pending : List Nat}
    {ops : List Instruction} :
    (Linking.extend code pending ops).fault = none ↔ BalancedFrom pending.length ops := by
  induction ops generalizing code pending with
  | nil => cases pending <;> simp [Linking.extend]
  | cons op ops ih =>
      rw [balancedFrom_cons]
      cases op with
      | loopOpen j => simp [Linking.extend, ih, Instruction.isOpen, Instruction.isClose]
      | loopClose j =>
          -- a closing bracket needs a pending one
          cases pending with
          | nil => simp [Linking.extend, Instruction.isOpen, Instruction.isClose]
          | cons i pending =>
              simp [Linking.extend, ih, Instruction.isOpen, Instruction.isClose]
      | _ => simp [Linking.extend, ih, Instruction.isOpen, Instruction.isClose]

theorem link_fault_eq_none_iff {ops : List Instruction} :
    (link ops).fault = none ↔ Balanced ops := by
  have hfault : (Linking.extend #[] [] ops).fault = none ↔ BalancedFrom 0 ops :=
    Linking.fault_extend_eq_none_iff
  rw [balanced_iff_from_zero, ← hfault]
  rfl

/-- A list can be linked exactly if it is balanced. -/
theorem ofInstructions_isOk_iff {ops : List Instruction} :
    (∃ p, Program.ofInstructions ops = .ok p) ↔ Balanced ops := by
  rw [← link_fault_eq_none_iff]
  unfold Program.ofInstructions
  rcases link ops with ⟨code, fault⟩
  cases fault <;> simp

theorem ofInstructions_eq_error_iff {ops : List Instruction} {e : CompileError} :
    Program.ofInstructions ops = .error e ↔ (link ops).fault = some e := by
  unfold Program.ofInstructions
  rcases link ops with ⟨code, fault⟩
  cases fault <;> simp

/-- An instruction as it is before linking. -/
def Instruction.unlinked : Instruction → Instruction
  | .loopOpen _ => .loopOpen 0
  | .loopClose _ => .loopClose 0
  | op => op

/-- Linking goes through a list that nests and comes out behind it with the
same loops pending. The code that it adds differs from the list in the
operands of brackets only, and wherever that code stands, the forest of the
list stands. The induction is on the nesting: the bracket that is rewritten
when a loop closes is the one that the same loop has opened. -/
theorem Nests.extend {ops : List Instruction} {trees : List Tree} (h : Nests ops trees)
    (code : Array Instruction) (pending : List Nat) (rest : List Instruction) :
    ∃ (code' : Array Instruction) (image : List Instruction),
      Linking.extend code pending (ops ++ rest) = Linking.extend code' pending rest ∧
      code'.toList = code.toList ++ image ∧
      image.map Instruction.unlinked = ops.map Instruction.unlinked ∧
      ∀ p : Program, p.Holds code.size image →
        Laid p code.size trees (code.size + image.length) := by
  induction h generalizing code pending rest with
  | nil => exact ⟨code, [], rfl, by simp, rfl, fun p _ => Laid.nil _⟩
  | @tree op tree ops trees hop _ ih =>
      rcases ih (code.push op) pending rest with ⟨code', image, hext, hcode, himage, hlaid⟩
      refine ⟨code', op :: image, ?_, by simp [hcode], by simp [himage], ?_⟩
      · have hflat := Tree.not_bracket hop
        rw [← hext, List.cons_append, Linking.extend_flat hflat.1 hflat.2]
      · intro p hp
        have hrest := hlaid p (by simpa using hp.2)
        rw [← hp.1] at hop
        refine Laid.tree hop ?_
        simpa [Nat.add_assoc, Nat.add_comm 1] using hrest
  | @loop i j inner ops body trees _ _ ihinner ihops =>
      rcases ihinner (code.push (.loopOpen i)) (code.size :: pending)
        (.loopClose j :: (ops ++ rest)) with ⟨code₁, image₁, hext₁, hcode₁, himage₁, hlaid₁⟩
      -- the closing bracket stands behind the opening one and the body
      have hsize : code₁.size = code.size + 1 + image₁.length := by
        rw [← Array.length_toList, hcode₁]
        simp
        omega
      rcases ihops ((code₁.setIfInBounds code.size (.loopOpen code₁.size)).push
        (.loopClose code.size)) pending rest with ⟨code₂, image₂, hext₂, hcode₂, himage₂, hlaid₂⟩
      refine ⟨code₂, .loopOpen code₁.size :: (image₁ ++ .loopClose code.size :: image₂),
        ?_, ?_, ?_, ?_⟩
      · rw [← hext₂]
        simpa [Linking.extend] using hext₁
      · rw [hcode₂]
        simp [hcode₁]
      · simp [himage₁, himage₂, Instruction.unlinked]
      · intro p hp
        have hbody := Program.holds_append.mp hp.2
        have hclose := hbody.2
        have hat : code.size + 1 + image₁.length = code₁.size := hsize.symm
        rw [hat] at hclose
        refine Laid.loop hp.1 ?_ hclose.1 ?_
        · have hinner := hlaid₁ p (by simpa using hbody.1)
          simpa [hat] using hinner
        · have hrest := hlaid₂ p (by simpa using hclose.2)
          simp only [Array.size_push, Array.size_setIfInBounds] at hrest
          have hend : code₁.size + 1 + image₂.length =
              code.size + (image₁.length + (image₂.length + 1) + 1) := by omega
          simpa [hend] using hrest

/-- The program of a list has the forest of the list in front and a `halt`
behind it, and differs from the list in the operands of brackets only. -/
theorem Nests.linked {ops : List Instruction} {trees : List Tree} (h : Nests ops trees) :
    ∃ p, Program.ofInstructions ops = .ok p ∧
      Laid p 0 (trees ++ [.leaf .halt]) (ops.length + 1) ∧
      p.code.toList.map Instruction.unlinked = ops.map Instruction.unlinked ++ [.halt] := by
  rcases h.extend #[] [] [] with ⟨code, image, hext, hcode, himage, hlaid⟩
  have hlink : link ops = { code := code.push .halt, fault := none } := by
    simpa [link, Linking.extend] using hext
  have hlen : image.length = ops.length := by
    have hmap := congrArg List.length himage
    simpa using hmap
  refine ⟨{ code := code.push .halt }, by simp [Program.ofInstructions, hlink], ?_, ?_⟩
  · -- the forest is laid out in front of the `halt` that linking adds
    have hholds := Program.holds_code { code := code.push .halt }
    simp only [Array.toList_push, hcode, List.nil_append, Program.holds_append] at hholds
    have hforest := hlaid _ hholds.1
    refine Laid.append (j := ops.length) (by simpa [hlen] using hforest) ?_
    have hhalt := hholds.2.1
    rw [Nat.zero_add, hlen] at hhalt
    refine Laid.tree ?_ (Laid.nil _)
    rw [hhalt]
    rfl
  · simp [hcode, himage, Instruction.unlinked]

end TapeLang
