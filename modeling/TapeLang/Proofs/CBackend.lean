import TapeLang.Proofs.CReading
import TapeLang.Proofs.Commands
import TapeLang.Proofs.ShrunkRun

/-!
# TapeLang.Proofs.CBackend — the C text of a program runs as the program

A run that comes to its end is followed by the statements of the C text,
cell by cell and byte by byte. The head and the position are the same word,
read with and without a sign, so the one is on the tape exactly if the
other is inside the array.

* `Mirrors` — the tape, the head and the writer of a run against the array,
  the position and the output of statements;
* `Runs.exec` — the statements of a forest that comes to its end;
* `c_text_runs_alike` — the text of a program, read as C and run.
-/

namespace TapeLang

open CLang CSource

variable {σ : Type}

/-! ## Words with and without a sign -/

theorem toNat_toUInt64 (k : Int64) : (k.toUInt64.toNat : Int) = k.toInt % 2 ^ 64 := by
  have hword : k.toInt = (k.toUInt64.toNat : Int).bmod (2 ^ 64) := BitVec.toInt_eq_toNat_bmod _
  have hmod : (k.toUInt64.toNat : Int).bmod (2 ^ 64) % 2 ^ 64 = k.toUInt64.toNat % 2 ^ 64 :=
    Int.bmod_emod
  have hlt := k.toUInt64.toNat_lt
  rw [hword, hmod]
  omega

theorem ofInt_toInt_uint64 (k : Int64) : UInt64.ofInt k.toInt = k.toUInt64 := by
  unfold UInt64.ofInt
  rw [← toNat_toUInt64, Int.toNat_natCast, UInt64.ofNat_toNat]

theorem ofInt_toInt_uint8 (v : Int8) : UInt8.ofInt v.toInt = v.toUInt8 := by
  have hword : v.toInt = (v.toUInt8.toNat : Int).bmod (2 ^ 8) := BitVec.toInt_eq_toNat_bmod _
  have hmod : (v.toUInt8.toNat : Int).bmod (2 ^ 8) % 2 ^ 8 = v.toUInt8.toNat % 2 ^ 8 :=
    Int.bmod_emod
  have hlt := v.toUInt8.toNat_lt
  have hvalue : v.toInt % 2 ^ 8 = v.toUInt8.toNat := by
    rw [hword, hmod]
    omega
  unfold UInt8.ofInt
  rw [hvalue, Int.toNat_natCast, UInt8.ofNat_toNat]

/-- The cell under the head is where the position says. -/
theorem cell?_eq_some_iff {head : Int64} {i : Fin tapeLength} :
    Tape.cell? head = some i ↔ head.toUInt64.toNat = i := by
  have hnat := toNat_toUInt64 head
  have hlow := head.le_toInt
  have hhigh := head.toInt_lt
  have hi := i.isLt
  unfold tapeLength at hi
  unfold Tape.cell?
  split
  · rename_i htape
    have hcell : head.toUInt64.toNat = head.toInt.toNat := by omega
    rw [Option.some_inj, hcell, Fin.ext_iff]
  · -- a negative head is a position far behind the array
    rename_i htape
    unfold tapeLength at htape
    constructor
    · intro h
      cases h
    · intro h
      omega

/-! ## Printing -/

/-- In `Writer.Prints w bytes w'` the writer `w` takes the bytes one after
another without failing, and is `w'` then. -/
inductive Writer.Prints [Writer σ] : σ → List UInt8 → σ → Prop where
  | nil (w : σ) : Writer.Prints w [] w
  | snoc {w w₁ w₂ : σ} {bytes : List UInt8} {byte : UInt8} (hbytes : Writer.Prints w bytes w₁)
      (hbyte : Writer.emit w₁ byte = (none, w₂)) : Writer.Prints w (bytes ++ [byte]) w₂

/-- A sink that does not fail keeps the byte. -/
theorem Sink.bytes_of_emit {w w' : Sink} {byte : UInt8} (h : Writer.emit w byte = (none, w')) :
    w'.bytes = w.bytes.push byte := by
  -- a flush keeps the bytes, and a write that is taken adds one
  have hflush : ∀ {v v' : Sink}, Sink.flush v = (none, v') → v'.bytes = v.bytes := by
    intro v v' hv
    unfold Sink.flush at hv
    split at hv
    · split at hv <;> cases hv
      rfl
    all_goals
      cases hv
      rfl
  have hwrite : ∀ {v : Sink}, Sink.write w byte = (.taken, v) → v = w.take byte := by
    intro v hv
    unfold Sink.write at hv
    split at hv
    · split at hv <;> cases hv
      rfl
    · split at hv <;> cases hv
      rfl
    all_goals
      cases hv
      rfl
  unfold Writer.emit Writer.put at h
  rcases hoffer : Writer.write w byte with ⟨receipt, v⟩
  rw [hoffer] at h
  cases receipt with
  | taken =>
      rw [hflush h, hwrite hoffer]
      rfl
  | declined => cases h
  | failed cause => cases h

/-- A sink holds what has been printed to it. -/
theorem Sink.bytes_of_prints {w w' : Sink} {bytes : List UInt8} (h : Writer.Prints w bytes w') :
    w'.bytes.toList = w.bytes.toList ++ bytes := by
  induction h with
  | nil => simp
  | snoc _ hbyte ih => simp [Sink.bytes_of_emit hbyte, ih]

/-! ## The simulation -/

/-- The statements have got as far as the run that began with the writer
`w`. -/
structure Mirrors [Writer σ] (w : σ) (s : State σ) (c : Store) : Prop where
  memory : c.memory = s.tape.toList
  pos : c.pos = s.head.toUInt64
  output : Writer.Prints w c.output s.writer

namespace Mirrors

variable [Writer σ] {w : σ} {s : State σ} {c : Store}

theorem initial (w : σ) : Mirrors w (State.initial w) (Store.initial tapeLength) where
  memory := by simp [Store.initial, State.initial, Tape.blank]
  pos := rfl
  output := Writer.Prints.nil w

/-- Both look at the same cell. -/
theorem cell (h : Mirrors w s c) : c.cell? = s.current? := by
  unfold Store.cell? State.current?
  rw [h.memory, h.pos]
  cases hcell : Tape.cell? s.head with
  | some i =>
      rw [cell?_eq_some_iff.mp hcell]
      have hget : s.tape.get i = s.tape.toList[i.val] := rfl
      simp [hget]
  | none =>
      -- the head is off the tape, so the position is behind the array
      have hout : tapeLength ≤ s.head.toUInt64.toNat := by
        by_cases hin : s.head.toUInt64.toNat < tapeLength
        · have hsome : Tape.cell? s.head = some ⟨_, hin⟩ := cell?_eq_some_iff.mpr rfl
          rw [hcell] at hsome
          cases hsome
        · omega
      simpa using hout

theorem cell_of_head (h : Mirrors w s c) {i : Fin tapeLength} (hi : Tape.cell? s.head = some i) :
    c.cell? = some (s.tape.get i) := by
  simp [h.cell, State.current?, hi]

/-- Both move. -/
theorem advance (h : Mirrors w s c) (k : Int64) :
    Mirrors w (s.advance k) { c with pos := c.pos + UInt64.ofInt k.toInt } where
  memory := h.memory
  pos := by
    rw [h.pos, ofInt_toInt_uint64]
    rfl
  output := h.output

/-- Both set the current cell. -/
theorem put (h : Mirrors w s c) {i : Fin tapeLength} (hi : Tape.cell? s.head = some i) (v : Int8)
    {n : Int} (hn : Int8.ofInt n = v) : Mirrors w (s.put i v) (c.put n) where
  memory := by
    have hpos : c.pos.toNat = i := by
      rw [h.pos]
      exact cell?_eq_some_iff.mp hi
    have hset : (s.tape.set i v).toList = s.tape.toList.set i v :=
      Vector.toList_set i.isLt
    simp only [Store.put, State.put, hpos, hn, h.memory, hset]
  pos := h.pos
  output := h.output

end Mirrors

section

variable [Writer σ] {w : σ}

/-- A leaf that comes to its end, and its statements. -/
theorem Leaf.exec {op : Leaf} {s s' : State σ} {c : Store} (hact : op.act s = .next s')
    (h : Mirrors w s c) :
    ∃ c', Mirrors w s' c' ∧ ∀ rest o, Exec rest c' o → Exec ((Tree.leaf op).inC ++ rest) c o := by
  cases op with
  | move k =>
      -- the position wraps where the head does
      cases hact
      refine ⟨_, h.advance k, ?_⟩
      intro rest o hrest
      rw [Tree.inC]
      exact Exec.simple rfl hrest
  | add n =>
      -- the sum is cut to eight bits when it is stored
      rcases State.onCell_cases hact with ⟨i, hi, hput⟩ | hoff
      · cases hput
        have hcell := h.cell_of_head hi
        refine ⟨_, h.put hi _ (n := (s.tape.get i).toInt + n.toInt8.toInt) ?_, ?_⟩
        · rw [Int8.ofInt_add, Int8.ofInt_toInt, Int8.ofInt_toInt]
        · intro rest o hrest
          rw [Tree.inC]
          refine Exec.simple ?_ hrest
          simp [Simple.act, hcell]
      · cases hoff
  | set v =>
      rcases State.onCell_cases hact with ⟨i, hi, hput⟩ | hoff
      · cases hput
        have hcell := h.cell_of_head hi
        refine ⟨_, h.put hi _ (Int8.ofInt_toInt v.toInt8), ?_⟩
        intro rest o hrest
        rw [Tree.inC]
        refine Exec.simple ?_ hrest
        simp [Simple.act, hcell]
      · cases hoff
  | print =>
      -- the byte that is passed on is the cell without its sign
      rcases State.onCell_cases hact with ⟨i, hi, hprint⟩ | hoff
      · have hcell := h.cell_of_head hi
        rcases hemit : Writer.emit s.writer (s.tape.get i).toUInt8 with ⟨cause, w₁⟩
        rw [hemit] at hprint
        cases cause with
        -- a print that fails has no next state
        | some cause => cases hprint
        | none =>
            cases hprint
            have hbyte : Writer.emit s.writer (UInt8.ofInt (s.tape.get i).toInt) = (none, w₁) := by
              rw [ofInt_toInt_uint8]
              exact hemit
            refine ⟨{ c with output := c.output ++ [UInt8.ofInt (s.tape.get i).toInt] },
              ⟨h.memory, h.pos, Writer.Prints.snoc h.output hbyte⟩, ?_⟩
            intro rest o hrest
            rw [Tree.inC]
            refine Exec.simple ?_ hrest
            simp [Simple.act, hcell]
      · cases hoff
  | read => cases hact
  | halt => cases hact

/-- A forest that comes to its end, and its statements. -/
theorem Runs.exec {trees : List Tree} {s s' : State σ} {n : Nat} (h : Runs trees s n (.next s'))
    {c : Store} (hc : Mirrors w s c) : ∃ c', Mirrors w s' c' ∧ Exec (inC trees) c (.done c') := by
  generalize ho : Outcome.next s' = o at h
  induction h generalizing c s' with
  | nil s =>
      cases ho
      refine ⟨c, hc, ?_⟩
      rw [inC]
      exact Exec.nil c
  | leafNext hact _ ih =>
      rcases Leaf.exec hact hc with ⟨c₁, hc₁, hexec⟩
      rcases ih hc₁ ho with ⟨c', hc', hrest⟩
      refine ⟨c', hc', ?_⟩
      rw [inC]
      exact hexec _ _ hrest
  | leafStop => cases ho
  | seekOff => cases ho
  | seekDone hcell _ ih =>
      rcases ih hc ho with ⟨c', hc', hrest⟩
      refine ⟨c', hc', ?_⟩
      rw [inC, Tree.inC]
      exact Exec.loopDone (hc.cell.trans hcell) hrest
  | @seekMore k rest s v n o hcell hv _ ih =>
      -- a search is a loop around one move
      rcases ih (hc.advance k) ho with ⟨c', hc', hagain⟩
      refine ⟨c', hc', ?_⟩
      rw [inC, Tree.inC] at hagain ⊢
      exact Exec.loopMore (hc.cell.trans hcell) hv (Exec.simple rfl (Exec.nil _)) hagain
  | loopOff => cases ho
  | loopDone hcell _ ih =>
      rcases ih hc ho with ⟨c', hc', hrest⟩
      refine ⟨c', hc', ?_⟩
      rw [inC, Tree.inC]
      exact Exec.loopDone (hc.cell.trans hcell) hrest
  | loopMore hcell hv _ _ ihbody ihagain =>
      rcases ihbody hc rfl with ⟨c₁, hc₁, hround⟩
      rcases ihagain hc₁ ho with ⟨c', hc', hagain⟩
      refine ⟨c', hc', ?_⟩
      rw [inC, Tree.inC] at hagain ⊢
      exact Exec.loopMore (hc.cell.trans hcell) hv hround hagain
  | loopStop => cases ho

/-- A list without a `halt` does not end a run well before its end. The
induction is on the run, with the list of each part of the forest. -/
theorem Runs.not_done {trees : List Tree} {s t : State σ} {n : Nat} {ops : List Instruction}
    (hnests : Nests ops trees) (hhalt : Instruction.halt ∉ ops) :
    ¬ Runs trees s n (.stop .done t) := by
  intro h
  generalize ho : Outcome.stop .done t = o at h
  induction h generalizing ops with
  | nil => cases ho
  | leafNext _ _ ih =>
      cases hnests with
      | tree hop hops => exact ih hops (fun hmem => hhalt (List.mem_cons_of_mem _ hmem)) ho
  | leafStop hact =>
      -- only `halt` stops a run this way, and it is not among the instructions
      cases ho
      rcases Leaf.eq_halt_of_done hact with ⟨rfl, _⟩
      cases hnests with
      | @tree op _ _ _ hop hops =>
          have hop' : op = .halt := by
            cases op <;> cases hop
            rfl
          exact hhalt (by simp [hop'])
  | seekOff => cases ho
  | seekDone _ _ ih =>
      cases hnests with
      | tree hop hops => exact ih hops (fun hmem => hhalt (List.mem_cons_of_mem _ hmem)) ho
  | seekMore _ _ _ ih => exact ih hnests hhalt ho
  | loopOff => cases ho
  | loopDone _ _ ih =>
      cases hnests with
      | tree hop hops => exact ih hops (fun hmem => hhalt (List.mem_cons_of_mem _ hmem)) ho
      | loop i j hinner hops => exact ih hops (fun hmem => hhalt (by simp [hmem])) ho
  | loopMore _ _ _ _ _ ihagain => exact ihagain hnests hhalt ho
  | loopStop _ _ _ ihbody =>
      -- the body of the loop would have to hold one
      cases hnests with
      | tree hop hops => exact absurd hop (Tree.ofInstruction?_ne_loop _ _)
      | loop i j hinner hops => exact ihbody hinner (fun hmem => hhalt (by simp [hmem])) ho

end

/-! ## Texts -/

/-- Linking changes nothing that a text shows. -/
theorem render_linked {ops : List Instruction} {trees : List Tree} {p : Program}
    (hnests : Nests ops trees) (hp : Program.ofInstructions ops = .ok p)
    (hread : Instruction.read ∉ ops) :
    render p = .ok (text (ops.filterMap Statement.ofInstruction?)) := by
  rcases hnests.linked with ⟨p', hp', _, hcode⟩
  rw [hp] at hp'
  cases hp'
  -- linking changes operands of brackets, which no statement mentions
  have hbody : body p = ops.filterMap Statement.ofInstruction? := by
    have hsame : ∀ code : List Instruction, code.filterMap Statement.ofInstruction? =
        (code.map Instruction.unlinked).filterMap Statement.ofInstruction? := by
      intro code
      rw [List.filterMap_map]
      congr 1
      funext op
      cases op <;> rfl
    rw [body, hsame, hcode, List.filterMap_append, ← hsame]
    simp [Statement.ofInstruction?]
  have hcodeRead : Instruction.read ∉ p.code := by
    intro hmem
    have hlinked : Instruction.read ∈ p.code.toList.map Instruction.unlinked :=
      List.mem_map.mpr ⟨.read, by simpa using hmem, rfl⟩
    rw [hcode] at hlinked
    rcases List.mem_append.mp hlinked with hfront | hhalt
    · rcases List.mem_map.mp hfront with ⟨op, hold, hop⟩
      have hsame : op = .read := by
        cases op <;> cases hop
        rfl
      exact absurd (hsame ▸ hold) hread
    · simp at hhalt
  rw [render_of_not_mem_read hcodeRead, hbody]

/-- Neither a `read` nor a `halt` comes from the peephole pass. -/
theorem not_mem_shrink {ops : List Instruction} {op : Instruction} (hop : op = .read ∨ op = .halt)
    (h : op ∉ ops) : op ∉ Peephole.shrink ops := by
  -- what a merge or an idiom makes is neither a `read` nor a `halt`
  have hsettle : ∀ out c, op ∉ out → op ≠ c → op ∉ Peephole.settle out c := by
    intro out c hout hc hmem
    rcases Peephole.mem_settle hmem with hold | hnew | ⟨b, hmerge⟩ | ⟨a, b, hcollapse⟩
    · exact hout hold
    · exact hc hnew
    · unfold Peephole.merge at hmerge
      split at hmerge <;> cases hmerge <;> rcases hop with hop | hop <;> cases hop
    · have hidiom := Peephole.isIdiom_of_collapse hcollapse
      rcases hop with rfl | rfl <;> cases hidiom
  -- so one more instruction never brings it in
  have hfold : ∀ out, op ∉ out → op ∉ ops.foldl Peephole.settle out := by
    induction ops with
    | nil =>
        intro out hout
        exact hout
    | cons c ops ih =>
        intro out hout
        have hc : op ≠ c := by
          rintro rfl
          exact h List.mem_cons_self
        exact ih (fun hmem => h (List.mem_cons_of_mem c hmem)) _ (hsettle out c hout hc)
  rw [Peephole.shrink_eq_foldl_settle, List.mem_reverse]
  exact hfold [] (by simp)

/-- A text is compiled from instructions that have neither a `halt` nor, if
the text has no comma, a `read`. -/
theorem compile_eq_ok {optimize : Bool} {source : String} {p : Program}
    (h : compile optimize source = .ok p) :
    ∃ ops, Program.ofInstructions ops = .ok p ∧ .halt ∉ ops ∧
      (',' ∉ source.toList → .read ∉ ops) := by
  have hhalt := halt_not_mem_commands source
  have hread : ',' ∉ source.toList → Instruction.read ∉ commands source :=
    fun hcomma hmem => hcomma (read_mem_commands_iff.mp hmem)
  cases optimize with
  | false => exact ⟨commands source, h, hhalt, hread⟩
  | true =>
      exact ⟨Peephole.shrink (commands source), h, not_mem_shrink (Or.inr rfl) hhalt,
        fun hcomma => not_mem_shrink (Or.inl rfl) (hread hcomma)⟩

/-- What a text without a comma compiles to. -/
theorem compile_without_read {optimize : Bool} {source : String} {p : Program}
    (h : compile optimize source = .ok p) (hcomma : ',' ∉ source.toList) :
    ∃ ops, Program.ofInstructions ops = .ok p ∧ .halt ∉ ops ∧ .read ∉ ops := by
  obtain ⟨ops, hops, hhalt, hread⟩ := compile_eq_ok h
  exact ⟨ops, hops, hhalt, hread hcomma⟩

/-- **Both backends agree.** The text of a program without `read` and `halt`
can be written and read as C. If the program comes to its end, whatever it
prints to, then the C program does nothing but come to its end: it never
leaves its array of `tapeLength` cells, it leaves the same cells and the
same position, and its output is what the program has printed; a sink then
holds that output behind what it held before. All programs compiled from a
text without commas are of this kind. -/
theorem c_text_runs_alike :
    (∀ (optimize : Bool) (source : String) (p : Program), compile optimize source = .ok p →
      ',' ∉ source.toList →
      ∃ ops, Program.ofInstructions ops = .ok p ∧ .halt ∉ ops ∧ .read ∉ ops) ∧
    (∀ (ops : List Instruction) (p : Program), Program.ofInstructions ops = .ok p →
      .halt ∉ ops → .read ∉ ops →
      ∃ text code, render p = .ok text ∧ read? text = some code ∧ code.cells = tapeLength ∧
        ∀ (σ : Type) [Writer σ] (w : σ) (fuel : Nat) (s : State σ),
          p.run? none fuel w = some ⟨none, s⟩ →
          ∃ c, Exec code.body (Store.initial code.cells) (.done c) ∧
            (∀ o, Exec code.body (Store.initial code.cells) o → o = .done c) ∧
            c.memory = s.tape.toList ∧ c.pos = s.head.toUInt64 ∧
            Writer.Prints w c.output s.writer) ∧
    ∀ (w w' : Sink) (bytes : List UInt8), Writer.Prints w bytes w' →
      w'.bytes.toList = w.bytes.toList ++ bytes := by
  refine ⟨fun _ _ _ h hcomma => compile_without_read h hcomma, ?_,
    fun _ _ _ => Sink.bytes_of_prints⟩
  intro ops p hp hhalt hread
  rcases (ofInstructions_isOk_iff.mp ⟨p, hp⟩).nests with ⟨trees, hnests⟩
  refine ⟨_, _, render_linked hnests hp hread, read?_text hnests, rfl, ?_⟩
  intro σ _ w fuel s hrun
  rw [Program.run?_finished_iff] at hrun
  rcases (halts_iff_runs hnests hp).mp hrun with ⟨n, _, hruns⟩
  rcases runs_halt_iff.mp hruns with hstop | ⟨_, m, _, hnext⟩
  · -- the code has no `halt` of its own
    exact absurd hstop (Runs.not_done hnests hhalt)
  · -- so its trees run through, and the statements follow them
    rcases hnext.exec (Mirrors.initial w) with ⟨c, hc, hexec⟩
    exact ⟨c, hexec, fun o ho => hexec.det ho, hc.memory, hc.pos, hc.output⟩

/-- The text `++[>++<-]>.<`, shrunk, which leaves one byte in its second
cell and prints it. -/
theorem printed_product_runs_alike :
    ',' ∉ "++[>++<-]>.<".toList ∧
    ∃ p text code s c, compile true "++[>++<-]>.<" = .ok p ∧ render p = .ok text ∧
      read? text = some code ∧ code.cells = tapeLength ∧
      p.run? none 30 ({} : Sink) = some ⟨none, s⟩ ∧
      Exec code.body (Store.initial code.cells) (.done c) ∧
      (∀ o, Exec code.body (Store.initial code.cells) o → o = .done c) ∧
      c.memory = s.tape.toList ∧ c.pos = 0 ∧ c.output = [4] := by
  have hcomma : ',' ∉ "++[>++<-]>.<".toList := by decide +kernel
  have hp : compile true "++[>++<-]>.<" = .ok ⟨#[.add 2, .loopOpen 6, .move 1, .add 2,
      .move (-1), .add (-1), .loopClose 1, .move 1, .print, .move (-1), .halt]⟩ := by
    decide +kernel
  rcases c_text_runs_alike.1 _ _ _ hp hcomma with ⟨ops, hops, hhalt, hread⟩
  rcases c_text_runs_alike.2.1 ops _ hops hhalt hread with ⟨text, code, htext, hcode, hcells, hall⟩
  -- the run prints one byte and ends where it began
  have hresult : (Program.run? ⟨#[.add 2, .loopOpen 6, .move 1, .add 2, .move (-1), .add (-1),
      .loopClose 1, .move 1, .print, .move (-1), .halt]⟩ none 30 ({} : Sink)).map
      (fun r => (r.failure, r.state.head, r.state.writer.bytes.toList)) = some (none, 0, [4]) := by
    decide +kernel
  rcases Option.map_eq_some_iff.mp hresult with ⟨⟨failure, s⟩, hrun, hs⟩
  simp only [Prod.mk.injEq] at hs
  rcases hs with ⟨rfl, hhead, hprinted⟩
  rcases hall Sink {} 30 s hrun with ⟨c, hexec, honly, hmemory, hpos, houtput⟩
  have hbytes := c_text_runs_alike.2.2 _ _ _ houtput
  rw [hhead] at hpos
  rw [hprinted] at hbytes
  exact ⟨hcomma, _, text, code, s, c, hp, htext, hcode, hcells, hrun, hexec, honly, hmemory, hpos,
    hbytes.symm⟩

end TapeLang
