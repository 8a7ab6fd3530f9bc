/-!
# TapeLang.Proofs.CLanguage — a small part of C

Enough of C to read and run a program with one array of cells, one position
in it, and loops that test the current cell. It knows nothing of tapes and
instructions.

* `tokens`, `clauses`, `read?` — from a text to its statements. A text that
  is anything but a `main` of the expected shape cannot be read;
* `Exec` — what statements do. A cell is a signed byte that wraps, the
  position is a 64-bit word that wraps, and a use of a cell outside the
  array is a fault;
* `Exec.det` — statements end in one way at most.
-/

namespace TapeLang.CLang

/-! ## Statements -/

/-- A statement that is done at once. -/
inductive Simple where
  /-- The statement `pos += offset;`. -/
  | advance (offset : Int)
  /-- The statement `memory[pos] += amount;`. -/
  | increase (amount : Int)
  /-- The statement `memory[pos] = value;`. -/
  | assign (value : Int)
  /-- The statement `putchar(memory[pos]);`. -/
  | putchar
deriving DecidableEq, Repr

/-- A statement. -/
inductive Stmt where
  | simple (op : Simple)
  /-- A block that is repeated `while (memory[pos] != 0)`. -/
  | loop (body : List Stmt)

/-- A program: the length of its array, and the statements of its `main`
behind the declarations. -/
structure Code where
  cells : Nat
  body : List Stmt

/-! ## From text to tokens -/

/-- A token of C. Words that no program here uses are kept as they are, and so
are characters that stand for no operator. -/
inductive Lexeme where
  | int
  | main
  | void
  | char
  | sizeType
  | memory
  | pos
  | memset
  | sizeof
  | putchar
  | whileKey
  | returnKey
  | number (value : Nat)
  | word (letters : List Char)
  | parenOpen
  | parenClose
  | bracketOpen
  | bracketClose
  | braceOpen
  | braceClose
  | comma
  | semicolon
  | minus
  | assign
  | addAssign
  | notEqual
  | mark (c : Char)
deriving DecidableEq, Repr

/-- The value of a decimal constant. With a zero in front it would be an
octal one, unless it is zero. -/
def constant? (word : List Char) : Option Nat :=
  if word ≠ [] ∧ word.all Char.isDigit ∧ (word.head? = some '0' → word = ['0']) then
    some (Nat.ofDigitChars 10 word 0)
  else
    none

namespace Lexeme

/-- The token of a word that is no number. -/
def ofName : List Char → Lexeme
  | ['i', 'n', 't'] => .int
  | ['m', 'a', 'i', 'n'] => .main
  | ['v', 'o', 'i', 'd'] => .void
  | ['c', 'h', 'a', 'r'] => .char
  | ['s', 'i', 'z', 'e', '_', 't'] => .sizeType
  | ['m', 'e', 'm', 'o', 'r', 'y'] => .memory
  | ['p', 'o', 's'] => .pos
  | ['m', 'e', 'm', 's', 'e', 't'] => .memset
  | ['s', 'i', 'z', 'e', 'o', 'f'] => .sizeof
  | ['p', 'u', 't', 'c', 'h', 'a', 'r'] => .putchar
  | ['w', 'h', 'i', 'l', 'e'] => .whileKey
  | ['r', 'e', 't', 'u', 'r', 'n'] => .returnKey
  | letters => .word letters

/-- The token of a word. -/
def ofWord (word : List Char) : Lexeme :=
  match constant? word with
  | some n => .number n
  | none => ofName word

/-- The token of a single character. -/
def ofMark : Char → Lexeme
  | '(' => .parenOpen
  | ')' => .parenClose
  | '[' => .bracketOpen
  | ']' => .bracketClose
  | '\x7b' => .braceOpen
  | '\x7d' => .braceClose
  | ',' => .comma
  | ';' => .semicolon
  | '-' => .minus
  | '=' => .assign
  | c => .mark c

/-- Whether a token ends a clause. -/
def isStop : Lexeme → Bool
  | .semicolon | .braceOpen | .braceClose => true
  | _ => false

end Lexeme

/-- Whether a character may be part of a name, a keyword or a number. -/
def isWord (c : Char) : Bool :=
  c.isAlphanum || c = '_'

/-- The word that has been read, if there is one; its last character comes
first. -/
def wordOf : List Char → List Lexeme
  | [] => []
  | c :: word => [Lexeme.ofWord (c :: word).reverse]

/-- The tokens of a line in the middle of which `word` has been read. -/
def lex (word : List Char) : List Char → List Lexeme
  | [] => wordOf word
  | '+' :: '=' :: cs => wordOf word ++ .addAssign :: lex [] cs
  | '!' :: '=' :: cs => wordOf word ++ .notEqual :: lex [] cs
  | c :: cs =>
    if isWord c then lex (c :: word) cs
    else if c.isWhitespace then wordOf word ++ lex [] cs
    else wordOf word ++ Lexeme.ofMark c :: lex [] cs

/-- Whether a line is for the preprocessor. -/
def isDirective (line : List Char) : Bool :=
  (line.dropWhile Char.isWhitespace).head? = some '#'

/-- The tokens of a text, without its directives. -/
def tokens (text : List Char) : List Lexeme :=
  ((text.splitOn '\n').filter (!isDirective ·)).flatMap (lex [])

/-! ## From tokens to statements -/

/-- Tokens cut behind each stop. `clause` is the clause being read, with its
last token first. -/
def clauses (clause : List Lexeme) : List Lexeme → List (List Lexeme)
  | [] => if clause = [] then [] else [clause.reverse]
  | t :: ts =>
    if t.isStop then (t :: clause).reverse :: clauses [] ts else clauses (t :: clause) ts

/-- The value of a constant with or without a minus, up to the end of the
statement. -/
def literal? : List Lexeme → Option Int
  | [.number n, .semicolon] => some n
  | [.minus, .number n, .semicolon] => some (-n)
  | _ => none

/-- What a clause says inside `main`. -/
inductive Clause where
  | simple (op : Simple)
  /-- A loop begins. -/
  | openLoop
  /-- The innermost block ends. -/
  | close
  /-- The program is left with `return 0;`. -/
  | leave
deriving DecidableEq, Repr

/-- Reads a clause. -/
def Clause.ofLexemes? : List Lexeme → Option Clause
  | .pos :: .addAssign :: value => (literal? value).map fun n => .simple (.advance n)
  | .memory :: .bracketOpen :: .pos :: .bracketClose :: .addAssign :: value =>
    (literal? value).map fun n => .simple (.increase n)
  | .memory :: .bracketOpen :: .pos :: .bracketClose :: .assign :: value =>
    (literal? value).map fun n => .simple (.assign n)
  | [.putchar, .parenOpen, .memory, .bracketOpen, .pos, .bracketClose, .parenClose,
      .semicolon] => some (.simple .putchar)
  | [.whileKey, .parenOpen, .memory, .bracketOpen, .pos, .bracketClose, .notEqual, .number 0,
      .parenClose, .braceOpen] => some .openLoop
  | [.braceClose] => some .close
  | [.returnKey, .number 0, .semicolon] => some .leave
  | _ => none

/-- Nests clauses. `current` holds the statements of the innermost block so
far, `around` those of the blocks around it, all backwards. The last two
clauses of `main` leave it. -/
def nest (around : List (List Stmt)) (current : List Stmt) : List Clause → Option (List Stmt)
  | [] => none
  | .simple op :: rest => nest around (.simple op :: current) rest
  | .openLoop :: rest => nest (current :: around) [] rest
  | .close :: rest =>
    match around with
    | [] => none
    | outer :: around => nest around (.loop current.reverse :: outer) rest
  | .leave :: rest => if around = [] ∧ rest = [.close] then some current.reverse else none

/-- Reads a program. Before the statements of its `main` stand the array,
its clearing, and the position. -/
def read? (text : String) : Option Code :=
  match clauses [] (tokens text.toList) with
  | [.int, .main, .parenOpen, .void, .parenClose, .braceOpen] ::
      [.char, .memory, .bracketOpen, .number cells, .bracketClose, .semicolon] ::
      [.memset, .parenOpen, .memory, .comma, .number 0, .comma, .sizeof, .parenOpen, .memory,
        .parenClose, .parenClose, .semicolon] ::
      [.sizeType, .pos, .assign, .number 0, .semicolon] :: rest => do
    let body ← nest [] [] (← rest.mapM Clause.ofLexemes?)
    return { cells, body }
  | _ => none

/-! ## Running statements -/

/-- What statements act on. -/
structure Store where
  memory : List Int8
  pos : UInt64
  /-- The bytes written, in order. -/
  output : List UInt8

namespace Store

/-- The cell in use, unless the position is outside the array. -/
def cell? (s : Store) : Option Int8 :=
  s.memory[s.pos.toNat]?

/-- The cell in use set to the low byte of `n`. -/
def put (s : Store) (n : Int) : Store :=
  { s with memory := s.memory.set s.pos.toNat (Int8.ofInt n) }

/-- A cleared array with the position at its beginning. -/
def initial (cells : Nat) : Store :=
  { memory := List.replicate cells 0, pos := 0, output := [] }

end Store

/-- How statements end. -/
inductive Exit where
  | done (s : Store)
  /-- A cell outside the array was used. -/
  | fault (s : Store)

/-- What a simple statement does. -/
def Simple.act (op : Simple) (s : Store) : Exit :=
  match op, s.cell? with
  | .advance n, _ => .done { s with pos := s.pos + UInt64.ofInt n }
  | .increase n, some v => .done (s.put (v.toInt + n))
  | .assign n, some _ => .done (s.put n)
  | .putchar, some v => .done { s with output := s.output ++ [UInt8.ofInt v.toInt] }
  | _, none => .fault s

/-- In `Exec body s o` the statements `body`, run in `s`, end with `o`. -/
inductive Exec : List Stmt → Store → Exit → Prop where
  | nil (s : Store) : Exec [] s (.done s)
  | simple {op : Simple} {rest : List Stmt} {s s' : Store} {o : Exit}
      (hact : op.act s = .done s') (hrest : Exec rest s' o) : Exec (.simple op :: rest) s o
  | simpleFault {op : Simple} {rest : List Stmt} {s s' : Store}
      (hact : op.act s = .fault s') : Exec (.simple op :: rest) s (.fault s')
  | loopFault {body rest : List Stmt} {s : Store} (hcell : s.cell? = none) :
      Exec (.loop body :: rest) s (.fault s)
  | loopDone {body rest : List Stmt} {s : Store} {o : Exit} (hcell : s.cell? = some 0)
      (hrest : Exec rest s o) : Exec (.loop body :: rest) s o
  | loopMore {body rest : List Stmt} {s s' : Store} {v : Int8} {o : Exit}
      (hcell : s.cell? = some v) (hv : v ≠ 0) (hbody : Exec body s (.done s'))
      (hagain : Exec (.loop body :: rest) s' o) : Exec (.loop body :: rest) s o
  | loopStop {body rest : List Stmt} {s s' : Store} {v : Int8}
      (hcell : s.cell? = some v) (hv : v ≠ 0) (hbody : Exec body s (.fault s')) :
      Exec (.loop body :: rest) s (.fault s')

/-- Statements end in one way at most. -/
theorem Exec.det {body : List Stmt} {s : Store} {o o' : Exit} (h : Exec body s o)
    (h' : Exec body s o') : o' = o := by
  induction h generalizing o' with
  | nil s =>
      cases h'
      rfl
  | simple hact _ ih =>
      -- a statement has one effect, so the other execution has the same one
      cases h' with
      | simple hact' hrest' =>
          have hsame := hact'.symm.trans hact
          cases hsame
          exact ih hrest'
      | simpleFault hact' =>
          have hsame := hact'.symm.trans hact
          cases hsame
  | simpleFault hact =>
      -- or it has none in both of them
      cases h' with
      | simple hact' _ =>
          have hsame := hact'.symm.trans hact
          cases hsame
      | simpleFault hact' =>
          have hsame := hact'.symm.trans hact
          cases hsame
          rfl
  -- which rule of a loop applies is decided by the cell that it tests
  | loopFault hcell => cases h' <;> simp_all
  | loopDone hcell _ ih =>
      cases h' with
      | loopDone _ hrest' => exact ih hrest'
      | loopFault hcell' => simp_all
      | loopMore hcell' hv' _ _ => simp_all
      | loopStop hcell' hv' _ => simp_all
  | loopMore hcell hv _ _ ihbody ihagain =>
      -- the cell is not zero: the first round is the same, and then the rest is
      cases h' with
      | loopDone hcell' _ => simp_all
      | loopFault hcell' => simp_all
      | loopMore _ _ hbody' hagain' =>
          have hround := ihbody hbody'
          cases hround
          exact ihagain hagain'
      | loopStop _ _ hbody' =>
          have hround := ihbody hbody'
          cases hround
  | loopStop hcell hv _ ihbody =>
      -- the first round does not come to its end in the other execution either
      cases h' with
      | loopDone hcell' _ => simp_all
      | loopFault hcell' => simp_all
      | loopMore _ _ hbody' _ =>
          have hround := ihbody hbody'
          cases hround
      | loopStop _ _ hbody' =>
          have hround := ihbody hbody'
          cases hround
          rfl

end TapeLang.CLang
