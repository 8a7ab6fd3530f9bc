/-!
# TapeLang.FileTree — files as values

A tree of files and directories with a working directory, so that what a
command does to files is a function of the tree. A path is walked name by
name from the left, and the first name that cannot be looked up decides
how it fails. Besides, the system may refuse for reasons that no tree shows:
permissions, a full disk. What fails changes nothing.

* `FileTree.locate` — the location that a path leads to;
* `FileTree.read` and `FileTree.readText` — the content of a file;
* `FileTree.write` — the tree with one file made or replaced.
-/

namespace TapeLang

/-- What stands at a location. -/
inductive Node where
  | file (content : ByteArray)
  | directory

instance : DecidableEq Node
  | .file a, .file b => decidable_of_iff (a.data = b.data) (by simp [ByteArray.ext_iff])
  | .directory, .directory => isTrue rfl
  | .file _, .directory => isFalse nofun
  | .directory, .file _ => isFalse nofun

/-- The names on the way from the root, the last one first. The root itself
is `[]`. -/
abbrev Location := List String

/-- Why a file cannot be read or written. -/
inductive FileFailure where
  /-- A name on the path does not exist. -/
  | missing
  /-- The path goes through something that is not a directory. -/
  | notDirectory
  /-- The path leads to a directory. -/
  | isDirectory
  /-- The path, or a name on it, is longer than is allowed. -/
  | nameTooLong
  /-- The content is not text in UTF-8. -/
  | notText
  /-- The system refuses. -/
  | refused (cause : String)
deriving DecidableEq, Repr

/-- The wording of a failure. -/
def FileFailure.message : FileFailure → String
  | .missing => "No such file or directory (os error 2)"
  | .notDirectory => "Not a directory (os error 20)"
  | .isDirectory => "Is a directory (os error 21)"
  | .nameTooLong => "File name too long (os error 36)"
  | .notText => "stream did not contain valid UTF-8"
  | .refused cause => cause

/-- The failure that an error number of the operating system stands for. -/
def FileFailure.ofCode? : Nat → Option FileFailure
  | 2 => some .missing
  | 20 => some .notDirectory
  | 21 => some .isDirectory
  | 36 => some .nameTooLong
  | _ => none

/-- Files and directories by location. -/
structure FileTree where
  /-- What stands where, the root apart, which is always a directory. -/
  entry : Location → Option Node
  /-- Where a path that does not begin with a slash begins. -/
  workingDirectory : Location
  /-- Why the system refuses to read at a path, where it does. -/
  readRefusal : String → Option String := fun _ => none
  /-- Why it refuses to put this content at a path. -/
  writeRefusal : String → ByteArray → Option String := fun _ _ => none

namespace FileTree

/-- The tree that holds nothing but its working directory, at `home`. -/
def empty (home : Location) : FileTree :=
  { entry := fun l => if l <:+ home then some .directory else none, workingDirectory := home }

/-- What stands at a location. -/
def node (t : FileTree) : Location → Option Node
  | [] => some .directory
  | l => t.entry l

/-- The tree with `n` at the location `l`. -/
def update (t : FileTree) (l : Location) (n : Node) : FileTree :=
  { t with entry := fun k => if k = l then some n else t.entry k }

/-- The longest name that can be looked up, in bytes. -/
def maxName : Nat := 255

/-- The longest path that can be looked up, in bytes. -/
def maxPath : Nat := 4095

/-- The pieces of a path between its slashes. There is always one. -/
def pieces : List Char → List (List Char)
  | [] => [[]]
  | c :: path =>
    if c = '/' then [] :: pieces path
    else
      match pieces path with
      | piece :: rest => (c :: piece) :: rest
      | [] => [[c]]

/-- The names of a path that are looked up one after another. Slashes side
by side count as one, and one at the end asks for a directory, as `.`
does. -/
def names (path : String) : List String :=
  let parts := (pieces path.toList).map String.ofList
  parts.filter (· ≠ "") ++ if parts.getLast? = some "" then ["."] else []

/-- The location that the names lead to from `l`. All but the last of them
have to be directories. -/
def walk (t : FileTree) (l : Location) : List String → Except FileFailure Location
  | [] => .ok l
  | name :: rest =>
    match t.node l with
    | none => .error .missing
    | some (.file _) => .error .notDirectory
    | some .directory =>
      if name = "." then walk t l rest
      else if name = ".." then walk t l.tail rest
      else if maxName < name.utf8ByteSize then .error .nameTooLong
      else walk t (name :: l) rest

/-- Where the walk along a path begins. -/
def origin (t : FileTree) (path : String) : Location :=
  if path.toList.head? = some '/' then [] else t.workingDirectory

/-- The location that a path leads to, whether or not something stands
there. -/
def locate (t : FileTree) (path : String) : Except FileFailure Location :=
  if path = "" then .error .missing
  else if maxPath < path.utf8ByteSize then .error .nameTooLong
  else t.walk (t.origin path) (names path)

/-- The content of the file at a path. -/
def read (t : FileTree) (path : String) : Except FileFailure ByteArray :=
  match t.readRefusal path with
  | some cause => .error (.refused cause)
  | none =>
    match t.locate path with
    | .error e => .error e
    | .ok l =>
      match t.node l with
      | none => .error .missing
      | some .directory => .error .isDirectory
      | some (.file content) => .ok content

/-- The text that the bytes of a file stand for. -/
def decodeText (content : ByteArray) : Except FileFailure String :=
  match String.fromUTF8? content with
  | some text => .ok text
  | none => .error .notText

/-- The content of the file at a path, as text. -/
def readText (t : FileTree) (path : String) : Except FileFailure String :=
  match t.read path with
  | .error e => .error e
  | .ok content => decodeText content

/-- The tree with `content` in the file at a path, which is made if it does
not exist. -/
def write (t : FileTree) (path : String) (content : ByteArray) : Except FileFailure FileTree :=
  match t.writeRefusal path content with
  | some cause => .error (.refused cause)
  | none =>
    match t.locate path with
    | .error e => .error e
    | .ok l =>
      match t.node l with
      | some .directory => .error .isDirectory
      | _ => .ok (t.update l (.file content))

/-- The location that names lead to from `l` if everything on the way is a
directory. -/
def descend (l : Location) (names : List String) : Location :=
  names.foldl (fun l name =>
    if name = "." then l else if name = ".." then l.tail else name :: l) l

/-- The tree with directories at all locations on the way to `l` that have
nothing yet. -/
def pave (t : FileTree) (l : Location) : FileTree :=
  { t with entry := fun k => t.entry k <|> if k <:+ l then some .directory else none }

/-- The tree with `n` at a path, and with directories wherever the way to it
has nothing yet. -/
def place (t : FileTree) (path : String) (n : Node) : FileTree :=
  let l := descend (t.origin path) (names path)
  (t.pave l).update l n

end FileTree

end TapeLang
