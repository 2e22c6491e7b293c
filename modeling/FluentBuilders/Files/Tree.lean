import FluentBuilders.Json.Display
import FluentBuilders.Path

/-!
# Files/Tree — directories, files, and what writing does to them

A place is the list of names that leads to it from the root, deepest first.  A tree says what stands
at each place; paths are followed through it name by name, and `..` leads back.  What an act does to
a tree, or why it is refused, is `FileTree.perform`.
-/

namespace FluentBuilders

/-! ## Refusals -/

/-- **Why an access to a file is refused.** -/
inductive FileFault where
  | missing
  | alreadyThere
  | notDirectory
  | isDirectory
  | nameTooLong
  /-- A name has a NUL in it, which no name can have. -/
  | invalidName
  /-- Any other refusal, with its number and words. -/
  | other (number : Nat) (words : String)
  deriving DecidableEq, Repr

/-- The number of a refusal; an invalid name is noticed before anything is accessed and has none. -/
def FileFault.number? : FileFault → Option Nat
  | .missing => some 2
  | .alreadyThere => some 17
  | .notDirectory => some 20
  | .isDirectory => some 21
  | .nameTooLong => some 36
  | .invalidName => none
  | .other number _ => some number

/-- A refusal in words. -/
def FileFault.words : FileFault → String
  | .missing => "No such file or directory"
  | .alreadyThere => "File exists"
  | .notDirectory => "Not a directory"
  | .isDirectory => "Is a directory"
  | .nameTooLong => "File name too long"
  | .invalidName => "embedded null byte"
  | .other _ words => words

/-- The refusal says that there is no file, unlike one that leaves it open. -/
def FileFault.isAbsence : FileFault → Bool
  | .missing | .notDirectory | .isDirectory | .invalidName => true
  | .alreadyThere | .nameTooLong | .other _ _ => false

/-- **A refused access**, and the path that was asked for. -/
structure FileError where
  fault : FileFault
  path : Path
  deriving DecidableEq, Repr

/-- The text of a refused access. -/
def FileError.message (e : FileError) : String :=
  match e.fault.number? with
  | some number =>
    "[Errno " ++ toString number ++ "] " ++ e.fault.words ++ ": " ++ Json.displayString e.path.text
  | none => e.fault.words

/-! ## Acts -/

/-- **A change to files.** -/
inductive FileAct where
  /-- The directory is there afterwards, and so are those above it. -/
  | makeDirectory (path : Path)
  /-- The file holds the content afterwards; the directories above it are made as needed. -/
  | write (path : Path) (content : ByteArray)
  /-- The target holds what the source holds when the copy is made. -/
  | copy (source target : Path)

/-! ## Trees -/

/-- **A place**: the names from the root to it, deepest first. -/
abbrev Place := List String

/-- **What stands at a place.** -/
inductive Entry where
  | directory
  | file (content : ByteArray)

/-- A directory stands at the place. -/
def Entry.isDirectory : Entry → Bool
  | .directory => true
  | .file _ => false

/-- **Files and directories**, seen from the directory `current`. -/
structure FileTree where
  current : Place
  entries : List (Place × Entry)

namespace FileTree

/-- The tree of nothing but a working directory. -/
def empty (current : Place) : FileTree :=
  { current
    entries := (List.range (current.length + 1)).map fun n => (current.drop n, .directory) }

/-- What stands at a place. -/
def get? (t : FileTree) (place : Place) : Option Entry := t.entries.lookup place

/-- The tree with an entry at a place, in place of the one before. -/
def set (t : FileTree) (place : Place) (entry : Entry) : FileTree :=
  { t with entries := (place, entry) :: t.entries.filter (·.1 ≠ place) }

/-- The working directory as a path. -/
def currentDirectory (t : FileTree) : Path := ⟨.slash, t.current.reverse⟩

/-- The most bytes a file's name can have. -/
def nameLimit : Nat := 255

/-- The most bytes the text of a path can have. -/
def pathLimit : Nat := 4095

/-- The place that names lead to from a directory; what stands there is left open. -/
def follow (t : FileTree) (place : Place) : List String → Except FileFault Place
  | [] => .ok place
  | name :: names =>
    match t.get? place with
    | none => .error .missing
    | some (.file _) => .error .notDirectory
    | some .directory =>
      if nameLimit < name.utf8ByteSize then .error .nameTooLong
      else t.follow (if name = ".." then place.tail else name :: place) names

/-- **The place a path leads to.** -/
def place (t : FileTree) (p : Path) : Except FileFault Place :=
  if p.names.any (·.toList.contains '\x00') then .error .invalidName
  else if pathLimit < p.text.utf8ByteSize then .error .nameTooLong
  else t.follow (if p.root = .relative then t.current else []) p.names

/-- A result for a path: a fault becomes the error of an access to it. -/
def located (p : Path) : Except FileFault α → Except FileError α :=
  Except.mapError fun fault => ⟨fault, p⟩

/-- What reading a file says of whether it is there. -/
def presence : Except FileError ByteArray → Except FileError Bool
  | .ok _ => .ok true
  | .error e => if e.fault.isAbsence then .ok false else .error e

/-- **The content of a file.** -/
def read (t : FileTree) (p : Path) : Except FileError ByteArray :=
  located p do
    match t.get? (← t.place p) with
    | none => throw .missing
    | some .directory => throw .isDirectory
    | some (.file content) => return content

/-- **A file stands at the path**; a path that cannot be followed to its end leaves it open. -/
def isFile (t : FileTree) (p : Path) : Except FileError Bool := presence (t.read p)

/-- A directory stands at the path. -/
def isDirectory (t : FileTree) (p : Path) : Bool :=
  match t.place p with
  | .ok place => (t.get? place).any Entry.isDirectory
  | .error _ => false

/-- One directory made, where nothing was and a directory above it. -/
def addDirectory (t : FileTree) (p : Path) : Except FileFault FileTree := do
  let place ← t.place p
  match t.get? place with
  | some _ => throw .alreadyThere
  | none => return t.set place .directory

/-- One directory made, unless it is there. -/
def ensureDirectory (t : FileTree) (p : Path) : Except FileError FileTree :=
  match t.addDirectory p with
  | .ok t => .ok t
  | .error fault => if t.isDirectory p then .ok t else .error ⟨fault, p⟩

/-- **A directory made with all above it**; the names lead to it from the root, deepest first.  A
directory is tried before those above it: what is missing is made, all else is the error. -/
def ensureDirectories (root : Root) (t : FileTree) : List String → Except FileError FileTree
  | [] => t.ensureDirectory ⟨root, []⟩
  | name :: above =>
    let p : Path := ⟨root, (name :: above).reverse⟩
    match t.addDirectory p with
    | .error .missing => do
      let t ← ensureDirectories root t above
      t.ensureDirectory p
    | _ => t.ensureDirectory p

/-- A directory made with all above it. -/
def makeDirectory (t : FileTree) (p : Path) : Except FileError FileTree :=
  t.ensureDirectories p.root p.names.reverse

/-- A file written into a directory that is there. -/
def write (t : FileTree) (p : Path) (content : ByteArray) : Except FileError FileTree :=
  located p do
    let place ← t.place p
    if (t.get? place).any Entry.isDirectory then throw .isDirectory
    return t.set place (.file content)

/-- **What an act does.** -/
def perform (t : FileTree) : FileAct → Except FileError FileTree
  | .makeDirectory p => t.makeDirectory p
  | .write p content => do
    let t ← t.makeDirectory p.parent
    t.write p content
  | .copy source target => do
    let content ← t.read source
    t.write target content

/-- What stands at a place after an entry was set. -/
theorem get?_set (t : FileTree) (place other : Place) (entry : Entry) :
    (t.set place entry).get? other = if other = place then some entry else t.get? other := by
  by_cases h : other = place
  · subst h; simp [set, get?]
  · simp only [set, get?, List.lookup_cons, beq_eq_false_iff_ne.2 h, if_neg h]
    induction t.entries with
    | nil => rfl
    | cons e es ih =>
      obtain ⟨q, v⟩ := e
      by_cases hq : q = place
      · subst hq; simpa [List.lookup_cons, beq_eq_false_iff_ne.2 h] using ih
      · by_cases ho : other = q
        · subst ho; simp [hq]
        · simpa [List.lookup_cons, hq, beq_eq_false_iff_ne.2 ho] using ih

end FileTree

end FluentBuilders
