/-!
# Path — file paths, read and normalised

A path is a root and the names below it.  Reading drops empty names and `.`, and keeps `..`, which
may lead through a link; `Path.collapse` removes `..` as well.  Exactly two leading slashes are a
root of their own, any other number of them is `/`.
-/

namespace FluentBuilders

/-- **Where a path starts**: at the working directory, at `/`, or at the root written `//`. -/
inductive Root where
  | relative
  | slash
  | doubleSlash
  deriving DecidableEq, Repr

/-- The text of a root. -/
def Root.text : Root → String
  | .relative => ""
  | .slash => "/"
  | .doubleSlash => "//"

/-- **A file path.** -/
structure Path where
  root : Root
  names : List String
  deriving DecidableEq, Repr

namespace Path

/-- The pieces of a text between slashes. -/
def pieces (word : List Char) : List Char → List String
  | [] => [String.ofList word.reverse]
  | c :: cs => if c = '/' then String.ofList word.reverse :: pieces [] cs else pieces (c :: word) cs

/-- The root a text starts with. -/
def rootOf : List Char → Root
  | '/' :: '/' :: '/' :: _ => .slash
  | '/' :: '/' :: _ => .doubleSlash
  | '/' :: _ => .slash
  | _ => .relative

/-- A name that says where to go, unlike an empty one and `.`. -/
def isStep (name : String) : Bool := name != "" && name != "."

/-- **Reads a path.** -/
def ofString (text : String) : Path :=
  { root := rootOf text.toList, names := (pieces [] text.toList).filter isStep }

/-- **The text of a path**; that of no names at all is `.`. -/
def text (p : Path) : String :=
  match p.root, p.names with
  | .relative, [] => "."
  | root, names => root.text ++ String.intercalate "/" names

/-- `p` followed by `q`, which stands alone when it has a root. -/
def join (p q : Path) : Path :=
  if q.root = .relative then { p with names := p.names ++ q.names } else q

/-- `p` followed by the path that a text denotes. -/
def child (p : Path) (text : String) : Path := p.join (ofString text)

/-- The last name, empty when there is none. -/
def name (p : Path) : String := p.names.getLast?.getD ""

/-- The path without its last name. -/
def parent (p : Path) : Path := { p with names := p.names.dropLast }

/-- One name added to the names collected so far, last first: `..` takes one away again.  Below a
root a `..` too many is dropped; in a relative path it is kept. -/
def collapseStep (rooted : Bool) (names : List String) (name : String) : List String :=
  if name = ".." then
    match names with
    | [] => if rooted then [] else [".."]
    | last :: before => if last = ".." then ".." :: names else before
  else name :: names

/-- **The path without `..`**, where every name is taken for a directory. -/
def collapse (p : Path) : Path :=
  { p with names := (p.names.foldl (collapseStep (p.root ≠ .relative)) []).reverse }

/-- **The absolute path** of `p` when work goes on in the directory `current`. -/
def resolve (current p : Path) : Path := { (current.join p).collapse with root := .slash }

end Path

/-! ## Modules -/

/-- The endings of a source file's name. -/
def moduleSuffixes : List String := [".d.ts", ".tsx", ".ts", ".jsx", ".js", ".mts", ".cts"]

/-- **A name without its module ending.** -/
def stripModuleSuffix (name : String) : String :=
  match moduleSuffixes.find? fun suffix => suffix.toList.isSuffixOf name.toList with
  | some suffix => String.ofList (name.toList.take (name.length - suffix.length))
  | none => name

/-- **The directory part** of a module's path: what stands before its last slash, and without
slashes at the end unless it is nothing but slashes. -/
def directoryOf (module : String) : String :=
  let head := module.toList.reverse.dropWhile (· ≠ '/')
  match head.dropWhile (· = '/') with
  | [] => String.ofList head.reverse
  | trimmed => String.ofList trimmed.reverse

/-- **The module an import specifier names**, seen from a file in `directory`.  Only specifiers that
start with a dot are paths. -/
def resolveModule (specifier directory : String) : String :=
  if specifier.toList.head? = some '.' then
    let joined :=
      if directory = "" ∨ directory.toList.getLast? = some '/' then directory ++ specifier
      else directory ++ "/" ++ specifier
    stripModuleSuffix (Path.ofString joined).collapse.text
  else specifier

end FluentBuilders
