import FluentBuilders.Source.Comments
import FluentBuilders.Source.Statement

/-!
# Source/File — a source file as the declarations in it

A file is read statement by statement outside brackets and string literals; anything but
declarations and imports is skipped.  The first declaration of a name counts, later ones bring a
warning.
-/

namespace FluentBuilders

/-! ## What a file declares -/

/-- **The declarations and imports of a file**, each kind in the order of the file. -/
structure Contents where
  aliases : List AliasDeclaration := []
  interfaces : List InterfaceDeclaration := []
  enums : List EnumDeclaration := []
  imports : List ImportDeclaration := []

/-- **A declaration of any kind.** -/
inductive Declaration where
  | alias (d : AliasDeclaration)
  | interface (d : InterfaceDeclaration)
  | enum (d : EnumDeclaration)

namespace Declaration

/-- The declared name. -/
def name : Declaration → String
  | .alias d => d.name
  | .interface d => d.name
  | .enum d => d.name

/-- The line a declaration begins on. -/
def line : Declaration → Nat
  | .alias d => d.line
  | .interface d => d.line
  | .enum d => d.line

end Declaration

namespace Contents

/-- **The declaration of a name.** -/
def find? (c : Contents) (name : String) : Option Declaration :=
  ((c.aliases.find? (·.name == name)).map .alias).orElse fun _ =>
    ((c.interfaces.find? (·.name == name)).map .interface).orElse fun _ =>
      (c.enums.find? (·.name == name)).map .enum

/-- **Where an imported name comes from**: a module, and the name it has there. -/
def imported? (c : Contents) (name : String) : Option (String × String) :=
  c.imports.findSome? fun d =>
    match d.names.lookup name with
    | some exported => some (d.module, exported)
    | none => if d.defaultName = some name then some (d.module, "default") else none

/-- **The module behind a namespace name.** -/
def namespaceModule? (c : Contents) (name : String) : Option String :=
  (c.imports.find? (·.namespaceName == some name)).map (·.module)

/-- A statement added at the end of its list. -/
def append (c : Contents) : Statement → Contents
  | .alias d => { c with aliases := c.aliases ++ [d] }
  | .interface d => { c with interfaces := c.interfaces ++ [d] }
  | .enum d => { c with enums := c.enums ++ [d] }
  | .imported d => { c with imports := c.imports ++ [d] }

/-- The name and line of the declaration a statement is. -/
def declared? : Statement → Option (String × Nat)
  | .alias d => some (d.name, d.line)
  | .interface d => some (d.name, d.line)
  | .enum d => some (d.name, d.line)
  | .imported _ => none

/-- **A statement added**, unless it declares a name that is declared already. -/
def add (c : Contents) (s : Statement) : Noted Contents :=
  match declared? s with
  | none => pure (c.append s)
  | some (name, line) =>
    if (c.find? name).isSome then do
      Noted.warn (.duplicateDeclaration name line)
      return c
    else pure (c.append s)

end Contents

/-! ## Reading -/

/-- The number of line breaks in a text. -/
def lineBreaks (cs : List Char) : Nat := cs.count '\n'

/-- A character that a word can have before it without beginning there. -/
def isWordBefore (c : Char) : Bool := Text.isNamePart c

/-- Reads the statements of a text of `total` line breaks.  `depth` counts the brackets open before
the rest of the text, `inWord` says that a word may be going on there. -/
def scanStatements (directory : String) (total : Nat) :
    Nat → Nat → Bool → List Char → Contents → Noted Contents
  | 0, _, _, _, contents => pure contents
  | _ + 1, _, _, [], contents => pure contents
  | fuel + 1, depth, inWord, c :: cs, contents =>
    if Piece.isQuote c then
      scanStatements directory total fuel depth false (Piece.literalTail c cs).2 contents
    else if c = '(' ∨ c = '[' ∨ c = '{' then
      scanStatements directory total fuel (depth + 1) false cs contents
    else if c = ')' ∨ c = ']' ∨ c = '}' then
      scanStatements directory total fuel (depth - 1) false cs contents
    else if depth = 0 ∧ Text.isLatin c ∧ !inWord then
      match readStatement? directory (total - lineBreaks (c :: cs) + 1) (c :: cs) with
      | none => scanStatements directory total fuel depth true cs contents
      | some read => do
        match ← read.statement with
        | none => scanStatements directory total fuel depth true read.rest contents
        | some statement =>
          let contents ← contents.add statement
          scanStatements directory total fuel depth false read.rest contents
    else scanStatements directory total fuel depth (isWordBefore c) cs contents

/-- **A source file.**  Its module path stands in the names of its types; `path` says where it was
read, if it was read from somewhere. -/
structure SourceFile where
  text : String
  modulePath : String
  path : Option Path
  strictNullChecks : Bool
  contents : Contents

namespace SourceFile

/-- The file's name without its ending. -/
def stem (f : SourceFile) : String :=
  stripModuleSuffix (f.path.getD (Path.ofString f.modulePath)).name

/-- **The file's name.** -/
def fileName (f : SourceFile) : String :=
  match f.path with
  | some path => path.name
  | none => f.stem ++ ".ts"

/-- The directory of the file's module. -/
def directory (f : SourceFile) : String := directoryOf f.modulePath

end SourceFile

/-- **The contents of a source text**, for a file in `directory`. -/
def readContents (directory text : String) : Noted Contents :=
  let cs := stripComments text.toList
  scanStatements directory (lineBreaks cs) (cs.length + 1) 0 false cs {}

/-- **Reads a source text.** -/
def readSource (text modulePath : String) (path : Option Path) (strictNullChecks : Bool) :
    Noted SourceFile := do
  let contents ← readContents (directoryOf modulePath) text
  return { text, modulePath, path, strictNullChecks, contents }

/-- The module path of a file: its absolute path without the ending. -/
def modulePathOf (current path : Path) : String :=
  stripModuleSuffix (Path.resolve current path).text

end FluentBuilders
