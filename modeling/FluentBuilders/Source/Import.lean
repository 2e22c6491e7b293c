import FluentBuilders.Path
import FluentBuilders.Syntax.TypeNode
import FluentBuilders.Text.Blank
import FluentBuilders.Text.Identifier

/-!
# Source/Import — import statements

An import is the word `import`, a clause, the word `from` and a module in quotes.  The clause goes
up to the first `from` that a quoted module follows; a semicolon or a quote inside it means that
there is no import.  What a clause binds is looked up in it piece by piece: names in the first pair
of braces, a namespace after a star, a default name at its start.
-/

namespace FluentBuilders

/-- The word `from` and a module in quotes of one kind: the module, and what follows. -/
def fromModule? (cs : List Char) : Option (List Char × List Char) := do
  let rest ← Text.dropWord? "from" (Text.trimStart cs)
  match Text.trimStart rest with
  | q :: rest =>
    if q = '\'' ∨ q = '"' then
      match rest.span fun c => c != '\'' && c != '"' with
      | ([], _) => none
      | (module, close :: rest) => if close = q then some (module, rest) else none
      | (_, []) => none
    else none
  | [] => none

/-- The clause of an import, its module, and what follows the statement. -/
def clauseAndModule? (cs : List Char) : Option (List Char × List Char × List Char) :=
  match fromModule? cs with
  | some (module, rest) => some ([], module, rest)
  | none =>
    match cs with
    | [] => none
    | c :: cs =>
      if c = ';' ∨ c = '\'' ∨ c = '"' then none
      else (clauseAndModule? cs).map fun (clause, read) => (c :: clause, read)

/-- The pieces of a text between commas. -/
def atCommas (word : List Char) : List Char → List (List Char)
  | [] => [word.reverse]
  | c :: cs => if c = ',' then word.reverse :: atCommas [] cs else atCommas (c :: word) cs

/-- The text between the first opening brace and the closing brace after it. -/
def bracedNames? : List Char → Option (List Char)
  | [] => none
  | c :: cs =>
    if c = '{' then
      match cs.span (· ≠ '}') with
      | (_, []) => none
      | (names, _) => some names
    else bracedNames? cs

/-- A name, and `as` with another name, to the end of the text: the local and the exported name. -/
def namedBinding? (cs : List Char) : Option (String × String) := do
  let (name, rest) ← Text.readName? cs
  if rest.isEmpty then return (String.ofList name, String.ofList name)
  else
    let rest ← (Text.skipBlanks? rest).bind (Text.dropWord? "as")
    let (localName, rest) ← (Text.skipBlanks? rest).bind Text.readName?
    if rest.isEmpty then return (String.ofList localName, String.ofList name) else none

/-- The word `type` and blanks, skipped. -/
def skipType? (cs : List Char) : Option (List Char) :=
  (Text.dropWord? "type" cs).bind Text.skipBlanks?

/-- **One name of an import**, perhaps marked as a type. -/
def importSpecifier? (cs : List Char) : Option (String × String) :=
  ((skipType? cs).bind namedBinding?).orElse fun _ => namedBinding? cs

/-- A local name bound: a later binding of the same name takes the place of an earlier one. -/
def bindName (names : List (String × String)) (binding : String × String) :
    List (String × String) :=
  names.filter (·.1 ≠ binding.1) ++ [binding]

/-- **The named bindings** of a clause. -/
def importedNames (clause : List Char) : List (String × String) :=
  match bracedNames? clause with
  | none => []
  | some names =>
    ((atCommas [] names).filterMap fun item => importSpecifier? (Text.trim item)).foldl bindName []

/-- `* as name` at the start of the text. -/
def namespaceHere? (cs : List Char) : Option String :=
  match cs with
  | '*' :: cs => do
    let rest ← (Text.dropWord? "as" (Text.trimStart cs)).bind Text.skipBlanks?
    let (name, _) ← Text.readName? rest
    return String.ofList name
  | _ => none

/-- **The namespace binding** of a clause: the first `* as name` anywhere in it. -/
def importedNamespace? : List Char → Option String
  | [] => none
  | c :: cs => (namespaceHere? (c :: cs)).orElse fun _ => importedNamespace? cs

/-- A name, and then a comma or the end of the text. -/
def leadingName? (cs : List Char) : Option String := do
  let (name, rest) ← Text.readName? cs
  match Text.trimStart rest with
  | [] => return String.ofList name
  | ',' :: _ => return String.ofList name
  | _ => none

/-- **The default binding** of a clause. -/
def importedDefault? (clause : List Char) : Option String :=
  ((skipType? clause).bind leadingName?).orElse fun _ => leadingName? clause

/-- The clause says that only types are imported. -/
def isTypeClause (clause : List Char) : Bool :=
  "type ".toList.isPrefixOf clause || "type\x7b".toList.isPrefixOf clause

/-- **The import that a clause and a module make**, in a file of the directory. -/
def importOfClause (directory : String) (clause module : List Char) : ImportDeclaration :=
  let clause := Text.trim clause
  let typeOnly := isTypeClause clause
  let clause := if typeOnly then Text.trim (clause.drop 4) else clause
  { module := resolveModule (String.ofList module) directory
    names := importedNames clause
    namespaceName := importedNamespace? clause
    defaultName := importedDefault? clause
    typeOnly := typeOnly }

/-- **An import statement** at the start of a text, and what follows it. -/
def readImport? (directory : String) (cs : List Char) :
    Option (ImportDeclaration × List Char) := do
  let rest ← (Text.dropWord? "import" cs).bind Text.skipBlanks?
  let (clause, module, rest) ← clauseAndModule? rest
  return (importOfClause directory clause module, rest)

end FluentBuilders
