import FluentBuilders.Source.Import
import FluentBuilders.Source.ObjectBody

/-!
# Source/Statement — aliases, interfaces and enums

A declaration is one of the words `type`, `interface` and `enum` before a name, after any of
`export`, `default`, `declare` and — for an enum — `const`.  What follows the name decides how far
it reaches: an alias up to where its body ends, an interface or enum up to the brace that closes its
body.  A head without a body is passed over.
-/

namespace FluentBuilders

/-- **A statement of a source file.** -/
inductive Statement where
  | alias (d : AliasDeclaration)
  | interface (d : InterfaceDeclaration)
  | enum (d : EnumDeclaration)
  | imported (d : ImportDeclaration)

/-! ## Heads -/

/-- **What a declaration's head says** before its name. -/
inductive HeadKind where
  | alias
  | interface
  | enum (constant : Bool)
  deriving DecidableEq, Repr

/-- A word and blanks after it. -/
def wordThenBlanks? (w : String) (cs : List Char) : Option (List Char) :=
  (Text.dropWord? w cs).bind Text.skipBlanks?

/-- A word and blanks after it, skipped if they are there. -/
def optionalWord (w : String) (cs : List Char) : Bool × List Char :=
  match wordThenBlanks? w cs with
  | some rest => (true, rest)
  | none => (false, cs)

/-- The word that says what is declared, and what follows it. -/
def headKind? (cs : List Char) : Option (HeadKind × List Char) :=
  match wordThenBlanks? "type" cs with
  | some rest => some (.alias, rest)
  | none =>
    match wordThenBlanks? "interface" cs with
    | some rest => some (.interface, rest)
    | none =>
      let (constant, rest) := optionalWord "const" cs
      (wordThenBlanks? "enum" rest).map fun rest => (.enum constant, rest)

/-- **The head of a declaration.** -/
structure Head where
  exported : Bool
  kind : HeadKind
  name : String

/-- The head at the start of a text, and what follows its name. -/
def readHead? (cs : List Char) : Option (Head × List Char) := do
  let (exported, cs) := optionalWord "export" cs
  let (_, cs) := optionalWord "default" cs
  let (_, cs) := optionalWord "declare" cs
  let (kind, cs) ← headKind? cs
  let (name, cs) ← Text.readName? cs
  return ({ exported, kind, name := String.ofList name }, cs)

/-! ## Type parameters and heritage -/

/-- A name, and `extends` with a text that is not empty, to the end of the text. -/
def boundedName? (cs : List Char) : Option (String × Option (List Char)) := do
  let (name, rest) ← Text.readName? cs
  if rest.isEmpty then return (String.ofList name, none)
  else
    let bound ← ((Text.skipBlanks? rest).bind (Text.dropWord? "extends")).bind Text.skipBlanks?
    if bound.isEmpty then none else return (String.ofList name, some bound)

/-- The words that can stand before a type parameter. -/
def parameterModifiers : List String := ["const", "in", "out"]

/-- **A type parameter without its default**: as many modifiers as leave a parameter to be read, in
at most `fuel` steps. -/
def modifiedName? : Nat → List Char → Option (String × Option (List Char))
  | 0, cs => boundedName? cs
  | fuel + 1, cs =>
    match (parameterModifiers.findSome? (wordThenBlanks? · cs)).bind (modifiedName? fuel) with
    | some read => some read
    | none => boundedName? cs

/-- A type that may be missing. -/
def readOptionalType : Option (List Char) → Noted (Option TypeNode)
  | none => pure none
  | some text => do
    let type ← readType text
    return some type

/-- One item of a type parameter list; an item that is none is left out. -/
def readTypeParameter (item : List Char) : Noted (List TypeParameter) :=
  let (head, default) := splitDefault item
  match modifiedName? head.length (Text.trim head) with
  | none => pure []
  | some (name, bound) => do
    let bound ← readOptionalType bound
    let default ← readOptionalType (default.filter (!·.isEmpty))
    return [{ name, bound, default }]

/-- The items of a type parameter list. -/
def readTypeParameterItems : List (List Char) → Noted (List TypeParameter)
  | [] => pure []
  | item :: items => do
    let parameter ← readTypeParameter item
    let others ← readTypeParameterItems items
    return parameter ++ others

/-- **Type parameters** in angle brackets, if there are any, and the pieces after them. -/
def readTypeParameters (cs : List Char) : Noted (List TypeParameter) × List Piece :=
  let cs := Text.trimStart cs
  match cs with
  | '<' :: _ =>
    let (block, rest) := splitBlock true (pieces cs)
    (readTypeParameterItems (splitTopLevel true [','] (insideOf block)).parts, rest)
  | _ => (pure [], pieces cs)

/-- The types of a heritage clause; blank items are left out. -/
def readHeritageItems : List (List Char) → Noted (List TypeNode)
  | [] => pure []
  | item :: items => do
    let type ← if (Text.trim item).isEmpty then pure [] else (fun t => [t]) <$> readType item
    let others ← readHeritageItems items
    return type ++ others

/-- **What an interface extends**, from the text before its body. -/
def readHeritage (header : List Char) : Noted (List TypeNode) :=
  match Text.dropWord? "extends" (Text.trim header) with
  | none => pure []
  | some clause => readHeritageItems (splitTopLevel true [','] clause).parts

/-! ## Declarations -/

/-- What reading a declaration gives: the declaration, unless the head has no body, and the text
after it. -/
structure ReadStatement where
  statement : Noted (Option Statement)
  rest : List Char

/-- An alias after its name. -/
def readAlias (head : Head) (line : Nat) (cs : List Char) : ReadStatement :=
  let (parameters, rest) := readTypeParameters cs
  match Text.trimStart (Piece.textOf rest) with
  | '=' :: body =>
    let (body, rest) := splitAliasBody (pieces body)
    { statement := do
        let parameters ← parameters
        let body ← readType body
        return some (.alias
          { name := head.name, body, parameters, exported := head.exported, line })
      rest :=
        match Piece.textOf rest with
        | ';' :: rest => rest
        | rest => rest }
  | _ => { statement := (fun _ => none) <$> parameters, rest := cs }

/-- An interface after its name. -/
def readInterface (head : Head) (line : Nat) (cs : List Char) : ReadStatement :=
  let (parameters, rest) := readTypeParameters cs
  match findTopLevel '{' rest with
  | some (header, rest) =>
    let (block, rest) := splitBlock true rest
    { statement := do
        let parameters ← parameters
        let heritage ← readHeritage header
        let members ← readObjectBody (Piece.textOf block)
        return some (.interface
          { name := head.name, heritage, members, parameters, exported := head.exported, line })
      rest := Piece.textOf rest }
  | none => { statement := (fun _ => none) <$> parameters, rest := cs }

/-- **The name of an enum member** at the start of an item. -/
def enumMember? (item : List Char) : Option String :=
  let cs := Text.trim item
  ((Text.readName? cs).orElse fun _ => plainLiteral? cs).map fun (key, _) => keyText key

/-- An enum after its name. -/
def readEnum (head : Head) (constant : Bool) (line : Nat) (cs : List Char) : ReadStatement :=
  match findTopLevel '{' (pieces cs) with
  | some (_, rest) =>
    let (block, rest) := splitBlock false rest
    let members := (splitTopLevel false [','] (insideOf block)).parts.filterMap enumMember?
    { statement := pure (some (.enum { name := head.name, members, constant, line }))
      rest := Piece.textOf rest }
  | none => { statement := pure none, rest := cs }

/-- **The statement at the start of a text**, on the given line of a file in `directory`.  Text that
starts with `import` is an import or nothing. -/
def readStatement? (directory : String) (line : Nat) (cs : List Char) : Option ReadStatement :=
  if "import".toList.isPrefixOf cs then
    (readImport? directory cs).map fun (d, rest) => { statement := pure (some (.imported d)), rest }
  else
    (readHead? cs).map fun (head, rest) =>
      match head.kind with
      | .alias => readAlias head line rest
      | .interface => readInterface head line rest
      | .enum constant => readEnum head constant line rest

end FluentBuilders
