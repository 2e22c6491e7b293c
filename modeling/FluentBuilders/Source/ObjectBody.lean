import FluentBuilders.Source.Boundary
import FluentBuilders.Syntax.Grammar

/-!
# Source/ObjectBody — object bodies, read as a whole or member by member

A body that is no object type as a whole is cut into members, so that one unreadable member does not
take the others with it.  A member with a readable name keeps it, its type becoming raw text when it
has to; a chunk without one is left out, with a warning.
-/

namespace FluentBuilders

/-! ## Warnings -/

/-- **What a reader of source text warns about.** -/
inductive Warning where
  | unreadableMember (chunk : String)
  | duplicateDeclaration (name : String) (line : Nat)
  deriving DecidableEq, Repr

/-- The wording of a warning. -/
def Warning.message : Warning → String
  | .unreadableMember chunk => "Ignoring unreadable object member: " ++ chunk
  | .duplicateDeclaration name line =>
    "Ignoring duplicate declaration of " ++ name ++ " (line " ++ toString line ++ ")"

/-- **A value read with warnings**, in the order they came up. -/
structure Noted (α : Type) where
  value : α
  warnings : List Warning := []

namespace Noted

instance : Monad Noted where
  pure a := ⟨a, []⟩
  bind x f := ⟨(f x.value).value, x.warnings ++ (f x.value).warnings⟩

/-- A warning and nothing else. -/
def warn (w : Warning) : Noted Unit := ⟨(), [w]⟩

end Noted

/-! ## Members -/

/-- Text in the given quote, up to the next such quote: the literal and what follows it. -/
def plainLiteral? : List Char → Option (List Char × List Char)
  | [] => none
  | q :: cs =>
    if q = '\'' ∨ q = '"' then
      match cs.span (· ≠ q) with
      | (_, []) => none
      | (body, close :: rest) => some (q :: body ++ [close], rest)
    else none

/-- A run of decimal digits, at least one. -/
def digitRun? (cs : List Char) : Option (List Char × List Char) :=
  match cs.span Text.isDecimalDigit with
  | ([], _) => none
  | read => some read

/-- **The key of a member**: a name, a literal, or a literal or digits in brackets. -/
def memberKey? (cs : List Char) : Option (List Char × List Char) :=
  match Text.readName? cs with
  | some read => some read
  | none =>
    match plainLiteral? cs with
    | some read => some read
    | none =>
      match cs with
      | '[' :: cs =>
        let inner := Text.trimStart cs
        match (plainLiteral? inner).orElse fun _ => digitRun? inner with
        | none => none
        | some (key, rest) =>
          match Text.trimStart rest with
          | ']' :: rest => some (key, rest)
          | _ => none
      | _ => none

/-- What a key written out denotes: the text of a literal, anything else itself. -/
def keyText (key : List Char) : String :=
  match key with
  | q :: _ => if q = '\'' ∨ q = '"' then String.ofList (Text.unquote key) else String.ofList key
  | [] => ""

/-- A question mark between blanks, if there is one. -/
def optionalSign (cs : List Char) : Bool × List Char :=
  match Text.trimStart cs with
  | '?' :: rest => (true, Text.trimStart rest)
  | rest => (false, rest)

/-- The word `readonly` and blanks, skipped. -/
def skipReadonly? (cs : List Char) : Option (List Char) :=
  (Text.dropWord? "readonly" cs).bind Text.skipBlanks?

/-- A key, an optional question mark, a colon and a text that is not empty. -/
def keyedType? (readonly : Bool) (cs : List Char) : Option Member :=
  match memberKey? cs with
  | none => none
  | some (key, rest) =>
    match optionalSign rest with
    | (optional, ':' :: type) =>
      if type.isEmpty then none
      else some (.property (keyText key) optional readonly (some (parseType type)))
    | _ => none

/-- **A member with a readable name and a type.** -/
def readProperty? (chunk : List Char) : Option Member :=
  ((skipReadonly? chunk).bind (keyedType? true)).orElse fun _ => keyedType? false chunk

/-- The text starts with a key and a colon or an opening parenthesis. -/
def startsKey (cs : List Char) : Bool :=
  match memberKey? cs with
  | none => false
  | some (_, rest) =>
    match optionalSign rest with
    | (_, ':' :: _) => true
    | (_, '(' :: _) => true
    | _ => false

/-- **A line that begins a new member.** -/
def startsMember (line : List Char) : Bool :=
  let cs := Text.trimStart line
  ((skipReadonly? cs).map startsKey).getD false || startsKey cs

/-- Lines joined again. -/
def joinLines (lines : List (List Char)) : List Char := ['\n'].intercalate lines

/-- The members in lines that no separator divides: a line that begins a member starts a new one
when the lines before it, `current`, could end there. -/
def groupLines (current : List (List Char)) : List (List Char) → List (List Char)
  | [] =>
    let text := Text.trim (joinLines current)
    if text.isEmpty then [] else [text]
  | line :: lines =>
    if !current.isEmpty && startsMember line && isComplete (joinLines current) then
      Text.trim (joinLines current) :: groupLines [line] lines
    else groupLines (current ++ [line]) lines

/-- **The chunks of a body**, one member each: cut at semicolons and commas, and at line breaks
where a new member begins. -/
def splitMembers (body : List Char) : List (List Char) :=
  (splitTopLevel true [';', ','] body).parts.flatMap fun chunk =>
    groupLines [] (splitTopLevel true ['\n'] chunk).parts

/-- **One chunk.**  A chunk without a readable name may still be a method or an index signature. -/
def readChunk (chunk : List Char) : Noted (List Member) :=
  match readProperty? chunk with
  | some member => pure [member]
  | none =>
    match parseType ('{' :: chunk ++ ['}']) with
    | .object members => pure members
    | _ => do
      Noted.warn (.unreadableMember (String.ofList chunk))
      return []

/-- All chunks, in order. -/
def readChunks : List (List Char) → Noted (List Member)
  | [] => pure []
  | chunk :: chunks => do
    let members ← readChunk chunk
    let others ← readChunks chunks
    return members ++ others

/-- **Member by member**: the body between the first and the last character of a text. -/
def membersByChunk (text : List Char) : Noted (List Member) :=
  readChunks (splitMembers ((Text.trim text).drop 1).dropLast)

/-- **The members of an object body** written in braces. -/
def readObjectBody (text : List Char) : Noted (List Member) :=
  match parseType text with
  | .object members => pure members
  | _ => membersByChunk text

/-- The text is in braces. -/
def isBraced (text : List Char) : Bool := text.head? == some '{' && text.getLast? == some '}'

/-- **A type in a declaration.**  Where it is an object body that cannot be read as a whole, it is
read member by member. -/
def readType (text : List Char) : Noted TypeNode :=
  match parseType text with
  | .raw source =>
    if isBraced (Text.trim text) then do
      let members ← readObjectBody (Text.trim text)
      return .object members
    else pure (.raw source)
  | type => pure type

end FluentBuilders
