import FluentBuilders.Syntax.Token
import FluentBuilders.Syntax.TypeNode
import FluentBuilders.Text.Blank
import FluentBuilders.Text.Quoted

/-!
# Syntax/Grammar — reading type expressions

A reader takes the tokens that are left and gives a piece of syntax and the tokens after it.  One
token of lookahead decides nearly everything; a parenthesis opens a parameter list when what follows
it says so (`startsParameters`).  The words `keyof`, `readonly`, `unique`, `import` and `typeof` are
operators where a type can start, `readonly` also where a member can start, and plain names
everywhere else.

The readers call each other with one unit of fuel less; `parseType` gives them more than any text of
that many tokens can use.
-/

namespace FluentBuilders

namespace Grammar

/-- The words that are operators where a type can start. -/
def operatorWords : List String := ["keyof", "readonly", "unique", "import", "typeof"]

/-- A word that is a name where a type can start. -/
def isNameAtType (word : String) : Bool := !operatorWords.contains word

/-- **The rest of a dotted name**: every dot has to be followed by a word. -/
def dottedTail? (name : String) : List Token → Option (String × List Token)
  | .mark .dot :: .word part :: rest => dottedTail? (name ++ "." ++ part) rest
  | .mark .dot :: _ => none
  | rest => some (name, rest)

/-- A word with what may follow its dots. -/
def qualifiedName? : List Token → Option (String × List Token)
  | .word name :: rest => dottedTail? name rest
  | _ => none

/-- The token `t`, if it comes next. -/
def takeToken (t : Token) : List Token → Bool × List Token
  | [] => (false, [])
  | u :: rest => if u = t then (true, rest) else (false, u :: rest)

/-- The tokens after a semicolon or comma, if one comes next. -/
def dropSeparator : List Token → List Token
  | .mark .semicolon :: rest => rest
  | .mark .comma :: rest => rest
  | rest => rest

/-- After an opening parenthesis: a parameter list begins here, not a type. -/
def startsParameters : List Token → Bool
  | .mark .closeParen :: _ => true
  | .mark .ellipsis :: _ => true
  | .word name :: .mark .colon :: _ => isNameAtType name
  | .word name :: .mark .question :: _ => isNameAtType name
  | _ => false

/-- A tuple element with a name begins here. -/
def startsElementName : List Token → Bool
  | .word name :: .mark .colon :: _ => isNameAtType name
  | .word name :: .mark .question :: _ => isNameAtType name
  | _ => false

/-- **A property's name**: a word, a string or number literal, or one of these literals in
brackets. -/
def propertyName? : List Token → Option (String × List Token)
  | .word name :: rest => some (name, rest)
  | .string literal :: rest => some (Text.unquoteString literal, rest)
  | .number text :: rest => some (text, rest)
  | .mark .openBracket :: .string literal :: .mark .closeBracket :: rest =>
    some (Text.unquoteString literal, rest)
  | .mark .openBracket :: .number text :: .mark .closeBracket :: rest => some (text, rest)
  | _ => none

/-- A union or intersection of one member is that member. -/
def groupOf (make : List TypeNode → TypeNode) : List TypeNode → TypeNode
  | [single] => single
  | members => make members

mutual

/-- **A type**: a function type, or a union. -/
def type? : Nat → List Token → Option (TypeNode × List Token)
  | 0, _ => none
  | fuel + 1, .mark .openParen :: rest =>
    if startsParameters rest then functionType? fuel rest
    else union? fuel (.mark .openParen :: rest)
  | fuel + 1, tokens => union? fuel tokens

/-- A function type after its opening parenthesis. -/
def functionType? : Nat → List Token → Option (TypeNode × List Token)
  | 0, _ => none
  | fuel + 1, tokens => do
    let (parameters, rest) ← parameters? fuel tokens
    match rest with
    | .mark .arrow :: rest =>
      let (returns, rest) ← type? fuel rest
      return (.function parameters returns, rest)
    | _ => none

/-- Parameters up to and with the closing parenthesis; a comma may follow the last one. -/
def parameters? : Nat → List Token → Option (List Parameter × List Token)
  | 0, _ => none
  | _ + 1, .mark .closeParen :: rest => some ([], rest)
  | fuel + 1, tokens => do
    let (parameter, rest) ← parameter? fuel tokens
    match rest with
    | .mark .comma :: .mark .closeParen :: rest => return ([parameter], rest)
    | .mark .comma :: rest =>
      let (parameters, rest) ← parameters? fuel rest
      return (parameter :: parameters, rest)
    | .mark .closeParen :: rest => return ([parameter], rest)
    | _ => none

/-- One parameter. -/
def parameter? : Nat → List Token → Option (Parameter × List Token)
  | 0, _ => none
  | fuel + 1, tokens =>
    let (spread, tokens) := takeToken (.mark .ellipsis) tokens
    match tokens with
    | .word name :: rest =>
      let (optional, rest) := takeToken (.mark .question) rest
      match rest with
      | .mark .colon :: rest => do
        let (type, rest) ← type? fuel rest
        return (.mk name optional spread type, rest)
      | _ => none
    | _ => none

/-- **A union**, with an optional bar in front. -/
def union? : Nat → List Token → Option (TypeNode × List Token)
  | 0, _ => none
  | fuel + 1, tokens => do
    let (first, rest) ← intersection? fuel (takeToken (.mark .bar) tokens).2
    let (others, rest) ← unionTail? fuel rest
    return (groupOf .union (first :: others), rest)

/-- The members of a union after the first. -/
def unionTail? : Nat → List Token → Option (List TypeNode × List Token)
  | 0, _ => none
  | fuel + 1, .mark .bar :: rest => do
    let (member, rest) ← intersection? fuel rest
    let (members, rest) ← unionTail? fuel rest
    return (member :: members, rest)
  | _ + 1, rest => some ([], rest)

/-- **An intersection**, with an optional ampersand in front. -/
def intersection? : Nat → List Token → Option (TypeNode × List Token)
  | 0, _ => none
  | fuel + 1, tokens => do
    let (first, rest) ← operand? fuel (takeToken (.mark .ampersand) tokens).2
    let (others, rest) ← intersectionTail? fuel rest
    return (groupOf .intersection (first :: others), rest)

/-- The members of an intersection after the first. -/
def intersectionTail? : Nat → List Token → Option (List TypeNode × List Token)
  | 0, _ => none
  | fuel + 1, .mark .ampersand :: rest => do
    let (member, rest) ← operand? fuel rest
    let (members, rest) ← intersectionTail? fuel rest
    return (member :: members, rest)
  | _ + 1, rest => some ([], rest)

/-- **An operand**: operator words before a type with its brackets.  `unique` takes one word and no
brackets. -/
def operand? : Nat → List Token → Option (TypeNode × List Token)
  | 0, _ => none
  | fuel + 1, tokens =>
    match tokens with
    | .word "keyof" :: rest => do
      let (operand, rest) ← operand? fuel rest
      return (.operator .keyof operand, rest)
    | .word "readonly" :: rest => do
      let (operand, rest) ← operand? fuel rest
      return (.operator .readonly operand, rest)
    | .word "unique" :: .word name :: rest =>
      some (.operator .unique (.reference name []), rest)
    | .word "unique" :: _ => none
    | tokens => do
      let (primary, rest) ← primary? fuel tokens
      brackets? fuel primary rest

/-- **The brackets after a type**: `[]` makes an array of it, `[index]` takes a property. -/
def brackets? : Nat → TypeNode → List Token → Option (TypeNode × List Token)
  | 0, _, _ => none
  | fuel + 1, type, .mark .openBracket :: .mark .closeBracket :: rest =>
    brackets? fuel (.array type) rest
  | fuel + 1, type, .mark .openBracket :: rest => do
    let (index, rest) ← type? fuel rest
    match rest with
    | .mark .closeBracket :: rest => brackets? fuel (.indexed type index) rest
    | _ => none
  | _ + 1, type, rest => some (type, rest)

/-- **A type without operators around it.** -/
def primary? : Nat → List Token → Option (TypeNode × List Token)
  | 0, _ => none
  | fuel + 1, tokens =>
    match tokens with
    | .mark .openParen :: rest => do
      let (type, rest) ← type? fuel rest
      match rest with
      | .mark .closeParen :: rest => return (type, rest)
      | _ => none
    | .mark .openBrace :: rest => do
      let (members, rest) ← members? fuel rest
      return (.object members, rest)
    | .mark .openBracket :: rest => do
      let (elements, rest) ← elements? fuel rest
      return (.tuple elements, rest)
    | .string literal :: rest => some (.literal .string (Text.unquoteString literal), rest)
    | .number text :: rest => some (.literal .number text, rest)
    | .negative text :: rest => some (.literal .number text, rest)
    | .template text :: rest => some (.literal .template text, rest)
    | .word "typeof" :: rest => do
      let (name, rest) ← qualifiedName? rest
      return (.query name, rest)
    | .word "import" :: .mark .openParen :: .string literal :: .mark .closeParen :: .mark .dot ::
        rest => do
      let (name, rest) ← qualifiedName? rest
      let (arguments, rest) ← arguments? fuel rest
      return (.imported (Text.unquoteString literal) name arguments, rest)
    | .word name :: rest =>
      if isNameAtType name then do
        let (name, rest) ← dottedTail? name rest
        let (arguments, rest) ← arguments? fuel rest
        return (.reference name arguments, rest)
      else none
    | _ => none

/-- Type arguments, if an angle bracket comes next. -/
def arguments? : Nat → List Token → Option (List TypeNode × List Token)
  | 0, _ => none
  | fuel + 1, .mark .openAngle :: rest => argumentList? fuel rest
  | _ + 1, rest => some ([], rest)

/-- Type arguments up to and with the closing angle bracket: at least one, no comma at the end. -/
def argumentList? : Nat → List Token → Option (List TypeNode × List Token)
  | 0, _ => none
  | fuel + 1, tokens => do
    let (argument, rest) ← type? fuel tokens
    match rest with
    | .mark .comma :: rest =>
      let (arguments, rest) ← argumentList? fuel rest
      return (argument :: arguments, rest)
    | .mark .closeAngle :: rest => return ([argument], rest)
    | _ => none

/-- Tuple elements up to and with the closing bracket; a comma may follow the last one. -/
def elements? : Nat → List Token → Option (List TupleElement × List Token)
  | 0, _ => none
  | _ + 1, .mark .closeBracket :: rest => some ([], rest)
  | fuel + 1, tokens => do
    let (element, rest) ← element? fuel tokens
    match rest with
    | .mark .comma :: .mark .closeBracket :: rest => return ([element], rest)
    | .mark .comma :: rest =>
      let (elements, rest) ← elements? fuel rest
      return (element :: elements, rest)
    | .mark .closeBracket :: rest => return ([element], rest)
    | _ => none

/-- One tuple element. -/
def element? : Nat → List Token → Option (TupleElement × List Token)
  | 0, _ => none
  | fuel + 1, .mark .ellipsis :: rest => do
    let (type, rest) ← type? fuel rest
    return (.rest type, rest)
  | fuel + 1, tokens =>
    if startsElementName tokens then
      match tokens with
      | .word name :: rest =>
        let (optional, rest) := takeToken (.mark .question) rest
        match rest with
        | .mark .colon :: rest => do
          let (type, rest) ← type? fuel rest
          return (.named name optional type, rest)
        | _ => none
      | _ => none
    else do
      let (type, rest) ← type? fuel tokens
      return (.plain type, rest)

/-- Object members up to and with the closing brace.  A member may be followed by one separator. -/
def members? : Nat → List Token → Option (List Member × List Token)
  | 0, _ => none
  | _ + 1, .mark .closeBrace :: rest => some ([], rest)
  | fuel + 1, tokens => do
    let (member, rest) ← member? fuel tokens
    let (members, rest) ← members? fuel (dropSeparator rest)
    return (member :: members, rest)

/-- **One object member.**  Properties and index signatures can be `readonly`, methods cannot. -/
def member? : Nat → List Token → Option (Member × List Token)
  | 0, _ => none
  | fuel + 1, tokens =>
    let (readonly, tokens) := takeToken (.word "readonly") tokens
    match tokens with
    | .mark .openBracket :: .word key :: .mark .colon :: rest => do
      let (keyType, rest) ← type? fuel rest
      match rest with
      | .mark .closeBracket :: .mark .colon :: rest =>
        let (valueType, rest) ← type? fuel rest
        return (.index key readonly keyType valueType, rest)
      | _ => none
    | tokens => do
      let (name, rest) ← propertyName? tokens
      let (optional, rest) := takeToken (.mark .question) rest
      match rest with
      | .mark .openParen :: rest =>
        if readonly then none
        else
          let (parameters, rest) ← parameters? fuel rest
          let (returns, rest) ← annotation? fuel rest
          return (.method name optional parameters returns, rest)
      | rest =>
        let (type, rest) ← annotation? fuel rest
        return (.property name optional readonly type, rest)

/-- A colon and a type, if a colon comes next. -/
def annotation? : Nat → List Token → Option (Option TypeNode × List Token)
  | 0, _ => none
  | fuel + 1, .mark .colon :: rest => do
    let (type, rest) ← type? fuel rest
    return (some type, rest)
  | _ + 1, rest => some (none, rest)

end

end Grammar

/-- **A type expression as a tree**, from a text that is nothing but one. -/
def typeOfTokens? (tokens : List Token) : Option TypeNode :=
  match Grammar.type? (8 * (tokens.length + 1)) tokens with
  | some (type, []) => some type
  | _ => none

/-- **Reads a type expression.**  What is none is kept as raw text, without the blanks around it. -/
def parseType (text : List Char) : TypeNode :=
  let source := Text.trim text
  match (Token.scan? source).bind typeOfTokens? with
  | some type => type
  | none => .raw (String.ofList source)

end FluentBuilders
