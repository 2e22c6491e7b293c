import FluentBuilders.Text.Letters
import FluentBuilders.Text.Upper

/-!
# Text/Identifier — identifiers, and names made from arbitrary property names

An identifier starts with a Latin letter, `_` or `$`.  Property names are arbitrary texts;
`pascalCase` makes of each a name that can follow a method's leading word.
-/

namespace FluentBuilders.Text

/-- A character an identifier can start with. -/
def isIdentifierStart (c : Char) : Bool := isLatin c || c == '_' || c == '$'

/-- A character an identifier can go on with. -/
def isIdentifierPart (c : Char) : Bool := isIdentifierStart c || isArabicDigit c

/-- A character the name of a declaration can go on with: letters of any script are allowed. -/
def isNamePart (c : Char) : Bool := isWord c || c == '$'

/-- The text without one final line break. -/
def dropFinalBreak (cs : List Char) : List Char :=
  if cs.getLast? = some '\n' then cs.dropLast else cs

/-- The whole text is one start character followed by characters of the class `part`. -/
def isNameOver (part : Char → Bool) : List Char → Bool
  | [] => false
  | c :: cs => isIdentifierStart c && cs.all part

/-- **Can stand after a dot**: an ASCII identifier, one final line break allowed. -/
def isIdentifier (name : String) : Bool :=
  isNameOver isIdentifierPart (dropFinalBreak name.toList)

/-- Can stand bare as a property name in a type: as `isIdentifier`, with letters of any script
after the first character. -/
def isPropertyIdentifier (name : String) : Bool :=
  isNameOver isNamePart (dropFinalBreak name.toList)

/-- **Only the first character** in upper case. -/
def capitalize : List Char → List Char
  | [] => []
  | c :: cs => upper c ++ cs

/-- The runs of ASCII letters and digits in a text, in order; `word` is the run being read. -/
def asciiWords (word : List Char) : List Char → List (List Char)
  | [] => if word.isEmpty then [] else [word.reverse]
  | c :: cs =>
    if isLatin c || isArabicDigit c then asciiWords (c :: word) cs
    else if word.isEmpty then asciiWords [] cs
    else word.reverse :: asciiWords [] cs

/-- **A property name in Pascal case.**  An identifier is only capitalised; anything else loses the
characters between its words.  A leading digit gets a `_` before it, and a name without words
becomes `_`. -/
def pascalCase (name : String) : String :=
  if isIdentifier name then String.ofList (capitalize name.toList)
  else
    match (asciiWords [] name.toList).flatMap capitalize with
    | [] => "_"
    | c :: cs => String.ofList (if isArabicDigit c then '_' :: c :: cs else c :: cs)

/-- The text begins with a name over `isNamePart`: the name, and what follows it. -/
def readName? : List Char → Option (List Char × List Char)
  | [] => none
  | c :: cs =>
    if isIdentifierStart c then
      let (taken, rest) := cs.span isNamePart
      some (c :: taken, rest)
    else none

end FluentBuilders.Text
