import FluentBuilders.Json.Printer
import FluentBuilders.Text.Printable

/-!
# Json/Display — values as they are shown to a person

Strings stand in single quotes, or in double quotes when that saves escaping; characters that cannot
be seen are written by their code point.  The words are `None`, `True` and `False`.
-/

namespace FluentBuilders.Json

/-- The last `count` hexadecimal digits of `n`, in lower case. -/
def hexDigits : Nat → Nat → List Char
  | 0, _ => []
  | count + 1, n => hexDigits count (n / 16) ++ [hexChar (n % 16)]

/-- **A character inside a shown string.** -/
def displayChar (quote c : Char) : List Char :=
  if c = quote ∨ c = '\\' then ['\\', c]
  else if c = '\n' then ['\\', 'n']
  else if c = '\r' then ['\\', 'r']
  else if c = '\t' then ['\\', 't']
  else if Text.isPrintable c then [c]
  else if c.toNat < 0x100 then '\\' :: 'x' :: hexDigits 2 c.toNat
  else if c.toNat < 0x10000 then '\\' :: 'u' :: hexDigits 4 c.toNat
  else '\\' :: 'U' :: hexDigits 8 c.toNat

/-- **A shown string.** -/
def displayString (s : String) : String :=
  let cs := s.toList
  let quote := if cs.contains '\'' && !cs.contains '"' then '"' else '\''
  String.ofList (quote :: cs.flatMap (displayChar quote) ++ [quote])

mutual

/-- **A shown value.** -/
def display : Json → String
  | .null => "None"
  | .bool true => "True"
  | .bool false => "False"
  | .int n => toString n
  | .float x => x.text
  | .string s => displayString s
  | .array items => "[" ++ String.intercalate ", " (displayItems items) ++ "]"
  | .object pairs => "\x7b" ++ String.intercalate ", " (displayPairs pairs) ++ "\x7d"

def displayItems : List Json → List String
  | [] => []
  | item :: items => display item :: displayItems items

def displayPairs : List (String × Json) → List String
  | [] => []
  | (key, value) :: pairs => (displayString key ++ ": " ++ display value) :: displayPairs pairs

end

/-- A value as the text of a cell: a string is its own text. -/
def cellText : Json → String
  | .string s => s
  | json => display json

end FluentBuilders.Json
