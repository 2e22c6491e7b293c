import FluentBuilders.Json.Value

/-!
# Json/Printer — writing JSON text

`Json.compact` writes a value on one line without blanks; `Json.indented` puts every pair and item
on a line of its own, two blanks deeper than what holds it.  Only quotes, backslashes and control
characters are escaped.
-/

namespace FluentBuilders.Json

/-- A hexadecimal digit in lower case. -/
def hexChar (n : Nat) : Char :=
  if n < 10 then Char.ofNat ('0'.toNat + n) else Char.ofNat ('a'.toNat + (n - 10))

/-- **A character inside a string.** -/
def escapeChar (c : Char) : List Char :=
  match c with
  | '"' => ['\\', '"']
  | '\\' => ['\\', '\\']
  | '\x08' => ['\\', 'b']
  | '\x0c' => ['\\', 'f']
  | '\n' => ['\\', 'n']
  | '\r' => ['\\', 'r']
  | '\t' => ['\\', 't']
  | c =>
    if c.toNat < 0x20 then ['\\', 'u', '0', '0', hexChar (c.toNat / 16), hexChar (c.toNat % 16)]
    else [c]

/-- **A string** between its quotes. -/
def quote (s : String) : String := String.ofList ('"' :: s.toList.flatMap escapeChar ++ ['"'])

/-- A value that holds no others. -/
def scalar : Json → String
  | .bool true => "true"
  | .bool false => "false"
  | .int n => toString n
  | .float x => x.text
  | .string s => quote s
  | _ => "null"

mutual

/-- **One line.** -/
def compact : Json → String
  | .array items => "[" ++ String.intercalate "," (compactItems items) ++ "]"
  | .object pairs => "\x7b" ++ String.intercalate "," (compactPairs pairs) ++ "\x7d"
  | json => scalar json

def compactItems : List Json → List String
  | [] => []
  | item :: items => compact item :: compactItems items

def compactPairs : List (String × Json) → List String
  | [] => []
  | (key, value) :: pairs => (quote key ++ ":" ++ compact value) :: compactPairs pairs

end

/-- Lines of an array or object: each entry indented, a comma after all but the last. -/
def entries (indent : String) (texts : List String) : String :=
  String.intercalate ",\n" (texts.map (indent ++ "  " ++ ·)) ++ "\n" ++ indent

mutual

/-- **One entry to a line**, `indent` being what stands before the line of the value itself. -/
def indented (indent : String) : Json → String
  | .array [] => "[]"
  | .object [] => "\x7b\x7d"
  | .array items => "[\n" ++ entries indent (indentedItems (indent ++ "  ") items) ++ "]"
  | .object pairs => "\x7b\n" ++ entries indent (indentedPairs (indent ++ "  ") pairs) ++ "\x7d"
  | json => scalar json

def indentedItems (indent : String) : List Json → List String
  | [] => []
  | item :: items => indented indent item :: indentedItems indent items

def indentedPairs (indent : String) : List (String × Json) → List String
  | [] => []
  | (key, value) :: pairs =>
    (quote key ++ ": " ++ indented indent value) :: indentedPairs indent pairs

end

end FluentBuilders.Json
