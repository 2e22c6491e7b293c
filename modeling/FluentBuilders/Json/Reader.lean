import FluentBuilders.Json.Value

/-!
# Json/Reader — reading JSON text

`Json.ofText?` reads a whole text: one value with blanks around it.  Nothing is read from a text
with a comma too many, an unescaped control character, half of a surrogate pair, or anything after
the value, nor from one with arrays and objects nested too deep or a number too long.  Every reader
takes the characters that are left and returns what it read and what is left then; the fuel of the
value reader is the length of the text, of which each call uses up one.
-/

namespace FluentBuilders.Json

/-- The four blanks of JSON, skipped. -/
def skipSpace (cs : List Char) : List Char :=
  cs.dropWhile fun c => c == ' ' || c == '\n' || c == '\t' || c == '\r'

/-! ## Strings -/

/-- The value of a hexadecimal digit. -/
def hexDigit? (c : Char) : Option Nat :=
  if '0' ≤ c ∧ c ≤ '9' then some (c.toNat - '0'.toNat)
  else if 'a' ≤ c ∧ c ≤ 'f' then some (c.toNat - 'a'.toNat + 10)
  else if 'A' ≤ c ∧ c ≤ 'F' then some (c.toNat - 'A'.toNat + 10)
  else none

/-- Four hexadecimal digits. -/
def hexUnit? (a b c d : Char) : Option Nat := do
  let a ← hexDigit? a
  let b ← hexDigit? b
  let c ← hexDigit? c
  let d ← hexDigit? d
  return ((a * 16 + b) * 16 + c) * 16 + d

/-- The character of a two-character escape. -/
def simpleEscape? : Char → Option Char
  | '"' => some '"'
  | '\\' => some '\\'
  | '/' => some '/'
  | 'b' => some '\x08'
  | 'f' => some '\x0c'
  | 'n' => some '\n'
  | 'r' => some '\r'
  | 't' => some '\t'
  | _ => none

/-- The first half of a surrogate pair. -/
def isHighSurrogate (unit : Nat) : Bool := 0xD800 ≤ unit && unit < 0xDC00

/-- The second half of a surrogate pair. -/
def isLowSurrogate (unit : Nat) : Bool := 0xDC00 ≤ unit && unit < 0xE000

/-- **The inside of a string** up to its closing quote. -/
def stringBody? : List Char → Option (List Char × List Char)
  | [] => none
  | '"' :: rest => some ([], rest)
  | '\\' :: 'u' :: a :: b :: c :: d :: '\\' :: 'u' :: a' :: b' :: c' :: d' :: rest =>
    match hexUnit? a b c d with
    | none => none
    | some unit =>
      if isHighSurrogate unit then
        match hexUnit? a' b' c' d' with
        | none => none
        | some low =>
          if isLowSurrogate low then do
            let (text, rest) ← stringBody? rest
            let code := 0x10000 + (unit - 0xD800) * 0x400 + (low - 0xDC00)
            return (Char.ofNat code :: text, rest)
          else none
      else if isLowSurrogate unit then none
      else do
        let (text, rest) ← stringBody? ('\\' :: 'u' :: a' :: b' :: c' :: d' :: rest)
        return (Char.ofNat unit :: text, rest)
  | '\\' :: 'u' :: a :: b :: c :: d :: rest =>
    match hexUnit? a b c d with
    | none => none
    | some unit =>
      if isHighSurrogate unit || isLowSurrogate unit then none
      else do
        let (text, rest) ← stringBody? rest
        return (Char.ofNat unit :: text, rest)
  | '\\' :: c :: rest =>
    match simpleEscape? c with
    | none => none
    | some c => do
      let (text, rest) ← stringBody? rest
      return (c :: text, rest)
  | c :: rest =>
    if c.toNat < 0x20 || c == '\\' then none
    else do
      let (text, rest) ← stringBody? rest
      return (c :: text, rest)

/-! ## Numbers -/

/-- A run of the digits `0` to `9`. -/
def spanDigits (cs : List Char) : List Char × List Char := cs.span fun c => '0' ≤ c && c ≤ '9'

/-- The number a run of digits denotes. -/
def digitsValue (digits : List Char) : Nat :=
  digits.foldl (fun n c => n * 10 + (c.toNat - '0'.toNat)) 0

/-- A fraction, if the text begins with one: its digits. -/
def fraction? (cs : List Char) : Option (List Char × List Char) :=
  match cs with
  | '.' :: rest =>
    match spanDigits rest with
    | ([], _) => none
    | (digits, rest) => some (digits, rest)
  | rest => some ([], rest)

/-- An exponent, if the text begins with one. -/
def exponent? (cs : List Char) : Option (Option Int × List Char) :=
  match cs with
  | e :: rest =>
    if e == 'e' || e == 'E' then
      let (negative, rest) : Bool × List Char :=
        match rest with
        | '-' :: rest => (true, rest)
        | '+' :: rest => (false, rest)
        | rest => (false, rest)
      match spanDigits rest with
      | ([], _) => none
      | (digits, rest) =>
        let n : Int := digitsValue digits
        some (some (if negative then -n else n), rest)
    else some (none, cs)
  | [] => some (none, [])

/-- The most digits that a number can have before its point. -/
def wholeDigitsLimit : Nat := 4300

/-- **A number.**  Its whole part has no superfluous zero in front. -/
def number? (cs : List Char) : Option (Json × List Char) := do
  let (negative, cs) : Bool × List Char :=
    match cs with
    | '-' :: rest => (true, rest)
    | rest => (false, rest)
  let (whole, cs) := spanDigits cs
  if whole.isEmpty || (whole.head? == some '0' && 1 < whole.length) then none
  else if wholeDigitsLimit < whole.length then none
  else
    let (fraction, rest) ← fraction? cs
    let (exponent, rest) ← exponent? rest
    if fraction.isEmpty && exponent.isNone then
      let n : Int := digitsValue whole
      return (.int (if negative then -n else n), rest)
    else
      let scale : Int := exponent.getD 0 - fraction.length
      return (.float (Binary64.ofDecimal negative (digitsValue (whole ++ fraction)) scale), rest)

/-! ## Values -/

/-- The words that are values. -/
def words : List (String × Json) :=
  [("null", .null), ("true", .bool true), ("false", .bool false), ("NaN", .float .nan),
    ("Infinity", .float (.infinite false)), ("-Infinity", .float (.infinite true))]

/-- A word at the start of the text. -/
def word? (cs : List Char) : Option (Json × List Char) :=
  words.findSome? fun (w, json) =>
    if w.toList.isPrefixOf cs then some (json, cs.drop w.length) else none

/-- The depth that is left inside an array or object, if there is any. -/
def below? : Nat → Option Nat
  | 0 => none
  | depth + 1 => some depth

mutual

/-- **A value** at the start of the text, blanks before it skipped.  Inside it `depth` arrays and
objects can be nested, those that are empty not counted. -/
def value? (fuel depth : Nat) (cs : List Char) : Option (Json × List Char) :=
  match fuel with
  | 0 => none
  | fuel + 1 =>
    match skipSpace cs with
    | '"' :: rest => do
      let (text, rest) ← stringBody? rest
      return (.string (String.ofList text), rest)
    | '[' :: rest =>
      match skipSpace rest with
      | ']' :: rest => some (.array [], rest)
      | rest => do
        let depth ← below? depth
        let (items, rest) ← items? fuel depth rest
        return (.array items, rest)
    | '{' :: rest =>
      match skipSpace rest with
      | '}' :: rest => some (.object [], rest)
      | rest => do
        let depth ← below? depth
        let (pairs, rest) ← pairs? fuel depth [] rest
        return (.object pairs, rest)
    | rest => (word? rest).orElse fun _ => number? rest

/-- The items of an array up to its closing bracket. -/
def items? (fuel depth : Nat) (cs : List Char) : Option (List Json × List Char) :=
  match fuel with
  | 0 => none
  | fuel + 1 => do
    let (item, rest) ← value? fuel depth cs
    match skipSpace rest with
    | ',' :: rest =>
      let (items, rest) ← items? fuel depth rest
      return (item :: items, rest)
    | ']' :: rest => return ([item], rest)
    | _ => none

/-- The pairs of an object up to its closing brace, added to those before them. -/
def pairs? (fuel depth : Nat) (before : List (String × Json)) (cs : List Char) :
    Option (List (String × Json) × List Char) :=
  match fuel with
  | 0 => none
  | fuel + 1 =>
    match skipSpace cs with
    | '"' :: rest => do
      let (key, rest) ← stringBody? rest
      match skipSpace rest with
      | ':' :: rest =>
        let (item, rest) ← value? fuel depth rest
        let pairs := Pairs.put (String.ofList key) item before
        match skipSpace rest with
        | ',' :: rest => pairs? fuel depth pairs rest
        | '}' :: rest => return (pairs, rest)
        | _ => none
      | _ => none
    | _ => none

end

/-- **Reads a JSON text** with at most `depth` arrays and objects nested in each other. -/
def ofTextWithin? (depth : Nat) (text : String) : Option Json :=
  let cs := text.toList
  match value? (cs.length + 1) depth cs with
  | some (json, rest) => if (skipSpace rest).isEmpty then some json else none
  | none => none

/-- How many arrays and objects can be nested in each other. -/
def nestingLimit : Nat := 200

/-- **Reads a JSON text.** -/
def ofText? (text : String) : Option Json := ofTextWithin? nestingLimit text

end FluentBuilders.Json
