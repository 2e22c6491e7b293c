import FluentBuilders.Text.Letters
import FluentBuilders.Text.Identifier

/-!
# Syntax/Token — the tokens of type expressions

`Token.read?` takes the longest token at the start of a text, `Token.scan?` all tokens of a text
with blanks and comments between them.  The blanks of the grammar are the five ASCII ones; a block
comment has to be closed.  A word is a word here: which words are operators depends on where they
stand, and the grammar decides that.
-/

namespace FluentBuilders

/-- **Punctuation.** -/
inductive Mark where
  | openParen | closeParen
  | openBrace | closeBrace
  | openBracket | closeBracket
  | openAngle | closeAngle
  | comma | semicolon | colon | question
  | dot | ellipsis | bar | ampersand | arrow
  deriving DecidableEq, Repr

/-- **A token**: words, numbers and templates as written, string literals with their quotes. -/
inductive Token where
  | word (text : String)
  | string (literal : String)
  | template (text : String)
  | number (text : String)
  | negative (text : String)
  | mark (m : Mark)
  deriving DecidableEq, Repr

namespace Token

/-! ## Blanks and comments -/

/-- The blanks between tokens. -/
def isLayout (c : Char) : Bool := c == ' ' || c == '\t' || c == '\x0c' || c == '\r' || c == '\n'

/-- The text after the `*/` that closes a block comment. -/
def closeComment? : List Char → Option (List Char)
  | [] => none
  | '*' :: '/' :: rest => some rest
  | _ :: rest => closeComment? rest

/-! ## Token classes -/

/-- A quoted literal after its opening quote, closing quote included: characters up to the quote,
with a backslash taking the next character along.  `multiline` literals may hold line breaks, but
not directly after a backslash. -/
def quotedTail? (quote : Char) (multiline : Bool) : List Char → Option (List Char × List Char)
  | [] => none
  | '\\' :: c :: rest =>
    if c = '\n' then none
    else (quotedTail? quote multiline rest).map fun (body, rest) => ('\\' :: c :: body, rest)
  | c :: rest =>
    if c = quote then some ([c], rest)
    else if c = '\\' ∨ (c = '\n' ∧ !multiline) then none
    else (quotedTail? quote multiline rest).map fun (body, rest) => (c :: body, rest)

/-- A hexadecimal digit. -/
def isHexDigit (c : Char) : Bool :=
  Text.isArabicDigit c || ('a' ≤ c && c ≤ 'f') || ('A' ≤ c && c ≤ 'F')

/-- A point and at least one digit, if the text begins so. -/
def fractionPart (cs : List Char) : List Char × List Char :=
  match cs with
  | '.' :: rest =>
    match rest.span Text.isDecimalDigit with
    | ([], _) => ([], cs)
    | (digits, rest) => ('.' :: digits, rest)
  | _ => ([], cs)

/-- The sign of an exponent, if there is one. -/
def exponentSign (cs : List Char) : List Char × List Char :=
  match cs with
  | '+' :: rest => (['+'], rest)
  | '-' :: rest => (['-'], rest)
  | _ => ([], cs)

/-- `e`, an optional sign and at least one digit, if the text begins so. -/
def exponentPart (cs : List Char) : List Char × List Char :=
  match cs with
  | e :: rest =>
    if e = 'e' ∨ e = 'E' then
      let (sign, digits) := exponentSign rest
      match digits.span Text.isDecimalDigit with
      | ([], _) => ([], cs)
      | (digits, rest) => (e :: sign ++ digits, rest)
    else ([], cs)
  | [] => ([], cs)

/-- `0x` and at least one hexadecimal digit. -/
def hexNumber? (cs : List Char) : Option (List Char × List Char) :=
  match cs with
  | '0' :: x :: rest =>
    if x = 'x' ∨ x = 'X' then
      match rest.span isHexDigit with
      | ([], _) => none
      | (digits, rest) => some ('0' :: x :: digits, rest)
    else none
  | _ => none

/-- Digits, an optional fraction and an optional exponent. -/
def decimalNumber? (cs : List Char) : Option (List Char × List Char) :=
  match cs.span Text.isDecimalDigit with
  | ([], _) => none
  | (whole, rest) =>
    let (fraction, rest) := fractionPart rest
    let (exponent, rest) := exponentPart rest
    some (whole ++ fraction ++ exponent, rest)

/-- A minus sign, digits and an optional fraction. -/
def negativeNumber? (cs : List Char) : Option (List Char × List Char) :=
  match cs with
  | '-' :: rest =>
    match rest.span Text.isDecimalDigit with
    | ([], _) => none
    | (whole, rest) =>
      let (fraction, rest) := fractionPart rest
      some ('-' :: whole ++ fraction, rest)
  | _ => none

/-- A punctuation mark, the longest that fits. -/
def readMark? : List Char → Option (Mark × List Char)
  | '.' :: '.' :: '.' :: rest => some (.ellipsis, rest)
  | '=' :: '>' :: rest => some (.arrow, rest)
  | c :: rest =>
    match c with
    | '(' => some (.openParen, rest)
    | ')' => some (.closeParen, rest)
    | '{' => some (.openBrace, rest)
    | '}' => some (.closeBrace, rest)
    | '[' => some (.openBracket, rest)
    | ']' => some (.closeBracket, rest)
    | '<' => some (.openAngle, rest)
    | '>' => some (.closeAngle, rest)
    | ',' => some (.comma, rest)
    | ';' => some (.semicolon, rest)
    | ':' => some (.colon, rest)
    | '?' => some (.question, rest)
    | '.' => some (.dot, rest)
    | '|' => some (.bar, rest)
    | '&' => some (.ampersand, rest)
    | _ => none
  | [] => none

/-- **The token at the start of a text**, and what follows it. -/
def read? (cs : List Char) : Option (Token × List Char) :=
  match cs with
  | [] => none
  | c :: tail =>
    if Text.isIdentifierStart c then
      let (name, rest) := tail.span Text.isIdentifierPart
      some (.word (String.ofList (c :: name)), rest)
    else if c = '"' ∨ c = '\'' then
      (quotedTail? c false tail).map fun (body, rest) => (.string (String.ofList (c :: body)), rest)
    else if c = '`' then
      (quotedTail? c true tail).map fun (body, rest) =>
        (.template (String.ofList (c :: body)), rest)
    else if c = '-' then
      (negativeNumber? cs).map fun (text, rest) => (.negative (String.ofList text), rest)
    else if Text.isDecimalDigit c then
      ((hexNumber? cs).orElse fun _ => decimalNumber? cs).map fun (text, rest) =>
        (.number (String.ofList text), rest)
    else (readMark? cs).map fun (m, rest) => (.mark m, rest)

/-- All tokens of a text, in at most `fuel` steps of skipping and reading. -/
def scanWithin? : Nat → List Char → Option (List Token)
  | 0, _ => none
  | fuel + 1, cs =>
    match cs with
    | [] => some []
    | '/' :: '/' :: rest => scanWithin? fuel (rest.dropWhile (· ≠ '\n'))
    | '/' :: '*' :: rest =>
      match closeComment? rest with
      | none => none
      | some rest => scanWithin? fuel rest
    | c :: rest =>
      if isLayout c then scanWithin? fuel rest
      else
        match read? (c :: rest) with
        | none => none
        | some (token, rest) => (scanWithin? fuel rest).map (token :: ·)

/-- **All tokens of a text**; nothing when some of it is neither a token, a blank nor a comment. -/
def scan? (cs : List Char) : Option (List Token) := scanWithin? (cs.length + 1) cs

end Token

end FluentBuilders
