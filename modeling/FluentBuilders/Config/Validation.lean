import FluentBuilders.Json.Value
import FluentBuilders.Text.Blank
import FluentBuilders.Text.Identifier

/-!
# Config/Validation — values checked field by field, with every fault reported

A check takes a JSON value and gives a value of the domain, or the list of all faults, each with the
place it was found at.  The faults of several fields are reported together, in the order of the
fields.
-/

namespace FluentBuilders

/-- **What can be wrong with a value.** -/
inductive FaultKind where
  | missing
  | unknownWord
  | notString | notList | notModel | notPath
  | notBoolean | unreadableBoolean
  | notInteger | unreadableInteger | fractionalInteger | oversizedInteger | notFinite
  | belowMinimum
  | tooShort | patternMismatch
  | nestedTooDeep
  | invalidJson
  deriving DecidableEq, Repr

/-- The name of a kind of fault. -/
def FaultKind.name : FaultKind → String
  | .missing => "missing"
  | .unknownWord => "enum"
  | .notString => "string_type"
  | .notList => "list_type"
  | .notModel => "model_type"
  | .notPath => "path_type"
  | .notBoolean => "bool_type"
  | .unreadableBoolean => "bool_parsing"
  | .notInteger => "int_type"
  | .unreadableInteger => "int_parsing"
  | .fractionalInteger => "int_from_float"
  | .oversizedInteger => "int_parsing_size"
  | .notFinite => "finite_number"
  | .belowMinimum => "greater_than_equal"
  | .tooShort => "string_too_short"
  | .patternMismatch => "string_pattern_mismatch"
  | .nestedTooDeep => "recursion_depth_exceeded"
  | .invalidJson => "json_invalid"

/-- A step on the way to a value: a field, or the place in a list. -/
inductive Step where
  | field (name : String)
  | place (index : Nat)
  deriving DecidableEq, Repr

/-- **A fault**, and the way to where it is. -/
structure Fault where
  kind : FaultKind
  location : List Step
  deriving DecidableEq, Repr

/-- **A checked value**, or all its faults. -/
inductive Checked (α : Type) where
  | valid (value : α)
  | faulty (faults : List Fault)

namespace Checked

/-- A single fault at the value itself. -/
def fault {α : Type} (kind : FaultKind) : Checked α := .faulty [⟨kind, []⟩]

/-- The faults one step further down. -/
def within {α : Type} (step : Step) : Checked α → Checked α
  | .valid a => .valid a
  | .faulty faults => .faulty (faults.map fun f => { f with location := step :: f.location })

/-- A function of the value. -/
def map {α β : Type} (f : α → β) : Checked α → Checked β
  | .valid a => .valid (f a)
  | .faulty faults => .faulty faults

/-- **Both checks**, with the faults of both. -/
def and {α β : Type} (f : Checked (α → β)) (a : Checked α) : Checked β :=
  match f, a with
  | .valid f, .valid a => .valid (f a)
  | .valid _, .faulty more => .faulty more
  | .faulty faults, .valid _ => .faulty faults
  | .faulty faults, .faulty more => .faulty (faults ++ more)

instance : Functor Checked where
  map := Checked.map

instance : Seq Checked where
  seq f a := Checked.and f (a ())

instance : Pure Checked where
  pure := .valid

end Checked

namespace Check

/-! ## Scalars -/

/-- A string. -/
def string : Json → Checked String
  | .string s => .valid s
  | _ => .fault .notString

/-- A string with a property, `kind` being the fault of one without it. -/
def stringWhere (holds : String → Bool) (kind : FaultKind) (json : Json) : Checked String :=
  match json with
  | .string s => if holds s then .valid s else .fault kind
  | _ => .fault .notString

/-- A string that is not empty. -/
def nonempty (json : Json) : Checked String := stringWhere (· ≠ "") .tooShort json

/-- The words for true. -/
def trueWords : List String := ["1", "on", "t", "true", "y", "yes"]

/-- The words for false. -/
def falseWords : List String := ["0", "off", "f", "false", "n", "no"]

/-- The greatest integer of 64 bits with a sign. -/
def greatestWord : Int := 9223372036854775807

/-- An integer of 64 bits with a sign. -/
def isWord (n : Int) : Bool := -greatestWord - 1 ≤ n && n ≤ greatestWord

/-- An integer of 64 bits that a floating-point number can be, the least one left out. -/
def isInnerWord (n : Int) : Bool := -greatestWord ≤ n && n ≤ greatestWord

/-- The truth value of a number; one that is no integer of 64 bits is not even a bad one. -/
def boolOfInt (isInteger : Int → Bool) (n : Int) : Checked Bool :=
  if n = 1 then .valid true
  else if n = 0 then .valid false
  else if isInteger n then .fault .unreadableBoolean
  else .fault .notBoolean

/-- **A truth value**: itself, the number one or zero, or a word for it in any case. -/
def bool : Json → Checked Bool
  | .bool b => .valid b
  | .int n => boolOfInt isWord n
  | .float x =>
    match x.whole? with
    | some n => boolOfInt isInnerWord n
    | none => .fault .notBoolean
  | .string s =>
    if trueWords.contains s.toLower then .valid true
    else if falseWords.contains s.toLower then .valid false
    else .fault .unreadableBoolean
  | _ => .fault .notBoolean

/-! ### Integers written out -/

/-- **What a text says of being an integer.** -/
inductive IntegerText where
  | integer
  | oversized
  | unreadable
  deriving DecidableEq, Repr

/-- The most digits an integer can be written with. -/
def digitsLimit : Nat := 4300

/-- **An integer in its plain form**: a minus sign if it is negative, and digits without a
superfluous zero in front.  More digits than there can be are noticed before anything that comes
after them. -/
def plainInteger (cs : List Char) : IntegerText :=
  match if cs.head? = some '-' then cs.tail else cs with
  | ['0'] => .integer
  | '0' :: _ => .unreadable
  | cs =>
    let (digits, rest) := cs.span Text.isArabicDigit
    if digitsLimit < digits.length then .oversized
    else if digits.isEmpty || !rest.isEmpty then .unreadable
    else .integer

/-- A text without the plus sign in front of it; none may be there before a minus sign. -/
def dropPlus? (cs : List Char) : Option (List Char) :=
  match cs with
  | '+' :: '-' :: _ => none
  | '+' :: rest => some rest
  | cs => some cs

/-- A text without a fraction of zeros, which has at least one. -/
def dropZeroFraction (cs : List Char) : List Char :=
  match cs.span (· ≠ '.') with
  | (whole, _ :: '0' :: zeros) => if zeros.all (· == '0') then whole else cs
  | _ => cs

/-- **A text without the zeros in front**, of which there may be underscores between; of nothing but
these the last character stays.  In front of anything else than a digit there are no zeros. -/
def dropLeadingZeros? (cs : List Char) : Option (List Char) :=
  match cs with
  | [] => none
  | c :: rest =>
    if c = '0' then
      match rest.dropWhile (fun c => c == '0' || c == '_') with
      | [] => some (cs.getLast?.toList)
      | d :: rest => if Text.isArabicDigit d then some (d :: rest) else none
    else if Text.isArabicDigit c || c == '-' then some cs
    else none

/-- A text without its underscores, when each of them stands alone and inside. -/
def dropUnderscores (cs : List Char) : List Char :=
  let groups := cs.splitOn '_'
  if groups.all (!·.isEmpty) then groups.flatten else cs

/-- An integer with blanks around it, a plus sign, a fraction of zeros, zeros in front and
underscores left out: its plain form. -/
def plainForm? (cs : List Char) : Option (List Char) := do
  let cs ← dropPlus? (Text.trimWhere Text.isWhiteSpace cs)
  let cs ← dropLeadingZeros? (dropZeroFraction cs)
  return dropUnderscores cs

/-- **An integer written out**, in its plain form or brought to it. -/
def integerText (s : String) : IntegerText :=
  match plainInteger s.toList with
  | .unreadable =>
    match plainForm? s.toList with
    | some cs => plainInteger cs
    | none => .unreadable
  | answer => answer

/-- A whole number, as a number, a truth value, or written out.  Its value is not kept. -/
def integer : Json → Checked Unit
  | .int _ => .valid ()
  | .bool _ => .valid ()
  | .float x =>
    match x, x.whole? with
    | _, some n => if isInnerWord n then .valid () else .fault .oversizedInteger
    | .finite .., none => .fault .fractionalInteger
    | _, none => .fault .notFinite
  | .string s =>
    match integerText s with
    | .integer => .valid ()
    | .oversized => .fault .oversizedInteger
    | .unreadable => .fault .unreadableInteger
  | _ => .fault .notInteger

/-- Null, or a checked value. -/
def optional {α : Type} (check : Json → Checked α) : Json → Checked (Option α)
  | .null => .valid none
  | json => some <$> check json

/-! ## Lists and models -/

/-- The items of a list from the place `index` on. -/
def items {α : Type} (check : Json → Checked α) (index : Nat) : List Json → Checked (List α)
  | [] => .valid []
  | json :: rest =>
    List.cons <$> (check json).within (.place index) <*> items check (index + 1) rest

/-- **A list**, every item checked. -/
def list {α : Type} (check : Json → Checked α) : Json → Checked (List α)
  | .array jsons => items check 0 jsons
  | _ => .fault .notList

/-- **A model**: an object, whose fields are then checked. -/
def model {α : Type} (fields : Json → Checked α) (json : Json) : Checked α :=
  match json with
  | .object _ => fields json
  | _ => .fault .notModel

/-- A field that has to be there. -/
def required {α : Type} (name : String) (check : Json → Checked α) (json : Json) : Checked α :=
  match json.get? name with
  | some value => (check value).within (.field name)
  | none => (Checked.fault .missing).within (.field name)

/-- A field that may be missing. -/
def field {α : Type} (name : String) (fallback : α) (check : Json → Checked α) (json : Json) :
    Checked α :=
  match json.get? name with
  | some value => (check value).within (.field name)
  | none => .valid fallback

end Check

end FluentBuilders
