import FluentBuilders.Text.Letters

/-!
# Command/Arguments — the words of a command line

A word is a flag, a separator, or plain.  Long flags may be cut short as long as one flag alone
begins so, and take their value after `=` or from the next word; one-letter flags may have their
value, or further letters, joined on.  After `--` every word is plain.  A command line names one
source file.
-/

namespace FluentBuilders

/-- **The flags.** -/
inductive Flag where
  | help
  | output
  | laxNulls
  | config
  deriving DecidableEq, Repr

/-- What a command line asks for. -/
structure Options where
  input : String
  output : Option String
  config : Option String
  laxNulls : Bool
  deriving DecidableEq, Repr

/-- **A command line that was read.** -/
inductive Arguments where
  | run (options : Options)
  | help
  /-- A word is out of place, or one is missing. -/
  | misuse
  deriving DecidableEq, Repr

/-- **A word of a command line.** -/
inductive ArgumentWord where
  | plain (text : String)
  | separator
  /-- A flag, and the value that stands in its word. -/
  | flag (f : Flag) (value : Option String)
  /-- The help flag with other letters joined on, at least one. -/
  | helpCluster (letters : List Char)
  | unknownFlag
  | ambiguousFlag
  deriving DecidableEq, Repr

namespace Flag

/-- A value belongs to the flag. -/
def takesValue : Flag → Bool
  | .output | .config => true
  | .help | .laxNulls => false

/-- The flags by their long names. -/
def longNames : List (String × Flag) :=
  [("help", .help), ("output", .output), ("no-strict-null-checks", .laxNulls), ("config", .config)]

/-- The flags by their letters. -/
def letters : List (Char × Flag) := [('h', .help), ('o', .output)]

/-- The flags whose long names begin with `start`; the whole name stands for its flag alone. -/
def beginningWith (start : List Char) : List Flag :=
  match longNames.lookup (String.ofList start) with
  | some f => [f]
  | none => (longNames.filter fun (name, _) => start.isPrefixOf name.toList).map (·.2)

end Flag

namespace ArgumentWord

/-- A text up to its first `=`, and what follows it if there is one. -/
def splitValue (cs : List Char) : List Char × Option String :=
  match cs.span (· ≠ '=') with
  | (name, _ :: value) => (name, some (String.ofList value))
  | (name, []) => (name, none)

/-- At least one digit and nothing else. -/
def isDigits (cs : List Char) : Bool := !cs.isEmpty && cs.all Text.isDecimalDigit

/-- The digits of a number that may have a point in it. -/
def isNumber (cs : List Char) : Bool :=
  match cs.span (· ≠ '.') with
  | (whole, []) => isDigits whole
  | (whole, _ :: fraction) => (whole.isEmpty || isDigits whole) && isDigits fraction

/-- A word that begins with `-` and is no flag: a negative number, or anything with a space in it,
is plain. -/
def noFlag (cs : List Char) : ArgumentWord :=
  let number := if cs.getLast? = some '\n' then cs.dropLast else cs
  if isNumber number ∨ ' ' ∈ cs then .plain (String.ofList ('-' :: cs)) else .unknownFlag

/-- The word of the letters after one `-`. -/
def ofLetters : List Char → ArgumentWord
  | [] => .plain "-"
  | c :: cs =>
    match Flag.letters.lookup c, cs with
    | none, _ => noFlag (c :: cs)
    | some f, [] => .flag f none
    | some f, ['='] => .flag f (some "")
    | some f, _ =>
      let joined := if cs.head? = some '=' then cs.tail else cs
      if f.takesValue then .flag f (some (String.ofList joined)) else .helpCluster joined

/-- **The word a text is**, where it does not follow a separator. -/
def ofText (text : String) : ArgumentWord :=
  match text.toList with
  | ['-', '-'] => .separator
  | '-' :: '-' :: cs =>
    let (name, value) := splitValue cs
    match Flag.beginningWith name with
    | [] => noFlag ('-' :: cs)
    | [f] => .flag f value
    | _ => .ambiguousFlag
  | '-' :: cs => ofLetters cs
  | _ => .plain text

/-- The words of a command line: those after a separator are plain. -/
def ofTexts : List String → List ArgumentWord
  | [] => []
  | text :: texts =>
    match ofText text with
    | .separator => .separator :: texts.map .plain
    | word => word :: ofTexts texts

/-- A plain word stands next. -/
def plainNext : List ArgumentWord → Bool
  | .plain _ :: _ => true
  | _ => false

end ArgumentWord

namespace Arguments

/-- **The letters joined to the help flag.**  They may ask for help again, or name an output with
what follows; any other letter is out of place. -/
def ofHelpCluster (valueFollows : Bool) : List Char → Arguments
  | [] => .help
  | ['o'] => if valueFollows then .help else .misuse
  | 'o' :: _ => .help
  | 'h' :: letters => ofHelpCluster valueFollows letters
  | _ => .misuse

/-- What was read so far.  `surplus` says that a word had no place. -/
structure Reading where
  input : Option String := none
  output : Option String := none
  config : Option String := none
  laxNulls : Bool := false
  surplus : Bool := false

namespace Reading

/-- A flag's value set, in place of the one before. -/
def setValue (r : Reading) (f : Flag) (value : Option String) : Reading :=
  match f with
  | .output => { r with output := value }
  | .config => { r with config := value }
  | .help | .laxNulls => r

/-- What a command line asks for once all of it was read. -/
def finish (r : Reading) : Arguments :=
  match r.input, r.surplus with
  | some input, false => .run ⟨input, r.output, r.config, r.laxNulls⟩
  | _, _ => .misuse

end Reading

/-- A value joined to its flag: two dashes are a separator also there, and leave no value. -/
def joinedValue (value : String) : Option String := if value = "--" then none else some value

/-- Reads the words one by one.  The source file takes the separator beside it. -/
def ofWords (r : Reading) : List ArgumentWord → Arguments
  | [] => r.finish
  | .plain text :: words =>
    match r.input, words with
    | none, .separator :: words => ofWords { r with input := some text } words
    | none, words => ofWords { r with input := some text } words
    | some _, words => ofWords { r with surplus := true } words
  | .separator :: words =>
    match r.input, words with
    | none, .plain text :: words => ofWords { r with input := some text } words
    | _, words => ofWords { r with surplus := true } words
  | .flag f none :: words =>
    match f.takesValue, words with
    | true, .plain value :: words => ofWords (r.setValue f (some value)) words
    | true, _ => .misuse
    | false, words => if f = .help then .help else ofWords { r with laxNulls := true } words
  | .flag f (some value) :: words =>
    if f.takesValue then ofWords (r.setValue f (joinedValue value)) words else .misuse
  | .helpCluster letters :: words => ofHelpCluster (ArgumentWord.plainNext words) letters
  | .unknownFlag :: words => ofWords { r with surplus := true } words
  | .ambiguousFlag :: _ => .misuse

/-- **Reads a command line.**  An ambiguous flag is noticed before anything else. -/
def ofTexts (texts : List String) : Arguments :=
  let words := ArgumentWord.ofTexts texts
  if words.contains .ambiguousFlag then .misuse else ofWords {} words

end Arguments

end FluentBuilders
