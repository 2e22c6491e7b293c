import FluentBuilders.Source.Piece
import FluentBuilders.Text.Letters

/-!
# Source/Boundary — where blocks, items and statements end

Scanners over pieces that keep count of open brackets.  Angle brackets count as brackets, except
where a scanner says otherwise; the `>` of an arrow `=>` never does, so each scanner knows whether
an equals sign came just before.
-/

namespace FluentBuilders

open Piece

/-- **What a piece does to the depth of brackets.** -/
inductive Bracket where
  | opens
  | closes
  | none
  deriving DecidableEq, Repr

namespace Bracket

/-- The bracket a character is; `angles` says whether angle brackets count. -/
def ofChar (angles : Bool) (c : Char) : Bracket :=
  if c = '(' ∨ c = '[' ∨ c = '{' then .opens
  else if c = ')' ∨ c = ']' ∨ c = '}' then .closes
  else if angles ∧ c = '<' then .opens
  else if angles ∧ c = '>' then .closes
  else .none

/-- The bracket a piece is, after an equals sign or not. -/
def ofPiece (angles afterEquals : Bool) : Piece → Bracket
  | .literal _ => .none
  | .char c => if c = '>' ∧ afterEquals then .none else ofChar angles c

/-- The depth after a bracket at the given depth. -/
def depth (before : Int) : Bracket → Int
  | .opens => before + 1
  | .closes => before - 1
  | .none => before

end Bracket

/-- The piece is an equals sign. -/
def isEquals (p : Piece) : Bool := p == .char '='

/-! ## Blocks -/

/-- A block up to and with the bracket that brings the count of open brackets to zero, and what
follows.  A block that is never closed is the whole rest. -/
def blockFrom (angles : Bool) (depth : Nat) (afterEquals : Bool) :
    List Piece → List Piece × List Piece
  | [] => ([], [])
  | p :: ps =>
    match Bracket.ofPiece angles afterEquals p with
    | .opens =>
      let (block, rest) := blockFrom angles (depth + 1) false ps
      (p :: block, rest)
    | .closes =>
      if depth ≤ 1 then ([p], ps)
      else
        let (block, rest) := blockFrom angles (depth - 1) false ps
        (p :: block, rest)
    | .none =>
      let (block, rest) := blockFrom angles depth (isEquals p) ps
      (p :: block, rest)

/-- **The block** that begins with the first piece, an opening bracket, and what follows it. -/
def splitBlock (angles : Bool) (ps : List Piece) : List Piece × List Piece :=
  blockFrom angles 0 false ps

/-- The text of a block without its first and its last character. -/
def insideOf (block : List Piece) : List Char := ((textOf block).drop 1).dropLast

/-! ## Items -/

/-- **A text cut at separators**: the first part, then each separator with the part after it. -/
structure Split where
  first : List Char
  others : List (Char × List Char)

namespace Split

/-- The parts of a cut text. -/
def parts (s : Split) : List (List Char) := s.first :: s.others.map (·.2)

/-- The text that was cut. -/
def joined (s : Split) : List Char := s.first ++ s.others.flatMap fun (c, part) => c :: part

/-- More text in front of the first part. -/
def prepend (text : List Char) (s : Split) : Split := { s with first := text ++ s.first }

/-- A cut at the separator `c` before everything else. -/
def cut (c : Char) (s : Split) : Split := { first := [], others := (c, s.first) :: s.others }

end Split

/-- The pieces cut at each separator outside brackets. -/
def splitFrom (angles : Bool) (separators : List Char) (depth : Int) (afterEquals : Bool) :
    List Piece → Split
  | [] => ⟨[], []⟩
  | p :: ps =>
    match Bracket.ofPiece angles afterEquals p with
    | .opens => (splitFrom angles separators (depth + 1) false ps).prepend p.text
    | .closes => (splitFrom angles separators (depth - 1) false ps).prepend p.text
    | .none =>
      match p with
      | .literal text => (splitFrom angles separators depth false ps).prepend text
      | .char c =>
        let after := splitFrom angles separators depth (c == '=') ps
        if depth = 0 ∧ separators.contains c ∧ !(c == '>' && afterEquals) then after.cut c
        else after.prepend [c]

/-- **A text cut at each separator outside brackets.** -/
def splitTopLevel (angles : Bool) (separators : List Char) (text : List Char) : Split :=
  splitFrom angles separators 0 false (pieces text)

/-- The text before the first `target` outside brackets, and the pieces from there.  A semicolon
outside brackets ends the search. -/
def findFrom (target : Char) (depth : Int) (afterEquals : Bool) :
    List Piece → Option (List Char × List Piece)
  | [] => none
  | p :: ps =>
    if depth = 0 ∧ p = .char target then some ([], p :: ps)
    else if depth = 0 ∧ p = .char ';' then none
    else
      let depth := (Bracket.ofPiece true afterEquals p).depth depth
      (findFrom target depth (isEquals p) ps).map fun (before, rest) => (p.text ++ before, rest)

/-- `findFrom` at the start of a text. -/
def findTopLevel (target : Char) (ps : List Piece) : Option (List Char × List Piece) :=
  findFrom target 0 false ps

/-- The text before and after the first equals sign outside brackets that belongs to no arrow. -/
def splitDefaultFrom (depth : Int) (afterEquals : Bool) :
    List Piece → List Char × Option (List Char)
  | [] => ([], none)
  | p :: ps =>
    if depth = 0 ∧ isEquals p ∧ ps.head? ≠ some (.char '>') then ([], some (textOf ps))
    else
      let depth := (Bracket.ofPiece true afterEquals p).depth depth
      let (head, default) := splitDefaultFrom depth (isEquals p) ps
      (p.text ++ head, default)

/-- **A type parameter's default**: the text before the equals sign, and the text after it. -/
def splitDefault (text : List Char) : List Char × Option (List Char) :=
  splitDefaultFrom 0 false (pieces text)

/-! ## Line breaks -/

/-- The characters after which a type cannot end. -/
def continuesAfter : List Char := ['=', '|', '&', ',', ':', '?', '<', '(', '[', '{', '.']

/-- The words after which a type cannot end. -/
def trailingOperators : List String := ["keyof", "typeof", "readonly", "extends", "infer", "unique"]

/-- The texts that carry on a type from the line before. -/
def continuesBefore : List String := ["|", "&", "=>", "[", ".", "?", ":", ">", ")", "]", "\x7d"]

/-- The text ends in the word `w`, and the word does not go on to the left. -/
def endsInWord (w : String) (text : List Char) : Bool :=
  w.toList.isSuffixOf text &&
    match (text.take (text.length - w.length)).getLast? with
    | none => true
    | some c => !Text.isWord c

/-- **Could end here**: the text ends in something a type can end with. -/
def isComplete (fragment : List Char) : Bool :=
  let before := Text.trimEnd fragment
  match before.getLast? with
  | none => false
  | some c =>
    !(continuesAfter.contains c || ['=', '>'].isSuffixOf before ||
      trailingOperators.any (endsInWord · before))

/-- **A line break ends the statement** when what stands before it could end there and what comes
after it does not carry it on. -/
def breakEnds (before after : List Char) : Bool :=
  isComplete before &&
    !continuesBefore.any fun w => w.toList.isPrefixOf (Text.trimStart after)

/-- The pieces of an alias's body and those after it; `before` holds the text read so far, its last
character first. -/
def aliasBodyFrom (depth : Nat) (afterEquals : Bool) (before : List Char) :
    List Piece → List Char × List Piece
  | [] => (before.reverse, [])
  | p :: ps =>
    match Bracket.ofPiece true afterEquals p with
    | .opens => aliasBodyFrom (depth + 1) false (p.text.reverse ++ before) ps
    | .closes =>
      if depth = 0 then (before.reverse, p :: ps)
      else aliasBodyFrom (depth - 1) false (p.text.reverse ++ before) ps
    | .none =>
      if depth = 0 ∧ p = .char ';' then (before.reverse, p :: ps)
      else if depth = 0 ∧ p = .char '\n' ∧ breakEnds before.reverse (textOf ps) then
        (before.reverse, p :: ps)
      else aliasBodyFrom depth (isEquals p) (p.text.reverse ++ before) ps

/-- **The body of an alias**, after its equals sign: up to a semicolon, a closing bracket that is
not its own, or a line break that ends the statement. -/
def splitAliasBody (ps : List Piece) : List Char × List Piece := aliasBodyFrom 0 true [] ps

end FluentBuilders
