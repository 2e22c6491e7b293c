import FluentBuilders.Text.Blank

/-!
# Source/Piece — source text as characters and string literals

Brackets and separators inside a string literal are text, so source text is scanned as a list of
**pieces**: single characters, and literals as a whole.  A literal in single or double quotes ends
at its quote or with the line, a template at its back quote, either at the end of the text.  Nothing
is lost: the pieces of a text, written one after the other, are the text (`textOf_pieces`).
-/

namespace FluentBuilders

/-- **A piece of source text.** -/
inductive Piece where
  | char (c : Char)
  | literal (text : List Char)
  deriving DecidableEq, Repr

namespace Piece

/-- The text of a piece. -/
def text : Piece → List Char
  | .char c => [c]
  | .literal text => text

/-- The text of pieces in a row. -/
def textOf (pieces : List Piece) : List Char := pieces.flatMap text

/-- The characters that open a string literal. -/
def isQuote (c : Char) : Bool := c == '\'' || c == '"' || c == '`'

/-- A literal ends with the character `c`, when `quote` opened it. -/
def endsLiteral (quote c : Char) : Bool := c == quote || (c == '\n' && quote != '`')

/-- **The rest of a literal** whose opening quote has been read, and what follows it.  A backslash
takes the next character along. -/
def literalTail (quote : Char) : List Char → List Char × List Char
  | [] => ([], [])
  | '\\' :: c :: cs =>
    let (body, rest) := literalTail quote cs
    ('\\' :: c :: body, rest)
  | c :: cs =>
    if c = '\\' then ([c], cs)
    else if endsLiteral quote c then ([c], cs)
    else
      let (body, rest) := literalTail quote cs
      (c :: body, rest)

theorem literalTail_append (quote : Char) (cs : List Char) :
    (literalTail quote cs).1 ++ (literalTail quote cs).2 = cs := by
  fun_induction literalTail quote cs <;> simp_all

theorem literalTail_length_le (quote : Char) (cs : List Char) :
    (literalTail quote cs).2.length ≤ cs.length := by
  have h := congrArg List.length (literalTail_append quote cs)
  rw [List.length_append] at h
  omega

end Piece

open Piece

/-- **The pieces of a text.** -/
def pieces : List Char → List Piece
  | [] => []
  | c :: cs =>
    if isQuote c then .literal (c :: (literalTail c cs).1) :: pieces (literalTail c cs).2
    else .char c :: pieces cs
termination_by cs => cs.length
decreasing_by
  · exact Nat.lt_succ_of_le (literalTail_length_le c cs)
  · simp

theorem textOf_pieces (cs : List Char) : textOf (pieces cs) = cs := by
  fun_induction pieces cs with
  | case1 => rfl
  | case2 c cs _ ih =>
    simp only [textOf, List.flatMap_cons, text, List.cons_append] at ih ⊢
    rw [ih, literalTail_append]
  | case3 c cs _ ih =>
    simp only [textOf, List.flatMap_cons, text, List.singleton_append] at ih ⊢
    rw [ih]

end FluentBuilders
