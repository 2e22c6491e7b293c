import FluentBuilders.Source.Piece

/-!
# Source/Comments — source text without its comments

A line comment goes up to its line break, which stays.  A block comment leaves its line breaks
behind, or one blank when it has none, so that every declaration keeps its line.  Quotes are looked
at first: a comment mark inside a string literal is text.
-/

namespace FluentBuilders

open Piece

/-- What follows a block comment, whose opening mark has been read, and the line breaks in it. -/
def blockCommentTail : List Char → List Char × List Char
  | [] => ([], [])
  | '*' :: '/' :: rest => ([], rest)
  | c :: rest =>
    let (breaks, rest) := blockCommentTail rest
    (if c = '\n' then c :: breaks else breaks, rest)

theorem blockCommentTail_length_le (cs : List Char) :
    (blockCommentTail cs).2.length ≤ cs.length := by
  fun_induction blockCommentTail cs <;> simp_all <;> omega

/-- What a block comment with the given line breaks leaves behind. -/
def commentTrace (breaks : List Char) : List Char := if breaks.isEmpty then [' '] else breaks

/-- **The text without its comments.** -/
def stripComments : List Char → List Char
  | [] => []
  | '/' :: '/' :: cs => stripComments (cs.dropWhile (· ≠ '\n'))
  | '/' :: '*' :: cs =>
    commentTrace (blockCommentTail cs).1 ++ stripComments (blockCommentTail cs).2
  | c :: cs =>
    if isQuote c then c :: (literalTail c cs).1 ++ stripComments (literalTail c cs).2
    else c :: stripComments cs
termination_by cs => cs.length
decreasing_by
  · have := (List.dropWhile_sublist (p := (· ≠ '\n')) (l := cs)).length_le
    simp only [List.length_cons]; omega
  · have := blockCommentTail_length_le cs
    simp only [List.length_cons]; omega
  · exact Nat.lt_succ_of_le (literalTail_length_le c cs)
  · simp

end FluentBuilders
