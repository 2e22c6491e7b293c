/-!
# Text/Blank — blank characters, and trimming them

A character is **blank** when it has the Unicode property `White_Space` or is one of the four
information separators U+001C–U+001F.  Trimming works on lists of characters, the form in which the
readers of this library scan text.
-/

namespace FluentBuilders.Text

/-- **The property `White_Space`**: tab to carriage return, the space, and the blanks outside
ASCII. -/
def isWhiteSpace (c : Char) : Bool :=
  let n := c.toNat
  (9 ≤ n && n ≤ 13) || n == 32 || n == 0x85 || n == 0xA0 || n == 0x1680 ||
    (0x2000 ≤ n && n ≤ 0x200A) || n == 0x2028 || n == 0x2029 || n == 0x202F || n == 0x205F ||
    n == 0x3000

/-- **The blank characters**: white space and the information separators. -/
def isBlank (c : Char) : Bool := isWhiteSpace c || (28 ≤ c.toNat && c.toNat ≤ 31)

/-- The text without the characters of a class around it. -/
def trimWhere (drops : Char → Bool) (cs : List Char) : List Char :=
  ((cs.dropWhile drops).reverse.dropWhile drops).reverse

/-- The text from its first character that is not blank. -/
def trimStart (cs : List Char) : List Char := cs.dropWhile isBlank

/-- The text up to its last character that is not blank. -/
def trimEnd (cs : List Char) : List Char := (cs.reverse.dropWhile isBlank).reverse

/-- The text without the blanks around it. -/
def trim (cs : List Char) : List Char := trimEnd (trimStart cs)

/-- At least one blank, skipped: what follows the run, or nothing when the text starts otherwise. -/
def skipBlanks? : List Char → Option (List Char)
  | [] => none
  | c :: cs => if isBlank c then some (trimStart cs) else none

/-- What follows the word `w` at the start of the text. -/
def dropWord? (w : String) (cs : List Char) : Option (List Char) :=
  if w.toList.isPrefixOf cs then some (cs.drop w.length) else none

end FluentBuilders.Text
