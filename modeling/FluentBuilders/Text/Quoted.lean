/-!
# Text/Quoted — string literals: writing a text between quotes, and reading it back

A literal is written with a backslash before every character that would end it or start an escape;
`quotedBy` does so between marks of any length, `quoted` between the quote marks of generated code.
Reading strips the two quotes and resolves the escapes: `\n`, `\t`, `\r` and `\0` are control
characters, any other escaped character stands for itself.
-/

namespace FluentBuilders.Text

/-- **The quote marks** a literal in generated code can be written with. -/
inductive QuoteMark where
  | single
  | double
  deriving DecidableEq, Repr

/-- The character of a quote mark. -/
def QuoteMark.char : QuoteMark → Char
  | .single => '\''
  | .double => '"'

/-! ## Reading -/

/-- The character that a backslash before `c` stands for. -/
def unescaped : Char → Char
  | 'n' => '\n'
  | 't' => '\t'
  | 'r' => '\r'
  | '0' => '\x00'
  | c => c

/-- **Escapes resolved.**  A backslash before a line break, or at the very end, is kept as it is. -/
def resolveEscapes : List Char → List Char
  | '\\' :: c :: rest =>
    if c = '\n' then '\\' :: '\n' :: resolveEscapes rest else unescaped c :: resolveEscapes rest
  | c :: rest => c :: resolveEscapes rest
  | [] => []

/-- **The text of a literal**: what stands between its first and its last character, with escapes
resolved. -/
def unquote (literal : List Char) : List Char := resolveEscapes (literal.drop 1).dropLast

/-- `unquote` on strings. -/
def unquoteString (literal : String) : String := String.ofList (unquote literal.toList)

/-! ## Writing -/

/-- A character inside a double-quoted literal of a type expression. -/
def escapeInType : Char → List Char
  | '\\' => ['\\', '\\']
  | '"' => ['\\', '"']
  | '\n' => ['\\', 'n']
  | c => [c]

/-- **A string literal type**, always in double quotes; a line break is written `\n`. -/
def typeLiteral (text : String) : String :=
  String.ofList ('"' :: text.toList.flatMap escapeInType ++ ['"'])

/-- A character inside a literal of generated code: only backslashes and the quote are escaped. -/
def escapeFor (mark : QuoteMark) (c : Char) : List Char :=
  if c = '\\' ∨ c = mark.char then ['\\', c] else [c]

/-- **A string literal of generated code.** -/
def quoted (mark : QuoteMark) (text : String) : String :=
  String.ofList (mark.char :: text.toList.flatMap (escapeFor mark) ++ [mark.char])

/-! ### Between any marks -/

/-- What stands in place of a text when every occurrence of `old`, which is not empty, becomes
`new`; the first `skip` characters belong to an occurrence before them. -/
def replaceFrom (old new : List Char) : Nat → List Char → List Char
  | _, [] => []
  | skip + 1, _ :: cs => replaceFrom old new skip cs
  | 0, c :: cs =>
    if old.isPrefixOf (c :: cs) then new ++ replaceFrom old new (old.length - 1) cs
    else c :: replaceFrom old new 0 cs

/-- **Every occurrence of a text replaced**, from the left; the empty text occurs around every
character. -/
def replaceAll (old new cs : List Char) : List Char :=
  if old.isEmpty then new ++ cs.flatMap (· :: new) else replaceFrom old new 0 cs

/-- A text between two marks: first every backslash is written twice, then every mark gets a
backslash before it. -/
def quotedBy (mark text : String) : String :=
  String.ofList (mark.toList ++ replaceAll mark.toList ('\\' :: mark.toList)
    (replaceAll ['\\'] ['\\', '\\'] text.toList) ++ mark.toList)

/-! ## Reading what was written -/

theorem resolveEscapes_flatMap_escapeInType (cs : List Char) :
    resolveEscapes (cs.flatMap escapeInType) = cs := by
  induction cs with
  | nil => rfl
  | cons c cs ih =>
    by_cases hb : c = '\\'
    · subst hb; simp [escapeInType, resolveEscapes, unescaped, ih]
    by_cases hq : c = '"'
    · subst hq; simp [escapeInType, resolveEscapes, unescaped, ih]
    by_cases hn : c = '\n'
    · subst hn; simp [escapeInType, resolveEscapes, unescaped, ih]
    · have he : escapeInType c = [c] := by
        unfold escapeInType; split <;> simp_all
      simp only [List.flatMap_cons, he, List.singleton_append]
      rw [resolveEscapes.eq_2 _ _ (by intro c' _ h; exact absurd h hb), ih]

end FluentBuilders.Text
