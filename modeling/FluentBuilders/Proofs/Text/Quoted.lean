import FluentBuilders.Text.Quoted

/-!
# Proofs/Text/Quoted — a string literal denotes the text it was written from

Reading a literal gives the text back, whether it is one of a type expression or one of generated code;
so different texts have different literals.
-/

namespace FluentBuilders.Text

theorem toList_typeLiteral (text : String) :
    (typeLiteral text).toList = '"' :: (text.toList.flatMap escapeInType ++ ['"']) := by
  simp [typeLiteral]

/-- **Reading a string literal type.** -/
theorem unquoteString_typeLiteral (text : String) : unquoteString (typeLiteral text) = text := by
  unfold unquoteString unquote
  rw [toList_typeLiteral, List.drop_one, List.tail_cons, List.dropLast_concat,
    resolveEscapes_flatMap_escapeInType, String.ofList_toList]

theorem typeLiteral_injective : Function.Injective typeLiteral :=
  Function.LeftInverse.injective unquoteString_typeLiteral

/-! ## Literals of generated code -/

theorem toList_quoted (mark : QuoteMark) (text : String) :
    (quoted mark text).toList = mark.char :: (text.toList.flatMap (escapeFor mark) ++ [mark.char]) := by
  simp [quoted]

theorem QuoteMark.char_ne_backslash (mark : QuoteMark) : mark.char ≠ '\\' := by
  cases mark <;> decide

theorem QuoteMark.char_ne_lineBreak (mark : QuoteMark) : mark.char ≠ '\n' := by
  cases mark <;> decide

theorem QuoteMark.unescaped_char (mark : QuoteMark) : unescaped mark.char = mark.char := by
  cases mark <;> rfl

theorem resolveEscapes_flatMap_escapeFor (mark : QuoteMark) (cs : List Char) :
    resolveEscapes (cs.flatMap (escapeFor mark)) = cs := by
  induction cs with
  | nil => rfl
  | cons c cs ih =>
    by_cases hescaped : c = '\\' ∨ c = mark.char
    · have hbreak : c ≠ '\n' := by
        rintro rfl
        exact hescaped.elim (by decide) fun h => mark.char_ne_lineBreak h.symm
      have hself : unescaped c = c := by
        rcases hescaped with rfl | rfl
        · rfl
        · exact mark.unescaped_char
      simp only [List.flatMap_cons, escapeFor, if_pos hescaped, List.cons_append, List.nil_append,
        resolveEscapes, if_neg hbreak, hself, ih]
    · have hplain : c ≠ '\\' := fun h => hescaped (.inl h)
      rw [List.flatMap_cons, escapeFor, if_neg hescaped, List.singleton_append,
        resolveEscapes.eq_2 _ _ fun _ _ h => absurd h hplain, ih]

/-- **Reading a string literal of generated code.** -/
theorem unquoteString_quoted (mark : QuoteMark) (text : String) :
    unquoteString (quoted mark text) = text := by
  unfold unquoteString unquote
  rw [toList_quoted, List.drop_one, List.tail_cons, List.dropLast_concat,
    resolveEscapes_flatMap_escapeFor, String.ofList_toList]

end FluentBuilders.Text
