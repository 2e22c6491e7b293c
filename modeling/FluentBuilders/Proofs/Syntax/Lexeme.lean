import FluentBuilders.Proofs.Text.Blank

/-!
# Proofs/Syntax/Lexeme — the text of a token, alone and in front of other text

`Token.text` is what a token looks like in a source.  What `Token.read?` takes off a text is the
text of the token it gives (`eq_text_append_of_read?`), which has one of a few shapes (`Shape`), and
a token that can be read by itself is read off the front of any text whose first character does not
carry it on (`read?_text_append`).
-/

namespace FluentBuilders

/-- **The text of a mark.** -/
def Mark.text : Mark → List Char
  | .openParen => ['(']
  | .closeParen => [')']
  | .openBrace => ['{']
  | .closeBrace => ['}']
  | .openBracket => ['[']
  | .closeBracket => [']']
  | .openAngle => ['<']
  | .closeAngle => ['>']
  | .comma => [',']
  | .semicolon => [';']
  | .colon => [':']
  | .question => ['?']
  | .dot => ['.']
  | .ellipsis => ['.', '.', '.']
  | .bar => ['|']
  | .ampersand => ['&']
  | .arrow => ['=', '>']

namespace Token

/-- **The text of a token.** -/
def text : Token → List Char
  | .word s | .string s | .template s | .number s | .negative s => s.toList
  | .mark m => m.text

/-- A character that carries a token on when it comes right after it. -/
def extendsWith : Token → Char → Bool
  | .word _, c => Text.isIdentifierPart c
  | .number _, c | .negative _, c => Text.isIdentifierPart c || Text.isDecimalDigit c || c == '.'
  | .mark .dot, c => c == '.'
  | _, _ => false

/-- **A token that can be read by itself.** -/
def Whole (t : Token) : Prop := read? t.text = some (t, [])

/-! ## What is read is there -/

theorem span_append {α : Type} (p : α → Bool) (cs : List α) :
    (cs.span p).1 ++ (cs.span p).2 = cs := by
  rw [List.span_eq_takeWhile_dropWhile]
  exact List.takeWhile_append_dropWhile

theorem quotedTail?_eq_append {quote : Char} {multiline : Bool} {cs body rest : List Char}
    (h : quotedTail? quote multiline cs = some (body, rest)) : cs = body ++ rest := by
  fun_induction quotedTail? quote multiline cs generalizing body rest with
  | case1 => simp at h
  | case2 => simp at h
  | case3 c cs _ ih =>
    simp only [Option.map_eq_some_iff, Prod.exists] at h
    obtain ⟨body', rest', hread, h⟩ := h
    cases h
    rw [ih hread]; rfl
  | case4 => cases h; rfl
  | case5 => simp at h
  | case6 c cs _ _ _ ih =>
    simp only [Option.map_eq_some_iff, Prod.exists] at h
    obtain ⟨body', rest', hread, h⟩ := h
    cases h
    rw [ih hread]; rfl

theorem fractionPart_eq_append (cs : List Char) :
    (fractionPart cs).1 ++ (fractionPart cs).2 = cs := by
  unfold fractionPart
  split
  · next rest =>
    have := span_append Text.isDecimalDigit rest
    split
    · rfl
    · next heq => rw [heq] at this; rw [← this]; rfl
  · rfl

theorem exponentSign_eq_append (cs : List Char) :
    (exponentSign cs).1 ++ (exponentSign cs).2 = cs := by
  unfold exponentSign
  split <;> rfl

theorem exponentPart_eq_append (cs : List Char) :
    (exponentPart cs).1 ++ (exponentPart cs).2 = cs := by
  unfold exponentPart
  split
  · next e rest =>
    split
    · split
      next sign digits hsign =>
      have hrest := exponentSign_eq_append rest
      have := span_append Text.isDecimalDigit digits
      rw [hsign] at hrest
      split
      · rfl
      · next heq =>
        rw [heq] at this
        simp only [List.cons_append, List.append_assoc, this, hrest]
    · rfl
  · rfl

theorem hexNumber?_eq_append {cs text rest : List Char}
    (h : hexNumber? cs = some (text, rest)) : cs = text ++ rest := by
  unfold hexNumber? at h
  split at h
  · next x tail =>
    have := span_append isHexDigit tail
    split at h
    · split at h
      · simp at h
      · next heq =>
        cases h
        rw [heq] at this
        rw [← this]; rfl
    · simp at h
  · simp at h

theorem decimalNumber?_eq_append {cs text rest : List Char}
    (h : decimalNumber? cs = some (text, rest)) : cs = text ++ rest := by
  unfold decimalNumber? at h
  have := span_append Text.isDecimalDigit cs
  split at h
  · simp at h
  · next whole after hspan =>
    simp only [Option.some.injEq, Prod.mk.injEq] at h
    obtain ⟨rfl, rfl⟩ := h
    rw [hspan] at this
    rw [List.append_assoc, List.append_assoc, exponentPart_eq_append, fractionPart_eq_append, this]

theorem negativeNumber?_eq_append {cs text rest : List Char}
    (h : negativeNumber? cs = some (text, rest)) : cs = text ++ rest := by
  unfold negativeNumber? at h
  split at h
  · next tail =>
    have := span_append Text.isDecimalDigit tail
    split at h
    · simp at h
    · next heq =>
      simp only [Option.some.injEq, Prod.mk.injEq] at h
      obtain ⟨rfl, rfl⟩ := h
      rw [heq] at this
      rw [List.cons_append, List.cons_append, List.append_assoc, fractionPart_eq_append, this]
  · simp at h

theorem readMark?_eq_append {cs rest : List Char} {m : Mark} (h : readMark? cs = some (m, rest)) :
    cs = m.text ++ rest := by
  unfold readMark? at h
  split at h
  · cases h; rfl
  · cases h; rfl
  · split at h <;> first | (cases h; rfl) | simp at h
  · simp at h

/-- **The text that is taken off is the text of the token.** -/
theorem eq_text_append_of_read? {cs rest : List Char} {t : Token}
    (h : read? cs = some (t, rest)) : cs = t.text ++ rest := by
  unfold read? at h
  split at h
  · simp at h
  · next c tail =>
    split at h
    · have := span_append Text.isIdentifierPart tail
      simp only [Option.some.injEq, Prod.mk.injEq] at h
      obtain ⟨rfl, rfl⟩ := h
      simp only [text, String.toList_ofList, List.cons_append, this]
    split at h
    · simp only [Option.map_eq_some_iff, Prod.exists] at h
      obtain ⟨body, rest', hread, h⟩ := h
      cases h
      simp only [text, String.toList_ofList, List.cons_append, quotedTail?_eq_append hread]
    split at h
    · simp only [Option.map_eq_some_iff, Prod.exists] at h
      obtain ⟨body, rest', hread, h⟩ := h
      cases h
      simp only [text, String.toList_ofList, List.cons_append, quotedTail?_eq_append hread]
    split at h
    · simp only [Option.map_eq_some_iff, Prod.exists] at h
      obtain ⟨text', rest', hread, h⟩ := h
      cases h
      simp only [text, String.toList_ofList, negativeNumber?_eq_append hread]
    split at h
    · simp only [Option.map_eq_some_iff, Prod.exists] at h
      obtain ⟨text', rest', hread, h⟩ := h
      cases h
      cases hhex : hexNumber? (c :: tail) with
      | some read =>
        rw [hhex] at hread
        cases hread
        simp only [text, String.toList_ofList, hexNumber?_eq_append hhex]
      | none =>
        rw [hhex] at hread
        simp only [text, String.toList_ofList, decimalNumber?_eq_append hread]
    · simp only [Option.map_eq_some_iff, Prod.exists] at h
      obtain ⟨m, rest', hread, h⟩ := h
      cases h
      exact readMark?_eq_append hread

theorem decimalNumber?_ne_nil {cs text rest : List Char}
    (h : decimalNumber? cs = some (text, rest)) : text ≠ [] := by
  unfold decimalNumber? at h
  split at h
  · cases h
  · next whole after hne hspan =>
    cases h
    cases whole with
    | nil => exact absurd rfl hne
    | cons => simp

theorem hexNumber?_ne_nil {cs text rest : List Char}
    (h : hexNumber? cs = some (text, rest)) : text ≠ [] := by
  unfold hexNumber? at h
  split at h
  · split at h
    · split at h <;> cases h
      simp
    · cases h
  · cases h

/-- No token is empty. -/
theorem text_ne_nil_of_read? {cs rest : List Char} {t : Token} (h : read? cs = some (t, rest)) :
    t.text ≠ [] := by
  unfold read? at h
  split at h
  · cases h
  next c tail =>
  split at h
  · cases h
    simp [text]
  split at h
  · simp only [Option.map_eq_some_iff, Prod.exists] at h
    obtain ⟨body, rest', -, h⟩ := h
    cases h
    simp [text]
  split at h
  · simp only [Option.map_eq_some_iff, Prod.exists] at h
    obtain ⟨body, rest', -, h⟩ := h
    cases h
    simp [text]
  split at h
  · simp only [Option.map_eq_some_iff, Prod.exists] at h
    obtain ⟨text', rest', hread, h⟩ := h
    cases h
    rintro hnil
    have hempty : text' = [] := by simpa [text] using hnil
    subst hempty
    unfold negativeNumber? at hread
    split at hread
    · split at hread <;> cases hread
    · cases hread
  split at h
  · simp only [Option.map_eq_some_iff, Prod.exists] at h
    obtain ⟨text', rest', hread, h⟩ := h
    cases h
    simp only [text, String.toList_ofList]
    cases hhex : hexNumber? (c :: tail) with
    | some read =>
      rw [hhex] at hread
      cases hread
      exact hexNumber?_ne_nil hhex
    | none =>
      rw [hhex] at hread
      exact decimalNumber?_ne_nil hread
  · simp only [Option.map_eq_some_iff, Prod.exists] at h
    obtain ⟨m, rest', -, h⟩ := h
    cases h
    cases m <;> simp [text, Mark.text]

/-! ## Words and numbers -/

/-- A character of a word or a number. -/
def isAtomPart (c : Char) : Bool :=
  Text.isIdentifierPart c || Text.isDecimalDigit c || c == '.' || c == '+' || c == '-'

theorem isAtomPart_of_isIdentifierPart {c : Char} (h : Text.isIdentifierPart c = true) :
    isAtomPart c = true := by simp [isAtomPart, h]

theorem isAtomPart_of_isDecimalDigit {c : Char} (h : Text.isDecimalDigit c = true) :
    isAtomPart c = true := by simp [isAtomPart, h]

theorem isBlank_eq_false_of_isAtomPart {c : Char} (h : isAtomPart c = true) :
    Text.isBlank c = false := by
  simp only [isAtomPart, Bool.or_eq_true, beq_iff_eq] at h
  rcases h with (((h | h) | rfl) | rfl) | rfl
  · exact Text.isBlank_eq_false_of_isIdentifierPart h
  · exact Text.isBlank_eq_false_of_isDecimalDigit h
  · rfl
  · rfl
  · rfl

/-- A text of such characters. -/
def IsAtom (cs : List Char) : Prop := ∀ c ∈ cs, isAtomPart c = true

theorem isAtom_span {p : Char → Bool} (hp : ∀ c, p c = true → isAtomPart c = true)
    {cs run rest : List Char} (h : cs.span p = (run, rest)) : IsAtom run := by
  rw [List.span_eq_takeWhile_dropWhile] at h
  cases h
  exact fun c hc => hp c (List.mem_takeWhile_imp hc)

theorem isAtom_nil : IsAtom [] := fun _ hc => nomatch hc

theorem IsAtom.cons {c : Char} {cs : List Char} (hc : isAtomPart c = true) (hcs : IsAtom cs) :
    IsAtom (c :: cs) := List.forall_mem_cons.2 ⟨hc, hcs⟩

theorem IsAtom.isBlank_getLast? {cs : List Char} (h : IsAtom cs) :
    ∀ c ∈ cs.getLast?, Text.isBlank c = false :=
  fun c hc => isBlank_eq_false_of_isAtomPart (h c (List.mem_of_getLast? hc))

/-! ### Numbers -/

theorem isIdentifierPart_of_isHexDigit {c : Char} (h : isHexDigit c = true) :
    Text.isIdentifierPart c = true := by
  simp only [isHexDigit, Text.isIdentifierPart, Text.isIdentifierStart, Text.isLatin,
    Bool.or_eq_true, Bool.and_eq_true, decide_eq_true_eq, beq_iff_eq] at h ⊢
  rcases h with (h | ⟨hlow, hhigh⟩) | ⟨hlow, hhigh⟩
  · exact .inr h
  · exact .inl (.inl (.inl (.inl ⟨hlow, Char.le_trans hhigh (by decide)⟩)))
  · exact .inl (.inl (.inl (.inr ⟨hlow, Char.le_trans hhigh (by decide)⟩)))

/-- A digit of a number. -/
def isNumberDigit (c : Char) : Bool := isHexDigit c || Text.isDecimalDigit c

/-- The characters of a number that are no digits. -/
def numberSigns : List Char := ['.', '+', '-', 'x', 'X']

/-- **The text of a number**: digits and signs, a digit at its end. -/
structure IsNumeric (cs : List Char) : Prop where
  parts : ∀ c ∈ cs, isNumberDigit c = true ∨ c ∈ numberSigns
  last : ∀ c ∈ cs.getLast?, isNumberDigit c = true

namespace IsNumeric

variable {c : Char} {cs ds : List Char}

theorem isAtom (h : IsNumeric cs) : IsAtom cs := by
  intro c hc
  rcases h.parts c hc with hdigit | hsign
  · rw [isNumberDigit, Bool.or_eq_true] at hdigit
    exact hdigit.elim (fun h => isAtomPart_of_isIdentifierPart (isIdentifierPart_of_isHexDigit h))
      isAtomPart_of_isDecimalDigit
  · clear hc h
    revert c
    decide

theorem nil : IsNumeric [] := ⟨nofun, nofun⟩

theorem append (h : IsNumeric cs) (hs : IsNumeric ds) : IsNumeric (cs ++ ds) := by
  refine ⟨List.forall_mem_append.2 ⟨h.parts, hs.parts⟩, fun c hc => ?_⟩
  rw [List.getLast?_append] at hc
  cases hlast : ds.getLast? with
  | none => exact h.last c (by simpa [hlast] using hc)
  | some d => exact hs.last c (by simpa [hlast] using hc)

/-- Something of a number in front of digits. -/
theorem cons (hc : isNumberDigit c = true ∨ c ∈ numberSigns) (h : IsNumeric cs) (hcs : cs ≠ []) :
    IsNumeric (c :: cs) := by
  refine ⟨List.forall_mem_cons.2 ⟨hc, h.parts⟩, fun d hd => ?_⟩
  rw [List.getLast?_cons, List.getLast?_eq_some_getLast hcs] at hd
  exact h.last d (by rwa [List.getLast?_eq_some_getLast hcs])

theorem span {p : Char → Bool} (hp : ∀ c, p c = true → isNumberDigit c = true)
    {run rest : List Char} (h : cs.span p = (run, rest)) : IsNumeric run := by
  rw [List.span_eq_takeWhile_dropWhile] at h
  cases h
  have hdigits : ∀ c ∈ cs.takeWhile p, isNumberDigit c = true := fun c hc =>
    hp c (List.mem_takeWhile_imp hc)
  exact ⟨fun c hc => .inl (hdigits c hc), fun c hc => hdigits c (List.mem_of_getLast? hc)⟩

/-- A run of decimal digits. -/
theorem decimal {run rest : List Char} (h : cs.span Text.isDecimalDigit = (run, rest)) :
    IsNumeric run := span (fun c hc => by simp [isNumberDigit, hc]) h

end IsNumeric

theorem isNumeric_fractionPart (cs : List Char) : IsNumeric (fractionPart cs).1 := by
  unfold fractionPart
  split
  · split
    · exact .nil
    · next hne hspan =>
      exact (IsNumeric.decimal hspan).cons (.inr (by decide)) hne
  · exact .nil

theorem exponentSign_eq (cs : List Char) :
    (exponentSign cs).1 = [] ∨ (exponentSign cs).1 = ['+'] ∨ (exponentSign cs).1 = ['-'] := by
  unfold exponentSign
  split <;> simp

theorem isNumeric_exponentPart (cs : List Char) : IsNumeric (exponentPart cs).1 := by
  unfold exponentPart
  split
  · next e rest =>
    split
    · next he =>
      split
      next sign digits hsign =>
      have heq := exponentSign_eq rest
      rw [hsign] at heq
      split
      · exact .nil
      · next hne hspan =>
        have hdigits := IsNumeric.decimal hspan
        have hletter : isNumberDigit e = true ∨ e ∈ numberSigns := by
          rcases he with rfl | rfl <;> exact .inl rfl
        rcases heq with rfl | rfl | rfl
        · exact hdigits.cons hletter hne
        · exact (hdigits.cons (.inr (by decide)) hne).cons hletter (by simp)
        · exact (hdigits.cons (.inr (by decide)) hne).cons hletter (by simp)
    · exact .nil
  · exact .nil

theorem isNumeric_decimalNumber? {cs text rest : List Char}
    (h : decimalNumber? cs = some (text, rest)) : IsNumeric text := by
  unfold decimalNumber? at h
  split at h
  · cases h
  · next hspan =>
    cases h
    exact ((IsNumeric.decimal hspan).append (isNumeric_fractionPart _)).append
      (isNumeric_exponentPart _)

theorem isNumeric_negativeNumber? {cs text rest : List Char}
    (h : negativeNumber? cs = some (text, rest)) : IsNumeric text := by
  unfold negativeNumber? at h
  split at h
  · split at h
    · cases h
    · next hne hspan =>
      cases h
      exact ((IsNumeric.decimal hspan).cons (.inr (by decide)) hne).append
        (isNumeric_fractionPart _)
  · cases h

theorem isNumeric_hexNumber? {cs text rest : List Char}
    (h : hexNumber? cs = some (text, rest)) : IsNumeric text := by
  unfold hexNumber? at h
  split at h
  · split at h
    · next hx =>
      split at h
      · cases h
      · next hne hspan =>
        cases h
        have hdigits := IsNumeric.span (fun c hc => by simp [isNumberDigit, hc]) hspan
        refine (hdigits.cons ?_ hne).cons (.inl rfl) (by simp)
        rcases hx with rfl | rfl <;> exact .inr (by decide)
    · cases h
  · cases h

/-! ## Quoted literals -/

theorem getLast?_quotedTail? {quote : Char} {multiline : Bool} {cs body rest : List Char}
    (h : quotedTail? quote multiline cs = some (body, rest)) : body.getLast? = some quote := by
  fun_induction quotedTail? quote multiline cs generalizing body rest with
  | case1 => simp at h
  | case2 => simp at h
  | case3 c cs _ ih =>
    simp only [Option.map_eq_some_iff, Prod.exists] at h
    obtain ⟨body', rest', hread, h⟩ := h
    cases h
    have := ih hread
    rw [List.getLast?_cons, List.getLast?_cons, this]
    rfl
  | case4 => cases h; rfl
  | case5 => simp at h
  | case6 c cs _ _ _ ih =>
    simp only [Option.map_eq_some_iff, Prod.exists] at h
    obtain ⟨body', rest', hread, h⟩ := h
    cases h
    rw [List.getLast?_cons, ih hread]
    rfl

/-! ## The shapes of tokens -/

/-- **The text of a token**: characters of words and numbers, a literal with its quotes, or a
mark. -/
inductive Shape : Token → Prop
  | word (name : String) (h : IsAtom name.toList) : Shape (.word name)
  | number (text : String) (h : IsNumeric text.toList) : Shape (.number text)
  | negative (text : String) (h : IsNumeric text.toList) : Shape (.negative text)
  | string (c : Char) (body : List Char) (hc : c = '"' ∨ c = '\'')
      (h : quotedTail? c false body = some (body, [])) :
      Shape (.string (String.ofList (c :: body)))
  | template (body : List Char) (h : quotedTail? '`' true body = some (body, [])) :
      Shape (.template (String.ofList ('`' :: body)))
  | mark (m : Mark) : Shape (.mark m)

/-- Every token that is read has a shape. -/
theorem shape_of_read? {cs : List Char} {t : Token} (h : read? cs = some (t, [])) : Shape t := by
  unfold read? at h
  split at h
  · cases h
  next c tail =>
  split at h
  · next hstart =>
    obtain ⟨name, after, hspan⟩ : ∃ name after,
        tail.span Text.isIdentifierPart = (name, after) := ⟨_, _, rfl⟩
    simp only [hspan] at h
    cases h
    have hname := isAtom_span (fun _ => isAtomPart_of_isIdentifierPart) hspan
    have hc := isAtomPart_of_isIdentifierPart (Text.isIdentifierPart_of_isIdentifierStart hstart)
    exact .word _ (by simpa using IsAtom.cons hc hname)
  split at h
  · next hquote =>
    simp only [Option.map_eq_some_iff, Prod.exists] at h
    obtain ⟨body, rest', hread, h⟩ := h
    cases h
    obtain rfl : tail = body := by simpa using quotedTail?_eq_append hread
    exact .string c tail hquote hread
  split at h
  · next htemplate =>
    simp only [Option.map_eq_some_iff, Prod.exists] at h
    obtain ⟨body, rest', hread, h⟩ := h
    cases h
    obtain rfl : tail = body := by simpa using quotedTail?_eq_append hread
    subst htemplate
    exact .template tail hread
  split at h
  · simp only [Option.map_eq_some_iff, Prod.exists] at h
    obtain ⟨text', rest', hread, h⟩ := h
    cases h
    exact .negative _ (by simpa using isNumeric_negativeNumber? hread)
  split at h
  · simp only [Option.map_eq_some_iff, Prod.exists] at h
    obtain ⟨text', rest', hread, h⟩ := h
    cases h
    cases hhex : hexNumber? (c :: tail) with
    | some read =>
      rw [hhex] at hread
      cases hread
      exact .number _ (by simpa using isNumeric_hexNumber? hhex)
    | none =>
      rw [hhex] at hread
      exact .number _ (by simpa using isNumeric_decimalNumber? hread)
  · simp only [Option.map_eq_some_iff, Prod.exists] at h
    obtain ⟨m, rest', -, h⟩ := h
    cases h
    exact .mark m

/-- Words alone begin as identifiers do. -/
theorem isIdentifierStart_head? {t : Token} (h : t.Whole) (hword : ∀ name, t ≠ .word name) :
    ∀ c ∈ t.text.head?, Text.isIdentifierStart c = false := by
  intro c hc
  by_contra hstart
  rw [Bool.not_eq_false] at hstart
  obtain ⟨cs, hcs⟩ := List.head?_eq_some_iff.1 hc
  unfold Whole at h
  rw [hcs, read?] at h
  simp only [if_pos hstart, Option.some.injEq, Prod.mk.injEq] at h
  exact hword _ h.1.symm

theorem isBlank_eq_false_of_quoted {c d : Char} {body : List Char}
    (hbody : body.getLast? = some c) (hc : Text.isBlank c = false) :
    ∀ e ∈ (d :: body).getLast?, Text.isBlank e = false := by
  rw [List.getLast?_cons, hbody]
  rintro e he
  cases he
  exact hc

/-- **No token ends in a blank.** -/
theorem Shape.isBlank_getLast? {t : Token} (h : Shape t) :
    ∀ c ∈ t.text.getLast?, Text.isBlank c = false := by
  cases h with
  | word name h => exact h.isBlank_getLast?
  | number text h => exact h.isAtom.isBlank_getLast?
  | negative text h => exact h.isAtom.isBlank_getLast?
  | string c body hc h =>
    have hblank : Text.isBlank c = false := by rcases hc with rfl | rfl <;> rfl
    simpa [text] using isBlank_eq_false_of_quoted (getLast?_quotedTail? h) hblank
  | template body h =>
    simpa [text] using isBlank_eq_false_of_quoted (getLast?_quotedTail? h) rfl
  | mark m => cases m <;> (rintro c hc; cases hc; rfl)

/-- **No token begins with a blank.** -/
theorem read?_of_isBlank {c : Char} (h : Text.isBlank c = true) (cs : List Char) :
    read? (c :: cs) = none := by
  have hcodes := Text.mem_blankCodes h
  have hstart : Text.isIdentifierStart c = false := by
    by_contra hs
    rw [Bool.not_eq_false] at hs
    rw [Text.isBlank_eq_false_of_isIdentifierPart
      (Text.isIdentifierPart_of_isIdentifierStart hs)] at h
    cases h
  have hdigit : Text.isDecimalDigit c = false := by
    by_contra hd
    rw [Bool.not_eq_false] at hd
    rw [Text.isBlank_eq_false_of_isDecimalDigit hd] at h
    cases h
  have hne : ∀ d : Char, Text.isBlank d = false → c ≠ d := by
    rintro d hd rfl
    rw [h] at hd
    cases hd
  have hmark : readMark? (c :: cs) = none := by
    unfold readMark?
    split
    · next heq => exact absurd (List.cons.inj heq).1 (hne '.' rfl)
    · next heq => exact absurd (List.cons.inj heq).1 (hne '=' rfl)
    · next heq =>
      obtain ⟨rfl, rfl⟩ := List.cons.inj heq
      split <;> first | exact absurd h (by decide) | rfl
    · rfl
  unfold read?
  simp [hstart, hdigit, hmark, hne '"' rfl, hne '\'' rfl, hne '`' rfl, hne '-' rfl]

/-! ## In front of other text -/

/-- A run that ends before the end of the text, or before a character it cannot take, is the same
in front of other text. -/
theorem span_append_of_stop {α : Type} {p : α → Bool} {cs run left rest : List α}
    (h : cs.span p = (run, left)) (hstop : left = [] → ∀ c ∈ rest.head?, p c = false) :
    (cs ++ rest).span p = (run, left ++ rest) := by
  rw [List.span_eq_takeWhile_dropWhile] at h ⊢
  simp only [Prod.mk.injEq] at h ⊢
  obtain ⟨rfl, rfl⟩ := h
  rw [List.takeWhile_append, List.dropWhile_append]
  by_cases hall : cs.dropWhile p = []
  · have hrest : rest.takeWhile p = [] ∧ rest.dropWhile p = rest := by
      cases rest with
      | nil => exact ⟨rfl, rfl⟩
      | cons c rest =>
        have := hstop hall c rfl
        exact ⟨List.takeWhile_cons_of_neg (by simp [this]),
          List.dropWhile_cons_of_neg (by simp [this])⟩
    have hfull : cs.takeWhile p = cs := by
      have := List.takeWhile_append_dropWhile (p := p) (l := cs)
      rwa [hall, List.append_nil] at this
    simp [hall, hfull, hrest]
  · have hshort : (cs.takeWhile p).length ≠ cs.length := by
      intro hlen
      have := congrArg List.length (List.takeWhile_append_dropWhile (p := p) (l := cs))
      rw [List.length_append, hlen] at this
      exact hall (List.eq_nil_of_length_eq_zero (by omega))
    simp [hall, hshort]

theorem quotedTail?_append {quote : Char} {multiline : Bool} {cs body left : List Char}
    (rest : List Char) (hquote : quote ≠ '\\') (h : quotedTail? quote multiline cs = some (body, left)) :
    quotedTail? quote multiline (cs ++ rest) = some (body, left ++ rest) := by
  fun_induction quotedTail? quote multiline cs generalizing body left with
  | case1 => simp at h
  | case2 => simp at h
  | case3 c cs hc ih =>
    simp only [Option.map_eq_some_iff, Prod.exists] at h
    obtain ⟨body', left', hread, h⟩ := h
    cases h
    simp [quotedTail?, hc, ih hread]
  | case4 cs =>
    cases h
    rw [List.cons_append, quotedTail?]
    · simp
    · rintro c rest' rfl
      exact absurd rfl hquote
  | case5 => simp at h
  | case6 c cs _ hc hstop ih =>
    simp only [Option.map_eq_some_iff, Prod.exists] at h
    obtain ⟨body', left', hread, h⟩ := h
    cases h
    rw [List.cons_append, quotedTail?]
    · simp only [hc, if_false, hstop, ih hread, Option.map_some]
    · rintro c rest' rfl
      exact absurd (.inl rfl) hstop

/-- Nothing that carries a number on. -/
def EndsNumber (rest : List Char) : Prop :=
  ∀ c ∈ rest.head?, Text.isIdentifierPart c = false ∧ Text.isDecimalDigit c = false ∧ c ≠ '.'

theorem EndsNumber.isDecimalDigit {rest : List Char} (h : EndsNumber rest) :
    ∀ c ∈ rest.head?, Text.isDecimalDigit c = false := fun c hc => (h c hc).2.1

theorem fractionPart_of_endsNumber {rest : List Char} (h : EndsNumber rest) :
    fractionPart rest = ([], rest) := by
  unfold fractionPart
  split
  · exact absurd rfl (h '.' rfl).2.2
  · rfl

theorem fractionPart_append {cs fraction left rest : List Char} (hrest : EndsNumber rest)
    (h : fractionPart cs = (fraction, left)) :
    fractionPart (cs ++ rest) = (fraction, left ++ rest) := by
  cases cs with
  | nil =>
    cases h
    exact fractionPart_of_endsNumber hrest
  | cons c cs =>
    by_cases hc : c = '.'
    · subst hc
      obtain ⟨digits, after, hspan⟩ : ∃ digits after,
          cs.span Text.isDecimalDigit = (digits, after) := ⟨_, _, rfl⟩
      have happend := @span_append_of_stop _ _ _ _ _ rest hspan fun _ => hrest.isDecimalDigit
      simp only [fractionPart, List.cons_append, hspan, happend] at h ⊢
      cases digits <;> (cases h; rfl)
    · have hplain : ∀ tail, fractionPart (c :: tail) = ([], c :: tail) := by
        intro tail
        unfold fractionPart
        split
        · next heq => cases heq; exact absurd rfl hc
        · rfl
      rw [hplain] at h
      cases h
      exact hplain _

theorem exponentPart_of_endsNumber {rest : List Char} (h : EndsNumber rest) :
    exponentPart rest = ([], rest) := by
  unfold exponentPart
  split
  · next e tail =>
    have hpart := (h e rfl).1
    rw [if_neg]
    rintro (rfl | rfl) <;> exact absurd hpart (by decide)
  · rfl

theorem exponentSign_append {cs : List Char} (rest : List Char) (h : cs ≠ []) :
    exponentSign (cs ++ rest) = ((exponentSign cs).1, (exponentSign cs).2 ++ rest) := by
  obtain ⟨c, cs, rfl⟩ := List.exists_cons_of_ne_nil h
  unfold exponentSign
  rw [List.cons_append]
  split
  · next heq => cases heq; rfl
  · next heq => cases heq; rfl
  · next hplus hminus =>
    split
    · next heq => cases heq; exact absurd rfl (hplus _)
    · next heq => cases heq; exact absurd rfl (hminus _)
    · rfl

/-- An exponent that takes up the whole text. -/
theorem exponentPart_append {cs exponent rest : List Char} (hrest : EndsNumber rest)
    (h : exponentPart cs = (exponent, [])) : exponentPart (cs ++ rest) = (exponent, rest) := by
  cases cs with
  | nil =>
    cases h
    exact exponentPart_of_endsNumber hrest
  | cons e cs =>
    unfold exponentPart at h
    rw [List.cons_append, exponentPart]
    dsimp only at h ⊢
    split at h
    · next he =>
      rw [if_pos he]
      cases hcs : cs with
      | nil => rw [hcs] at h; cases h
      | cons c tail =>
        rw [← hcs, exponentSign_append rest (by simp [hcs])]
        obtain ⟨digits, after, hspan⟩ : ∃ digits after,
            (exponentSign cs).2.span Text.isDecimalDigit = (digits, after) := ⟨_, _, rfl⟩
        have happend := @span_append_of_stop _ _ _ _ _ rest hspan fun _ => hrest.isDecimalDigit
        simp only [hspan, happend] at h ⊢
        cases digits with
        | nil => cases h
        | cons d ds => cases h; rfl
    · cases h

theorem decimalNumber?_append {cs text rest : List Char} (hrest : EndsNumber rest)
    (h : decimalNumber? cs = some (text, [])) :
    decimalNumber? (cs ++ rest) = some (text, rest) := by
  obtain ⟨digits, after, hspan⟩ : ∃ digits after,
      cs.span Text.isDecimalDigit = (digits, after) := ⟨_, _, rfl⟩
  have happend := @span_append_of_stop _ _ _ _ _ rest hspan fun _ => hrest.isDecimalDigit
  unfold decimalNumber? at h ⊢
  simp only [hspan, happend] at h ⊢
  cases digits with
  | nil => cases h
  | cons d ds =>
    obtain ⟨fraction, left, hfraction⟩ : ∃ fraction left,
        fractionPart after = (fraction, left) := ⟨_, _, rfl⟩
    obtain ⟨exponent, left', hexponent⟩ : ∃ exponent left',
        exponentPart left = (exponent, left') := ⟨_, _, rfl⟩
    simp only [hfraction, hexponent, fractionPart_append hrest hfraction] at h ⊢
    cases h
    rw [exponentPart_append hrest hexponent]

theorem negativeNumber?_append {cs text rest : List Char} (hrest : EndsNumber rest)
    (h : negativeNumber? cs = some (text, [])) :
    negativeNumber? (cs ++ rest) = some (text, rest) := by
  unfold negativeNumber? at h
  split at h
  · next tail =>
    obtain ⟨digits, after, hspan⟩ : ∃ digits after,
        tail.span Text.isDecimalDigit = (digits, after) := ⟨_, _, rfl⟩
    have happend := @span_append_of_stop _ _ _ _ _ rest hspan fun _ => hrest.isDecimalDigit
    rw [List.cons_append, negativeNumber?]
    simp only [hspan, happend] at h ⊢
    cases digits with
    | nil => cases h
    | cons d ds =>
      obtain ⟨fraction, left, hfraction⟩ : ∃ fraction left,
          fractionPart after = (fraction, left) := ⟨_, _, rfl⟩
      simp only [hfraction, fractionPart_append hrest hfraction] at h ⊢
      cases h
      rfl
  · cases h

theorem hexNumber?_append {cs text rest : List Char} (hrest : EndsNumber rest)
    (h : hexNumber? cs = some (text, [])) : hexNumber? (cs ++ rest) = some (text, rest) := by
  have hstop : ∀ c ∈ rest.head?, isHexDigit c = false := by
    intro c hc
    by_contra hhex
    rw [Bool.not_eq_false] at hhex
    have := (hrest c hc).1
    rw [isIdentifierPart_of_isHexDigit hhex] at this
    cases this
  unfold hexNumber? at h
  split at h
  · next x tail =>
    split at h
    · next hx =>
      obtain ⟨digits, after, hspan⟩ : ∃ digits after,
          tail.span isHexDigit = (digits, after) := ⟨_, _, rfl⟩
      have happend := @span_append_of_stop _ _ _ _ _ rest hspan fun _ => hstop
      rw [List.cons_append, List.cons_append, hexNumber?]
      simp only [hspan, happend, if_pos hx] at h ⊢
      cases digits with
      | nil => cases h
      | cons d ds => cases h; rfl
    · cases h
  · cases h

/-- A number that is not hexadecimal stays so in front of other text. -/
theorem hexNumber?_append_eq_none {cs text rest : List Char} (hrest : EndsNumber rest)
    (hhex : hexNumber? cs = none) (h : decimalNumber? cs = some (text, [])) :
    hexNumber? (cs ++ rest) = none := by
  unfold hexNumber?
  split
  · next x tail heq =>
    rw [if_neg]
    intro hx
    match cs, heq with
    | [], heq => cases h
    | [_], heq =>
      -- the `x` would carry the number on
      cases heq
      have := (hrest x rfl).1
      rcases hx with rfl | rfl <;> exact absurd this (by decide)
    | _ :: _ :: digits, heq =>
      cases heq
      -- a decimal number ends before the `x`
      rcases hx with rfl | rfl <;> cases h
  · rfl

theorem readMark?_append {cs rest : List Char} {m : Mark} (h : readMark? cs = some (m, []))
    (hrest : ∀ c ∈ rest.head?, extendsWith (.mark m) c = false) :
    readMark? (cs ++ rest) = some (m, rest) := by
  have hcs := readMark?_eq_append h
  rw [List.append_nil] at hcs
  subst hcs
  cases m with
  | dot =>
    match rest with
    | [] => rfl
    | c :: rest =>
      have hc : c ≠ '.' := by simpa [extendsWith] using hrest c rfl
      rw [Mark.text, List.singleton_append, readMark?]
      · rintro rest' - heq
        exact hc (List.cons.inj heq).1
      · simp
  | _ => rfl

theorem endsNumber_of_extendsWith {text : String} {rest : List Char}
    (h : ∀ c ∈ rest.head?, extendsWith (.number text) c = false) : EndsNumber rest := by
  intro c hc
  simpa [extendsWith, and_assoc] using h c hc

/-- **A token that can be read by itself is read off the front** of a text that does not carry it
on. -/
theorem read?_text_append {t : Token} {rest : List Char} (h : t.Whole)
    (hrest : ∀ c ∈ rest.head?, t.extendsWith c = false) :
    read? (t.text ++ rest) = some (t, rest) := by
  unfold Whole at h
  generalize t.text = cs at h
  cases cs with
  | nil => cases h
  | cons c tail =>
    rw [List.cons_append]
    unfold read? at h ⊢
    dsimp only at h ⊢
    split at h
    · next hstart =>
      rw [if_pos hstart]
      obtain ⟨name, after, hspan⟩ : ∃ name after,
          tail.span Text.isIdentifierPart = (name, after) := ⟨_, _, rfl⟩
      simp only [hspan] at h
      cases h
      have happend := @span_append_of_stop _ _ _ _ _ rest hspan fun _ => hrest
      simp only [happend, List.nil_append]
    next hstart =>
    rw [if_neg hstart]
    split at h
    · next hquote =>
      rw [if_pos hquote]
      simp only [Option.map_eq_some_iff, Prod.exists] at h
      obtain ⟨body, left, hread, h⟩ := h
      cases h
      have hc : c ≠ '\\' := by rintro rfl; revert hquote; decide
      rw [quotedTail?_append rest hc hread]
      rfl
    next hquote =>
    rw [if_neg hquote]
    split at h
    · next htemplate =>
      rw [if_pos htemplate]
      simp only [Option.map_eq_some_iff, Prod.exists] at h
      obtain ⟨body, left, hread, h⟩ := h
      cases h
      have hc : c ≠ '\\' := by rintro rfl; revert htemplate; decide
      rw [quotedTail?_append rest hc hread]
      rfl
    next htemplate =>
    rw [if_neg htemplate]
    split at h
    · next hminus =>
      rw [if_pos hminus]
      simp only [Option.map_eq_some_iff, Prod.exists] at h
      obtain ⟨text, left, hread, h⟩ := h
      cases h
      rw [← List.cons_append, negativeNumber?_append (@endsNumber_of_extendsWith "" rest hrest) hread]
      rfl
    next hminus =>
    rw [if_neg hminus]
    split at h
    · next hdigit =>
      rw [if_pos hdigit]
      simp only [Option.map_eq_some_iff, Prod.exists] at h
      obtain ⟨text, left, hread, h⟩ := h
      cases h
      have hends := @endsNumber_of_extendsWith "" rest hrest
      rw [← List.cons_append]
      cases hhex : hexNumber? (c :: tail) with
      | some read =>
        rw [hhex] at hread
        cases hread
        rw [hexNumber?_append hends hhex]
        rfl
      | none =>
        rw [hhex] at hread
        rw [hexNumber?_append_eq_none hends hhex hread]
        change Option.map _ (decimalNumber? (c :: tail ++ rest)) = _
        rw [decimalNumber?_append hends hread]
        rfl
    next hdigit =>
    rw [if_neg hdigit]
    simp only [Option.map_eq_some_iff, Prod.exists] at h
    obtain ⟨m, left, hread, h⟩ := h
    cases h
    rw [← List.cons_append, readMark?_append hread hrest]
    rfl

end Token

end FluentBuilders
