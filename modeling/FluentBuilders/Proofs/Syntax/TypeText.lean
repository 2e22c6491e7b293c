import FluentBuilders.Proofs.Syntax.Spelling

/-!
# Proofs/Syntax/TypeText — the text of a type

A spelled type is read back from every text that its tokens can be laid out to, with any blanks and
comments between and around them (`TypeNode.Spellable.parseType`).
-/

namespace FluentBuilders

namespace Token

/-! ## Tokens that can be read by themselves -/

theorem whole_mark (m : Mark) : (Token.mark m).Whole := by
  cases m <;> rfl

theorem whole_word {name : String} (h : isAsciiName name) : (Token.word name).Whole := by
  change read? name.toList = some (word name, [])
  unfold isAsciiName at h
  rw [← @String.ofList_toList name]
  rw [String.toList_ofList]
  cases hname : name.toList with
  | nil => rw [hname] at h; cases h
  | cons c cs =>
    rw [hname, Text.isNameOver, Bool.and_eq_true, List.all_eq_true] at h
    have hspan : cs.span Text.isIdentifierPart = (cs, []) := by
      rw [List.span_eq_takeWhile_dropWhile, List.takeWhile_eq_self_iff.2 h.2,
        List.dropWhile_eq_nil_iff.2 h.2]
    simp only [read?, if_pos h.1, hspan]

/-- A word that can be read by itself is an identifier. -/
theorem isAsciiName_of_whole {name : String} (h : (Token.word name).Whole) : isAsciiName name := by
  change read? name.toList = some (word name, []) at h
  unfold isAsciiName
  cases hname : name.toList with
  | nil =>
    rw [hname] at h
    cases h
  | cons c cs =>
    have hstart : Text.isIdentifierStart c = true := by
      by_contra hstart
      rw [hname, read?] at h
      simp only [if_neg hstart] at h
      split at h
      · simp at h
      · split at h
        · simp at h
        · split at h
          · simp at h
          · split at h <;> simp at h
    rw [hname, read?] at h
    simp only [if_pos hstart, Option.some.injEq, Prod.mk.injEq] at h
    rw [Text.isNameOver, hstart, Bool.true_and, List.all_eq_true]
    rw [List.span_eq_takeWhile_dropWhile] at h
    exact List.dropWhile_eq_nil_iff.1 h.2

theorem quotedTail?_escapeInType (cs : List Char) :
    quotedTail? '"' false (cs.flatMap Text.escapeInType ++ ['"']) =
      some (cs.flatMap Text.escapeInType ++ ['"'], []) := by
  induction cs with
  | nil => rfl
  | cons c cs ih =>
    by_cases hb : c = '\\'
    · subst hb
      simp [Text.escapeInType, quotedTail?, ih]
    by_cases hq : c = '"'
    · subst hq
      simp [Text.escapeInType, quotedTail?, ih]
    by_cases hn : c = '\n'
    · subst hn
      simp [Text.escapeInType, quotedTail?, ih]
    · have he : Text.escapeInType c = [c] := by
        unfold Text.escapeInType
        split <;> simp_all
      rw [List.flatMap_cons, he, List.append_assoc, List.singleton_append, quotedTail?]
      · simp [hb, hq, hn, ih]
      · rintro d rest rfl
        exact absurd rfl hb

theorem whole_typeLiteral (text : String) : (Token.string (Text.typeLiteral text)).Whole := by
  change read? (Text.typeLiteral text).toList = some (string (Text.typeLiteral text), [])
  rw [Text.toList_typeLiteral]
  have hquote : Text.isIdentifierStart '"' = false := by decide
  simp only [read?, hquote, quotedTail?_escapeInType, Bool.false_eq_true, if_false, true_or,
    if_true, Option.map_some]
  rw [← Text.toList_typeLiteral, String.ofList_toList]

end Token

open Grammar

/-- **Every token of a spelling can be read by itself.** -/
theorem TypeNode.Spellable.whole {ok : String → Prop} (hok : ∀ n, ok n → isAsciiName n)
    {t : TypeNode} (h : t.Spellable ok) : ∀ x ∈ t.tokens, x.Whole :=
  h.forall_tokens Token.whole_mark
    (fun w hw => Token.whole_word (by revert w; decide))
    (fun n hn => Token.whole_word (hok n hn)) Token.whole_typeLiteral (fun _ h => h) (fun _ h => h)

/-- **A phrase is read from its text**, whatever blanks and comments stand in it. -/
theorem parseType_text {ts : List Token} {t : TypeNode} (h : Derives .type ts t none) (gap : Gap)
    {l : Layout} (hts : l.lexemes = ts.map .token) (hfits : l.Fits []) :
    parseType (gap.text ++ l.text) = t := by
  unfold parseType
  simp only [Token.scan?_trim gap hts hfits, Option.bind_some, typeOfTokens?_eq_some_iff.2 h]

/-- **A spelled type is read back from its text.** -/
theorem TypeNode.Spellable.parseType {ok : String → Prop}
    (hok : ∀ n, ok n → isAsciiName n ∧ isNameAtType n) {t : TypeNode} (h : t.Spellable ok)
    (gap : Gap) {l : Layout} (hts : l.lexemes = t.tokens.map .token) (hapart : l.Apart []) :
    parseType (gap.text ++ l.text) = t := by
  refine parseType_text (h.readsBack (fun n hn => (hok n hn).2) none (by simp [EndsType])) gap hts
    (hapart.fits ?_)
  rw [hts, List.forall_mem_map]
  exact h.whole fun n hn => (hok n hn).1

end FluentBuilders
