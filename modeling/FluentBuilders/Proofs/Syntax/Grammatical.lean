import FluentBuilders.Proofs.Syntax.Formed

/-!
# Proofs/Syntax/Grammatical — types that the grammar can write

A token that is read can be read by itself (`Token.whole_of_read?`).  So a type that is read from a
text is **grammatical** throughout: each of its names, numbers and templates can stand where it does
(`grammatical_parseType`).
-/

namespace FluentBuilders

/-! ## Tokens by themselves -/

namespace Token

variable {cs text rest after : List Char}

/-- What a run takes off a text, it takes off every text that goes on with something else. -/
theorem span_taken {p : Char → Bool} (h : cs.span p = (text, rest))
    (hafter : ∀ c ∈ after.head?, p c = false) : (text ++ after).span p = (text, after) := by
  have htext : text.span p = (text, []) := by
    rw [List.span_eq_takeWhile_dropWhile, Prod.mk.injEq] at h
    obtain ⟨rfl, -⟩ := h
    rw [List.span_eq_takeWhile_dropWhile, List.takeWhile_eq_self_iff.2 fun c hc => List.mem_takeWhile_imp hc,
      List.dropWhile_eq_nil_iff.2 fun c hc => List.mem_takeWhile_imp hc]
  simpa using span_append_of_stop htext fun _ => hafter

theorem fractionPart_taken (h : fractionPart cs = (text, rest))
    (hafter : ∀ c ∈ after.head?, Text.isDecimalDigit c = false ∧ c ≠ '.') :
    fractionPart (text ++ after) = (text, after) := by
  have hnone : fractionPart after = ([], after) := by
    unfold fractionPart
    split
    · exact absurd rfl (hafter '.' rfl).2
    · rfl
  unfold fractionPart at h
  split at h
  · next left =>
    obtain ⟨digits, others, hspan⟩ : ∃ digits others,
        left.span Text.isDecimalDigit = (digits, others) := ⟨_, _, rfl⟩
    rw [hspan] at h
    cases digits with
    | nil =>
      cases h
      exact hnone
    | cons d ds =>
      cases h
      rw [List.cons_append, fractionPart, span_taken hspan fun c hc => (hafter c hc).1]
  · cases h
    exact hnone

/-- A fraction begins with its point. -/
theorem fractionPart_head? (h : fractionPart cs = (text, rest)) :
    ∀ c ∈ text.head?, Text.isDecimalDigit c = false := by
  unfold fractionPart at h
  split at h
  · split at h
    · cases h
      simp
    · cases h
      rintro c ⟨⟩
      decide
  · cases h
    simp

theorem exponentPart_taken (h : exponentPart cs = (text, rest)) :
    exponentPart text = (text, []) := by
  unfold exponentPart at h
  split at h
  · next e tail =>
    split at h
    · next he =>
      obtain ⟨sign, left, hsign⟩ : ∃ sign left, exponentSign tail = (sign, left) := ⟨_, _, rfl⟩
      obtain ⟨digits, others, hspan⟩ : ∃ digits others,
          left.span Text.isDecimalDigit = (digits, others) := ⟨_, _, rfl⟩
      rw [hsign] at h
      dsimp only at h
      rw [hspan] at h
      cases digits with
      | nil =>
        cases h
        rfl
      | cons d ds =>
        cases h
        have hdigits := @span_taken _ _ _ [] _ hspan (by simp)
        rw [List.append_nil] at hdigits
        have hd : Text.isDecimalDigit d = true := by
          have hmem : d ∈ (d :: ds).takeWhile Text.isDecimalDigit := by
            rw [List.span_eq_takeWhile_dropWhile, Prod.mk.injEq] at hdigits
            rw [hdigits.1]
            exact List.mem_cons_self
          exact List.mem_takeWhile_imp hmem
        have hsigned : exponentSign (sign ++ d :: ds) = (sign, d :: ds) := by
          unfold exponentSign at hsign
          split at hsign
          · cases hsign
            rfl
          · cases hsign
            rfl
          · cases hsign
            rw [List.nil_append, exponentSign]
            · rintro tail heq
              cases heq
              exact absurd hd (by decide)
            · rintro tail heq
              cases heq
              exact absurd hd (by decide)
        rw [List.cons_append, exponentPart, if_pos he, hsigned]
        dsimp only
        rw [hdigits]
        rfl
    · cases h
      rfl
  · cases h
    rfl

/-- What an exponent begins with carries no fraction on. -/
theorem exponentPart_head? (h : exponentPart cs = (text, rest)) :
    ∀ c ∈ text.head?, Text.isDecimalDigit c = false ∧ c ≠ '.' := by
  have hletters : ∀ c ∈ ['e', 'E'], Text.isDecimalDigit c = false ∧ c ≠ '.' := by decide
  unfold exponentPart at h
  split at h
  · next e tail =>
    split at h
    · next he =>
      obtain ⟨digits, others, hspan⟩ : ∃ digits others,
          (exponentSign tail).2.span Text.isDecimalDigit = (digits, others) := ⟨_, _, rfl⟩
      dsimp only at h
      rw [hspan] at h
      cases digits with
      | nil =>
        cases h
        simp
      | cons d ds =>
        cases h
        rintro c ⟨⟩
        exact hletters e (by simpa using he)
    · cases h
      simp
  · cases h
    simp

theorem decimalNumber?_taken (h : decimalNumber? cs = some (text, rest)) :
    decimalNumber? text = some (text, []) := by
  obtain ⟨whole, left, hspan⟩ : ∃ whole left,
      cs.span Text.isDecimalDigit = (whole, left) := ⟨_, _, rfl⟩
  obtain ⟨fraction, left', hfraction⟩ : ∃ fraction left',
      fractionPart left = (fraction, left') := ⟨_, _, rfl⟩
  obtain ⟨exponent, left'', hexponent⟩ : ∃ exponent left'',
      exponentPart left' = (exponent, left'') := ⟨_, _, rfl⟩
  rw [decimalNumber?, hspan] at h
  cases whole with
  | nil => cases h
  | cons d ds =>
    dsimp only at h
    rw [hfraction] at h
    dsimp only at h
    rw [hexponent] at h
    cases h
    have hafter := exponentPart_head? hexponent
    have hstop : ∀ c ∈ (fraction ++ exponent).head?, Text.isDecimalDigit c = false := by
      cases fraction with
      | nil => exact fun c hc => (hafter c hc).1
      | cons f fs =>
        rintro c ⟨⟩
        exact fractionPart_head? hfraction f rfl
    rw [decimalNumber?, List.append_assoc, span_taken hspan hstop]
    dsimp only
    rw [fractionPart_taken hfraction hafter]
    dsimp only
    rw [exponentPart_taken hexponent]
    simp

theorem negativeNumber?_taken (h : negativeNumber? cs = some (text, rest)) :
    negativeNumber? text = some (text, []) := by
  unfold negativeNumber? at h
  split at h
  · next tail =>
    obtain ⟨whole, left, hspan⟩ : ∃ whole left,
        tail.span Text.isDecimalDigit = (whole, left) := ⟨_, _, rfl⟩
    obtain ⟨fraction, left', hfraction⟩ : ∃ fraction left',
        fractionPart left = (fraction, left') := ⟨_, _, rfl⟩
    rw [hspan] at h
    cases whole with
    | nil => cases h
    | cons d ds =>
      dsimp only at h
      rw [hfraction] at h
      cases h
      have hstop : ∀ c ∈ fraction.head?, Text.isDecimalDigit c = false :=
        fractionPart_head? hfraction
      rw [List.cons_append, negativeNumber?, span_taken hspan hstop]
      dsimp only
      have htaken := @fractionPart_taken _ _ _ [] hfraction (by simp)
      rw [List.append_nil] at htaken
      rw [htaken]
      rfl
  · cases h

theorem hexNumber?_taken (h : hexNumber? cs = some (text, rest)) :
    hexNumber? text = some (text, []) := by
  unfold hexNumber? at h
  split at h
  · next x tail =>
    split at h
    · next hx =>
      obtain ⟨digits, left, hspan⟩ : ∃ digits left, tail.span isHexDigit = (digits, left) :=
        ⟨_, _, rfl⟩
      rw [hspan] at h
      cases digits with
      | nil => cases h
      | cons d ds =>
        cases h
        have htaken := @span_taken _ _ _ [] _ hspan (by simp)
        rw [List.append_nil] at htaken
        rw [hexNumber?, if_pos hx, htaken]
    · cases h
  · cases h

/-- A text that is no hexadecimal number begins with none. -/
theorem hexNumber?_eq_none_of_append (h : hexNumber? (text ++ rest) = none) :
    hexNumber? text = none := by
  cases hread : hexNumber? text with
  | none => rfl
  | some read =>
    unfold hexNumber? at hread
    split at hread
    · next x tail =>
      split at hread
      · next hx =>
        obtain ⟨digits, left, hspan⟩ : ∃ digits left, tail.span isHexDigit = (digits, left) :=
          ⟨_, _, rfl⟩
        rw [hspan] at hread
        cases digits with
        | nil => cases hread
        | cons d ds =>
          rw [List.span_eq_takeWhile_dropWhile, Prod.mk.injEq] at hspan
          have hd : d ∈ tail.takeWhile isHexDigit := hspan.1 ▸ List.mem_cons_self
          obtain ⟨digits, left, hlonger⟩ : ∃ digits left,
              (tail ++ rest).span isHexDigit = (digits, left) := ⟨_, _, rfl⟩
          rw [List.cons_append, List.cons_append, hexNumber?, if_pos hx, hlonger] at h
          cases digits with
          | cons => cases h
          | nil =>
            rw [List.span_eq_takeWhile_dropWhile, Prod.mk.injEq] at hlonger
            cases tail with
            | nil => cases hd
            | cons c tail =>
              have hc : isHexDigit c = true := by
                rw [List.takeWhile_cons] at hd
                split at hd
                · assumption
                · cases hd
              rw [List.cons_append, List.takeWhile_cons_of_pos hc] at hlonger
              cases hlonger.1
      · cases hread
    · cases hread

/-- **A token that is read can be read by itself.** -/
theorem whole_of_read? {t : Token} (h : read? cs = some (t, rest)) : t.Whole := by
  have hwritten := written_of_read? h
  have hsplit := eq_text_append_of_read? h
  have hne := text_ne_nil_of_read? h
  unfold read? at h
  split at h
  · cases h
  next c tail =>
  have hfirst : ∀ number, c :: tail = number ++ rest → number ≠ [] → ∃ others, number = c :: others := by
    intro number hnumber hne
    obtain ⟨d, ds, rfl⟩ := List.exists_cons_of_ne_nil hne
    cases hnumber
    exact ⟨ds, rfl⟩
  split at h
  · cases h
    exact whole_word hwritten
  next hstart =>
  split at h
  · next hquote =>
    simp only [Option.map_eq_some_iff, Prod.exists] at h
    obtain ⟨body, rest', hread, h⟩ := h
    cases h
    rw [Whole, text, String.toList_ofList, read?]
    simp only [if_neg hstart, if_pos hquote, quotedTail?_self hread]
    rfl
  next hquote =>
  split at h
  · next hback =>
    simp only [Option.map_eq_some_iff, Prod.exists] at h
    obtain ⟨body, rest', hread, h⟩ := h
    cases h
    rw [Whole, text, String.toList_ofList, read?]
    simp only [if_neg hstart, if_neg hquote, if_pos hback, quotedTail?_self hread]
    rfl
  next hback =>
  split at h
  · next hminus =>
    simp only [Option.map_eq_some_iff, Prod.exists] at h
    obtain ⟨number, rest', hread, h⟩ := h
    cases h
    have htaken := negativeNumber?_taken hread
    obtain ⟨others, rfl⟩ := hfirst number (by simpa [text] using hsplit) (by simpa [text] using hne)
    rw [Whole, text, String.toList_ofList, read?]
    simp only [if_neg hstart, if_neg hquote, if_neg hback, if_pos hminus, htaken]
    rfl
  next hminus =>
  split at h
  · next hdigit =>
    simp only [Option.map_eq_some_iff, Prod.exists] at h
    obtain ⟨number, rest', hread, h⟩ := h
    cases h
    have hnumber : c :: tail = number ++ rest := by simpa [text] using hsplit
    obtain ⟨others, rfl⟩ := hfirst number hnumber (by simpa [text] using hne)
    have hself : ((hexNumber? (c :: others)).orElse fun _ => decimalNumber? (c :: others)) =
        some (c :: others, []) := by
      cases hhex : hexNumber? (c :: tail) with
      | some read =>
        rw [hhex] at hread
        cases hread
        rw [hexNumber?_taken hhex]
        rfl
      | none =>
        rw [hhex] at hread
        rw [hnumber] at hhex
        rw [hexNumber?_eq_none_of_append hhex]
        exact decimalNumber?_taken hread
    rw [Whole, text, String.toList_ofList, read?]
    simp only [if_neg hstart, if_neg hquote, if_neg hback, if_neg hminus, if_pos hdigit, hself]
    rfl
  · simp only [Option.map_eq_some_iff, Prod.exists] at h
    obtain ⟨m, rest', -, h⟩ := h
    cases h
    exact whole_mark m

theorem whole_of_scanWithin? {fuel : Nat} {ts : List Token} (h : scanWithin? fuel cs = some ts) :
    ∀ t ∈ ts, t.Whole := by
  induction fuel generalizing cs ts with
  | zero => cases h
  | succ fuel ih =>
    unfold scanWithin? at h
    split at h
    · cases h
      exact List.forall_mem_nil _
    · exact ih h
    · split at h
      · cases h
      · exact ih h
    · split at h
      · exact ih h
      split at h
      · cases h
      · next hread =>
        obtain ⟨others, hothers, rfl⟩ := Option.map_eq_some_iff.1 h
        exact List.forall_mem_cons.2 ⟨whole_of_read? hread, ih hothers⟩

end Token

/-! ## Types -/

open Grammar

/-- **A type that the grammar can write**, apart from the types that it is made of. -/
def TypeNode.IsGrammatical : TypeNode → Prop
  | .reference name _ => DottedBy (isAsciiName ·) name ∧
      ∀ first ∈ (nameParts name).head?, isNameAtType first = true
  | .imported _ name _ | .query name => DottedBy (isAsciiName ·) name
  | .literal .string _ => True
  | .literal .number text => (Token.number text).Whole ∨ (Token.negative text).Whole
  | .literal .template text => (Token.template text).Whole
  | .union members | .intersection members => 2 ≤ members.length
  | .tuple elements => ∀ e ∈ elements, ∀ w ∈ e.name?, isAsciiName w = true ∧ isNameAtType w = true
  | .function parameters _ =>
    OpensParameters parameters ∧ ∀ p ∈ parameters, isAsciiName p.name = true
  | .operator .unique operand => ∃ name, operand = .reference name []
  | .object members => ∀ m ∈ members, ∀ w ∈ m.words, isAsciiName w = true
  | .raw _ => False
  | _ => True

/-- **A type that the grammar can write**, and so is every type inside it. -/
def TypeNode.Grammatical (t : TypeNode) : Prop := t.Throughout IsGrammatical

namespace Grammar

theorem dottedBy_dotted_of_whole {name : String} {parts : List String}
    (hname : (Token.word name).Whole) (hparts : ∀ t ∈ dottedTokens parts, t.Whole) :
    nameParts (dotted name parts) = name :: parts ∧ DottedBy (isAsciiName ·) (dotted name parts) := by
  have hwords := forall_dotted (fun w => Token.isAsciiName_of_whole) (Token.isAsciiName_of_whole hname)
    hparts
  have hnames := nameParts_dotted hwords
  rw [DottedBy, hnames]
  exact ⟨rfl, hwords⟩

/-- What the grammar asks of each form. -/
theorem forms_isGrammatical : Forms Token.Whole TypeNode.IsGrammatical where
  reference as hfirst hname hparts := by
    obtain ⟨hnames, hdotted⟩ := dottedBy_dotted_of_whole hname hparts
    refine ⟨hdotted, ?_⟩
    rw [hnames]
    rintro first ⟨⟩
    exact hfirst
  imported _ _ _ _ hname hparts := (dottedBy_dotted_of_whole hname hparts).2
  query hname hparts := (dottedBy_dotted_of_whole hname hparts).2
  unique _ := ⟨_, rfl⟩
  string _ := trivial
  number h := h
  template h := h
  union h := h
  intersection h := h
  array _ := trivial
  indexed _ _ := trivial
  operator op _ _ := by cases op <;> trivial
  tuple h := fun e he w hw => ⟨Token.isAsciiName_of_whole (h e he w hw).1, (h e he w hw).2⟩
  function _ hopens h := ⟨hopens, fun p hp => Token.isAsciiName_of_whole (h p hp)⟩
  object h := fun m hm w hw => Token.isAsciiName_of_whole (h m hm w hw)

/-- **What a phrase of tokens that can be read is read as is grammatical.** -/
theorem Derives.grammatical {ts : List Token} {t : TypeNode} {next : Option Token}
    (h : Derives .type ts t next) (hts : ∀ t ∈ ts, t.Whole) : t.Grammatical :=
  h.throughout forms_isGrammatical hts

end Grammar

/-- **A type that is read is grammatical**, or the whole text is kept as it is. -/
theorem grammatical_parseType (text : List Char) :
    (parseType text).Grammatical ∨ ∃ x, parseType text = .raw x := by
  unfold parseType
  dsimp only
  split
  · next t h =>
    obtain ⟨tokens, hscan, htype⟩ := Option.bind_eq_some_iff.1 h
    exact .inl ((typeOfTokens?_eq_some_iff.1 htype).grammatical (Token.whole_of_scanWithin? hscan))
  · exact .inr ⟨_, rfl⟩

/-- No text is kept as it is inside a type that the grammar can write. -/
theorem TypeNode.Grammatical.ne_raw {t : TypeNode} (h : t.Grammatical) :
    ∀ u ∈ t.subterms, ∀ x, u ≠ .raw x := by
  induction h with
  | @intro t hself _ ih =>
    rw [TypeNode.subterms_eq, List.forall_mem_cons, List.forall_mem_flatMap]
    refine ⟨fun x heq => by rw [heq] at hself; exact hself, fun part hpart => ?_⟩
    by_cases hunique : ∃ operand, t = .operator .unique operand
    · obtain ⟨operand, rfl⟩ := hunique
      obtain ⟨name, rfl⟩ := hself
      rw [List.mem_singleton.1 hpart]
      simp [TypeNode.subterms, subtermsOfTypes]
    · refine ih part ?_
      rwa [TypeNode.typeParts]
      exact fun operand heq => hunique ⟨operand, heq⟩

end FluentBuilders
