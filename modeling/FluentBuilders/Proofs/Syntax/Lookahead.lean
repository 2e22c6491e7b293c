import FluentBuilders.Proofs.Syntax.Derivation

/-!
# Proofs/Syntax/Lookahead — the tokens a phrase starts with, and the token after it

The readers look one or two tokens ahead.  What they see there depends on the phrase they are in
front of: `Derives.type_cons` and its kin say what a phrase can start with, and `startsParameters_eq_false` and
`Derives.noAnnotationMark_type` that no type is taken for a parameter or a named element.
-/

namespace FluentBuilders.Grammar

/-! ## Lookahead -/

@[simp] theorem tokenIf_true (t : Token) : tokenIf true t = [t] := rfl

@[simp] theorem tokenIf_false (t : Token) : tokenIf false t = [] := rfl

@[simp] theorem headOr_nil (next : Option Token) : headOr [] next = next := rfl

@[simp] theorem headOr_cons (t : Token) (ts : List Token) (next : Option Token) :
    headOr (t :: ts) next = some t := rfl

theorem headOr_append (xs ys : List Token) (next : Option Token) :
    headOr (xs ++ ys) next = headOr xs (headOr ys next) := by
  cases xs <;> rfl

theorem head?_append_eq_headOr (ts rest : List Token) :
    (ts ++ rest).head? = headOr ts rest.head? := by
  cases ts <;> rfl

/-! ## First tokens -/

/-- A token that an operand can start with. -/
def startsOperand : Token → Bool
  | .mark .openParen | .mark .openBrace | .mark .openBracket => true
  | .mark _ => false
  | _ => true

/-- A token that a type can start with. -/
def startsType : Token → Bool
  | .mark .bar | .mark .ampersand => true
  | t => startsOperand t

/-- A token that a type without operators around it can start with. -/
def startsPrimary : Token → Bool
  | .word w => w != "keyof" && w != "readonly" && w != "unique"
  | t => startsOperand t

theorem Derives.primary_cons {ts t next} (h : Derives .primary ts t next) :
    ∃ x xs, ts = x :: xs ∧ startsPrimary x = true := by
  cases h with
  | reference name parts hn _ _ =>
    refine ⟨_, _, rfl, ?_⟩
    simp only [isNameAtType, operatorWords, startsPrimary] at hn ⊢
    simp_all
  | _ => exact ⟨_, _, rfl, rfl⟩

theorem Derives.operand_cons {ts t next} (h : Derives .operand ts t next) :
    ∃ x xs, ts = x :: xs ∧ startsOperand x = true := by
  cases h with
  | bracketed h _ => cases h <;> exact ⟨_, _, rfl, rfl⟩
  | _ => exact ⟨_, _, rfl, rfl⟩

theorem Derives.intersection_cons {ts t next} (h : Derives .intersection ts t next) :
    ∃ x xs, ts = x :: xs ∧ (startsOperand x = true ∨ x = .mark .ampersand) := by
  cases h with
  | intersectionOf front h _ =>
    obtain ⟨x, xs, rfl, hx⟩ := h.operand_cons
    cases front
    · exact ⟨x, _, rfl, .inl hx⟩
    · exact ⟨_, _, rfl, .inr rfl⟩

theorem startsType_of_startsOperand {x : Token} (h : startsOperand x = true) :
    startsType x = true := by
  unfold startsType; split <;> first | rfl | exact h

theorem Derives.union_cons {ts t next} (h : Derives .union ts t next) :
    ∃ x xs, ts = x :: xs ∧ startsType x = true := by
  cases h with
  | unionOf front h _ =>
    obtain ⟨x, xs, rfl, hx⟩ := h.intersection_cons
    cases front
    · refine ⟨x, _, rfl, ?_⟩
      rcases hx with hx | rfl
      · exact startsType_of_startsOperand hx
      · rfl
    · exact ⟨_, _, rfl, rfl⟩

theorem Derives.type_cons {ts t next} (h : Derives .type ts t next) :
    ∃ x xs, ts = x :: xs ∧ startsType x = true := by
  cases h with
  | ofFunction => exact ⟨_, _, rfl, rfl⟩
  | ofUnion h => exact h.union_cons

/-! ## Names at the start of a type

A name that a type starts with is never followed by a colon or a question mark inside the type, so a
type is never taken for a parameter or a named element. -/

/-- The tokens do not start with a colon or a question mark. -/
def NoAnnotationMark (ts : List Token) : Prop :=
  ts.head? ≠ some (.mark .colon) ∧ ts.head? ≠ some (.mark .question)

theorem NoAnnotationMark.append {xs ys : List Token} (hx : NoAnnotationMark xs)
    (hy : NoAnnotationMark ys) : NoAnnotationMark (xs ++ ys) := by
  cases xs with
  | nil => exact hy
  | cons => exact hx

theorem noAnnotationMark_dottedTokens (parts : List String) :
    NoAnnotationMark (dottedTokens parts) := by
  cases parts <;> simp [NoAnnotationMark, dottedTokens]

theorem Derives.noAnnotationMark_arguments {ts as next} (h : Derives .arguments ts as next) :
    NoAnnotationMark ts := by
  cases h <;> simp [NoAnnotationMark]

theorem Derives.noAnnotationMark_brackets {p ts t next} (h : Derives (.brackets p) ts t next) :
    NoAnnotationMark ts := by
  cases h <;> simp [NoAnnotationMark]

theorem Derives.noAnnotationMark_intersectionTail {ts as next}
    (h : Derives .intersectionTail ts as next) : NoAnnotationMark ts := by
  cases h <;> simp [NoAnnotationMark]

theorem Derives.noAnnotationMark_unionTail {ts as next} (h : Derives .unionTail ts as next) :
    NoAnnotationMark ts := by
  cases h <;> simp [NoAnnotationMark]

theorem Derives.noAnnotationMark_operand {w xs ts t next} (h : Derives .operand xs t next)
    (hts : xs = .word w :: ts) (hw : isNameAtType w = true) : NoAnnotationMark ts := by
  cases h with
  | keyofOf h => cases hts; exact absurd hw (by decide)
  | readonlyOf h => cases hts; exact absurd hw (by decide)
  | uniqueOf => cases hts; exact absurd hw (by decide)
  | bracketed h hs =>
    cases h with
    | query => cases hts; exact absurd hw (by decide)
    | imported => cases hts; exact absurd hw (by decide)
    | reference name parts hn hd ha =>
      cases hts
      exact ((noAnnotationMark_dottedTokens parts).append ha.noAnnotationMark_arguments).append
        hs.noAnnotationMark_brackets
    | _ => cases hts

theorem Derives.noAnnotationMark_type {w xs ts t next} (h : Derives .type xs t next)
    (hts : xs = .word w :: ts) (hw : isNameAtType w = true) : NoAnnotationMark ts := by
  cases h with
  | ofFunction => cases hts
  | ofUnion h =>
    cases h with
    | unionOf front h hs =>
      cases front with
      | true => cases hts
      | false =>
        cases h with
        | intersectionOf front h hi =>
          cases front with
          | true => cases hts
          | false =>
            obtain ⟨x, xs, rfl, -⟩ := h.operand_cons
            cases hts
            exact ((h.noAnnotationMark_operand rfl hw).append
              hi.noAnnotationMark_intersectionTail).append hs.noAnnotationMark_unionTail

theorem startsParameters_eq_false {ts rest : List Token} {t : TypeNode} {next : Option Token}
    (h : Derives .type ts t next) :
    startsParameters (ts ++ .mark .closeParen :: rest) = false := by
  obtain ⟨x, xs, rfl, hx⟩ := h.type_cons
  cases x with
  | word w =>
    by_cases hw : isNameAtType w = true
    · obtain ⟨h1, h2⟩ := h.noAnnotationMark_type rfl hw
      cases xs with
      | nil => rfl
      | cons y ys => simp_all [startsParameters]
    · rw [Bool.not_eq_true] at hw
      cases xs with
      | nil => rfl
      | cons y ys => simp only [List.cons_append, startsParameters]; split <;> simp_all
  | mark m => cases m <;> first | rfl | cases hx
  | _ => rfl

theorem startsElementName_append {ts rest : List Token} (h : ts ≠ []) :
    startsElementName (ts ++ rest) = startsElementName (ts ++ rest.head?.toList) := by
  match ts, rest with
  | [t], [] => rfl
  | [t], r :: rest => simp only [List.cons_append]; unfold startsElementName; split <;> simp_all
  | t :: u :: ts, rest => simp only [List.cons_append]; unfold startsElementName; split <;> simp_all

theorem startsParameters_append {ts rest : List Token} (h : 2 ≤ ts.length) :
    startsParameters (ts ++ rest) = startsParameters ts := by
  match ts with
  | [] | [_] => simp at h
  | t :: u :: ts => simp only [List.cons_append]; unfold startsParameters; split <;> simp_all

theorem Derives.startsParameters_operand {xs ts rest t next} (h : Derives .operand xs t next)
    (hts : xs = .mark .openParen :: ts) : startsParameters (ts ++ rest) = false := by
  cases h with
  | bracketed h hs =>
    cases h with
    | parens h =>
      simp only [List.cons_append, List.cons.injEq, true_and] at hts
      subst hts
      simpa only [List.append_assoc, List.cons_append, List.nil_append] using
        startsParameters_eq_false h
    | _ => cases hts
  | _ => cases hts

/-- A union that starts with a parenthesis is not taken for a function. -/
theorem Derives.startsParameters_union {xs ts rest t next} (h : Derives .union xs t next)
    (hts : xs = .mark .openParen :: ts) : startsParameters (ts ++ rest) = false := by
  cases h with
  | unionOf front h hs =>
    cases front with
    | true => cases hts
    | false =>
      cases h with
      | intersectionOf front h hi =>
        cases front with
        | true => cases hts
        | false =>
          obtain ⟨x, xs, rfl, -⟩ := h.operand_cons
          obtain ⟨rfl, rfl⟩ := List.cons.inj hts
          simp only [List.append_eq, List.append_assoc]
          exact h.startsParameters_operand rfl

theorem Derives.parameters_ne_nil {ts ps next} (h : Derives .parameters ts ps next) : ts ≠ [] := by
  cases h <;> simp

theorem Derives.function_length {ts t next} (h : Derives .function ts t next) :
    2 ≤ ts.length := by
  cases h with
  | arrow hp hr =>
    have := List.length_pos_iff.2 hp.parameters_ne_nil
    simp only [List.length_append, List.length_cons]
    omega

theorem Derives.parameter_cons {ts p next} (h : Derives .parameter ts p next) :
    ∃ x xs, ts = x :: xs ∧ x ≠ .mark .closeParen := by
  cases h with
  | parameter name optional spread h => cases spread <;> exact ⟨_, _, rfl, by simp⟩

theorem Derives.element_cons {ts e next} (h : Derives .element ts e next) :
    ∃ x xs, ts = x :: xs ∧ x ≠ .mark .closeBracket := by
  cases h with
  | plainElement hn h =>
    obtain ⟨x, xs, rfl, hx⟩ := h.type_cons
    exact ⟨x, xs, rfl, by rintro rfl; cases hx⟩
  | _ => exact ⟨_, _, rfl, by simp⟩

/-- A token that an object member can start with. -/
def opensMember : Token → Bool
  | .word _ | .string _ | .number _ | .mark .openBracket => true
  | _ => false

theorem propertyName?_cons {key : List Token} {name : String}
    (h : propertyName? key = some (name, [])) :
    ∃ x xs, key = x :: xs ∧ opensMember x = true := by
  unfold propertyName? at h
  split at h
  all_goals first | exact ⟨_, _, rfl, rfl⟩ | cases h

theorem propertyName?_append {key rest : List Token} {name : String}
    (h : propertyName? key = some (name, [])) : propertyName? (key ++ rest) = some (name, rest) := by
  unfold propertyName? at h
  split at h <;> simp_all [propertyName?]

theorem Derives.member_cons {ts m next} (h : Derives .member ts m next) :
    ∃ x xs, ts = x :: xs ∧ opensMember x = true := by
  cases h with
  | index key readonly => cases readonly <;> exact ⟨_, _, rfl, rfl⟩
  | method name optional hkey =>
    obtain ⟨x, xs, rfl, hx⟩ := propertyName?_cons hkey
    exact ⟨x, _, rfl, hx⟩
  | property name optional readonly hkey =>
    obtain ⟨x, xs, rfl, hx⟩ := propertyName?_cons hkey
    cases readonly
    · exact ⟨x, _, rfl, hx⟩
    · exact ⟨_, _, rfl, rfl⟩

theorem Derives.members_cons {ts ms next} (h : Derives .members ts ms next) :
    ∃ x xs, ts = x :: xs ∧ (opensMember x = true ∨ x = .mark .closeBrace) := by
  cases h with
  | noMembers => exact ⟨_, _, rfl, .inr rfl⟩
  | moreMembers sep hsep h _ =>
    obtain ⟨x, xs, rfl, hx⟩ := h.member_cons
    exact ⟨x, _, rfl, .inl hx⟩

end FluentBuilders.Grammar
