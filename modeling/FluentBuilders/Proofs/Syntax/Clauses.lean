import FluentBuilders.Proofs.Syntax.Phrases
import FluentBuilders.Proofs.Syntax.Throughout
import FluentBuilders.Resolve.Expansion

/-!
# Proofs/Syntax/Clauses — texts of elements, signatures and members

What stands in brackets is put together from texts of its own: the elements of a tuple, the parameters
of a signature, the members of an object type.  Each is read up to the mark that ends it, so a text of
one that is read may be followed by a text of the next.
-/

namespace FluentBuilders

open Grammar

/-- **A text that is read as the tuple element `e`** where the element ends. -/
def ReadsElement (e : TupleElement) (text : String) : Prop :=
  ∃ ts, IsTextOf ts text ∧
    ∀ m ∈ [Mark.comma, .closeBracket], Derives .element ts e (some (.mark m))

/-- A text that is read as the parameter `p` where the parameter ends. -/
def ReadsParameter (p : Parameter) (text : String) : Prop :=
  ∃ ts, IsTextOf ts text ∧
    ∀ m ∈ [Mark.comma, .closeParen], Derives .parameter ts p (some (.mark m))

/-- **A text in parentheses that is read as the parameters `ps`.** -/
def ReadsSignature (ps : List Parameter) (text : String) : Prop :=
  ∃ ts, IsClosedText (.mark .openParen :: ts) text ∧ ∀ {next}, Derives .parameters ts ps next

/-- A text with a semicolon at its end that is read as the member `m`. -/
def ReadsMember (m : Member) (text : String) : Prop :=
  ∃ ts, IsClosedText (ts ++ [.mark .semicolon]) text ∧
    Derives .member ts m (some (.mark .semicolon))

/-- **A key that is read again as it stands**: bare it is a word or a number of the grammar. -/
def IsReadableKey (name : String) : Prop :=
  (Text.isPropertyIdentifier name = true → isAsciiName name = true) ∧
    (name ≠ "" ∧ name.toList.all Text.isDigit = true → (Token.number name).Whole)

instance (t : Token) : Decidable t.Whole := inferInstanceAs (Decidable (_ = _))

instance (name : String) : Decidable (IsReadableKey name) := inferInstanceAs (Decidable (_ ∧ _))

section

variable {ts us : List Token} {x y : String} {t u : TypeNode}

/-! ## After a colon -/

theorem isClosedText_colon : IsClosedText [.mark .colon] ": " :=
  (isTextOf_token (Token.whole_mark .colon)).blank (by simp)

/-- **A text, a question mark that may be there, and a text that starts with neither.** -/
theorem IsTextOf.optional (h : IsTextOf ts x) (optional : Bool) (h' : IsTextOf us y)
    (hends : Token.EndsNumber y.toList) :
    IsTextOf (ts ++ (tokenIf optional (.mark .question) ++ us))
      (x ++ optionalSuffix optional ++ y) := by
  cases optional with
  | false => simpa [optionalSuffix] using h.append h' hends
  | true =>
    have hquestion := h.close (m := .question) (by decide) (by rintro c ⟨⟩; decide)
    simpa [optionalSuffix, markText, Mark.text] using hquestion.append_text h'

/-- **A name, a question mark that may be there, and a colon with a text.** -/
theorem IsTextOf.annotated (h : IsTextOf ts x) (optional : Bool) (h' : IsTextOf us y) :
    IsTextOf (ts ++ (tokenIf optional (.mark .question) ++ .mark .colon :: us))
      (x ++ optionalSuffix optional ++ ": " ++ y) := by
  have hcolon := h.optional optional (isClosedText_colon.append_text h')
    (endsNumber_append (by decide) (by rintro c ⟨⟩; decide))
  rwa [← String.append_assoc] at hcolon

theorem isClosedText_ellipsis (spread : Bool) :
    IsClosedText (tokenIf spread (.mark .ellipsis)) (if spread then "..." else "") := by
  cases spread with
  | false => exact ⟨[], rfl, rfl, fun _ => trivial⟩
  | true => exact @isClosedText_mark .ellipsis (by decide)

theorem IsTextOf.semicolon (h : IsTextOf ts x) :
    IsClosedText (ts ++ [Token.mark .semicolon]) (x ++ ";") :=
  h.close (by decide) (by rintro c ⟨⟩; decide)

/-- No type ends in front of a mark that a list has. -/
theorem ReadsType.derives_of_mem {ns : List Mark} (hns : ∀ m ∈ ns, m ∉ typeMarks)
    (hderives : ∀ {next}, Avoids typeMarks next → Derives .type ts t next) :
    ∀ m ∈ ns, Derives .type ts t (some (.mark m)) :=
  fun m hm => hderives (avoids_mark (hns m hm))

/-! ## Elements of tuples -/

/-- Nothing that a type begins with is taken for the name of an element. -/
theorem startsElementName_eq_false {m : Mark} (hm : m ∈ [Mark.comma, .closeBracket])
    (h : Derives .type ts t (some (.mark m))) : startsElementName (ts ++ [Token.mark m]) = false := by
  obtain ⟨x, xs, rfl, hx⟩ := h.type_cons
  have hmarks : ∀ m ∈ [Mark.comma, .closeBracket], m ≠ .colon ∧ m ≠ .question := by decide
  obtain ⟨hcolon, hquestion⟩ := hmarks m hm
  cases x with
  | word w =>
    by_cases hw : isNameAtType w = true
    · obtain ⟨h1, h2⟩ := h.noAnnotationMark_type rfl hw
      cases xs with
      | nil => simp [startsElementName, hcolon, hquestion]
      | cons y ys => simp_all [startsElementName]
    · rw [Bool.not_eq_true] at hw
      cases xs with
      | nil => simp [startsElementName, hcolon, hquestion]
      | cons y ys =>
        simp only [List.cons_append, startsElementName]
        split <;> simp_all
  | mark n => cases n <;> rfl
  | _ => rfl

theorem readsElement_plain (h : ReadsType t x) : ReadsElement (.plain t) x := by
  obtain ⟨ts, htext, hderives⟩ := h
  refine ⟨ts, htext, fun m hm => ?_⟩
  have htype : Derives .type ts t (some (.mark m)) :=
    ReadsType.derives_of_mem (by decide) hderives m hm
  exact .plainElement (startsElementName_eq_false hm htype) htype

theorem readsElement_named {name : String} (hname : isAsciiName name)
    (hfirst : isNameAtType name = true) (optional : Bool) (h : ReadsType t x) :
    ReadsElement (.named name optional t) (name ++ optionalSuffix optional ++ ": " ++ x) := by
  obtain ⟨ts, htext, hderives⟩ := h
  refine ⟨_, (isTextOf_word hname).annotated optional htext, fun m hm => ?_⟩
  exact .namedElement name optional hfirst (ReadsType.derives_of_mem (by decide) hderives m hm)

theorem readsElement_rest (h : ReadsType t x) : ReadsElement (.rest t) ("..." ++ x) := by
  obtain ⟨ts, htext, hderives⟩ := h
  refine ⟨_, (isClosedText_ellipsis true).append_text htext, fun m hm => ?_⟩
  exact .restElement (ReadsType.derives_of_mem (by decide) hderives m hm)

/-- **A tuple.** -/
theorem readsBracketed_tuple (f : TupleElement → String) {es : List TupleElement}
    (h : ∀ e ∈ es, ReadsElement e (f e)) :
    ReadsBracketed (.tuple es) ("[" ++ String.intercalate ", " (es.map f) ++ "]") := by
  have hopen := @isClosedText_mark .openBracket (by decide)
  cases es with
  | nil =>
    have := hopen.append (@isClosedText_mark .closeBracket (by decide))
    exact readsBracketed_primary this.isTextOf fun _ => .tuple .noElements
  | cons e es =>
    obtain ⟨xs, htext, hderives⟩ := @exists_commaList _ .closeBracket (by decide)
      (by rintro c ⟨⟩; decide) (fun xs e next => Derives .element xs e next)
      (fun xs es next => Derives .elements xs es next) (fun h => .lastElement h)
      (fun h hs => .moreElements h hs) f e es h
    have := (hopen.append htext).isTextOf
    rw [← String.append_assoc] at this
    exact readsBracketed_primary this fun _ => .tuple hderives

/-! ## Signatures -/

theorem readsParameter {name : String} (hname : isAsciiName name) (optional spread : Bool)
    (h : ReadsType t x) :
    ReadsParameter (.mk name optional spread t) (parameterText name optional spread x) := by
  obtain ⟨ts, htext, hderives⟩ := h
  have := (isClosedText_ellipsis spread).append_text
    ((isTextOf_word hname).annotated optional htext)
  refine ⟨_, by simpa only [parameterText, String.append_assoc] using this, fun m hm => ?_⟩
  exact .parameter name optional spread (ReadsType.derives_of_mem (by decide) hderives m hm)

/-- **Parameters in parentheses.** -/
theorem readsSignature (f : Parameter → String) {ps : List Parameter}
    (h : ∀ p ∈ ps, ReadsParameter p (f p)) : ReadsSignature ps (signatureText (ps.map f)) := by
  have hopen := @isClosedText_mark .openParen (by decide)
  cases ps with
  | nil => exact ⟨_, hopen.append (@isClosedText_mark .closeParen (by decide)), .noParameters⟩
  | cons p ps =>
    obtain ⟨xs, htext, hderives⟩ := @exists_commaList _ .closeParen (by decide)
      (by rintro c ⟨⟩; decide) (fun xs p next => Derives .parameter xs p next)
      (fun xs ps next => Derives .parameters xs ps next) (fun h => .lastParameter h)
      (fun h hs => .moreParameters h hs) f p ps h
    have := hopen.append htext
    rw [← String.append_assoc] at this
    exact ⟨_, this, hderives⟩

/-- **Parameters that open a parameter list** are taken for one. -/
theorem Grammar.Derives.startsParameters {ps : List Parameter} {next : Option Token}
    (h : Derives .parameters ts ps next) (hopens : OpensParameters ps) (rest : List Token) :
    startsParameters (ts ++ rest) = true := by
  have hfirst : ∀ {ys p after next}, Derives .parameter ys p next → OpensParameters [p] →
      Grammar.startsParameters (ys ++ after) = true := by
    intro ys p after next hp hopens
    cases hp with
    | parameter name optional spread =>
      cases spread with
      | true => rfl
      | false =>
        have hname : isNameAtType name = true := by simpa [OpensParameters] using hopens
        cases optional <;> exact hname
  cases h with
  | noParameters => rfl
  | lastParameter hp =>
    rw [List.append_assoc]
    exact hfirst hp hopens
  | @moreParameters _ p _ _ _ hp _ =>
    rw [List.append_assoc]
    obtain ⟨name, optional, spread, t⟩ := p
    exact hfirst hp hopens

/-- **A function.** -/
theorem readsType_function {ps : List Parameter} (hopens : OpensParameters ps)
    (h : ReadsSignature ps x) (h' : ReadsType u y) :
    ReadsType (.function ps u) (x ++ " => " ++ y) := by
  obtain ⟨ts, htext, hderives⟩ := h
  obtain ⟨us, htext', hderives'⟩ := h'
  have := htext.isTextOf.marked (m := .arrow) (by decide) (by simp) htext'
  have hlist : Derives .parameters ts ps (some (.mark .arrow)) := hderives
  exact ⟨_, this, fun hnext =>
    .ofFunction (hlist.startsParameters hopens _) (.arrow hlist (hderives' hnext))⟩

/-! ## Members -/

/-- **A key as it is written.** -/
theorem exists_propertyName? {name : String} (h : IsReadableKey name) :
    ∃ key, IsTextOf key (propertyKey name) ∧ propertyName? key = some (name, []) ∧
      (key = [.word "readonly"] → name = "readonly") := by
  unfold propertyKey
  split
  · next hbare =>
    by_cases hidentifier : Text.isPropertyIdentifier name = true
    · refine ⟨[.word name], isTextOf_word (h.1 hidentifier), rfl, fun heq => ?_⟩
      simpa using heq
    · have hdigits : name ≠ "" ∧ name.toList.all Text.isDigit = true := by
        simpa [hidentifier] using hbare
      have hnumber := isTextOf_token (h.2 hdigits)
      exact ⟨[.number name], by simpa [Token.text] using hnumber, rfl, by simp⟩
  · have hliteral := isTextOf_token (Token.whole_typeLiteral name)
    exact ⟨[.string (Text.typeLiteral name)], by simpa [Token.text] using hliteral,
      ReadsBack.propertyName?_typeLiteral name, by simp⟩

theorem isClosedText_readonly (readonly : Bool) :
    IsClosedText (tokenIf readonly (.word "readonly")) (readonlyWord readonly) := by
  cases readonly with
  | false => exact ⟨[], rfl, rfl, fun _ => trivial⟩
  | true => exact isClosedText_wordBlank (by decide)

theorem readsMember_property {name : String} (hkey : IsReadableKey name) (optional readonly : Bool)
    (hreadonly : readonly = false → name ≠ "readonly") (h : ReadsType t x) :
    ReadsMember (.property name optional readonly (some t))
      (readonlyWord readonly ++ propertyKey name ++ optionalSuffix optional ++ ": " ++ x ++ ";") := by
  obtain ⟨ts, htext, hderives⟩ := h
  obtain ⟨key, hkeyText, hname, hplain⟩ := exists_propertyName? hkey
  have hwhole := ((isClosedText_readonly readonly).append_text
    (hkeyText.annotated optional htext)).semicolon
  refine ⟨_, by simpa only [String.append_assoc] using hwhole, ?_⟩
  exact .property name optional readonly hname (fun hr heq => hreadonly hr (hplain heq)) (by simp)
    (by simp) (.someAscription (hderives (avoids_mark (by decide))))

theorem readsMember_method {name : String} {ps : List Parameter} {xs : List String}
    (hkey : IsReadableKey name) (hreadonly : name ≠ "readonly") (optional : Bool)
    (h : ReadsSignature ps (signatureText xs)) (h' : ReadsType t y) :
    ReadsMember (.method name optional ps (some t))
      (propertyKey name ++ optionalSuffix optional ++ signatureText xs ++ ": " ++ y ++ ";") := by
  obtain ⟨ts, htext, hderives⟩ := h
  obtain ⟨us, htext', hderives'⟩ := h'
  obtain ⟨key, hkeyText, hname, hplain⟩ := exists_propertyName? hkey
  have hends : Token.EndsNumber (signatureText xs ++ (": " ++ y)).toList := by
    rw [signatureText, String.append_assoc, String.append_assoc]
    exact endsNumber_append (by decide) (by rintro c ⟨⟩; decide)
  have hwhole := (hkeyText.optional optional
    (htext.append_text (isClosedText_colon.append_text htext')) hends).semicolon
  refine ⟨_, by simpa only [String.append_assoc] using hwhole, ?_⟩
  have := Derives.method name optional hname (fun heq => hreadonly (hplain heq)) hderives
    (.someAscription (hderives' (@avoids_mark .semicolon _ (by decide))))
  simpa using this

theorem readsMember_index {key : String} (hkey : isAsciiName key) (readonly : Bool)
    (h : ReadsType t x) (h' : ReadsType u y) :
    ReadsMember (.index key readonly t u)
      (readonlyWord readonly ++ "[" ++ key ++ ": " ++ x ++ "]: " ++ y ++ ";") := by
  obtain ⟨ts, htext, hderives⟩ := h
  obtain ⟨us, htext', hderives'⟩ := h'
  have hopen := (isClosedText_readonly readonly).append (@isClosedText_mark .openBracket (by decide))
  have hindex := ((isTextOf_word hkey).annotated false htext).close (m := .closeBracket) (by decide)
    (by rintro c ⟨⟩; decide)
  have hwhole := ((hopen.append hindex).append_text (isClosedText_colon.append_text htext')).semicolon
  refine ⟨_, ?_, .index key readonly (hderives (avoids_mark (by decide)))
    (hderives' (avoids_mark (by decide)))⟩
  rw [show "[" = markText .openBracket from rfl, show "]: " = markText .closeBracket ++ ": " from rfl]
  simpa only [String.append_assoc, List.append_assoc, List.cons_append, List.nil_append,
    optionalSuffix, tokenIf_false, if_neg Bool.false_ne_true, String.empty_append] using hwhole

/-- **Members with a brace at their end.** -/
theorem exists_members (f : Member → String) (m : Member) (ms : List Member)
    (h : ∀ n ∈ m :: ms, ReadsMember n (f n)) :
    ∃ xs, IsClosedText xs (String.intercalate " " ((m :: ms).map f) ++ " \x7d") ∧
      ∀ {next}, Derives .members xs (m :: ms) next := by
  have hsemicolon : [Token.mark .semicolon] ∈ separators := by simp [separators]
  induction ms generalizing m with
  | nil =>
    obtain ⟨ts, htext, hderives⟩ := h m (List.mem_singleton_self m)
    have hbrace := (htext.isTextOf.blank (by simp)).append
      (@isClosedText_mark .closeBrace (by decide))
    refine ⟨ts ++ ([Token.mark .semicolon] ++ [Token.mark .closeBrace]), ?_,
      .moreMembers [.mark .semicolon] hsemicolon hderives .noMembers⟩
    simpa [String.append_assoc, markText, Mark.text] using hbrace
  | cons n ms ih =>
    obtain ⟨⟨ts, htext, hderives⟩, hrest⟩ := List.forall_mem_cons.1 h
    obtain ⟨xs, htext', hread⟩ := ih n hrest
    refine ⟨ts ++ ([Token.mark .semicolon] ++ xs), ?_,
      .moreMembers [.mark .semicolon] hsemicolon hderives hread⟩
    rw [List.map_cons, List.map_cons, String.intercalate_cons_cons, ← List.map_cons,
      String.append_assoc, ← List.append_assoc]
    exact (htext.isTextOf.blank (by simp)).append htext'

/-- **An object type.** -/
theorem readsBracketed_object (f : Member → String) {ms : List Member}
    (h : ∀ m ∈ ms, ReadsMember m (f m)) : ReadsBracketed (.object ms) (bodyText (ms.map f)) := by
  have hopen := @isClosedText_mark .openBrace (by decide)
  cases ms with
  | nil =>
    have := hopen.append (@isClosedText_mark .closeBrace (by decide))
    exact readsBracketed_primary this.isTextOf fun _ => .object .noMembers
  | cons m ms =>
    obtain ⟨xs, htext, hderives⟩ := exists_members f m ms h
    have := ((hopen.isTextOf.blank (by simp)).append htext).isTextOf
    rw [← String.append_assoc] at this
    exact readsBracketed_primary this fun _ => .object hderives

end

end FluentBuilders
