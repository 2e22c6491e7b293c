import FluentBuilders.Proofs.Syntax.Literals
import FluentBuilders.Proofs.Syntax.Throughout
import FluentBuilders.Proofs.Syntax.TypeText
import FluentBuilders.Proofs.Text.Words

/-!
# Proofs/Syntax/Formed — what holds of every type that is read

A type that is read from a text is **formed** throughout: its names are identifiers with dots between
them, its unions and intersections join two or more, its numbers and templates look like ones, and
text that it keeps as it is could not be read (`formed_parseType`).
-/

namespace FluentBuilders

/-! ## Tokens -/

namespace Token

/-- **A token as it is read**: a word is an identifier, a number is made of letters, digits and signs,
a template is closed by its last character only. -/
def Written : Token → Prop
  | .word name => isAsciiName name
  | .number text | .negative text => IsAtom text.toList ∧ Literal.IsWritten (.number, text)
  | .template text => ∃ body, text.toList = '`' :: body ∧ quotedTail? '`' true body = some (body, [])
  | _ => True

/-- What a literal takes off a text is a literal by itself. -/
theorem quotedTail?_self {quote : Char} {multiline : Bool} {cs body rest : List Char}
    (h : quotedTail? quote multiline cs = some (body, rest)) :
    quotedTail? quote multiline body = some (body, []) := by
  fun_induction quotedTail? quote multiline cs generalizing body rest with
  | case1 => simp at h
  | case2 => simp at h
  | case3 c cs hc ih =>
    simp only [Option.map_eq_some_iff, Prod.exists] at h
    obtain ⟨body', rest', hread, h⟩ := h
    cases h
    simp [quotedTail?, hc, ih hread]
  | case4 cs hne =>
    cases h
    rw [quotedTail?]
    · simp
    · rintro c rest' - ⟨⟩
  | case5 => simp at h
  | case6 c cs hne hquote hstop ih =>
    simp only [Option.map_eq_some_iff, Prod.exists] at h
    obtain ⟨body', rest', hread, h⟩ := h
    cases h
    rw [quotedTail?]
    · rw [if_neg hquote, if_neg hstop, ih hread]
      rfl
    · rintro d rest'' rfl
      exact absurd (.inl rfl) hstop

/-- **Every token that is read is written as one.** -/
theorem written_of_read? {cs rest : List Char} {t : Token} (h : read? cs = some (t, rest)) :
    t.Written := by
  have hliterals := isWritten_of_read? h
  unfold read? at h
  split at h
  · cases h
  next c tail =>
  split at h
  · next hstart =>
    rw [List.span_eq_takeWhile_dropWhile] at h
    cases h
    rw [Written, isAsciiName, String.toList_ofList, Text.isNameOver, hstart, Bool.true_and]
    exact List.all_takeWhile
  split at h
  · simp only [Option.map_eq_some_iff, Prod.exists] at h
    obtain ⟨body, rest', -, h⟩ := h
    cases h
    trivial
  split at h
  · next hc =>
    simp only [Option.map_eq_some_iff, Prod.exists] at h
    obtain ⟨body, rest', hread, h⟩ := h
    cases h
    exact ⟨body, by rw [String.toList_ofList, hc], hc ▸ quotedTail?_self hread⟩
  split at h
  · simp only [Option.map_eq_some_iff, Prod.exists] at h
    obtain ⟨text, rest', hread, h⟩ := h
    cases h
    exact ⟨by rw [String.toList_ofList]; exact (isNumeric_negativeNumber? hread).isAtom,
      hliterals _ List.mem_cons_self⟩
  split at h
  · simp only [Option.map_eq_some_iff, Prod.exists] at h
    obtain ⟨text, rest', hread, h⟩ := h
    cases h
    have hatom : IsAtom text := by
      cases hhex : hexNumber? (c :: tail) with
      | some read =>
        rw [hhex] at hread
        cases hread
        exact (isNumeric_hexNumber? hhex).isAtom
      | none =>
        rw [hhex] at hread
        exact (isNumeric_decimalNumber? hread).isAtom
    exact ⟨by rwa [String.toList_ofList], hliterals _ List.mem_cons_self⟩
  · simp only [Option.map_eq_some_iff, Prod.exists] at h
    obtain ⟨m, rest', -, h⟩ := h
    cases h
    trivial

theorem written_of_scanWithin? {fuel : Nat} {cs : List Char} {ts : List Token}
    (h : scanWithin? fuel cs = some ts) : ∀ t ∈ ts, t.Written := by
  induction fuel generalizing cs ts with
  | zero => cases h
  | succ fuel ih =>
    unfold scanWithin? at h
    split at h
    · cases h
      exact List.forall_mem_nil _
    · exact ih h
    · split at h
      · cases h
      · exact ih h
    · split at h
      · exact ih h
      split at h
      · cases h
      · next token rest hread =>
        obtain ⟨others, hothers, rfl⟩ := Option.map_eq_some_iff.1 h
        exact List.forall_mem_cons.2 ⟨written_of_read? hread, ih hothers⟩

end Token

/-! ## Types -/

/-- The words of a tuple's elements, and those of parameters. -/
def TypeNode.words : TypeNode → List String
  | .tuple elements => elements.filterMap TupleElement.name?
  | .function parameters _ => parameters.map Parameter.name
  | .object members => members.flatMap Member.words
  | _ => []

/-- **A type as it is read**, apart from the types that it is made of. -/
def TypeNode.IsRead : TypeNode → Prop
  | .reference name _ | .imported _ name _ | .query name => DottedBy (isAsciiName ·) name
  | .literal .string _ => True
  | .literal .number text => Token.IsAtom text.toList ∧ Literal.IsWritten (.number, text)
  | .literal .template text =>
    ∃ body, text.toList = '`' :: body ∧ Token.quotedTail? '`' true body = some (body, [])
  | .union members | .intersection members => 2 ≤ members.length
  | .raw text => (Token.scan? text.toList).bind typeOfTokens? = none
  | t => ∀ w ∈ t.words, isAsciiName w

/-- **A type as it is read**, and so is every type inside it. -/
def TypeNode.Formed (t : TypeNode) : Prop := ∀ u ∈ t.subterms, u.IsRead

theorem TypeNode.formed_iff {t : TypeNode} :
    t.Formed ↔ t.IsRead ∧ ∀ part ∈ t.parts, part.Formed := by
  rw [Formed, t.subterms_eq, List.forall_mem_cons, List.forall_mem_flatMap]
  rfl

theorem TypeNode.IsRead.isWritten_literal {kind : LiteralKind} {text : String}
    (h : (TypeNode.literal kind text).IsRead) : Literal.IsWritten (kind, text) := by
  cases kind with
  | string => trivial
  | number => exact h.2
  | template =>
    obtain ⟨body, htext, -⟩ := h
    rw [Literal.IsWritten, htext]
    rfl

/-- A member of an object type as it is read. -/
def Member.Formed (m : Member) : Prop := (∀ w ∈ m.words, isAsciiName w) ∧ ∀ t ∈ m.types, t.Formed

/-- The values of `boolean` are types as they are read. -/
theorem formed_values :
    (TypeNode.reference "false" []).Formed ∧ (TypeNode.reference "true" []).Formed := by
  have hnames : ∀ name ∈ ["false", "true"], ∀ part ∈ nameParts name, isAsciiName part = true := by
    decide
  have hformed : ∀ name ∈ ["false", "true"], (TypeNode.reference name []).Formed := fun name hname =>
    TypeNode.formed_iff.2 ⟨hnames name hname, List.forall_mem_nil _⟩
  exact ⟨hformed _ (by decide), hformed _ (by decide)⟩

theorem TypeNode.formed_object_iff {members : List Member} :
    (TypeNode.object members).Formed ↔ ∀ m ∈ members, m.Formed := by
  rw [formed_iff]
  change (∀ w ∈ members.flatMap Member.words, isAsciiName w = true) ∧
    (∀ t ∈ members.flatMap Member.types, t.Formed) ↔ _
  rw [List.forall_mem_flatMap, List.forall_mem_flatMap]
  exact ⟨fun h m hm => ⟨h.1 m hm, h.2 m hm⟩, fun h => ⟨fun m hm => (h m hm).1, fun m hm => (h m hm).2⟩⟩

namespace Grammar

/-- Identifiers with dots between them are the parts of their name. -/
theorem nameParts_dotted {name : String} {parts : List String}
    (hwords : ∀ part ∈ name :: parts, isAsciiName part) :
    nameParts (dotted name parts) = name :: parts := by
  have hdots : ∀ cs ∈ (name :: parts).map String.toList, '.' ∉ cs := by
    intro cs hcs hdot
    obtain ⟨part, hpart, rfl⟩ := List.mem_map.1 hcs
    exact absurd (isWordText_of_isNameOver (hwords part hpart) '.' hdot) (by decide)
  rw [nameParts, toList_dotted, List.splitOn_intercalate _ hdots (by simp), List.map_map]
  simp [Function.comp_def]

theorem forall_dotted {W : Token → Prop} {ok : String → Prop} (hok : ∀ w, W (.word w) → ok w)
    {name : String} {parts : List String} (hname : ok name) (hparts : ∀ t ∈ dottedTokens parts, W t) :
    ∀ part ∈ name :: parts, ok part := by
  refine List.forall_mem_cons.2 ⟨hname, fun part hpart => hok part ?_⟩
  exact hparts (.word part) (List.mem_flatMap.2 ⟨part, hpart, by simp⟩)

theorem dottedBy_dotted {name : String} {parts : List String} (hname : isAsciiName name)
    (hparts : ∀ t ∈ dottedTokens parts, t.Written) :
    DottedBy (isAsciiName ·) (dotted name parts) := by
  have hwords := forall_dotted (fun w hw => hw) hname hparts
  rw [DottedBy, nameParts_dotted hwords]
  exact hwords

/-- What the grammar asks of each form; the word after `unique` is an identifier too. -/
theorem forms_isRead : Forms Token.Written fun t =>
    t.IsRead ∧ ∀ part ∈ t.parts, part ∈ t.typeParts ∨ part.Formed where
  reference as _ hname hparts := ⟨dottedBy_dotted hname hparts, fun _ h => .inl h⟩
  imported _ _ _ _ hname hparts := ⟨dottedBy_dotted hname hparts, fun _ h => .inl h⟩
  query hname hparts := ⟨dottedBy_dotted hname hparts, fun _ h => .inl h⟩
  unique {name} hname := by
    have hdotted : DottedBy (isAsciiName ·) (dotted name []) :=
      dottedBy_dotted hname (List.forall_mem_nil _)
    have hreference : (TypeNode.reference name []).Formed :=
      TypeNode.formed_iff.2 ⟨hdotted, List.forall_mem_nil _⟩
    exact ⟨List.forall_mem_nil _, List.forall_mem_singleton.2 (.inr hreference)⟩
  string _ := ⟨trivial, fun _ h => .inl h⟩
  number h := ⟨h.elim id id, fun _ h => .inl h⟩
  template h := ⟨h, fun _ h => .inl h⟩
  union h := ⟨h, fun _ h => .inl h⟩
  intersection h := ⟨h, fun _ h => .inl h⟩
  array _ := ⟨List.forall_mem_nil _, fun _ h => .inl h⟩
  indexed _ _ := ⟨List.forall_mem_nil _, fun _ h => .inl h⟩
  operator op _ hop := ⟨List.forall_mem_nil _, fun part h => .inl (by cases op <;> trivial)⟩
  tuple {elements} h := by
    refine ⟨fun w hw => ?_, fun _ h => .inl h⟩
    obtain ⟨e, hmem, hname⟩ := List.mem_filterMap.1 hw
    exact (h e hmem w hname).1
  function _ _ h := ⟨List.forall_mem_map.2 h, fun _ h => .inl h⟩
  object h := ⟨List.forall_mem_flatMap.2 h, fun _ h => .inl h⟩

/-- **What a phrase of written tokens is read as is formed.** -/
theorem Derives.formed {ts : List Token} {t : TypeNode} {next : Option Token}
    (h : Derives .type ts t next) (hts : ∀ t ∈ ts, t.Written) : t.Formed := by
  have hthroughout := h.throughout forms_isRead hts
  change t.Throughout _ at hthroughout
  clear h
  induction hthroughout with
  | intro hself _ ih =>
    exact TypeNode.formed_iff.2 ⟨hself.1, fun part hpart => (hself.2 part hpart).elim (ih part) id⟩

end Grammar

/-! ## Texts -/

/-- **Every type that is read is formed.** -/
theorem formed_parseType (text : List Char) : (parseType text).Formed := by
  unfold parseType
  dsimp only
  split
  · next t h =>
    obtain ⟨tokens, hscan, htype⟩ := Option.bind_eq_some_iff.1 h
    exact (Grammar.typeOfTokens?_eq_some_iff.1 htype).formed (Token.written_of_scanWithin? hscan)
  · next hnone =>
    refine TypeNode.formed_iff.2 ⟨?_, List.forall_mem_nil _⟩
    rw [TypeNode.IsRead, String.toList_ofList]
    exact hnone

theorem formed_members_parseType {text : List Char} {members : List Member}
    (h : parseType text = .object members) : ∀ m ∈ members, m.Formed :=
  TypeNode.formed_object_iff.1 (h ▸ formed_parseType text)

theorem formed_keyedType? {readonly : Bool} {cs : List Char} {m : Member}
    (h : keyedType? readonly cs = some m) : m.Formed := by
  unfold keyedType? at h
  split at h
  · cases h
  split at h
  · split at h
    · cases h
    · cases h
      exact ⟨List.forall_mem_nil _, List.forall_mem_singleton.2 (formed_parseType _)⟩
  · cases h

theorem formed_readProperty? {chunk : List Char} {m : Member} (h : readProperty? chunk = some m) :
    m.Formed := by
  rw [readProperty?, Option.orElse_eq_or, Option.or_eq_some_iff] at h
  rcases h with hreadonly | ⟨-, hplain⟩
  · obtain ⟨cs, -, hkeyed⟩ := Option.bind_eq_some_iff.1 hreadonly
    exact formed_keyedType? hkeyed
  · exact formed_keyedType? hplain

theorem formed_readChunk (chunk : List Char) : ∀ m ∈ (readChunk chunk).value, m.Formed := by
  unfold readChunk
  split
  · next m hm => exact List.forall_mem_singleton.2 (formed_readProperty? hm)
  split
  · next members hmembers => exact formed_members_parseType hmembers
  · exact List.forall_mem_nil _

theorem formed_readChunks (chunks : List (List Char)) :
    ∀ m ∈ (readChunks chunks).value, m.Formed := by
  induction chunks with
  | nil => exact List.forall_mem_nil _
  | cons chunk chunks ih => exact List.forall_mem_append.2 ⟨formed_readChunk chunk, ih⟩

/-- **So is every member of an object body**, however it is read. -/
theorem formed_readObjectBody (text : List Char) :
    ∀ m ∈ (readObjectBody text).value, m.Formed := by
  unfold readObjectBody
  split
  · next members hmembers => exact formed_members_parseType hmembers
  · exact formed_readChunks _

/-- **So is every type in a declaration.** -/
theorem formed_readType (text : List Char) : (readType text).value.Formed := by
  have hparsed := formed_parseType text
  unfold readType
  split
  · next source hraw =>
    split
    · exact TypeNode.formed_object_iff.2 (formed_readObjectBody _)
    · exact hraw ▸ hparsed
  · exact hparsed

end FluentBuilders
