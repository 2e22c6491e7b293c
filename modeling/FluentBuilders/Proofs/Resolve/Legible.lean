import FluentBuilders.Proofs.Resolve.Settled
import FluentBuilders.Proofs.Syntax.Clauses

/-!
# Proofs/Resolve/Legible — the types whose text is read as the type

A type that is shown is written with parentheses only where an array, an intersection or `keyof` asks
for them.  Where nothing inside it needs parentheses in another place (`TypeNode.IsLegible`) the text
is read as the type (`parseType_rendered`).
-/

namespace FluentBuilders

open Grammar

/-- **The levels of the grammar**: what a type has to be wrapped in before more can be put after it. -/
inductive Level where
  | bracketed | operand | intersection | type
  deriving DecidableEq, Repr

/-- The level that a type is written at. -/
def TypeNode.level : TypeNode → Level
  | .union _ | .function _ _ => .type
  | .intersection _ => .intersection
  | .operator _ _ => .operand
  | _ => .bracketed

/-- A type with properties of its own. -/
def TypeNode.hasProperties : TypeNode → Bool
  | .object _ | .intersection _ => true
  | _ => false

/-- The index is a literal that names one of the properties written in an object type. -/
def namesMember : TypeNode → TypeNode → Bool
  | .object members, .literal kind text => kind ≠ .template && members.any (·.name? == some text)
  | _, _ => false

/-- A member with a key that is read as it is written. -/
def Member.IsLegible : Member → Prop
  | .property name _ readonly _ => IsReadableKey name ∧ (readonly = false → name ≠ "readonly")
  | .method name .. => IsReadableKey name ∧ name ≠ "readonly"
  | .index .. => True

/-- **A type whose text is read as the type**, if those are that it is made of. -/
def TypeNode.IsLegible (s : Scope) : TypeNode → Prop
  | .imported module _ _ =>
    Text.typeLiteral module = "\"" ++ module ++ "\"" ∧ s.moduleShown module = module
  | .union members => ∀ m ∈ members, m.level ≠ .type
  | .array element => element.level ≠ .operand
  | .indexed o i => o.level = .bracketed ∧ namesMember o i = false
  | .function parameters _ => OpensParameters parameters
  | .operator .keyof operand => operand.hasProperties = false
  | .object members => ∀ m ∈ members, m.IsLegible
  | _ => True

variable {s : Scope} {t u : TypeNode}

instance : DecidablePred OpensParameters
  | [] => .isTrue trivial
  | .mk _ _ _ _ :: _ => inferInstanceAs (Decidable (_ ∨ _))

instance : DecidablePred Member.IsLegible
  | .property .. | .method .. => inferInstanceAs (Decidable (_ ∧ _))
  | .index .. => .isTrue trivial

instance : DecidablePred (TypeNode.IsLegible s)
  | .imported .. | .indexed .. => inferInstanceAs (Decidable (_ ∧ _))
  | .union _ | .object _ => inferInstanceAs (Decidable (∀ _ ∈ _, _))
  | .array _ => inferInstanceAs (Decidable (_ ≠ _))
  | .function parameters _ => inferInstanceAs (Decidable (OpensParameters parameters))
  | .operator .keyof _ => inferInstanceAs (Decidable (_ = _))
  | .operator .readonly _ | .operator .unique _ | .reference .. | .literal .. | .intersection _
  | .tuple _ | .query _ | .raw _ => .isTrue trivial

/-- **A text that is read as the type**, at the type's level. -/
def TypeNode.Reads (t : TypeNode) : Prop :=
  match t.level with
  | .bracketed => ReadsBracketed t t.rendered.text
  | .operand => ReadsOperand t t.rendered.text
  | .intersection => ReadsIntersection t t.rendered.text
  | .type => ReadsType t t.rendered.text

namespace TypeNode.Reads

theorem bracketed (h : t.Reads) (hlevel : t.level = .bracketed) :
    ReadsBracketed t t.rendered.text := by
  rwa [Reads, hlevel] at h

theorem operand (h : t.Reads) (hlevel : t.level = .bracketed ∨ t.level = .operand) :
    ReadsOperand t t.rendered.text := by
  rw [Reads] at h
  rcases hlevel with hlevel | hlevel <;> rw [hlevel] at h
  · exact ReadsBracketed.operand h
  · exact h

theorem intersection (h : t.Reads) (hlevel : t.level ≠ .type) :
    ReadsIntersection t t.rendered.text := by
  rw [Reads] at h
  cases hl : t.level <;> rw [hl] at h
  · exact (ReadsBracketed.operand h).intersection
  · exact ReadsOperand.intersection h
  · exact h
  · exact absurd hl hlevel

theorem type (h : t.Reads) : ReadsType t t.rendered.text := by
  by_cases hlevel : t.level = .type
  · rwa [Reads, hlevel] at h
  · exact (h.intersection hlevel).type

end TypeNode.Reads

/-- What is written in parentheses as an operand. -/
theorem TypeNode.isComposite_rendered (t : TypeNode) :
    t.rendered.kind.isComposite = (t.level == .type || t.level == .intersection) := by
  have hall : ∀ p ∈ ResolvedType.intrinsics, (single p.2).kind.isComposite = false := by decide
  cases t with
  | reference name arguments =>
    rw [rendered]
    cases hname : ResolvedType.intrinsics.lookup name with
    | none => rfl
    | some types =>
      exact hall _ (mem_of_lookup hname)
  | literal kind text => cases kind <;> rfl
  | operator op operand => cases op <;> rfl
  | _ => rfl

/-- An array and a tuple need no parentheses. -/
theorem TypeNode.level_of_list (h : t.rendered.kind = .array ∨ t.rendered.kind = .tuple) :
    t.level = .bracketed := by
  cases t with
  | union | intersection | function => rcases h with h | h <;> cases h
  | operator op operand => cases op <;> rcases h with h | h <;> cases h
  | _ => rfl

namespace TypeNode.Reads

/-- **In parentheses where its kind asks for them** every type is an operand. -/
theorem operandText (h : t.Reads) : ReadsOperand t t.rendered.operandText := by
  rw [ResolvedType.operandText, t.isComposite_rendered]
  split
  · exact h.type.parenthesized.operand
  · next hlevel => exact h.operand (by revert hlevel; cases t.level <;> simp)

/-- No brackets are taken for those of the operand of an operator. -/
theorem bracketedText (h : t.Reads) (hlevel : t.level ≠ .operand) :
    ReadsBracketed t t.rendered.operandText := by
  rw [ResolvedType.operandText, t.isComposite_rendered]
  split
  · exact h.type.parenthesized
  · next hlow => exact h.bracketed (by revert hlow hlevel; cases t.level <;> simp)

end TypeNode.Reads

/-! ## Form by form -/

theorem readsArguments {ts : List TypeNode} (h : ∀ t ∈ ts, t.Reads) :
    ReadsArguments ts (argumentsText ((renderedTypes ts).map ([·]))) := by
  cases ts with
  | nil => exact readsArguments_nil
  | cons t ts =>
    have := readsArguments_cons (·.rendered.text) t ts fun u hu => (h u hu).type
    rw [renderedTypes_eq, argumentsText, List.map_map, List.map_map]
    · exact this
    · simp

theorem readsElement {e : TupleElement}
    (hname : ∀ w ∈ e.name?, isAsciiName w = true ∧ isNameAtType w = true)
    (h : e.type.Reads) : ReadsElement e e.rendered := by
  cases e with
  | plain t => exact readsElement_plain h.type
  | named name optional t =>
    exact readsElement_named (hname name rfl).1 (hname name rfl).2 optional h.type
  | rest t => exact readsElement_rest h.type

theorem readsSignature_rendered {ps : List Parameter} (hnames : ∀ p ∈ ps, isAsciiName p.name = true)
    (h : ∀ p ∈ ps, p.type.Reads) : ReadsSignature ps (signatureText (renderedParameters ps)) := by
  rw [renderedParameters_eq]
  refine readsSignature Parameter.rendered fun p hp => ?_
  have hname := hnames p hp
  have htype := (h p hp).type
  cases p
  exact readsParameter hname _ _ htype

theorem Member.IsLegible.reads {m : Member} (h : m.IsLegible) (hsettled : m.IsSettled s)
    (hwords : ∀ w ∈ m.words, isAsciiName w = true) (hparts : ∀ t ∈ m.types, t.Reads) :
    ReadsMember m m.rendered := by
  cases m with
  | property name optional readonly type =>
    obtain ⟨t, rfl, -⟩ := hsettled
    exact readsMember_property h.1 optional readonly h.2 (hparts t (by simp [Member.types])).type
  | method name optional parameters returns =>
    obtain ⟨t, rfl⟩ := Option.isSome_iff_exists.1 hsettled
    refine readsMember_method h.1 h.2 optional ?_ (hparts t (by simp [Member.types])).type
    exact readsSignature_rendered (List.forall_mem_map.1 hwords)
      fun p hp => hparts p.type (by simp [Member.types, List.mem_map_of_mem hp])
  | index key readonly keyType valueType =>
    exact readsMember_index (hwords key (by simp [Member.words])) readonly
      (hparts keyType (by simp [Member.types])).type (hparts valueType (by simp [Member.types])).type

/-! ## All types -/

/-- **A type of which every type inside it is legible is read as itself.** -/
theorem TypeNode.Settled.reads (h : t.Settled s) (hlegible : ∀ u ∈ t.subterms, u.IsLegible s) :
    t.Reads := by
  induction h with
  | @intro t hself _ ih =>
  obtain ⟨hspelled, hsettled, -⟩ := hself
  have hself := hlegible t t.self_mem_subterms
  have hparts (hparts : t.typeParts = t.parts) : ∀ part ∈ t.parts, part.Reads := fun part hpart =>
    ih part (hparts ▸ hpart) fun u hu => hlegible u (TypeNode.subterms_subset hpart hu)
  cases t with
  | reference name arguments =>
    change ReadsBracketed _ _
    rw [rendered]
    cases hname : ResolvedType.intrinsics.lookup name with
    | none => exact readsBracketed_reference hspelled.1 hspelled.2 (readsArguments (hparts rfl))
    | some types =>
      obtain rfl : arguments = [] := hsettled.1 (by rw [hname]; rfl)
      have hreads := readsBracketed_reference hspelled.1 hspelled.2 readsArguments_nil
      rw [String.append_empty] at hreads
      rwa [text_single_of_lookup hname]
  | imported module name arguments =>
    have hreads : ReadsBracketed (.imported module name arguments) _ :=
      readsBracketed_imported hspelled (readsArguments (hparts rfl))
    rw [hself.1] at hreads
    change ReadsBracketed _ _
    rw [rendered, show "import(\"" = "import(" ++ "\"" from rfl,
      show "\")." = "\"" ++ ")." from rfl, ResolvedType.text]
    simpa only [String.append_assoc] using hreads
  | literal kind text =>
    cases kind with
    | string => exact readsBracketed_string text
    | number => exact readsBracketed_number hspelled
    | template => exact readsBracketed_template hspelled
  | union members =>
    change ReadsType _ _
    rw [rendered, renderedTypes_eq, List.map_map]
    obtain ⟨v, w, ts, rfl⟩ := exists_cons_cons hspelled
    exact readsType_union (·.rendered.text) v w ts fun u hu =>
      (hparts rfl u hu).intersection (hself u hu)
  | intersection members =>
    change ReadsIntersection _ _
    rw [rendered, renderedTypes_eq, List.map_map]
    obtain ⟨v, w, ts, rfl⟩ := exists_cons_cons hspelled
    exact readsIntersection_intersection (·.rendered.operandText) v w ts fun u hu =>
      (hparts rfl u hu).operandText
  | array element =>
    exact ((hparts rfl element (List.mem_singleton_self _)).bracketedText hself).array
  | indexed o i =>
    have ho := hparts rfl o (by simp [parts])
    have hi := hparts rfl i (by simp [parts])
    exact (ho.bracketed hself.1).indexed hi.type
  | tuple elements =>
    change ReadsBracketed _ _
    rw [rendered, renderedElements_eq]
    exact readsBracketed_tuple _ fun e he =>
      readsElement (hspelled e he) (hparts rfl _ (List.mem_map_of_mem he))
  | function parameters returns =>
    have hsignature := readsSignature_rendered hspelled fun p hp =>
      hparts rfl p.type (List.mem_append_left _ (List.mem_map_of_mem hp))
    exact readsType_function hself hsignature (hparts rfl returns (by simp [parts])).type
  | operator op operand =>
    cases op with
    | keyof => exact (hparts rfl operand (List.mem_singleton_self _)).operandText.keyof
    | readonly =>
      have hlevel : operand.level = .bracketed := level_of_list hsettled
      exact ((hparts rfl operand (List.mem_singleton_self _)).operand (.inl hlevel)).readonly
    | unique =>
      obtain rfl : operand = .reference "symbol" [] := hsettled
      exact readsOperand_unique
  | query name => exact readsBracketed_query hspelled
  | object members =>
    change ReadsBracketed _ _
    rw [rendered, renderedMembers_eq]
    refine readsBracketed_object _ fun m hm => (hself m hm).reads (hsettled m hm) (hspelled m hm) ?_
    exact fun t ht => hparts rfl t (List.mem_flatMap.2 ⟨m, hm, ht⟩)
  | raw text => exact hspelled.elim

/-- **The text of a legible type is read as the type.** -/
theorem parseType_rendered (h : t.Settled s) (hlegible : ∀ u ∈ t.subterms, u.IsLegible s) :
    parseType t.rendered.text.toList = t := (h.reads hlegible).type.parseType

end FluentBuilders
