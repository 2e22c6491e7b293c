import FluentBuilders.Proofs.Syntax.Reading
import FluentBuilders.Proofs.Syntax.Layout
import FluentBuilders.Proofs.Text.Quoted

/-!
# Proofs/Syntax/Spelling — writing a type so that it is read back

`TypeNode.tokens` spells a type out: every type inside another stands in parentheses, object members
end in semicolons, texts are double-quoted literals.  A type that has a spelling, `Spellable`, is
what its tokens are read as (`Spellable.readsBack`).
-/

namespace FluentBuilders

open Grammar

/-! ## Names and numbers -/

/-- **An ASCII identifier.** -/
def isAsciiName (name : String) : Bool := Text.isNameOver Text.isIdentifierPart name.toList

/-- The parts of a name between its dots. -/
def nameParts (name : String) : List String := (name.toList.splitOn '.').map String.ofList

/-- The tokens of a name that may have dots in it. -/
def nameTokens (name : String) : List Token :=
  match nameParts name with
  | [] => []
  | first :: parts => .word first :: dottedTokens parts

/-- The token of a number. -/
def numberToken (text : String) : Token :=
  if text.toList.head? = some '-' then .negative text else .number text

theorem toList_dotted (name : String) (parts : List String) :
    (dotted name parts).toList = ['.'].intercalate ((name :: parts).map String.toList) := by
  induction parts generalizing name with
  | nil => simp [dotted]
  | cons part parts ih =>
    have := ih (name ++ "." ++ part)
    rw [dotted, List.foldl_cons] at *
    rw [this]
    cases parts <;> simp [List.intercalate]

/-- A name is made of its parts. -/
theorem exists_nameParts (name : String) :
    ∃ first parts, nameParts name = first :: parts ∧ dotted first parts = name := by
  obtain ⟨first, parts, hparts⟩ :=
    List.exists_cons_of_ne_nil (List.splitOn_ne_nil '.' name.toList)
  refine ⟨String.ofList first, parts.map String.ofList, by simp [nameParts, hparts], ?_⟩
  apply String.toList_injective
  rw [toList_dotted]
  have := @List.intercalate_splitOn _ name.toList _ _ '.'
  rw [hparts] at this
  simpa using this

/-- Each part of a name is of the kind `ok`. -/
def DottedBy (ok : String → Prop) (name : String) : Prop := ∀ part ∈ nameParts name, ok part

theorem nameTokens_of_nameParts {name first : String} {parts : List String}
    (h : nameParts name = first :: parts) :
    nameTokens name = .word first :: dottedTokens parts := by
  rw [nameTokens, h]

/-! ## Parts of trees -/

namespace TupleElement

/-- The type of an element. -/
def type : TupleElement → TypeNode
  | .plain t => t
  | .named _ _ t => t
  | .rest t => t

/-- The name of an element, if it has one. -/
def name? : TupleElement → Option String
  | .named name _ _ => some name
  | _ => none

end TupleElement

namespace Parameter

/-- The name of a parameter. -/
def name : Parameter → String
  | .mk name _ _ _ => name

/-- The type of a parameter. -/
def type : Parameter → TypeNode
  | .mk _ _ _ t => t

end Parameter

namespace Member

/-- The types of a member. -/
def types : Member → List TypeNode
  | .property _ _ _ t => t.toList
  | .method _ _ ps r => ps.map Parameter.type ++ r.toList
  | .index _ _ k v => [k, v]

/-- The names of a member that are written as words. -/
def words : Member → List String
  | .property .. => []
  | .method _ _ ps _ => ps.map Parameter.name
  | .index key _ _ _ => [key]

end Member

/-! ## Spelling -/

/-- Tokens in parentheses. -/
def parenthesized (ts : List Token) : List Token :=
  .mark .openParen :: (ts ++ [.mark .closeParen])

mutual

/-- **The tokens of a type.** -/
def TypeNode.tokens : TypeNode → List Token
  | .reference name arguments => nameTokens name ++ argumentTokens arguments
  | .imported module name arguments =>
    .word "import" :: .mark .openParen :: .string (Text.typeLiteral module) ::
      .mark .closeParen :: .mark .dot :: (nameTokens name ++ argumentTokens arguments)
  | .literal .string text => [.string (Text.typeLiteral text)]
  | .literal .number text => [numberToken text]
  | .literal .template text => [.template text]
  | .union members => groupTokens .bar members
  | .intersection members => groupTokens .ampersand members
  | .array element =>
    parenthesized element.tokens ++ [.mark .openBracket, .mark .closeBracket]
  | .indexed object index =>
    parenthesized object.tokens ++
      .mark .openBracket :: (parenthesized index.tokens ++ [.mark .closeBracket])
  | .tuple elements => .mark .openBracket :: elementsTokens elements
  | .function parameters returns =>
    .mark .openParen ::
      (parametersTokens parameters ++ .mark .arrow :: parenthesized returns.tokens)
  | .operator .unique (.reference name []) => [.word "unique", .word name]
  | .operator op operand => .word op.word :: parenthesized operand.tokens
  | .query name => .word "typeof" :: nameTokens name
  | .object members => .mark .openBrace :: membersTokens members
  | .raw _ => []

/-- Types with the mark `m` between them. -/
def groupTokens (m : Mark) : List TypeNode → List Token
  | [] => []
  | t :: ts => parenthesized t.tokens ++ tailTokens m ts

/-- Types, each with the mark `m` before it. -/
def tailTokens (m : Mark) : List TypeNode → List Token
  | [] => []
  | t :: ts => .mark m :: (parenthesized t.tokens ++ tailTokens m ts)

/-- Type arguments, if there are any. -/
def argumentTokens : List TypeNode → List Token
  | [] => []
  | t :: ts =>
    .mark .openAngle :: (parenthesized t.tokens ++ (tailTokens .comma ts ++ [.mark .closeAngle]))

/-- The elements of a tuple up to the closing bracket. -/
def elementsTokens : List TupleElement → List Token
  | [] => [.mark .closeBracket]
  | [e] => e.tokens ++ [.mark .closeBracket]
  | e :: es => e.tokens ++ .mark .comma :: elementsTokens es

/-- The tokens of a tuple element. -/
def TupleElement.tokens : TupleElement → List Token
  | .plain t => parenthesized t.tokens
  | .named name optional t =>
    .word name :: (tokenIf optional (.mark .question) ++ .mark .colon :: parenthesized t.tokens)
  | .rest t => .mark .ellipsis :: parenthesized t.tokens

/-- Parameters up to the closing parenthesis. -/
def parametersTokens : List Parameter → List Token
  | [] => [.mark .closeParen]
  | [p] => p.tokens ++ [.mark .closeParen]
  | p :: ps => p.tokens ++ .mark .comma :: parametersTokens ps

/-- The tokens of a parameter. -/
def Parameter.tokens : Parameter → List Token
  | .mk name optional spread t =>
    tokenIf spread (.mark .ellipsis) ++ .word name ::
      (tokenIf optional (.mark .question) ++ .mark .colon :: parenthesized t.tokens)

/-- Members up to the closing brace, each with a semicolon. -/
def membersTokens : List Member → List Token
  | [] => [.mark .closeBrace]
  | m :: ms => m.tokens ++ .mark .semicolon :: membersTokens ms

/-- The tokens of a member. -/
def Member.tokens : Member → List Token
  | .property name optional readonly t =>
    tokenIf readonly (.word "readonly") ++ .string (Text.typeLiteral name) ::
      (tokenIf optional (.mark .question) ++ annotationTokens t)
  | .method name optional parameters returns =>
    .string (Text.typeLiteral name) :: (tokenIf optional (.mark .question) ++
      .mark .openParen :: (parametersTokens parameters ++ annotationTokens returns))
  | .index key readonly keyType valueType =>
    tokenIf readonly (.word "readonly") ++ .mark .openBracket :: .word key :: .mark .colon ::
      (parenthesized keyType.tokens ++ .mark .closeBracket :: .mark .colon ::
        parenthesized valueType.tokens)

/-- A colon and a type, if there is one. -/
def annotationTokens : Option TypeNode → List Token
  | none => []
  | some t => .mark .colon :: parenthesized t.tokens

end

/-- **A type that has a spelling**, its identifiers being of the kind `ok`: no raw text in it,
unions and intersections of two or more, numbers and templates as they can be written. -/
inductive TypeNode.Spellable (ok : String → Prop) : TypeNode → Prop
  | reference (name : String) (arguments : List TypeNode) (hname : DottedBy ok name)
      (h : ∀ t ∈ arguments, Spellable ok t) : Spellable ok (.reference name arguments)
  | imported (module name : String) (arguments : List TypeNode) (hname : DottedBy ok name)
      (h : ∀ t ∈ arguments, Spellable ok t) : Spellable ok (.imported module name arguments)
  | string (text : String) : Spellable ok (.literal .string text)
  | number (text : String) (h : (numberToken text).Whole) : Spellable ok (.literal .number text)
  | template (text : String) (h : (Token.template text).Whole) :
      Spellable ok (.literal .template text)
  | union (members : List TypeNode) (hlen : 2 ≤ members.length)
      (h : ∀ t ∈ members, Spellable ok t) : Spellable ok (.union members)
  | intersection (members : List TypeNode) (hlen : 2 ≤ members.length)
      (h : ∀ t ∈ members, Spellable ok t) : Spellable ok (.intersection members)
  | array (element : TypeNode) (h : Spellable ok element) : Spellable ok (.array element)
  | indexed (object index : TypeNode) (ho : Spellable ok object) (hi : Spellable ok index) :
      Spellable ok (.indexed object index)
  | tuple (elements : List TupleElement) (hnames : ∀ e ∈ elements, ∀ n ∈ e.name?, ok n)
      (h : ∀ e ∈ elements, Spellable ok e.type) : Spellable ok (.tuple elements)
  | function (parameters : List Parameter) (returns : TypeNode)
      (hnames : ∀ p ∈ parameters, ok p.name) (h : ∀ p ∈ parameters, Spellable ok p.type)
      (hr : Spellable ok returns) : Spellable ok (.function parameters returns)
  | operator (op : TypeOperator) (operand : TypeNode) (hop : op ≠ .unique)
      (h : Spellable ok operand) : Spellable ok (.operator op operand)
  | unique (name : String) (hname : ok name) : Spellable ok (.operator .unique (.reference name []))
  | query (name : String) (hname : DottedBy ok name) : Spellable ok (.query name)
  | object (members : List Member) (hnames : ∀ m ∈ members, ∀ n ∈ m.words, ok n)
      (h : ∀ m ∈ members, ∀ t ∈ m.types, Spellable ok t) : Spellable ok (.object members)

/-! ## Reading it back -/

namespace Grammar

/-- The tokens that would carry a type on. -/
def carriesOn : Token → Bool
  | .mark .bar | .mark .ampersand | .mark .openBracket | .mark .dot | .mark .openAngle => true
  | _ => false

/-- A type can end in front of the token. -/
def EndsType (next : Option Token) : Prop := ∀ t ∈ next, carriesOn t = false

theorem EndsType.ne {next : Option Token} (h : EndsType next) {t : Token}
    (ht : carriesOn t = true) : next ≠ some t := by
  rintro rfl
  have := h t rfl
  rw [ht] at this
  cases this

theorem endsType_some {t : Token} (h : carriesOn t = false) : EndsType (some t) := by
  rintro u hu
  cases hu
  exact h

theorem Derives.intersection_of_operand {ts t next} (h : Derives .operand ts t next)
    (hnext : next ≠ some (.mark .ampersand)) : Derives .intersection ts t next := by
  have htail : Derives .intersectionTail [] [] next := .intersectionEnd hnext
  simpa [groupOf] using Derives.intersectionOf false h htail

theorem Derives.type_of_intersection {ts t next} (h : Derives .intersection ts t next)
    (hnext : next ≠ some (.mark .bar)) : Derives .type ts t next := by
  have htail : Derives .unionTail [] [] next := .unionEnd hnext
  exact .ofUnion (by simpa [groupOf] using Derives.unionOf false h htail)

theorem Derives.operand_of_primary {ts t next} (h : Derives .primary ts t next)
    (hnext : next ≠ some (.mark .openBracket)) : Derives .operand ts t next := by
  have hend : Derives (.brackets t) [] t next := .bracketsEnd hnext
  simpa using Derives.bracketed h hend

theorem Derives.type_of_operand {ts t next} (h : Derives .operand ts t next)
    (hnext : EndsType next) : Derives .type ts t next :=
  (h.intersection_of_operand (hnext.ne rfl)).type_of_intersection (hnext.ne rfl)

theorem Derives.type_of_primary {ts t next} (h : Derives .primary ts t next)
    (hnext : EndsType next) : Derives .type ts t next :=
  (h.operand_of_primary (hnext.ne rfl)).type_of_operand hnext

/-- **A type is what its tokens are read as**, in front of a token it can end before. -/
def ReadsBack (t : TypeNode) : Prop := ∀ next, EndsType next → Derives .type t.tokens t next

namespace ReadsBack

variable {t : TypeNode} {ts : List TypeNode} {next : Option Token}

theorem primary (h : ReadsBack t) : Derives .primary (parenthesized t.tokens) t next :=
  .parens (h _ (endsType_some rfl))

theorem operand (h : ReadsBack t) (hnext : next ≠ some (.mark .openBracket)) :
    Derives .operand (parenthesized t.tokens) t next := h.primary.operand_of_primary hnext

theorem type (h : ReadsBack t) (hnext : EndsType next) :
    Derives .type (parenthesized t.tokens) t next := h.primary.type_of_primary hnext

theorem headOr_tailTokens (m : Mark) (hm : m ≠ .openBracket) (hnext : EndsType next) :
    headOr (tailTokens m ts) next ≠ some (.mark .openBracket) := by
  cases ts with
  | nil => exact hnext.ne rfl
  | cons t ts => simpa [tailTokens] using hm

theorem intersectionTail (h : ∀ t ∈ ts, ReadsBack t) (hnext : EndsType next) :
    Derives .intersectionTail (tailTokens .ampersand ts) ts next := by
  induction ts with
  | nil => exact .intersectionEnd (hnext.ne rfl)
  | cons t ts ih =>
    rw [List.forall_mem_cons] at h
    exact .intersectionMore (h.1.operand (headOr_tailTokens _ (by decide) hnext)) (ih h.2)

theorem unionTail (h : ∀ t ∈ ts, ReadsBack t) (hnext : EndsType next) :
    Derives .unionTail (tailTokens .bar ts) ts next := by
  induction ts with
  | nil => exact .unionEnd (hnext.ne rfl)
  | cons t ts ih =>
    rw [List.forall_mem_cons] at h
    have hoperand := h.1.operand (@headOr_tailTokens ts next .bar (by decide) hnext)
    refine .unionMore (hoperand.intersection_of_operand ?_) (ih h.2)
    cases ts with
    | nil => exact hnext.ne rfl
    | cons => simp [tailTokens]

theorem argumentList (ht : ReadsBack t) (h : ∀ t ∈ ts, ReadsBack t) :
    Derives .argumentList (parenthesized t.tokens ++ (tailTokens .comma ts ++ [.mark .closeAngle]))
      (t :: ts) next := by
  induction ts generalizing t with
  | nil => exact .lastArgument (ht.type (endsType_some rfl))
  | cons u ts ih =>
    rw [List.forall_mem_cons] at h
    simp only [tailTokens, List.cons_append, List.append_assoc]
    exact .moreArguments (ht.type (endsType_some rfl)) (ih h.1 h.2)

theorem arguments (h : ∀ t ∈ ts, ReadsBack t) (hnext : EndsType next) :
    Derives .arguments (argumentTokens ts) ts next := by
  cases ts with
  | nil => exact .noArguments (hnext.ne rfl)
  | cons t ts =>
    rw [List.forall_mem_cons] at h
    exact .someArguments (argumentList h.1 h.2)

theorem headOr_argumentTokens (hnext : EndsType next) :
    headOr (argumentTokens ts) next ≠ some (.mark .dot) := by
  cases ts with
  | nil => exact hnext.ne rfl
  | cons t ts => simp [argumentTokens]

theorem element {e : TupleElement} (hname : ∀ n ∈ e.name?, isNameAtType n) (h : ReadsBack e.type)
    (hnext : EndsType next) : Derives .element e.tokens e next := by
  cases e with
  | plain t =>
    rw [TupleElement.tokens]
    exact .plainElement rfl (h.type hnext)
  | named name optional t =>
    rw [TupleElement.tokens]
    exact .namedElement name optional (hname name rfl) (h.type hnext)
  | rest t =>
    rw [TupleElement.tokens]
    exact .restElement (h.type hnext)

theorem elements {es : List TupleElement} (hnames : ∀ e ∈ es, ∀ n ∈ e.name?, isNameAtType n)
    (h : ∀ e ∈ es, ReadsBack e.type) : Derives .elements (elementsTokens es) es next := by
  induction es with
  | nil => exact .noElements
  | cons e es ih =>
    rw [List.forall_mem_cons] at hnames h
    cases es with
    | nil => exact .lastElement (element hnames.1 h.1 (endsType_some rfl))
    | cons =>
      rw [elementsTokens]
      · exact .moreElements (element hnames.1 h.1 (endsType_some rfl)) (ih hnames.2 h.2)
      · simp

theorem parameter {p : Parameter} (h : ReadsBack p.type) (hnext : EndsType next) :
    Derives .parameter p.tokens p next := by
  obtain ⟨name, optional, spread, t⟩ := p
  rw [Parameter.tokens]
  exact .parameter name optional spread (h.type hnext)

theorem parameters {ps : List Parameter} (h : ∀ p ∈ ps, ReadsBack p.type) :
    Derives .parameters (parametersTokens ps) ps next := by
  induction ps with
  | nil => exact .noParameters
  | cons p ps ih =>
    rw [List.forall_mem_cons] at h
    cases ps with
    | nil => exact .lastParameter (parameter h.1 (endsType_some rfl))
    | cons =>
      rw [parametersTokens]
      · exact .moreParameters (parameter h.1 (endsType_some rfl)) (ih h.2)
      · simp

/-- Written parameters are no type in parentheses. -/
theorem startsParameters_parametersTokens {ps : List Parameter}
    (hnames : ∀ p ∈ ps, isNameAtType p.name) (rest : List Token) :
    startsParameters (parametersTokens ps ++ rest) := by
  match ps with
  | [] => rfl
  | [.mk name optional spread t] =>
    have := hnames _ List.mem_cons_self
    cases spread <;> cases optional <;> first | rfl | exact this
  | .mk name optional spread t :: _ :: _ =>
    have := hnames _ List.mem_cons_self
    cases spread <;> cases optional <;> first | rfl | exact this

theorem ascription {t : Option TypeNode} (h : ∀ u ∈ t, ReadsBack u) (hnext : EndsType next)
    (hcolon : next ≠ some (.mark .colon)) : Derives .ascription (annotationTokens t) t next := by
  cases t with
  | none => exact .noAscription hcolon
  | some t => exact .someAscription ((h t rfl).type hnext)

theorem propertyName?_typeLiteral (name : String) :
    propertyName? [.string (Text.typeLiteral name)] = some (name, []) := by
  rw [propertyName?, Text.unquoteString_typeLiteral]

theorem member {m : Member} (h : ∀ t ∈ m.types, ReadsBack t) :
    Derives .member m.tokens m (some (.mark .semicolon)) := by
  have hsemicolon : EndsType (some (.mark .semicolon)) := endsType_some rfl
  cases m with
  | property name optional readonly t =>
    rw [Member.tokens]
    refine .property name optional readonly (propertyName?_typeLiteral name) (by simp) ?_ ?_
      (ascription (by simpa [Member.types] using h) hsemicolon (by simp))
    · cases t <;> simp [annotationTokens]
    · cases t <;> simp [annotationTokens]
  | method name optional ps r =>
    simp only [Member.types, List.mem_append, List.mem_map, or_imp, forall_and,
      forall_exists_index, and_imp, forall_apply_eq_imp_iff₂, Option.mem_toList] at h
    rw [Member.tokens]
    exact .method name optional (propertyName?_typeLiteral name) (by simp) (parameters h.1)
      (ascription h.2 hsemicolon (by simp))
  | index key readonly k v =>
    simp only [Member.types, List.mem_cons, List.not_mem_nil, or_false, forall_eq_or_imp,
      forall_eq] at h
    rw [Member.tokens]
    exact .index key readonly (h.1.type (endsType_some rfl)) (h.2.type hsemicolon)

theorem members {ms : List Member} (h : ∀ m ∈ ms, ∀ t ∈ m.types, ReadsBack t) :
    Derives .members (membersTokens ms) ms next := by
  induction ms with
  | nil => exact .noMembers
  | cons m ms ih =>
    rw [List.forall_mem_cons] at h
    exact .moreMembers [.mark .semicolon] (by simp [separators]) (member h.1) (ih h.2)

end ReadsBack

end Grammar

/-- **A spelled type is read back** from its tokens, when its identifiers are no operators. -/
theorem TypeNode.Spellable.readsBack {ok : String → Prop} (hok : ∀ n, ok n → isNameAtType n)
    {t : TypeNode} (h : t.Spellable ok) : ReadsBack t := by
  induction h with
  | reference name arguments hname _ ih =>
    intro next hnext
    obtain ⟨first, parts, hparts, rfl⟩ := exists_nameParts name
    have hfirst := hok first (hname first (by simp [hparts]))
    rw [TypeNode.tokens, nameTokens_of_nameParts hparts]
    exact (Derives.reference first parts hfirst (ReadsBack.headOr_argumentTokens hnext)
      (ReadsBack.arguments ih hnext)).type_of_primary hnext
  | imported module name arguments hname _ ih =>
    intro next hnext
    obtain ⟨first, parts, hparts, rfl⟩ := exists_nameParts name
    rw [TypeNode.tokens, nameTokens_of_nameParts hparts]
    have := Derives.imported (Text.typeLiteral module) first parts
      (ReadsBack.headOr_argumentTokens hnext) (ReadsBack.arguments ih hnext)
    rw [Text.unquoteString_typeLiteral] at this
    exact this.type_of_primary hnext
  | string text =>
    intro next hnext
    have := @Derives.string next (Text.typeLiteral text)
    rw [Text.unquoteString_typeLiteral] at this
    exact this.type_of_primary hnext
  | number text =>
    intro next hnext
    rw [TypeNode.tokens, numberToken]
    split
    · exact (Derives.negative text).type_of_primary hnext
    · exact (Derives.number text).type_of_primary hnext
  | template text =>
    intro next hnext
    exact (Derives.template text).type_of_primary hnext
  | union members hlen _ ih =>
    intro next hnext
    match members, hlen with
    | t :: u :: ts, _ =>
      rw [List.forall_mem_cons] at ih
      have hoperand := ih.1.operand
        (@ReadsBack.headOr_tailTokens (u :: ts) next .bar (by decide) hnext)
      have := Derives.unionOf false (hoperand.intersection_of_operand (by simp [tailTokens]))
        (ReadsBack.unionTail ih.2 hnext)
      exact .ofUnion (by simpa [TypeNode.tokens, groupTokens, groupOf] using this)
  | intersection members hlen _ ih =>
    intro next hnext
    match members, hlen with
    | t :: u :: ts, _ =>
      rw [List.forall_mem_cons] at ih
      have hoperand := ih.1.operand
        (@ReadsBack.headOr_tailTokens (u :: ts) next .ampersand (by decide) hnext)
      have := Derives.intersectionOf false hoperand (ReadsBack.intersectionTail ih.2 hnext)
      refine Derives.type_of_intersection ?_ (hnext.ne rfl)
      simpa [TypeNode.tokens, groupTokens, groupOf] using this
  | array element _ ih =>
    intro next hnext
    have hend : Derives (.brackets (.array element)) [] _ next := .bracketsEnd (hnext.ne rfl)
    exact (Derives.bracketed ih.primary (.arrayOf hend)).type_of_operand hnext
  | indexed object index _ _ iho ihi =>
    intro next hnext
    have hend : Derives (.brackets (.indexed object index)) [] _ next :=
      .bracketsEnd (hnext.ne rfl)
    have hindex := ihi.type (@endsType_some (.mark .closeBracket) rfl)
    exact (Derives.bracketed iho.primary (.indexedBy hindex hend)).type_of_operand hnext
  | tuple elements hnames _ ih =>
    intro next hnext
    have hnames := fun e he n hn => hok n (hnames e he n hn)
    exact (Derives.tuple (ReadsBack.elements hnames ih)).type_of_primary hnext
  | function parameters returns hnames _ _ ih ihr =>
    intro next hnext
    have hstarts := ReadsBack.startsParameters_parametersTokens
      (fun p hp => hok p.name (hnames p hp))
      (.mark .arrow :: parenthesized returns.tokens)
    rw [TypeNode.tokens]
    exact .ofFunction hstarts (.arrow (ReadsBack.parameters ih) (ihr.type hnext))
  | operator op operand hop _ ih =>
    intro next hnext
    have hoperand := ih.operand (hnext.ne rfl)
    cases op with
    | keyof => exact (Derives.keyofOf hoperand).type_of_operand hnext
    | readonly => exact (Derives.readonlyOf hoperand).type_of_operand hnext
    | unique => exact absurd rfl hop
  | unique name =>
    intro next hnext
    exact (Derives.uniqueOf name).type_of_operand hnext
  | query name hname =>
    intro next hnext
    obtain ⟨first, parts, hparts, rfl⟩ := exists_nameParts name
    rw [TypeNode.tokens, nameTokens_of_nameParts hparts]
    exact (Derives.query first parts (hnext.ne rfl)).type_of_primary hnext
  | object members _ _ ih =>
    intro next hnext
    exact (Derives.object (ReadsBack.members ih)).type_of_primary hnext

/-! ## The tokens of a spelling -/

section Tokens

variable {P : Token → Prop}

theorem forall_parenthesized (hmark : ∀ m, P (.mark m)) {ts : List Token} (h : ∀ x ∈ ts, P x) :
    ∀ x ∈ parenthesized ts, P x := by
  simp only [parenthesized, List.forall_mem_cons, List.forall_mem_append, hmark, true_and]
  exact ⟨h, by simp⟩

theorem forall_dottedTokens (hmark : ∀ m, P (.mark m)) {parts : List String}
    (h : ∀ part ∈ parts, P (.word part)) : ∀ x ∈ dottedTokens parts, P x := by
  simp only [dottedTokens, List.mem_flatMap, forall_exists_index, and_imp]
  rintro x part hpart hx
  simp only [List.mem_cons, List.not_mem_nil, or_false] at hx
  rcases hx with rfl | rfl
  · exact hmark _
  · exact h part hpart

theorem forall_nameTokens (hmark : ∀ m, P (.mark m)) {name : String}
    (h : ∀ part ∈ nameParts name, P (.word part)) : ∀ x ∈ nameTokens name, P x := by
  obtain ⟨first, parts, hparts, -⟩ := exists_nameParts name
  rw [hparts, List.forall_mem_cons] at h
  rw [nameTokens_of_nameParts hparts]
  exact List.forall_mem_cons.2 ⟨h.1, forall_dottedTokens hmark h.2⟩

theorem forall_tokenIf {t : Token} (ht : P t) (present : Bool) : ∀ x ∈ tokenIf present t, P x := by
  cases present <;> simp [ht]

theorem forall_tailTokens (hmark : ∀ m, P (.mark m)) (m : Mark) {ts : List TypeNode}
    (h : ∀ t ∈ ts, ∀ x ∈ t.tokens, P x) : ∀ x ∈ tailTokens m ts, P x := by
  induction ts with
  | nil => simp [tailTokens]
  | cons t ts ih =>
    rw [List.forall_mem_cons] at h
    simp only [tailTokens, List.forall_mem_cons, List.forall_mem_append, hmark, true_and]
    exact ⟨forall_parenthesized hmark h.1, ih h.2⟩

theorem forall_argumentTokens (hmark : ∀ m, P (.mark m)) {ts : List TypeNode}
    (h : ∀ t ∈ ts, ∀ x ∈ t.tokens, P x) : ∀ x ∈ argumentTokens ts, P x := by
  cases ts with
  | nil => simp [argumentTokens]
  | cons t ts =>
    rw [List.forall_mem_cons] at h
    simp only [argumentTokens, List.forall_mem_cons, List.forall_mem_append, hmark, true_and]
    exact ⟨forall_parenthesized hmark h.1, forall_tailTokens hmark .comma h.2, by simp⟩

theorem forall_groupTokens (hmark : ∀ m, P (.mark m)) (m : Mark) {ts : List TypeNode}
    (h : ∀ t ∈ ts, ∀ x ∈ t.tokens, P x) : ∀ x ∈ groupTokens m ts, P x := by
  cases ts with
  | nil => simp [groupTokens]
  | cons t ts =>
    rw [List.forall_mem_cons] at h
    simp only [groupTokens, List.forall_mem_append]
    exact ⟨forall_parenthesized hmark h.1, forall_tailTokens hmark m h.2⟩

theorem forall_annotationTokens (hmark : ∀ m, P (.mark m)) {t : Option TypeNode}
    (h : ∀ u ∈ t, ∀ x ∈ u.tokens, P x) : ∀ x ∈ annotationTokens t, P x := by
  cases t with
  | none => simp [annotationTokens]
  | some t =>
    exact List.forall_mem_cons.2 ⟨hmark _, forall_parenthesized hmark (h t rfl)⟩

theorem TupleElement.forall_tokens (hmark : ∀ m, P (.mark m)) {e : TupleElement}
    (hname : ∀ n ∈ e.name?, P (.word n)) (h : ∀ x ∈ e.type.tokens, P x) : ∀ x ∈ e.tokens, P x := by
  cases e with
  | plain t => exact forall_parenthesized hmark h
  | named name optional t =>
    simp only [TupleElement.tokens, List.forall_mem_cons, List.forall_mem_append, hmark, true_and]
    exact ⟨hname name rfl, forall_tokenIf (hmark _) optional, forall_parenthesized hmark h⟩
  | rest t => exact List.forall_mem_cons.2 ⟨hmark _, forall_parenthesized hmark h⟩

theorem forall_elementsTokens (hmark : ∀ m, P (.mark m)) {es : List TupleElement}
    (hnames : ∀ e ∈ es, ∀ n ∈ e.name?, P (.word n)) (h : ∀ e ∈ es, ∀ x ∈ e.type.tokens, P x) :
    ∀ x ∈ elementsTokens es, P x := by
  induction es with
  | nil => simp [elementsTokens, hmark]
  | cons e es ih =>
    rw [List.forall_mem_cons] at hnames h
    have he := TupleElement.forall_tokens hmark hnames.1 h.1
    cases es with
    | nil => simpa [elementsTokens, or_imp, forall_and, hmark] using he
    | cons =>
      rw [elementsTokens]
      · simp only [List.forall_mem_append, List.forall_mem_cons, hmark, true_and]
        exact ⟨he, ih hnames.2 h.2⟩
      · simp

theorem Parameter.forall_tokens (hmark : ∀ m, P (.mark m)) {p : Parameter}
    (hname : P (.word p.name)) (h : ∀ x ∈ p.type.tokens, P x) : ∀ x ∈ p.tokens, P x := by
  obtain ⟨name, optional, spread, t⟩ := p
  simp only [Parameter.tokens, List.forall_mem_cons, List.forall_mem_append, hmark, true_and]
  exact ⟨forall_tokenIf (hmark _) spread, hname, forall_tokenIf (hmark _) optional,
    forall_parenthesized hmark h⟩

theorem forall_parametersTokens (hmark : ∀ m, P (.mark m)) {ps : List Parameter}
    (hnames : ∀ p ∈ ps, P (.word p.name)) (h : ∀ p ∈ ps, ∀ x ∈ p.type.tokens, P x) :
    ∀ x ∈ parametersTokens ps, P x := by
  induction ps with
  | nil => simp [parametersTokens, hmark]
  | cons p ps ih =>
    rw [List.forall_mem_cons] at hnames h
    have hp := Parameter.forall_tokens hmark hnames.1 h.1
    cases ps with
    | nil => simpa [parametersTokens, or_imp, forall_and, hmark] using hp
    | cons =>
      rw [parametersTokens]
      · simp only [List.forall_mem_append, List.forall_mem_cons, hmark, true_and]
        exact ⟨hp, ih hnames.2 h.2⟩
      · simp

theorem Member.forall_tokens (hmark : ∀ m, P (.mark m)) (hreadonly : P (.word "readonly"))
    (hstring : ∀ text, P (.string (Text.typeLiteral text))) {m : Member}
    (hnames : ∀ n ∈ m.words, P (.word n)) (h : ∀ t ∈ m.types, ∀ x ∈ t.tokens, P x) :
    ∀ x ∈ m.tokens, P x := by
  cases m with
  | property name optional readonly t =>
    simp only [Member.tokens, List.forall_mem_cons, List.forall_mem_append]
    exact ⟨forall_tokenIf hreadonly readonly, hstring name, forall_tokenIf (hmark _) optional,
      forall_annotationTokens hmark (by simpa [Member.types] using h)⟩
  | method name optional ps r =>
    simp only [Member.types, List.mem_append, List.mem_map, or_imp, forall_and,
      forall_exists_index, and_imp, forall_apply_eq_imp_iff₂, Option.mem_toList] at h
    simp only [Member.words, List.forall_mem_map] at hnames
    simp only [Member.tokens, List.forall_mem_cons, List.forall_mem_append, hmark, true_and]
    exact ⟨hstring name, forall_tokenIf (hmark _) optional,
      forall_parametersTokens hmark hnames h.1, forall_annotationTokens hmark h.2⟩
  | index key readonly k v =>
    simp only [Member.types, List.forall_mem_cons] at h
    simp only [Member.tokens, List.forall_mem_cons, List.forall_mem_append, hmark, true_and]
    exact ⟨forall_tokenIf hreadonly readonly, hnames key List.mem_cons_self,
      forall_parenthesized hmark h.1, forall_parenthesized hmark h.2.1⟩

theorem forall_membersTokens (hmark : ∀ m, P (.mark m)) (hreadonly : P (.word "readonly"))
    (hstring : ∀ text, P (.string (Text.typeLiteral text))) {ms : List Member}
    (hnames : ∀ m ∈ ms, ∀ n ∈ m.words, P (.word n))
    (h : ∀ m ∈ ms, ∀ t ∈ m.types, ∀ x ∈ t.tokens, P x) : ∀ x ∈ membersTokens ms, P x := by
  induction ms with
  | nil => simp [membersTokens, hmark]
  | cons m ms ih =>
    rw [List.forall_mem_cons] at hnames h
    simp only [membersTokens, List.forall_mem_append, List.forall_mem_cons, hmark, true_and]
    exact ⟨Member.forall_tokens hmark hreadonly hstring hnames.1 h.1, ih hnames.2 h.2⟩

/-- **What holds of every token** that a spelling can be made of holds of its tokens. -/
theorem TypeNode.Spellable.forall_tokens {ok : String → Prop} (hmark : ∀ m, P (.mark m))
    (hoperator : ∀ w ∈ operatorWords, P (.word w)) (hword : ∀ n, ok n → P (.word n))
    (hstring : ∀ text, P (.string (Text.typeLiteral text)))
    (hnumber : ∀ text, (numberToken text).Whole → P (numberToken text))
    (htemplate : ∀ text, (Token.template text).Whole → P (.template text))
    {t : TypeNode} (h : t.Spellable ok) : ∀ x ∈ t.tokens, P x := by
  have hname : ∀ {name}, DottedBy ok name → ∀ x ∈ nameTokens name, P x := fun h =>
    forall_nameTokens hmark fun part hpart => hword part (h part hpart)
  have hreadonly := hoperator "readonly" (by decide)
  induction h with
  | reference name arguments hdotted _ ih =>
    exact List.forall_mem_append.2 ⟨hname hdotted, forall_argumentTokens hmark ih⟩
  | imported module name arguments hdotted _ ih =>
    simp only [TypeNode.tokens, List.forall_mem_cons, List.forall_mem_append, hmark, true_and]
    exact ⟨hoperator _ (by decide), hstring module, hname hdotted, forall_argumentTokens hmark ih⟩
  | string text => exact List.forall_mem_singleton.2 (hstring text)
  | number text h => exact List.forall_mem_singleton.2 (hnumber text h)
  | template text h => exact List.forall_mem_singleton.2 (htemplate text h)
  | union members _ _ ih => exact forall_groupTokens hmark .bar ih
  | intersection members _ _ ih => exact forall_groupTokens hmark .ampersand ih
  | array element _ ih =>
    exact List.forall_mem_append.2 ⟨forall_parenthesized hmark ih, by simp [hmark]⟩
  | indexed object index _ _ iho ihi =>
    simp only [TypeNode.tokens, List.forall_mem_append, List.forall_mem_cons, hmark, true_and]
    exact ⟨forall_parenthesized hmark iho, forall_parenthesized hmark ihi, by simp⟩
  | tuple elements hnames _ ih =>
    exact List.forall_mem_cons.2 ⟨hmark _,
      forall_elementsTokens hmark (fun e he n hn => hword n (hnames e he n hn)) ih⟩
  | function parameters returns hnames _ _ ih ihr =>
    simp only [TypeNode.tokens, List.forall_mem_append, List.forall_mem_cons, hmark, true_and]
    exact ⟨forall_parametersTokens hmark (fun p hp => hword _ (hnames p hp)) ih,
      forall_parenthesized hmark ihr⟩
  | operator op operand hop _ ih =>
    have hop' : P (.word op.word) := by cases op <;> exact hoperator _ (by decide)
    have htokens : (TypeNode.operator op operand).tokens =
        .word op.word :: parenthesized operand.tokens := by
      rw [TypeNode.tokens]
      rintro name rfl
      exact absurd rfl hop
    rw [htokens]
    exact List.forall_mem_cons.2 ⟨hop', forall_parenthesized hmark ih⟩
  | unique name hn =>
    simp only [TypeNode.tokens, List.forall_mem_cons]
    exact ⟨hoperator _ (by decide), hword name hn, by simp⟩
  | query name hdotted =>
    exact List.forall_mem_cons.2 ⟨hoperator _ (by decide), hname hdotted⟩
  | object members hnames _ ih =>
    exact List.forall_mem_cons.2 ⟨hmark _, forall_membersTokens hmark hreadonly hstring
      (fun m hm n hn => hword n (hnames m hm n hn)) ih⟩

end Tokens

end FluentBuilders
