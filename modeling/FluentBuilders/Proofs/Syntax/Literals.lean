import FluentBuilders.Proofs.Syntax.Lexeme
import FluentBuilders.Proofs.Syntax.Reading
import FluentBuilders.Source.ObjectBody

/-!
# Proofs/Syntax/Literals — the literals in what is read are literals of the text

Every number and template in a tree is a token of the phrase that the tree was read from
(`Derives.literals_subset`), so it looks like one: a number begins with a digit or a minus sign, a
template with its quote (`isWritten_parseType`).
-/

namespace FluentBuilders

/-! ## The literals of a tree -/

/-- **A literal type**: its kind and its text. -/
abbrev Literal := LiteralKind × String

/-- **A literal as it is written**: a number begins with a digit or a minus sign, a template with
its quote.  Any text is the text of a string. -/
def Literal.IsWritten : Literal → Prop
  | (.string, _) => True
  | (.number, text) => ∃ c ∈ text.toList.head?, Text.isDecimalDigit c = true ∨ c = '-'
  | (.template, text) => text.toList.head? = some '`'

mutual

/-- **The literals in a type**, at any depth. -/
def TypeNode.literals : TypeNode → List Literal
  | .literal kind text => [(kind, text)]
  | .reference _ arguments => literalsOfTypes arguments
  | .imported _ _ arguments => literalsOfTypes arguments
  | .union members => literalsOfTypes members
  | .intersection members => literalsOfTypes members
  | .array element => element.literals
  | .indexed object index => object.literals ++ index.literals
  | .tuple elements => literalsOfElements elements
  | .function parameters returns => literalsOfParameters parameters ++ returns.literals
  | .operator _ operand => operand.literals
  | .object members => literalsOfMembers members
  | .query _ => []
  | .raw _ => []

/-- The literals in types in a row. -/
def literalsOfTypes : List TypeNode → List Literal
  | [] => []
  | node :: nodes => node.literals ++ literalsOfTypes nodes

/-- The literals in a type that may be missing. -/
def literalsOfOptional : Option TypeNode → List Literal
  | none => []
  | some node => node.literals

/-- The literals in tuple elements. -/
def literalsOfElements : List TupleElement → List Literal
  | [] => []
  | .plain node :: elements => node.literals ++ literalsOfElements elements
  | .named _ _ node :: elements => node.literals ++ literalsOfElements elements
  | .rest node :: elements => node.literals ++ literalsOfElements elements

/-- The literals in parameters. -/
def literalsOfParameters : List Parameter → List Literal
  | [] => []
  | .mk _ _ _ node :: parameters => node.literals ++ literalsOfParameters parameters

/-- The literals in members. -/
def literalsOfMembers : List Member → List Literal
  | [] => []
  | .property _ _ _ type :: members => literalsOfOptional type ++ literalsOfMembers members
  | .method _ _ parameters returns :: members =>
    literalsOfParameters parameters ++ literalsOfOptional returns ++ literalsOfMembers members
  | .index _ _ keyType valueType :: members =>
    keyType.literals ++ valueType.literals ++ literalsOfMembers members

end

theorem literalsOfMembers_append (ms ns : List Member) :
    literalsOfMembers (ms ++ ns) = literalsOfMembers ms ++ literalsOfMembers ns := by
  induction ms with
  | nil => rfl
  | cons m ms ih => cases m <;> simp [literalsOfMembers, ih]

/-! ## The literals of a phrase -/

/-- The literal that a token is. -/
def Token.literals : Token → List Literal
  | .string s => [(.string, Text.unquoteString s)]
  | .number s => [(.number, s)]
  | .negative s => [(.number, s)]
  | .template s => [(.template, s)]
  | _ => []

namespace Grammar

/-- The literals in what a phrase is read as. -/
def Category.literals : (c : Category) → c.Tree → List Literal
  | .type, t | .function, t | .union, t | .intersection, t | .operand, t | .primary, t
  | .brackets _, t => t.literals
  | .unionTail, ts | .intersectionTail, ts | .arguments, ts | .argumentList, ts => literalsOfTypes ts
  | .parameters, ps => literalsOfParameters ps
  | .parameter, p => literalsOfParameters [p]
  | .elements, es => literalsOfElements es
  | .element, e => literalsOfElements [e]
  | .members, ms => literalsOfMembers ms
  | .member, m => literalsOfMembers [m]
  | .ascription, t => literalsOfOptional t

/-- The literals that stand before a phrase and belong to its tree. -/
def Category.before : Category → List Literal
  | .brackets base => base.literals
  | _ => []

theorem literals_groupOf (make : List TypeNode → TypeNode)
    (hmake : ∀ ts, (make ts).literals = literalsOfTypes ts) (t : TypeNode) (ts : List TypeNode) :
    (groupOf make (t :: ts)).literals = t.literals ++ literalsOfTypes ts := by
  cases ts with
  | nil => simp [groupOf, literalsOfTypes]
  | cons u ts => simp [groupOf, hmake, literalsOfTypes]

theorem literalsOfParameters_cons (p : Parameter) (ps : List Parameter) :
    literalsOfParameters (p :: ps) = literalsOfParameters [p] ++ literalsOfParameters ps := by
  cases p; simp [literalsOfParameters]

theorem literalsOfElements_cons (e : TupleElement) (es : List TupleElement) :
    literalsOfElements (e :: es) = literalsOfElements [e] ++ literalsOfElements es := by
  cases e <;> simp [literalsOfElements]

theorem literalsOfMembers_cons (m : Member) (ms : List Member) :
    literalsOfMembers (m :: ms) = literalsOfMembers [m] ++ literalsOfMembers ms :=
  literalsOfMembers_append [m] ms

/-- **Every literal of a tree is a token** of the phrase it was read from. -/
theorem Derives.literals_subset {c : Category} {ts : List Token} {v : c.Tree} {next : Option Token}
    (h : Derives c ts v next) : ∀ p ∈ c.literals v, p ∈ c.before ∨ p ∈ ts.flatMap Token.literals := by
  induction h with
  | unionOf _ _ _ ih ihs =>
    simp only [Category.literals, literals_groupOf _ (fun _ => TypeNode.literals.eq_4 _)]
    simp only [Category.literals, Category.before] at ih ihs ⊢
    grind
  | intersectionOf _ _ _ ih ihs =>
    simp only [Category.literals, literals_groupOf _ (fun _ => TypeNode.literals.eq_5 _)]
    simp only [Category.literals, Category.before] at ih ihs ⊢
    grind
  | _ =>
    simp_all only [Category.literals, Category.before, TypeNode.literals, literalsOfTypes,
      literalsOfOptional]
    grind [literalsOfParameters_cons, literalsOfElements_cons, literalsOfMembers_cons,
      literalsOfParameters, literalsOfElements, literalsOfMembers, Token.literals]

end Grammar

/-! ## The literals of a text -/

theorem isWritten_of_read? {cs rest : List Char} {t : Token}
    (h : Token.read? cs = some (t, rest)) : ∀ p ∈ t.literals, p.IsWritten := by
  have htext := Token.eq_text_append_of_read? h
  have hne := Token.text_ne_nil_of_read? h
  unfold Token.read? at h
  split at h
  · cases h
  next c tail =>
  have hhead : t.text.head? = some c := by
    cases ht : t.text with
    | nil => exact absurd ht hne
    | cons d ds => rw [ht] at htext; simp at htext; simp [htext.1]
  split at h
  · cases h
    simp [Token.literals]
  split at h
  · simp only [Option.map_eq_some_iff, Prod.exists] at h
    obtain ⟨body, rest', -, h⟩ := h
    cases h
    simp [Token.literals, Literal.IsWritten]
  split at h
  · next hc =>
    simp only [Option.map_eq_some_iff, Prod.exists] at h
    obtain ⟨body, rest', -, h⟩ := h
    cases h
    simp [Token.literals, Literal.IsWritten, hc]
  split at h
  · next hc =>
    simp only [Option.map_eq_some_iff, Prod.exists] at h
    obtain ⟨text, rest', -, h⟩ := h
    cases h
    simp only [Token.text, String.toList_ofList] at hhead
    simp [Token.literals, Literal.IsWritten, hhead, hc]
  split at h
  · next hc =>
    simp only [Option.map_eq_some_iff, Prod.exists] at h
    obtain ⟨text, rest', -, h⟩ := h
    cases h
    simp only [Token.text, String.toList_ofList] at hhead
    simp [Token.literals, Literal.IsWritten, hhead, hc]
  · simp only [Option.map_eq_some_iff, Prod.exists] at h
    obtain ⟨m, rest', -, h⟩ := h
    cases h
    simp [Token.literals]

theorem isWritten_of_scanWithin? {fuel : Nat} {cs : List Char} {ts : List Token}
    (h : Token.scanWithin? fuel cs = some ts) : ∀ p ∈ ts.flatMap Token.literals, p.IsWritten := by
  induction fuel generalizing cs ts with
  | zero => simp [Token.scanWithin?] at h
  | succ fuel ih =>
    unfold Token.scanWithin? at h
    split at h
    · cases h; simp
    · exact ih h
    · split at h
      · cases h
      · exact ih h
    · split at h
      · exact ih h
      split at h
      · cases h
      · next token rest hread =>
        obtain ⟨others, hothers, rfl⟩ := Option.map_eq_some_iff.1 h
        intro p hp
        rw [List.flatMap_cons, List.mem_append] at hp
        exact hp.elim (isWritten_of_read? hread p) (ih hothers p)

/-- **Every literal of a type that is read is written as one.** -/
theorem isWritten_parseType (text : List Char) : ∀ p ∈ (parseType text).literals, p.IsWritten := by
  unfold parseType
  dsimp only
  split
  · next t h =>
    obtain ⟨tokens, hscan, htype⟩ := Option.bind_eq_some_iff.1 h
    intro p hp
    have := (Grammar.typeOfTokens?_eq_some_iff.1 htype).literals_subset p hp
    exact isWritten_of_scanWithin? hscan p (this.resolve_left List.not_mem_nil)
  · intro p hp; cases hp

theorem isWritten_readProperty? {chunk : List Char} {m : Member} (h : readProperty? chunk = some m) :
    ∀ p ∈ literalsOfMembers [m], p.IsWritten := by
  have hkeyed : ∀ readonly cs, keyedType? readonly cs = some m →
      ∀ p ∈ literalsOfMembers [m], p.IsWritten := by
    intro readonly cs h
    unfold keyedType? at h
    split at h
    · cases h
    split at h
    · split at h
      · cases h
      · cases h
        simpa [literalsOfMembers, literalsOfOptional] using isWritten_parseType _
    · cases h
  unfold readProperty? at h
  cases hfirst : (skipReadonly? chunk).bind (keyedType? true) with
  | some m' =>
    rw [hfirst] at h
    cases h
    obtain ⟨cs, -, hcs⟩ := Option.bind_eq_some_iff.1 hfirst
    exact hkeyed true cs hcs
  | none =>
    rw [hfirst] at h
    exact hkeyed false chunk h

theorem isWritten_readChunk (chunk : List Char) :
    ∀ p ∈ literalsOfMembers (readChunk chunk).value, p.IsWritten := by
  unfold readChunk
  split
  · next m hm => exact isWritten_readProperty? hm
  split
  · next members hmembers =>
    have := isWritten_parseType ('{' :: chunk ++ ['}'])
    rw [hmembers] at this
    exact this
  · intro p hp; cases hp

theorem isWritten_readChunks (chunks : List (List Char)) :
    ∀ p ∈ literalsOfMembers (readChunks chunks).value, p.IsWritten := by
  induction chunks with
  | nil => intro p hp; cases hp
  | cons chunk chunks ih =>
    change ∀ p ∈ literalsOfMembers ((readChunk chunk).value ++ (readChunks chunks).value), _
    intro p hp
    rw [literalsOfMembers_append, List.mem_append] at hp
    exact hp.elim (isWritten_readChunk chunk p) (ih p)

theorem isWritten_readObjectBody (text : List Char) :
    ∀ p ∈ literalsOfMembers (readObjectBody text).value, p.IsWritten := by
  unfold readObjectBody
  split
  · next members hmembers =>
    have := isWritten_parseType text
    rw [hmembers] at this
    exact this
  · exact isWritten_readChunks _

/-- **So is every literal of a type in a declaration.** -/
theorem isWritten_readType (text : List Char) :
    ∀ p ∈ (readType text).value.literals, p.IsWritten := by
  unfold readType
  split
  · split
    · exact isWritten_readObjectBody _
    · intro p hp; cases hp
  · exact isWritten_parseType text

end FluentBuilders
