import FluentBuilders.Proofs.Syntax.Lookahead

/-!
# Proofs/Syntax/Reading — the readers read the phrases of the grammar, and nothing else

`read?_derives` — a reader with enough fuel takes a phrase off the front of any tokens that go on
with the phrase's lookahead.  `derives_of_read?` — whatever a reader takes is such a phrase.  So
what a phrase is read as does not depend on the tokens after the first that follows it, and the
tokens of a type expression are the phrases of the category of types (`typeOfTokens?_eq_some_iff`).
-/

namespace FluentBuilders.Grammar

/-! ## Phrases are read -/

/-- The fuel a reader needs beyond eight units a token. -/
def Category.slack : Category → Nat
  | .element => 6
  | .type => 5
  | .union => 4
  | .intersection => 3
  | .operand => 2
  | _ => 1

theorem dottedTail?_dottedTokens (name : String) (parts : List String) {rest : List Token}
    (h : rest.head? ≠ some (.mark .dot)) :
    dottedTail? name (dottedTokens parts ++ rest) = some (dotted name parts, rest) := by
  induction parts generalizing name with
  | nil =>
    cases rest with
    | nil => rfl
    | cons t rest =>
      simp only [dottedTokens, List.flatMap_nil, List.nil_append]
      unfold dottedTail?
      split <;> simp_all [dotted]
  | cons part parts ih =>
    simp only [dottedTokens, List.flatMap_cons, List.cons_append, List.nil_append, dottedTail?]
    exact ih _

theorem takeToken_tokenIf (t : Token) (present : Bool) {rest : List Token}
    (h : present = false → rest.head? ≠ some t) :
    takeToken t (tokenIf present t ++ rest) = (present, rest) := by
  cases present with
  | true => simp [tokenIf, takeToken]
  | false =>
    cases rest with
    | nil => rfl
    | cons u rest =>
      have : u ≠ t := fun hu => h rfl (by rw [hu]; rfl)
      simp [tokenIf, takeToken, this]

theorem dropSeparator_append {sep : List Token} {t : Token} {rest : List Token}
    (hsep : sep ∈ separators) (hsemi : t ≠ .mark .semicolon) (hcomma : t ≠ .mark .comma) :
    dropSeparator (sep ++ t :: rest) = t :: rest := by
  simp only [separators, List.mem_cons, List.not_mem_nil, or_false] at hsep
  rcases hsep with rfl | rfl | rfl
  · unfold dropSeparator; split <;> simp_all
  · rfl
  · rfl

/-- What is read after a key that is no word `readonly` by itself. -/
theorem member?_of_key {key : List Token} (rest : List Token) {name : String} {readonly : Bool}
    (fuel : Nat)
    (hkey : propertyName? key = some (name, []))
    (hplain : readonly = false → key ≠ [.word "readonly"]) :
    member? (fuel + 1) (tokenIf readonly (.word "readonly") ++ (key ++ rest)) =
      match (takeToken (.mark .question) rest).2 with
      | .mark .openParen :: after =>
        if readonly then none
        else do
          let (parameters, after) ← parameters? fuel after
          let (returns, after) ← annotation? fuel after
          return (.method name (takeToken (.mark .question) rest).1 parameters returns, after)
      | after => do
        let (type, after) ← annotation? fuel after
        return (.property name (takeToken (.mark .question) rest).1 readonly type, after) := by
  have hname := @propertyName?_append key rest name hkey
  -- a key that begins with a word is that word alone
  have hhead : readonly = false → (key ++ rest).head? ≠ some (.word "readonly") := by
    intro hreadonly hword
    unfold propertyName? at hkey
    split at hkey <;> simp_all
  have htake : takeToken (.word "readonly")
      (tokenIf readonly (.word "readonly") ++ (key ++ rest)) = (readonly, key ++ rest) :=
    takeToken_tokenIf _ _ hhead
  rw [member?, htake]
  dsimp only
  split
  · next hindex =>
    rw [hindex] at hname
    cases hname
  · rw [hname]
    rfl

/-- The readers with that much fuel take every phrase off the front of tokens that go on with the
phrase's lookahead. -/
def ReadPhrases (fuel : Nat) : Prop :=
  ∀ {c : Category} {ts : List Token} {v : c.Tree} {next : Option Token}, Derives c ts v next →
    ∀ rest : List Token, rest.head? = next → 8 * ts.length + c.slack ≤ fuel →
      c.read? fuel (ts ++ rest) = some (v, rest)

section

variable {fuel : Nat} {ts rest : List Token} {next : Option Token}

theorem reads_type {t : TypeNode} (ih : ReadPhrases fuel) (h : Derives .type ts t next)
    (hrest : rest.head? = next) (hfuel : 8 * ts.length + 5 ≤ fuel + 1) :
    type? (fuel + 1) (ts ++ rest) = some (t, rest) := by
  cases h with
  | ofFunction starts h =>
    have := ih h rest hrest (by simp [Category.slack] at hfuel ⊢; omega)
    simp only [Category.read?, List.cons_append, type?] at this ⊢
    rw [startsParameters_append h.function_length, if_pos starts, this]
  | ofUnion h =>
    have := ih h rest hrest (by simp [Category.slack] at hfuel ⊢; omega)
    obtain ⟨x, xs, rfl, hx⟩ := h.union_cons
    simp only [Category.read?, List.cons_append] at this ⊢
    by_cases hp : x = .mark .openParen
    · subst hp
      rw [type?, h.startsParameters_union rfl, this]; rfl
    · rw [type?] <;> simp_all

theorem reads_function {t : TypeNode} (ih : ReadPhrases fuel) (h : Derives .function ts t next)
    (hrest : rest.head? = next) (hfuel : 8 * ts.length + 1 ≤ fuel + 1) :
    functionType? (fuel + 1) (ts ++ rest) = some (t, rest) := by
  cases h with
  | @arrow xs ps ys r _ hp hr =>
    have h1 := ih hp (.mark .arrow :: (ys ++ rest)) rfl (by simp [Category.slack] at hfuel ⊢; omega)
    have h2 := ih hr rest hrest (by simp [Category.slack] at hfuel ⊢; omega)
    simp only [Category.read?, List.append_assoc, List.cons_append, functionType?] at h1 h2 ⊢
    simp [h1, h2]

theorem reads_parameters {ps : List Parameter} (ih : ReadPhrases fuel)
    (h : Derives .parameters ts ps next) (hrest : rest.head? = next)
    (hfuel : 8 * ts.length + 1 ≤ fuel + 1) :
    parameters? (fuel + 1) (ts ++ rest) = some (ps, rest) := by
  cases h with
  | noParameters => rfl
  | lastParameter h =>
    have := ih h (.mark .closeParen :: rest) rfl (by simp [Category.slack] at hfuel ⊢; omega)
    obtain ⟨x, xs, rfl, hx⟩ := h.parameter_cons
    simp only [Category.read?, List.append_assoc, List.cons_append, List.nil_append] at this ⊢
    rw [parameters?] <;> simp_all
  | @moreParameters xs p ys ps _ h hs =>
    have h1 := ih h (.mark .comma :: (ys ++ rest)) rfl (by simp [Category.slack] at hfuel ⊢; omega)
    have h2 := ih hs rest hrest (by simp [Category.slack] at hfuel ⊢; omega)
    obtain ⟨x, xs, rfl, hx⟩ := h.parameter_cons
    simp only [Category.read?, List.append_assoc, List.cons_append] at h1 h2 ⊢
    rw [parameters?] <;> try (simp_all; done)
    cases hs with
    | noParameters => simp_all
    | lastParameter h =>
      obtain ⟨y, ys, rfl, hy⟩ := h.parameter_cons
      simp_all
    | moreParameters h =>
      obtain ⟨y, ys, rfl, hy⟩ := h.parameter_cons
      simp_all

theorem reads_parameter {p : Parameter} (ih : ReadPhrases fuel) (h : Derives .parameter ts p next)
    (hrest : rest.head? = next) (hfuel : 8 * ts.length + 1 ≤ fuel + 1) :
    parameter? (fuel + 1) (ts ++ rest) = some (p, rest) := by
  cases h with
  | @parameter ts t _ name optional spread h =>
    have := ih h rest hrest (by simp [Category.slack] at hfuel ⊢; omega)
    have hopt := @takeToken_tokenIf (.mark .question) optional (.mark .colon :: (ts ++ rest))
      (by simp)
    simp only [Category.read?, List.append_assoc, List.cons_append] at this ⊢
    cases spread <;>
      simp [parameter?, tokenIf, takeToken] at hopt ⊢ <;> simp [hopt, this]

theorem reads_union {t : TypeNode} (ih : ReadPhrases fuel) (h : Derives .union ts t next)
    (hrest : rest.head? = next) (hfuel : 8 * ts.length + 4 ≤ fuel + 1) :
    union? (fuel + 1) (ts ++ rest) = some (t, rest) := by
  cases h with
  | @unionOf xs t ys ts _ front h hs =>
    have h1 := ih h (ys ++ rest) (by rw [head?_append_eq_headOr, hrest])
      (by simp [Category.slack] at hfuel ⊢; omega)
    have h2 := ih hs rest hrest (by simp [Category.slack] at hfuel ⊢; omega)
    obtain ⟨x, xs, rfl, hx⟩ := h.intersection_cons
    have hbar : x ≠ .mark .bar := by rintro rfl; simp [startsOperand] at hx
    simp only [Category.read?, List.append_assoc, List.cons_append] at h1 h2 ⊢
    cases front <;> simp_all [union?, tokenIf, takeToken]

theorem reads_unionTail {ms : List TypeNode} (ih : ReadPhrases fuel)
    (h : Derives .unionTail ts ms next) (hrest : rest.head? = next)
    (hfuel : 8 * ts.length + 1 ≤ fuel + 1) :
    unionTail? (fuel + 1) (ts ++ rest) = some (ms, rest) := by
  cases h with
  | unionEnd h =>
    rw [List.nil_append, unionTail?]
    rintro rest rfl
    exact h hrest.symm
  | @unionMore xs t ys ts _ h hs =>
    have h1 := ih h (ys ++ rest) (by rw [head?_append_eq_headOr, hrest])
      (by simp [Category.slack] at hfuel ⊢; omega)
    have h2 := ih hs rest hrest (by simp [Category.slack] at hfuel ⊢; omega)
    simp only [Category.read?, List.append_assoc, List.cons_append] at h1 h2 ⊢
    simp [unionTail?, h1, h2]

theorem reads_intersection {t : TypeNode} (ih : ReadPhrases fuel)
    (h : Derives .intersection ts t next) (hrest : rest.head? = next)
    (hfuel : 8 * ts.length + 3 ≤ fuel + 1) :
    intersection? (fuel + 1) (ts ++ rest) = some (t, rest) := by
  cases h with
  | @intersectionOf xs t ys ts _ front h hs =>
    have h1 := ih h (ys ++ rest) (by rw [head?_append_eq_headOr, hrest])
      (by simp [Category.slack] at hfuel ⊢; omega)
    have h2 := ih hs rest hrest (by simp [Category.slack] at hfuel ⊢; omega)
    obtain ⟨x, xs, rfl, hx⟩ := h.operand_cons
    have hbar : x ≠ .mark .ampersand := by rintro rfl; cases hx
    simp only [Category.read?, List.append_assoc, List.cons_append] at h1 h2 ⊢
    cases front <;> simp_all [intersection?, tokenIf, takeToken]

theorem reads_intersectionTail {ms : List TypeNode} (ih : ReadPhrases fuel)
    (h : Derives .intersectionTail ts ms next) (hrest : rest.head? = next)
    (hfuel : 8 * ts.length + 1 ≤ fuel + 1) :
    intersectionTail? (fuel + 1) (ts ++ rest) = some (ms, rest) := by
  cases h with
  | intersectionEnd h =>
    rw [List.nil_append, intersectionTail?]
    rintro rest rfl
    exact h hrest.symm
  | @intersectionMore xs t ys ts _ h hs =>
    have h1 := ih h (ys ++ rest) (by rw [head?_append_eq_headOr, hrest])
      (by simp [Category.slack] at hfuel ⊢; omega)
    have h2 := ih hs rest hrest (by simp [Category.slack] at hfuel ⊢; omega)
    simp only [Category.read?, List.append_assoc, List.cons_append] at h1 h2 ⊢
    simp [intersectionTail?, h1, h2]

theorem reads_operand {t : TypeNode} (ih : ReadPhrases fuel) (h : Derives .operand ts t next)
    (hrest : rest.head? = next) (hfuel : 8 * ts.length + 2 ≤ fuel + 1) :
    operand? (fuel + 1) (ts ++ rest) = some (t, rest) := by
  cases h with
  | keyofOf h =>
    have := ih h rest hrest (by simp [Category.slack] at hfuel ⊢; omega)
    simp only [Category.read?, List.cons_append] at this ⊢
    simp [operand?, this]
  | readonlyOf h =>
    have := ih h rest hrest (by simp [Category.slack] at hfuel ⊢; omega)
    simp only [Category.read?, List.cons_append] at this ⊢
    simp [operand?, this]
  | uniqueOf name => simp [operand?]
  | @bracketed xs p ys _ _ h hs =>
    have h1 := ih h (ys ++ rest) (by rw [head?_append_eq_headOr, hrest])
      (by simp [Category.slack] at hfuel ⊢; omega)
    have h2 := ih hs rest hrest (by simp [Category.slack] at hfuel ⊢; omega)
    obtain ⟨x, xs, rfl, hx⟩ := h.primary_cons
    simp only [Category.read?, List.append_assoc, List.cons_append] at h1 h2 ⊢
    have hk : x ≠ .word "keyof" := by rintro rfl; cases hx
    have hr : x ≠ .word "readonly" := by rintro rfl; cases hx
    have hu : x ≠ .word "unique" := by rintro rfl; cases hx
    rw [operand?] <;> simp_all

theorem reads_brackets {base t : TypeNode} (ih : ReadPhrases fuel)
    (h : Derives (.brackets base) ts t next) (hrest : rest.head? = next)
    (hfuel : 8 * ts.length + 1 ≤ fuel + 1) :
    brackets? (fuel + 1) base (ts ++ rest) = some (t, rest) := by
  cases h with
  | bracketsEnd h =>
    rw [List.nil_append, brackets?]
    all_goals
      rintro rest rfl
      exact h hrest.symm
  | arrayOf h =>
    have := ih h rest hrest (by simp [Category.slack] at hfuel ⊢; omega)
    simp only [Category.read?, List.cons_append] at this ⊢
    simp [brackets?, this]
  | @indexedBy _ xs i ys _ _ h hs =>
    have h1 := ih h (.mark .closeBracket :: (ys ++ rest)) rfl
      (by simp [Category.slack] at hfuel ⊢; omega)
    have h2 := ih hs rest hrest (by simp [Category.slack] at hfuel ⊢; omega)
    obtain ⟨x, xs, rfl, hx⟩ := h.type_cons
    have hclose : x ≠ .mark .closeBracket := by rintro rfl; cases hx
    simp only [Category.read?, List.append_assoc, List.cons_append] at h1 h2 ⊢
    rw [brackets?] <;> simp_all

theorem reads_primary {t : TypeNode} (ih : ReadPhrases fuel) (h : Derives .primary ts t next)
    (hrest : rest.head? = next) (hfuel : 8 * ts.length + 1 ≤ fuel + 1) :
    primary? (fuel + 1) (ts ++ rest) = some (t, rest) := by
  cases h with
  | parens h =>
    have := ih h (.mark .closeParen :: rest) rfl (by simp [Category.slack] at hfuel ⊢; omega)
    simp only [Category.read?, List.append_assoc, List.cons_append, List.nil_append] at this ⊢
    simp [primary?, this]
  | object h =>
    have := ih h rest hrest (by simp [Category.slack] at hfuel ⊢; omega)
    simp only [Category.read?, List.cons_append] at this ⊢
    simp [primary?, this]
  | tuple h =>
    have := ih h rest hrest (by simp [Category.slack] at hfuel ⊢; omega)
    simp only [Category.read?, List.cons_append] at this ⊢
    simp [primary?, this]
  | string | number | negative | template => simp [primary?]
  | query name parts h =>
    have := dottedTail?_dottedTokens name parts (by rw [hrest]; exact h)
    simp only [List.cons_append]
    simp [primary?, qualifiedName?, this]
  | @imported ts as _ literal name parts h hs =>
    have h1 := @dottedTail?_dottedTokens name parts (ts ++ rest)
      (by rw [head?_append_eq_headOr, hrest]; exact h)
    have h2 := ih hs rest hrest (by simp [Category.slack] at hfuel ⊢; omega)
    simp only [Category.read?, List.append_assoc, List.cons_append] at h2 ⊢
    simp [primary?, qualifiedName?, h1, h2]
  | @reference ts as _ name parts hn h hs =>
    have h1 := @dottedTail?_dottedTokens name parts (ts ++ rest)
      (by rw [head?_append_eq_headOr, hrest]; exact h)
    have h2 := ih hs rest hrest (by simp [Category.slack] at hfuel ⊢; omega)
    simp only [Category.read?, List.append_assoc, List.cons_append] at h2 ⊢
    have : name ≠ "typeof" := by rintro rfl; exact absurd hn (by decide)
    have : name ≠ "import" := by rintro rfl; exact absurd hn (by decide)
    rw [primary?] <;> simp_all

theorem reads_arguments {as : List TypeNode} (ih : ReadPhrases fuel)
    (h : Derives .arguments ts as next) (hrest : rest.head? = next)
    (hfuel : 8 * ts.length + 1 ≤ fuel + 1) :
    arguments? (fuel + 1) (ts ++ rest) = some (as, rest) := by
  cases h with
  | noArguments h =>
    rw [List.nil_append, arguments?]
    rintro rest rfl
    exact h hrest.symm
  | someArguments h =>
    have := ih h rest hrest (by simp [Category.slack] at hfuel ⊢; omega)
    simp only [Category.read?, List.cons_append] at this ⊢
    simp [arguments?, this]

theorem reads_argumentList {as : List TypeNode} (ih : ReadPhrases fuel)
    (h : Derives .argumentList ts as next) (hrest : rest.head? = next)
    (hfuel : 8 * ts.length + 1 ≤ fuel + 1) :
    argumentList? (fuel + 1) (ts ++ rest) = some (as, rest) := by
  cases h with
  | lastArgument h =>
    have := ih h (.mark .closeAngle :: rest) rfl (by simp [Category.slack] at hfuel ⊢; omega)
    simp only [Category.read?, List.append_assoc, List.cons_append, List.nil_append] at this ⊢
    simp [argumentList?, this]
  | @moreArguments xs a ys as _ h hs =>
    have h1 := ih h (.mark .comma :: (ys ++ rest)) rfl (by simp [Category.slack] at hfuel ⊢; omega)
    have h2 := ih hs rest hrest (by simp [Category.slack] at hfuel ⊢; omega)
    simp only [Category.read?, List.append_assoc, List.cons_append] at h1 h2 ⊢
    simp [argumentList?, h1, h2]

theorem reads_elements {es : List TupleElement} (ih : ReadPhrases fuel)
    (h : Derives .elements ts es next) (hrest : rest.head? = next)
    (hfuel : 8 * ts.length + 1 ≤ fuel + 1) :
    elements? (fuel + 1) (ts ++ rest) = some (es, rest) := by
  cases h with
  | noElements => rfl
  | lastElement h =>
    have := ih h (.mark .closeBracket :: rest) rfl (by simp [Category.slack] at hfuel ⊢; omega)
    obtain ⟨x, xs, rfl, hx⟩ := h.element_cons
    simp only [Category.read?, List.append_assoc, List.cons_append, List.nil_append] at this ⊢
    rw [elements?] <;> simp_all
  | @moreElements xs e ys es _ h hs =>
    have h1 := ih h (.mark .comma :: (ys ++ rest)) rfl (by simp [Category.slack] at hfuel ⊢; omega)
    have h2 := ih hs rest hrest (by simp [Category.slack] at hfuel ⊢; omega)
    obtain ⟨x, xs, rfl, hx⟩ := h.element_cons
    simp only [Category.read?, List.append_assoc, List.cons_append] at h1 h2 ⊢
    rw [elements?] <;> try (simp_all; done)
    cases hs with
    | noElements => simp_all
    | lastElement h | moreElements h =>
      obtain ⟨y, ys, rfl, hy⟩ := h.element_cons
      simp_all

theorem reads_element {e : TupleElement} (ih : ReadPhrases fuel) (h : Derives .element ts e next)
    (hrest : rest.head? = next) (hfuel : 8 * ts.length + 6 ≤ fuel + 1) :
    element? (fuel + 1) (ts ++ rest) = some (e, rest) := by
  cases h with
  | restElement h =>
    have := ih h rest hrest (by simp [Category.slack] at hfuel ⊢; omega)
    simp only [Category.read?, List.cons_append] at this ⊢
    simp [element?, this]
  | namedElement name optional hn h =>
    have := ih h rest hrest (by simp [Category.slack] at hfuel ⊢; omega)
    simp only [Category.read?, List.append_assoc, List.cons_append] at this ⊢
    cases optional <;> simp [element?, tokenIf, startsElementName, takeToken, hn, this]
  | plainElement hn h =>
    have := ih h rest hrest (by simp [Category.slack] at hfuel ⊢; omega)
    obtain ⟨x, xs, rfl, hx⟩ := h.type_cons
    have hdots : x ≠ .mark .ellipsis := by rintro rfl; cases hx
    have hs := @startsElementName_append (x :: xs) rest (by simp)
    rw [hrest, hn] at hs
    simp only [Category.read?, List.cons_append] at this hs ⊢
    unfold element?
    split <;> simp_all

theorem reads_members {ms : List Member} (ih : ReadPhrases fuel) (h : Derives .members ts ms next)
    (hrest : rest.head? = next) (hfuel : 8 * ts.length + 1 ≤ fuel + 1) :
    members? (fuel + 1) (ts ++ rest) = some (ms, rest) := by
  cases h with
  | noMembers => rfl
  | @moreMembers xs m ys ms _ sep hsep h hs =>
    obtain ⟨x, xs, rfl, hx⟩ := h.member_cons
    obtain ⟨y, ys, rfl, hy⟩ := hs.members_cons
    have h1 := ih h (sep ++ (y :: ys ++ rest))
      (by rw [← List.append_assoc, head?_append_eq_headOr, hrest])
      (by simp [Category.slack] at hfuel ⊢; omega)
    have h2 := ih hs rest hrest (by simp [Category.slack] at hfuel ⊢; omega)
    have hclose : x ≠ .mark .closeBrace := by rintro rfl; cases hx
    simp only [Category.read?, List.append_assoc, List.cons_append] at h1 h2 ⊢
    have hsemi : y ≠ .mark .semicolon := by rintro rfl; rcases hy with hy | hy <;> cases hy
    have hcomma : y ≠ .mark .comma := by rintro rfl; rcases hy with hy | hy <;> cases hy
    have hdrop := @dropSeparator_append sep y (ys ++ rest) hsep hsemi hcomma
    rw [members?] <;> simp_all

theorem reads_member {m : Member} (ih : ReadPhrases fuel) (h : Derives .member ts m next)
    (hrest : rest.head? = next) (hfuel : 8 * ts.length + 1 ≤ fuel + 1) :
    member? (fuel + 1) (ts ++ rest) = some (m, rest) := by
  cases h with
  | @index xs k ys v _ key readonly hk hv =>
    have h1 := ih hk (.mark .closeBracket :: .mark .colon :: (ys ++ rest)) rfl
      (by simp [Category.slack] at hfuel ⊢; omega)
    have h2 := ih hv rest hrest (by simp [Category.slack] at hfuel ⊢; omega)
    simp only [Category.read?, List.append_assoc, List.cons_append] at h1 h2 ⊢
    cases readonly <;> simp [member?, tokenIf, takeToken, h1, h2]
  | @method key xs ps ys r _ name optional hkey hplain hp hr =>
    have h1 := ih hp (ys ++ rest) (by rw [head?_append_eq_headOr, hrest])
      (by simp [Category.slack] at hfuel ⊢; omega)
    have h2 := ih hr rest hrest (by simp [Category.slack] at hfuel ⊢; omega)
    have h4 := @takeToken_tokenIf (.mark .question) optional
      (.mark .openParen :: (xs ++ (ys ++ rest))) (by simp)
    simp only [Category.read?, List.append_assoc, List.cons_append] at h1 h2 ⊢
    have h5 := @member?_of_key _
      (tokenIf optional (.mark .question) ++ .mark .openParen :: (xs ++ (ys ++ rest)))
      _ false fuel hkey (fun _ => hplain)
    rw [tokenIf_false, List.nil_append] at h5
    simp [h1, h2, h4, h5]
  | @property key ts t _ name optional readonly hkey hplain hopt hparen h =>
    have hlength : 0 < key.length := by obtain ⟨x, xs, rfl, -⟩ := propertyName?_cons hkey; simp
    have h1 := ih h rest hrest (by simp [Category.slack] at hfuel ⊢; omega)
    have h4 := @takeToken_tokenIf (.mark .question) optional (ts ++ rest)
      (by rw [head?_append_eq_headOr, hrest]; exact hopt)
    rw [← hrest, ← head?_append_eq_headOr] at hparen
    simp only [Category.read?, List.append_assoc] at h1 ⊢
    rw [member?_of_key _ _ hkey hplain, h4]
    split
    · next heq =>
      rw [show ts ++ rest = _ from heq] at hparen
      exact absurd rfl hparen
    · simp [h1]

theorem reads_ascription {t : Option TypeNode} (ih : ReadPhrases fuel)
    (h : Derives .ascription ts t next) (hrest : rest.head? = next)
    (hfuel : 8 * ts.length + 1 ≤ fuel + 1) :
    annotation? (fuel + 1) (ts ++ rest) = some (t, rest) := by
  cases h with
  | noAscription h =>
    rw [List.nil_append, annotation?]
    rintro rest rfl
    exact h hrest.symm
  | someAscription h =>
    have := ih h rest hrest (by simp [Category.slack] at hfuel ⊢; omega)
    simp only [Category.read?, List.cons_append] at this ⊢
    simp [annotation?, this]

end

/-- **A reader takes a phrase off the front** of tokens that go on with the phrase's lookahead. -/
theorem readPhrases (fuel : Nat) : ReadPhrases fuel := by
  induction fuel with
  | zero =>
    intro c ts v next h rest hrest hfuel
    cases c <;> simp [Category.slack] at hfuel
  | succ fuel ih =>
    intro c ts v next h rest hrest hfuel
    cases c with
    | type => exact reads_type ih h hrest hfuel
    | function => exact reads_function ih h hrest hfuel
    | union => exact reads_union ih h hrest hfuel
    | unionTail => exact reads_unionTail ih h hrest hfuel
    | intersection => exact reads_intersection ih h hrest hfuel
    | intersectionTail => exact reads_intersectionTail ih h hrest hfuel
    | operand => exact reads_operand ih h hrest hfuel
    | brackets => exact reads_brackets ih h hrest hfuel
    | primary => exact reads_primary ih h hrest hfuel
    | arguments => exact reads_arguments ih h hrest hfuel
    | argumentList => exact reads_argumentList ih h hrest hfuel
    | parameters => exact reads_parameters ih h hrest hfuel
    | parameter => exact reads_parameter ih h hrest hfuel
    | elements => exact reads_elements ih h hrest hfuel
    | element => exact reads_element ih h hrest hfuel
    | members => exact reads_members ih h hrest hfuel
    | member => exact reads_member ih h hrest hfuel
    | ascription => exact reads_ascription ih h hrest hfuel

theorem read?_derives {c : Category} {ts : List Token} {v : c.Tree} {next : Option Token}
    (h : Derives c ts v next) {fuel : Nat} {rest : List Token} (hrest : rest.head? = next)
    (hfuel : 8 * ts.length + c.slack ≤ fuel) : c.read? fuel (ts ++ rest) = some (v, rest) :=
  readPhrases fuel h rest hrest hfuel

/-! ## What is read is a phrase -/

/-- A phrase with the tree `v` stands in front of `rest`. -/
def Takes (c : Category) (tokens : List Token) (v : c.Tree) (rest : List Token) : Prop :=
  ∃ ts, tokens = ts ++ rest ∧ Derives c ts v rest.head?

theorem dottedTail?_eq_some {name found : String} {tokens rest : List Token}
    (h : dottedTail? name tokens = some (found, rest)) :
    ∃ parts, found = dotted name parts ∧ tokens = dottedTokens parts ++ rest ∧
      rest.head? ≠ some (.mark .dot) := by
  fun_induction dottedTail? name tokens with
  | case1 name part rest' ih =>
    obtain ⟨parts, rfl, rfl, hdot⟩ := ih h
    exact ⟨part :: parts, rfl, rfl, hdot⟩
  | case2 => simp at h
  | case3 name tokens h1 h2 =>
    simp only [Option.some.injEq, Prod.mk.injEq] at h
    obtain ⟨rfl, rfl⟩ := h
    refine ⟨[], rfl, rfl, ?_⟩
    cases tokens with
    | nil => simp
    | cons t tokens =>
      simp only [List.head?_cons, ne_eq, Option.some.injEq]
      rintro rfl
      exact h2 _ rfl

theorem qualifiedName?_eq_some {found : String} {tokens rest : List Token}
    (h : qualifiedName? tokens = some (found, rest)) :
    ∃ name parts, found = dotted name parts ∧
      tokens = .word name :: (dottedTokens parts ++ rest) ∧ rest.head? ≠ some (.mark .dot) := by
  unfold qualifiedName? at h
  split at h
  · obtain ⟨parts, hfound, htokens, hdot⟩ := dottedTail?_eq_some h
    exact ⟨_, parts, hfound, by rw [htokens], hdot⟩
  · simp at h

theorem takeToken_eq (t : Token) (tokens : List Token) :
    tokens = tokenIf (takeToken t tokens).1 t ++ (takeToken t tokens).2 ∧
      ((takeToken t tokens).1 = false → (takeToken t tokens).2.head? ≠ some t) := by
  cases tokens with
  | nil => simp [takeToken, tokenIf]
  | cons u rest =>
    by_cases hu : u = t
    · subst hu; simp [takeToken, tokenIf]
    · simp [takeToken, tokenIf, hu]

theorem dropSeparator_eq (tokens : List Token) :
    ∃ sep ∈ separators, tokens = sep ++ dropSeparator tokens := by
  unfold dropSeparator
  split
  · exact ⟨[.mark .semicolon], by simp [separators], rfl⟩
  · exact ⟨[.mark .comma], by simp [separators], rfl⟩
  · exact ⟨[], by simp [separators], rfl⟩

theorem propertyName?_eq_some {name : String} {tokens rest : List Token}
    (h : propertyName? tokens = some (name, rest)) :
    ∃ key, tokens = key ++ rest ∧ propertyName? key = some (name, []) := by
  unfold propertyName? at h
  split at h
  all_goals
    simp only [Option.some.injEq, Prod.mk.injEq, reduceCtorEq] at h
  all_goals
    obtain ⟨rfl, rfl⟩ := h
  · exact ⟨[_], rfl, rfl⟩
  · exact ⟨[_], rfl, rfl⟩
  · exact ⟨[_], rfl, rfl⟩
  · exact ⟨[_, _, _], rfl, rfl⟩
  · exact ⟨[_, _, _], rfl, rfl⟩

/-- The readers with one unit of fuel less take phrases. -/
def TakePhrases (fuel : Nat) : Prop :=
  ∀ c tokens v rest, Category.read? c fuel tokens = some (v, rest) → Takes c tokens v rest

theorem head?_ne_of_forall_ne {t : Token} {tokens : List Token}
    (h : ∀ rest, tokens = t :: rest → False) : tokens.head? ≠ some t := by
  cases tokens with
  | nil => simp
  | cons t' rest =>
    simp only [List.head?_cons, ne_eq, Option.some.injEq]
    rintro rfl
    exact h _ rfl

theorem takes_type {fuel tokens v rest} (ih : TakePhrases fuel)
    (h : type? (fuel + 1) tokens = some (v, rest)) : Takes .type tokens v rest := by
  have hunion : ∀ tokens, union? fuel tokens = some (v, rest) → Takes .type tokens v rest := by
    intro tokens h
    obtain ⟨ts, rfl, ht⟩ := ih .union _ _ _ h
    exact ⟨ts, rfl, .ofUnion ht⟩
  unfold type? at h
  split at h
  all_goals cases ‹fuel + 1 = _›
  · split at h
    · next hs =>
      obtain ⟨ts, rfl, ht⟩ := ih .function _ _ _ h
      rw [startsParameters_append ht.function_length] at hs
      exact ⟨_ :: ts, rfl, .ofFunction hs ht⟩
    · exact hunion _ h
  · exact hunion _ h

theorem takes_function {fuel tokens v rest} (ih : TakePhrases fuel)
    (h : functionType? (fuel + 1) tokens = some (v, rest)) : Takes .function tokens v rest := by
  simp only [functionType?, Option.bind_eq_bind, Option.bind_eq_some_iff, Prod.exists] at h
  obtain ⟨ps, rest', hp, h⟩ := h
  split at h
  · simp only [Option.bind_eq_some_iff, Prod.exists, Option.pure_def, Option.some.injEq,
      Prod.mk.injEq] at h
    obtain ⟨r, rest'', hr, rfl, rfl⟩ := h
    obtain ⟨xs, rfl, hx⟩ := ih .parameters _ _ _ hp
    obtain ⟨ys, rfl, hy⟩ := ih .type _ _ _ hr
    exact ⟨xs ++ .mark .arrow :: ys, by simp, .arrow hx hy⟩
  · simp at h

theorem takes_parameters {fuel tokens v rest} (ih : TakePhrases fuel)
    (h : parameters? (fuel + 1) tokens = some (v, rest)) : Takes .parameters tokens v rest := by
  unfold parameters? at h
  split at h
  all_goals cases ‹fuel + 1 = _›
  · cases h
    exact ⟨[_], rfl, .noParameters⟩
  · simp only [Option.bind_eq_bind, Option.bind_eq_some_iff, Prod.exists] at h
    obtain ⟨p, rest', hp, h⟩ := h
    obtain ⟨xs, rfl, hx⟩ := ih .parameter _ _ _ hp
    split at h
    · cases h
      exact ⟨xs ++ Token.mark .comma :: [.mark .closeParen], by simp, .moreParameters hx .noParameters⟩
    · simp only [Option.bind_eq_some_iff, Prod.exists, Option.pure_def, Option.some.injEq,
        Prod.mk.injEq] at h
      obtain ⟨ps, rest'', hps, rfl, rfl⟩ := h
      obtain ⟨ys, rfl, hy⟩ := ih .parameters _ _ _ hps
      exact ⟨xs ++ .mark .comma :: ys, by simp, .moreParameters hx hy⟩
    · cases h
      exact ⟨xs ++ [Token.mark .closeParen], by simp, .lastParameter hx⟩
    · simp at h

theorem takes_parameter {fuel tokens v rest} (ih : TakePhrases fuel)
    (h : parameter? (fuel + 1) tokens = some (v, rest)) : Takes .parameter tokens v rest := by
  have hspread := (takeToken_eq (.mark .ellipsis) tokens).1
  simp only [parameter?] at h
  split at h
  · next name after hafter =>
    split at h
    · next hcolon =>
      simp only [Option.bind_eq_bind, Option.bind_eq_some_iff, Prod.exists, Option.pure_def,
        Option.some.injEq, Prod.mk.injEq] at h
      obtain ⟨t, rest', ht, rfl, rfl⟩ := h
      obtain ⟨ts, rfl, hts⟩ := ih .type _ _ _ ht
      have hopt := (takeToken_eq (.mark .question) after).1
      rw [hcolon] at hopt
      rw [hafter, hopt] at hspread
      refine ⟨_, ?_, .parameter name _ _ hts⟩
      simpa using hspread
    · simp at h
  · simp at h

theorem takes_union {fuel tokens v rest} (ih : TakePhrases fuel)
    (h : union? (fuel + 1) tokens = some (v, rest)) : Takes .union tokens v rest := by
  have hfront := (takeToken_eq (.mark .bar) tokens).1
  simp only [union?, Option.bind_eq_bind, Option.bind_eq_some_iff, Prod.exists,
    Option.pure_def, Option.some.injEq, Prod.mk.injEq] at h
  obtain ⟨t, _, ht, ts, _, hts, rfl, rfl⟩ := h
  obtain ⟨ys, rfl, hy⟩ := ih .unionTail _ _ _ hts
  obtain ⟨xs, hxs, hx⟩ := ih .intersection _ _ _ ht
  rw [head?_append_eq_headOr] at hx
  rw [hxs] at hfront
  exact ⟨_, by simpa using hfront, .unionOf _ hx hy⟩

theorem takes_unionTail {fuel tokens v rest} (ih : TakePhrases fuel)
    (h : unionTail? (fuel + 1) tokens = some (v, rest)) : Takes .unionTail tokens v rest := by
  unfold unionTail? at h
  split at h
  all_goals cases ‹fuel + 1 = _›
  · simp only [Option.bind_eq_bind, Option.bind_eq_some_iff, Prod.exists, Option.pure_def,
      Option.some.injEq, Prod.mk.injEq] at h
    obtain ⟨t, _, ht, ts, _, hts, rfl, rfl⟩ := h
    obtain ⟨ys, rfl, hy⟩ := ih .unionTail _ _ _ hts
    obtain ⟨xs, rfl, hx⟩ := ih .intersection _ _ _ ht
    rw [head?_append_eq_headOr] at hx
    exact ⟨_, by simp, .unionMore hx hy⟩
  · next hne =>
    cases h
    exact ⟨[], rfl, .unionEnd (head?_ne_of_forall_ne hne)⟩

theorem takes_intersection {fuel tokens v rest} (ih : TakePhrases fuel)
    (h : intersection? (fuel + 1) tokens = some (v, rest)) :
    Takes .intersection tokens v rest := by
  have hfront := (takeToken_eq (.mark .ampersand) tokens).1
  simp only [intersection?, Option.bind_eq_bind, Option.bind_eq_some_iff, Prod.exists,
    Option.pure_def, Option.some.injEq, Prod.mk.injEq] at h
  obtain ⟨t, _, ht, ts, _, hts, rfl, rfl⟩ := h
  obtain ⟨ys, rfl, hy⟩ := ih .intersectionTail _ _ _ hts
  obtain ⟨xs, hxs, hx⟩ := ih .operand _ _ _ ht
  rw [head?_append_eq_headOr] at hx
  rw [hxs] at hfront
  exact ⟨_, by simpa using hfront, .intersectionOf _ hx hy⟩

theorem takes_intersectionTail {fuel tokens v rest} (ih : TakePhrases fuel)
    (h : intersectionTail? (fuel + 1) tokens = some (v, rest)) :
    Takes .intersectionTail tokens v rest := by
  unfold intersectionTail? at h
  split at h
  all_goals cases ‹fuel + 1 = _›
  · simp only [Option.bind_eq_bind, Option.bind_eq_some_iff, Prod.exists, Option.pure_def,
      Option.some.injEq, Prod.mk.injEq] at h
    obtain ⟨t, _, ht, ts, _, hts, rfl, rfl⟩ := h
    obtain ⟨ys, rfl, hy⟩ := ih .intersectionTail _ _ _ hts
    obtain ⟨xs, rfl, hx⟩ := ih .operand _ _ _ ht
    rw [head?_append_eq_headOr] at hx
    exact ⟨_, by simp, .intersectionMore hx hy⟩
  · next hne =>
    cases h
    exact ⟨[], rfl, .intersectionEnd (head?_ne_of_forall_ne hne)⟩

theorem takes_operand {fuel tokens v rest} (ih : TakePhrases fuel)
    (h : operand? (fuel + 1) tokens = some (v, rest)) : Takes .operand tokens v rest := by
  unfold operand? at h
  split at h
  · simp only [Option.bind_eq_bind, Option.bind_eq_some_iff, Prod.exists, Option.pure_def,
      Option.some.injEq, Prod.mk.injEq] at h
    obtain ⟨t, _, ht, rfl, rfl⟩ := h
    obtain ⟨xs, rfl, hx⟩ := ih .operand _ _ _ ht
    exact ⟨_, rfl, .keyofOf hx⟩
  · simp only [Option.bind_eq_bind, Option.bind_eq_some_iff, Prod.exists, Option.pure_def,
      Option.some.injEq, Prod.mk.injEq] at h
    obtain ⟨t, _, ht, rfl, rfl⟩ := h
    obtain ⟨xs, rfl, hx⟩ := ih .operand _ _ _ ht
    exact ⟨_, rfl, .readonlyOf hx⟩
  · cases h
    exact ⟨[_, _], rfl, .uniqueOf _⟩
  · simp at h
  · simp only [Option.bind_eq_bind, Option.bind_eq_some_iff, Prod.exists] at h
    obtain ⟨p, _, hp, ht⟩ := h
    obtain ⟨ys, rfl, hy⟩ := ih (.brackets p) _ _ _ ht
    obtain ⟨xs, rfl, hx⟩ := ih .primary _ _ _ hp
    rw [head?_append_eq_headOr] at hx
    exact ⟨_, by simp, .bracketed hx hy⟩

theorem takes_brackets {fuel tokens v rest base} (ih : TakePhrases fuel)
    (h : brackets? (fuel + 1) base tokens = some (v, rest)) :
    Takes (.brackets base) tokens v rest := by
  unfold brackets? at h
  split at h
  all_goals cases ‹fuel + 1 = _›
  · obtain ⟨ys, rfl, hy⟩ := ih (.brackets (.array _)) _ _ _ h
    exact ⟨_, rfl, .arrayOf hy⟩
  · simp only [Option.bind_eq_bind, Option.bind_eq_some_iff, Prod.exists] at h
    obtain ⟨i, _, hi, h⟩ := h
    split at h
    · obtain ⟨ys, rfl, hy⟩ := ih (.brackets (.indexed _ i)) _ _ _ h
      obtain ⟨xs, rfl, hx⟩ := ih .type _ _ _ hi
      exact ⟨_, by simp, .indexedBy hx hy⟩
    · simp at h
  · next hne =>
    cases h
    exact ⟨[], rfl, .bracketsEnd (head?_ne_of_forall_ne hne)⟩

theorem takes_primary {fuel tokens v rest} (ih : TakePhrases fuel)
    (h : primary? (fuel + 1) tokens = some (v, rest)) : Takes .primary tokens v rest := by
  unfold primary? at h
  split at h
  · simp only [Option.bind_eq_bind, Option.bind_eq_some_iff, Prod.exists] at h
    obtain ⟨t, _, ht, h⟩ := h
    split at h
    · cases h
      obtain ⟨xs, rfl, hx⟩ := ih .type _ _ _ ht
      exact ⟨_, by simp, .parens hx⟩
    · simp at h
  · simp only [Option.bind_eq_bind, Option.bind_eq_some_iff, Prod.exists, Option.pure_def,
      Option.some.injEq, Prod.mk.injEq] at h
    obtain ⟨ms, _, hms, rfl, rfl⟩ := h
    obtain ⟨xs, rfl, hx⟩ := ih .members _ _ _ hms
    exact ⟨_, rfl, .object hx⟩
  · simp only [Option.bind_eq_bind, Option.bind_eq_some_iff, Prod.exists, Option.pure_def,
      Option.some.injEq, Prod.mk.injEq] at h
    obtain ⟨es, _, hes, rfl, rfl⟩ := h
    obtain ⟨xs, rfl, hx⟩ := ih .elements _ _ _ hes
    exact ⟨_, rfl, .tuple hx⟩
  · cases h; exact ⟨[_], rfl, .string _⟩
  · cases h; exact ⟨[_], rfl, .number _⟩
  · cases h; exact ⟨[_], rfl, .negative _⟩
  · cases h; exact ⟨[_], rfl, .template _⟩
  · simp only [Option.bind_eq_bind, Option.bind_eq_some_iff, Prod.exists, Option.pure_def,
      Option.some.injEq, Prod.mk.injEq] at h
    obtain ⟨_, _, hname, rfl, rfl⟩ := h
    obtain ⟨name, parts, rfl, rfl, hdot⟩ := qualifiedName?_eq_some hname
    exact ⟨_, rfl, .query name parts hdot⟩
  · simp only [Option.bind_eq_bind, Option.bind_eq_some_iff, Prod.exists, Option.pure_def,
      Option.some.injEq, Prod.mk.injEq] at h
    obtain ⟨_, _, hname, as, _, has, rfl, rfl⟩ := h
    obtain ⟨name, parts, rfl, rfl, hdot⟩ := qualifiedName?_eq_some hname
    obtain ⟨xs, rfl, hx⟩ := ih .arguments _ _ _ has
    rw [head?_append_eq_headOr] at hdot
    exact ⟨_, by simp, .imported _ name parts hdot hx⟩
  · split at h
    · next hn =>
      simp only [Option.bind_eq_bind, Option.bind_eq_some_iff, Prod.exists, Option.pure_def,
        Option.some.injEq, Prod.mk.injEq] at h
      obtain ⟨_, _, hname, as, _, has, rfl, rfl⟩ := h
      obtain ⟨parts, rfl, rfl, hdot⟩ := dottedTail?_eq_some hname
      obtain ⟨xs, rfl, hx⟩ := ih .arguments _ _ _ has
      rw [head?_append_eq_headOr] at hdot
      exact ⟨_, by simp, .reference _ parts hn hdot hx⟩
    · simp at h
  · simp at h

theorem takes_arguments {fuel tokens v rest} (ih : TakePhrases fuel)
    (h : arguments? (fuel + 1) tokens = some (v, rest)) : Takes .arguments tokens v rest := by
  unfold arguments? at h
  split at h
  all_goals cases ‹fuel + 1 = _›
  · obtain ⟨xs, rfl, hx⟩ := ih .argumentList _ _ _ h
    exact ⟨_, rfl, .someArguments hx⟩
  · next hne =>
    cases h
    exact ⟨[], rfl, .noArguments (head?_ne_of_forall_ne hne)⟩

theorem takes_argumentList {fuel tokens v rest} (ih : TakePhrases fuel)
    (h : argumentList? (fuel + 1) tokens = some (v, rest)) :
    Takes .argumentList tokens v rest := by
  simp only [argumentList?, Option.bind_eq_bind, Option.bind_eq_some_iff, Prod.exists] at h
  obtain ⟨a, _, ha, h⟩ := h
  obtain ⟨xs, rfl, hx⟩ := ih .type _ _ _ ha
  split at h
  · simp only [Option.bind_eq_some_iff, Prod.exists, Option.pure_def, Option.some.injEq,
      Prod.mk.injEq] at h
    obtain ⟨as, _, has, rfl, rfl⟩ := h
    obtain ⟨ys, rfl, hy⟩ := ih .argumentList _ _ _ has
    exact ⟨_, by simp, .moreArguments hx hy⟩
  · cases h
    exact ⟨_, by simp, .lastArgument hx⟩
  · simp at h

theorem takes_elements {fuel tokens v rest} (ih : TakePhrases fuel)
    (h : elements? (fuel + 1) tokens = some (v, rest)) : Takes .elements tokens v rest := by
  unfold elements? at h
  split at h
  all_goals cases ‹fuel + 1 = _›
  · cases h
    exact ⟨[_], rfl, .noElements⟩
  · simp only [Option.bind_eq_bind, Option.bind_eq_some_iff, Prod.exists] at h
    obtain ⟨e, rest', he, h⟩ := h
    obtain ⟨xs, rfl, hx⟩ := ih .element _ _ _ he
    split at h
    · cases h
      exact ⟨xs ++ Token.mark .comma :: [.mark .closeBracket], by simp, .moreElements hx .noElements⟩
    · simp only [Option.bind_eq_some_iff, Prod.exists, Option.pure_def, Option.some.injEq,
        Prod.mk.injEq] at h
      obtain ⟨es, rest'', hes, rfl, rfl⟩ := h
      obtain ⟨ys, rfl, hy⟩ := ih .elements _ _ _ hes
      exact ⟨xs ++ .mark .comma :: ys, by simp, .moreElements hx hy⟩
    · cases h
      exact ⟨xs ++ [Token.mark .closeBracket], by simp, .lastElement hx⟩
    · simp at h

theorem takes_element {fuel tokens v rest} (ih : TakePhrases fuel)
    (h : element? (fuel + 1) tokens = some (v, rest)) : Takes .element tokens v rest := by
  unfold element? at h
  split at h
  all_goals cases ‹fuel + 1 = _›
  · simp only [Option.bind_eq_bind, Option.bind_eq_some_iff, Prod.exists, Option.pure_def,
      Option.some.injEq, Prod.mk.injEq] at h
    obtain ⟨t, _, ht, rfl, rfl⟩ := h
    obtain ⟨xs, rfl, hx⟩ := ih .type _ _ _ ht
    exact ⟨_, rfl, .restElement hx⟩
  · split at h
    · next hs =>
      split at h
      · next name after _ =>
        simp only at h
        split at h
        · next hcolon =>
          simp only [Option.bind_eq_bind, Option.bind_eq_some_iff, Prod.exists, Option.pure_def,
            Option.some.injEq, Prod.mk.injEq] at h
          obtain ⟨t, _, ht, rfl, rfl⟩ := h
          obtain ⟨xs, rfl, hx⟩ := ih .type _ _ _ ht
          have hn : isNameAtType name = true := by
            unfold startsElementName at hs; split at hs <;> simp_all
          have hopt := (takeToken_eq (.mark .question) after).1
          rw [hcolon] at hopt
          refine ⟨_, ?_, .namedElement name _ hn hx⟩
          rw [List.cons_append, List.append_assoc, List.cons_append, ← hopt]
        · simp at h
      · simp at h
    · next hs =>
      simp only [Option.bind_eq_bind, Option.bind_eq_some_iff, Prod.exists, Option.pure_def,
        Option.some.injEq, Prod.mk.injEq] at h
      obtain ⟨t, _, ht, rfl, rfl⟩ := h
      obtain ⟨xs, rfl, hx⟩ := ih .type _ _ _ ht
      have hne : xs ≠ [] := by obtain ⟨x, xs, rfl, -⟩ := hx.type_cons; simp
      rw [startsElementName_append hne, Bool.not_eq_true] at hs
      exact ⟨xs, rfl, .plainElement hs hx⟩

theorem takes_members {fuel tokens v rest} (ih : TakePhrases fuel)
    (h : members? (fuel + 1) tokens = some (v, rest)) : Takes .members tokens v rest := by
  unfold members? at h
  split at h
  all_goals cases ‹fuel + 1 = _›
  · cases h
    exact ⟨[_], rfl, .noMembers⟩
  · simp only [Option.bind_eq_bind, Option.bind_eq_some_iff, Prod.exists, Option.pure_def,
      Option.some.injEq, Prod.mk.injEq] at h
    obtain ⟨m, after, hm, ms, _, hms, rfl, rfl⟩ := h
    obtain ⟨sep, hsep, hdrop⟩ := dropSeparator_eq after
    obtain ⟨ys, hys, hy⟩ := ih .members _ _ _ hms
    rw [hys] at hdrop
    subst hdrop
    obtain ⟨xs, rfl, hx⟩ := ih .member _ _ _ hm
    rw [← List.append_assoc, head?_append_eq_headOr] at hx
    exact ⟨_, by simp, .moreMembers sep hsep hx hy⟩

theorem takes_member {fuel tokens v rest} (ih : TakePhrases fuel)
    (h : member? (fuel + 1) tokens = some (v, rest)) : Takes .member tokens v rest := by
  obtain ⟨hreadonly, hnot⟩ := takeToken_eq (.word "readonly") tokens
  simp only [member?] at h
  split at h
  · next key after hafter =>
    simp only [Option.bind_eq_bind, Option.bind_eq_some_iff, Prod.exists] at h
    obtain ⟨k, _, hk, h⟩ := h
    split at h
    · simp only [Option.bind_eq_some_iff, Prod.exists, Option.pure_def, Option.some.injEq,
        Prod.mk.injEq] at h
      obtain ⟨t, _, ht, rfl, rfl⟩ := h
      obtain ⟨ys, rfl, hy⟩ := ih .type _ _ _ ht
      obtain ⟨xs, rfl, hx⟩ := ih .type _ _ _ hk
      rw [hafter] at hreadonly
      exact ⟨_, by simpa using hreadonly, .index key _ hx hy⟩
    · simp at h
  · simp only [Option.bind_eq_bind, Option.bind_eq_some_iff, Prod.exists] at h
    obtain ⟨name, after, hname, h⟩ := h
    obtain ⟨key, hafter, hkey⟩ := propertyName?_eq_some hname
    obtain ⟨hquestion, hnone⟩ := takeToken_eq (.mark .question) after
    rw [hafter] at hreadonly hnot
    have hplain : (takeToken (.word "readonly") tokens).1 = false → key ≠ [.word "readonly"] := by
      rintro h rfl
      exact hnot h rfl
    split at h
    · next hparen =>
      split at h
      · simp at h
      · next hr =>
        simp only [Option.bind_eq_some_iff, Prod.exists, Option.pure_def, Option.some.injEq,
          Prod.mk.injEq] at h
        obtain ⟨ps, _, hps, r, _, hr', rfl, rfl⟩ := h
        obtain ⟨ys, rfl, hy⟩ := ih .ascription _ _ _ hr'
        obtain ⟨xs, rfl, hx⟩ := ih .parameters _ _ _ hps
        rw [head?_append_eq_headOr] at hx
        rw [Bool.not_eq_true] at hr
        rw [hr, tokenIf_false, hquestion, hparen] at hreadonly
        exact ⟨_, by simpa using hreadonly, .method name _ hkey (hplain hr) hx hy⟩
    · next hparen =>
      simp only [Option.bind_eq_some_iff, Prod.exists, Option.pure_def, Option.some.injEq,
        Prod.mk.injEq] at h
      obtain ⟨t, _, ht, rfl, rfl⟩ := h
      obtain ⟨ys, hys, hy⟩ := ih .ascription _ _ _ ht
      have hopen := head?_ne_of_forall_ne (fun rest => hparen rest)
      rw [hys, head?_append_eq_headOr] at hnone hopen
      rw [hquestion, hys] at hreadonly
      exact ⟨_, by simpa using hreadonly, .property name _ _ hkey hplain hnone hopen hy⟩

theorem takes_ascription {fuel tokens v rest} (ih : TakePhrases fuel)
    (h : annotation? (fuel + 1) tokens = some (v, rest)) : Takes .ascription tokens v rest := by
  unfold annotation? at h
  split at h
  all_goals cases ‹fuel + 1 = _›
  · simp only [Option.bind_eq_bind, Option.bind_eq_some_iff, Prod.exists, Option.pure_def,
      Option.some.injEq, Prod.mk.injEq] at h
    obtain ⟨t, _, ht, rfl, rfl⟩ := h
    obtain ⟨xs, rfl, hx⟩ := ih .type _ _ _ ht
    exact ⟨_, rfl, .someAscription hx⟩
  · next hne =>
    cases h
    exact ⟨[], rfl, .noAscription (head?_ne_of_forall_ne hne)⟩

/-- **Whatever a reader takes is a phrase** in front of the tokens it leaves. -/
theorem takePhrases (fuel : Nat) : TakePhrases fuel := by
  induction fuel with
  | zero =>
    intro c tokens v rest h
    cases c <;>
      simp [Category.read?, type?, functionType?, union?, unionTail?, intersection?,
        intersectionTail?, operand?, brackets?, primary?, arguments?, argumentList?, parameters?,
        parameter?, elements?, element?, members?, member?, annotation?] at h
  | succ fuel ih =>
    intro c tokens v rest h
    cases c with
    | type => exact takes_type ih h
    | function => exact takes_function ih h
    | union => exact takes_union ih h
    | unionTail => exact takes_unionTail ih h
    | intersection => exact takes_intersection ih h
    | intersectionTail => exact takes_intersectionTail ih h
    | operand => exact takes_operand ih h
    | brackets => exact takes_brackets ih h
    | primary => exact takes_primary ih h
    | arguments => exact takes_arguments ih h
    | argumentList => exact takes_argumentList ih h
    | parameters => exact takes_parameters ih h
    | parameter => exact takes_parameter ih h
    | elements => exact takes_elements ih h
    | element => exact takes_element ih h
    | members => exact takes_members ih h
    | member => exact takes_member ih h
    | ascription => exact takes_ascription ih h

theorem derives_of_read? {c : Category} {fuel : Nat} {tokens rest : List Token} {v : c.Tree}
    (h : c.read? fuel tokens = some (v, rest)) :
    ∃ ts, tokens = ts ++ rest ∧ Derives c ts v rest.head? :=
  takePhrases fuel c tokens v rest h

/-- **The tokens of a type expression** are the phrases of the category of types. -/
theorem typeOfTokens?_eq_some_iff {tokens : List Token} {t : TypeNode} :
    typeOfTokens? tokens = some t ↔ Derives .type tokens t none := by
  unfold typeOfTokens?
  constructor
  · intro h
    split at h
    · next heq =>
      cases h
      have hread : Category.read? .type (8 * (tokens.length + 1)) tokens = some (t, []) := heq
      obtain ⟨ts, rfl, ht⟩ := derives_of_read? hread
      simpa using ht
    · simp at h
  · intro h
    have := @read?_derives _ _ _ _ h (8 * (tokens.length + 1)) [] rfl
      (by simp [Category.slack]; omega)
    simp only [Category.read?, List.append_nil] at this
    rw [this]

end FluentBuilders.Grammar
