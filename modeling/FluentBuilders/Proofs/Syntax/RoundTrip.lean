import FluentBuilders.Proofs.Syntax.TypeText
import Mathlib.Data.List.Chain

/-!
# Proofs/Syntax/RoundTrip — every type expression is read back from its text

The tokens that a type is spelled with follow each other so that only two words can run into one
another (`TypeNode.Spellable.meets`).  So the type is read back from every text with its tokens in
which blanks or comments stand between neighbouring words (`parseType_text_tokens`).
-/

namespace FluentBuilders

open Grammar

/-! ## Tokens that meet -/

namespace Token

/-- A token that no character carries on. -/
def stops : Token → Bool
  | .mark m => m ≠ .dot
  | .string _ | .template _ => true
  | _ => false

/-- A token that carries none on: a mark without dots. -/
def begins : Token → Bool
  | .mark m => m ≠ .dot ∧ m ≠ .ellipsis
  | _ => false

/-- A word of either kind. -/
def isWord : Token → Bool
  | .word _ => true
  | _ => false

/-- **Two tokens that can meet**: the second does not carry the first on, or both are words. -/
def Meets (x y : Token) : Prop := (x.isWord ∧ y.isWord) ∨ ∀ c ∈ y.text.head?, x.extendsWith c = false

theorem extendsWith_of_stops {x : Token} (h : x.stops) (c : Char) : x.extendsWith c = false := by
  cases x with
  | mark m => cases m <;> first | rfl | cases h
  | string => rfl
  | template => rfl
  | _ => cases h

theorem meets_of_stops {x : Token} (h : x.stops) (y : Token) : Meets x y :=
  .inr fun c _ => extendsWith_of_stops h c

theorem meets_of_begins (x : Token) {y : Token} (h : y.begins) : Meets x y := by
  refine .inr fun c hc => ?_
  cases y with
  | mark m =>
    cases x with
    | mark n => cases n <;> first | rfl | (cases m <;> cases hc <;> first | rfl | cases h)
    | _ => cases m <;> cases hc <;> first | rfl | decide | cases h
  | _ => cases h

/-- A word stops in front of every mark. -/
theorem meets_word_mark (w : String) (m : Mark) : Meets (.word w) (.mark m) := by
  refine .inr fun c hc => ?_
  cases m <;> cases hc <;> rfl

theorem meets_word_word (w v : String) : Meets (.word w) (.word v) := .inl ⟨rfl, rfl⟩

/-- A word stops in front of a literal in double quotes. -/
theorem meets_word_literal (w text : String) : Meets (.word w) (.string (Text.typeLiteral text)) := by
  refine .inr fun c hc => ?_
  rw [Token.text, Text.toList_typeLiteral] at hc
  cases hc
  rfl

theorem meets_dot_word {w : String} (h : isAsciiName w) : Meets (.mark .dot) (.word w) := by
  refine .inr fun c hc => ?_
  obtain ⟨cs, hcs⟩ := List.head?_eq_some_iff.1 (show w.toList.head? = some c from hc)
  rw [isAsciiName, hcs, Text.isNameOver, Bool.and_eq_true] at h
  have hne : c ≠ '.' := by
    rintro rfl
    exact absurd h.1 (by decide)
  exact beq_eq_false_iff_ne.2 hne

end Token

/-- Each token meets the next. -/
abbrev Meet (ts : List Token) : Prop := ts.IsChain Token.Meets

section

variable {ts rest : List Token}

theorem meet_cons {x : Token} (h : ∀ y ∈ ts.head?, x.Meets y) (hs : Meet ts) : Meet (x :: ts) :=
  List.isChain_cons.2 ⟨h, hs⟩

theorem meet_of_stops {x : Token} (h : x.stops) (hs : Meet ts) : Meet (x :: ts) :=
  meet_cons (fun y _ => Token.meets_of_stops h y) hs

/-- Any token goes before a mark without dots. -/
theorem meet_of_begins (x : Token) (hne : ∀ y ∈ ts.head?, y.begins) (hs : Meet ts) :
    Meet (x :: ts) :=
  meet_cons (fun y hy => Token.meets_of_begins x (hne y hy)) hs

/-- A word goes before whatever begins with a mark. -/
theorem meet_word_marks {w : String} (hne : ∀ y ∈ ts.head?, ∃ m, y = .mark m) (hs : Meet ts) :
    Meet (.word w :: ts) :=
  meet_cons (fun y hy => by obtain ⟨m, rfl⟩ := hne y hy; exact Token.meets_word_mark w m) hs

end

/-! ## Spellings -/

/-- **The tokens `ts` meet**, and what is written after them, when that begins with a mark. -/
def Joins (ts : List Token) : Prop :=
  ∀ rest, Meet rest → (∀ y ∈ rest.head?, y.begins) → Meet (ts ++ rest)

section

variable {ok : String → Prop} {ts : List TypeNode} {rest : List Token}

theorem meet_parenthesized {xs : List Token} (h : Joins xs) (hrest : Meet rest) :
    Meet (parenthesized xs ++ rest) := by
  rw [parenthesized, List.cons_append, List.append_assoc]
  exact meet_of_stops rfl (h _ (meet_of_stops rfl hrest) (by simp [Token.begins]))

theorem head?_parenthesized (xs rest : List Token) :
    ∀ y ∈ (parenthesized xs ++ rest).head?, y.begins := by
  simp [parenthesized, Token.begins]

theorem meet_dottedTokens (hok : ∀ n, ok n → isAsciiName n) {w : String} {parts : List String}
    (hparts : ∀ part ∈ parts, ok part) (hrest : Meet rest) (hhead : ∀ y ∈ rest.head?, y.begins) :
    Meet (.word w :: (dottedTokens parts ++ rest)) := by
  induction parts generalizing w with
  | nil => exact meet_of_begins _ hhead hrest
  | cons part parts ih =>
    rw [List.forall_mem_cons] at hparts
    have hdot : Meet (.mark .dot :: .word part :: (dottedTokens parts ++ rest)) := by
      refine meet_cons ?_ (ih hparts.2)
      rintro y ⟨⟩
      exact Token.meets_dot_word (hok part hparts.1)
    exact meet_word_marks (fun y hy => by cases hy; exact ⟨_, rfl⟩) hdot

theorem joins_nameTokens (hok : ∀ n, ok n → isAsciiName n) {name : String}
    (hname : DottedBy ok name) {xs : List Token} (hxs : Joins xs)
    (hhead : ∀ rest : List Token, (∀ y ∈ rest.head?, y.begins) → ∀ y ∈ (xs ++ rest).head?, y.begins) :
    Joins (nameTokens name ++ xs) := by
  intro rest hrest hbegins
  obtain ⟨first, parts, hparts, -⟩ := exists_nameParts name
  rw [DottedBy, hparts, List.forall_mem_cons] at hname
  rw [nameTokens_of_nameParts hparts, List.append_assoc, List.cons_append]
  exact meet_dottedTokens hok hname.2 (hxs rest hrest hbegins) (hhead rest hbegins)

theorem meet_tailTokens {m : Mark} (hm : m ≠ .dot) (h : ∀ t ∈ ts, Joins t.tokens)
    (hrest : Meet rest) : Meet (tailTokens m ts ++ rest) := by
  induction ts with
  | nil => exact hrest
  | cons t ts ih =>
    rw [List.forall_mem_cons] at h
    rw [tailTokens, List.cons_append, List.append_assoc]
    exact meet_of_stops (by simpa [Token.stops] using hm) (meet_parenthesized h.1 (ih h.2))

theorem joins_argumentTokens (h : ∀ t ∈ ts, Joins t.tokens) : Joins (argumentTokens ts) := by
  intro rest hrest hbegins
  cases ts with
  | nil => exact hrest
  | cons t ts =>
    rw [List.forall_mem_cons] at h
    rw [argumentTokens, List.cons_append, List.append_assoc, List.append_assoc]
    exact meet_of_stops rfl (meet_parenthesized h.1
      (meet_tailTokens (by decide) h.2 (meet_of_stops rfl hrest)))

theorem head?_argumentTokens (ts : List TypeNode) (rest : List Token)
    (h : ∀ y ∈ rest.head?, y.begins) : ∀ y ∈ (argumentTokens ts ++ rest).head?, y.begins := by
  cases ts with
  | nil => exact h
  | cons t ts => simp [argumentTokens, Token.begins]

theorem joins_groupTokens {m : Mark} (hm : m ≠ .dot) (h : ∀ t ∈ ts, Joins t.tokens) :
    Joins (groupTokens m ts) := by
  intro rest hrest _
  cases ts with
  | nil => exact hrest
  | cons t ts =>
    rw [List.forall_mem_cons] at h
    rw [groupTokens, List.append_assoc]
    exact meet_parenthesized h.1 (meet_tailTokens hm h.2 hrest)

/-- A word, a question mark that may be there, and a colon with a type. -/
theorem meet_named {name : String} (optional : Bool) {xs : List Token} (h : Joins xs)
    (hrest : Meet rest) :
    Meet (.word name :: (tokenIf optional (.mark .question) ++
      .mark .colon :: (parenthesized xs ++ rest))) := by
  have hcolon := @meet_of_stops _ (.mark .colon) rfl (meet_parenthesized h hrest)
  cases optional with
  | false => exact meet_word_marks (fun y hy => by cases hy; exact ⟨_, rfl⟩) hcolon
  | true =>
    exact meet_word_marks (fun y hy => by cases hy; exact ⟨_, rfl⟩) (meet_of_stops rfl hcolon)

theorem TupleElement.meet_tokens {e : TupleElement} (h : Joins e.type.tokens) (hrest : Meet rest) :
    Meet (e.tokens ++ rest) := by
  cases e with
  | plain t => exact meet_parenthesized h hrest
  | named name optional t =>
    simp only [TupleElement.tokens, List.cons_append, List.append_assoc]
    exact meet_named optional h hrest
  | rest t => exact meet_of_stops rfl (meet_parenthesized h hrest)

theorem meet_elementsTokens {es : List TupleElement} (h : ∀ e ∈ es, Joins e.type.tokens)
    (hrest : Meet rest) : Meet (elementsTokens es ++ rest) := by
  have hclose := @meet_of_stops _ (.mark .closeBracket) rfl hrest
  induction es with
  | nil => exact hclose
  | cons e es ih =>
    rw [List.forall_mem_cons] at h
    cases es with
    | nil =>
      rw [elementsTokens, List.append_assoc]
      exact TupleElement.meet_tokens h.1 hclose
    | cons =>
      rw [elementsTokens, List.append_assoc]
      · exact TupleElement.meet_tokens h.1 (meet_of_stops rfl (ih h.2))
      · simp

theorem Parameter.meet_tokens {p : Parameter} (h : Joins p.type.tokens) (hrest : Meet rest) :
    Meet (p.tokens ++ rest) := by
  obtain ⟨name, optional, spread, t⟩ := p
  simp only [Parameter.tokens, List.cons_append, List.append_assoc]
  have hnamed := @meet_named rest name optional _ h hrest
  cases spread with
  | false => exact hnamed
  | true => exact meet_of_stops rfl hnamed

theorem meet_parametersTokens {ps : List Parameter} (h : ∀ p ∈ ps, Joins p.type.tokens)
    (hrest : Meet rest) : Meet (parametersTokens ps ++ rest) := by
  have hclose := @meet_of_stops _ (.mark .closeParen) rfl hrest
  induction ps with
  | nil => exact hclose
  | cons p ps ih =>
    rw [List.forall_mem_cons] at h
    cases ps with
    | nil =>
      rw [parametersTokens, List.append_assoc]
      exact Parameter.meet_tokens h.1 hclose
    | cons =>
      rw [parametersTokens, List.append_assoc]
      · exact Parameter.meet_tokens h.1 (meet_of_stops rfl (ih h.2))
      · simp

theorem meet_annotationTokens {t : Option TypeNode} (h : ∀ u ∈ t, Joins u.tokens)
    (hrest : Meet rest) : Meet (annotationTokens t ++ rest) := by
  cases t with
  | none => exact hrest
  | some t => exact meet_of_stops rfl (meet_parenthesized (h t rfl) hrest)

theorem meet_questionIf (optional : Bool) (hrest : Meet rest) :
    Meet (tokenIf optional (.mark .question) ++ rest) := by
  cases optional with
  | false => exact hrest
  | true => exact meet_of_stops rfl hrest

theorem Member.meet_tokens {m : Member} (h : ∀ t ∈ m.types, Joins t.tokens) (hrest : Meet rest) :
    Meet (m.tokens ++ rest) := by
  cases m with
  | property name optional readonly t =>
    simp only [Member.tokens, List.cons_append, List.append_assoc]
    have hkey : Meet (.string (Text.typeLiteral name) :: (tokenIf optional (.mark .question) ++
        (annotationTokens t ++ rest))) :=
      meet_of_stops rfl (meet_questionIf optional
        (meet_annotationTokens (by simpa [Member.types] using h) hrest))
    cases readonly with
    | false => exact hkey
    | true =>
      refine meet_cons ?_ hkey
      rintro y ⟨⟩
      exact Token.meets_word_literal _ name
  | method name optional ps r =>
    simp only [Member.types, List.mem_append, List.mem_map, or_imp, forall_and,
      forall_exists_index, and_imp, forall_apply_eq_imp_iff₂, Option.mem_toList] at h
    simp only [Member.tokens, List.cons_append, List.append_assoc]
    exact meet_of_stops rfl (meet_questionIf optional (meet_of_stops rfl
      (meet_parametersTokens h.1 (meet_annotationTokens h.2 hrest))))
  | index key readonly k v =>
    simp only [Member.types, List.forall_mem_cons] at h
    simp only [Member.tokens, List.cons_append, List.append_assoc]
    have hvalue := meet_of_stops (x := .mark .closeBracket) rfl
      (meet_of_stops (x := .mark .colon) rfl (meet_parenthesized h.2.1 hrest))
    have hkey := meet_of_stops (x := .mark .openBracket) rfl
      (@meet_named _ key false _ h.1 hvalue)
    cases readonly with
    | false => exact hkey
    | true => exact meet_word_marks (fun y hy => by cases hy; exact ⟨_, rfl⟩) hkey

theorem meet_membersTokens {ms : List Member} (h : ∀ m ∈ ms, ∀ t ∈ m.types, Joins t.tokens)
    (hrest : Meet rest) : Meet (membersTokens ms ++ rest) := by
  induction ms with
  | nil => exact meet_of_stops rfl hrest
  | cons m ms ih =>
    rw [List.forall_mem_cons] at h
    rw [membersTokens, List.append_assoc]
    exact Member.meet_tokens h.1 (meet_of_stops rfl (ih h.2))

/-- **The tokens of a spelling meet.** -/
theorem TypeNode.Spellable.joins (hok : ∀ n, ok n → isAsciiName n) {t : TypeNode}
    (h : t.Spellable ok) : Joins t.tokens := by
  have hname : ∀ {name}, DottedBy ok name → Joins (nameTokens name) := fun hname => by
    have hnil : Joins [] := fun rest hrest _ => hrest
    simpa using joins_nameTokens hok hname hnil fun rest hbegins => hbegins
  induction h with
  | reference name arguments hdotted _ ih =>
    exact joins_nameTokens hok hdotted (joins_argumentTokens ih) (head?_argumentTokens arguments)
  | imported module name arguments hdotted _ ih =>
    intro rest hrest hbegins
    have hnames := joins_nameTokens hok hdotted (joins_argumentTokens ih)
      (head?_argumentTokens arguments) rest hrest hbegins
    obtain ⟨first, parts, hparts, -⟩ := exists_nameParts name
    rw [DottedBy, hparts, List.forall_mem_cons] at hdotted
    have hdot : Meet (.mark .dot :: (nameTokens name ++ argumentTokens arguments ++ rest)) := by
      refine meet_cons ?_ hnames
      rw [nameTokens_of_nameParts hparts]
      rintro y ⟨⟩
      exact Token.meets_dot_word (hok first hdotted.1)
    exact meet_word_marks (fun y hy => by cases hy; exact ⟨_, rfl⟩)
      (meet_of_stops rfl (meet_of_stops rfl (meet_of_stops rfl hdot)))
  | string text => exact fun rest hrest _ => meet_of_stops rfl hrest
  | number text => exact fun rest hrest hbegins => meet_of_begins _ hbegins hrest
  | template text => exact fun rest hrest _ => meet_of_stops rfl hrest
  | union members _ _ ih => exact joins_groupTokens (by decide) ih
  | intersection members _ _ ih => exact joins_groupTokens (by decide) ih
  | array element _ ih =>
    intro rest hrest _
    rw [TypeNode.tokens, List.append_assoc]
    exact meet_parenthesized ih (meet_of_stops rfl (meet_of_stops rfl hrest))
  | indexed object index _ _ iho ihi =>
    intro rest hrest _
    rw [TypeNode.tokens, List.append_assoc, List.cons_append, List.append_assoc]
    exact meet_parenthesized iho (meet_of_stops rfl
      (meet_parenthesized ihi (meet_of_stops rfl hrest)))
  | tuple elements _ _ ih =>
    exact fun rest hrest _ => meet_of_stops rfl (meet_elementsTokens ih hrest)
  | function parameters returns _ _ _ ih ihr =>
    intro rest hrest _
    simp only [TypeNode.tokens, List.cons_append, List.append_assoc]
    exact meet_of_stops rfl (meet_parametersTokens ih
      (meet_of_stops rfl (meet_parenthesized ihr hrest)))
  | operator op operand hop _ ih =>
    intro rest hrest _
    rw [TypeNode.tokens, List.cons_append]
    · exact meet_of_begins _ (head?_parenthesized _ _) (meet_parenthesized ih hrest)
    · rintro name rfl
      exact absurd rfl hop
  | unique name =>
    intro rest hrest hbegins
    refine meet_cons ?_ (meet_of_begins _ hbegins hrest)
    rintro y ⟨⟩
    exact Token.meets_word_word _ name
  | query name hdotted =>
    intro rest hrest hbegins
    obtain ⟨first, parts, hparts, -⟩ := exists_nameParts name
    have hnames := hname hdotted rest hrest hbegins
    rw [TypeNode.tokens, List.cons_append]
    refine meet_cons ?_ hnames
    rw [nameTokens_of_nameParts hparts]
    rintro y ⟨⟩
    exact Token.meets_word_word _ first
  | object members _ _ ih =>
    exact fun rest hrest _ => meet_of_stops rfl (meet_membersTokens ih hrest)

end

/-! ## Layouts -/

namespace Layout

/-- **Neighbouring words stand apart**: blanks or comments come between them. -/
def WordsApart (l : Layout) : Prop :=
  l.IsChain fun p q => (∃ w, p.1 = .token (.word w)) → (∃ w, q.1 = .token (.word w)) → p.2 ≠ []

/-- Tokens that meet stand apart where words do. -/
theorem WordsApart.apart {l : Layout} (h : l.WordsApart) {ts : List Token}
    (hts : l.lexemes = ts.map .token) (hmeet : Meet ts) (hwhole : ∀ t ∈ ts, t.Whole) :
    l.Apart [] := by
  induction l generalizing ts with
  | nil => trivial
  | cons p l ih =>
    obtain ⟨x, gap⟩ := p
    obtain ⟨t, ts, rfl, rfl, hl⟩ := List.map_eq_cons_iff.1 hts.symm
    rw [WordsApart, List.isChain_cons] at h
    rw [Meet, List.isChain_cons] at hmeet
    rw [List.forall_mem_cons] at hwhole
    refine ⟨fun c hc => ?_, ih h.2 hl.symm hmeet.2 hwhole.2⟩
    cases gap with
    | cons f gap =>
      refine Lexeme.extendsWith_filler _ f c ?_
      cases f <;> exact hc
    | nil =>
      cases l with
      | nil => cases hc
      | cons q l =>
        obtain ⟨y, gap⟩ := q
        obtain ⟨u, us, rfl, rfl, -⟩ := List.map_eq_cons_iff.1 hl
        rcases hmeet.1 u rfl with ⟨ht, hu⟩ | hmeets
        · -- two words without a gap
          obtain ⟨w, rfl⟩ : ∃ w, t = .word w := by cases t <;> first | exact ⟨_, rfl⟩ | cases ht
          obtain ⟨v, rfl⟩ : ∃ v, u = .word v := by cases u <;> first | exact ⟨_, rfl⟩ | cases hu
          exact absurd rfl (h.1 _ rfl ⟨w, rfl⟩ ⟨v, rfl⟩)
        · obtain ⟨d, ds, hu⟩ := List.exists_cons_of_ne_nil (Token.text_ne_nil_of_read? (hwhole.2 u List.mem_cons_self))
          refine hmeets c ?_
          rw [hu]
          simpa [Lexeme.text, hu] using hc

end Layout

/-! ## The round trip -/

/-- **A name in a type**: an ASCII identifier that is no operator word. -/
def IsTypeName (name : String) : Prop := isAsciiName name ∧ isNameAtType name

/-- **Every type expression is read back** from its text: from its tokens with blanks and comments
before, between and after them, as long as some stand between neighbouring words. -/
theorem parseType_spelling {t : TypeNode} (ht : t.Spellable IsTypeName) (gap : Gap) {l : Layout}
    (hl : l.lexemes = t.tokens.map .token) (hwords : l.WordsApart) :
    parseType (gap.text ++ l.text) = t := by
  have hascii : ∀ n, IsTypeName n → isAsciiName n := fun _ h => h.1
  have hmeet : Meet t.tokens := by simpa using ht.joins hascii [] .nil (by simp)
  exact ht.parseType (fun _ h => h) gap hl (hwords.apart hl hmeet (ht.whole hascii))

/-- An object type with an escaped quote in the name of its property. -/
def quotedKeyType : TypeNode := .object [.property "a\"b" true true (some (.query "x.y"))]

/-- Its tokens, with comments after two of its words. -/
def quotedKeyLayout : Layout :=
  [(.token (.mark .openBrace), []),
    (.token (.word "readonly"), [.blockComment [' ', '1', ' '] rfl]),
    (.token (.string "\"a\\\"b\""), []), (.token (.mark .question), []),
    (.token (.mark .colon), [.blank ' ' rfl]), (.token (.mark .openParen), []),
    (.token (.word "typeof"), [.lineComment ['2'] (by decide)]), (.token (.word "x"), []),
    (.token (.mark .dot), []), (.token (.word "y"), []), (.token (.mark .closeParen), []),
    (.token (.mark .semicolon), [.blank '\n' rfl]), (.token (.mark .closeBrace), [])]

theorem parseType_spelling_quotedKey :
    quotedKeyLayout.text = "\x7breadonly/* 1 */\"a\\\"b\"?: (typeof//2\nx.y);\n\x7d".toList ∧
      parseType (Gap.text [] ++ quotedKeyLayout.text) = quotedKeyType := by
  have hname : ∀ part ∈ nameParts "x.y", IsTypeName part := by
    simp only [IsTypeName]
    decide +kernel
  have hspellable : quotedKeyType.Spellable IsTypeName := by
    refine .object _ (by simp [Member.words]) ?_
    simpa [Member.types] using TypeNode.Spellable.query "x.y" hname
  refine ⟨by decide +kernel, parseType_spelling hspellable [] (by decide +kernel) ?_⟩
  simp [quotedKeyLayout, Layout.WordsApart]

end FluentBuilders
