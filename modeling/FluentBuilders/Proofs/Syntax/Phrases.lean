import FluentBuilders.Proofs.Syntax.RoundTrip

/-!
# Proofs/Syntax/Phrases — texts put together from the texts of phrases

A text **of tokens** (`IsTextOf`) is scanned as these tokens in front of everything that carries no
word and no number on; a **closed** one (`IsClosedText`) in front of everything.  Texts of phrases are
put together as the grammar puts the phrases together: at each level of the grammar a phrase ends in
front of fewer marks, and what stands in parentheses ends in front of them all.
-/

namespace FluentBuilders

open Grammar

/-! ## Texts of tokens -/

/-- **A text of the tokens `ts`**, in front of anything that carries no word or number on. -/
def IsTextOf (ts : List Token) (text : String) : Prop :=
  ∃ l : Layout, l.lexemes = ts.map .token ∧ l.text = text.toList ∧
    ∀ after, Token.EndsNumber after → l.Fits after

/-- **A text of the tokens `ts`** in front of anything. -/
def IsClosedText (ts : List Token) (text : String) : Prop :=
  ∃ l : Layout, l.lexemes = ts.map .token ∧ l.text = text.toList ∧ ∀ after, l.Fits after

section

variable {ts us : List Token} {x y : String}

/-- The text of a mark, as a string. -/
def markText (m : Mark) : String := String.ofList m.text

theorem endsNumber_append (hx : x ≠ "") (h : Token.EndsNumber x.toList) :
    Token.EndsNumber (x ++ y).toList := by
  intro c hc
  refine h c ?_
  rw [String.toList_append, List.head?_append] at hc
  cases hhead : x.toList with
  | nil => exact absurd (String.toList_injective hhead) hx
  | cons d ds =>
    rw [hhead] at hc
    exact hc

theorem endsNumber_append_of {cs ds : List Char} (h : Token.EndsNumber cs)
    (hs : Token.EndsNumber ds) : Token.EndsNumber (cs ++ ds) := by
  cases cs with
  | nil => exact hs
  | cons c cs => exact h

theorem lexemes_append (l l' : Layout) :
    Layout.lexemes (l ++ l') = Layout.lexemes l ++ Layout.lexemes l' := by
  simp [Layout.lexemes]

theorem isTextOf_nil : IsTextOf [] "" := ⟨[], rfl, rfl, fun _ _ => trivial⟩

theorem IsClosedText.isTextOf (h : IsClosedText ts x) : IsTextOf ts x := by
  obtain ⟨l, hlexemes, htext, hfits⟩ := h
  exact ⟨l, hlexemes, htext, fun after _ => hfits after⟩

/-- No token goes on where no number does. -/
theorem extendsWith_of_endsNumber (t : Token) {cs : List Char} (h : Token.EndsNumber cs) :
    ∀ c ∈ cs.head?, t.extendsWith c = false := by
  intro c hc
  obtain ⟨hword, hdigit, hdot⟩ := h c hc
  rcases t with _ | _ | _ | _ | _ | m
  case mark => cases m <;> simp [Token.extendsWith, hdot]
  all_goals simp [Token.extendsWith, hword, hdigit, hdot]

/-- **A token is a text of itself.** -/
theorem isTextOf_token {t : Token} (h : t.Whole) : IsTextOf [t] (String.ofList t.text) := by
  refine ⟨[(.token t, [])], rfl, by simp [Lexeme.text], fun after hafter => ⟨h, ?_, trivial⟩⟩
  exact fun c hc => extendsWith_of_endsNumber t hafter c (by simpa using hc)

theorem isClosedText_token {t : Token} (h : t.Whole) (hstops : t.stops) :
    IsClosedText [t] (String.ofList t.text) := by
  refine ⟨[(.token t, [])], rfl, by simp [Lexeme.text], fun after => ⟨h, ?_, trivial⟩⟩
  exact fun c _ => Token.extendsWith_of_stops hstops c

theorem isClosedText_mark {m : Mark} (hm : m ≠ .dot) : IsClosedText [.mark m] (markText m) :=
  isClosedText_token (Token.whole_mark m) (by simpa [Token.stops] using hm)

theorem isTextOf_word {w : String} (h : isAsciiName w) : IsTextOf [.word w] w := by
  simpa [Token.text] using isTextOf_token (Token.whole_word h)

/-! ### In a row -/

/-- Layouts in a row have the tokens and the texts of both. -/
theorem layout_append {l l' : Layout} (hlexemes : l.lexemes = ts.map .token)
    (htext : l.text = x.toList) (hlexemes' : l'.lexemes = us.map .token)
    (htext' : l'.text = y.toList) :
    Layout.lexemes (l ++ l') = (ts ++ us).map .token ∧ Layout.text (l ++ l') = (x ++ y).toList := by
  constructor
  · rw [lexemes_append, hlexemes, hlexemes', List.map_append]
  · rw [Layout.text_append, htext, htext', String.toList_append]

theorem IsClosedText.append (h : IsClosedText ts x) (h' : IsClosedText us y) :
    IsClosedText (ts ++ us) (x ++ y) := by
  obtain ⟨l, hlexemes, htext, hfits⟩ := h
  obtain ⟨l', hlexemes', htext', hfits'⟩ := h'
  obtain ⟨hl, hx⟩ := layout_append hlexemes htext hlexemes' htext'
  exact ⟨l ++ l', hl, hx, fun after => Layout.fits_append.2 ⟨hfits _, hfits' after⟩⟩

theorem IsClosedText.append_text (h : IsClosedText ts x) (h' : IsTextOf us y) :
    IsTextOf (ts ++ us) (x ++ y) := by
  obtain ⟨l, hlexemes, htext, hfits⟩ := h
  obtain ⟨l', hlexemes', htext', hfits'⟩ := h'
  obtain ⟨hl, hx⟩ := layout_append hlexemes htext hlexemes' htext'
  exact ⟨l ++ l', hl, hx, fun after hafter => Layout.fits_append.2 ⟨hfits _, hfits' after hafter⟩⟩

theorem IsTextOf.append (h : IsTextOf ts x) (h' : IsTextOf us y)
    (hends : Token.EndsNumber y.toList) : IsTextOf (ts ++ us) (x ++ y) := by
  obtain ⟨l, hlexemes, htext, hfits⟩ := h
  obtain ⟨l', hlexemes', htext', hfits'⟩ := h'
  obtain ⟨hl, hx⟩ := layout_append hlexemes htext hlexemes' htext'
  refine ⟨l ++ l', hl, hx, fun after hafter => Layout.fits_append.2 ⟨hfits _ ?_, hfits' after hafter⟩⟩
  rw [htext']
  exact endsNumber_append_of hends hafter

theorem IsTextOf.append_closed (h : IsTextOf ts x) (h' : IsClosedText us y) (hy : y ≠ "")
    (hends : Token.EndsNumber y.toList) : IsClosedText (ts ++ us) (x ++ y) := by
  obtain ⟨l, hlexemes, htext, hfits⟩ := h
  obtain ⟨l', hlexemes', htext', hfits'⟩ := h'
  obtain ⟨hl, hx⟩ := layout_append hlexemes htext hlexemes' htext'
  refine ⟨l ++ l', hl, hx, fun after => Layout.fits_append.2 ⟨hfits _ ?_, hfits' after⟩⟩
  rw [htext']
  have := @endsNumber_append y (String.ofList after) hy hends
  simpa using this

/-- **A blank closes a text.** -/
theorem IsTextOf.blank (h : IsTextOf ts x) (hne : ts ≠ []) : IsClosedText ts (x ++ " ") := by
  obtain ⟨l, hlexemes, htext, hfits⟩ := h
  rcases List.eq_nil_or_concat l with rfl | ⟨l, ⟨t, gap⟩, rfl⟩
  · exact absurd (List.map_eq_nil_iff.1 hlexemes.symm) hne
  rw [List.concat_eq_append] at hlexemes htext hfits
  have hgap : Gap.text (gap ++ [Filler.blank ' ' rfl]) = Gap.text gap ++ [' '] := by simp [Gap.text]; rfl
  refine ⟨l ++ [(t, gap ++ [Filler.blank ' ' rfl])], ?_, ?_, fun after => ?_⟩
  · rw [← hlexemes, lexemes_append, lexemes_append]
    rfl
  · rw [String.toList_append, ← htext]
    simp [hgap]
  · have hblank : Token.EndsNumber (' ' :: after) := by
      rintro c ⟨⟩
      decide
    have := hfits (' ' :: after) hblank
    rw [Layout.fits_append] at this ⊢
    refine ⟨?_, this.2.1, ?_, trivial⟩
    · simpa [hgap] using this.1
    · simpa [hgap] using this.2.2.1

/-- A token in front of a text that does not carry it on. -/
theorem IsTextOf.cons {t : Token} (ht : t.Whole) (h : IsTextOf ts x)
    (hstop : ∀ c ∈ x.toList.head?, t.extendsWith c = false) :
    IsTextOf (t :: ts) (String.ofList t.text ++ x) := by
  obtain ⟨l, hlexemes, htext, hfits⟩ := h
  refine ⟨(.token t, []) :: l, ?_, ?_, fun after hafter => ⟨ht, fun c hc => ?_, hfits after hafter⟩⟩
  · rw [List.map_cons, ← hlexemes]
    rfl
  · simp [htext, Lexeme.text]
  · rw [Gap.text_nil, List.nil_append, htext] at hc
    cases hx : x.toList with
    | nil =>
      rw [hx] at hc
      exact extendsWith_of_endsNumber t hafter c hc
    | cons d ds =>
      rw [hx] at hc hstop
      exact hstop c hc

/-! ### Names -/

theorem dotted_cons (name part : String) (parts : List String) :
    dotted name (part :: parts) = name ++ "." ++ dotted part parts := by
  apply String.toList_injective
  simp only [toList_dotted, String.toList_append]
  simp [List.intercalate]

/-- A dotted name begins as its first part. -/
theorem isIdentifierStart_dotted {name : String} (h : isAsciiName name) (parts : List String)
    (after : String) :
    ∀ c ∈ (dotted name parts ++ after).toList.head?, Text.isIdentifierStart c = true := by
  unfold isAsciiName at h
  cases hname : name.toList with
  | nil =>
    rw [hname] at h
    cases h
  | cons d ds =>
    rw [hname, Text.isNameOver, Bool.and_eq_true] at h
    have hhead : (dotted name parts ++ after).toList.head? = some d := by
      cases parts with
      | nil => simp [dotted, hname]
      | cons => simp [dotted_cons, hname]
    rw [hhead]
    rintro c ⟨⟩
    exact h.1

/-- A name after a dot. -/
theorem IsTextOf.dot (h : IsTextOf ts x)
    (hstart : ∀ c ∈ x.toList.head?, Text.isIdentifierStart c = true) :
    IsTextOf (.mark .dot :: ts) ("." ++ x) := by
  refine h.cons (Token.whole_mark .dot) fun c hc => beq_eq_false_iff_ne.2 ?_
  rintro rfl
  exact absurd (hstart '.' hc) (by decide)

/-- **A name is a text of its parts.** -/
theorem isTextOf_dotted {name : String} {parts : List String} (h : isAsciiName name)
    (hparts : ∀ part ∈ parts, isAsciiName part) :
    IsTextOf (.word name :: dottedTokens parts) (dotted name parts) := by
  induction parts generalizing name with
  | nil => exact isTextOf_word h
  | cons part parts ih =>
    obtain ⟨hpart, hparts⟩ := List.forall_mem_cons.1 hparts
    have hstart := isIdentifierStart_dotted hpart parts ""
    rw [String.append_empty] at hstart
    have hdot : ∀ c ∈ ("." ++ dotted part parts).toList.head?,
        (Token.word name).extendsWith c = false := by
      rw [String.toList_append]
      rintro c ⟨⟩
      exact (by decide : Text.isIdentifierPart '.' = false)
    have := ((ih hpart hparts).dot hstart).cons (Token.whole_word h) hdot
    rw [dotted_cons, String.append_assoc]
    simpa [Token.text, dottedTokens] using this

/-! ### Between marks -/

theorem closed_comma : IsClosedText [.mark .comma] ", " :=
  (isTextOf_token (Token.whole_mark .comma)).blank (by simp)

/-- A text, a comma, and a closed text. -/
theorem IsTextOf.comma (h : IsTextOf ts x) (h' : IsClosedText us y) :
    IsClosedText (ts ++ .mark .comma :: us) (x ++ ", " ++ y) := by
  have := (h.append_closed closed_comma (by decide) (by rintro c ⟨⟩; decide)).append h'
  rwa [List.append_assoc] at this

/-- Texts with a mark and blanks between them. -/
theorem IsTextOf.marked {m : Mark} (hm : m ≠ .dot) (h : IsTextOf ts x) (hne : ts ≠ [])
    (h' : IsTextOf us y) : IsTextOf (ts ++ .mark m :: us) (x ++ (" " ++ markText m ++ " ") ++ y) := by
  have hmark : IsClosedText [.mark m] (markText m ++ " ") :=
    (isClosedText_mark hm).isTextOf.blank (by simp)
  have := ((h.blank hne).append hmark).append_text h'
  simpa only [String.append_assoc, List.append_assoc, List.singleton_append] using this

/-- A text that a mark closes. -/
theorem IsTextOf.close {m : Mark} (h : IsTextOf ts x) (hm : m ≠ .dot)
    (hends : Token.EndsNumber m.text) : IsClosedText (ts ++ [Token.mark m]) (x ++ markText m) := by
  refine h.append_closed (isClosedText_mark hm) ?_ (by simpa [markText] using hends)
  intro hempty
  have := congrArg String.toList hempty
  cases m <;> simp [markText, Mark.text] at this

end

/-! ## Levels -/

/-- None of the marks comes next. -/
def Avoids (marks : List Mark) (next : Option Token) : Prop := ∀ m ∈ marks, next ≠ some (.mark m)

/-- The marks that carry on a type without brackets. -/
def primaryMarks : List Mark := [.dot, .openAngle]

/-- The marks that carry on an operand. -/
def operandMarks : List Mark := .openBracket :: primaryMarks

/-- The marks that carry on an intersection. -/
def intersectionMarks : List Mark := .ampersand :: operandMarks

/-- The marks that carry on a type. -/
def typeMarks : List Mark := .bar :: intersectionMarks

/-- **A text that is read as the type `t`**, whatever brackets are put after it. -/
def ReadsBracketed (t : TypeNode) (text : String) : Prop :=
  ∃ ts, IsTextOf ts text ∧ ∀ {ys u next}, Avoids primaryMarks (headOr ys next) →
    Derives (.brackets t) ys u next → Derives .operand (ts ++ ys) u next

/-- A text that is read as the operand `t`. -/
def ReadsOperand (t : TypeNode) (text : String) : Prop :=
  ∃ ts, IsTextOf ts text ∧ ∀ {next}, Avoids operandMarks next → Derives .operand ts t next

/-- A text that is read as the intersection `t`. -/
def ReadsIntersection (t : TypeNode) (text : String) : Prop :=
  ∃ ts, IsTextOf ts text ∧ ∀ {next}, Avoids intersectionMarks next → Derives .intersection ts t next

/-- **A text that is read as the type `t`.** -/
def ReadsType (t : TypeNode) (text : String) : Prop :=
  ∃ ts, IsTextOf ts text ∧ ∀ {next}, Avoids typeMarks next → Derives .type ts t next

section

variable {t u : TypeNode} {x y : String} {m : Mark} {ms : List Mark} {next : Option Token}

theorem Avoids.tail (h : Avoids (m :: ms) next) : Avoids ms next :=
  fun n hn => h n (List.mem_cons_of_mem m hn)

theorem Avoids.head (h : Avoids (m :: ms) next) : next ≠ some (.mark m) := h m List.mem_cons_self

theorem avoids_mark (h : m ∉ ms) : Avoids ms (some (.mark m)) := by
  rintro n hn heq
  cases heq
  exact h hn

theorem ReadsBracketed.operand (h : ReadsBracketed t x) : ReadsOperand t x := by
  obtain ⟨ts, htext, hderives⟩ := h
  refine ⟨ts, htext, fun {next} hnext => ?_⟩
  simpa using @hderives [] t next hnext.tail (.bracketsEnd hnext.head)

theorem ReadsOperand.intersection (h : ReadsOperand t x) : ReadsIntersection t x := by
  obtain ⟨ts, htext, hderives⟩ := h
  exact ⟨ts, htext, fun hnext => (hderives hnext.tail).intersection_of_operand hnext.head⟩

theorem ReadsIntersection.type (h : ReadsIntersection t x) : ReadsType t x := by
  obtain ⟨ts, htext, hderives⟩ := h
  exact ⟨ts, htext, fun hnext => (hderives hnext.tail).type_of_intersection hnext.head⟩

/-- **A text that is read as a type** by itself. -/
theorem ReadsType.parseType (h : ReadsType t x) : parseType x.toList = t := by
  obtain ⟨ts, ⟨l, hlexemes, htext, hfits⟩, hderives⟩ := h
  have hend : Avoids typeMarks none := fun m _ => by simp
  have hread := parseType_text (hderives hend) [] hlexemes (hfits [] fun c hc => by cases hc)
  rwa [Gap.text_nil, List.nil_append, htext] at hread

/-! ### Types with brackets -/

/-- A type without brackets. -/
theorem readsBracketed_primary {ts : List Token} (h : IsTextOf ts x)
    (hderives : ∀ {next}, Avoids primaryMarks next → Derives .primary ts t next) :
    ReadsBracketed t x :=
  ⟨ts, h, fun hnext hbrackets => .bracketed (hderives hnext) hbrackets⟩

/-- **Parentheses** make a type of any kind an operand. -/
theorem ReadsType.parenthesized (h : ReadsType t x) : ReadsBracketed t ("(" ++ x ++ ")") := by
  obtain ⟨ts, htext, hderives⟩ := h
  have hclosed := htext.close (m := .closeParen) (by decide) (by rintro c ⟨⟩; decide)
  have hopen := @isClosedText_mark .openParen (by decide)
  have := (hopen.append hclosed).isTextOf
  rw [← String.append_assoc] at this
  exact readsBracketed_primary this fun _ => .parens (hderives (avoids_mark (by decide)))

theorem ReadsBracketed.array (h : ReadsBracketed t x) : ReadsBracketed (.array t) (x ++ "[]") := by
  obtain ⟨ts, htext, hderives⟩ := h
  have hmarks : IsClosedText [.mark .openBracket, .mark .closeBracket] "[]" :=
    (@isClosedText_mark .openBracket (by decide)).append (@isClosedText_mark .closeBracket (by decide))
  refine ⟨_, htext.append hmarks.isTextOf (by rintro c ⟨⟩; decide),
    fun {ys u next} hnext hbrackets => ?_⟩
  rw [List.append_assoc]
  exact hderives (avoids_mark (by decide)) (.arrayOf hbrackets)

theorem ReadsBracketed.indexed (h : ReadsBracketed t x) (h' : ReadsType u y) :
    ReadsBracketed (.indexed t u) (x ++ "[" ++ y ++ "]") := by
  obtain ⟨ts, htext, hderives⟩ := h
  obtain ⟨us, htext', hderives'⟩ := h'
  have hindex := htext'.close (m := .closeBracket) (by decide) (by rintro c ⟨⟩; decide)
  have hopen := htext.close (m := .openBracket) (by decide) (by rintro c ⟨⟩; decide)
  have := (hopen.append hindex).isTextOf
  rw [← String.append_assoc] at this
  refine ⟨_, this, fun {ys v next} hnext hbrackets => ?_⟩
  have hclose : Derives .type us u (some (.mark .closeBracket)) := hderives' (avoids_mark (by decide))
  have hend : Avoids primaryMarks
      (headOr (.mark .openBracket :: (us ++ .mark .closeBracket :: ys)) next) :=
    avoids_mark (by decide)
  simpa using hderives hend (.indexedBy hclose hbrackets)

/-! ### Operators -/

theorem isClosedText_wordBlank {w : String} (h : isAsciiName w) : IsClosedText [.word w] (w ++ " ") :=
  (isTextOf_word h).blank (by simp)

theorem ReadsOperand.keyof (h : ReadsOperand t x) :
    ReadsOperand (.operator .keyof t) ("keyof " ++ x) := by
  obtain ⟨ts, htext, hderives⟩ := h
  have hword : IsClosedText [.word "keyof"] "keyof " := isClosedText_wordBlank (by decide)
  exact ⟨_, hword.append_text htext, fun hnext => .keyofOf (hderives hnext)⟩

theorem ReadsOperand.readonly (h : ReadsOperand t x) :
    ReadsOperand (.operator .readonly t) ("readonly " ++ x) := by
  obtain ⟨ts, htext, hderives⟩ := h
  have hword : IsClosedText [.word "readonly"] "readonly " := isClosedText_wordBlank (by decide)
  exact ⟨_, hword.append_text htext, fun hnext => .readonlyOf (hderives hnext)⟩

theorem readsOperand_unique :
    ReadsOperand (.operator .unique (.reference "symbol" [])) "unique symbol" := by
  have hword : IsClosedText [.word "unique"] "unique " := isClosedText_wordBlank (by decide)
  have hname : IsTextOf [.word "symbol"] "symbol" := isTextOf_word (by decide)
  exact ⟨_, hword.append_text hname, fun _ => .uniqueOf "symbol"⟩

/-! ### Literals -/

theorem readsBracketed_string (text : String) :
    ReadsBracketed (.literal .string text) (Text.typeLiteral text) := by
  have htext := isTextOf_token (Token.whole_typeLiteral text)
  refine readsBracketed_primary (by simpa [Token.text] using htext) fun {next} _ => ?_
  have : Derives .primary [.string (Text.typeLiteral text)] _ next := .string _
  rwa [Text.unquoteString_typeLiteral] at this

theorem readsBracketed_number {text : String}
    (h : (Token.number text).Whole ∨ (Token.negative text).Whole) :
    ReadsBracketed (.literal .number text) text := by
  rcases h with h | h
  · exact readsBracketed_primary (by simpa [Token.text] using isTextOf_token h)
      fun _ => .number text
  · exact readsBracketed_primary (by simpa [Token.text] using isTextOf_token h)
      fun _ => .negative text

theorem readsBracketed_template {text : String} (h : (Token.template text).Whole) :
    ReadsBracketed (.literal .template text) text :=
  readsBracketed_primary (by simpa [Token.text] using isTextOf_token h) fun _ => .template text

/-! ### Names with arguments -/

/-- The text of type arguments in front of anything but a dot, with their angle brackets. -/
def ReadsArguments (ts : List TypeNode) (text : String) : Prop :=
  ∃ xs, IsTextOf xs text ∧ Token.EndsNumber text.toList ∧ xs.head? ≠ some (.mark .dot) ∧
    ∀ {next}, Avoids primaryMarks next → Derives .arguments xs ts next

theorem headOr_ne_dot {xs : List Token} (h : xs.head? ≠ some (.mark .dot))
    (hnext : Avoids primaryMarks next) : headOr xs next ≠ some (.mark .dot) := by
  cases xs with
  | nil => exact hnext.head
  | cons => exact h

theorem readsBracketed_reference {name : String} {ts : List TypeNode}
    (hname : DottedBy (isAsciiName ·) name)
    (hfirst : ∀ first ∈ (nameParts name).head?, isNameAtType first = true)
    (h : ReadsArguments ts x) : ReadsBracketed (.reference name ts) (name ++ x) := by
  obtain ⟨xs, htext, hends, hdot, hderives⟩ := h
  obtain ⟨first, parts, hparts, hdotted⟩ := exists_nameParts name
  rw [DottedBy, hparts, List.forall_mem_cons] at hname
  rw [hparts] at hfirst
  have hwhole := (isTextOf_dotted hname.1 hname.2).append htext hends
  rw [hdotted] at hwhole
  refine readsBracketed_primary hwhole fun hnext => ?_
  rw [← hdotted]
  exact .reference first parts (hfirst first rfl) (headOr_ne_dot hdot hnext) (hderives hnext)

theorem readsBracketed_query {name : String} (hname : DottedBy (isAsciiName ·) name) :
    ReadsBracketed (.query name) ("typeof " ++ name) := by
  obtain ⟨first, parts, hparts, hdotted⟩ := exists_nameParts name
  rw [DottedBy, hparts, List.forall_mem_cons] at hname
  have hword : IsClosedText [.word "typeof"] "typeof " := isClosedText_wordBlank (by decide)
  have hwhole := hword.append_text (isTextOf_dotted hname.1 hname.2)
  rw [hdotted] at hwhole
  refine readsBracketed_primary hwhole fun hnext => ?_
  rw [← hdotted]
  exact .query first parts hnext.head

/-- **A name of a module**, whose text is in quotes. -/
theorem readsBracketed_imported {module name : String} {ts : List TypeNode}
    (hname : DottedBy (isAsciiName ·) name) (h : ReadsArguments ts x) :
    ReadsBracketed (.imported module name ts)
      ("import(" ++ Text.typeLiteral module ++ ")." ++ (name ++ x)) := by
  obtain ⟨xs, htext, hends, hdot, hderives⟩ := h
  obtain ⟨first, parts, hparts, hdotted⟩ := exists_nameParts name
  rw [DottedBy, hparts, List.forall_mem_cons] at hname
  have hname' := (isTextOf_dotted hname.1 hname.2).append htext hends
  rw [hdotted] at hname'
  have hstart := isIdentifierStart_dotted hname.1 parts x
  rw [hdotted] at hstart
  have hword : IsTextOf [.word "import"] "import" := isTextOf_word (by decide)
  have hopen := hword.close (m := .openParen) (by decide) (by rintro c ⟨⟩; decide)
  have hliteral : IsClosedText [.string (Text.typeLiteral module)] (Text.typeLiteral module) := by
    simpa [Token.text] using isClosedText_token (Token.whole_typeLiteral module) rfl
  have hclose := (hopen.append hliteral).append (@isClosedText_mark .closeParen (by decide))
  have hwhole : IsTextOf (.word "import" :: .mark .openParen :: .string (Text.typeLiteral module) ::
      .mark .closeParen :: .mark .dot :: .word first :: (dottedTokens parts ++ xs))
      ("import(" ++ Text.typeLiteral module ++ ")." ++ (name ++ x)) := by
    have := hclose.append_text (hname'.dot hstart)
    rw [show "import(" = "import" ++ markText .openParen from rfl,
      show ")." = markText .closeParen ++ "." from rfl]
    simpa only [String.append_assoc, List.append_assoc, List.cons_append, List.nil_append] using this
  refine readsBracketed_primary hwhole fun {next} hnext => ?_
  have := Derives.imported (Text.typeLiteral module) first parts (headOr_ne_dot hdot hnext)
    (hderives hnext)
  rw [Text.unquoteString_typeLiteral, hdotted] at this
  exact this

/-! ### Unions and intersections -/

/-- **Types with a mark between them**: the first, and the others each after the mark. -/
theorem exists_group {m : Mark} (hm : m ≠ .dot) {marks : List Mark} (hmarks : m ∉ marks)
    {P : List Token → TypeNode → Option Token → Prop}
    {Q : List Token → List TypeNode → Option Token → Prop}
    (hnil : ∀ {next}, next ≠ some (.mark m) → Q [] [] next)
    (hcons : ∀ {xs t ys ts next}, P xs t (headOr ys next) → Q ys ts next →
      Q (.mark m :: (xs ++ ys)) (t :: ts) next)
    (f : TypeNode → String) (t : TypeNode) (ts : List TypeNode)
    (h : ∀ u ∈ t :: ts, ∃ xs, xs ≠ [] ∧ IsTextOf xs (f u) ∧
      ∀ {next}, Avoids marks next → P xs u next) :
    ∃ xs ys, IsTextOf (xs ++ ys)
        (String.intercalate (" " ++ markText m ++ " ") ((t :: ts).map f)) ∧
      ∀ {next}, Avoids (m :: marks) next → P xs t (headOr ys next) ∧ Q ys ts next := by
  induction ts generalizing t with
  | nil =>
    obtain ⟨xs, -, htext, hread⟩ := h t (List.mem_singleton_self t)
    exact ⟨xs, [], by simpa using htext, fun hnext => ⟨hread hnext.tail, hnil hnext.head⟩⟩
  | cons u ts ih =>
    obtain ⟨⟨xs, hne, htext, hread⟩, hrest⟩ := List.forall_mem_cons.1 h
    obtain ⟨ys, zs, htext', hread'⟩ := ih u hrest
    refine ⟨xs, .mark m :: (ys ++ zs), ?_, fun hnext => ⟨hread (avoids_mark hmarks), ?_⟩⟩
    · rw [List.map_cons, List.map_cons, String.intercalate_cons_cons, ← List.map_cons]
      exact htext.marked hm hne htext'
    · exact hcons (hread' hnext).1 (hread' hnext).2

/-- **A union of intersections.** -/
theorem readsType_union (f : TypeNode → String) (t u : TypeNode) (ts : List TypeNode)
    (h : ∀ v ∈ t :: u :: ts, ReadsIntersection v (f v)) :
    ReadsType (.union (t :: u :: ts)) (String.intercalate " | " ((t :: u :: ts).map f)) := by
  have hmembers : ∀ v ∈ t :: u :: ts, ∃ xs, xs ≠ [] ∧ IsTextOf xs (f v) ∧
      ∀ {next}, Avoids intersectionMarks next → Derives .intersection xs v next := by
    intro v hv
    obtain ⟨xs, htext, hderives⟩ := h v hv
    obtain ⟨x, ys, rfl, -⟩ := (hderives (@avoids_mark .comma _ (by decide))).intersection_cons
    exact ⟨_, by simp, htext, hderives⟩
  obtain ⟨xs, ys, htext, hderives⟩ := @exists_group .bar (by decide) intersectionMarks (by decide)
    (fun xs t next => Derives .intersection xs t next)
    (fun ys ts next => Derives .unionTail ys ts next)
    (fun hnext => .unionEnd hnext) (fun h hs => .unionMore h hs) f t (u :: ts) hmembers
  exact ⟨_, htext, fun hnext => .ofUnion (.unionOf false (hderives hnext).1 (hderives hnext).2)⟩

/-- **An intersection of operands.** -/
theorem readsIntersection_intersection (f : TypeNode → String) (t u : TypeNode) (ts : List TypeNode)
    (h : ∀ v ∈ t :: u :: ts, ReadsOperand v (f v)) :
    ReadsIntersection (.intersection (t :: u :: ts))
      (String.intercalate " & " ((t :: u :: ts).map f)) := by
  have hmembers : ∀ v ∈ t :: u :: ts, ∃ xs, xs ≠ [] ∧ IsTextOf xs (f v) ∧
      ∀ {next}, Avoids operandMarks next → Derives .operand xs v next := by
    intro v hv
    obtain ⟨xs, htext, hderives⟩ := h v hv
    obtain ⟨x, ys, rfl, -⟩ := (hderives (@avoids_mark .comma _ (by decide))).operand_cons
    exact ⟨_, by simp, htext, hderives⟩
  obtain ⟨xs, ys, htext, hderives⟩ := @exists_group .ampersand (by decide) operandMarks (by decide)
    (fun xs t next => Derives .operand xs t next)
    (fun ys ts next => Derives .intersectionTail ys ts next)
    (fun hnext => .intersectionEnd hnext) (fun h hs => .intersectionMore h hs) f t (u :: ts) hmembers
  exact ⟨_, htext, fun hnext => .intersectionOf false (hderives hnext).1 (hderives hnext).2⟩

/-! ### Lists in brackets -/

/-- **Items with commas between them** up to a closing mark. -/
theorem exists_commaList {α : Type} {m : Mark} (hm : m ≠ .dot) (hends : Token.EndsNumber m.text)
    {P : List Token → α → Option Token → Prop} {Q : List Token → List α → Option Token → Prop}
    (hlast : ∀ {xs a next}, P xs a (some (.mark m)) → Q (xs ++ [Token.mark m]) [a] next)
    (hmore : ∀ {xs a ys as next}, P xs a (some (.mark .comma)) → Q ys as next →
      Q (xs ++ .mark .comma :: ys) (a :: as) next)
    (f : α → String) (a : α) (as : List α)
    (h : ∀ b ∈ a :: as, ∃ xs, IsTextOf xs (f b) ∧ ∀ n ∈ [.comma, m], P xs b (some (.mark n))) :
    ∃ xs, IsClosedText xs (String.intercalate ", " ((a :: as).map f) ++ markText m) ∧
      ∀ {next}, Q xs (a :: as) next := by
  induction as generalizing a with
  | nil =>
    obtain ⟨xs, htext, hread⟩ := h a (List.mem_singleton_self a)
    exact ⟨_, by simpa using htext.close hm hends, hlast (hread m (by simp))⟩
  | cons b as ih =>
    obtain ⟨⟨xs, htext, hread⟩, hrest⟩ := List.forall_mem_cons.1 h
    obtain ⟨ys, htext', hread'⟩ := ih b hrest
    refine ⟨_, ?_, hmore (hread .comma (by simp)) hread'⟩
    rw [List.map_cons, List.map_cons, String.intercalate_cons_cons, ← List.map_cons,
      String.append_assoc]
    exact htext.comma htext'

theorem readsArguments_nil : ReadsArguments [] "" :=
  ⟨[], isTextOf_nil, nofun, nofun, fun hnext => .noArguments (hnext .openAngle (by decide))⟩

/-- **Type arguments.** -/
theorem readsArguments_cons (f : TypeNode → String) (t : TypeNode) (ts : List TypeNode)
    (h : ∀ u ∈ t :: ts, ReadsType u (f u)) :
    ReadsArguments (t :: ts) ("<" ++ String.intercalate ", " ((t :: ts).map f) ++ ">") := by
  have hitems : ∀ u ∈ t :: ts, ∃ xs, IsTextOf xs (f u) ∧
      ∀ n ∈ [Mark.comma, .closeAngle], Derives .type xs u (some (.mark n)) := by
    intro u hu
    obtain ⟨xs, htext, hderives⟩ := h u hu
    have hmarks : ∀ n ∈ [Mark.comma, .closeAngle], n ∉ typeMarks := by decide
    exact ⟨xs, htext, fun n hn => hderives (avoids_mark (hmarks n hn))⟩
  obtain ⟨xs, htext, hderives⟩ := @exists_commaList _ .closeAngle (by decide)
    (by rintro c ⟨⟩; decide) (fun xs t next => Derives .type xs t next)
    (fun xs ts next => Derives .argumentList xs ts next) (fun h => .lastArgument h)
    (fun h hs => .moreArguments h hs) f t ts hitems
  have hopen := (@isClosedText_mark .openAngle (by decide)).append htext
  refine ⟨_, by simpa [String.append_assoc, markText, Mark.text] using hopen.isTextOf, ?_, by simp,
    fun _ => .someArguments hderives⟩
  rw [String.append_assoc]
  exact endsNumber_append (by decide) (by rintro c ⟨⟩; decide)

end

end FluentBuilders
