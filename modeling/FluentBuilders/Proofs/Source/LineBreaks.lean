import FluentBuilders.Proofs.Source.Items

/-!
# Proofs/Source/LineBreaks — where a line break ends a statement

A type ends in a name, a literal or a closing bracket.  None of these is something that a type has
to go on after: a name of a source is no operator and does not end in one (`isComplete_type`).
-/

namespace FluentBuilders

open Piece Grammar

/-! ## The last token of a type -/

/-- **A token that a type ends with.** -/
def Token.IsFinal : Token → Prop
  | .word name => IsSafeName name
  | .mark m => m = .closeParen ∨ m = .closeBracket ∨ m = .closeBrace ∨ m = .closeAngle
  | _ => True

/-- Tokens that a type can end with. -/
def EndsFinal (ts : List Token) : Prop := ∀ t ∈ ts.getLast?, t.IsFinal

namespace EndsFinal

variable {t : Token} {ts us : List Token}

theorem append (hs : us ≠ []) (h : EndsFinal us) : EndsFinal (ts ++ us) := by
  intro t ht
  rw [List.getLast?_append, List.getLast?_eq_some_getLast hs] at ht
  exact h t (by rwa [List.getLast?_eq_some_getLast hs])

theorem concat (ht : t.IsFinal) : EndsFinal (ts ++ [t]) := by
  intro u hu
  rw [List.getLast?_concat, Option.mem_some_iff] at hu
  exact hu ▸ ht

theorem cons (hs : ts ≠ []) (h : EndsFinal ts) : EndsFinal (t :: ts) := by
  rw [← List.singleton_append]
  exact append hs h

theorem parenthesized : EndsFinal (parenthesized ts) := by
  rw [FluentBuilders.parenthesized, ← List.cons_append]
  exact concat (.inl rfl)

theorem dottedTokens {parts : List String} (h : ∀ part ∈ parts, IsSafeName part) :
    EndsFinal (dottedTokens parts) := by
  induction parts with
  | nil => exact nofun
  | cons part parts ih =>
    rw [List.forall_mem_cons] at h
    cases parts with
    | nil => rintro _ ⟨⟩; exact h.1
    | cons next parts => exact append (by simp) (ih h.2)

theorem nameTokens {name : String} (h : DottedBy IsSafeName name) : EndsFinal (nameTokens name) := by
  obtain ⟨first, parts, hparts, -⟩ := exists_nameParts name
  rw [DottedBy, hparts, List.forall_mem_cons] at h
  rw [nameTokens_of_nameParts hparts]
  cases parts with
  | nil => rintro _ ⟨⟩; exact h.1
  | cons part parts => exact cons (by simp [Grammar.dottedTokens]) (dottedTokens h.2)

theorem tailTokens (m : Mark) (nodes : List TypeNode) : EndsFinal (tailTokens m nodes) := by
  induction nodes with
  | nil => exact nofun
  | cons node nodes ih =>
    rw [FluentBuilders.tailTokens]
    refine cons (by simp [FluentBuilders.parenthesized]) ?_
    cases nodes with
    | nil => simpa [FluentBuilders.tailTokens] using parenthesized
    | cons next nodes => exact append (by simp [FluentBuilders.tailTokens]) ih

theorem argumentTokens (nodes : List TypeNode) : EndsFinal (argumentTokens nodes) := by
  cases nodes with
  | nil => exact nofun
  | cons node nodes =>
    rw [FluentBuilders.argumentTokens, ← List.append_assoc, ← List.cons_append]
    exact concat (.inr (.inr (.inr rfl)))

theorem elementsTokens (elements : List TupleElement) : EndsFinal (elementsTokens elements) := by
  induction elements with
  | nil => rintro _ ⟨⟩; exact .inr (.inl rfl)
  | cons e elements ih =>
    cases elements with
    | nil => exact concat (.inr (.inl rfl))
    | cons next elements =>
      have hne : FluentBuilders.elementsTokens (next :: elements) ≠ [] := by
        cases elements <;> simp [FluentBuilders.elementsTokens]
      rw [FluentBuilders.elementsTokens]
      · exact append (by simp) (cons hne ih)
      · simp

theorem membersTokens (members : List Member) : EndsFinal (membersTokens members) := by
  induction members with
  | nil => rintro _ ⟨⟩; exact .inr (.inr (.inl rfl))
  | cons m members ih =>
    rw [FluentBuilders.membersTokens]
    exact append (by simp) (cons (by cases members <;> simp [FluentBuilders.membersTokens]) ih)

theorem groupTokens (m : Mark) (nodes : List TypeNode) : EndsFinal (groupTokens m nodes) := by
  cases nodes with
  | nil => exact nofun
  | cons node nodes =>
    rw [FluentBuilders.groupTokens]
    cases nodes with
    | nil => simpa [FluentBuilders.tailTokens] using parenthesized
    | cons next nodes => exact append (by simp [FluentBuilders.tailTokens]) (tailTokens _ _)

theorem named {name : String} {arguments : List TypeNode} (h : DottedBy IsSafeName name) :
    EndsFinal (FluentBuilders.nameTokens name ++ FluentBuilders.argumentTokens arguments) := by
  cases arguments with
  | nil => simpa [FluentBuilders.argumentTokens] using nameTokens h
  | cons => exact append (by simp [FluentBuilders.argumentTokens]) (argumentTokens _)

end EndsFinal

theorem nameTokens_ne_nil (name : String) : nameTokens name ≠ [] := by
  obtain ⟨first, parts, hparts, -⟩ := exists_nameParts name
  rw [nameTokens_of_nameParts hparts]
  exact List.cons_ne_nil _ _

/-- A name without dots is one part. -/
theorem nameParts_of_isAsciiName {name : String} (h : isAsciiName name) : nameParts name = [name] := by
  have hdot : ∀ c ∈ name.toList, (c == '.') = false := by
    intro c hc
    rw [beq_eq_false_iff_ne]
    rintro rfl
    exact absurd (isWordText_of_isNameOver h '.' hc) (by decide)
  rw [nameParts, List.splitOn, List.splitOnP_eq_singleton hdot]
  simp

/-- **A type ends in a name, a literal or a closing bracket.** -/
theorem TypeNode.IsSafe.endsFinal {t : TypeNode} (h : t.IsSafe) : EndsFinal t.tokens := by
  obtain ⟨htyped, houter⟩ := h
  cases htyped with
  | reference name arguments => exact EndsFinal.named (houter name rfl)
  | imported module name arguments =>
    have hne : nameTokens name ++ argumentTokens arguments ≠ [] :=
      List.append_ne_nil_of_left_ne_nil (nameTokens_ne_nil name) _
    exact ((((EndsFinal.named (houter name rfl)).cons hne).cons (by simp)).cons (by simp)).cons (by simp)
      |>.cons (by simp)
  | string text => rintro _ ⟨⟩; trivial
  | number text =>
    rintro _ ⟨⟩
    unfold numberToken
    split <;> trivial
  | template text => rintro _ ⟨⟩; trivial
  | union members => exact .groupTokens _ _
  | intersection members => exact .groupTokens _ _
  | array element =>
    have hclose : EndsFinal ([Token.mark .openBracket] ++ [Token.mark .closeBracket]) :=
      .concat (.inr (.inl rfl))
    exact EndsFinal.append (by simp) hclose
  | indexed object index =>
    rw [TypeNode.tokens, ← List.cons_append, ← List.append_assoc]
    exact .concat (.inr (.inl rfl))
  | tuple elements =>
    have hne : elementsTokens elements ≠ [] := by
      rcases elements with _ | ⟨e, _ | ⟨e', elements⟩⟩ <;> simp [elementsTokens]
    exact (EndsFinal.elementsTokens elements).cons hne
  | function parameters returns =>
    rw [TypeNode.tokens, ← List.cons_append]
    exact EndsFinal.append (by simp) (EndsFinal.parenthesized.cons (by simp [parenthesized]))
  | operator op operand hop =>
    have htokens : (TypeNode.operator op operand).tokens = .word op.word :: parenthesized operand.tokens := by
      cases op with
      | unique => exact absurd rfl hop
      | keyof => rw [TypeNode.tokens]; simp
      | readonly => rw [TypeNode.tokens]; simp
    rw [htokens]
    exact EndsFinal.parenthesized.cons (by simp [parenthesized])
  | unique name hname =>
    rintro _ ⟨⟩
    exact houter name rfl name (by rw [nameParts_of_isAsciiName hname.1]; exact List.mem_singleton_self _)
  | query name => exact (EndsFinal.nameTokens (houter name rfl)).cons (nameTokens_ne_nil name)
  | object members =>
    exact (EndsFinal.membersTokens members).cons (by cases members <;> simp [membersTokens])

/-! ## The last character of a lexeme -/

/-- The characters that marks and the star end with. -/
def markEnds : List Char :=
  ['(', ')', '{', '}', '[', ']', '<', '>', ',', ';', ':', '?', '.', '|', '&', '*']

/-- **The last character of a lexeme** belongs to a word or a number, which a letter carries on, is
a quote, or belongs to a mark. -/
theorem Lexeme.getLast?_cases {x : Lexeme} (h : x.Valid) (hx : x ≠ .equals) {c : Char}
    (hc : c ∈ x.text.getLast?) :
    ((Text.isIdentifierPart c = true ∨ Text.isDecimalDigit c = true) ∧
        ∀ d, Text.isIdentifierStart d = true → x.extendsWith d = true) ∨
      isQuote c = true ∨ c ∈ markEnds := by
  have hnumber {text : String} (hnumeric : Token.IsNumeric text.toList)
      (hc : c ∈ text.toList.getLast?) :
      Text.isIdentifierPart c = true ∨ Text.isDecimalDigit c = true := by
    have hdigit := hnumeric.last c hc
    rw [Token.isNumberDigit, Bool.or_eq_true] at hdigit
    exact hdigit.imp_left Token.isIdentifierPart_of_isHexDigit
  cases x with
  | token t =>
    cases Token.shape_of_read? h with
    | word name =>
      have hname : Text.isNameOver Text.isIdentifierPart name.toList := Token.isAsciiName_of_whole h
      exact .inl ⟨.inl (isWordText_of_isNameOver hname c (List.mem_of_getLast? hc)),
        fun d hd => Text.isIdentifierPart_of_isIdentifierStart hd⟩
    | number text hnumeric =>
      refine .inl ⟨hnumber hnumeric hc, fun d hd => ?_⟩
      simp [extendsWith, Token.extendsWith, Text.isIdentifierPart_of_isIdentifierStart hd]
    | negative text hnumeric =>
      refine .inl ⟨hnumber hnumeric hc, fun d hd => ?_⟩
      simp [extendsWith, Token.extendsWith, Text.isIdentifierPart_of_isIdentifierStart hd]
    | string quote body hquote hread =>
      have hlast : some quote = some c := by
        simpa [text, Token.text, List.getLast?_cons, Token.getLast?_quotedTail? hread] using hc
      cases hlast
      exact .inr (.inl (by rcases hquote with rfl | rfl <;> rfl))
    | template body hread =>
      have hlast : some '`' = some c := by
        simpa [text, Token.text, List.getLast?_cons, Token.getLast?_quotedTail? hread] using hc
      cases hlast
      exact .inr (.inl rfl)
    | mark m =>
      refine .inr (.inr ?_)
      cases m <;> (cases hc; decide)
  | keyword word =>
    refine .inl ⟨.inl (isWordText_of_isNameOver h c (List.mem_of_getLast? hc)), fun d hd => ?_⟩
    have hpart := Text.isNamePart_of_isIdentifierPart (Text.isIdentifierPart_of_isIdentifierStart hd)
    have hlayout : Token.isLayout d = false := by
      by_contra hlayout
      rw [Bool.not_eq_false] at hlayout
      rw [Text.isNamePart_eq_false_of_isLayout hlayout] at hpart
      cases hpart
    have hslash : d ≠ '/' := by rintro rfl; cases hd
    simp [extendsWith, hlayout, hslash]
  | equals => exact absurd rfl hx
  | star => cases hc; exact .inr (.inr (by decide))

section

variable {l : Layout} {after : List Char} {gap : Gap}

/-- What stands before a lexeme: a blank, or the last character of a lexeme that it does not carry
on. -/
theorem Layout.Plain.before_cases {x : Lexeme} {g : Gap} (h : Layout.Plain (l ++ [(x, g)]) after)
    (hgap : gap.IsBare) {c : Char} (hc : c ∈ (gap.text ++ l.text).getLast?) :
    Token.isLayout c = true ∨ ∃ y ∈ l.lexemes, y.Valid ∧ c ∈ y.text.getLast? ∧
      ∀ d ∈ x.text.head?, y.extendsWith d = false := by
  rcases List.eq_nil_or_concat l with rfl | ⟨l, p, rfl⟩
  · rw [Layout.text_nil, List.append_nil] at hc
    exact .inl (hgap c (List.mem_of_getLast? hc))
  obtain ⟨y, gy⟩ := p
  rw [List.concat_eq_append, List.append_assoc] at h
  obtain ⟨-, hplain⟩ := Layout.plain_append.1 h
  obtain ⟨hy, hgy, hnext, hx⟩ := Layout.plain_cons.1 hplain
  change Layout.Plain [(x, g)] after at hx
  have htext : (gap.text ++ Layout.text (l.concat (y, gy))).getLast? =
      (gy.text.getLast?).or y.text.getLast? := by
    rw [List.concat_eq_append, Layout.text_append, Layout.text_cons, Layout.text_nil,
      List.append_nil, List.getLast?_append, List.getLast?_append, List.getLast?_append,
      List.getLast?_eq_some_getLast hy.text_ne_nil]
    cases gy.text.getLast? <;> rfl
  rw [htext] at hc
  cases hlast : gy.text.getLast? with
  | some d =>
    rw [hlast] at hc
    cases hc
    exact .inl (hgy c (List.mem_of_getLast? hlast))
  | none =>
    rw [hlast, Option.none_or] at hc
    rw [List.getLast?_eq_none_iff] at hlast
    refine .inr ⟨y, by simp [Layout.lexemes], hy, hc, fun d hd => hnext d ?_⟩
    rw [hlast, List.nil_append]
    change d ∈ (Layout.text [(x, g)] ++ after).head?
    rwa [hx.head?_text]

/-- No word character stands right before a word. -/
theorem Layout.Plain.isWord_before_word {name : String} {g : Gap}
    (h : Layout.Plain (l ++ [(Lexeme.token (.word name), g)]) after) (hequals : .equals ∉ l.lexemes)
    (hgap : gap.IsBare) : ∀ c ∈ (gap.text ++ l.text).getLast?, Text.isWord c = false := by
  intro c hc
  rcases h.before_cases hgap hc with hlayout | ⟨y, hy, hvalid, hlast, hnext⟩
  · simp only [Token.isLayout, Bool.or_eq_true, beq_iff_eq] at hlayout
    rcases hlayout with (((rfl | rfl) | rfl) | rfl) | rfl <;> rfl
  · rcases Lexeme.getLast?_cases hvalid (fun heq => hequals (heq ▸ hy)) hlast with
      ⟨-, hextends⟩ | hquote | hmark
    · -- a word or a number would go on with the word's first character
      have hword := Token.isAsciiName_of_whole (Layout.plain_cons.1 (Layout.plain_append.1 h).2).1
      rw [isAsciiName] at hword
      cases hname : name.toList with
      | nil => rw [hname] at hword; cases hword
      | cons d ds =>
        rw [hname, Text.isNameOver, Bool.and_eq_true] at hword
        have hfalse := hnext d (by rw [show (Lexeme.word name).text = d :: ds from hname]; rfl)
        rw [hextends d hword.1] at hfalse
        cases hfalse
    · simp only [isQuote, Bool.or_eq_true, beq_iff_eq] at hquote
      rcases hquote with (rfl | rfl) | rfl <;> rfl
    · clear hlast hc
      revert c
      decide

/-- No letter stands right before a word. -/
theorem Layout.Plain.isLatin_before_word {name : String} {g : Gap}
    (h : Layout.Plain (l ++ [(Lexeme.token (.word name), g)]) after) (hequals : .equals ∉ l.lexemes)
    (hgap : gap.IsBare) : ∀ c ∈ (gap.text ++ l.text).getLast?, Text.isLatin c = false := by
  intro c hc
  have hword := h.isWord_before_word hequals hgap c hc
  by_contra hlatin
  rw [Bool.not_eq_false] at hlatin
  have hpart : Text.isNamePart c = true := Text.isNamePart_of_isIdentifierPart
    (Text.isIdentifierPart_of_isIdentifierStart (by simp [Text.isIdentifierStart, hlatin]))
  rw [Text.isNamePart, hword, Bool.false_or, beq_iff_eq] at hpart
  subst hpart
  cases hlatin

/-- No equals sign of its own stands right before a lexeme. -/
theorem Layout.Plain.before_ne_equals {x : Lexeme} {g : Gap} (h : Layout.Plain (l ++ [(x, g)]) after)
    (hequals : .equals ∉ l.lexemes) (hgap : gap.IsBare) : '=' ∉ (gap.text ++ l.text).getLast? := by
  intro hc
  rcases h.before_cases hgap hc with hlayout | ⟨y, hy, hvalid, hlast, hnext⟩
  · cases hlayout
  · rcases Lexeme.getLast?_cases hvalid (fun heq => hequals (heq ▸ hy)) hlast with
      ⟨hpart | hdigit, -⟩ | hquote | hmark
    · cases hpart
    · revert hdigit; decide
    · cases hquote
    · revert hmark; decide

end

/-! ## Complete texts -/

theorem isLatin_of_mem_trailingOperators {w : String} (h : w ∈ trailingOperators) :
    ∀ c ∈ w.toList, Text.isLatin c = true := by
  revert w
  decide

/-- A text ends in an operator as a suffix that no word character stands before. -/
theorem exists_of_endsInWord {w : String} {text : List Char} (h : endsInWord w text = true) :
    ∃ front, text = front ++ w.toList ∧ ∀ c ∈ front.getLast?, Text.isWord c = false := by
  rw [endsInWord, Bool.and_eq_true] at h
  obtain ⟨front, hfront⟩ := List.isSuffixOf_iff_suffix.1 h.1
  have htake : text.take (text.length - w.length) = front := by
    rw [← hfront, List.length_append, String.length_toList, Nat.add_sub_cancel, List.take_left]
  have hlast := h.2
  rw [htake] at hlast
  refine ⟨front, hfront.symm, fun c hc => ?_⟩
  rw [Option.mem_def.1 hc] at hlast
  simpa using hlast

/-- A name that a source is written with ends in no operator. -/
theorem IsSafeName.endsInWord {name : String} (h : IsSafeName name) {before : List Char}
    (hbefore : ∀ c ∈ before.getLast?, Text.isLatin c = false) {w : String}
    (hw : w ∈ trailingOperators) : endsInWord w (before ++ name.toList) = false := by
  by_contra hend
  rw [Bool.not_eq_false] at hend
  obtain ⟨front, htext, hfront⟩ := exists_of_endsInWord hend
  have hreserved : w ∈ reservedWords :=
    (by decide : ∀ w ∈ trailingOperators, w ∈ reservedWords) w hw
  have hne : ¬ w.toList = name.toList := fun heq => h.ne w hreserved (String.toList_injective heq.symm)
  rcases List.append_eq_append_iff.1 htext with ⟨as, rfl, hname⟩ | ⟨bs, rfl, hword⟩
  · -- the operator is the end of the name, so a dollar sign stands before it
    rcases List.eq_nil_or_concat as with rfl | ⟨as, c, rfl⟩
    · exact hne hname.symm
    have hc : Text.isWord c = false := hfront c (by simp)
    have hpart : Text.isIdentifierPart c = true :=
      isWordText_of_isNameOver h.ascii c (by rw [hname]; simp)
    have hdollar : c = '$' := by
      simpa [Text.isNamePart, hc] using Text.isNamePart_of_isIdentifierPart hpart
    refine h.no_suffix w hreserved ⟨as, ?_⟩
    rw [hname, hdollar, List.concat_eq_append, List.append_assoc, List.singleton_append]
  · -- the operator begins before the name, so a letter stands before it
    rcases List.eq_nil_or_concat bs with rfl | ⟨bs, c, rfl⟩
    · exact hne hword
    have hc : Text.isLatin c = false := hbefore c (by simp)
    rw [isLatin_of_mem_trailingOperators hw c (by rw [hword]; simp)] at hc
    cases hc

/-- A number ends in no operator. -/
theorem endsInWord_number {t : Token} (hvalid : t.Whole) (hword : ∀ name, t ≠ .word name)
    (hnumeric : Token.IsNumeric t.text) {before : List Char} {w : String}
    (hw : w ∈ trailingOperators) : endsInWord w (before ++ t.text) = false := by
  by_contra hend
  rw [Bool.not_eq_false] at hend
  obtain ⟨front, htext, -⟩ := exists_of_endsInWord hend
  rcases List.append_eq_append_iff.1 htext with ⟨as, rfl, hnumber⟩ | ⟨bs, rfl, hoperator⟩
  · have hletter : ∀ w ∈ trailingOperators, ∃ c ∈ w.toList,
        ¬ (Token.isNumberDigit c = true ∨ c ∈ Token.numberSigns) := by decide
    obtain ⟨c, hc, hno⟩ := hletter w hw
    exact hno (hnumeric.parts c (by rw [hnumber]; exact List.mem_append_right _ hc))
  · obtain ⟨c, cs, hcs⟩ := List.exists_cons_of_ne_nil (Token.text_ne_nil_of_read? hvalid)
    have hstart := Token.isIdentifierStart_head? hvalid hword c (by rw [hcs]; rfl)
    have hlatin := isLatin_of_mem_trailingOperators hw c (by rw [hoperator, hcs]; simp)
    rw [Text.isIdentifierStart, hlatin] at hstart
    cases hstart

/-- A text that ends in no letter ends in no operator. -/
theorem endsInWord_of_getLast? {text : List Char} {c : Char} (hc : text.getLast? = some c)
    (hlatin : Text.isLatin c = false) {w : String} (hw : w ∈ trailingOperators) :
    endsInWord w text = false := by
  by_contra hend
  rw [Bool.not_eq_false] at hend
  obtain ⟨front, rfl, -⟩ := exists_of_endsInWord hend
  have hne : w.toList ≠ [] := (by decide : ∀ w ∈ trailingOperators, w.toList ≠ []) w hw
  rw [List.getLast?_append, List.getLast?_eq_some_getLast hne] at hc
  cases hc
  rw [isLatin_of_mem_trailingOperators hw _ (List.getLast_mem hne)] at hlatin
  cases hlatin

/-- The last character of a token that a type ends with, in front of which none is of an operator. -/
theorem Token.IsFinal.exists_last {t : Token} (ht : t.IsFinal) (hvalid : t.Whole)
    {before : List Char}
    (hword : ∀ name, t = .word name → ∀ c ∈ before.getLast?, Text.isLatin c = false) :
    ∃ c ∈ t.text.getLast?, c ∉ continuesAfter ∧ (c = '>' → t = .mark .closeAngle) ∧
      ∀ w ∈ trailingOperators, endsInWord w (before ++ t.text) = false := by
  have hne := Token.text_ne_nil_of_read? hvalid
  have hlast := List.getLast?_eq_some_getLast hne
  -- characters of words and numbers, quotes and closing brackets do not carry a type on
  have hatom {c : Char} (hc : Text.isIdentifierPart c = true ∨ Text.isDecimalDigit c = true) :
      c ∉ continuesAfter ∧ c ≠ '>' := by
    have hstop : ∀ d ∈ '>' :: continuesAfter,
        ¬ (Text.isIdentifierPart d = true ∨ Text.isDecimalDigit d = true) := by decide
    exact ⟨fun hmem => hstop c (List.mem_cons_of_mem _ hmem) hc,
      fun heq => hstop c (heq ▸ List.mem_cons_self) hc⟩
  have hnumber {text : String} (hnumeric : Token.IsNumeric text.toList) {c : Char}
      (hc : c ∈ text.toList.getLast?) : c ∉ continuesAfter ∧ c ≠ '>' := by
    have hdigit := hnumeric.last c hc
    rw [Token.isNumberDigit, Bool.or_eq_true] at hdigit
    exact hatom (hdigit.imp_left Token.isIdentifierPart_of_isHexDigit)
  have hother {c : Char} (hc : c ∈ t.text.getLast?) (hlatin : Text.isLatin c = false) :
      ∀ w ∈ trailingOperators, endsInWord w (before ++ t.text) = false := fun w hw =>
    endsInWord_of_getLast? (by rw [List.getLast?_append, Option.mem_def.1 hc]; rfl) hlatin hw
  cases Token.shape_of_read? hvalid with
  | word name =>
    have hname : Text.isNameOver Text.isIdentifierPart name.toList := Token.isAsciiName_of_whole hvalid
    obtain ⟨hstop, hangle⟩ := hatom (.inl (isWordText_of_isNameOver hname _ (List.getLast_mem hne)))
    exact ⟨_, hlast, hstop, fun heq => absurd heq hangle, fun w hw =>
      IsSafeName.endsInWord ht (hword name rfl) hw⟩
  | number text hnumeric =>
    obtain ⟨hstop, hangle⟩ := hnumber hnumeric hlast
    exact ⟨_, hlast, hstop, fun heq => absurd heq hangle, fun w hw =>
      endsInWord_number hvalid (by simp) hnumeric hw⟩
  | negative text hnumeric =>
    obtain ⟨hstop, hangle⟩ := hnumber hnumeric hlast
    exact ⟨_, hlast, hstop, fun heq => absurd heq hangle, fun w hw =>
      endsInWord_number hvalid (by simp) hnumeric hw⟩
  | string quote body hquote hread =>
    have hmem : quote ∈ (Token.string (String.ofList (quote :: body))).text.getLast? := by
      simp [Token.text, List.getLast?_cons, Token.getLast?_quotedTail? hread]
    have hquotes : ∀ q : Char, q = '"' ∨ q = '\'' →
        q ∉ continuesAfter ∧ q ≠ '>' ∧ Text.isLatin q = false := by
      rintro q (rfl | rfl) <;> decide
    obtain ⟨hstop, hangle, hlatin⟩ := hquotes quote hquote
    exact ⟨quote, hmem, hstop, fun heq => absurd heq hangle, hother hmem hlatin⟩
  | template body hread =>
    have hmem : '`' ∈ (Token.template (String.ofList ('`' :: body))).text.getLast? := by
      simp [Token.text, List.getLast?_cons, Token.getLast?_quotedTail? hread]
    exact ⟨'`', hmem, by decide, fun heq => absurd heq (by decide), hother hmem rfl⟩
  | mark m =>
    rcases ht with rfl | rfl | rfl | rfl
    · exact ⟨')', rfl, by decide, by decide, hother rfl rfl⟩
    · exact ⟨']', rfl, by decide, by decide, hother rfl rfl⟩
    · exact ⟨'\x7d', rfl, by decide, by decide, hother rfl rfl⟩
    · exact ⟨'>', rfl, by decide, fun _ => rfl, hother rfl rfl⟩

/-- **A text is complete** when a token that a type ends with stands at its end. -/
theorem isComplete_of_final {t : Token} (hvalid : t.Whole) (ht : t.IsFinal)
    {before blanks : List Char} (hblanks : Text.AllBlank blanks)
    (hword : ∀ name, t = .word name → ∀ c ∈ before.getLast?, Text.isLatin c = false)
    (hequals : '=' ∉ before.getLast?) : isComplete (before ++ (t.text ++ blanks)) = true := by
  obtain ⟨c, hc, hstop, hangle, hoperators⟩ := ht.exists_last hvalid hword
  have hlast : (before ++ t.text).getLast? = some c := by
    rw [List.getLast?_append, Option.mem_def.1 hc]
    rfl
  have htrim : Text.trimEnd (before ++ (t.text ++ blanks)) = before ++ t.text := by
    rw [← List.append_assoc]
    refine Text.trimEnd_append_gap (fun d hd => ?_) hblanks
    rw [hlast] at hd
    cases hd
    exact (Token.shape_of_read? hvalid).isBlank_getLast? c hc
  have harrow : ['=', '>'].isSuffixOf (before ++ t.text) = false := by
    by_contra hsuffix
    rw [Bool.not_eq_false] at hsuffix
    obtain ⟨front, hfront⟩ := List.isSuffixOf_iff_suffix.1 hsuffix
    have hgreater : c = '>' := by
      rw [← hfront, List.getLast?_append] at hlast
      cases hlast
      rfl
    rw [hangle hgreater] at hfront
    change front ++ (['='] ++ ['>']) = before ++ ['>'] at hfront
    rw [← List.append_assoc] at hfront
    rw [← List.append_inj_left' hfront rfl] at hequals
    exact hequals (by simp)
  have hany : trailingOperators.any (endsInWord · (before ++ t.text)) = false :=
    List.any_eq_false.2 fun w hw => by rw [hoperators w hw]; exact Bool.false_ne_true
  have hcontains : continuesAfter.contains c = false := by simpa using hstop
  unfold isComplete
  simp only [htrim, hlast, hcontains, harrow, hany, Bool.or_self, Bool.not_false]

/-- **The text of a type is complete**, with blanks after it. -/
theorem isComplete_type {t : TypeNode} (ht : t.IsSafe) {l : Layout} {x : Lexeme} {g : Gap}
    {after : List Char} (hl : Layout.lexemes (l ++ [(x, g)]) = lexemesOf t.tokens)
    (hplain : Layout.Plain (l ++ [(x, g)]) after) {gap : Gap} (hgap : gap.IsBare)
    {blanks : List Char} (hblanks : Text.AllBlank blanks) :
    isComplete (gap.text ++ (l.text ++ (x.text ++ blanks))) = true := by
  have hequals : Lexeme.equals ∉ l.lexemes := by
    have := equals_notMem_lexemesOf t.tokens
    rw [← hl, Layout.lexemes_append, List.mem_append, not_or] at this
    exact this.1
  obtain ⟨y, rfl, hy⟩ : ∃ y, x = .token y ∧ y ∈ t.tokens.getLast? := by
    have hlast := congrArg List.getLast? hl
    rw [Layout.lexemes_append, lexemesOf, List.getLast?_map] at hlast
    have hx : (l.lexemes ++ Layout.lexemes [(x, g)]).getLast? = some x := by simp [Layout.lexemes]
    rw [hx] at hlast
    obtain ⟨y, hy, heq⟩ := Option.map_eq_some_iff.1 hlast.symm
    exact ⟨y, heq.symm, hy⟩
  rw [← List.append_assoc]
  refine isComplete_of_final (Layout.plain_cons.1 (Layout.plain_append.1 hplain).2).1
    (ht.endsFinal y hy) hblanks ?_ (hplain.before_ne_equals hequals hgap)
  rintro name rfl
  exact hplain.isLatin_before_word hequals hgap

end FluentBuilders
