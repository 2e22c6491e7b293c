import FluentBuilders.Proofs.Source.LineBreaks
import FluentBuilders.Proofs.Source.Parameters

/-!
# Proofs/Source/Declarations — aliases, interfaces and enums are read back

What follows the name of a declaration is read as its type parameters, heritage and body, whatever
types they hold (`readAlias_text`, `readInterface_text`, `readEnum_text`); blanks and semicolons are
all that is left of it (`EndsAt`).  An alias without a semicolon ends at the line break after its
body, so it has no other line break outside brackets.
-/

namespace FluentBuilders

open Piece Grammar

/-! ## Gaps outside brackets -/

section

variable {angles : Bool} {ok : Char → Prop} {d e : Nat} {l l' : Layout}

theorem Layout.GapsOutside.left (h : (l ++ l').GapsOutside angles ok d) :
    l.GapsOutside angles ok d := by
  induction l generalizing d with
  | nil => trivial
  | cons p l ih => exact ⟨h.1, ih h.2⟩

theorem Layout.GapsOutside.right {P : Lexeme → Prop} (h : (l ++ l').GapsOutside angles ok d)
    (hnest : Nest angles P d l.lexemes e) : l'.GapsOutside angles ok e := by
  induction l generalizing d with
  | nil => cases hnest; exact h
  | cons p l ih => exact ih h.2 hnest.cons_inv.1

/-- Another class for the characters of a layout without comments. -/
theorem Layout.GapsOutside.mono {ok' : Char → Prop} (h : l.GapsOutside angles ok d)
    (hbare : l.IsBare) (himp : ∀ c, Token.isLayout c = true → ok c → ok' c) :
    l.GapsOutside angles ok' d := by
  induction l generalizing d with
  | nil => trivial
  | cons p l ih =>
    rw [Layout.IsBare, List.forall_mem_cons] at hbare
    exact ⟨fun hd c hc => himp c (hbare.1 c hc) (h.1 hd c hc), ih h.2 hbare.2⟩

/-- A lexeme without a gap after it changes nothing. -/
theorem Layout.GapsOutside.concat (h : l.GapsOutside angles ok d) (x : Lexeme) :
    Layout.GapsOutside angles ok d (l ++ [(x, [])]) := by
  induction l generalizing d with
  | nil => exact ⟨fun _ => by simp, trivial⟩
  | cons p l ih => exact ⟨h.1, ih h.2⟩

/-- The gap after lexemes that lead outside all brackets. -/
theorem Layout.GapsOutside.last {P : Lexeme → Prop} {x : Lexeme} {gap : Gap}
    (h : Layout.GapsOutside angles ok d (l ++ [(x, gap)]))
    (hnest : Nest angles P d (Layout.lexemes (l ++ [(x, gap)])) 0) : ∀ c ∈ gap.text, ok c := by
  induction l generalizing d with
  | nil =>
    have hdepth := hnest.cons_inv.1
    refine h.1 ?_
    generalize x.depthAfter angles d = e at hdepth
    cases hdepth
    rfl
  | cons p l ih => exact ih h.2 hnest.cons_inv.1

end

/-- **Line breaks in brackets and at the end only.** -/
def Layout.Unbroken (l : Layout) : Prop := Layout.GapsOutside true (· ≠ '\n') 0 l.dropLast

theorem Layout.unbroken_concat {l : Layout} {p : Lexeme × Gap} :
    Layout.Unbroken (l ++ [p]) ↔ l.GapsOutside true (· ≠ '\n') 0 := by
  rw [Layout.Unbroken, List.dropLast_concat]

/-- **A line break at the end**, after the last lexeme. -/
def Layout.EndsLine (l : Layout) : Prop := ∀ p ∈ l.getLast?, '\n' ∈ p.2.text

/-! ## What is left of a statement -/

/-- Characters that nothing begins with: blanks between lexemes, and semicolons. -/
def IsIdle (c : Char) : Prop := Token.isLayout c = true ∨ c = ';'

/-- **The rest after a statement**: idle characters that the layout ends with, in front of the text
after it. -/
def EndsAt (l : Layout) (after rest : List Char) : Prop :=
  ∃ idle, idle <:+ l.text ∧ (∀ c ∈ idle, IsIdle c) ∧ rest = idle ++ after

theorem Gap.IsBare.isIdle {gap : Gap} (h : gap.IsBare) : ∀ c ∈ gap.text, IsIdle c :=
  fun c hc => .inl (h c hc)

theorem endsAt_gap {l : Layout} {x : Lexeme} {gap : Gap} (h : gap.IsBare) (after : List Char) :
    EndsAt (l ++ [(x, gap)]) after (gap.text ++ after) := by
  refine ⟨gap.text, ?_, h.isIdle, rfl⟩
  rw [Layout.text_append, Layout.text_cons, Layout.text_nil, List.append_nil]
  exact (List.suffix_append _ _).trans (List.suffix_append _ _)

theorem EndsAt.append {l : Layout} {after rest : List Char} (h : EndsAt l after rest) (l' : Layout) :
    EndsAt (l' ++ l) after rest := by
  obtain ⟨idle, hsuffix, hidle, hrest⟩ := h
  refine ⟨idle, hsuffix.trans ?_, hidle, hrest⟩
  rw [Layout.text_append]
  exact List.suffix_append _ _

/-- What stands behind a statement begins with a letter, the first of the next one. -/
def BeginsStatement (after : List Char) : Prop := ∀ c ∈ after.head?, Text.isLatin c = true

theorem BeginsStatement.isBlank {after : List Char} (h : BeginsStatement after) :
    ∀ c ∈ after.head?, Text.isBlank c = false := fun c hc =>
  Text.isBlank_eq_false_of_isIdentifierPart (Text.isIdentifierPart_of_isIdentifierStart
    (by rw [Text.isIdentifierStart, h c hc]; rfl))

/-! ## Aliases -/

/-- **What an alias stops at**: the end of the text, a semicolon, or a line break in front of a
statement. -/
inductive StopsAlias : List Char → Prop
  | atEnd : StopsAlias []
  | semicolon (rest : List Char) : StopsAlias (';' :: rest)
  | lineBreak (gap : Gap) (hgap : gap.IsBare) (after : List Char) (h : BeginsStatement after) :
      StopsAlias ('\n' :: (gap.text ++ after))

/-- No statement carries on a type from the line before. -/
theorem continuesBefore_eq_false {after : List Char} (h : BeginsStatement after) :
    continuesBefore.any (fun w => w.toList.isPrefixOf after) = false := by
  have hfirst : ∀ w ∈ continuesBefore, ∃ c ∈ w.toList.head?, Text.isLatin c = false := by decide
  refine List.any_eq_false.2 fun w hw hprefix => ?_
  obtain ⟨c, hc, hlatin⟩ := hfirst w hw
  obtain ⟨rest, rfl⟩ := List.isPrefixOf_iff_prefix.1 hprefix
  have := h c (by rw [List.head?_append, Option.mem_def.1 hc]; rfl)
  rw [hlatin] at this
  cases this

/-- **An alias ends** where its text is complete and something stops it. -/
theorem aliasBodyFrom_stop {body stop : List Char} (hbody : isComplete body = true)
    (hstop : StopsAlias stop) :
    aliasBodyFrom 0 false body.reverse (pieces stop) = (body, pieces stop) := by
  cases hstop with
  | atEnd => simp [pieces, aliasBodyFrom]
  | semicolon rest =>
    rw [pieces, if_neg (by decide), aliasBodyFrom]
    simp [Bracket.ofPiece, Bracket.ofChar]
  | lineBreak gap hgap after hafter =>
    have hends : breakEnds body (gap.text ++ after) = true := by
      rw [breakEnds, hbody, Text.trimStart_append hgap.allBlank,
        Text.trimStart_of_head hafter.isBlank, continuesBefore_eq_false hafter]
      rfl
    rw [pieces, if_neg (by decide), aliasBodyFrom]
    simp [Bracket.ofPiece, Bracket.ofChar, textOf_pieces, hends]

/-- The blanks that a scanner for an alias passes over outside brackets. -/
theorem isQuiet_unbroken {c : Char} (hlayout : Token.isLayout c = true) (hbreak : c ≠ '\n') :
    (c != ';' && c != '\n') = true := by
  have hsemicolon : c ≠ ';' := by rintro rfl; cases hlayout
  simp [hsemicolon, hbreak]

/-- **The body of an alias** goes up to what stops it. -/
theorem splitAliasBody_text {t : TypeNode} (ht : t.IsSafe) {l : Layout} {x : Lexeme}
    {gap g : Gap} {after : List Char} (hl : Layout.lexemes (l ++ [(x, g)]) = lexemesOf t.tokens)
    (hplain : Layout.Plain ((.equals, gap) :: (l ++ [(x, g)])) after)
    (hgap : ∀ c ∈ gap.text, c ≠ '\n') (hgaps : l.GapsOutside true (· ≠ '\n') 0) {blanks : Gap}
    (hblanks : blanks.IsBare) (hunbroken : ∀ c ∈ blanks.text, c ≠ '\n') {stop : List Char}
    (hstop : StopsAlias stop) :
    splitAliasBody (pieces (gap.text ++ (Layout.text (l ++ [(x, [])]) ++ (blanks.text ++ stop)))) =
      (gap.text ++ (Layout.text (l ++ [(x, [])]) ++ blanks.text), pieces stop) := by
  obtain ⟨-, hbare, -, hplainl⟩ := Layout.plain_cons.1 hplain
  have hdrop := hplainl.drop_gap
  have hlexemes : Layout.lexemes (l ++ [(x, [])]) = lexemesOf t.tokens := by
    simpa [Layout.lexemes] using hl
  have hbody : isComplete (gap.text ++ (Layout.text (l ++ [(x, [])]) ++ blanks.text)) = true := by
    simpa using isComplete_type ht hl hplainl hbare hblanks.allBlank
  -- the body and the blanks around it are a walk, and no arrow begins at the equals sign
  have hquiet : PassesTypes fun c => c != ';' && c != '\n' := fun c _ hsemicolon _ hbreak => by
    simp [hsemicolon, hbreak]
  have hquietgaps := (hgaps.mono (Layout.plain_append.1 hplainl).1.bare
    fun _ => isQuiet_unbroken).concat x
  have hwalk := walk_plain (fun c hc => isPlain_of_isLayout (hbare c hc))
    (fun _ c hc => isQuiet_unbroken (hbare c hc) (hgap c hc))
    (walk_type hquiet ht hlexemes hdrop hquietgaps)
  have hend : Walk true (fun c => c != ';' && c != '\n') 0 false
      (blanks.text.map .char ++ []) 0 false := walk_plain
    (fun c hc => isPlain_of_isLayout (hblanks c hc))
    (fun _ c hc => isQuiet_unbroken (hblanks c hc) (hunbroken c hc)) (.nil 0 false)
  have hfront : Layout.Plain ((.equals, gap) :: (l ++ [(x, [])])) [] :=
    Layout.Plain.drop_gap (l := (.equals, gap) :: l) hplain
  obtain ⟨p, ps, hps, hp⟩ := exists_pieces_after_equals hfront (by simp)
  rw [hps] at hwalk
  have hpieces : pieces (gap.text ++ (Layout.text (l ++ [(x, [])]) ++ (blanks.text ++ stop))) =
      ((p :: ps) ++ (blanks.text.map .char ++ [])) ++ pieces stop := by
    rw [pieces_gap hbare, pieces_text hdrop.valid hdrop.bare, pieces_gap hblanks, ← hps]
    simp
  have htext : textOf ((p :: ps) ++ (blanks.text.map .char ++ [])) =
      gap.text ++ (Layout.text (l ++ [(x, [])]) ++ blanks.text) := by
    rw [textOf_append, textOf_gap, ← hps, textOf_gap, Layout.textOf_pieces]
    simp [textOf]
  rw [splitAliasBody, hpieces, aliasBodyFrom_walk ((hwalk.after_equals hp).append hend)
    (fun c hc => by simpa using hc), List.append_nil, htext, aliasBodyFrom_stop hbody hstop]

/-- Blanks are the text of a gap. -/
theorem exists_gap {cs : List Char} (h : ∀ c ∈ cs, Token.isLayout c = true) :
    ∃ gap : Gap, gap.IsBare ∧ gap.text = cs := by
  induction cs with
  | nil => exact ⟨[], by simp [Gap.IsBare], rfl⟩
  | cons c cs ih =>
    rw [List.forall_mem_cons] at h
    obtain ⟨gap, hgap, rfl⟩ := ih h.2
    refine ⟨.blank c h.1 :: gap, ?_, rfl⟩
    rw [Gap.IsBare, Gap.text_cons, List.forall_mem_append]
    exact ⟨by simpa [Filler.text] using h.1, hgap⟩

/-- A text without the semicolon it may begin with. -/
def skipSemicolon : List Char → List Char
  | ';' :: rest => rest
  | rest => rest

/-- **An alias without a semicolon** stops at the first line break after its body. -/
theorem exists_stopsAlias {g : Gap} (hg : g.IsBare) {after : List Char}
    (hafter : BeginsStatement after) (hends : '\n' ∈ g.text ∨ after = []) :
    ∃ (blanks : Gap) (rest : List Char), blanks.IsBare ∧ (∀ c ∈ blanks.text, c ≠ '\n') ∧
      g.text = blanks.text ++ rest ∧ StopsAlias (rest ++ after) ∧
      skipSemicolon (rest ++ after) = rest ++ after := by
  by_cases hbreak : '\n' ∈ g.text
  · obtain ⟨front, rest, htext, hfront⟩ := List.eq_append_cons_of_mem hbreak
    rw [Gap.IsBare, htext, List.forall_mem_append, List.forall_mem_cons] at hg
    obtain ⟨blanks, hblanks, rfl⟩ := exists_gap hg.1
    obtain ⟨gap, hgap, rfl⟩ := exists_gap hg.2.2
    exact ⟨blanks, '\n' :: gap.text, hblanks, fun c hc heq => hfront (heq ▸ hc), htext,
      .lineBreak gap hgap after hafter, rfl⟩
  · obtain rfl := hends.resolve_left hbreak
    exact ⟨g, [], hg, fun c hc heq => hbreak (heq ▸ hc), (List.append_nil _).symm, .atEnd, rfl⟩

/-- **An alias from its parts**: its type parameters, and the body up to what stops it. -/
theorem readAlias_eq {ps : List TypeParameter} (hps : ∀ p ∈ ps, p.IsSafe) {l : Layout}
    {source body stop : List Char} (hl : l.lexemes = parametersLexemes ps)
    (hplain : l.Plain ('=' :: source)) (hbody : splitAliasBody (pieces source) = (body, pieces stop))
    {t : TypeNode} (hread : readType body = pure t) {gap : Gap} (hgap : gap.IsBare) (head : Head)
    (line : Nat) :
    readAlias head line (gap.text ++ (l.text ++ '=' :: source)) =
      { statement := pure (some (.alias
          { name := head.name, body := t, parameters := ps, exported := head.exported, line }))
        rest := skipSemicolon stop } := by
  obtain ⟨g, hg, hparameters⟩ := readTypeParameters_text hps hl hplain
    (by rintro c ⟨⟩; exact ⟨rfl, by decide⟩) hgap
  rw [readAlias, hparameters]
  simp only [textOf_pieces, Text.trimStart_append hg.allBlank, Text.trimStart_cons (c := '=') rfl,
    hbody, hread]
  rfl

/-- **An alias and what stops it.** -/
theorem readAlias_stop {d : AliasDeclaration} (hparameters : ∀ p ∈ d.parameters, p.IsSafe)
    (hbody : d.body.IsSafe) {lp l₀ : Layout} {x : Lexeme} {g gx : Gap} {after : List Char}
    (hlp : lp.lexemes = parametersLexemes d.parameters)
    (hl : Layout.lexemes (l₀ ++ [(x, gx)]) = lexemesOf d.body.tokens)
    (hplain : Layout.Plain (lp ++ (.equals, g) :: (l₀ ++ [(x, gx)])) after)
    (hunbroken : Layout.GapsOutside true (· ≠ '\n') 0 (lp ++ (.equals, g) :: l₀)) {blanks : Gap}
    (hblanks : blanks.IsBare) (hquiet : ∀ c ∈ blanks.text, c ≠ '\n') {stop : List Char}
    (hstop : StopsAlias stop) {gap : Gap} (hgap : gap.IsBare) (head : Head) (line : Nat) :
    readAlias head line (gap.text ++ (lp.text ++ '=' :: (g.text ++ (l₀.text ++ (x.text ++
        (blanks.text ++ stop)))))) =
      { statement := pure (some (.alias
          { d with name := head.name, exported := head.exported, line }))
        rest := skipSemicolon stop } := by
  obtain ⟨hplainp, hplaine⟩ := Layout.plain_append.1 hplain
  obtain ⟨-, hg, -, hplaint⟩ := Layout.plain_cons.1 hplaine
  have hgaps := hunbroken.right (hlp ▸ nest_parametersLexemes hparameters)
  have hsplit := splitAliasBody_text hbody hl hplaine (hgaps.1 rfl) hgaps.2 hblanks hquiet hstop
  have hread : readType (g.text ++ (Layout.text (l₀ ++ [(x, [])]) ++ blanks.text)) = pure d.body := by
    refine readType_text hbody (l := l₀ ++ [(x, [])]) ?_ hplaint.drop_gap ?_
    · simpa [Layout.lexemes] using hl
    · rw [Text.trim_blank_append hg.allBlank, Text.trim_append_blank hblanks.allBlank]
  have hfront : lp.Plain ('=' :: (g.text ++ (Layout.text (l₀ ++ [(x, [])]) ++ (blanks.text ++ stop)))) :=
    ⟨hplainp.valid, hplainp.bare, hplainp.apart.congr rfl⟩
  simpa using readAlias_eq hparameters hlp hfront hsplit hread hgap head line

/-- **An alias is read back**, up to the statement after it. -/
theorem readAlias_text {d : AliasDeclaration} (hparameters : ∀ p ∈ d.parameters, p.IsSafe)
    (hbody : d.body.IsSafe) {semicolon : Bool} {l : Layout} {after : List Char}
    (hl : l.lexemes = parametersLexemes d.parameters ++ .equals ::
      (lexemesOf d.body.tokens ++ lexemeIf semicolon (.mark .semicolon)))
    (hplain : l.Plain after) (hunbroken : l.Unbroken) (hafter : BeginsStatement after)
    (hends : l.EndsLine ∨ after = []) {gap : Gap} (hgap : gap.IsBare) (head : Head) (line : Nat) :
    ∃ rest, EndsAt l after rest ∧ readAlias head line (gap.text ++ (l.text ++ after)) =
      { statement := pure (some (.alias { d with name := head.name, exported := head.exported, line }))
        rest } := by
  obtain ⟨lp, le, rfl, hlp, hle⟩ := Layout.exists_append hl
  obtain ⟨g, lb, rfl, hlb⟩ := Layout.exists_cons hle
  obtain ⟨lt, ls, rfl, hlt, hls⟩ := Layout.exists_append hlb
  obtain ⟨l₀, ⟨x, gx⟩, rfl⟩ := (List.eq_nil_or_concat lt).resolve_left (hbody.layout_ne_nil hlt)
  rw [List.concat_eq_append] at *
  cases semicolon with
  | true =>
    obtain ⟨gs, l', rfl, hl'⟩ := Layout.exists_cons hls
    obtain rfl := Layout.lexemes_eq_nil hl'
    have hassoc : lp ++ (.equals, g) :: (l₀ ++ [(x, gx)] ++ [(Lexeme.mark .semicolon, gs)]) =
        (lp ++ (.equals, g) :: (l₀ ++ [(x, gx)])) ++ [(Lexeme.mark .semicolon, gs)] := by simp
    rw [hassoc] at hplain hunbroken ⊢
    rw [Layout.unbroken_concat] at hunbroken
    obtain ⟨hplain, hlast⟩ := Layout.plain_append.1 hplain
    have hlay : Layout.GapsOutside true (· ≠ '\n') 0 (l₀ ++ [(x, gx)]) :=
      (hunbroken.right (hlp ▸ nest_parametersLexemes hparameters)).2
    have hx : ∀ c ∈ gx.text, c ≠ '\n' := hlay.last (hlt ▸ hbody.typed.nest 0)
    have hgs := (Layout.plain_cons.1 hlast).2.1
    have hgx : gx.IsBare := hplain.bare (x, gx) (by simp)
    have hfront : Layout.GapsOutside true (· ≠ '\n') 0 (lp ++ (.equals, g) :: l₀) := by
      have := hunbroken
      rw [← List.cons_append, ← List.append_assoc] at this
      exact this.left
    refine ⟨gs.text ++ after, endsAt_gap hgs after, ?_⟩
    have := readAlias_stop hparameters hbody hlp hlt hplain hfront hgx hx
      (.semicolon (gs.text ++ after)) hgap head line
    simpa [Lexeme.text, Token.text, Mark.text, skipSemicolon] using this
  | false =>
    obtain rfl := Layout.lexemes_eq_nil hls
    rw [List.append_nil] at *
    have hassoc : lp ++ (.equals, g) :: (l₀ ++ [(x, gx)]) =
        (lp ++ (.equals, g) :: l₀) ++ [(x, gx)] := by simp
    have hbreak : '\n' ∈ gx.text ∨ after = [] := hends.imp_left fun h =>
      h (x, gx) (by rw [hassoc, List.getLast?_concat]; rfl)
    have hgx : gx.IsBare := hplain.bare (x, gx) (by simp)
    obtain ⟨blanks, rest, hblanks, hquiet, htext, hstop, hskip⟩ :=
      exists_stopsAlias hgx hafter hbreak
    have hfront : Layout.GapsOutside true (· ≠ '\n') 0 (lp ++ (.equals, g) :: l₀) :=
      Layout.unbroken_concat.1 (hassoc ▸ hunbroken)
    have hidle : ∀ c ∈ rest, IsIdle c := fun c hc =>
      hgx.isIdle c (by rw [htext]; exact List.mem_append_right _ hc)
    have hsuffix : rest <:+ Layout.text ((lp ++ (.equals, g) :: l₀) ++ [(x, gx)]) := by
      rw [Layout.text_append, Layout.text_cons, Layout.text_nil, List.append_nil, htext]
      simp only [← List.append_assoc]
      exact List.suffix_append _ _
    refine ⟨rest ++ after, hassoc ▸ ⟨rest, hsuffix, hidle, rfl⟩, ?_⟩
    have := readAlias_stop hparameters hbody hlp hlt hplain hfront hblanks hquiet hstop hgap head line
    rw [hskip] at this
    simpa [Lexeme.text, htext] using this

/-! ## Interfaces -/

/-- At a greater depth nothing is outside brackets. -/
theorem Nest.shift {angles : Bool} {quiet quiet' : Lexeme → Prop} {d e : Nat} {xs : List Lexeme}
    (h : Nest angles quiet d xs e) : Nest angles quiet' (d + 1) xs (e + 1) := by
  induction h with
  | nil => exact .nil _
  | opens hx _ _ ih => exact .opens hx (fun hd => absurd hd (by simp)) ih
  | closes hx _ ih => exact .closes hx ih
  | plain hx _ _ ih => exact .plain hx (fun hd => absurd hd (by simp)) ih

/-- **A lexeme of a heritage clause outside brackets**: a word, or a mark that is no brace and no
semicolon. -/
def IsClausePart (x : Lexeme) : Prop :=
  (∃ name, x = .word name) ∨ (∃ word, x = .keyword word) ∨
    ∃ m, x = .mark m ∧ (m = .dot ∨ m = .comma ∨ m = .openAngle)

section

variable {d e : Nat}

theorem nest_words {name : String} {ts : List Token} (h : Nest true IsClausePart d (lexemesOf ts) e) :
    Nest true IsClausePart d (lexemesOf (nameTokens name ++ ts)) e := by
  obtain ⟨first, parts, hparts, -⟩ := exists_nameParts name
  rw [nameTokens_of_nameParts hparts]
  refine .plain rfl (fun _ => .inl ⟨first, rfl⟩) ?_
  clear hparts
  induction parts with
  | nil => exact h
  | cons part parts ih =>
    exact .plain rfl (fun _ => .inr (.inr ⟨.dot, rfl, .inl rfl⟩))
      (.plain rfl (fun _ => .inl ⟨part, rfl⟩) ih)

theorem nest_parenthesized {P : Lexeme → Prop} {t : TypeNode} (ht : t.IsTyped) {xs : List Lexeme}
    (h : Nest true P (d + 1) xs e) :
    Nest true P (d + 1) (lexemesOf (parenthesized t.tokens) ++ xs) e := by
  simp only [parenthesized, lexemesOf, List.map_cons, List.map_append, List.cons_append,
    List.append_assoc]
  exact .opens rfl (fun hd => absurd hd (by simp))
    (Nest.append (ht.nest (d + 1)).shift (.closes rfl h))

theorem nest_tailTokens {P : Lexeme → Prop} {ts : List TypeNode} (hts : ∀ t ∈ ts, t.IsTyped)
    {xs : List Lexeme} (h : Nest true P (d + 1) xs e) :
    Nest true P (d + 1) (lexemesOf (tailTokens .comma ts) ++ xs) e := by
  induction ts with
  | nil => exact h
  | cons t ts ih =>
    rw [List.forall_mem_cons] at hts
    simp only [tailTokens, lexemesOf, List.map_cons, List.map_append, List.cons_append,
      List.append_assoc]
    exact .plain rfl (fun hd => absurd hd (by simp)) (nest_parenthesized hts.1 (ih hts.2))

/-- Type arguments stand in brackets of their own. -/
theorem nest_argumentTokens {ts : List TypeNode} (hts : ∀ t ∈ ts, t.IsTyped) :
    Nest true IsClausePart d (lexemesOf (argumentTokens ts)) d := by
  cases ts with
  | nil => exact .nil d
  | cons t ts =>
    rw [List.forall_mem_cons] at hts
    simp only [argumentTokens, lexemesOf, List.map_cons, List.map_append]
    exact .opens rfl (fun _ => .inr (.inr ⟨.openAngle, rfl, .inr (.inr rfl)⟩))
      (nest_parenthesized hts.1 (nest_tailTokens hts.2 (.closes rfl (.nil d))))

/-- **A heritage clause** holds words, dots, commas and type arguments in brackets. -/
theorem nest_heritageLexemes {ts : List TypeNode}
    (hts : ∀ t ∈ ts, t.IsSafe ∧ ∃ name arguments, t = .reference name arguments) :
    Nest true IsClausePart 0 (heritageLexemes ts) 0 := by
  have hreference : ∀ t ∈ ts, Nest true IsClausePart 0 (lexemesOf t.tokens) 0 := by
    intro t ht
    obtain ⟨hsafe, name, arguments, rfl⟩ := hts t ht
    obtain _ | _ := hsafe.typed
    exact nest_words (nest_argumentTokens ‹_›)
  have hlist : Nest true IsClausePart 0 (commaList (ts.map fun t => lexemesOf t.tokens)) 0 := by
    clear hts
    induction ts with
    | nil => exact .nil 0
    | cons t ts ih =>
      rw [List.forall_mem_cons] at hreference
      cases ts with
      | nil => exact hreference.1
      | cons u ts =>
        exact hreference.1.append (.plain rfl
          (fun _ => .inr (.inr ⟨.comma, rfl, .inr (.inl rfl)⟩)) (ih hreference.2))
  cases ts with
  | nil => exact .nil 0
  | cons t ts => exact .plain rfl (fun _ => .inr (.inl ⟨"extends", rfl⟩)) hlist

end

/-- **The body of an interface** is sought past its heritage. -/
theorem IsClausePart.isQuiet {x : Lexeme} (h : IsClausePart x) (hvalid : x.Valid) :
    x.IsQuiet fun c => c != '{' && c != ';' := by
  have hatom : ∀ cs, Token.IsAtom cs → ∀ c ∈ cs, (c != '{' && c != ';') = true := by
    intro cs hcs c hc
    have hpart := hcs c hc
    have hbrace : c ≠ '{' := by rintro rfl; cases hpart
    have hsemicolon : c ≠ ';' := by rintro rfl; cases hpart
    simp [hbrace, hsemicolon]
  obtain ⟨name, rfl⟩ | ⟨word, rfl⟩ | ⟨m, rfl, rfl | rfl | rfl⟩ := h
  · exact .inr (.inr (hatom _ (isAtom_of_isAsciiName (Token.isAsciiName_of_whole hvalid))))
  · exact .inr (.inr (hatom _ (isAtom_of_isAsciiName hvalid)))
  all_goals exact .inr (.inr (by simp [Lexeme.text, Token.text, Mark.text]))

/-- **Members and the closing brace** are lexemes that nest, and the brace. -/
theorem exists_membersTokens {members : List Member} (h : ∀ m ∈ members, ∀ t ∈ m.types, t.IsTyped) :
    ∃ inner, lexemesOf (membersTokens members) = inner ++ [Lexeme.mark .closeBrace] ∧
      Nest true (fun _ => True) 0 inner 0 := by
  induction members with
  | nil => exact ⟨[], rfl, .nil 0⟩
  | cons m members ih =>
    rw [List.forall_mem_cons] at h
    obtain ⟨inner, hinner, hnest⟩ := ih h.2
    have hmember : Nest true Unseparated 0 (lexemesOf m.tokens) 0 :=
      (ReadsBack.member fun t ht =>
        (h.1 t ht).readsBack fun _ hn => hn.2).nest 0
    refine ⟨lexemesOf m.tokens ++ .mark .semicolon :: inner, ?_,
      (hmember.mono fun _ _ _ => trivial).append (.plain rfl (fun _ => trivial) hnest)⟩
    simp only [lexemesOf] at hinner
    simp [membersTokens, lexemesOf, hinner]

theorem mem_commaList {items : List (List Lexeme)} {x : Lexeme} (h : x ∈ commaList items) :
    x = .mark .comma ∨ ∃ item ∈ items, x ∈ item := by
  induction items with
  | nil => cases h
  | cons item items ih =>
    cases items with
    | nil => exact .inr ⟨item, List.mem_cons_self, h⟩
    | cons next items =>
      rw [commaList, List.mem_append, List.mem_cons] at h
      · rcases h with h | h | h
        · exact .inr ⟨item, List.mem_cons_self, h⟩
        · exact .inl h
        · rcases ih h with hcomma | ⟨item', hitem, hx⟩
          · exact .inl hcomma
          · exact .inr ⟨item', List.mem_cons_of_mem _ hitem, hx⟩
      · simp

theorem mem_commaList_of_mem {items : List (List Lexeme)} {item : List Lexeme} {x : Lexeme}
    (hitem : item ∈ items) (hx : x ∈ item) : x ∈ commaList items := by
  induction items with
  | nil => cases hitem
  | cons first items ih =>
    cases items with
    | nil => rwa [commaList, ← List.mem_singleton.1 hitem]
    | cons next items =>
      rw [commaList, List.mem_append, List.mem_cons]
      · rcases List.mem_cons.1 hitem with rfl | hitem
        · exact .inl hx
        · exact .inr (.inr (ih hitem))
      · simp

/-- **A block in braces** ends with its closing brace. -/
theorem splitBlock_braces {angles : Bool} {g₀ g : Gap} {l : Layout} {after : List Char}
    (hplain : Layout.Plain ((.mark .openBrace, g₀) :: (l ++ [(Lexeme.mark .closeBrace, g)])) after)
    (hwalk : Walk angles (fun _ => true) 0 false l.pieces 0 false) :
    splitBlock angles (pieces ('{' :: (g₀.text ++ (l.text ++ ('}' :: (g.text ++ after)))))) =
      (.char '{' :: ((g₀.text.map .char ++ l.pieces) ++ [Piece.char '}']), pieces (g.text ++ after)) := by
  obtain ⟨-, hg₀, -, hrest⟩ := Layout.plain_cons.1 hplain
  obtain ⟨hplainl, hlast⟩ := Layout.plain_append.1 hrest
  have hg := (Layout.plain_cons.1 hlast).2.1
  have hpieces : pieces ('{' :: (g₀.text ++ (l.text ++ ('}' :: (g.text ++ after))))) =
      .char '{' :: ((g₀.text.map .char ++ l.pieces) ++ .char '}' :: pieces (g.text ++ after)) := by
    have := hplain.pieces_append
    simp only [Layout.text_cons, Layout.text_append, Layout.text_nil, Layout.pieces_cons,
      Layout.pieces_append, Layout.pieces_nil, List.append_nil] at this
    rw [pieces_gap hg]
    simpa [Lexeme.text, Token.text, Mark.text, Lexeme.pieces] using this
  rw [hpieces, splitBlock_walk (by cases angles <;> rfl) (by cases angles <;> rfl)
    (walk_gap hg₀ (fun _ _ => rfl) hwalk)]

/-- **The body of an interface** is found past its heritage. -/
theorem findTopLevel_heritage {ts : List TypeNode}
    (hts : ∀ t ∈ ts, t.IsSafe ∧ ∃ name arguments, t = .reference name arguments) {l : Layout}
    {rest : List Char} (hl : l.lexemes = heritageLexemes ts) (hplain : l.Plain ('{' :: rest))
    {gap : Gap} (hgap : gap.IsBare) :
    findTopLevel '{' (pieces (gap.text ++ (l.text ++ '{' :: rest))) =
      some (gap.text ++ l.text, pieces ('{' :: rest)) := by
  have hquiet : ∀ c, Token.isLayout c = true → (c != '{' && c != ';') = true := by
    intro c hc
    have hbrace : c ≠ '{' := by rintro rfl; cases hc
    have hsemicolon : c ≠ ';' := by rintro rfl; cases hc
    simp [hbrace, hsemicolon]
  have hequals : Lexeme.equals ∉ l.lexemes := by
    rw [hl]
    cases ts with
    | nil => simp [heritageLexemes]
    | cons t ts =>
      rw [heritageLexemes, List.mem_cons, not_or]
      refine ⟨by simp, fun hmem => ?_⟩
      obtain hcomma | ⟨item, hitem, hmem⟩ := mem_commaList hmem
      · cases hcomma
      · obtain ⟨u, -, rfl⟩ := List.mem_map.1 hitem
        exact equals_notMem_lexemesOf _ hmem
  have hnest := (hl ▸ nest_heritageLexemes hts).mono fun x hx hpart => hpart.isQuiet (hplain.valid x hx)
  have hwalk := walk_gap hgap hquiet (walk_of_nest hnest hplain.valid hequals hplain.bare rfl
    (gapsOutside_of_bare hquiet hplain.bare 0))
  have hpieces : pieces ('{' :: rest) = .char '{' :: pieces rest := by
    rw [pieces, if_neg (by decide)]
  have := findFrom_walk hwalk (fun c hc => by simpa using hc) (show '{' ≠ '=' by decide)
    (pieces ('{' :: rest))
  rw [findTopLevel, pieces_gap hgap, hplain.pieces_append, ← List.append_assoc]
  refine this.trans ?_
  rw [hpieces, findFrom, if_pos ⟨rfl, rfl⟩, textOf_gap, l.textOf_pieces]
  simp

/-- **An opening brace** is found past blanks. -/
theorem findTopLevel_brace {gap : Gap} (hgap : gap.IsBare) (rest : List Char) :
    findTopLevel '{' (pieces (gap.text ++ '{' :: rest)) =
      some (gap.text, pieces ('{' :: rest)) := by
  have := @findTopLevel_heritage [] nofun [] rest rfl Layout.plain_nil gap hgap
  rwa [Layout.text_nil, List.nil_append, List.append_nil] at this

/-- **An object body is read back**, as a whole. -/
theorem readObjectBody_text {members : List Member} (h : (TypeNode.object members).IsTyped)
    {l : Layout} {after : List Char}
    (hl : l.lexemes = lexemesOf (TypeNode.object members).tokens) (hplain : l.Plain after) :
    readObjectBody l.text = pure members := by
  have := h.parseType (fun _ hn => hn) [] hl hplain.at_end.apart
  rw [Gap.text_nil, List.nil_append] at this
  rw [readObjectBody, this]

/-- **An object body is a block** that is read back. -/
theorem exists_objectBlock {members : List Member} (h : (TypeNode.object members).IsTyped)
    {l : Layout} {after : List Char}
    (hl : l.lexemes = lexemesOf (TypeNode.object members).tokens) (hplain : l.Plain after) :
    ∃ (source : List Char) (block : List Piece) (rest : List Char),
      l.text ++ after = '{' :: source ∧
        splitBlock true (pieces ('{' :: source)) = (block, pieces rest) ∧
        readObjectBody (textOf block) = pure members ∧ EndsAt l after rest := by
  obtain ⟨inner, hinner, hnest⟩ := exists_membersTokens fun m hm t ht => by
    obtain _ | _ := h
    exact ‹∀ m ∈ members, ∀ t ∈ m.types, t.IsTyped› m hm t ht
  have htokens : l.lexemes = .mark .openBrace :: (inner ++ [Lexeme.mark .closeBrace]) := by
    rw [hl, TypeNode.tokens, ← hinner]
    rfl
  obtain ⟨g₀, lb, rfl, hlb⟩ := Layout.exists_cons htokens
  obtain ⟨li, last, rfl, hli, hlast⟩ := Layout.exists_append hlb
  obtain ⟨g, l', rfl, hl'⟩ := Layout.exists_cons hlast
  obtain rfl := Layout.lexemes_eq_nil hl'
  obtain ⟨hplaini, hplainl⟩ := Layout.plain_append.1 (Layout.plain_cons.1 hplain).2.2.2
  have hwalk : Walk true (fun _ => true) 0 false li.pieces 0 false := by
    refine walk_of_nest ((hli ▸ hnest).mono fun _ _ _ => .inr (.inr fun _ _ => rfl)) hplaini.valid
      ?_ hplaini.bare rfl (gapsOutside_of_bare (fun _ _ => rfl) hplaini.bare 0)
    intro hmem
    refine equals_notMem_lexemesOf (membersTokens members) ?_
    rw [hinner, ← hli]
    exact List.mem_append_left _ hmem
  have hcons : (Lexeme.mark .openBrace, g₀) :: (li ++ [(Lexeme.mark .closeBrace, g)]) =
      ((Lexeme.mark .openBrace, g₀) :: li) ++ [(Lexeme.mark .closeBrace, g)] := rfl
  refine ⟨g₀.text ++ (li.text ++ ('}' :: (g.text ++ after))), _, g.text ++ after, ?_,
    splitBlock_braces hplain hwalk, ?_, ?_⟩
  · simp [Lexeme.text, Token.text, Mark.text]
  · rw [hcons] at hl hplain
    have := readObjectBody_text h (l := ((.mark .openBrace, g₀) :: li) ++ [(Lexeme.mark .closeBrace, [])])
      (by simpa [Layout.lexemes] using hl) hplain.drop_gap
    rw [textOf_cons, textOf_append, textOf_gap, li.textOf_pieces]
    simpa [textOf, Piece.text, Lexeme.text, Token.text, Mark.text] using this
  · exact hcons ▸ endsAt_gap (Layout.plain_cons.1 hplainl).2.1 after

/-- **An interface is read back**, up to the text after it. -/
theorem readInterface_text {d : InterfaceDeclaration} (hparameters : ∀ p ∈ d.parameters, p.IsSafe)
    (hheritage : ∀ t ∈ d.heritage, t.IsSafe ∧ ∃ name arguments, t = .reference name arguments)
    (hmembers : (TypeNode.object d.members).IsTyped) {l : Layout} {after : List Char}
    (hl : l.lexemes = parametersLexemes d.parameters ++ (heritageLexemes d.heritage ++
      lexemesOf (TypeNode.object d.members).tokens))
    (hplain : l.Plain after) {gap : Gap} (hgap : gap.IsBare) (head : Head) (line : Nat) :
    ∃ rest, EndsAt l after rest ∧ readInterface head line (gap.text ++ (l.text ++ after)) =
      { statement := pure (some (.interface
          { d with name := head.name, exported := head.exported, line }))
        rest } := by
  obtain ⟨lp, lr, rfl, hlp, hlr⟩ := Layout.exists_append hl
  obtain ⟨lh, lo, rfl, hlh, hlo⟩ := Layout.exists_append hlr
  obtain ⟨hplainp, hplainr⟩ := Layout.plain_append.1 hplain
  obtain ⟨hplainh, hplaino⟩ := Layout.plain_append.1 hplainr
  obtain ⟨source, block, rest, htext, hblock, hread, hends⟩ := exists_objectBlock hmembers hlo hplaino
  rw [Layout.text_append, List.append_assoc, htext] at hplainp
  rw [htext] at hplainh
  -- a keyword or the opening brace comes after the type parameters
  have hfirst : ∀ c ∈ (lh.text ++ '{' :: source).head?, Text.isBlank c = false ∧ c ≠ '<' := by
    cases hts : d.heritage with
    | nil =>
      rw [hts] at hlh
      rw [Layout.lexemes_eq_nil hlh]
      rintro c ⟨⟩
      exact ⟨rfl, by decide⟩
    | cons t ts =>
      rw [hts] at hlh
      obtain ⟨g, lc, rfl, -⟩ := Layout.exists_cons hlh
      rintro c ⟨⟩
      exact ⟨rfl, by decide⟩
  obtain ⟨g, hg, hps⟩ := readTypeParameters_text hparameters hlp hplainp hfirst hgap
  have hheader := readHeritage_text (fun t ht => (hheritage t ht).1) hlh hplainh hg
  refine ⟨rest, (hends.append lh).append lp, ?_⟩
  rw [Layout.text_append, Layout.text_append, List.append_assoc, List.append_assoc, htext,
    readInterface, hps]
  simp only [findTopLevel_heritage hheritage hlh hplainh hg, hblock, hheader, hread, textOf_pieces]
  rfl

/-! ## Enums -/

/-- A name is no literal, so it denotes itself. -/
theorem keyText_name {name : String} (h : isAsciiName name) : keyText name.toList = name := by
  rw [isAsciiName] at h
  cases hname : name.toList with
  | nil => rw [hname] at h; cases h
  | cons c cs =>
    rw [hname, Text.isNameOver, Bool.and_eq_true] at h
    have hc : ¬(c = '\'' ∨ c = '"') := by rintro (rfl | rfl) <;> exact absurd h.1 (by decide)
    rw [keyText, if_neg hc, ← hname, String.ofList_toList]

theorem keyText_literal {literal : String} (h : (Token.string literal).Whole) :
    Text.readName? literal.toList = none ∧ keyText literal.toList = Text.unquoteString literal := by
  obtain _ | _ | _ | @⟨quote, body, hquote, -⟩ := Token.shape_of_read? h
  rw [String.toList_ofList]
  refine ⟨readName?_of_head ?_, ?_⟩
  · rintro c ⟨⟩
    rcases hquote with rfl | rfl <;> rfl
  · rw [keyText, if_pos hquote.symm, Text.unquoteString, String.toList_ofList]

/-- **An enum member is read back**, with blanks around it. -/
theorem enumMember?_text {name : String} {item : List Lexeme} (h : WritesMember name item)
    (hliteral : ∀ x ∈ item, x.IsPlainLiteral) {l : Layout} {after : List Char}
    (hl : l.lexemes = item) (hplain : l.Plain after) {gap : Gap} (hgap : gap.IsBare) :
    enumMember? (gap.text ++ l.text) = some name := by
  have htrim : ∀ {x : Lexeme} {g : Gap}, Layout.Plain [(x, g)] after →
      Text.trim (gap.text ++ Layout.text [(x, g)]) = x.text := fun hx => by
    rw [Text.trim_blank_append hgap.allBlank]
    simpa using Layout.Plain.trim_concat (l := []) hx
  cases h with
  | bare _ hname =>
    obtain ⟨g, l', rfl, hl'⟩ := Layout.exists_cons hl
    obtain rfl := Layout.lexemes_eq_nil hl'
    simp only [enumMember?, htrim hplain, Lexeme.text, Token.text, readName?_self hname, Option.orElse_some,
      Option.map_some, keyText_name hname]
  | quoted literal hwhole =>
    obtain ⟨g, l', rfl, hl'⟩ := Layout.exists_cons hl
    obtain rfl := Layout.lexemes_eq_nil hl'
    obtain ⟨hname, hkey⟩ := keyText_literal hwhole
    have hplainLiteral := hliteral _ (List.mem_singleton_self _)
    simp only [Lexeme.IsPlainLiteral] at hplainLiteral
    simp only [enumMember?, htrim hplain, Lexeme.text, Token.text, hname, Option.orElse_none,
      hplainLiteral, Option.map_some, hkey]

/-- **An enum member** is passed over outside brackets. -/
theorem walksItem_member {quiet : Char → Bool} (hquiet : ∀ c, c ≠ ',' → quiet c = true)
    {name : String} {item : List Lexeme} (h : WritesMember name item) :
    WalksItem false quiet item := by
  intro l after hl hplain
  have hblank : ∀ c, Token.isLayout c = true → quiet c = true := fun c hc =>
    hquiet c (by rintro rfl; cases hc)
  have hatom : ∀ {cs}, Token.IsAtom cs → ∀ c ∈ cs, quiet c = true := fun hcs c hc =>
    hquiet c (by rintro rfl; exact absurd (hcs _ hc) (by decide))
  have hnest : Nest false (·.IsQuiet quiet) 0 item 0 := by
    cases h with
    | bare _ hname =>
      exact .plain rfl (fun _ => .inr (.inr (hatom (isAtom_of_isAsciiName hname)))) (.nil 0)
    | quoted => exact .plain rfl (fun _ => .inl rfl) (.nil 0)
  have hequals : Lexeme.equals ∉ item := by cases h <;> simp
  exact walk_of_nest (hl ▸ hnest) hplain.valid (hl ▸ hequals) hplain.bare
    (hquiet '>' (by decide)) (gapsOutside_of_bare hblank hplain.bare 0)

theorem exists_mem_of_forall₂ {α β : Type} {r : α → β → Prop} {xs : List α} {ys : List β}
    (h : List.Forall₂ r xs ys) {y : β} (hy : y ∈ ys) : ∃ x ∈ xs, r x y := by
  induction h with
  | nil => cases hy
  | cons hr _ ih =>
    rcases List.mem_cons.1 hy with rfl | hy
    · exact ⟨_, List.mem_cons_self, hr⟩
    · exact (ih hy).imp fun x hx => ⟨List.mem_cons_of_mem _ hx.1, hx.2⟩

/-- **The items of an enum** give its members. -/
theorem filterMap_enumMember? {members : List String} {items : List (List Lexeme)}
    (h : List.Forall₂ WritesMember members items)
    (hliteral : ∀ item ∈ items, ∀ x ∈ item, x.IsPlainLiteral) {parts : List (Gap × Layout)}
    (hparts : ItemTexts items parts) :
    (parts.map fun p => p.1.text ++ p.2.text).filterMap enumMember? = members := by
  induction h generalizing parts with
  | nil => cases hparts; rfl
  | cons hitem _ ih =>
    rw [List.forall_mem_cons] at hliteral
    obtain _ | ⟨⟨hl, hgap, hplain⟩, hparts⟩ := hparts
    rw [List.map_cons, List.filterMap_cons_some (enumMember?_text hitem hliteral.1 hl hplain hgap),
      ih hliteral.2 hparts]

/-- **The members of an enum** in the text between its braces. -/
theorem parts_enumMembers {members : List String} {items : List (List Lexeme)}
    (h : List.Forall₂ WritesMember members items)
    (hliteral : ∀ item ∈ items, ∀ x ∈ item, x.IsPlainLiteral) {l : Layout} {after : List Char}
    (hl : l.lexemes = commaList items) (hplain : l.Plain after) {gap : Gap} (hgap : gap.IsBare) :
    (splitTopLevel false [','] (gap.text ++ l.text)).parts.filterMap enumMember? = members := by
  have hblank : ∀ c, Token.isLayout c = true → (c != ',') = true := fun c hc => by
    rw [bne_iff_ne]
    rintro rfl
    cases hc
  rw [splitTopLevel, hplain.pieces_gap hgap]
  cases h with
  | nil =>
    obtain rfl := Layout.lexemes_eq_nil hl
    have := @splitFrom_walk false (· != ',') 0 0 false false _ [',']
      (walk_gap hgap hblank (.nil 0 false)) (fun c hc => by simpa using hc) (by decide) []
    rw [List.append_nil, textOf_gap] at this
    have hnone : enumMember? gap.text = none := by
      have htrim : Text.trim gap.text = [] := by
        have := Text.trim_blank_append hgap.allBlank []
        rwa [List.append_nil] at this
      simp [enumMember?, htrim, Text.readName?, plainLiteral?]
    have hsplit : splitFrom false [','] 0 false (gap.text.map .char ++ Layout.pieces []) =
        ⟨gap.text, []⟩ := by
      refine this.trans ?_
      simp [splitFrom, Split.prepend, textOf]
    rw [hsplit]
    simp [Split.parts, hnone]
  | cons hitem hitems =>
    have hall := List.Forall₂.cons hitem hitems
    obtain ⟨parts, hparts, hcut⟩ := parts_commaList (by simp)
      (fun item hmem => by
        obtain ⟨name, -, hwrites⟩ := exists_mem_of_forall₂ hall hmem
        exact @walksItem_member (· != ',') (fun c hc => by simpa using hc) _ _ hwrites)
      (fun c hc => by simpa using hc) hblank hl hplain hgap
    rw [hcut, filterMap_enumMember? hall hliteral hparts]

/-- **An enum is read back**, up to the text after it. -/
theorem readEnum_text {members : List String} {items : List (List Lexeme)}
    (h : List.Forall₂ WritesMember members items)
    (hliteral : ∀ item ∈ items, ∀ x ∈ item, x.IsPlainLiteral) {l : Layout} {after : List Char}
    (hl : l.lexemes = .mark .openBrace :: (commaList items ++ [Lexeme.mark .closeBrace]))
    (hplain : l.Plain after) {gap : Gap} (hgap : gap.IsBare) (head : Head) (constant : Bool)
    (line : Nat) :
    ∃ rest, EndsAt l after rest ∧ readEnum head constant line (gap.text ++ (l.text ++ after)) =
      { statement := pure (some (.enum { name := head.name, members, constant, line }))
        rest } := by
  obtain ⟨g₀, lb, rfl, hlb⟩ := Layout.exists_cons hl
  obtain ⟨li, last, rfl, hli, hlast⟩ := Layout.exists_append hlb
  obtain ⟨g, l', rfl, hl'⟩ := Layout.exists_cons hlast
  obtain rfl := Layout.lexemes_eq_nil hl'
  obtain ⟨-, hg₀, -, hplainb⟩ := Layout.plain_cons.1 hplain
  obtain ⟨hplaini, hplainl⟩ := Layout.plain_append.1 hplainb
  have hwalk : Walk false (fun _ => true) 0 false li.pieces 0 false :=
    walk_commaList (fun item hmem => by
      obtain ⟨name, -, hwrites⟩ := exists_mem_of_forall₂ h hmem
      exact walksItem_member (fun _ _ => rfl) hwrites) rfl (fun _ _ => rfl) hli hplaini
  have hfind := findTopLevel_brace hgap (g₀.text ++ (li.text ++ ('}' :: (g.text ++ after))))
  have htext : gap.text ++ (Layout.text ((.mark .openBrace, g₀) ::
        (li ++ [(Lexeme.mark .closeBrace, g)])) ++ after) =
      gap.text ++ '{' :: (g₀.text ++ (li.text ++ ('}' :: (g.text ++ after)))) := by
    simp [Lexeme.text, Token.text, Mark.text]
  have hcons : (Lexeme.mark .openBrace, g₀) :: (li ++ [(Lexeme.mark .closeBrace, g)]) =
      ((Lexeme.mark .openBrace, g₀) :: li) ++ [(Lexeme.mark .closeBrace, g)] := rfl
  refine ⟨g.text ++ after, hcons ▸ endsAt_gap (Layout.plain_cons.1 hplainl).2.1 after, ?_⟩
  rw [htext, readEnum, hfind]
  simp only [splitBlock_braces hplain hwalk, insideOf_block, textOf_gap, li.textOf_pieces,
    parts_enumMembers h hliteral hli hplaini hg₀, textOf_pieces]

end FluentBuilders
