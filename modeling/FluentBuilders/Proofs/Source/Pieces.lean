import FluentBuilders.Proofs.Syntax.Layout
import FluentBuilders.Source.Comments
import FluentBuilders.Source.File

/-!
# Proofs/Source/Pieces — laid-out text in pieces, and without its comments

A literal token is one piece of source text, whatever follows it; any other lexeme is cut into its
characters (`pieces_lexeme`).  Comments stand in gaps only, so taking them out leaves a layout of
the same lexemes with blanks between them (`stripComments_text`), on the same lines.
-/

namespace FluentBuilders

open Piece

/-! ## Literals -/

/-- A literal token is the literal that the scanners skip. -/
theorem Piece.literalTail_of_quotedTail? {quote : Char} {cs body rest : List Char}
    (h : Token.quotedTail? quote (quote == '`') cs = some (body, rest)) :
    literalTail quote cs = (body, rest) := by
  fun_induction Token.quotedTail? quote (quote == '`') cs generalizing body rest with
  | case1 => simp at h
  | case2 => simp at h
  | case3 c cs _ ih =>
    simp only [Option.map_eq_some_iff, Prod.exists] at h
    obtain ⟨body', rest', hread, h⟩ := h
    cases h
    rw [literalTail, ih hread]
  | case4 cs hescape =>
    cases h
    rw [literalTail]
    · by_cases hq : quote = '\\'
      · simp [hq]
      · simp [hq, endsLiteral]
    · exact hescape
  | case5 => simp at h
  | case6 c cs hescape hc hstop ih =>
    simp only [Option.map_eq_some_iff, Prod.exists] at h
    obtain ⟨body', rest', hread, h⟩ := h
    cases h
    simp only [not_or, not_and, Bool.not_eq_true'] at hstop
    rw [literalTail]
    · rw [if_neg hstop.1, if_neg, ih hread]
      simpa [endsLiteral, hc] using hstop.2
    · exact hescape

/-! ## Lexemes in pieces -/

/-- **The pieces of a lexeme**: a literal as a whole, anything else character by character. -/
def Lexeme.pieces : Lexeme → List Piece
  | .token (.string s) | .token (.template s) => [.literal s.toList]
  | x => x.text.map .char

/-- A lexeme that is no literal. -/
def Lexeme.isLiteral : Lexeme → Bool
  | .token (.string _) | .token (.template _) => true
  | _ => false

theorem Lexeme.pieces_of_not_isLiteral {x : Lexeme} (h : x.isLiteral = false) :
    x.pieces = x.text.map .char := by
  unfold Lexeme.pieces
  split
  · cases h
  · cases h
  · rfl

/-- A character that is neither a quote nor a slash. -/
def IsInert (c : Char) : Prop := isQuote c = false ∧ c ≠ '/'

theorem isInert_of_isAtomPart {c : Char} (h : Token.isAtomPart c = true) : IsInert c := by
  constructor
  · by_contra hq
    simp only [isQuote, Bool.or_eq_false_iff, beq_eq_false_iff_ne, not_and_or, not_not] at hq
    rcases hq with (rfl | rfl) | rfl <;> revert h <;> decide
  · rintro rfl
    revert h
    decide

theorem isInert_of_isLayout {c : Char} (h : Token.isLayout c = true) : IsInert c := by
  simp only [Token.isLayout, Bool.or_eq_true, beq_iff_eq] at h
  rcases h with (((rfl | rfl) | rfl) | rfl) | rfl <;> exact ⟨rfl, by decide⟩

theorem isAtom_of_isAsciiName {cs : List Char} (h : Text.isNameOver Text.isIdentifierPart cs) :
    Token.IsAtom cs := by
  cases cs with
  | nil => exact Token.isAtom_nil
  | cons c cs =>
    rw [Text.isNameOver, Bool.and_eq_true, List.all_eq_true] at h
    have hc := Text.isIdentifierPart_of_isIdentifierStart h.1
    exact .cons (Token.isAtomPart_of_isIdentifierPart hc)
      fun d hd => Token.isAtomPart_of_isIdentifierPart (h.2 d hd)

theorem Lexeme.isInert {x : Lexeme} (h : x.Valid) (hliteral : x.isLiteral = false) :
    ∀ c ∈ x.text, IsInert c := by
  cases x with
  | token t =>
    cases Token.shape_of_read? h with
    | word name hatom => exact fun c hc => isInert_of_isAtomPart (hatom c hc)
    | number text hnumeric => exact fun c hc => isInert_of_isAtomPart (hnumeric.isAtom c hc)
    | negative text hnumeric => exact fun c hc => isInert_of_isAtomPart (hnumeric.isAtom c hc)
    | string => cases hliteral
    | template => cases hliteral
    | mark m => cases m <;> simp [text, Token.text, Mark.text, IsInert, isQuote]
  | keyword word => exact fun c hc => isInert_of_isAtomPart (isAtom_of_isAsciiName h c hc)
  | equals => simp [text, IsInert, isQuote]
  | star => simp [text, IsInert, isQuote]

/-- A literal token is a quote and what the scanners take after it. -/
theorem Lexeme.exists_literal {x : Lexeme} (h : x.Valid) (hliteral : x.isLiteral = true) :
    ∃ quote body, isQuote quote = true ∧ x.text = quote :: body ∧
      x.pieces = [.literal (quote :: body)] ∧
      ∀ rest, literalTail quote (body ++ rest) = (body, rest) := by
  cases x with
  | token t =>
    cases Token.shape_of_read? h with
    | string quote body hquote hread =>
      refine ⟨quote, body, ?_, ?_, ?_, fun rest => ?_⟩
      · rcases hquote with rfl | rfl <;> rfl
      · simp [text, Token.text]
      · simp [pieces]
      · have hne : quote ≠ '\\' := by rcases hquote with rfl | rfl <;> decide
        have hfalse : (quote == '`') = false := by rcases hquote with rfl | rfl <;> rfl
        have := Token.quotedTail?_append rest hne hread
        rw [← hfalse] at this
        exact literalTail_of_quotedTail? this
    | template body hread =>
      refine ⟨'`', body, rfl, ?_, ?_, fun rest => ?_⟩
      · simp [text, Token.text]
      · simp [pieces]
      · exact literalTail_of_quotedTail? (Token.quotedTail?_append rest (by decide) hread)
    | _ => cases hliteral
  | _ => cases hliteral

theorem pieces_inert {cs : List Char} (h : ∀ c ∈ cs, IsInert c) (rest : List Char) :
    pieces (cs ++ rest) = cs.map .char ++ pieces rest := by
  induction cs with
  | nil => rfl
  | cons c cs ih =>
    rw [List.forall_mem_cons] at h
    rw [List.cons_append, pieces, if_neg (by simp [h.1.1]), ih h.2]
    rfl

/-- **A lexeme in front of other text** is cut into its own pieces. -/
theorem pieces_lexeme {x : Lexeme} (h : x.Valid) (rest : List Char) :
    pieces (x.text ++ rest) = x.pieces ++ pieces rest := by
  cases hliteral : x.isLiteral with
  | false => rw [Lexeme.pieces_of_not_isLiteral hliteral, pieces_inert (x.isInert h hliteral)]
  | true =>
    obtain ⟨quote, body, hquote, htext, hpieces, htail⟩ := x.exists_literal h hliteral
    rw [htext, hpieces, List.cons_append, pieces, if_pos hquote, htail rest]
    rfl

theorem Lexeme.textOf_pieces (x : Lexeme) : textOf x.pieces = x.text := by
  unfold pieces
  split
  · simp [textOf, Piece.text, text, Token.text]
  · simp [textOf, Piece.text, text, Token.text]
  · simp [textOf, List.flatMap_map, Piece.text]

/-! ## Gaps of blanks -/

/-- A gap without comments. -/
def Gap.IsBare (gap : Gap) : Prop := ∀ c ∈ gap.text, Token.isLayout c = true

theorem Gap.IsBare.allBlank {gap : Gap} (h : gap.IsBare) : Text.AllBlank gap.text :=
  fun c hc => Text.isBlank_of_isLayout (h c hc)

theorem pieces_gap {gap : Gap} (h : gap.IsBare) (rest : List Char) :
    pieces (gap.text ++ rest) = gap.text.map .char ++ pieces rest :=
  pieces_inert (fun c hc => isInert_of_isLayout (h c hc)) rest

namespace Layout

/-- A layout without comments. -/
def IsBare (l : Layout) : Prop := ∀ p ∈ l, p.2.IsBare

/-- The pieces of a layout without comments. -/
def pieces (l : Layout) : List Piece := l.flatMap fun p => p.1.pieces ++ p.2.text.map .char

@[simp] theorem pieces_nil : pieces [] = [] := rfl

@[simp] theorem pieces_cons (x : Lexeme) (gap : Gap) (l : Layout) :
    pieces ((x, gap) :: l) = x.pieces ++ (gap.text.map .char ++ pieces l) := by
  simp [pieces]

@[simp] theorem pieces_append (l l' : Layout) : pieces (l ++ l') = pieces l ++ pieces l' := by
  simp [pieces]

theorem textOf_pieces (l : Layout) : textOf l.pieces = l.text := by
  induction l with
  | nil => rfl
  | cons p l ih =>
    obtain ⟨x, gap⟩ := p
    rw [pieces_cons, text_cons, ← ih, ← x.textOf_pieces]
    simp [textOf, List.flatMap_map, Piece.text]

end Layout

/-- **A layout in front of other text** is cut into its own pieces. -/
theorem pieces_text {l : Layout} (hvalid : ∀ x ∈ l.lexemes, x.Valid) (hbare : l.IsBare)
    (rest : List Char) : pieces (l.text ++ rest) = l.pieces ++ pieces rest := by
  induction l with
  | nil => rfl
  | cons p l ih =>
    obtain ⟨x, gap⟩ := p
    simp only [Layout.lexemes, List.map_cons, List.forall_mem_cons] at hvalid
    simp only [Layout.IsBare, List.forall_mem_cons] at hbare
    rw [Layout.text_cons, Layout.pieces_cons, List.append_assoc, List.append_assoc,
      pieces_lexeme hvalid.1, pieces_gap hbare.1, ih hvalid.2 hbare.2]
    simp

/-! ## Taking comments out -/

/-- A line break in a gap. -/
def Filler.lineBreak : Filler := .blank '\n' (by decide)

/-- A space. -/
def Filler.space : Filler := .blank ' ' (by decide)

/-- What a piece of a gap leaves behind when comments are taken out. -/
def Filler.bare : Filler → Gap
  | .blank c h => [.blank c h]
  | .lineComment _ _ => [.lineBreak]
  | .blockComment body _ =>
    if body.count '\n' = 0 then [.blank ' ' (by decide)]
    else List.replicate (body.count '\n') .lineBreak

@[simp] theorem Filler.text_lineBreak : Filler.lineBreak.text = ['\n'] := rfl

/-- A gap without its comments. -/
def Gap.bare (gap : Gap) : Gap := gap.flatMap Filler.bare

/-- A layout without its comments. -/
def Layout.bare (l : Layout) : Layout := l.map fun p => (p.1, p.2.bare)

theorem Gap.text_append (gap gap' : Gap) : Gap.text (gap ++ gap') = gap.text ++ gap'.text := by
  simp [Gap.text]

theorem Gap.text_replicate (n : Nat) :
    Gap.text (List.replicate n .lineBreak) = List.replicate n '\n' := by
  induction n with
  | zero => rfl
  | succ n ih => rw [List.replicate_succ, Gap.text_cons, ih]; rfl

theorem Gap.bare_cons (f : Filler) (gap : Gap) : Gap.bare (f :: gap) = f.bare ++ gap.bare := rfl

theorem Filler.bare_isBare (f : Filler) : Gap.IsBare f.bare := by
  cases f with
  | blank c h => simpa [Gap.IsBare, Filler.bare, Filler.text] using h
  | lineComment body h => simp [Gap.IsBare, Filler.bare, Token.isLayout]
  | blockComment body h =>
    unfold Gap.IsBare Filler.bare
    dsimp only
    split
    · simp [Filler.text, Token.isLayout]
    · rw [Gap.text_replicate]
      intro c hc
      rw [List.eq_of_mem_replicate hc]
      rfl

theorem Gap.bare_isBare (gap : Gap) : gap.bare.IsBare := by
  induction gap with
  | nil => simp [Gap.bare, Gap.IsBare]
  | cons f gap ih =>
    rw [Gap.bare_cons, Gap.IsBare, Gap.text_append]
    exact List.forall_mem_append.2 ⟨f.bare_isBare, ih⟩

theorem Layout.bare_isBare (l : Layout) : l.bare.IsBare := by
  intro p hp
  obtain ⟨q, -, rfl⟩ := List.mem_map.1 hp
  exact q.2.bare_isBare

@[simp] theorem Layout.lexemes_bare (l : Layout) : l.bare.lexemes = l.lexemes := by
  simp [Layout.bare, Layout.lexemes]

theorem blockCommentTail_of_closeComment? {body : List Char} (rest : List Char)
    (h : Token.closeComment? (body ++ ['*', '/']) = some []) :
    blockCommentTail (body ++ '*' :: '/' :: rest) =
      (List.replicate (body.count '\n') '\n', rest) := by
  induction body with
  | nil => rfl
  | cons c body ih =>
    -- the comment is not closed in front of its end
    have hopen : ∀ rest', c = '*' → body ++ ['*', '/'] = '/' :: rest' → False := by
      rintro rest' rfl heq
      rw [List.cons_append, heq] at h
      cases h
      simpa using congrArg List.length heq
    rw [List.cons_append, Token.closeComment?] at h
    · rw [List.cons_append, blockCommentTail]
      · rw [ih h]
        by_cases hc : c = '\n'
        · simp [hc, List.replicate_succ]
        · simp [hc]
      · rintro rest' rfl heq
        cases body with
        | nil => cases heq
        | cons d body =>
          cases heq
          exact hopen _ rfl rfl
    · exact hopen

theorem stripComments_inert {cs : List Char} (h : ∀ c ∈ cs, IsInert c) (rest : List Char) :
    stripComments (cs ++ rest) = cs ++ stripComments rest := by
  induction cs with
  | nil => rfl
  | cons c cs ih =>
    rw [List.forall_mem_cons] at h
    rw [List.cons_append, stripComments, if_neg (by simp [h.1.1]), ih h.2, List.cons_append]
    · rintro rest' rfl; exact absurd rfl h.1.2
    · rintro rest' rfl; exact absurd rfl h.1.2

theorem stripComments_filler (f : Filler) (rest : List Char) :
    stripComments (f.text ++ rest) = Gap.text f.bare ++ stripComments rest := by
  cases f with
  | blank c h =>
    have hc : ∀ d ∈ [c], IsInert d := by simpa using isInert_of_isLayout h
    exact stripComments_inert hc rest
  | lineComment body h =>
    simp only [Filler.text, List.cons_append, List.append_assoc, List.nil_append]
    rw [stripComments, Token.dropWhile_lineBreak_append h, List.dropWhile_cons_of_neg (by simp)]
    have hbreak : ∀ c ∈ ['\n'], IsInert c := by simp [IsInert, isQuote]
    exact stripComments_inert hbreak rest
  | blockComment body h =>
    simp only [Filler.text, List.cons_append, List.append_assoc, List.nil_append]
    rw [stripComments, blockCommentTail_of_closeComment? rest h]
    unfold commentTrace Filler.bare
    by_cases hcount : body.count '\n' = 0
    · simp [hcount, Filler.text]
    · simp [hcount, Gap.text_replicate]

/-- **Only blanks stay** of a gap. -/
theorem stripComments_gap (gap : Gap) (rest : List Char) :
    stripComments (gap.text ++ rest) = gap.bare.text ++ stripComments rest := by
  induction gap with
  | nil => rfl
  | cons f gap ih =>
    rw [Gap.text_cons, List.append_assoc, stripComments_filler, ih, Gap.bare_cons,
      Gap.text_append, List.append_assoc]

theorem stripComments_lexeme {x : Lexeme} (h : x.Valid) (rest : List Char) :
    stripComments (x.text ++ rest) = x.text ++ stripComments rest := by
  cases hliteral : x.isLiteral with
  | false => exact stripComments_inert (x.isInert h hliteral) rest
  | true =>
    obtain ⟨quote, body, hquote, htext, -, htail⟩ := x.exists_literal h hliteral
    rw [htext, List.cons_append, stripComments, if_pos hquote, htail rest]
    · rintro rest' rfl
      cases hquote
    · rintro rest' rfl
      cases hquote

/-- **Comments stand in gaps only.** -/
theorem stripComments_text {l : Layout} (hvalid : ∀ x ∈ l.lexemes, x.Valid) (rest : List Char) :
    stripComments (l.text ++ rest) = l.bare.text ++ stripComments rest := by
  induction l with
  | nil => rfl
  | cons p l ih =>
    obtain ⟨x, gap⟩ := p
    simp only [Layout.lexemes, List.map_cons, List.forall_mem_cons] at hvalid
    rw [Layout.text_cons, List.append_assoc, List.append_assoc, stripComments_lexeme hvalid.1,
      stripComments_gap, ih hvalid.2]
    simp [Layout.bare]

/-! ### Line breaks -/

theorem Filler.lineBreaks_bare (f : Filler) : lineBreaks (Gap.text f.bare) = lineBreaks f.text := by
  cases f with
  | blank c h => simp [Filler.bare, Filler.text]
  | lineComment body h =>
    rw [Filler.bare, Gap.text_cons, text_lineBreak]
    simp [Filler.text, lineBreaks, List.count_eq_zero_of_not_mem h]
  | blockComment body h =>
    unfold Filler.bare
    by_cases hcount : body.count '\n' = 0
    · simp [hcount, Filler.text, lineBreaks]
    · simp [hcount, Filler.text, lineBreaks, Gap.text_replicate]

theorem lineBreaks_append (cs ds : List Char) :
    lineBreaks (cs ++ ds) = lineBreaks cs + lineBreaks ds := List.count_append

theorem Gap.lineBreaks_bare (gap : Gap) : lineBreaks gap.bare.text = lineBreaks gap.text := by
  induction gap with
  | nil => rfl
  | cons f gap ih =>
    rw [Gap.bare_cons, Gap.text_append, Gap.text_cons, lineBreaks_append, lineBreaks_append, ih,
      f.lineBreaks_bare]

/-- **Every lexeme keeps its line.** -/
theorem Layout.lineBreaks_bare (l : Layout) : lineBreaks l.bare.text = lineBreaks l.text := by
  induction l with
  | nil => rfl
  | cons p l ih =>
    obtain ⟨x, gap⟩ := p
    have hcons : Layout.bare ((x, gap) :: l) = (x, gap.bare) :: Layout.bare l := rfl
    rw [hcons, Layout.text_cons, Layout.text_cons]
    simp only [lineBreaks_append, ih, gap.lineBreaks_bare]

/-! ### Lexemes apart -/

theorem Filler.bare_ne_nil (f : Filler) : f.bare ≠ [] := by
  cases f with
  | blank => simp [Filler.bare]
  | lineComment => simp [Filler.bare]
  | blockComment body h =>
    unfold Filler.bare
    dsimp only
    split
    · simp
    · next h => simpa using h

/-- The first character of a gap without its comments is a blank. -/
theorem Gap.head?_bare {gap : Gap} {cs : List Char} (h : gap ≠ []) :
    ∃ c, (gap.bare.text ++ cs).head? = some c ∧ Token.isLayout c = true := by
  obtain ⟨f, gap, rfl⟩ := List.exists_cons_of_ne_nil h
  obtain ⟨g, gap', hbare⟩ := List.exists_cons_of_ne_nil f.bare_ne_nil
  have hlayout := f.bare_isBare
  rw [hbare, Gap.IsBare] at hlayout
  rw [Gap.bare_cons, hbare]
  cases g with
  | blank c hc => exact ⟨c, rfl, hc⟩
  | lineComment body hbody => exact absurd (hlayout '/' (by simp [Filler.text])) (by decide)
  | blockComment body hbody => exact absurd (hlayout '/' (by simp [Filler.text])) (by decide)

/-- **Lexemes that stand apart still do** without the comments between them. -/
theorem Layout.Apart.bare {l : Layout} {after after' : List Char}
    (hvalid : ∀ x ∈ l.lexemes, x.Valid) (h : l.Apart after)
    (hafter : after'.head? = after.head? ∨ ∃ c, after'.head? = some c ∧ Token.isLayout c = true) :
    l.bare.Apart after' := by
  induction l with
  | nil => trivial
  | cons p l ih =>
    obtain ⟨x, gap⟩ := p
    simp only [Layout.lexemes, List.map_cons, List.forall_mem_cons] at hvalid
    refine ⟨?_, ih hvalid.2 h.2⟩
    obtain ⟨hfirst, -⟩ := h
    -- what comes after the lexeme begins as before, or with a blank
    have hhead : (gap.bare.text ++ (Layout.text (Layout.bare l) ++ after')).head? =
        (gap.text ++ (Layout.text l ++ after)).head? ∨
        ∃ c, (gap.bare.text ++ (Layout.text (Layout.bare l) ++ after')).head? = some c ∧
          Token.isLayout c = true := by
      cases gap with
      | cons f gap => exact .inr (Gap.head?_bare (by simp))
      | nil =>
        cases l with
        | nil => exact hafter
        | cons q l =>
          have hne := (hvalid.2 q.1 (by simp)).text_ne_nil
          obtain ⟨c, cs, hq⟩ := List.exists_cons_of_ne_nil hne
          left
          simp [Layout.bare, Layout.text, Gap.bare, hq]
    rcases hhead with hhead | ⟨c, hc, hlayout⟩
    · intro c hc
      exact hfirst c (hhead ▸ hc)
    · intro d hd
      change d ∈ (gap.bare.text ++ (Layout.text (Layout.bare l) ++ after')).head? at hd
      rw [hc] at hd
      cases hd
      exact x.extendsWith_of_isLayout hlayout

/-! ## Plain layouts -/

namespace Layout

/-- **A layout of blanks and whole lexemes** that stand apart in front of the text `after`. -/
structure Plain (l : Layout) (after : List Char) : Prop where
  valid : ∀ x ∈ l.lexemes, x.Valid
  bare : l.IsBare
  apart : l.Apart after

instance (l : Layout) (after : List Char) : Decidable (l.Plain after) :=
  have : Decidable l.IsBare :=
    inferInstanceAs (Decidable (∀ p ∈ l, ∀ c ∈ p.2.text, Token.isLayout c = true))
  decidable_of_iff ((∀ x ∈ l.lexemes, x.Valid) ∧ l.IsBare ∧ l.Apart after)
    ⟨fun h => ⟨h.1, h.2.1, h.2.2⟩, fun h => ⟨h.valid, h.bare, h.apart⟩⟩

variable {l l' : Layout} {x : Lexeme} {gap : Gap} {after : List Char}

theorem lexemes_append (l l' : Layout) : lexemes (l ++ l') = l.lexemes ++ l'.lexemes := by
  simp [lexemes]

theorem exists_append {xs ys : List Lexeme} (h : l.lexemes = xs ++ ys) :
    ∃ l₁ l₂ : Layout, l = l₁ ++ l₂ ∧ l₁.lexemes = xs ∧ l₂.lexemes = ys := List.map_eq_append_iff.1 h

theorem exists_cons {xs : List Lexeme} (h : l.lexemes = x :: xs) :
    ∃ (gap : Gap) (l' : Layout), l = (x, gap) :: l' ∧ l'.lexemes = xs := by
  obtain ⟨⟨y, gap⟩, l', rfl, rfl, hxs⟩ := List.map_eq_cons_iff.1 h
  exact ⟨gap, l', rfl, hxs⟩

theorem lexemes_eq_nil (h : l.lexemes = []) : l = [] := List.map_eq_nil_iff.1 h

theorem apart_append : (Layout.Apart (l ++ l') after) ↔ l.Apart (l'.text ++ after) ∧ l'.Apart after := by
  induction l with
  | nil => simp [Apart]
  | cons p l ih =>
    obtain ⟨x, gap⟩ := p
    simp [Apart, ih, and_assoc]

theorem plain_append :
    Plain (l ++ l') after ↔ Plain l (l'.text ++ after) ∧ Plain l' after := by
  constructor
  · rintro ⟨hvalid, hbare, hapart⟩
    rw [lexemes_append, List.forall_mem_append] at hvalid
    rw [IsBare, List.forall_mem_append] at hbare
    rw [apart_append] at hapart
    exact ⟨⟨hvalid.1, hbare.1, hapart.1⟩, hvalid.2, hbare.2, hapart.2⟩
  · rintro ⟨⟨hvalid, hbare, hapart⟩, hvalid', hbare', hapart'⟩
    refine ⟨?_, ?_, apart_append.2 ⟨hapart, hapart'⟩⟩
    · rw [lexemes_append, List.forall_mem_append]
      exact ⟨hvalid, hvalid'⟩
    · rw [IsBare, List.forall_mem_append]
      exact ⟨hbare, hbare'⟩

theorem plain_cons : Plain ((x, gap) :: l) after ↔
    x.Valid ∧ gap.IsBare ∧
      (∀ c ∈ (gap.text ++ (l.text ++ after)).head?, x.extendsWith c = false) ∧ Plain l after := by
  constructor
  · rintro ⟨hvalid, hbare, hapart⟩
    rw [lexemes, List.map_cons, List.forall_mem_cons] at hvalid
    rw [IsBare, List.forall_mem_cons] at hbare
    exact ⟨hvalid.1, hbare.1, hapart.1, hvalid.2, hbare.2, hapart.2⟩
  · rintro ⟨hx, hgap, hnext, hvalid, hbare, hapart⟩
    refine ⟨?_, ?_, hnext, hapart⟩
    · rw [lexemes, List.map_cons, List.forall_mem_cons]
      exact ⟨hx, hvalid⟩
    · rw [IsBare, List.forall_mem_cons]
      exact ⟨hgap, hbare⟩

theorem plain_nil : Plain [] after := ⟨by simp [lexemes], by simp [IsBare], trivial⟩

theorem Plain.fits (h : l.Plain after) : l.Fits after := h.apart.fits h.valid

theorem Plain.pieces_append (h : l.Plain after) :
    FluentBuilders.pieces (l.text ++ after) = l.pieces ++ FluentBuilders.pieces after :=
  pieces_text h.valid h.bare after

/-- Lexemes that stand apart in front of a text do so at the end of all text. -/
theorem Plain.at_end (h : l.Plain after) : l.Plain [] := by
  refine ⟨h.valid, h.bare, ?_⟩
  have hapart := h.apart
  clear h
  induction l with
  | nil => trivial
  | cons p l ih =>
    obtain ⟨x, gap⟩ := p
    refine ⟨fun c hc => hapart.1 c ?_, ih hapart.2⟩
    rw [List.append_nil] at hc
    rw [← List.append_assoc, List.head?_append, Option.mem_def.1 hc]
    rfl

/-- A gap and a layout of their own are cut into their own pieces. -/
theorem Plain.pieces_gap (h : l.Plain after) (hgap : gap.IsBare) :
    FluentBuilders.pieces (gap.text ++ l.text) = gap.text.map .char ++ l.pieces := by
  have := h.at_end.pieces_append
  rw [List.append_nil] at this
  rw [FluentBuilders.pieces_gap hgap, this]
  simp [FluentBuilders.pieces]

/-- A layout of lexemes begins with the first character of its first lexeme. -/
theorem Plain.head?_text (h : Plain ((x, gap) :: l) after) (rest : List Char) :
    (text ((x, gap) :: l) ++ rest).head? = x.text.head? := by
  obtain ⟨c, cs, hx⟩ := List.exists_cons_of_ne_nil (plain_cons.1 h).1.text_ne_nil
  simp [hx]

theorem Plain.text_ne_nil (h : l.Plain after) (hl : l ≠ []) : l.text ≠ [] := by
  obtain ⟨⟨y, gap'⟩, l, rfl⟩ := List.exists_cons_of_ne_nil hl
  obtain ⟨c, cs, hy⟩ := List.exists_cons_of_ne_nil (plain_cons.1 h).1.text_ne_nil
  simp [hy]

theorem Apart.congr {after' : List Char} (h : l.Apart after) (hhead : after.head? = after'.head?) :
    l.Apart after' := by
  induction l with
  | nil => trivial
  | cons p l ih =>
    refine ⟨?_, ih h.2⟩
    simpa only [List.head?_append, ← hhead] using h.1

/-- The gap after the last lexeme does not matter. -/
theorem Plain.with_gap {gap' : Gap} {after' : List Char} (h : Plain (l ++ [(x, gap)]) after)
    (hgap' : gap'.IsBare) (hnext : ∀ c ∈ (gap'.text ++ after').head?, x.extendsWith c = false) :
    Plain (l ++ [(x, gap')]) after' := by
  obtain ⟨hplain, hlast⟩ := plain_append.1 h
  have hx := (plain_cons.1 hlast).1
  obtain ⟨c, cs, htext⟩ := List.exists_cons_of_ne_nil hx.text_ne_nil
  refine plain_append.2 ⟨⟨hplain.valid, hplain.bare, hplain.apart.congr (by simp [htext])⟩, ?_⟩
  exact plain_cons.2 ⟨hx, hgap', by simpa using hnext, plain_nil⟩

theorem Plain.drop_gap (h : Plain (l ++ [(x, gap)]) after) : Plain (l ++ [(x, [])]) [] :=
  h.with_gap (by simp [Gap.IsBare]) (by simp)

/-- **Blanks at the end of a text** are taken off its last lexeme. -/
theorem Plain.exists_trimEnd (h : l.Plain after) (hl : l ≠ []) :
    ∃ l' : Layout, l'.lexemes = l.lexemes ∧ l'.Plain [] ∧
      (∃ blanks, Text.AllBlank blanks ∧ l.text = l'.text ++ blanks) ∧
      ∀ c ∈ l'.text.getLast?, Text.isBlank c = false := by
  rcases List.eq_nil_or_concat l with rfl | ⟨l, p, rfl⟩
  · exact absurd rfl hl
  obtain ⟨x, g⟩ := p
  rw [List.concat_eq_append] at h ⊢
  obtain ⟨hx, hg, -, -⟩ := plain_cons.1 (plain_append.1 h).2
  refine ⟨l ++ [(x, [])], by simp [lexemes], h.drop_gap, ⟨g.text, hg.allBlank, by simp⟩, ?_⟩
  intro d hd
  have hlast : (text (l ++ [(x, [])])).getLast? = x.text.getLast? := by
    simp [List.getLast?_append, List.getLast?_eq_some_getLast hx.text_ne_nil]
  exact hx.isBlank_getLast? d (hlast ▸ hd)

/-- **A layout without the blanks around it**: its last gap is left out. -/
theorem Plain.trim_concat (h : Plain (l ++ [(x, gap)]) after) :
    Text.trim (text (l ++ [(x, gap)])) = text (l ++ [(x, [])]) := by
  obtain ⟨hx, hg, -, -⟩ := plain_cons.1 (plain_append.1 h).2
  have htext : text (l ++ [(x, gap)]) = text (l ++ [(x, [])]) ++ gap.text := by simp
  rw [htext, Text.trim_append_blank hg.allBlank, Text.trim_eq_self h.drop_gap.fits.isBlank_head?]
  intro c hc
  have hlast : (text (l ++ [(x, [])])).getLast? = x.text.getLast? := by
    simp [List.getLast?_append, List.getLast?_eq_some_getLast hx.text_ne_nil]
  exact hx.isBlank_getLast? c (hlast ▸ hc)

/-- **A keyword has a gap after it**, in front of a lexeme. -/
theorem Plain.keyword_gap {w : String} (h : Plain ((.keyword w, gap) :: l) after) (hl : l ≠ []) :
    gap.text ≠ [] := by
  intro hnil
  obtain ⟨-, -, hnext, hplain⟩ := plain_cons.1 h
  obtain ⟨⟨y, gap'⟩, l, rfl⟩ := List.exists_cons_of_ne_nil hl
  have hvalid := (plain_cons.1 hplain).1
  obtain ⟨c, cs, hy⟩ := List.exists_cons_of_ne_nil hvalid.text_ne_nil
  have hc := hnext c (by simp [hnil, hy])
  have hblank := hvalid.isBlank_head? c (by rw [hy]; rfl)
  simp only [Lexeme.extendsWith, Bool.not_eq_false', Bool.or_eq_true, beq_iff_eq] at hc
  rcases hc with hc | rfl
  · rw [Text.isBlank_of_isLayout hc] at hblank
    cases hblank
  · cases hliteral : y.isLiteral with
    | true =>
      obtain ⟨quote, body, hquote, htext, -⟩ := y.exists_literal hvalid hliteral
      rw [hy] at htext
      cases htext
      cases hquote
    | false => exact (y.isInert hvalid hliteral '/' (by rw [hy]; exact List.mem_cons_self)).2 rfl

/-- **A word has a gap after it**, in front of a lexeme that begins as a word goes on. -/
theorem Plain.word_gap {w : String} {y : Lexeme} {gap' : Gap}
    (h : Plain ((.token (.word w), gap) :: (y, gap') :: l) after)
    (hy : ∃ c ∈ y.text.head?, Text.isIdentifierPart c = true) : gap.text ≠ [] := by
  intro hnil
  obtain ⟨c, hc, hpart⟩ := hy
  obtain ⟨-, -, hnext, hplain⟩ := plain_cons.1 h
  have hhead := hplain.head?_text after
  have hfalse : Text.isIdentifierPart c = false := by
    refine hnext c ?_
    rw [hnil, List.nil_append, hhead]
    exact hc
  rw [hpart] at hfalse
  cases hfalse

end Layout

end FluentBuilders
