import FluentBuilders.Proofs.Source.Keys
import FluentBuilders.Proofs.Source.LineBreaks
import FluentBuilders.Proofs.Source.Splitting

/-!
# Proofs/Source/Chunks — the body of an object type is cut between its members

`splitMembers` cuts a body at separators and at line breaks.  Every chunk of a body that the grammar
reads is the text of some of its members, and no member is lost or cut in two
(`splitMembers_rows`).
-/

namespace FluentBuilders

open Piece Grammar

/-! ## The text of a run -/

/-- **The text of members next to each other**, with blanks between their tokens. -/
def RunText (text : List Char) (ms : List Member) : Prop :=
  ∃ (gap : Gap) (l : Layout) (ts : List Token), text = gap.text ++ l.text ∧ gap.IsBare ∧
    l.Plain [] ∧ l.lexemes = lexemesOf ts ∧ Evident ts ∧ Run ts ms

namespace Grammar

theorem Run.nest {ts : List Token} {ms : List Member} (h : Run ts ms) :
    Nest true Unseparated 0 (lexemesOf ts) 0 := by
  induction h with
  | nil => exact .nil 0
  | cons h _ ih => exact nest_append (h.nest 0) ih

end Grammar

/-! ## At separators -/

/-- The separators of members. -/
def separatorChars : List Char := [';', ',']

/-- A character that separates no members. -/
def joinsMembers (c : Char) : Bool := !separatorChars.contains c

theorem passesItems_joinsMembers : PassesItems joinsMembers := by
  intro c hcomma hsemicolon
  simp [joinsMembers, separatorChars, hcomma, hsemicolon]

/-- A run between gaps is passed over. -/
theorem splitFrom_run {ts : List Token} {ms : List Member} (h : Run ts ms) {l : Layout}
    {after : List Char} {gap : Gap} (hl : l.lexemes = lexemesOf ts) (hplain : l.Plain after)
    (hgap : gap.IsBare) (rest : List Piece) :
    splitFrom true separatorChars 0 false (gap.text.map .char ++ (l.pieces ++ rest)) =
      (splitFrom true separatorChars 0 false rest).prepend (gap.text ++ l.text) := by
  have hpasses := passesItems_joinsMembers
  have hwalk := walk_unseparated hpasses.passesTypes (hl ▸ h.nest) (hl ▸ equals_notMem_lexemesOf ts)
    hplain (gapsOutside_of_bare (fun _ => hpasses.layout) hplain.bare 0)
  have hgaps := walk_gap hgap (fun _ => hpasses.layout) hwalk
  have hquiet : ∀ c, joinsMembers c = true → separatorChars.contains c = false := by
    simp [joinsMembers]
  have := splitFrom_walk hgaps hquiet (by decide) rest
  rw [List.append_assoc, textOf_gap, Layout.textOf_pieces] at this
  exact this

theorem splitFrom_separator {c : Char} (hc : c = ';' ∨ c = ',') (ps : List Piece) :
    splitFrom true separatorChars 0 false (.char c :: ps) =
      (splitFrom true separatorChars 0 false ps).cut c := by
  rw [splitFrom.eq_def]
  rcases hc with rfl | rfl <;> rfl

/-- **A body is cut into its rows.** -/
theorem parts_rows {ts : List Token} {mss : List (List Member)} (h : Rows ts mss) {l : Layout}
    {after : List Char} {gap : Gap} (hl : l.lexemes = lexemesOf ts) (hplain : l.Plain after)
    (hgap : gap.IsBare) (hevident : Evident ts) :
    List.Forall₂ RunText
      (splitFrom true separatorChars 0 false (gap.text.map .char ++ l.pieces)).parts mss := by
  induction h generalizing l gap with
  | @last ts ms hrun =>
    have := splitFrom_run hrun hl hplain hgap []
    rw [List.append_nil] at this
    rw [this]
    exact .cons ⟨gap, l, ts, by simp [Split.prepend, splitFrom], hgap, hplain.at_end, hl, hevident,
      hrun⟩ .nil
  | @more xs ms ys mss sep hsep hrun _ ih =>
    rw [lexemesOf, List.map_append, List.map_cons] at hl
    obtain ⟨l₁, rest, rfl, hl₁, hrest⟩ := Layout.exists_append hl
    obtain ⟨gap', l₂, rfl, hl₂⟩ := Layout.exists_cons hrest
    obtain ⟨hplain₁, hplain₂⟩ := Layout.plain_append.1 hplain
    obtain ⟨-, hgap', -, hplain₂⟩ := Layout.plain_cons.1 hplain₂
    have hmark : holdsType (.mark sep) = false := by rcases hsep with rfl | rfl <;> rfl
    obtain ⟨c, hc, htext⟩ : ∃ c, (c = ';' ∨ c = ',') ∧ sep.text = [c] := by
      rcases hsep with rfl | rfl
      · exact ⟨';', .inl rfl, rfl⟩
      · exact ⟨',', .inr rfl, rfl⟩
    have hpieces : (Lexeme.token (.mark sep)).pieces = [.char c] := by
      rcases hsep with rfl | rfl <;> (cases htext; rfl)
    have hcut := ih hl₂ hplain₂ hgap' (hevident.right hmark)
    rw [Layout.pieces_append, splitFrom_run hrun hl₁ hplain₁ hgap, Layout.pieces_cons, hpieces,
      List.singleton_append, splitFrom_separator hc]
    simp only [Split.parts, Split.cut, Split.prepend, List.append_nil, List.map_cons]
    exact .cons ⟨gap, l₁, xs, rfl, hgap, hplain₁.at_end, hl₁, hevident.left, hrun⟩ hcut

/-! ## At line breaks -/

/-- A character that goes on with the line. -/
def keepsLine (c : Char) : Bool := c != '\n'

theorem passesTypes_keepsLine : PassesTypes keepsLine := fun _ _ _ _ h => by simpa [keepsLine] using h

/-- **A line break outside brackets** in a gap and a layout after it: the text before it, and the gap
and the layout after it. -/
inductive BreakAt (d : Nat) (gap : Gap) (l : Layout) (ts : List Token) :
    List Char → Gap → Layout → List Token → Prop
  | early {g g' : Gap} (hd : d = 0) (hgap : gap = g ++ .lineBreak :: g') :
      BreakAt d gap l ts g.text g' l ts
  | late {u v : List Token} {x : Token} {l₁ l₂ : Layout} {g g' : Gap}
      (hl : l = l₁ ++ (.token x, g ++ .lineBreak :: g') :: l₂) (hl₁ : l₁.lexemes = lexemesOf u)
      (hl₂ : l₂.lexemes = lexemesOf v) (hts : ts = u ++ x :: v)
      (hdepth : depthAfter d (u ++ [x]) = 0) :
      BreakAt d gap l ts (gap.text ++ (l₁.text ++ (x.text ++ g.text))) g' l₂ v

theorem Filler.exists_blank {f : Filler} {gap : Gap} (h : Gap.IsBare (f :: gap)) :
    (∃ c h, f = .blank c h) ∧ gap.IsBare := by
  rw [Gap.IsBare, Gap.text_cons, List.forall_mem_append] at h
  refine ⟨?_, h.2⟩
  cases f with
  | blank c hc => exact ⟨c, hc, rfl⟩
  | lineComment body => exact absurd (h.1 '/' (by simp [Filler.text])) (by decide)
  | blockComment body => exact absurd (h.1 '/' (by simp [Filler.text])) (by decide)

section

variable {d e : Nat} {gap : Gap}

/-- The lines of pieces, at a depth of brackets. -/
abbrev linesFrom (d : Nat) (ps : List Piece) : Split := splitFrom true ['\n'] d false ps

theorem linesFrom_walk {ps : List Piece} (h : Walk true keepsLine d false ps e false)
    (rest : List Piece) : linesFrom d (ps ++ rest) = (linesFrom e rest).prepend (textOf ps) :=
  splitFrom_walk h (by simp [keepsLine]) (by decide) rest

/-- A gap is passed over, or has a line break outside brackets. -/
theorem linesFrom_gap (hgap : gap.IsBare) (ps : List Piece) :
    linesFrom d (gap.text.map .char ++ ps) = (linesFrom d ps).prepend gap.text ∨
      d = 0 ∧ ∃ g g' : Gap, gap = g ++ .lineBreak :: g' ∧
        linesFrom d (gap.text.map .char ++ ps) =
          ((linesFrom 0 (g'.text.map .char ++ ps)).cut '\n').prepend g.text := by
  induction gap with
  | nil => exact .inl rfl
  | cons f gap ih =>
    obtain ⟨⟨c, hc, rfl⟩, hgap'⟩ := Filler.exists_blank hgap
    by_cases hbreak : d = 0 ∧ c = '\n'
    · obtain ⟨rfl, rfl⟩ := hbreak
      refine .inr ⟨rfl, [], gap, rfl, ?_⟩
      change linesFrom 0 (.char '\n' :: ((Gap.text gap).map .char ++ ps)) = _
      rw [linesFrom, splitFrom.eq_def]
      rfl
    · have hwalk : Walk true keepsLine d false ([c].map .char ++ []) d false := by
        refine walk_plain (by simpa using isPlain_of_isLayout hc) ?_ (.nil d false)
        rintro rfl
        simpa [keepsLine] using hbreak
      have hpass (rest : List Piece) : linesFrom d (.char c :: rest) =
          (linesFrom d rest).prepend [c] := linesFrom_walk hwalk rest
      have hcons (g : Gap) : linesFrom d ((Gap.text (.blank c hc :: g)).map .char ++ ps) =
          (linesFrom d (g.text.map .char ++ ps)).prepend [c] := hpass _
      rw [hcons]
      rcases ih hgap' with heq | ⟨hd, g, g', rfl, heq⟩
      · exact .inl (by rw [heq, Split.prepend_prepend]; rfl)
      · refine .inr ⟨hd, .blank c hc :: g, g', rfl, ?_⟩
        rw [heq, Split.prepend_prepend]
        rfl

/-- **A text is one line, or is cut at its first line break** outside brackets. -/
theorem exists_break {ts : List Token} {l : Layout} {after : List Char}
    (hnest : Nest true Unseparated d (lexemesOf ts) e) (hl : l.lexemes = lexemesOf ts)
    (hplain : l.Plain after) (hgap : gap.IsBare) :
    linesFrom d (gap.text.map .char ++ l.pieces) = ⟨gap.text ++ l.text, []⟩ ∨
      ∃ before g' l' ts', BreakAt d gap l ts before g' l' ts' ∧
        linesFrom d (gap.text.map .char ++ l.pieces) =
          ((linesFrom 0 (g'.text.map .char ++ l'.pieces)).cut '\n').prepend before := by
  induction ts generalizing d l gap with
  | nil =>
    obtain rfl := Layout.lexemes_eq_nil hl
    rcases linesFrom_gap (d := d) hgap (Layout.pieces []) with heq | ⟨hd, g, g', hg, heq⟩
    · exact .inl (by rw [heq]; rfl)
    · exact .inr ⟨_, _, _, _, .early hd hg, heq⟩
  | cons x ts ih =>
    obtain ⟨g, l, rfl, hl₂⟩ := Layout.exists_cons hl
    obtain ⟨hx, hg, -, hplain₂⟩ := Layout.plain_cons.1 hplain
    obtain ⟨hnest₂, hclose, hquiet⟩ := hnest.cons_inv
    rcases linesFrom_gap (d := d) hgap (Layout.pieces ((.token x, g) :: l)) with
      heq | ⟨hd, g₁, g', hg', heq⟩
    · have hwalk : Walk true keepsLine d false ((Lexeme.token x).pieces ++ [])
          ((Lexeme.token x).depthAfter true d) false :=
        walk_lexeme hx (by simp) rfl
          (fun hd => passesTypes_keepsLine.isQuiet hx (hquiet hd) (by simp)) hclose (.nil _ _)
      rw [List.append_nil] at hwalk
      rw [heq, Layout.pieces_cons, linesFrom_walk hwalk, Lexeme.textOf_pieces]
      rcases ih hnest₂ hl₂ hplain₂ hg with hline | ⟨before, g', l', ts', hbreak, hcut⟩
      · exact .inl (by rw [hline]; simp [Split.prepend])
      · refine .inr ⟨gap.text ++ (x.text ++ before), g', l', ts', ?_, ?_⟩
        · cases hbreak with
          | early hd hg =>
            have := @BreakAt.late d gap ((.token x, g) :: l) (x :: ts) [] ts x [] l _ _
              (by rw [hg]; rfl) rfl hl₂ rfl hd
            exact this
          | @late u _ y l₁ _ g₁ _ hl hl₁ hl₂ hts hdepth =>
            have := @BreakAt.late d gap ((.token x, g) :: l) (x :: ts) (x :: u) _ y
              ((.token x, g) :: l₁) _ g₁ _ (by rw [hl]; rfl)
              (by simpa [Layout.lexemes] using hl₁) hl₂ (by rw [hts]; rfl) hdepth
            simpa [Lexeme.text] using this
        · rw [hcut, Split.prepend_prepend, Split.prepend_prepend, List.append_assoc]
          rfl
    · exact .inr ⟨_, _, _, _, .early hd hg', heq⟩

end

/-! ### Cuts after the first -/

theorem Gap.text_lineBreak (gap : Gap) : Gap.text (.lineBreak :: gap) = '\n' :: gap.text := rfl

theorem Gap.isBare_append {g g' : Gap} : Gap.IsBare (g ++ g') ↔ g.IsBare ∧ g'.IsBare := by
  rw [Gap.IsBare, Gap.text_append, List.forall_mem_append]
  exact Iff.rfl

/-- The gaps on both sides of a line break. -/
theorem Gap.IsBare.at_lineBreak {g g' : Gap} (h : Gap.IsBare (g ++ .lineBreak :: g')) :
    g.IsBare ∧ g'.IsBare := by
  rw [List.append_cons] at h
  obtain ⟨hg, hg'⟩ := Gap.isBare_append.1 h
  exact ⟨(Gap.isBare_append.1 hg).1, hg'⟩

section

variable {gap g' : Gap} {l l' : Layout} {ts ts' : List Token} {before : List Char}

/-- The text up to a line break has blanks between its tokens, as the whole has. -/
theorem Layout.Plain.to_lineBreak {x : Lexeme} {g : Gap} {l₁ l₂ : Layout} {after : List Char}
    (h : Layout.Plain (l₁ ++ (x, g ++ .lineBreak :: g') :: l₂) after) :
    Layout.Plain (l₁ ++ [(x, g)]) [] ∧ g.IsBare := by
  rw [List.append_cons] at h
  have hfirst := (Layout.plain_append.1 h).1
  have hg := (Layout.plain_cons.1 (Layout.plain_append.1 hfirst).2).2.1.at_lineBreak.1
  refine ⟨hfirst.at_end.with_gap hg fun c hc => ?_, hg⟩
  rw [List.append_nil] at hc
  exact Lexeme.extendsWith_of_isLayout _ (hg c (List.mem_of_head? hc))

/-- A line break after a line break. -/
theorem BreakAt.trans {d : Nat} {g'' : Gap} {l'' : Layout} {ts'' : List Token}
    {before' : List Char} (h : BreakAt d gap l ts before g' l' ts')
    (hs : BreakAt 0 g' l' ts' before' g'' l'' ts'') :
    BreakAt d gap l ts (before ++ '\n' :: before') g'' l'' ts'' := by
  cases h with
  | @early g _ hd hgap =>
    subst hd
    cases hs with
    | @early g₁ _ _ hgap' =>
      have := @BreakAt.early 0 gap l ts (g ++ .lineBreak :: g₁) g'' rfl (by simp [hgap, hgap'])
      rwa [Gap.text_append, Gap.text_lineBreak] at this
    | late hl hl₁ hl₂ hts hdepth =>
      have := @BreakAt.late 0 gap l ts _ _ _ _ _ _ _ hl hl₁ hl₂ hts hdepth
      rw [hgap, Gap.text_append, Gap.text_lineBreak] at this
      simpa [hgap] using this
  | @late u v x l₁ l₂ g _ hl hl₁ hl₂ hts hdepth =>
    cases hs with
    | @early g₁ _ _ hgap' =>
      have := @BreakAt.late d gap l ts u _ x l₁ _ (g ++ .lineBreak :: g₁) g''
        (by simp [hl, hgap']) hl₁ hl₂ hts hdepth
      rw [Gap.text_append, Gap.text_lineBreak] at this
      simpa using this
    | @late u' v' x' l₁' _ g₁ _ hl' hl₁' hl₂' hts' hdepth' =>
      have := @BreakAt.late d gap l ts (u ++ x :: u') _ x' (l₁ ++ (.token x, g ++ .lineBreak :: g') :: l₁')
        l'' g₁ g'' (by simp [hl, hl']) (by simp [Layout.lexemes] at hl₁ hl₁' ⊢; simp [hl₁, hl₁']) hl₂'
        (by simp [hts, hts']) (by
          have happ : u ++ x :: u' ++ [x'] = (u ++ [x]) ++ (u' ++ [x']) := by simp
          rw [happ, depthAfter_append, hdepth]
          exact hdepth')
      rw [Layout.text_append, Layout.text_cons, Gap.text_append, Gap.text_lineBreak] at this
      simpa [Lexeme.text] using this

/-- **The text before a cut and the text after it** have blanks between their tokens, as the whole
has. -/
theorem BreakAt.plain {d : Nat} (h : BreakAt d gap l ts before g' l' ts') (hgap : gap.IsBare)
    (hplain : l.Plain []) (hl : l.lexemes = lexemesOf ts) :
    g'.IsBare ∧ l'.Plain [] ∧ l'.lexemes = lexemesOf ts' := by
  cases h with
  | early hd hgap' =>
    subst hgap'
    exact ⟨hgap.at_lineBreak.2, hplain, hl⟩
  | late hl' hl₁ hl₂ =>
    subst hl'
    obtain ⟨-, hg, -, hplain₂⟩ := Layout.plain_cons.1 (Layout.plain_append.1 hplain).2
    exact ⟨hg.at_lineBreak.2, hplain₂, hl₂⟩

/-- What comes after a cut nests, as the whole does. -/
theorem BreakAt.nest {d e : Nat} (h : BreakAt d gap l ts before g' l' ts')
    (hnest : Nest true Unseparated d (lexemesOf ts) e) :
    Nest true Unseparated 0 (lexemesOf ts') e := by
  cases h with
  | early hd => exact hd ▸ hnest
  | late _ _ _ hts hdepth =>
    rw [hts, List.append_cons] at hnest
    exact hdepth ▸ nest_of_append hnest

/-- **Any line break outside brackets** cuts a text, as the first one does. -/
theorem exists_breakAt {lines : List (List Char)} {line : List Char} {rest : List (List Char)}
    (hnest : Nest true Unseparated 0 (lexemesOf ts) 0) (hl : l.lexemes = lexemesOf ts)
    (hplain : l.Plain []) (hgap : gap.IsBare) (hne : lines ≠ [])
    (hparts : (linesFrom 0 (gap.text.map .char ++ l.pieces)).parts = lines ++ line :: rest) :
    ∃ g' l' ts', BreakAt 0 gap l ts (joinLines lines) g' l' ts' ∧
      (linesFrom 0 (g'.text.map .char ++ l'.pieces)).parts = line :: rest := by
  induction lines generalizing gap l ts with
  | nil => exact absurd rfl hne
  | cons first lines ih =>
    rcases exists_break hnest hl hplain hgap with hline | ⟨before, g', l', ts', hbreak, hcut⟩
    · rw [hline] at hparts
      simp [Split.parts] at hparts
    rw [hcut] at hparts
    simp only [Split.parts, Split.cut, Split.prepend, List.append_nil, List.map_cons,
      List.cons_append, List.cons.injEq] at hparts
    obtain ⟨rfl, hparts⟩ := hparts
    obtain ⟨hg', hplain', hl'⟩ := hbreak.plain hgap hplain hl
    cases lines with
    | nil => exact ⟨g', l', ts', by simpa [joinLines, List.intercalate] using hbreak, hparts⟩
    | cons second lines =>
      obtain ⟨g'', l'', ts'', hlater, hrest⟩ :=
        ih (hbreak.nest hnest) hl' hplain' hg' (by simp) hparts
      refine ⟨g'', l'', ts'', ?_, hrest⟩
      rw [joinLines_cons _ (by simp)]
      exact hbreak.trans hlater

end

/-! ## Members on lines of their own -/

/-- A text that a type cannot end with is not complete. -/
theorem isComplete_of_needsMore {x : Token} {l : Layout} {g gap : Gap} {after : List Char}
    (hx : needsMore x = true) (hplain : Layout.Plain (l ++ [(Lexeme.token x, g)]) after)
    (hequals : .equals ∉ l.lexemes) (hgap : gap.IsBare) :
    isComplete (gap.text ++ (l.text ++ (x.text ++ g.text))) = false := by
  obtain ⟨hvalid, hg, -, -⟩ := Layout.plain_cons.1 (Layout.plain_append.1 hplain).2
  have hlast := Lexeme.Valid.isBlank_getLast? hvalid
  obtain ⟨c, hc⟩ : ∃ c, x.text.getLast? = some c :=
    ⟨_, List.getLast?_eq_some_getLast (Lexeme.Valid.text_ne_nil hvalid)⟩
  have htrim : Text.trimEnd (gap.text ++ (l.text ++ (x.text ++ g.text))) =
      (gap.text ++ l.text) ++ x.text := by
    rw [← List.append_assoc, ← List.append_assoc]
    refine Text.trimEnd_append_gap (fun d hd => ?_) hg.allBlank
    rw [List.getLast?_append, hc] at hd
    cases hd
    exact hlast c hc
  have hgetLast : ((gap.text ++ l.text) ++ x.text).getLast? = some c := by
    rw [List.getLast?_append, hc]
    rfl
  unfold isComplete
  simp only [htrim, hgetLast, Bool.not_eq_false']
  cases x with
  | word w =>
    have hw : w ∈ trailingOperators := by simpa [needsMore] using hx
    have hend : endsInWord w ((gap.text ++ l.text) ++ w.toList) = true := by
      rw [endsInWord, Bool.and_eq_true]
      refine ⟨List.isSuffixOf_iff_suffix.2 ⟨_, rfl⟩, ?_⟩
      rw [List.length_append, String.length_toList, Nat.add_sub_cancel, List.take_left]
      cases hbefore : (gap.text ++ l.text).getLast? with
      | none => rfl
      | some d =>
        have := hplain.isWord_before_word hequals hgap d hbefore
        simp [this]
    have hany : trailingOperators.any (endsInWord · ((gap.text ++ l.text) ++ w.toList)) = true :=
      List.any_eq_true.2 ⟨w, hw, hend⟩
    simp only [Token.text, hany, Bool.or_true]
  | mark m =>
    by_cases harrow : m = .arrow
    · subst harrow
      have hsuffix : ['=', '>'].isSuffixOf ((gap.text ++ l.text) ++ ['=', '>']) = true :=
        List.isSuffixOf_iff_suffix.2 ⟨_, rfl⟩
      simp only [Token.text, Mark.text, hsuffix, Bool.or_true, Bool.true_or]
    · have hstop : continuesAfter.contains c = true := by
        cases m <;> first | exact absurd rfl harrow | (cases hx; done) | (cases hc; rfl)
      rw [hstop, Bool.true_or, Bool.true_or]
  | _ => cases hx

/-- A first line that begins with a key begins with the tokens of one. -/
theorem opensLine_of_line {gap : Gap} {l : Layout} {ts : List Token} {line : List Char}
    {rest : List (List Char)} (hnest : Nest true Unseparated 0 (lexemesOf ts) 0)
    (hl : l.lexemes = lexemesOf ts) (hplain : l.Plain []) (hgap : gap.IsBare)
    (hevident : Evident ts)
    (hparts : (linesFrom 0 (gap.text.map .char ++ l.pieces)).parts = line :: rest)
    (hstarts : startsMember line = true) : opensLine ts = true := by
  rcases exists_break hnest hl hplain hgap with hline | ⟨before, g', l', ts', hbreak, hcut⟩
  · rw [hline] at hparts
    cases hparts
    exact opensLine_of_startsMember hl hplain hgap hevident hstarts
  · rw [hcut] at hparts
    simp only [Split.parts, Split.cut, Split.prepend, List.append_nil, List.cons.injEq] at hparts
    obtain ⟨rfl, -⟩ := hparts
    cases hbreak with
    | @early g _ _ hgap' =>
      -- a blank line begins with no key
      subst hgap'
      have hnothing : opensLine [] = true := by
        refine opensLine_of_startsMember (l := []) rfl Layout.plain_nil hgap.at_lineBreak.1
          ⟨by simp, .nil⟩ ?_
        rwa [Layout.text_nil, List.append_nil]
      cases hnothing
    | @late u v x l₁ l₂ g _ hl₀ hl₁ hl₂ hts hdepth =>
      subst hl₀ hts
      obtain ⟨hplain₁, -⟩ := hplain.to_lineBreak
      have hlexemes : Layout.lexemes (l₁ ++ [(Lexeme.token x, g)]) = lexemesOf (u ++ [x]) := by
        simp only [Layout.lexemes, lexemesOf, List.map_append] at hl₁ ⊢
        rw [hl₁]
        rfl
      rw [List.append_cons] at hevident ⊢
      have hopens := opensLine_of_startsMember hlexemes hplain₁ hgap hevident.left
        (by simpa [Lexeme.text] using hstarts)
      exact opensLine_append _ hopens

/-- **What is complete in front of a line break** is tokens, and the last of them needs no more. -/
theorem BreakAt.exists_complete {gap g' : Gap} {l l' : Layout} {ts ts' : List Token}
    {before : List Char} (hbreak : BreakAt 0 gap l ts before g' l' ts') (hgap : gap.IsBare)
    (hplain : l.Plain []) (hcomplete : isComplete before = true) :
    ∃ (l₀ : Layout) (u : List Token) (x : Token), before = gap.text ++ l₀.text ∧ l₀.Plain [] ∧
      l₀.lexemes = lexemesOf (u ++ [x]) ∧ ts = (u ++ [x]) ++ ts' ∧ depthAfter 0 (u ++ [x]) = 0 ∧
      needsMore x = false := by
  cases hbreak with
  | early _ hgap' =>
    -- only blanks stand before the line break
    subst hgap'
    have htrim := Text.trimEnd_append hgap.at_lineBreak.1.allBlank []
    rw [List.nil_append] at htrim
    rw [isComplete, htrim] at hcomplete
    cases hcomplete
  | @late u _ x l₁ _ g _ hl hl₁ _ hts hdepth =>
    subst hl hts
    obtain ⟨hplain₁, -⟩ := hplain.to_lineBreak
    have hequals : .equals ∉ l₁.lexemes := hl₁ ▸ equals_notMem_lexemesOf u
    refine ⟨l₁ ++ [(Lexeme.token x, g)], u, x, by simp [Lexeme.text], hplain₁, ?_, by simp, hdepth, ?_⟩
    · simp only [Layout.lexemes, lexemesOf, List.map_append] at hl₁ ⊢
      rw [hl₁]
      rfl
    · by_contra hmore
      rw [Bool.not_eq_false] at hmore
      rw [isComplete_of_needsMore hmore hplain₁ hequals hgap] at hcomplete
      cases hcomplete

/-- Outside brackets, a token that needs no more is in front of no type. -/
theorem holdsType_eq_false {u : List Token} {x : Token} (hdepth : depthAfter 0 (u ++ [x]) = 0)
    (hmore : needsMore x = false) : holdsType x = false := by
  rw [depthAfter_append] at hdepth
  cases x with
  | mark m =>
    cases m <;> first
      | rfl
      | (cases hmore; done)
      | exact absurd hdepth (Nat.succ_ne_zero _)
  | _ => rfl

/-! ## Chunks -/

/-- **A chunk of members**: their text without the blanks around it. -/
def ChunkOf (chunk : List Char) (ms : List Member) : Prop :=
  ∃ text, RunText text ms ∧ chunk = Text.trim text ∧ chunk ≠ []

theorem RunText.eq_nil {text : List Char} {ms : List Member} (h : RunText text ms)
    (hblank : Text.trim text = []) : ms = [] := by
  obtain ⟨gap, l, ts, rfl, hgap, hplain, hl, -, hrun⟩ := h
  rw [Text.trim_blank_append hgap.allBlank] at hblank
  rcases List.eq_nil_or_concat l with rfl | ⟨l, p, rfl⟩
  · cases ts with
    | nil => exact hrun.eq_nil
    | cons => cases hl
  · obtain ⟨x, g⟩ := p
    rw [List.concat_eq_append] at hblank hplain
    rw [hplain.trim_concat] at hblank
    exact absurd hblank (hplain.drop_gap.text_ne_nil (by simp))

/-- **Lines are grouped** into chunks of whole members. -/
theorem groupLines_run {lines current : List (List Char)} {gap : Gap} {l : Layout}
    {ts : List Token} {ms : List Member} (hgap : gap.IsBare) (hplain : l.Plain [])
    (hl : l.lexemes = lexemesOf ts) (hevident : Evident ts) (hrun : Run ts ms)
    (hparts : (linesFrom 0 (gap.text.map .char ++ l.pieces)).parts = current ++ lines) :
    ∃ groups, List.Forall₂ ChunkOf (groupLines current lines) groups ∧ groups.flatten = ms := by
  induction lines generalizing current gap l ts ms with
  | nil =>
    have htext : joinLines current = gap.text ++ l.text := by
      have := joinLines_splitFrom true 0 false (gap.text.map .char ++ l.pieces)
      rw [textOf_gap, Layout.textOf_pieces] at this
      rw [← this]
      exact congrArg joinLines (hparts.trans (List.append_nil _)).symm
    have hrunText : RunText (gap.text ++ l.text) ms := ⟨gap, l, ts, rfl, hgap, hplain, hl, hevident, hrun⟩
    rw [groupLines, htext]
    by_cases hblank : Text.trim (gap.text ++ l.text) = []
    · exact ⟨[], by simp [hblank], by simpa using (hrunText.eq_nil hblank).symm⟩
    · refine ⟨[ms], ?_, by simp⟩
      simp only [List.isEmpty_iff, if_neg hblank]
      exact .cons ⟨_, hrunText, rfl, hblank⟩ .nil
  | cons line lines ih =>
    rw [groupLines]
    split
    · next hcut =>
      simp only [Bool.and_eq_true, Bool.not_eq_true', List.isEmpty_eq_false_iff] at hcut
      obtain ⟨⟨hne, hstarts⟩, hcomplete⟩ := hcut
      obtain ⟨g', l', ts', hbreak, hrest⟩ := exists_breakAt hrun.nest hl hplain hgap hne hparts
      obtain ⟨hg', hplain', hl'⟩ := hbreak.plain hgap hplain hl
      obtain ⟨l₀, u, x, hbefore, hplain₀, hl₀, rfl, hdepth, hmore⟩ :=
        hbreak.exists_complete hgap hplain hcomplete
      have hevident' : Evident ts' := by
        rw [List.append_assoc] at hevident
        exact hevident.right (holdsType_eq_false hdepth hmore)
      have hopens : opensLine ts' = true :=
        opensLine_of_line (hbreak.nest hrun.nest) hl' hplain' hg' hevident' hrest hstarts
      rw [← List.append_cons] at hrun
      obtain ⟨ms₁, ms₂, rfl, hrun₁, hrun₂⟩ := hrun.split hdepth hmore hopens
      obtain ⟨groups, hgroups, hflat⟩ := @ih [line] _ _ _ _ hg' hplain' hl' hevident' hrun₂ hrest
      have hrunText : RunText (joinLines current) ms₁ :=
        ⟨gap, l₀, u ++ [x], hbefore, hgap, hplain₀, hl₀, hevident.left, hrun₁⟩
      exact ⟨ms₁ :: groups,
        .cons ⟨_, hrunText, rfl, trim_ne_nil_of_isComplete hcomplete⟩ hgroups,
        by rw [List.flatten_cons, hflat]⟩
    · exact ih hgap hplain hl hevident hrun (by simpa using hparts)

theorem RunText.groupLines {text : List Char} {ms : List Member} (h : RunText text ms) :
    ∃ groups, List.Forall₂ ChunkOf (groupLines [] (splitTopLevel true ['\n'] text).parts) groups ∧
      groups.flatten = ms := by
  obtain ⟨gap, l, ts, rfl, hgap, hplain, hl, hevident, hrun⟩ := h
  rw [splitTopLevel, hplain.pieces_gap hgap]
  exact groupLines_run hgap hplain hl hevident hrun rfl

/-- The chunks of texts are the chunks of the members of each. -/
theorem exists_groups {parts : List (List Char)} {mss : List (List Member)}
    (h : List.Forall₂ RunText parts mss) :
    ∃ groups, List.Forall₂ ChunkOf
        (parts.flatMap fun part => FluentBuilders.groupLines [] (splitTopLevel true ['\n'] part).parts)
        groups ∧
      groups.flatten = mss.flatten := by
  induction h with
  | nil => exact ⟨[], .nil, rfl⟩
  | cons hrow _ ih =>
    obtain ⟨groups, hgroups, hflat⟩ := hrow.groupLines
    obtain ⟨others, hothers, hflat'⟩ := ih
    refine ⟨groups ++ others, ?_, by rw [List.flatten_append, hflat, hflat', List.flatten_cons]⟩
    rw [List.flatMap_cons]
    exact List.rel_append hgroups hothers

/-- **No member is lost, cut in two or moved**: the chunks of a body are the texts of its members,
in order. -/
theorem splitMembers_rows {gap : Gap} {l : Layout} {ts : List Token} {mss : List (List Member)}
    (hgap : gap.IsBare) (hplain : l.Plain []) (hl : l.lexemes = lexemesOf ts)
    (hevident : Evident ts) (h : Rows ts mss) :
    ∃ groups, List.Forall₂ ChunkOf (splitMembers (gap.text ++ l.text)) groups ∧
      groups.flatten = mss.flatten := by
  rw [splitMembers, splitTopLevel, hplain.pieces_gap hgap]
  exact exists_groups (parts_rows h hl hplain hgap hevident)

end FluentBuilders
