import FluentBuilders.Proofs.Builder.References
import FluentBuilders.Proofs.Source.Cutting

/-!
# Proofs/Builder/Rewriting — rewritten texts in pieces

A text of segments is cut into pieces segment by segment, and so is the text that rewriting makes of
it (`closes_of_segments`), if no literal of it looks like a qualifier.  So a rewritten text closes its
brackets as the text did, and has blanks outside brackets only where the text had them.
-/

namespace FluentBuilders

/-! ## Segments in pieces -/

namespace Segment

/-- A segment that can be cut into pieces by itself. -/
def IsSound : Segment → Prop
  | .space c => Token.isLayout c = true
  | .mark _ => True
  | .name cs => Token.IsRun cs
  | .string literal => Token.Whole (.string literal)
  | .template text => Token.Whole (.template text)
  | .qualifier module => IsModuleText module

theorem FitsBefore.isSound {seg : Segment} {after : List Char} (h : seg.FitsBefore after) :
    seg.IsSound := by
  cases seg with
  | name cs => exact h.1
  | qualifier module => exact h.1
  | mark m => trivial
  | _ => exact h

/-- **The pieces of a segment.** -/
def pieces : Segment → List Piece
  | .string text | .template text => [.literal text.toList]
  | .qualifier module =>
    opening.dropLast.map .char ++ [.literal ('"' :: (module.toList ++ ['"'])), .char ')']
  | seg => seg.text.map .char

theorem isInert_of_isNameChar {c : Char} (h : Token.isNameChar c = true) : IsInert c :=
  ⟨isQuote_of_isNameChar h, Token.ne_slash_of_isNameChar h⟩

/-- **A segment in front of other text** is cut into its own pieces. -/
theorem pieces_text {seg : Segment} (h : seg.IsSound) (after : List Char) :
    FluentBuilders.pieces (seg.text ++ after) = seg.pieces ++ FluentBuilders.pieces after := by
  cases seg with
  | space c =>
    exact pieces_inert (List.forall_mem_singleton.2 (isInert_of_isLayout h)) after
  | mark m => exact pieces_inert (Lexeme.isInert (x := .token (.mark m)) (Token.whole_mark m) rfl) after
  | name cs => exact pieces_inert (fun c hc => isInert_of_isNameChar (h c hc)) after
  | string literal => exact pieces_lexeme (x := .token (.string literal)) h after
  | template text => exact pieces_lexeme (x := .token (.template text)) h after
  | qualifier module =>
    obtain ⟨hquote, hbreak, hclosed⟩ := h
    have himport : ∀ c ∈ opening.dropLast, IsInert c := by
      simp [opening, IsInert, Piece.isQuote]
    have hread : Token.quotedTail? '"' ('"' == '`') (module.toList ++ '"' :: ')' :: after) =
        some (module.toList ++ ['"'], ')' :: after) := quotedTail?_module hquote hbreak hclosed _
    have hliteral := Piece.literalTail_of_quotedTail? hread
    have hquoted : Piece.isQuote '"' = true := rfl
    have htext : text (.qualifier module) ++ after =
        opening.dropLast ++ '"' :: (module.toList ++ '"' :: ')' :: after) := by
      simp [text, opening]
    have hparen : FluentBuilders.pieces (')' :: after) = .char ')' :: FluentBuilders.pieces after :=
      @pieces_inert [')'] (by simp [IsInert, Piece.isQuote]) after
    have hstep : ∀ cs, FluentBuilders.pieces ('"' :: cs) =
        .literal ('"' :: (Piece.literalTail '"' cs).1) ::
          FluentBuilders.pieces (Piece.literalTail '"' cs).2 := by
      intro cs
      rw [FluentBuilders.pieces, if_pos hquoted]
    rw [htext, pieces_inert himport, hstep, hliteral, hparen]
    rfl

theorem textOf_pieces (seg : Segment) : Piece.textOf seg.pieces = seg.text := by
  cases seg with
  | string | template => simp [pieces, Piece.textOf, Piece.text, text]
  | qualifier module => simp [pieces, Piece.textOf, Piece.text, text, opening]
  | _ => simp [pieces, Piece.textOf, Piece.text, List.flatMap_map]

theorem mem_text_of_char {seg : Segment} {c : Char} (h : Piece.char c ∈ seg.pieces) : c ∈ seg.text := by
  rw [← textOf_pieces]
  exact List.mem_flatMap.2 ⟨_, h, List.mem_singleton_self c⟩

/-- A segment with the name of a namespace in the place of a qualifier. -/
def named (ns : List Char) : Segment → Segment
  | .qualifier _ => .name ns
  | seg => seg

theorem text_named (ns : List Char) (seg : Segment) : (seg.named ns).text = seg.rewritten ns := by
  cases seg <;> rfl

theorem depth_named (ns : List Char) (seg : Segment) (d : Nat) :
    (seg.named ns).depth d = seg.depth d := by
  cases seg <;> rfl

theorem isPlain_of_isNameChar {c : Char} (h : Token.isNameChar c = true) : IsPlain true c := by
  have hne : ∀ d : Char, d ∈ Token.special → c ≠ d := by
    rintro d hd rfl
    have hspecial : ∀ c ∈ Token.special, Token.isNameChar c = false := by decide
    rw [hspecial c hd] at h
    cases h
  refine ⟨?_, hne '=' (by decide)⟩
  simp [Bracket.ofChar, hne '(' (by decide), hne '[' (by decide), hne '\x7b' (by decide),
    hne ')' (by decide), hne ']' (by decide), hne '\x7d' (by decide), hne '<' (by decide),
    hne '>' (by decide)]

section

variable {quiet : Char → Bool} {d d' e : Nat} {eq : Bool} {ps : List Piece} {seg : Segment}

theorem depthAfter_mark {m : Mark} (h : depth d (.mark m) = some d') :
    Lexeme.depthAfter true (.token (.mark m)) d = d' := by
  have hbracket : (Lexeme.token (.mark m)).bracket true = m.bracket true := rfl
  rw [Lexeme.depthAfter, hbracket]
  rw [depth] at h
  cases hm : m.bracket true with
  | opens =>
    rw [hm] at h
    exact Option.some.inj h
  | closes =>
    rw [hm] at h
    by_cases hd : d = 0
    · rw [hd] at h
      cases h
    · exact Option.some.inj ((if_neg hd).symm.trans h)
  | none =>
    rw [hm] at h
    exact Option.some.inj h

/-- **A segment is a step**, from its depth to the next. -/
theorem walk (h : seg.IsSound) (hname : ∀ module, seg ≠ .qualifier module) (harrow : quiet '>' = true)
    (hquiet : ∀ c, Piece.char c ∈ seg.pieces → quiet c = true) (hdepth : seg.depth d = some d')
    (hs : Walk true quiet d' false ps e eq) : Walk true quiet d false (seg.pieces ++ ps) e eq := by
  have hchars : seg.pieces = seg.text.map .char → ∀ c ∈ seg.text, quiet c = true :=
    fun heq c hc => hquiet c (heq ▸ List.mem_map_of_mem hc)
  cases seg with
  | space c =>
    cases hdepth
    exact walk_plain (List.forall_mem_singleton.2 (isPlain_of_isLayout h)) (fun _ => hchars rfl) hs
  | name cs =>
    cases hdepth
    exact walk_plain (fun c hc => isPlain_of_isNameChar (h c hc)) (fun _ => hchars rfl) hs
  | string literal =>
    cases hdepth
    exact walk_lexeme (x := .token (.string literal)) h nofun harrow (fun _ => .inl rfl) nofun hs
  | template text =>
    cases hdepth
    exact walk_lexeme (x := .token (.template text)) h nofun harrow (fun _ => .inl rfl) nofun hs
  | qualifier module => exact absurd rfl (hname module)
  | mark m =>
    refine walk_lexeme (x := .token (.mark m)) (Token.whole_mark m) nofun harrow
      (fun _ => .inr (.inr (hchars rfl))) ?_ ?_
    · rintro hcloses rfl
      rw [depth, show m.bracket true = .closes from hcloses] at hdepth
      cases hdepth
    · rw [depthAfter_mark hdepth]
      exact hs

end

end Segment

namespace Segments

/-- The pieces of segments in a row. -/
def pieces (segs : Segments) : List Piece := segs.flatMap Segment.pieces

variable {segs : Segments} {quiet : Char → Bool}

theorem pieces_text (h : ∀ seg ∈ segs, seg.IsSound) (after : List Char) :
    FluentBuilders.pieces (segs.text ++ after) = segs.pieces ++ FluentBuilders.pieces after := by
  induction segs with
  | nil => rfl
  | cons seg segs ih =>
    obtain ⟨hseg, hsegs⟩ := List.forall_mem_cons.1 h
    rw [text_cons, List.append_assoc, Segment.pieces_text hseg, ih hsegs, pieces, pieces,
      List.flatMap_cons, List.append_assoc]

theorem isSound_of_fits {after : List Char} (h : segs.Fits after) : ∀ seg ∈ segs, seg.IsSound := by
  induction segs with
  | nil => exact List.forall_mem_nil _
  | cons seg segs ih =>
    obtain ⟨hseg, hsegs⟩ := fits_cons.1 h
    exact List.forall_mem_cons.2 ⟨hseg.isSound, ih hsegs⟩

theorem walk (h : ∀ seg ∈ segs, seg.IsSound) (hname : ∀ module, .qualifier module ∉ segs)
    (harrow : quiet '>' = true) (hquiet : ∀ c, Piece.char c ∈ segs.pieces → quiet c = true) {d d' : Nat}
    (hdepth : segs.depth d = some d') : Walk true quiet d false segs.pieces d' false := by
  induction segs generalizing d with
  | nil =>
    cases hdepth
    exact .nil _ _
  | cons seg segs ih =>
    obtain ⟨hseg, hsegs⟩ := List.forall_mem_cons.1 h
    obtain ⟨e, hfirst, hrest⟩ := Option.bind_eq_some_iff.1 hdepth
    have hpieces : pieces (seg :: segs) = seg.pieces ++ pieces segs := List.flatMap_cons
    rw [hpieces] at hquiet ⊢
    refine Segment.walk hseg (fun module heq => hname module (heq ▸ List.mem_cons_self)) harrow
      (fun c hc => hquiet c (List.mem_append_left _ hc)) hfirst ?_
    exact ih hsegs (fun module hmem => hname module (List.mem_cons_of_mem _ hmem))
      (fun c hc => hquiet c (List.mem_append_right _ hc)) hrest

/-- Segments with the name of a namespace in the place of each qualifier. -/
def named (ns : List Char) (segs : Segments) : Segments := segs.map (·.named ns)

theorem text_named (ns : List Char) (segs : Segments) : (segs.named ns).text = segs.rewritten ns := by
  rw [text, named, List.flatMap_map, rewritten]
  exact List.flatMap_congr fun seg _ => Segment.text_named ns seg

theorem depth_named (ns : List Char) (segs : Segments) (d : Nat) :
    (segs.named ns).depth d = segs.depth d := by
  induction segs generalizing d with
  | nil => rfl
  | cons seg segs ih =>
    change ((seg.named ns).depth d).bind (depth (named ns segs)) = _
    rw [Segment.depth_named, depth_cons, funext ih]

theorem isSound_named {ns : String} (hns : IsNameText ns) (h : ∀ seg ∈ segs, seg.IsSound) :
    ∀ seg ∈ segs.named ns.toList, seg.IsSound := by
  refine List.forall_mem_map.2 fun seg hseg => ?_
  cases seg with
  | qualifier module => exact hns
  | _ => exact h _ hseg

theorem qualifier_notMem_named (ns : List Char) (segs : Segments) (module : String) :
    .qualifier module ∉ segs.named ns := by
  intro hmem
  obtain ⟨seg, -, heq⟩ := List.mem_map.1 hmem
  cases seg <;> cases heq

/-- The characters outside literals are of a class, if those of names are, and blanks and marks. -/
theorem quiet_named {ns : String} (h : ∀ seg ∈ segs, seg.IsSound) (hns : IsNameText ns)
    (hname : ∀ c, Token.isNameChar c = true → quiet c = true)
    (hspace : ∀ c, .space c ∈ segs → quiet c = true)
    (hmark : ∀ m, .mark m ∈ segs → ∀ c ∈ m.text, quiet c = true) :
    ∀ c, Piece.char c ∈ (segs.named ns.toList).pieces → quiet c = true := by
  intro c hc
  obtain ⟨named, hnamed, hc⟩ := List.mem_flatMap.1 hc
  obtain ⟨seg, hseg, rfl⟩ := List.mem_map.1 hnamed
  have hmem := Segment.mem_text_of_char hc
  cases seg with
  | space d =>
    obtain rfl := List.mem_singleton.1 hmem
    exact hspace c hseg
  | mark m => exact hmark m hseg c hmem
  | name cs => exact hname c (h _ hseg c hmem)
  | string | template => cases List.mem_singleton.1 hc
  | qualifier module => exact hname c (hns c hmem)

end Segments

/-! ## Rewritten texts -/

/-- A piece that is no literal with the start of a qualifier in it. -/
def Piece.LooksPlain : Piece → Prop
  | .char _ => True
  | .literal text => ¬ Segment.opening <:+: text

instance : DecidablePred Piece.LooksPlain
  | .char _ => inferInstanceAs (Decidable True)
  | .literal text => inferInstanceAs (Decidable (¬ Segment.opening <:+: text))

/-- **No literal of a text looks like a qualifier.** -/
def LooksPlain (x : String) : Prop := ∀ p ∈ pieces x.toList, p.LooksPlain

instance (x : String) : Decidable (LooksPlain x) :=
  inferInstanceAs (Decidable (∀ p ∈ pieces x.toList, p.LooksPlain))

section

variable {segs : Segments} {quiet : Char → Bool} {ok : Segment → Prop} {x ns : String}

theorem isClear_of_looksPlain (h : LooksPlain x) (htext : segs.text = x.toList)
    (hsound : ∀ seg ∈ segs, seg.IsSound) : ∀ seg ∈ segs, seg.IsClear := by
  have hpieces : pieces x.toList = segs.pieces := by
    have hself := Segments.pieces_text hsound []
    rwa [List.append_nil, htext, pieces, List.append_nil] at hself
  intro seg hseg
  have hmem : ∀ p ∈ seg.pieces, p ∈ pieces x.toList := by
    rw [hpieces]
    exact fun p hp => List.mem_flatMap.2 ⟨seg, hseg, hp⟩
  cases seg with
  | string literal => exact h _ (hmem _ (List.mem_singleton_self _))
  | template text => exact h _ (hmem _ (List.mem_singleton_self _))
  | _ => trivial

/-- **Segments of a text** are those of the rewritten text, qualifiers aside. -/
theorem toList_rewriteReferences (h : segs.Fits []) (htext : segs.text = x.toList)
    (hplain : LooksPlain x) : (rewriteReferences x ns).toList = segs.rewritten ns.toList := by
  rw [rewriteReferences, String.toList_ofList, ← htext]
  exact Segments.rewriteFrom_text h (isClear_of_looksPlain hplain htext (Segments.isSound_of_fits h))

/-- **A rewritten text closes its brackets**, if the segments of the text do. -/
theorem closes_of_segments (h : segs.Fits []) (htext : segs.text = x.toList) (hplain : LooksPlain x)
    (hns : isAsciiName ns = true)
    (hwalk : Walk true quiet 0 false (segs.named ns.toList).pieces 0 false) :
    Closes quiet (rewriteReferences x ns) := by
  refine ⟨(segs.named ns.toList).pieces, fun after => ?_, hwalk⟩
  rw [toList_rewriteReferences h htext hplain, ← Segments.text_named]
  exact Segments.pieces_text
    (Segments.isSound_named (isNameText_of_isAsciiName hns) (Segments.isSound_of_fits h)) after

theorem closes_rewritten (h : Spelled ok CanEnd x) (hplain : LooksPlain x)
    (hns : isAsciiName ns = true) (harrow : quiet '>' = true)
    (hquiet : ∀ segs : Segments, (∀ seg ∈ segs, ok seg ∧ seg.IsSound) →
      (rewriteReferences x ns).toList = segs.rewritten ns.toList →
      ∀ c, Piece.char c ∈ (segs.named ns.toList).pieces → quiet c = true) :
    Closes quiet (rewriteReferences x ns) := by
  obtain ⟨segs, htext, hfits, hclosed, hok⟩ := h
  have hsegs : segs.Fits [] := hfits [] .nil
  have hsound := Segments.isSound_of_fits hsegs
  have hnamed := Segments.isSound_named (isNameText_of_isAsciiName hns) hsound
  refine closes_of_segments hsegs htext hplain hns ?_
  exact Segments.walk hnamed (Segments.qualifier_notMem_named _ _) harrow
    (hquiet segs (fun seg hseg => ⟨hok seg hseg, hsound seg hseg⟩)
      (toList_rewriteReferences hsegs htext hplain))
    ((Segments.depth_named _ _ _).trans (hclosed 0))

/-- A text without blanks between its segments has none outside literals. -/
theorem closes_rewritten_of_solid (h : Spelled Segment.IsSolid CanEnd x) (hplain : LooksPlain x)
    (hns : isAsciiName ns = true) : Closes isNoBlank (rewriteReferences x ns) := by
  refine closes_rewritten h hplain hns rfl fun segs hsegs _ => ?_
  refine Segments.quiet_named (fun seg hseg => (hsegs seg hseg).2) (isNameText_of_isAsciiName hns)
    (fun c hc => bne_iff_ne.2 ?_) (fun c hc => absurd rfl ((hsegs _ hc).1 c)) fun m _ => ?_
  · rintro rfl
    cases hc
  · cases m <;> decide

/-- Neither has a text without any. -/
theorem closes_rewritten_of_notMem (h : Spelled ok CanEnd x) (hplain : LooksPlain x)
    (hns : isAsciiName ns = true) (hblank : ' ' ∉ (rewriteReferences x ns).toList) :
    Closes isNoBlank (rewriteReferences x ns) := by
  refine closes_rewritten h hplain hns rfl fun segs _ hrewritten c hc => ?_
  have hmem : c ∈ (segs.named ns.toList).text := by
    obtain ⟨seg, hseg, hc⟩ := List.mem_flatMap.1 hc
    exact List.mem_flatMap.2 ⟨seg, hseg, Segment.mem_text_of_char hc⟩
  rw [Segments.text_named, ← hrewritten] at hmem
  exact bne_iff_ne.2 fun heq => hblank (heq ▸ hmem)

/-- Rewriting leaves no text empty. -/
theorem rewriteReferences_ne_empty (h : Spelled ok CanEnd x) (hplain : LooksPlain x)
    (hns : isAsciiName ns = true) (hne : x ≠ "") : rewriteReferences x ns ≠ "" := by
  obtain ⟨segs, htext, hfits, -⟩ := h
  have hrewritten : (rewriteReferences x ns).toList = segs.rewritten ns.toList :=
    toList_rewriteReferences (hfits [] .nil) htext hplain
  intro hempty
  rw [hempty] at hrewritten
  refine hne (String.toList_injective ?_)
  rw [← htext]
  refine List.flatMap_eq_nil_iff.2 fun seg hseg => ?_
  have hseg' : seg.rewritten ns.toList = [] := List.flatMap_eq_nil_iff.1 hrewritten.symm seg hseg
  cases seg with
  | qualifier module =>
    rw [isAsciiName, show ns.toList = [] from hseg'] at hns
    cases hns
  | _ => exact hseg'

end

/-! ## Texts that close their brackets -/

section

variable {quiet : Char → Bool} {x y : String}

/-- A walk goes on deeper inside brackets, where anything may stand. -/
theorem Walk.deeper {any : Char → Bool} {d e : Nat} {eq eq' : Bool} {ps : List Piece}
    (h : Walk true any d eq ps e eq') : Walk true quiet (d + 1) eq ps (e + 1) eq' := by
  induction h with
  | nil => exact .nil _ _
  | opens hp _ _ ih => exact .opens hp nofun ih
  | closes hp _ ih => exact .closes hp ih
  | plain hp _ _ ih => exact .plain hp nofun ih

theorem Closes.append (h : Closes quiet x) (hy : Closes quiet y) : Closes quiet (x ++ y) := by
  obtain ⟨ps, hpieces, hwalk⟩ := h
  obtain ⟨qs, hpieces', hwalk'⟩ := hy
  refine ⟨ps ++ qs, fun after => ?_, hwalk.append hwalk'⟩
  rw [String.toList_append, List.append_assoc, hpieces, hpieces', List.append_assoc]

theorem Closes.name (h : IsNameText x) (hquiet : ∀ c, Token.isNameChar c = true → quiet c = true) :
    Closes quiet x := by
  refine ⟨x.toList.map .char, fun after => ?_, ?_⟩
  · exact pieces_inert (fun c hc => Segment.isInert_of_isNameChar (h c hc)) after
  · have hwalk := @walk_plain true quiet 0 0 false [] x.toList
      (fun c hc => Segment.isPlain_of_isNameChar (h c hc)) (fun _ c hc => hquiet c (h c hc)) (.nil _ _)
    simpa using hwalk

/-- A text in brackets. -/
theorem Closes.enclosed {any : Char → Bool} {first last : Char} (h : Closes any x)
    (hfirst : Bracket.ofPiece true false (.char first) = .opens)
    (hlast : Bracket.ofPiece true false (.char last) = .closes) (hinert : IsInert first)
    (hinert' : IsInert last) (hquiet : quiet first = true) :
    Closes quiet (String.ofList [first] ++ x ++ String.ofList [last]) := by
  obtain ⟨ps, hpieces, hwalk⟩ := h
  refine ⟨.char first :: (ps ++ [Piece.char last]), fun after => ?_, ?_⟩
  · have hsingle : ∀ {c : Char}, IsInert c → ∀ after, pieces (c :: after) = .char c :: pieces after :=
      fun hc after => @pieces_inert [_] (List.forall_mem_singleton.2 hc) after
    have htext : (String.ofList [first] ++ x ++ String.ofList [last]).toList ++ after =
        first :: (x.toList ++ last :: after) := by simp
    rw [htext, hsingle hinert, hpieces, hsingle hinert']
    simp
  · refine .opens hfirst ?_ (hwalk.deeper.append (.closes hlast (.nil _ _)))
    rintro - c hc
    cases hc
    exact .inl hquiet

end

end FluentBuilders
