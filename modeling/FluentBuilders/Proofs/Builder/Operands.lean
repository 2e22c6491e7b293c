import FluentBuilders.Proofs.Builder.Rewriting
import FluentBuilders.Proofs.Resolve.Plain

/-!
# Proofs/Builder/Operands — texts that stand as one operand

Resolution writes some texts itself: `keyof` and `typeof` in front of what they are about, and the name
of a type in whose own description it stands.  Such a text is an **operand**: words that a type
follows, each with a blank after it, and then a text without blanks or bars outside brackets and
literals.  No separator begins in it, as none of the words is one (`IsOperand.cutAt_eq`); and all that
resolution makes of types without text that is kept as it is, unions, functions and intersections
aside, is one (`operandInvariant`).
-/

namespace FluentBuilders

/-! ## Operands -/

/-- Anything but blanks and marks. -/
def Segment.IsWord : Segment → Prop
  | .space _ | .mark _ => False
  | _ => True

/-- **A text without blanks or bars outside brackets**: without any marks, or all in brackets, or such
a text with more in brackets behind it. -/
inductive IsCore : String → Prop
  | solid {x : String} (h : Spelled Segment.IsWord NameEnds x) : IsCore x
  | enclosed {x : String} {first last : Mark} (hfirst : first.bracket true = .opens)
      (hlast : last.bracket true = .closes) (h : Spelled (fun _ => True) CanEnd x) :
      IsCore (String.ofList first.text ++ x ++ String.ofList last.text)
  | followed {x y : String} {first last : Mark} (hx : IsCore x)
      (hfirst : first ∈ [Mark.openBracket, Mark.openAngle]) (hlast : last.bracket true = .closes)
      (h : Spelled (fun _ => True) CanEnd y) :
      IsCore (x ++ (String.ofList first.text ++ y ++ String.ofList last.text))

/-- **An operand**: such a text, with words in front of it that a type follows. -/
inductive IsOperand : String → Prop
  | core {x : String} (h : IsCore x) : IsOperand x
  | phrase {word x : String} (hword : word ∈ Segment.operators) (h : IsOperand x) :
      IsOperand (word ++ " " ++ x)

/-- Neither a blank nor a bar. -/
def isOperandChar (c : Char) : Bool := c != ' ' && c != '|'

namespace Segments

variable {segs : Segments} {first last : Mark} {after : List Char}

/-- Segments in brackets. -/
def enclosed (first last : Mark) (segs : Segments) : Segments :=
  .mark first :: (segs ++ [.mark last])

theorem text_enclosed : (enclosed first last segs).text = first.text ++ segs.text ++ last.text := by
  simp [enclosed, Segment.text]

theorem canEnd_of_closes (hlast : last.bracket true = .closes) (after : List Char) :
    CanEnd (last.text ++ after) := by
  cases last with
  | closeParen | closeBrace | closeBracket | closeAngle => exact .cons (by decide)
  | _ => cases hlast

theorem fits_enclosed (hfirst : first.bracket true = .opens) (hlast : last.bracket true = .closes)
    (h : ∀ after, CanEnd after → segs.Fits after) : (enclosed first last segs).Fits after := by
  have hne : first ≠ .dot ∧ last ≠ .dot := by
    constructor
    · rintro rfl
      cases hfirst
    · rintro rfl
      cases hlast
  rw [enclosed, fits_cons, fits_append]
  refine ⟨hne.1, h _ ?_, hne.2, trivial⟩
  simpa [Segment.text] using canEnd_of_closes hlast after

/-- **In brackets anything may stand.** -/
theorem walk_enclosed {ns : List Char} (hfirst : first.bracket true = .opens)
    (hlast : last.bracket true = .closes) (hsound : ∀ seg ∈ segs.named ns, seg.IsSound)
    (hclosed : segs.Closed) :
    Walk true isOperandChar 0 false ((enclosed first last segs).named ns).pieces 0 false := by
  have hquiet : ∀ m : Mark, m.bracket true ≠ .none → ∀ c, Piece.char c ∈ (Segment.mark m).pieces →
      isOperandChar c = true := by
    intro m hm c hc
    have hmem := Segment.mem_text_of_char hc
    cases m <;> first | exact absurd rfl hm | (cases List.mem_singleton.1 hmem; rfl)
  have hpieces : ((enclosed first last segs).named ns).pieces = (Segment.mark first).pieces ++
      ((segs.named ns).pieces ++ ((Segment.mark last).pieces ++ [])) := by
    simp [enclosed, named, pieces, Segment.named]
  have hinner : Walk true (fun _ => true) 0 false (segs.named ns).pieces 0 false :=
    walk hsound (qualifier_notMem_named _ _) rfl (fun _ _ => rfl)
      ((depth_named _ _ _).trans (hclosed 0))
  have hmark : ∀ (m : Mark) (module : String), Segment.mark m ≠ .qualifier module := by
    rintro m module hm
    cases hm
  rw [hpieces]
  refine @Segment.walk _ 0 1 _ _ _ _ trivial (hmark first) rfl
    (hquiet first (by rw [hfirst]; decide)) (by simp [Segment.depth, hfirst])
    (hinner.deeper.append ?_)
  exact @Segment.walk _ 1 0 _ _ _ _ trivial (hmark last) rfl
    (hquiet last (by rw [hlast]; decide)) (by simp [Segment.depth, hlast]) (.nil _ _)

end Segments

namespace IsCore

variable {x ns : String}

/-- **The segments of such a text** have no blanks or bars outside brackets, also after rewriting. -/
theorem exists_segments (h : IsCore x) : ∃ segs : Segments, segs.text = x.toList ∧
    (∀ after, NameEnds after → segs.Fits after) ∧
    ∀ ns, IsNameText ns → Walk true isOperandChar 0 false (segs.named ns.toList).pieces 0 false := by
  induction h with
  | @solid x h =>
    obtain ⟨segs, htext, hfits, hclosed, hwords⟩ := h
    refine ⟨segs, htext, hfits, fun ns hns => ?_⟩
    have hsound := Segments.isSound_of_fits (hfits [] (CanEnd.nil.nameEnds))
    refine Segments.walk (Segments.isSound_named hns hsound) (Segments.qualifier_notMem_named _ _) rfl
      (Segments.quiet_named hsound hns (fun c hc => ?_) (fun c hc => (hwords _ hc).elim)
        fun m hm => (hwords _ hm).elim) ((Segments.depth_named _ _ _).trans (hclosed 0))
    have hne : c ≠ ' ' ∧ c ≠ '|' := by
      constructor
      · rintro rfl
        cases hc
      · rintro rfl
        cases hc
    simp [isOperandChar, hne]
  | @enclosed x first last hfirst hlast h =>
    obtain ⟨segs, htext, hfits, hclosed, -⟩ := h
    refine ⟨segs.enclosed first last, ?_, fun after _ => Segments.fits_enclosed hfirst hlast hfits,
      fun ns hns => Segments.walk_enclosed hfirst hlast (Segments.isSound_named hns
        (Segments.isSound_of_fits (hfits [] .nil))) hclosed⟩
    rw [Segments.text_enclosed, htext, String.toList_append, String.toList_append,
      String.toList_ofList, String.toList_ofList]
  | @followed x y first last hx hfirst hlast h ih =>
    obtain ⟨segs, htext, hfits, hwalk⟩ := ih
    obtain ⟨more, htext', hfits', hclosed, -⟩ := h
    have hopens : first.bracket true = .opens ∧ ∀ after, NameEnds (first.text ++ after) := by
      simp only [List.mem_cons, List.not_mem_nil, or_false] at hfirst
      rcases hfirst with rfl | rfl
      · exact ⟨rfl, fun after => CanEnd.nameEnds (.cons (by decide))⟩
      · exact ⟨rfl, fun after => .cons (by decide) _⟩
    refine ⟨segs ++ more.enclosed first last, ?_, fun after _ => ?_, fun ns hns => ?_⟩
    · rw [Segments.text_append, htext, Segments.text_enclosed, htext', String.toList_append,
        String.toList_append, String.toList_append, String.toList_ofList, String.toList_ofList]
    · rw [Segments.fits_append, Segments.text_enclosed, List.append_assoc, List.append_assoc]
      exact ⟨hfits _ (hopens.2 _), Segments.fits_enclosed hopens.1 hlast hfits'⟩
    · have hnamed : ((segs ++ more.enclosed first last).named ns.toList).pieces =
          (segs.named ns.toList).pieces ++ ((more.enclosed first last).named ns.toList).pieces := by
        simp [Segments.named, Segments.pieces]
      rw [hnamed]
      exact (hwalk ns hns).append (Segments.walk_enclosed hopens.1 hlast
        (Segments.isSound_named hns (Segments.isSound_of_fits (hfits' [] .nil))) hclosed)

/-- **Rewriting keeps such a text free of blanks and bars** outside brackets and literals. -/
theorem closes (h : IsCore x) (hplain : LooksPlain x) (hns : isAsciiName ns = true) :
    Closes isOperandChar (rewriteReferences x ns) := by
  obtain ⟨segs, htext, hfits, hwalk⟩ := h.exists_segments
  exact closes_of_segments (hfits [] (CanEnd.nil.nameEnds)) htext hplain hns
    (hwalk ns (isNameText_of_isAsciiName hns))

end IsCore

/-! ## Words in front of an operand -/

section

variable {word x ns : String}

/-- The pieces of a word, a blank, and a text. -/
theorem pieces_phrase (h : word ∈ Segment.operators) (cs : List Char) :
    pieces (word.toList ++ ' ' :: cs) = word.toList.map .char ++ .char ' ' :: pieces cs := by
  have hblank : pieces (' ' :: cs) = .char ' ' :: pieces cs :=
    @pieces_inert [' '] (by simp [IsInert, Piece.isQuote]) cs
  rw [pieces_inert (fun c hc => Segment.isInert_of_isNameChar (Segment.isRun_of_mem_operators h c hc)), hblank]

theorem toList_phrase (word x : String) :
    (word ++ " " ++ x).toList = word.toList ++ ' ' :: x.toList := by
  simp

theorem looksPlain_of_phrase (hword : word ∈ Segment.operators) (h : LooksPlain (word ++ " " ++ x)) :
    LooksPlain x := by
  rw [LooksPlain, toList_phrase, pieces_phrase hword] at h
  exact (List.forall_mem_cons.1 (List.forall_mem_append.1 h).2).2

/-- **Rewriting leaves a word in front of a text as it is.** -/
theorem rewriteReferences_phrase (h : word ∈ Segment.operators) :
    rewriteReferences (word ++ " " ++ x) ns = word ++ " " ++ rewriteReferences x ns := by
  have hword : (Segment.name word.toList).FitsBefore (' ' :: x.toList) :=
    ⟨Segment.isRun_of_mem_operators h, by rintro c ⟨⟩; decide, .inl (List.mem_map_of_mem h)⟩
  have hspace : (Segment.space ' ').FitsBefore x.toList := (rfl : Token.isLayout ' ' = true)
  have hfirst := Segment.rewriteFrom_text (r := ns.toList) hword trivial
  have hsecond := Segment.rewriteFrom_text (r := ns.toList) hspace trivial
  apply String.toList_injective
  rw [toList_phrase, rewriteReferences, rewriteReferences, String.toList_ofList, String.toList_ofList,
    toList_phrase]
  exact hfirst.trans (congrArg (word.toList ++ ·) hsecond)

end

/-! ## Separators -/

/-- Characters none of which opens or closes a bracket. -/
def isFlat : Bool → List Char → Bool
  | _, [] => true
  | eq, c :: cs => Bracket.ofPiece true eq (.char c) = .none && isFlat (isEquals (.char c)) cs

section

variable {quiet : Char → Bool} {e : Nat} {eq eq' : Bool} {ps : List Piece} {w : List Char}

theorem beginsWith_cons {c : Char} {cs : List Char} {p : Piece} :
    beginsWith (c :: cs) (p :: ps) = true ↔ p = .char c ∧ beginsWith cs ps = true := by
  rw [beginsWith, List.map_cons, List.isPrefixOf, Bool.and_eq_true, beq_iff_eq]
  exact and_congr_left' eq_comm

/-- **On a walk without blanks** no word with a blank behind it stands outside brackets. -/
theorem Walk.beginsWith_eq_false (h : Walk true quiet 0 eq ps e eq') (hquiet : quiet ' ' = false)
    (hw : isFlat eq w = true) : beginsWith (w ++ [' ']) ps = false := by
  rw [Bool.eq_false_iff]
  intro hbegins
  induction w generalizing eq ps with
  | nil =>
    cases ps with
    | nil => cases hbegins
    | cons p ps =>
      obtain ⟨rfl, -⟩ := beginsWith_cons.1 hbegins
      obtain ⟨-, -, -, hp⟩ := h.step
      rcases hp rfl ' ' rfl with hblank | hblank
      · rw [hquiet] at hblank
        cases hblank
      · cases hblank
  | cons c cs ih =>
    cases ps with
    | nil => cases hbegins
    | cons p ps =>
      obtain ⟨rfl, hrest⟩ := beginsWith_cons.1 hbegins
      obtain ⟨hc, hcs⟩ := Bool.and_eq_true_iff.1 hw
      obtain ⟨d', hd', hs, -⟩ := h.step
      rw [of_decide_eq_true hc] at hd'
      obtain rfl : d' = 0 := Int.ofNat_inj.1 hd'
      exact ih hs hcs hrest

/-- A word with a blank behind it begins like another only if it is the same. -/
theorem eq_of_beginsWith {word : List Char} (hw : ' ' ∉ w) (hword : ' ' ∉ word)
    (h : beginsWith (w ++ [' ']) (word.map .char ++ .char ' ' :: ps) = true) : w = word := by
  induction w generalizing word with
  | nil =>
    cases word with
    | nil => rfl
    | cons c cs =>
      obtain ⟨hc, -⟩ := beginsWith_cons.1 h
      cases hc
      exact absurd List.mem_cons_self hword
  | cons c cs ih =>
    cases word with
    | nil =>
      obtain ⟨hc, -⟩ := beginsWith_cons.1 h
      cases hc
      exact absurd List.mem_cons_self hw
    | cons d ds =>
      obtain ⟨hc, hrest⟩ := beginsWith_cons.1 h
      cases hc
      rw [ih (fun hmem => hw (List.mem_cons_of_mem _ hmem))
        (fun hmem => hword (List.mem_cons_of_mem _ hmem)) hrest]

/-- **No cut in a word and the blank behind it**, if no separator begins there. -/
theorem cutFrom_phrase {word separator : List Char} (hword : Token.IsRun word)
    (h : beginsWith separator ps = false) :
    cutFrom (' ' :: separator) 0 false (word.map .char ++ .char ' ' :: ps) =
      prependTo (word ++ [' ']) (cutFrom (' ' :: separator) 0 false ps) := by
  have hwalk : Walk true isNoBlank 0 false (word.map .char ++ []) 0 false :=
    walk_plain (fun c hc => Segment.isPlain_of_isNameChar (hword c hc))
      (fun _ c hc => bne_iff_ne.2 (by rintro rfl; exact absurd (hword _ hc) (by decide))) (.nil _ _)
  have hno : ¬((0 : Int) = 0 ∧ beginsWith (' ' :: separator) (.char ' ' :: ps) = true) := by
    rintro ⟨-, hbegins⟩
    rw [(beginsWith_cons.1 hbegins).2] at h
    cases h
  have hblank : cutFrom (' ' :: separator) 0 false (.char ' ' :: ps) =
      prependTo [' '] (cutFrom (' ' :: separator) 0 false ps) := cutFrom_cons hno
  have htext : Piece.textOf (word.map .char) = word := by
    simp [Piece.textOf, Piece.text, List.flatMap_map]
  rw [List.append_nil] at hwalk
  have hcut : cutFrom (' ' :: separator) 0 false (word.map .char ++ .char ' ' :: ps) =
      prependTo (Piece.textOf (word.map .char))
        (cutFrom (' ' :: separator) 0 false (.char ' ' :: ps)) := cutFrom_walk hwalk rfl (by decide) _
  rw [hcut, hblank, prependTo_prependTo, htext]

end

namespace IsOperand

variable {x ns separator : String} {w : List Char}

/-- **No cut in an operand** at separators with a word in them that none of its words is, if none
begins at the end of a text without blanks and bars. -/
theorem cutFrom_eq (h : IsOperand x) (hplain : LooksPlain x) (hns : isAsciiName ns = true)
    (hword : w ∉ Segment.operators.map String.toList) (hblank : ' ' ∉ w) {after : List Char}
    (hcore : ∀ ps, Walk true isOperandChar 0 false ps 0 false →
      beginsWith (w ++ [' ']) (ps ++ pieces after) = false) :
    let ps := pieces ((rewriteReferences x ns).toList ++ after)
    beginsWith (w ++ [' ']) ps = false ∧
      cutFrom (' ' :: (w ++ [' '])) 0 false ps = prependTo (rewriteReferences x ns).toList
        (cutFrom (' ' :: (w ++ [' '])) 0 false (pieces after)) := by
  intro ps
  induction h with
  | core h =>
    obtain ⟨core, hpieces, hwalk⟩ := h.closes hplain hns
    simp only [ps, hpieces]
    refine ⟨hcore core hwalk, ?_⟩
    rw [← textOf_of_pieces hpieces]
    exact cutFrom_walk hwalk rfl (by decide) _
  | @phrase word x hoperator h ih =>
    obtain ⟨hbegins, hcut⟩ := ih (looksPlain_of_phrase hoperator hplain)
    have hrun := Segment.isRun_of_mem_operators hoperator
    have hsolid : ' ' ∉ word.toList := fun hmem => absurd (hrun _ hmem) (by decide)
    have hpieces : ps = word.toList.map .char ++
        .char ' ' :: pieces ((rewriteReferences x ns).toList ++ after) := by
      simp only [ps]
      rw [rewriteReferences_phrase hoperator, toList_phrase, List.append_assoc, List.cons_append,
        pieces_phrase hoperator]
    rw [hpieces]
    constructor
    · refine Bool.eq_false_iff.2 fun hsame => hword ?_
      rw [eq_of_beginsWith hblank hsolid hsame]
      exact List.mem_map_of_mem hoperator
    · rw [cutFrom_phrase hrun hbegins, hcut, prependTo_prependTo, rewriteReferences_phrase hoperator,
        toList_phrase, List.append_assoc, List.singleton_append]

/-- **An operand stays whole** at such separators. -/
theorem cutAt_eq (h : IsOperand x) (hplain : LooksPlain x) (hns : isAsciiName ns = true)
    (hseparator : separator.toList = ' ' :: (w ++ [' '])) (hflat : isFlat false w = true)
    (hword : w ∉ Segment.operators.map String.toList) (hblank : ' ' ∉ w) :
    cutAt separator (rewriteReferences x ns) = [rewriteReferences x ns] := by
  obtain ⟨-, hcut⟩ := @cutFrom_eq _ _ _ h hplain hns hword hblank [] fun ps hwalk => by
    rw [pieces, List.append_nil]
    exact hwalk.beginsWith_eq_false rfl hflat
  rw [List.append_nil] at hcut
  rw [cutAt_eq_map, hseparator, hcut, pieces, cutFrom]
  simp [prependTo]

/-- It stays whole at bars, also with a blank behind it. -/
theorem cutAt_bar (h : IsOperand x) (hplain : LooksPlain x) (hns : isAsciiName ns = true) :
    cutAt " | " (rewriteReferences x ns ++ " ") = [rewriteReferences x ns ++ " "] := by
  have hpieces : pieces " ".toList = [.char ' '] := by simp [pieces, Piece.isQuote]
  have hcore : ∀ ps, Walk true isOperandChar 0 false ps 0 false →
      beginsWith (['|'] ++ [' ']) (ps ++ pieces " ".toList) = false := by
    -- such a text begins with no bar, and at its end a blank comes first
    intro ps hwalk
    rw [hpieces, Bool.eq_false_iff]
    intro hbegins
    cases ps with
    | nil => cases (beginsWith_cons.1 hbegins).1
    | cons p ps =>
      obtain ⟨-, -, -, hp⟩ := hwalk.step
      rcases hp rfl '|' (beginsWith_cons.1 hbegins).1 with hbar | hbar <;> cases hbar
  have hcut : cutFrom barText 0 false (pieces ((rewriteReferences x ns).toList ++ " ".toList)) =
      prependTo (rewriteReferences x ns).toList (cutFrom barText 0 false (pieces " ".toList)) :=
    (h.cutFrom_eq hplain hns (by decide) (by decide) hcore).2
  have hblank : cutFrom barText 0 false [.char ' '] = ([' '], []) := by
    rw [cutFrom_cons (by decide), cutFrom]
    rfl
  rw [cutAt_eq_map, toList_bar, String.toList_append, hcut, hpieces, hblank]
  simp [prependTo]

/-- More in brackets behind an operand. -/
theorem followed {y : String} {first last : Mark} (h : IsOperand x)
    (hfirst : first ∈ [Mark.openBracket, Mark.openAngle]) (hlast : last.bracket true = .closes)
    (hy : Spelled (fun _ => True) CanEnd y) :
    IsOperand (x ++ (String.ofList first.text ++ y ++ String.ofList last.text)) := by
  induction h with
  | core h => exact .core (h.followed hfirst hlast hy)
  | phrase hword _ ih =>
    rw [String.append_assoc]
    exact .phrase hword ih

end IsOperand

/-! ## What resolution makes of types -/

/-- **A type that holds no text that is kept as it is**: no part of it is such a text, or the property
of another type. -/
def TypeNode.IsComposed (t : TypeNode) : Prop :=
  ∀ u ∈ t.subterms, u.isRaw = false ∧ u.isIndexed = false

/-- **A type that stands alone**: its text is an operand, unless it is a union, a function or an
intersection. -/
structure ResolvedType.StandsAlone (t : ResolvedType) : Prop where
  areSpelled : t.AreSpelled
  operand : t.kind.isComposite = false → IsOperand t.text
  nonempty : t.kind = .raw → t.text ≠ ""

section

variable {s : Scope} {name word x : String} {kind : TypeKind} {t : ResolvedType}
  {types : List ResolvedType} {arguments : List (List ResolvedType)}

theorem TypeNode.IsComposed.part {t part : TypeNode} (h : t.IsComposed) (hpart : part ∈ t.parts) :
    part.IsComposed :=
  fun _ hu => h _ (TypeNode.subterms_subset hpart hu)

theorem composed_object {members : List Member} (h : ∀ m ∈ members, ∀ t ∈ m.types, t.IsComposed) :
    (TypeNode.object members).IsComposed := by
  intro u hu
  rw [TypeNode.subterms_eq] at hu
  obtain rfl | hu := List.mem_cons.1 hu
  · exact ⟨rfl, rfl⟩
  · obtain ⟨part, hpart, hu⟩ := List.mem_flatMap.1 hu
    obtain ⟨m, hm, ht⟩ := List.mem_flatMap.1 hpart
    exact h m hm part ht u hu

theorem composed_reference : (TypeNode.reference name []).IsComposed := by
  rw [TypeNode.IsComposed, TypeNode.subterms_eq]
  exact List.forall_mem_singleton.2 ⟨rfl, rfl⟩

theorem isOperand_word (h : IsNameText name) : IsOperand name := .core (.solid (.name h trivial))

theorem isOperand_string (h : Token.Whole (.string x)) : IsOperand x :=
  .core (.solid (.string h trivial))

/-- A name with its arguments. -/
theorem isOperand_named (hx : Spelled Segment.IsWord NameEnds x)
    (h : ∀ types ∈ arguments, ∀ t ∈ types, t.AreSpelled) :
    IsOperand (x ++ argumentsText arguments) := by
  unfold argumentsText
  split
  · rw [String.append_empty]
    exact .core (.solid hx)
  · exact @IsOperand.followed _ _ .openAngle .closeAngle (.core (.solid hx)) (by decide) rfl
      (spelled_singles h)

/-- **One type made of constituents** is one of them, or has a name of its own, or is a union. -/
theorem single_cases (types : List ResolvedType) :
    (∃ t ∈ types, single types = t) ∨
      (∃ word kind, IsNameText word ∧ kind ≠ .raw ∧ single types = .plain word kind) ∨
      ∃ text, single types = .plain text .union := by
  unfold single
  split
  · exact .inr (.inl ⟨"never", .never, show Token.IsRun _ by decide, nofun, rfl⟩)
  · exact .inl ⟨_, List.mem_singleton_self _, rfl⟩
  · dsimp only
    split
    · split
      · exact .inr (.inl ⟨"boolean", .boolean, show Token.IsRun _ by decide, nofun, rfl⟩)
      · exact .inr (.inr ⟨_, rfl⟩)
    · exact .inr (.inr ⟨_, rfl⟩)

namespace ResolvedType.StandsAlone

theorem of_operand (h : (ResolvedType.plain x kind).AreSpelled) (hx : IsOperand x)
    (hkind : kind = .raw → x ≠ "") : (ResolvedType.plain x kind).StandsAlone :=
  ⟨h, fun _ => hx, hkind⟩

theorem of_composite (h : (ResolvedType.plain x kind).AreSpelled) (hkind : kind.isComposite = true) :
    (ResolvedType.plain x kind).StandsAlone := by
  refine ⟨h, fun hnot => absurd (hkind.symm.trans hnot) nofun, ?_⟩
  rintro rfl
  cases hkind

/-- **What stands alone is an operand**, in parentheses if it has to be. -/
theorem isOperand_operandText (h : t.StandsAlone) : IsOperand t.operandText := by
  unfold ResolvedType.operandText
  split
  · exact .core (@IsCore.enclosed _ .openParen .closeParen rfl rfl h.areSpelled.1.spelled)
  · next hkind => exact h.operand (by simpa using hkind)

theorem isOperand_array (h : t.StandsAlone) : IsOperand (t.operandText ++ "[]") :=
  @IsOperand.followed _ "" .openBracket .closeBracket h.isOperand_operandText (by decide) rfl .empty

theorem single (h : ∀ t ∈ types, t.StandsAlone) : (FluentBuilders.single types).StandsAlone := by
  have hspelled := Spelled.single fun t ht => (h t ht).areSpelled
  obtain ⟨t, ht, heq⟩ | ⟨word, kind, hword, hkind, heq⟩ | ⟨text, heq⟩ := single_cases types
  · exact heq ▸ h t ht
  · rw [heq] at hspelled ⊢
    exact .of_operand hspelled (isOperand_word hword) fun hraw => absurd hraw hkind
  · rw [heq] at hspelled ⊢
    exact .of_composite hspelled rfl

theorem readonly (h : t.StandsAlone) : (readonlyType t).StandsAlone := by
  unfold readonlyType
  split
  · next hkind =>
    have hcomposite : t.kind.isComposite = false := by
      rcases hkind with hkind | hkind <;> rw [hkind] <;> rfl
    exact .of_operand (Spelled.areSpelled (spelled_readonly h.areSpelled.1.spelled) (.inl rfl))
      (@IsOperand.phrase "readonly" _ (by decide) (h.operand hcomposite)) nofun
  · exact h

theorem intrinsic : ∀ t ∈ intrinsicTypes, t.StandsAlone := by
  have hkind : ∀ t ∈ intrinsicTypes, t.kind ≠ .raw := by decide
  intro t ht
  exact ⟨areSpelled_intrinsic t ht, fun _ => isOperand_word (isNameText_intrinsic ht),
    fun hraw => absurd hraw (hkind t ht)⟩

theorem literal {kind : LiteralKind} (h : (TypeNode.literal kind x).Formed) :
    (Literal.type (kind, x)).StandsAlone := by
  refine ⟨spelled_literal h, fun _ => ?_, ?_⟩
  · cases kind with
    | string => exact isOperand_string (Token.whole_typeLiteral x)
    | number => exact isOperand_word (isNameText_of_isAtom (TypeNode.formed_iff.1 h).1.1)
    | template => exact .core (.solid (.template (whole_template h) trivial))
  · cases kind <;> exact nofun

end ResolvedType.StandsAlone

/-- **In a tame file without text that is kept as it is every type stands alone.** -/
def operandInvariant (hs : s.Tame) (hformed : s.contents.Formed)
    (hnames : ∀ d ∈ s.contents.aliases, IsReadName d.name)
    (hcomposed : ∀ t ∈ s.contents.types, t.IsComposed) : Invariant s :=
  let I := segmentInvariant hs hformed hnames
  { Node := fun t => I.Node t ∧ t.IsComposed
    Word := I.Word
    Name := I.Name
    Shown := ResolvedType.StandsAlone
    ElementText := I.ElementText
    ParameterText := I.ParameterText
    MemberText := I.MemberText
    node_part := fun hnode hpart => ⟨I.node_part hnode.1 hpart, hnode.2.part hpart⟩
    node_word := fun hnode hw => I.node_word hnode.1 hw
    node_name := fun hnode => I.node_name hnode.1
    node_member := fun hnode hm => ⟨I.node_member hnode.1 hm,
      composed_object (List.forall_mem_singleton.2 fun t ht =>
        hnode.2.part (List.mem_flatMap.2 ⟨_, hm, ht⟩))⟩
    node_types := fun t ht => ⟨I.node_types t ht, hcomposed t ht⟩
    node_members := fun d hd => ⟨I.node_members d hd, composed_object fun m hm t ht =>
      hcomposed t (Contents.member_mem_types hd hm ht)⟩
    node_values := ⟨⟨I.node_values.1, composed_reference⟩, ⟨I.node_values.2, composed_reference⟩⟩
    name_alias := I.name_alias
    intrinsic := .intrinsic
    literal := fun hnode => .literal hnode.1.1
    key := fun name => .of_operand (I.key name)
      (isOperand_string (Token.whole_typeLiteral name)) nofun
    raw := fun hnode => absurd (hnode.2 _ (TypeNode.self_mem_subterms _)).1 nofun
    query := fun {name} hnode => .of_operand (I.query hnode.1)
      (@IsOperand.phrase "typeof" name (by decide)
        (isOperand_word (isNameText_of_dotted (TypeNode.formed_iff.1 hnode.1.1).1)))
      fun _ hempty => absurd (String.append_eq_empty_iff.1 hempty).1 (by decide)
    unique := .of_operand I.unique (@IsOperand.phrase "unique" "symbol" (by decide)
      (isOperand_word (show Token.IsRun _ by decide))) nofun
    own := fun hname hkind => .of_operand (I.own hname hkind)
      (.core (.solid (spelled_ownName hs hname (fun _ => trivial) fun _ => trivial)))
      fun _ => ownName_ne_empty s _
    named := fun {name arguments kind} hname harguments hkind =>
      have hspelled := fun types htypes t ht => (harguments types htypes t ht).areSpelled
      .of_operand (I.named hname hspelled hkind)
        (isOperand_named (spelled_ownName hs hname (fun _ => trivial) fun _ => trivial) hspelled)
        fun hraw => absurd (hraw ▸ hkind) (by decide)
    foreign := fun {name nodes arguments} hnode hforeign harguments =>
      have hspelled := fun types htypes t ht => (harguments types htypes t ht).areSpelled
      .of_operand (I.foreign hnode.1 hforeign hspelled)
        (isOperand_named (spelled_foreignName hs hformed
          (isNameText_of_dotted (TypeNode.formed_iff.1 hnode.1.1).1)
          (hnode.1.2 _ (TypeNode.self_mem_subterms _) hforeign) (fun _ => trivial) fun _ => trivial)
          hspelled) nofun
    imported := fun {module name nodes arguments} hnode harguments =>
      have hspelled := fun types htypes t ht => (harguments types htypes t ht).areSpelled
      .of_operand (I.imported hnode.1 hspelled)
        (isOperand_named (spelled_qualify hs (hnode.1.2 _ (TypeNode.self_mem_subterms _))
          (isNameText_of_dotted (TypeNode.formed_iff.1 hnode.1.1).1) (fun _ => trivial)
          fun _ => trivial) hspelled) nofun
    single := fun h => .single h
    array := fun h => ⟨I.array h.areSpelled, fun _ => h.isOperand_array, nofun⟩
    readonlyArray := fun h => .of_operand (I.readonlyArray h.areSpelled)
      (@IsOperand.phrase "readonly" _ (by decide) h.isOperand_array) nofun
    readonly := fun h => h.readonly
    keyof := fun h => .of_operand (I.keyof h.areSpelled)
      (@IsOperand.phrase "keyof" _ (by decide) h.isOperand_operandText)
      fun _ hempty => absurd (String.append_eq_empty_iff.1 hempty).1 (by decide)
    indexed := fun hnode => absurd (hnode.2 _ (TypeNode.self_mem_subterms _)).2 nofun
    intersection := fun hnode hlength h =>
      .of_composite (I.intersection hnode.1 hlength fun t ht => (h t ht).areSpelled) rfl
    tuple := fun h => .of_operand (I.tuple h)
      (.core (@IsCore.enclosed _ .openBracket .closeBracket rfl rfl (.commas (fun _ => trivial) h)))
      nofun
    function := fun h hr => .of_composite (I.function h hr.areSpelled) rfl
    object := fun h => .of_operand (I.object h) (by
      obtain ⟨x, hx, htext⟩ := exists_bodyText h
      rw [htext]
      exact .core (.enclosed rfl rfl hx)) nofun
    element := fun h => I.element h.areSpelled
    namedElement := fun optional hname h => I.namedElement optional hname h.areSpelled
    restElement := fun h => I.restElement h.areSpelled
    parameter := fun optional rest hname h => I.parameter optional rest hname h.areSpelled
    index := fun readonly hkey hk hv => I.index readonly hkey hk.areSpelled hv.areSpelled
    method := fun name optional h hr => I.method name optional h hr.areSpelled
    property := fun name optional readonly h => I.property name optional readonly h.areSpelled }

end

end FluentBuilders
