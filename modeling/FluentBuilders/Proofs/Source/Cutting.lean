import FluentBuilders.Proofs.Source.Scanning

/-!
# Proofs/Source/Cutting — text cut at a separator

`cutAt` cuts a text at each separator that stands outside brackets and literals.  Texts that close
their brackets, and in which no separator begins, come back when they are joined by separators and
cut again (`cutAt_intercalate`).
-/

namespace FluentBuilders

open Piece

/-! ## Cutting -/

/-- Whether pieces begin with the characters of a separator. -/
def beginsWith (separator : List Char) (ps : List Piece) : Bool :=
  (separator.map Piece.char).isPrefixOf ps

/-- **Pieces cut at a separator** outside brackets and literals: the first part, and the others. -/
def cutFrom (separator : List Char) (depth : Int) (afterEquals : Bool) :
    List Piece → List Char × List (List Char)
  | [] => ([], [])
  | p :: ps =>
    if depth = 0 ∧ beginsWith separator (p :: ps) then
      let (part, parts) := cutFrom separator 0 false (ps.drop (separator.length - 1))
      ([], part :: parts)
    else
      let depth := (Bracket.ofPiece true afterEquals p).depth depth
      let (part, parts) := cutFrom separator depth (isEquals p) ps
      (p.text ++ part, parts)
termination_by ps => ps.length
decreasing_by
  · rw [List.length_drop, List.length_cons]
    omega
  · simp

/-- **A text cut at a separator** outside brackets and literals.  Angle brackets are brackets, but
the `>` of an arrow is none. -/
def cutAt (separator text : String) : List String :=
  let (part, parts) := cutFrom separator.toList 0 false (pieces text.toList)
  (part :: parts).map String.ofList

/-- A cut text with more text in front of it. -/
def prependTo (cs : List Char) (cut : List Char × List (List Char)) : List Char × List (List Char) :=
  (cs ++ cut.1, cut.2)

section

variable {separator : List Char} {quiet : Char → Bool} {d e : Nat} {eq eq' : Bool} {p : Piece}
  {ps rest : List Piece}

theorem cutFrom_cons {d : Int} (h : ¬(d = 0 ∧ beginsWith separator (p :: ps) = true)) :
    cutFrom separator d eq (p :: ps) =
      prependTo p.text (cutFrom separator ((Bracket.ofPiece true eq p).depth d) (isEquals p) ps) := by
  rw [cutFrom, if_neg h]
  rfl

theorem prependTo_prependTo (cs ds : List Char) (cut : List Char × List (List Char)) :
    prependTo cs (prependTo ds cut) = prependTo (cs ++ ds) cut := by
  simp [prependTo]

/-- **A cut** at the start of pieces. -/
theorem cutFrom_separator {c : Char} {cs : List Char} (rest : List Piece) :
    cutFrom (c :: cs) 0 eq ((c :: cs).map .char ++ rest) =
      ([], (cutFrom (c :: cs) 0 false rest).1 :: (cutFrom (c :: cs) 0 false rest).2) := by
  have hbegins : beginsWith (c :: cs) ((c :: cs).map .char ++ rest) = true :=
    List.isPrefixOf_iff_prefix.2 (List.prefix_append _ _)
  rw [List.map_cons, List.cons_append] at hbegins ⊢
  rw [cutFrom, if_pos ⟨rfl, hbegins⟩]
  have hdrop : (cs.map Piece.char ++ rest).drop ((c :: cs).length - 1) = rest := by
    rw [List.length_cons, Nat.add_sub_cancel]
    exact List.drop_left' (by simp)
  rw [hdrop]

/-- **One step of a walk.** -/
theorem Walk.step (h : Walk true quiet d eq (p :: ps) e eq') :
    ∃ d' : Nat, (d' : Int) = (Bracket.ofPiece true eq p).depth d ∧
      Walk true quiet d' (isEquals p) ps e eq' ∧
        (d = 0 → ∀ c, p = .char c → quiet c = true ∨ c = '=') := by
  have hpiece : ∀ {ps : List Piece}, QuietPiece quiet p ps →
      ∀ c, p = .char c → quiet c = true ∨ c = '=' := fun hquiet c hc =>
    (hquiet c hc).imp_right And.left
  cases h with
  | opens hp hquiet hs =>
    rw [← isEquals_eq_false (p := p) (by rw [hp]; decide)] at hs
    exact ⟨d + 1, by rw [hp]; rfl, hs, fun hd => hpiece (hquiet hd)⟩
  | @closes _ _ d _ _ _ hp hs =>
    rw [← isEquals_eq_false (p := p) (by rw [hp]; decide)] at hs
    exact ⟨d, by rw [hp, Bracket.depth, natCast_closes], hs, fun hd => absurd hd (by simp)⟩
  | plain hp hquiet hs => exact ⟨d, by rw [hp]; rfl, hs, fun hd => hpiece (hquiet hd)⟩

/-- **No cut on a walk** on which the separator cannot begin. -/
theorem cutFrom_walk {c : Char} {cs : List Char} (h : Walk true quiet d eq ps e eq')
    (hquiet : quiet c = false) (hequals : c ≠ '=') (rest : List Piece) :
    cutFrom (c :: cs) d eq (ps ++ rest) = prependTo (textOf ps) (cutFrom (c :: cs) e eq' rest) := by
  induction ps generalizing d eq with
  | nil =>
    cases h
    rfl
  | cons p ps ih =>
    obtain ⟨d', hd', hs, hp⟩ := h.step
    have hno : ¬((d : Int) = 0 ∧ beginsWith (c :: cs) (p :: (ps ++ rest)) = true) := by
      rintro ⟨hd, hbegins⟩
      obtain ⟨tail, heq⟩ := List.isPrefixOf_iff_prefix.1 hbegins
      rcases hp (by exact_mod_cast hd) c (List.cons.inj heq).1.symm with hc | hc
      · rw [hquiet] at hc
        cases hc
      · exact hequals hc
    rw [List.cons_append, cutFrom_cons hno, ← hd', ih hs, prependTo_prependTo, textOf_cons]

end

/-! ## Between alternatives -/

/-- What stands between the alternatives of a union. -/
def barText : List Char := [' ', '|', ' ']

/-- The end of a text, or a blank after it. -/
def EndsOrBlank (rest : List Piece) : Prop := ∀ p ∈ rest.head?, p = .char ' '

section

variable {quiet : Char → Bool} {d e : Nat} {eq eq' : Bool} {p : Piece} {ps rest : List Piece}

/-- A separator that begins before the end of a text begins there with just a blank behind it. -/
theorem beginsWith_barText (hrest : EndsOrBlank rest)
    (h : beginsWith barText (p :: (ps ++ rest)) = true) :
    beginsWith barText (p :: (ps ++ [Piece.char ' '])) = true := by
  obtain ⟨tail, heq⟩ := List.isPrefixOf_iff_prefix.1 h
  match ps with
  | [] =>
    have hbar : rest = .char '|' :: .char ' ' :: tail := (List.cons.inj heq).2.symm
    rw [hbar] at hrest
    exact absurd (hrest _ rfl) (by decide)
  | [q] =>
    cases heq
    rfl
  | q :: r :: ps =>
    cases heq
    rfl

/-- **No cut on a walk** on which no separator begins, not even with a blank behind it. -/
theorem cutFrom_uncut (h : Walk true quiet d eq ps e eq')
    (huncut : (cutFrom barText d eq (ps ++ [Piece.char ' '])).2 = []) (hrest : EndsOrBlank rest) :
    cutFrom barText d eq (ps ++ rest) = prependTo (textOf ps) (cutFrom barText e eq' rest) := by
  induction ps generalizing d eq with
  | nil =>
    cases h
    rfl
  | cons p ps ih =>
    obtain ⟨d', hd', hs, -⟩ := h.step
    have hblank : ¬((d : Int) = 0 ∧ beginsWith barText (p :: (ps ++ [Piece.char ' '])) = true) := by
      intro hbegins
      rw [List.cons_append, cutFrom, if_pos hbegins] at huncut
      cases huncut
    have hno : ¬((d : Int) = 0 ∧ beginsWith barText (p :: (ps ++ rest)) = true) :=
      fun hbegins => hblank ⟨hbegins.1, beginsWith_barText hrest hbegins.2⟩
    rw [List.cons_append, cutFrom_cons hblank, ← hd'] at huncut
    rw [List.cons_append, cutFrom_cons hno, ← hd', ih hs huncut, prependTo_prependTo, textOf_cons]

end

/-- **A text that closes its brackets**, whatever follows it; the characters outside them are of a
class. -/
def Closes (quiet : Char → Bool) (x : String) : Prop :=
  ∃ ps, (∀ after, pieces (x.toList ++ after) = ps ++ pieces after) ∧ Walk true quiet 0 false ps 0 false

/-- No blank. -/
def isNoBlank (c : Char) : Bool := c != ' '

/-- **A text stays whole** in front of a separator, and at the end. -/
def StaysWhole (x : String) : Prop :=
  ∃ ps, (∀ after, pieces (x.toList ++ after) = ps ++ pieces after) ∧
    ∀ rest, EndsOrBlank rest → cutFrom barText 0 false (ps ++ rest) =
      prependTo x.toList (cutFrom barText 0 false rest)

section

variable {quiet : Char → Bool} {x : String} {texts : List String}

theorem cutAt_eq_map (separator text : String) : cutAt separator text =
    ((cutFrom separator.toList 0 false (pieces text.toList)).1 ::
      (cutFrom separator.toList 0 false (pieces text.toList)).2).map String.ofList := rfl

theorem toList_bar : " | ".toList = barText := rfl

theorem textOf_of_pieces {ps : List Piece}
    (h : ∀ after, pieces (x.toList ++ after) = ps ++ pieces after) :
    textOf ps = x.toList := by
  have hself := h []
  rw [List.append_nil, pieces, List.append_nil] at hself
  rw [← hself, textOf_pieces]

theorem Closes.staysWhole (h : Closes isNoBlank x) : StaysWhole x := by
  obtain ⟨ps, hpieces, hwalk⟩ := h
  refine ⟨ps, hpieces, fun rest _ => ?_⟩
  rw [← textOf_of_pieces hpieces]
  exact cutFrom_walk hwalk rfl (by decide) rest

/-- **A text in which no separator begins** stays whole, if it closes its brackets. -/
theorem Closes.staysWhole_of_uncut (h : Closes quiet x) (huncut : cutAt " | " (x ++ " ") = [x ++ " "]) :
    StaysWhole x := by
  obtain ⟨ps, hpieces, hwalk⟩ := h
  have hblank : pieces (x ++ " ").toList = ps ++ [Piece.char ' '] := by
    rw [String.toList_append, hpieces]
    simp [pieces, isQuote]
  refine ⟨ps, hpieces, fun rest hrest => ?_⟩
  rw [← textOf_of_pieces hpieces]
  refine cutFrom_uncut hwalk ?_ hrest
  rw [cutAt, hblank] at huncut
  exact List.map_eq_nil_iff.1 (List.cons.inj huncut).2

/-- **No cut where nothing begins with a blank**, at separators that do. -/
theorem Closes.cutAt_eq {separator : String} {cs : List Char} (h : Closes isNoBlank x)
    (hseparator : separator.toList = ' ' :: cs) : cutAt separator x = [x] := by
  obtain ⟨ps, hpieces, hwalk⟩ := h
  have htext := textOf_of_pieces hpieces
  have hself := hpieces []
  rw [List.append_nil, pieces] at hself
  have hcut : cutFrom (' ' :: cs) 0 false (ps ++ []) =
      prependTo (textOf ps) (cutFrom (' ' :: cs) 0 false []) := cutFrom_walk hwalk rfl (by decide) []
  rw [cutAt_eq_map, hseparator, hself, hcut, htext, cutFrom]
  simp [prependTo]

/-- **Texts that stay whole** come back when they are joined and cut again. -/
theorem cutAt_intercalate (hne : texts ≠ []) (h : ∀ x ∈ texts, StaysWhole x) :
    cutAt " | " (String.intercalate " | " texts) = texts := by
  induction texts with
  | nil => exact absurd rfl hne
  | cons x texts ih =>
    obtain ⟨⟨ps, hpieces, hcut⟩, hrest⟩ := List.forall_mem_cons.1 h
    cases texts with
    | nil =>
      have hself := hpieces []
      rw [List.append_nil] at hself
      rw [String.intercalate_singleton, cutAt_eq_map, toList_bar, hself, pieces,
        hcut [] (by simp [EndsOrBlank]), cutFrom]
      simp [prependTo]
    | cons y texts =>
      have hbar : ∀ after, pieces (barText ++ after) = barText.map .char ++ pieces after :=
        fun after => pieces_inert (by simp [barText, IsInert, isQuote]) after
      have hwhole : pieces (String.intercalate " | " (x :: y :: texts)).toList =
          ps ++ (barText.map .char ++ pieces (String.intercalate " | " (y :: texts)).toList) := by
        rw [String.intercalate_cons_cons, String.toList_append, String.toList_append, List.append_assoc,
          hpieces, toList_bar, hbar]
      have hothers := ih (List.cons_ne_nil y texts) hrest
      rw [cutAt_eq_map, toList_bar] at hothers ⊢
      rw [hwhole, hcut _ (by rintro p ⟨⟩; rfl), barText, cutFrom_separator]
      simp only [prependTo, List.append_nil, List.map_cons, String.ofList_toList]
      exact congrArg _ hothers

end

end FluentBuilders
