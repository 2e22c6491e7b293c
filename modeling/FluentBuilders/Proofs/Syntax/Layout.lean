import FluentBuilders.Proofs.Syntax.Lexeme
import FluentBuilders.Syntax.Grammar

/-!
# Proofs/Syntax/Layout — tokens with blanks and comments between them

A **layout** puts a gap after each of its lexemes, made of blanks and comments.  Where the lexemes
fit together, scanning the text gives them back, whatever the gaps are (`scan?_text`), and so does
scanning it without the blanks around it (`scan?_trim`).
-/

namespace FluentBuilders

/-! ## Gaps -/

/-- **A piece of a gap**: a blank, or a comment.  A line comment takes its line break along. -/
inductive Filler where
  | blank (c : Char) (h : Token.isLayout c = true)
  | lineComment (body : List Char) (h : '\n' ∉ body)
  | blockComment (body : List Char) (h : Token.closeComment? (body ++ ['*', '/']) = some [])

/-- **What stands between two lexemes.** -/
abbrev Gap := List Filler

/-- The text of a piece. -/
def Filler.text : Filler → List Char
  | .blank c _ => [c]
  | .lineComment body _ => '/' :: '/' :: (body ++ ['\n'])
  | .blockComment body _ => '/' :: '*' :: (body ++ ['*', '/'])

/-- The text of a gap. -/
def Gap.text (gap : Gap) : List Char := gap.flatMap Filler.text

@[simp] theorem Gap.text_nil : Gap.text [] = [] := rfl

@[simp] theorem Gap.text_cons (f : Filler) (gap : Gap) :
    Gap.text (f :: gap) = f.text ++ Gap.text gap := rfl

/-! ## Layouts -/

/-- **What sources are written with**: the tokens of types, the keywords of statements, the equals
sign and the star. -/
inductive Lexeme where
  | token (t : Token)
  | keyword (word : String)
  | equals
  | star
  deriving DecidableEq

namespace Lexeme

/-- The text of a lexeme. -/
def text : Lexeme → List Char
  | .token t => t.text
  | .keyword word => word.toList
  | .equals => ['=']
  | .star => ['*']

/-- A word of ASCII characters that a name can be. -/
def isWordText (cs : List Char) : Bool := Text.isNameOver Text.isIdentifierPart cs

/-- A lexeme that can be read by itself. -/
def Valid : Lexeme → Prop
  | .token t => t.Whole
  | .keyword word => isWordText word.toList
  | .equals => True
  | .star => True

instance : (x : Lexeme) → Decidable x.Valid
  | .token t => inferInstanceAs (Decidable (Token.read? t.text = some (t, [])))
  | .keyword word => inferInstanceAs (Decidable (isWordText word.toList = true))
  | .equals => .isTrue trivial
  | .star => .isTrue trivial

/-- A character that carries a lexeme on when it comes right after it.  A keyword has to have a
blank or a comment after it. -/
def extendsWith : Lexeme → Char → Bool
  | .token t, c => t.extendsWith c
  | .keyword _, c => !(Token.isLayout c || c == '/')
  | .equals, c => c == '>'
  | .star, _ => false

/-- No blank carries a lexeme on. -/
theorem extendsWith_of_isLayout (x : Lexeme) {c : Char} (h : Token.isLayout c = true) :
    x.extendsWith c = false := by
  simp only [Token.isLayout, Bool.or_eq_true, beq_iff_eq] at h
  rcases h with (((rfl | rfl) | rfl) | rfl) | rfl <;>
    (rcases x with (_ | _ | _ | _ | _ | m) | _ | _ | _ <;>
      first | rfl | decide | (cases m <;> rfl))

/-- No comment carries a lexeme on. -/
theorem extendsWith_slash (x : Lexeme) : x.extendsWith '/' = false := by
  rcases x with (_ | _ | _ | _ | _ | m) | _ | _ | _ <;>
    first | rfl | decide | (cases m <;> rfl)

/-- **No gap carries a lexeme on.** -/
theorem extendsWith_filler (x : Lexeme) (f : Filler) : ∀ c ∈ f.text.head?, x.extendsWith c = false := by
  rintro c hc
  cases f with
  | blank d h => cases hc; exact x.extendsWith_of_isLayout h
  | lineComment => cases hc; exact x.extendsWith_slash
  | blockComment => cases hc; exact x.extendsWith_slash

/-- No lexeme ends in a blank. -/
theorem Valid.isBlank_getLast? {x : Lexeme} (h : x.Valid) :
    ∀ c ∈ x.text.getLast?, Text.isBlank c = false := by
  cases x with
  | token t => exact (Token.shape_of_read? h).isBlank_getLast?
  | keyword word =>
    intro c hc
    have hmem := List.mem_of_getLast? hc
    rw [text] at hmem
    change isWordText word.toList = true at h
    cases hword : word.toList with
    | nil => rw [hword] at hmem; cases hmem
    | cons d ds =>
      rw [hword] at h hmem
      unfold isWordText at h
      simp only [Text.isNameOver, Bool.and_eq_true, List.all_eq_true] at h
      rcases List.mem_cons.1 hmem with rfl | hmem
      · exact Text.isBlank_eq_false_of_isIdentifierPart
          (Text.isIdentifierPart_of_isIdentifierStart h.1)
      · exact Text.isBlank_eq_false_of_isIdentifierPart (h.2 c hmem)
  | equals => rintro c hc; cases hc; rfl
  | star => rintro c hc; cases hc; rfl

/-- No lexeme begins with a blank. -/
theorem Valid.isBlank_head? {x : Lexeme} (h : x.Valid) :
    ∀ c ∈ x.text.head?, Text.isBlank c = false := by
  intro c hc
  cases x with
  | token t =>
    by_contra hblank
    rw [Bool.not_eq_false] at hblank
    change t.text.head? = some c at hc
    obtain ⟨cs, hcs⟩ := List.head?_eq_some_iff.1 hc
    change Token.read? t.text = _ at h
    rw [hcs, Token.read?_of_isBlank hblank] at h
    cases h
  | keyword word =>
    change isWordText word.toList = true at h
    change word.toList.head? = some c at hc
    obtain ⟨cs, hcs⟩ := List.head?_eq_some_iff.1 hc
    rw [hcs, isWordText, Text.isNameOver, Bool.and_eq_true] at h
    exact Text.isBlank_eq_false_of_isIdentifierPart
      (Text.isIdentifierPart_of_isIdentifierStart h.1)
  | equals => cases hc; rfl
  | star => cases hc; rfl

theorem Valid.text_ne_nil {x : Lexeme} (h : x.Valid) : x.text ≠ [] := by
  cases x with
  | token t => exact Token.text_ne_nil_of_read? h
  | keyword word =>
    rintro hnil
    change isWordText word.toList = true at h
    rw [show word.toList = [] from hnil] at h
    cases h
  | equals => simp [text]
  | star => simp [text]

end Lexeme

/-- **Lexemes, each with the gap after it.** -/
abbrev Layout := List (Lexeme × Gap)

namespace Layout

/-- The text of a layout. -/
def text (l : Layout) : List Char := l.flatMap fun p => p.1.text ++ p.2.text

/-- The lexemes of a layout. -/
def lexemes (l : Layout) : List Lexeme := l.map (·.1)

@[simp] theorem text_nil : text [] = [] := rfl

@[simp] theorem text_cons (x : Lexeme) (gap : Gap) (l : Layout) :
    text ((x, gap) :: l) = x.text ++ (gap.text ++ text l) := by
  simp [text]

@[simp] theorem text_append (l l' : Layout) : text (l ++ l') = text l ++ text l' := by
  simp [text]

/-- **The lexemes stand apart** in front of the text `after`: none is carried on by what comes
next. -/
def Apart : Layout → List Char → Prop
  | [], _ => True
  | (x, gap) :: l, after =>
    (∀ c ∈ (gap.text ++ (text l ++ after)).head?, x.extendsWith c = false) ∧ Apart l after

instance decidableApart : (l : Layout) → (after : List Char) → Decidable (l.Apart after)
  | [], _ => .isTrue trivial
  | (x, gap) :: l, after =>
    have := decidableApart l after
    inferInstanceAs (Decidable
      ((∀ c ∈ (gap.text ++ (text l ++ after)).head?, x.extendsWith c = false) ∧ Apart l after))

/-- **The lexemes fit together** in front of the text `after`: each can be read by itself, and none
is carried on by what comes next. -/
def Fits : Layout → List Char → Prop
  | [], _ => True
  | (x, gap) :: l, after =>
    x.Valid ∧ (∀ c ∈ (gap.text ++ (text l ++ after)).head?, x.extendsWith c = false) ∧
      Fits l after

theorem Apart.fits {l : Layout} {after : List Char} (h : l.Apart after)
    (hvalid : ∀ x ∈ l.lexemes, x.Valid) : l.Fits after := by
  induction l with
  | nil => trivial
  | cons p l ih =>
    simp only [lexemes, List.map_cons, List.forall_mem_cons] at hvalid
    exact ⟨hvalid.1, h.1, ih h.2 hvalid.2⟩

theorem fits_append {l l' : Layout} {after : List Char} :
    Fits (l ++ l') after ↔ Fits l (text l' ++ after) ∧ Fits l' after := by
  induction l with
  | nil => simp [Fits]
  | cons p l ih =>
    obtain ⟨x, gap⟩ := p
    simp [Fits, ih, and_assoc]

/-- Whether lexemes fit depends on one character after them. -/
theorem Fits.congr {l : Layout} {after after' : List Char} (h : l.Fits after)
    (hhead : after.head? = after'.head?) : l.Fits after' := by
  induction l with
  | nil => trivial
  | cons p l ih =>
    obtain ⟨hvalid, hnext, hfits⟩ := h
    refine ⟨hvalid, ?_, ih hfits⟩
    simpa only [List.head?_append, ← hhead] using hnext

/-- A layout begins with no blank. -/
theorem Fits.isBlank_head? {l : Layout} {after : List Char} (h : l.Fits after) :
    ∀ c ∈ l.text.head?, Text.isBlank c = false := by
  cases l with
  | nil => rintro c hc; cases hc
  | cons p l =>
    intro c hc
    rw [text_cons, List.head?_append] at hc
    cases hhead : p.1.text.head? with
    | none => exact absurd (List.head?_eq_none_iff.1 hhead) h.1.text_ne_nil
    | some d =>
      rw [hhead] at hc
      cases hc
      exact h.1.isBlank_head? c hhead

end Layout

/-! ## Scanning -/

namespace Token

theorem closeComment?_length_le {cs rest : List Char} (h : closeComment? cs = some rest) :
    rest.length ≤ cs.length := by
  fun_induction closeComment? cs with
  | case1 => cases h
  | case2 => cases h; simp only [List.length_cons]; omega
  | case3 _ _ _ ih => have := ih h; simp only [List.length_cons]; omega

theorem closeComment?_append {cs rest : List Char} (after : List Char)
    (h : closeComment? cs = some rest) : closeComment? (cs ++ after) = some (rest ++ after) := by
  fun_induction closeComment? cs with
  | case1 => cases h
  | case2 => cases h; rfl
  | case3 c cs hc ih =>
    rw [List.cons_append, closeComment?]
    · exact ih h
    · rintro rest' rfl heq
      cases cs with
      | nil => cases h
      | cons d cs =>
        cases heq
        exact hc _ rfl rfl

theorem scanWithin?_of_length_lt {fuel fuel' : Nat} {cs : List Char} (h : cs.length < fuel)
    (h' : cs.length < fuel') : scanWithin? fuel cs = scanWithin? fuel' cs := by
  induction fuel generalizing fuel' cs with
  | zero => omega
  | succ fuel ih =>
    obtain ⟨fuel', rfl⟩ : ∃ n, fuel' = n + 1 := ⟨fuel' - 1, by omega⟩
    unfold scanWithin?
    split
    · rfl
    · next rest =>
      have := (List.dropWhile_sublist (fun c => decide (c ≠ '\n')) (l := rest)).length_le
      simp only [List.length_cons] at h h'
      exact ih (by omega) (by omega)
    · next rest =>
      split
      · rfl
      · next rest' hclose =>
        have := closeComment?_length_le hclose
        simp only [List.length_cons] at h h'
        exact ih (by omega) (by omega)
    · next c rest _ _ =>
      simp only [List.length_cons] at h h'
      split
      · exact ih (by omega) (by omega)
      · split
        · rfl
        · next t rest' hread =>
          have hlen := congrArg List.length (eq_text_append_of_read? hread)
          have hpos := List.length_pos_iff.2 (text_ne_nil_of_read? hread)
          simp only [List.length_cons, List.length_append] at hlen
          rw [@ih fuel' rest' (by omega) (by omega)]

theorem scanWithin?_eq_scan? {fuel : Nat} {cs : List Char} (h : cs.length < fuel) :
    scanWithin? fuel cs = scan? cs := scanWithin?_of_length_lt h (Nat.lt_succ_self _)

@[simp] theorem scan?_nil : scan? [] = some [] := rfl

theorem scan?_blank {c : Char} (h : isLayout c = true) (cs : List Char) :
    scan? (c :: cs) = scan? cs := by
  rw [scan?, scanWithin?]
  · rw [if_pos h]
    exact scanWithin?_eq_scan? (by simp)
  · rintro rest rfl; cases h
  · rintro rest rfl; cases h

theorem scan?_lineComment (cs : List Char) :
    scan? ('/' :: '/' :: cs) = scan? (cs.dropWhile (· ≠ '\n')) := by
  rw [scan?, scanWithin?]
  refine scanWithin?_eq_scan? ?_
  have := (List.dropWhile_sublist (fun c => decide (c ≠ '\n')) (l := cs)).length_le
  simp only [List.length_cons]
  omega

theorem scan?_blockComment {cs rest : List Char} (h : closeComment? cs = some rest) :
    scan? ('/' :: '*' :: cs) = scan? rest := by
  have := closeComment?_length_le h
  rw [scan?, scanWithin?, h]
  refine scanWithin?_eq_scan? ?_
  simp only [List.length_cons]
  omega

theorem scan?_token {cs rest : List Char} {t : Token} (h : read? cs = some (t, rest)) :
    scan? cs = (scan? rest).map (t :: ·) := by
  have hlen := congrArg List.length (eq_text_append_of_read? h)
  have hpos := List.length_pos_iff.2 (text_ne_nil_of_read? h)
  rw [List.length_append] at hlen
  cases cs with
  | nil => cases h
  | cons c cs =>
    rw [scan?, scanWithin?]
    · rw [if_neg, h]
      · change (scanWithin? (c :: cs).length rest).map _ = _
        rw [scanWithin?_eq_scan? (by omega)]
      · intro hc
        rw [read?_of_isBlank (Text.isBlank_of_isLayout hc)] at h
        cases h
    · rintro rest rfl; cases h
    · rintro rest rfl; cases h

theorem dropWhile_lineBreak_append {body : List Char} (h : '\n' ∉ body) (rest : List Char) :
    (body ++ rest).dropWhile (· ≠ '\n') = rest.dropWhile (· ≠ '\n') :=
  List.dropWhile_append_of_pos fun _ hc => decide_eq_true fun heq => h (heq ▸ hc)

theorem scan?_filler (f : Filler) (rest : List Char) : scan? (f.text ++ rest) = scan? rest := by
  cases f with
  | blank c h => exact scan?_blank h rest
  | lineComment body h =>
    simp only [Filler.text, List.cons_append, List.append_assoc, List.nil_append]
    rw [scan?_lineComment, dropWhile_lineBreak_append h, List.dropWhile_cons_of_neg (by simp)]
    exact scan?_blank rfl rest
  | blockComment body h =>
    have := closeComment?_append rest h
    simp only [Filler.text, List.cons_append]
    exact scan?_blockComment this

/-- **Gaps are skipped.** -/
theorem scan?_gap (gap : Gap) (rest : List Char) : scan? (gap.text ++ rest) = scan? rest := by
  induction gap with
  | nil => rfl
  | cons f gap ih => rw [Gap.text_cons, List.append_assoc, scan?_filler, ih]

/-- **The tokens of a laid-out text.** -/
theorem scan?_text {l : Layout} {ts : List Token} {after : List Char}
    (hts : l.lexemes = ts.map .token) (hfits : l.Fits after) :
    scan? (l.text ++ after) = (scan? after).map (ts ++ ·) := by
  induction l generalizing ts with
  | nil =>
    cases ts with
    | nil => simp
    | cons => cases hts
  | cons p l ih =>
    obtain ⟨x, gap⟩ := p
    cases ts with
    | nil => cases hts
    | cons t ts =>
      simp only [Layout.lexemes, List.map_cons, List.cons.injEq] at hts
      obtain ⟨rfl, hts⟩ := hts
      obtain ⟨hvalid, hnext, hfits⟩ := hfits
      have hread := read?_text_append hvalid hnext
      rw [Layout.text_cons, List.append_assoc, List.append_assoc, Lexeme.text, scan?_token hread,
        scan?_gap, ih hts hfits, Option.map_map]
      rfl

/-! ### Between the blanks around a text -/

/-- A gap that lost blanks at its end still holds no token. -/
theorem scan?_gap_prefix {gap : Gap} {cs blanks : List Char} (h : gap.text = cs ++ blanks)
    (hblanks : Text.AllBlank blanks) : scan? cs = some [] := by
  induction gap generalizing cs with
  | nil =>
    obtain ⟨rfl, -⟩ := List.append_eq_nil_iff.1 h.symm
    rfl
  | cons f gap ih =>
    rw [Gap.text_cons] at h
    rcases List.append_eq_append_iff.1 h with ⟨ds, rfl, hgap⟩ | ⟨ds, hf, rfl⟩
    · rw [scan?_filler]
      exact ih hgap
    · -- the end of the text lies inside the piece, and only blanks of it are missing
      have hds : Text.AllBlank ds := fun c hc => hblanks c (List.mem_append_left _ hc)
      cases f with
      | blank c hc =>
        cases cs with
        | nil => rfl
        | cons d cs =>
          simp only [Filler.text, List.cons_append, List.cons.injEq] at hf
          obtain ⟨rfl, hnil⟩ := hf
          obtain ⟨rfl, -⟩ := List.append_eq_nil_iff.1 hnil.symm
          exact scan?_blank hc []
      | lineComment body hbody =>
        match cs, hf with
        | [], hf =>
          have hmem : '/' ∈ ds := by
            rw [← List.nil_append ds, ← hf]
            exact List.mem_cons_self
          exact absurd (hds '/' hmem) (by decide)
        | [_], hf =>
          simp only [Filler.text, List.cons_append, List.nil_append, List.cons.injEq] at hf
          have hmem : '/' ∈ ds := by
            rw [← hf.2]
            exact List.mem_cons_self
          exact absurd (hds '/' hmem) (by decide)
        | _ :: _ :: cs, hf =>
          simp only [Filler.text, List.cons_append, List.cons.injEq] at hf
          obtain ⟨rfl, rfl, hf⟩ := hf
          rw [scan?_lineComment]
          rcases List.append_eq_append_iff.1 hf with ⟨es, rfl, hes⟩ | ⟨es, rfl, -⟩
          · rw [dropWhile_lineBreak_append hbody]
            cases es with
            | nil => rfl
            | cons c es =>
              obtain ⟨rfl, hnil⟩ := List.cons.inj hes
              obtain ⟨rfl, -⟩ := List.append_eq_nil_iff.1 hnil.symm
              rfl
          · have hcs : '\n' ∉ cs := fun hmem => hbody (List.mem_append_left _ hmem)
            have := dropWhile_lineBreak_append hcs []
            rw [List.append_nil] at this
            rw [this]
            rfl
      | blockComment body hbody =>
        have hnil : ds = [] := by
          by_contra hne
          have hlast := congrArg List.getLast? hf
          rw [List.getLast?_append, List.getLast?_eq_some_getLast hne, Option.some_or] at hlast
          have hslash : ds.getLast hne = '/' := by
            simpa [Filler.text, List.getLast?_cons] using hlast.symm
          have := hds _ (List.getLast_mem hne)
          rw [hslash] at this
          exact absurd this (by decide)
        subst hnil
        rw [List.append_nil] at hf
        have := scan?_filler (.blockComment body hbody) []
        rw [List.append_nil, hf] at this
        exact this

/-- Blanks taken off the front of a text leave a gap there. -/
theorem exists_trimStart_gap (gap : Gap) {cs : List Char}
    (h : ∀ c ∈ cs.head?, Text.isBlank c = false) :
    ∃ gap' : Gap, Text.trimStart (gap.text ++ cs) = gap'.text ++ cs := by
  induction gap with
  | nil => exact ⟨[], Text.trimStart_of_head h⟩
  | cons f gap ih =>
    cases f with
    | blank c hc =>
      obtain ⟨gap', hgap'⟩ := ih
      refine ⟨gap', ?_⟩
      have hblank : Text.AllBlank [c] := by
        simpa [Text.AllBlank] using Text.isBlank_of_isLayout hc
      rw [Gap.text_cons, List.append_assoc]
      exact (Text.trimStart_append hblank _).trans hgap'
    | lineComment body hbody =>
      exact ⟨.lineComment body hbody :: gap, Text.trimStart_cons (by decide) _⟩
    | blockComment body hbody =>
      exact ⟨.blockComment body hbody :: gap, Text.trimStart_cons (by decide) _⟩

/-- **The tokens of a laid-out text without the blanks around it.** -/
theorem scan?_trim (gap : Gap) {l : Layout} {ts : List Token} (hts : l.lexemes = ts.map .token)
    (hfits : l.Fits []) : scan? (Text.trim (gap.text ++ l.text)) = some ts := by
  obtain ⟨gap, hgap⟩ := exists_trimStart_gap gap hfits.isBlank_head?
  rw [Text.trim, hgap]
  rcases List.eq_nil_or_concat l with rfl | ⟨l, p, rfl⟩
  · obtain rfl : ts = [] := List.map_eq_nil_iff.1 hts.symm
    obtain ⟨blanks, hblanks, htext⟩ := Text.exists_trimEnd_append gap.text
    rw [Layout.text_nil, List.append_nil]
    exact scan?_gap_prefix htext hblanks
  obtain ⟨x, last⟩ := p
  rw [List.concat_eq_append] at hts hfits ⊢
  obtain ⟨hl, hvalid, hnext, -⟩ := Layout.fits_append.1 hfits
  obtain ⟨blanks, hblanks, htext⟩ := Text.exists_trimEnd_append last.text
  generalize hkept : Text.trimEnd last.text = kept at htext
  have hend : ∀ c ∈ (gap.text ++ Layout.text l ++ x.text ++ kept).getLast?, Text.isBlank c = false := by
    intro c hc
    rw [List.getLast?_append] at hc
    cases hlast : kept.getLast? with
    | none =>
      rw [hlast, Option.none_or, List.getLast?_append] at hc
      rw [List.getLast?_eq_some_getLast hvalid.text_ne_nil] at hc
      exact hvalid.isBlank_getLast? c ((List.getLast?_eq_some_getLast _).trans hc)
    | some d =>
      rw [hlast] at hc
      cases hc
      exact Text.getLast?_trimEnd (hkept ▸ hlast)
  have htrim : Text.trimEnd (gap.text ++ Layout.text (l ++ [(x, last)])) =
      gap.text ++ (Layout.text (l ++ [(x, [])]) ++ kept) := by
    have := Text.trimEnd_append_gap hend hblanks
    simpa [htext, List.append_assoc] using this
  have hkeptFits : Layout.Fits (l ++ [(x, [])]) kept := by
    refine Layout.fits_append.2 ⟨hl.congr ?_, hvalid, ?_, trivial⟩
    · obtain ⟨c, cs, hx⟩ := List.exists_cons_of_ne_nil hvalid.text_ne_nil
      simp [hx]
    · intro c hc
      refine hnext c ?_
      rw [htext]
      cases kept with
      | nil => cases hc
      | cons d kept => simpa using hc
  rw [htrim, scan?_gap, scan?_text (by simpa [Layout.lexemes] using hts) hkeptFits,
    scan?_gap_prefix htext hblanks]
  simp

end Token

end FluentBuilders
