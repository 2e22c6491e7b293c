import FluentBuilders.Proofs.Source.Items

/-!
# Proofs/Source/Parameters — type parameters and heritage are read back

A type parameter is its name with the types of its bound and its default (`readTypeParameter_text`);
its name may be one of the words that can stand before a type parameter.  The list in angle brackets
and the heritage clause give all of theirs (`readTypeParameters_text`, `readHeritage_text`).
-/

namespace FluentBuilders

open Piece Grammar

/-! ## Bounded names -/

/-- A name that a layout has a gap after ends there. -/
theorem endsName_gap {gap : Gap} (hgap : gap.IsBare) (hne : gap.text ≠ []) (rest : List Char) :
    EndsName (gap.text ++ rest) := by
  obtain ⟨c, cs, hcs⟩ := List.exists_cons_of_ne_nil hne
  rintro d hd
  rw [hcs] at hd
  cases hd
  exact Text.isNamePart_eq_false_of_isLayout (hgap c (by rw [hcs]; exact List.mem_cons_self))

theorem toList_extends : Text.isNameOver Text.isIdentifierPart "extends".toList := by decide

theorem trimStart_extends (rest : List Char) :
    Text.trimStart ("extends".toList ++ rest) = "extends".toList ++ rest :=
  Text.trimStart_cons (by decide) _

theorem boundedName?_alone {name : String} (h : isAsciiName name) :
    boundedName? name.toList = some (name, none) := by
  simp [boundedName?, readName?_self h]

/-- A name, and `extends` with a bound. -/
theorem boundedName?_bound {name : List Char} (h : Text.isNameOver Text.isIdentifierPart name)
    {gap gap' : Gap} (hgap : gap.IsBare) (hne : gap.text ≠ []) (hgap' : gap'.IsBare)
    (hne' : gap'.text ≠ []) {bound : List Char} (hbound : bound ≠ [])
    (hhead : ∀ c ∈ bound.head?, Text.isBlank c = false) :
    boundedName? (name ++ (gap.text ++ ("extends".toList ++ (gap'.text ++ bound)))) =
      some (String.ofList name, some bound) := by
  have hrest : (gap.text ++ ("extends".toList ++ (gap'.text ++ bound))).isEmpty = false := by
    simp [hne]
  unfold boundedName?
  simp only [readName?_name h (endsName_gap hgap hne _), hrest, Option.bind_eq_bind,
    Option.bind_some, Bool.false_eq_true, if_false, skipBlanks?_append hgap.allBlank hne,
    trimStart_extends, dropWord?_append, skipBlanks?_append hgap'.allBlank hne',
    Text.trimStart_of_head hhead]
  rw [if_neg (by simpa using hbound)]
  rfl

/-- A name is no type parameter when something other than a bound follows it. -/
theorem boundedName?_unbounded {name : List Char} (h : Text.isNameOver Text.isIdentifierPart name)
    {gap : Gap} (hgap : gap.IsBare) (hne : gap.text ≠ []) {bound : List Char}
    (hhead : ∀ c ∈ bound.head?, Text.isBlank c = false)
    (hbound : wordThenBlanks? "extends" bound = none) :
    boundedName? (name ++ (gap.text ++ bound)) = none := by
  have hrest : (gap.text ++ bound).isEmpty = false := by simp [hne]
  have hnone : (Text.dropWord? "extends" bound).bind Text.skipBlanks? = none := hbound
  unfold boundedName?
  simp only [readName?_name h (endsName_gap hgap hne _), hrest, Option.bind_eq_bind,
    Option.bind_some, Bool.false_eq_true, if_false, skipBlanks?_append hgap.allBlank hne,
    Text.trimStart_of_head hhead, hnone]
  rfl

/-- A text without a modifier before a type parameter. -/
theorem modifiedName?_eq {cs : List Char}
    (h : ∀ w ∈ parameterModifiers, ∀ rest, wordThenBlanks? w cs = some rest →
      ∀ fuel, modifiedName? fuel rest = none) (fuel : Nat) :
    modifiedName? fuel cs = boundedName? cs := by
  cases fuel with
  | zero => rfl
  | succ fuel =>
    have hnone : (parameterModifiers.findSome? (wordThenBlanks? · cs)).bind (modifiedName? fuel) =
        none := by
      cases hfind : parameterModifiers.findSome? (wordThenBlanks? · cs) with
      | none => rfl
      | some rest =>
        obtain ⟨w, hw, hrest⟩ := List.exists_of_findSome?_eq_some hfind
        exact h w hw rest hrest fuel
    rw [modifiedName?, hnone]

theorem isWordText_of_mem_parameterModifiers {w : String} (h : w ∈ parameterModifiers) :
    IsWordText w.toList := by
  revert w
  simp only [IsWordText]
  decide

theorem modifiedName?_extends {gap : Gap} (hgap : gap.IsBare) (hne : gap.text ≠ [])
    {bound : List Char} (hhead : ∀ c ∈ bound.head?, Text.isBlank c = false)
    (hbound : wordThenBlanks? "extends" bound = none) (fuel : Nat) :
    modifiedName? fuel ("extends".toList ++ (gap.text ++ bound)) = none := by
  rw [modifiedName?_eq, boundedName?_unbounded toList_extends hgap hne hhead hbound]
  intro w hw rest hrest
  have hne_extends : ∀ w ∈ parameterModifiers, w.toList ≠ "extends".toList := by decide
  rw [wordThenBlanks?_word (isWordText_of_mem_parameterModifiers hw)
    (isWordText_of_isNameOver toList_extends) (endsName_gap hgap hne _).endsWord,
    if_neg (hne_extends w hw)] at hrest
  cases hrest

/-- **A name without a bound**, which may be a modifier's. -/
theorem modifiedName?_alone {name : String} (h : isAsciiName name) (fuel : Nat) :
    modifiedName? fuel name.toList = some (name, none) := by
  rw [modifiedName?_eq, boundedName?_alone h]
  intro w hw rest hrest
  have hend : EndsWord [] := by simp [EndsWord]
  have := @wordThenBlanks?_word w name.toList (isWordText_of_mem_parameterModifiers hw)
    (isWordText_of_isNameOver h) [] hend
  rw [List.append_nil, hrest] at this
  split at this <;> cases this

/-- **A name with a bound**, which may be a modifier's. -/
theorem modifiedName?_bound {name : List Char} (h : Text.isNameOver Text.isIdentifierPart name)
    {gap gap' : Gap} (hgap : gap.IsBare) (hne : gap.text ≠ []) (hgap' : gap'.IsBare)
    (hne' : gap'.text ≠ []) {bound : List Char} (hbound : bound ≠ [])
    (hhead : ∀ c ∈ bound.head?, Text.isBlank c = false)
    (hextends : wordThenBlanks? "extends" bound = none) (fuel : Nat) :
    modifiedName? fuel (name ++ (gap.text ++ ("extends".toList ++ (gap'.text ++ bound)))) =
      some (String.ofList name, some bound) := by
  rw [modifiedName?_eq, boundedName?_bound h hgap hne hgap' hne' hbound hhead]
  intro w hw rest hrest fuel
  rw [wordThenBlanks?_word (isWordText_of_mem_parameterModifiers hw)
    (isWordText_of_isNameOver h) (endsName_gap hgap hne _).endsWord] at hrest
  split at hrest
  · -- the name is a modifier: what follows it is no type parameter
    rw [skipBlanks?_append hgap.allBlank hne] at hrest
    cases hrest
    rw [trimStart_extends]
    exact modifiedName?_extends hgap' hne' hhead hextends fuel
  · cases hrest

/-! ## One type parameter -/

/-- Blanks at the end of a text make no word come off its start. -/
theorem wordThenBlanks?_of_append {w : String} {cs gap : List Char}
    (h : wordThenBlanks? w (cs ++ gap) = none) : wordThenBlanks? w cs = none := by
  unfold wordThenBlanks? at h ⊢
  cases hdrop : Text.dropWord? w cs with
  | none => rfl
  | some rest =>
    have hcs := dropWord?_eq_some hdrop
    have happend : Text.dropWord? w (cs ++ gap) = some (rest ++ gap) := by
      rw [hcs, List.append_assoc, dropWord?_append]
    rw [happend, Option.bind_some] at h
    rw [Option.bind_some]
    cases rest with
    | nil => rfl
    | cons c rest =>
      by_cases hc : Text.isBlank c = true
      · rw [List.cons_append, Text.skipBlanks?, if_pos hc] at h
        cases h
      · rw [Text.skipBlanks?, if_neg hc]

/-- No type begins with the word `extends`. -/
theorem wordThenBlanks?_extends_type {t : TypeNode} (ht : t.IsSafe) {l : Layout} {after : List Char}
    (hl : l.lexemes = lexemesOf t.tokens) (hplain : l.Plain after) :
    wordThenBlanks? "extends" l.text = none := by
  obtain ⟨x, xs, htokens, -, hx⟩ := ht.tokens_cons
  rw [htokens, lexemesOf, List.map_cons] at hl
  obtain ⟨gap, l', rfl, -⟩ := Layout.exists_cons hl
  obtain ⟨hvalid, -, hnext, -⟩ := Layout.plain_cons.1 hplain.at_end
  rw [Layout.text_cons]
  by_cases hword : ∃ w, x = .word w
  · obtain ⟨w, rfl⟩ := hword
    have hend : EndsWord (gap.text ++ Layout.text l') := by
      rw [List.append_nil] at hnext
      exact hnext
    have hw : IsWordText w.toList := isWordText_of_isNameOver (Token.isAsciiName_of_whole hvalid)
    change wordThenBlanks? "extends" (w.toList ++ _) = none
    rw [wordThenBlanks?_word (isWordText_of_isNameOver toList_extends) hw hend, if_neg]
    intro heq
    exact hx (by rw [String.toList_injective heq])
  · have hhead := Token.isIdentifierStart_head? hvalid fun w hw => hword ⟨w, hw⟩
    unfold wordThenBlanks?
    cases hdrop : Text.dropWord? "extends" ((Lexeme.token x).text ++ (gap.text ++ Layout.text l')) with
    | none => rfl
    | some rest =>
      have htext := congrArg List.head? (dropWord?_eq_some hdrop)
      obtain ⟨c, cs, hc⟩ := List.exists_cons_of_ne_nil hvalid.text_ne_nil
      rw [hc] at htext
      cases htext
      have hstart := hhead 'e' (by rw [show x.text = _ from hc]; rfl)
      exact absurd hstart (by decide)

/-- The types that a list of lexemes with `extends` may hold are passed over. -/
theorem nest_boundLexemes {bound : Option TypeNode} (h : ∀ t ∈ bound, t.IsSafe) (name : String)
    (d : Nat) : Nest true Unseparated d (.word name :: TypeParameter.boundLexemes bound) d := by
  cases bound with
  | none => exact .plain rfl (fun _ => by simp [Unseparated]) (.nil d)
  | some t =>
    exact .plain rfl (fun _ => by simp [Unseparated])
      (.plain rfl (fun _ => by simp [Unseparated]) ((h t rfl).typed.nest d))

theorem nest_parameter {p : TypeParameter} (hp : p.IsSafe) (d : Nat) :
    Nest true Unseparated d p.lexemes d := by
  refine Nest.append (nest_boundLexemes hp.bound p.name d) ?_
  cases hdefault : p.default with
  | none => exact .nil d
  | some t => exact .plain rfl (fun _ => by simp [Unseparated]) ((hp.default t hdefault).typed.nest d)

/-- The brackets of type parameters close. -/
theorem nest_parametersLexemes {ps : List TypeParameter} (hps : ∀ p ∈ ps, p.IsSafe) :
    Nest true Unseparated 0 (parametersLexemes ps) 0 := by
  cases ps with
  | nil => exact .nil 0
  | cons p ps =>
    refine .opens rfl (fun _ => by simp [Unseparated]) (Nest.append (nest_commaList ?_)
      (.closes rfl (.nil 0)))
    intro item hitem
    obtain ⟨q, hq, rfl⟩ := List.mem_map.1 hitem
    exact nest_parameter (hps q hq) 1

theorem equals_notMem_boundLexemes (bound : Option TypeNode) (name : String) :
    Lexeme.equals ∉ Lexeme.word name :: TypeParameter.boundLexemes bound := by
  cases bound with
  | none => simp [TypeParameter.boundLexemes]
  | some t => simp [TypeParameter.boundLexemes, lexemesOf]

/-- **The name and the bound** of a type parameter. -/
theorem modifiedName?_text {name : String} (hname : IsSafeName name) {bound : Option TypeNode}
    (hbound : ∀ t ∈ bound, t.IsSafe) {l : Layout} {after : List Char}
    (hl : l.lexemes = .word name :: TypeParameter.boundLexemes bound) (hplain : l.Plain after)
    {gap : Gap} (hgap : gap.IsBare) (fuel : Nat) :
    ∃ text, modifiedName? fuel (Text.trim (gap.text ++ l.text)) = some (name, text) ∧
      readOptionalType text = pure bound := by
  obtain ⟨g, l', rfl, hl'⟩ := Layout.exists_cons hl
  obtain ⟨hvalid, hg, hnext, hplain'⟩ := Layout.plain_cons.1 hplain.at_end
  rw [Text.trim_blank_append hgap.allBlank, Layout.text_cons]
  cases bound with
  | none =>
    obtain rfl := Layout.lexemes_eq_nil hl'
    refine ⟨none, ?_, rfl⟩
    have htrim : Text.trim (name.toList ++ (g.text ++ [])) = name.toList := by
      rw [List.append_nil, Text.trim_append_blank hg.allBlank]
      exact Text.trim_eq_self hvalid.isBlank_head? hvalid.isBlank_getLast?
    rw [Layout.text_nil]
    change modifiedName? fuel (Text.trim (name.toList ++ (g.text ++ []))) = _
    rw [htrim, modifiedName?_alone hname.ascii]
  | some t =>
    obtain ⟨g', lt, rfl, hlt⟩ := Layout.exists_cons hl'
    obtain ⟨-, hg', hnext', hplaint⟩ := Layout.plain_cons.1 hplain'
    have ht := hbound t rfl
    have hlne := ht.layout_ne_nil hlt
    have hne := hplaint.text_ne_nil hlne
    have hhead := hplaint.fits.isBlank_head?
    -- both gaps hold blanks: a name stands before one, a keyword before the other
    have hgne : g.text ≠ [] := hplain.word_gap ⟨'e', rfl, by decide⟩
    have hgne' : g'.text ≠ [] := hplain'.keyword_gap hlne
    obtain ⟨blanks, hblanks, htext⟩ := Text.exists_trimEnd_append lt.text
    have hkne := Text.trimEnd_ne_nil hne hhead
    have hkhead := Text.head?_trimEnd hne hhead
    have hklast : ∀ c ∈ (Text.trimEnd lt.text).getLast?, Text.isBlank c = false :=
      fun c hc => Text.getLast?_trimEnd hc
    refine ⟨some (Text.trimEnd lt.text), ?_, ?_⟩
    · have htrim : Text.trim (name.toList ++ (g.text ++ ("extends".toList ++ (g'.text ++ lt.text)))) =
          name.toList ++ (g.text ++ ("extends".toList ++ (g'.text ++ Text.trimEnd lt.text))) := by
        conv_lhs => rw [htext]
        simp only [← List.append_assoc]
        rw [Text.trim_append_blank hblanks]
        refine Text.trim_eq_self ?_ ?_
        · obtain ⟨c, cs, hc⟩ := List.exists_cons_of_ne_nil hvalid.text_ne_nil
          have hstart := hvalid.isBlank_head?
          change name.toList = c :: cs at hc
          change ∀ d ∈ name.toList.head?, _ at hstart
          simpa [hc] using hstart
        · simpa only [List.getLast?_append, List.getLast?_eq_some_getLast hkne, Option.some_or]
            using hklast
      change modifiedName? fuel (Text.trim (name.toList ++ (g.text ++ Layout.text (_ :: lt)))) = _
      rw [Layout.text_cons]
      change modifiedName? fuel (Text.trim (name.toList ++
        (g.text ++ ("extends".toList ++ (g'.text ++ lt.text))))) = _
      rw [htrim, modifiedName?_bound hname.ascii hg hgne hg' hgne' hkne
        (fun c hc => hhead c (hkhead ▸ hc)), String.ofList_toList]
      have := wordThenBlanks?_extends_type ht hlt hplaint
      rw [htext] at this
      exact wordThenBlanks?_of_append this
    · have hread : readType (Text.trimEnd lt.text) = pure t := by
        refine readType_text ht hlt hplaint ?_
        conv_rhs => rw [htext]
        rw [Text.trim_append_blank hblanks]
      rw [readOptionalType, hread]
      rfl

/-! ### Type parameters as walks -/

/-- An equals sign in front of a lexeme makes no arrow. -/
theorem exists_pieces_after_equals {gap : Gap} {l : Layout} {after : List Char}
    (h : Layout.Plain ((.equals, gap) :: l) after) (hl : l ≠ []) :
    ∃ p ps, gap.text.map Piece.char ++ l.pieces = p :: ps ∧ p ≠ .char '>' := by
  obtain ⟨-, -, hnext, hplain⟩ := Layout.plain_cons.1 h
  have htext : textOf (gap.text.map Piece.char ++ l.pieces) = gap.text ++ l.text := by
    rw [textOf_append, l.textOf_pieces]
    simp [textOf, List.flatMap_map, Piece.text]
  have hne : gap.text ++ l.text ≠ [] := List.append_ne_nil_of_right_ne_nil _ (hplain.text_ne_nil hl)
  cases hps : gap.text.map Piece.char ++ l.pieces with
  | nil =>
    rw [hps] at htext
    exact absurd htext.symm hne
  | cons p ps =>
    refine ⟨p, ps, rfl, ?_⟩
    rintro rfl
    rw [hps] at htext
    have hgreater := hnext '>' (by rw [← List.append_assoc, ← htext]; rfl)
    cases hgreater

/-- **A type parameter** leads from outside brackets to outside brackets. -/
theorem walksItem_parameter {quiet : Char → Bool} (hquiet : PassesItems quiet) {p : TypeParameter}
    (hp : p.IsSafe) : WalksItem true quiet p.lexemes := by
  intro l after hl hplain
  obtain ⟨l₁, l₂, rfl, hl₁, hl₂⟩ :=
    @Layout.exists_append l (.word p.name :: TypeParameter.boundLexemes p.bound) _ hl
  obtain ⟨hplain₁, hplain₂⟩ := Layout.plain_append.1 hplain
  have hgaps : l₁.GapsOutside true (quiet · = true) 0 :=
    gapsOutside_of_bare (fun _ => hquiet.layout) hplain₁.bare 0
  have hwalk := walk_unseparated hquiet.passesTypes (hl₁ ▸ nest_boundLexemes hp.bound p.name 0)
    (hl₁ ▸ equals_notMem_boundLexemes p.bound p.name) hplain₁ hgaps
  rw [Layout.pieces_append]
  refine hwalk.append ?_
  cases hdefault : p.default with
  | none =>
    rw [hdefault] at hl₂
    rw [Layout.lexemes_eq_nil hl₂]
    exact .nil 0 false
  | some t =>
    rw [hdefault] at hl₂
    obtain ⟨g, lt, rfl, hlt⟩ := Layout.exists_cons hl₂
    have ht := hp.default t hdefault
    obtain ⟨-, hg, -, hplaint⟩ := Layout.plain_cons.1 hplain₂
    obtain ⟨q, qs, hqs, hq⟩ := exists_pieces_after_equals hplain₂ (ht.layout_ne_nil hlt)
    have htype := walk_gap hg (fun _ => hquiet.layout) (walksItem_type hquiet ht lt after hlt hplaint)
    rw [hqs] at htype
    rw [Layout.pieces_cons, hqs]
    refine .plain rfl ?_ (htype.after_equals hq)
    rintro - c hc
    cases hc
    exact .inl (hquiet '=' (by decide) (by decide))

/-! ### Reading it back -/

/-- The text before a default, and the default. -/
theorem splitDefault_text {p : TypeParameter} (hp : p.IsSafe) {l₁ l₂ : Layout} {after : List Char}
    (hl₁ : l₁.lexemes = .word p.name :: TypeParameter.boundLexemes p.bound)
    (hl₂ : l₂.lexemes = TypeParameter.defaultLexemes p.default) (hplain : Layout.Plain (l₁ ++ l₂) after)
    {gap : Gap} (hgap : gap.IsBare) :
    ∃ text, splitDefault (gap.text ++ (l₁ ++ l₂).text) = (gap.text ++ l₁.text, text) ∧
      readOptionalType (text.filter (!·.isEmpty)) = pure p.default := by
  obtain ⟨hplain₁, hplain₂⟩ := Layout.plain_append.1 hplain
  have hquiet : PassesTypes (· != '=') := fun c _ _ hc _ => by simpa using hc
  have hlayout : ∀ c, Token.isLayout c = true → (c != '=') = true := fun c hc => by
    rw [bne_iff_ne]
    rintro rfl
    cases hc
  have hwalk := walk_unseparated hquiet (hl₁ ▸ nest_boundLexemes hp.bound p.name 0)
    (hl₁ ▸ equals_notMem_boundLexemes p.bound p.name) hplain₁
    (gapsOutside_of_bare hlayout hplain₁.bare 0)
  have hpieces : pieces (gap.text ++ (l₁ ++ l₂).text) =
      (gap.text.map .char ++ l₁.pieces) ++ l₂.pieces := by
    rw [hplain.pieces_gap hgap, Layout.pieces_append, List.append_assoc]
  have hsplit : splitDefault (gap.text ++ (l₁ ++ l₂).text) =
      (gap.text ++ l₁.text ++ (splitDefaultFrom 0 false l₂.pieces).1,
        (splitDefaultFrom 0 false l₂.pieces).2) := by
    have := splitDefaultFrom_walk (walk_gap hgap hlayout hwalk) (fun c hc => by simpa using hc)
      l₂.pieces
    rw [textOf_gap, l₁.textOf_pieces] at this
    rw [splitDefault, hpieces]
    exact this
  cases hdefault : p.default with
  | none =>
    rw [hdefault] at hl₂
    obtain rfl := Layout.lexemes_eq_nil hl₂
    refine ⟨none, ?_, rfl⟩
    rw [hsplit, Layout.pieces_nil, splitDefaultFrom, List.append_nil]
  | some t =>
    rw [hdefault] at hl₂
    obtain ⟨g, lt, rfl, hlt⟩ := Layout.exists_cons hl₂
    have ht := hp.default t hdefault
    have hne := ht.layout_ne_nil hlt
    obtain ⟨-, hg, -, hplaint⟩ := Layout.plain_cons.1 hplain₂
    obtain ⟨q, qs, hqs, hq⟩ := exists_pieces_after_equals hplain₂ hne
    have htext : textOf (q :: qs) = g.text ++ lt.text := by
      rw [← hqs, textOf_gap, lt.textOf_pieces]
    have hequals : splitDefaultFrom 0 false (Layout.pieces ((.equals, g) :: lt)) =
        ([], some (g.text ++ lt.text)) := by
      rw [Layout.pieces_cons, hqs]
      change splitDefaultFrom 0 false (.char '=' :: (q :: qs)) = _
      rw [splitDefaultFrom, if_pos ⟨rfl, rfl, by simpa using hq⟩, htext]
    refine ⟨some (g.text ++ lt.text), ?_, ?_⟩
    · rw [hsplit, hequals, List.append_nil]
    · have hsome : (some (g.text ++ lt.text)).filter (!·.isEmpty) = some (g.text ++ lt.text) := by
        simp [Option.filter, hplaint.text_ne_nil hne]
      have hread : readType (g.text ++ lt.text) = pure t :=
        readType_text ht hlt hplaint (Text.trim_blank_append hg.allBlank _)
      rw [hsome, readOptionalType, hread]
      rfl

/-- **A type parameter is read back.** -/
theorem readTypeParameter_text {p : TypeParameter} (hp : p.IsSafe) {l : Layout} {after : List Char}
    (hl : l.lexemes = p.lexemes) (hplain : l.Plain after) {gap : Gap} (hgap : gap.IsBare) :
    readTypeParameter (gap.text ++ l.text) = pure [p] := by
  obtain ⟨l₁, l₂, rfl, hl₁, hl₂⟩ :=
    @Layout.exists_append l (.word p.name :: TypeParameter.boundLexemes p.bound) _ hl
  obtain ⟨default, hsplit, hdefault⟩ := splitDefault_text hp hl₁ hl₂ hplain hgap
  obtain ⟨bound, hname, hbound⟩ := modifiedName?_text hp.name hp.bound hl₁
    (Layout.plain_append.1 hplain).1 hgap (gap.text ++ l₁.text).length
  rw [readTypeParameter, hsplit]
  simp only [hname, hbound, hdefault]
  rfl

/-! ## Lists of type parameters -/

theorem readTypeParameterItems_text {ps : List TypeParameter} (hps : ∀ p ∈ ps, p.IsSafe)
    {parts : List (Gap × Layout)} (h : ItemTexts (ps.map TypeParameter.lexemes) parts) :
    readTypeParameterItems (parts.map fun p => p.1.text ++ p.2.text) = pure ps := by
  induction ps generalizing parts with
  | nil => cases h; rfl
  | cons p ps ih =>
    rw [List.forall_mem_cons] at hps
    obtain _ | ⟨⟨hl, hgap, hplain⟩, h⟩ := h
    rw [List.map_cons, readTypeParameterItems, readTypeParameter_text hps.1 hl hplain hgap,
      ih hps.2 h]
    rfl

/-- **Type parameters are read back**, up to the text after them. -/
theorem readTypeParameters_text {ps : List TypeParameter} (hps : ∀ p ∈ ps, p.IsSafe) {l : Layout}
    {after : List Char} (hl : l.lexemes = parametersLexemes ps) (hplain : l.Plain after)
    (hafter : ∀ c ∈ after.head?, Text.isBlank c = false ∧ c ≠ '<') {gap : Gap}
    (hgap : gap.IsBare) :
    ∃ g : Gap, g.IsBare ∧
      readTypeParameters (gap.text ++ (l.text ++ after)) = (pure ps, pieces (g.text ++ after)) := by
  cases ps with
  | nil =>
    obtain rfl := Layout.lexemes_eq_nil hl
    refine ⟨[], by simp [Gap.IsBare], ?_⟩
    rw [Layout.text_nil, List.nil_append, readTypeParameters, Text.trimStart_append hgap.allBlank,
      Text.trimStart_of_head fun c hc => (hafter c hc).1]
    dsimp only
    split
    · exact absurd rfl (hafter '<' rfl).2
    · rfl
  | cons p ps =>
    obtain ⟨g₀, rest, rfl, hrest⟩ := Layout.exists_cons hl
    obtain ⟨li, last, rfl, hli, hlast⟩ := Layout.exists_append hrest
    obtain ⟨g, l', rfl, hl'⟩ := Layout.exists_cons hlast
    obtain rfl := Layout.lexemes_eq_nil hl'
    obtain ⟨-, hg₀, -, hrest⟩ := Layout.plain_cons.1 hplain
    obtain ⟨hplainli, hlast⟩ := Layout.plain_append.1 hrest
    obtain ⟨-, hg, -, -⟩ := Layout.plain_cons.1 hlast
    have hquiet : PassesItems fun _ => true := fun _ _ _ => rfl
    have hwalk := walk_gap hg₀ (fun _ _ => rfl) (walk_commaList
      (fun item hitem => by
        obtain ⟨q, hq, rfl⟩ := List.mem_map.1 hitem
        exact walksItem_parameter hquiet (hps q hq)) rfl (fun _ _ => rfl) hli hplainli)
    have hpieces : pieces ('<' :: (g₀.text ++ (li.text ++ ('>' :: (g.text ++ after))))) =
        .char '<' :: ((g₀.text.map .char ++ li.pieces) ++ .char '>' :: pieces (g.text ++ after)) := by
      have := hplain.pieces_append
      simp only [Layout.text_cons, Layout.text_append, Layout.text_nil, Layout.pieces_cons,
        Layout.pieces_append, Layout.pieces_nil, List.append_nil] at this
      rw [pieces_gap hg]
      simpa [Lexeme.text, Token.text, Mark.text, Lexeme.pieces] using this
    obtain ⟨parts, hparts, hcut⟩ := parts_commaList (by simp)
      (fun item hitem => by
        obtain ⟨q, hq, rfl⟩ := List.mem_map.1 hitem
        exact @walksItem_parameter (· != ',') (fun c hc _ => by simpa using hc) q (hps q hq))
      (fun c hc => by simpa using hc) (fun c hc => by rw [bne_iff_ne]; rintro rfl; cases hc)
      hli hplainli hg₀
    have htext : gap.text ++ (Layout.text ((.mark .openAngle, g₀) ::
        (li ++ [(Lexeme.mark .closeAngle, g)])) ++ after) =
        gap.text ++ '<' :: (g₀.text ++ (li.text ++ ('>' :: (g.text ++ after)))) := by
      simp [Lexeme.text, Token.text, Mark.text]
    refine ⟨g, hg, ?_⟩
    rw [htext, readTypeParameters, Text.trimStart_append hgap.allBlank,
      Text.trimStart_cons (by decide)]
    dsimp only
    rw [hpieces, splitBlock_walk rfl rfl hwalk]
    dsimp only
    rw [insideOf_block, textOf_gap, li.textOf_pieces, splitTopLevel, hplainli.pieces_gap hg₀, hcut,
      readTypeParameterItems_text hps hparts]
    rfl

/-! ## Heritage -/

theorem readHeritageItems_text {ts : List TypeNode} (hts : ∀ t ∈ ts, t.IsSafe)
    {parts : List (Gap × Layout)} (h : ItemTexts (ts.map fun t => lexemesOf t.tokens) parts) :
    readHeritageItems (parts.map fun p => p.1.text ++ p.2.text) = pure ts := by
  induction ts generalizing parts with
  | nil => cases h; rfl
  | cons t ts ih =>
    rw [List.forall_mem_cons] at hts
    obtain _ | @⟨_, p, _, parts, ⟨hl, hgap, hplain⟩, h⟩ := h
    have hne := hplain.text_ne_nil (hts.1.layout_ne_nil hl)
    have htrim := Text.trim_blank_append hgap.allBlank p.2.text
    have hfull : (Text.trim (p.1.text ++ p.2.text)).isEmpty = false := by
      rw [htrim, Text.trim, Text.trimStart_of_head hplain.fits.isBlank_head?]
      simpa using Text.trimEnd_ne_nil hne hplain.fits.isBlank_head?
    rw [List.map_cons, readHeritageItems, hfull, readType_text hts.1 hl hplain htrim, ih hts.2 h]
    rfl

/-- **Heritage is read back.** -/
theorem readHeritage_text {ts : List TypeNode} (hts : ∀ t ∈ ts, t.IsSafe) {l : Layout}
    {after : List Char} (hl : l.lexemes = heritageLexemes ts) (hplain : l.Plain after) {gap : Gap}
    (hgap : gap.IsBare) : readHeritage (gap.text ++ l.text) = pure ts := by
  rw [readHeritage, Text.trim_blank_append hgap.allBlank]
  cases ts with
  | nil => rw [Layout.lexemes_eq_nil hl]; rfl
  | cons t ts =>
    obtain ⟨g, li, rfl, hli⟩ := Layout.exists_cons hl
    obtain ⟨-, hg, -, hplainli⟩ := Layout.plain_cons.1 hplain
    have hne : li ≠ [] := by
      rintro rfl
      obtain ⟨x, xs, htokens, -⟩ := (hts t List.mem_cons_self).tokens_cons
      have hfirst : lexemesOf t.tokens ≠ [] := by simp [lexemesOf, htokens]
      exact commaList_ne_nil hfirst hli.symm
    obtain ⟨li', hli', hplain', ⟨blanks, hblanks, htext⟩, hlast⟩ := hplainli.exists_trimEnd hne
    have htrim : Text.trim (Layout.text ((.keyword "extends", g) :: li)) =
        "extends".toList ++ (g.text ++ li'.text) := by
      have hhead : ∀ c ∈ ("extends".toList ++ (g.text ++ li'.text)).head?, Text.isBlank c = false := by
        rintro c ⟨⟩
        decide
      have hend : ∀ c ∈ ("extends".toList ++ (g.text ++ li'.text)).getLast?,
          Text.isBlank c = false := by
        have hne' := hplain'.text_ne_nil (by rintro rfl; exact hne (Layout.lexemes_eq_nil hli'.symm))
        simpa only [List.getLast?_append, List.getLast?_eq_some_getLast hne', Option.some_or]
          using hlast
      rw [Layout.text_cons, htext]
      change Text.trim ("extends".toList ++ (g.text ++ (li'.text ++ blanks))) = _
      rw [← List.append_assoc g.text, ← List.append_assoc, Text.trim_append_blank hblanks,
        Text.trim_eq_self hhead hend]
    obtain ⟨parts, hparts, hcut⟩ := parts_commaList (by simp)
      (fun item hitem => by
        obtain ⟨u, hu, rfl⟩ := List.mem_map.1 hitem
        exact @walksItem_type (· != ',') (fun c hc _ => by simpa using hc) u (hts u hu))
      (fun c hc => by simpa using hc) (fun c hc => by rw [bne_iff_ne]; rintro rfl; cases hc)
      (hli'.trans hli) hplain' hg
    rw [htrim, dropWord?_append]
    dsimp only
    rw [splitTopLevel, hplain'.pieces_gap hg, hcut, readHeritageItems_text hts hparts]

end FluentBuilders
