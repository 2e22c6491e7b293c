import FluentBuilders.Proofs.Source.Scanning
import FluentBuilders.Proofs.Source.Writing
import FluentBuilders.Proofs.Text.Words

/-!
# Proofs/Source/Items — items between commas, and the types in them

A list of items is cut at its commas into the texts of its items (`parts_commaList`), whatever
brackets the items have in them, and the text of a type is read as that type (`readType_text`).
-/

namespace FluentBuilders

open Piece Grammar

/-! ## Cutting at commas -/

/-- The texts of items that have been cut apart. -/
abbrev ItemTexts (items : List (List Lexeme)) (parts : List (Gap × Layout)) : Prop :=
  List.Forall₂ (fun item p => p.2.lexemes = item ∧ p.1.IsBare ∧ p.2.Plain []) items parts

section

variable {angles : Bool} {quiet : Char → Bool}

/-- The blanks of a gap lead nowhere. -/
theorem walk_gap {d e : Nat} {eq : Bool} {ps : List Piece} {gap : Gap} (hgap : gap.IsBare)
    (hblank : ∀ c, Token.isLayout c = true → quiet c = true)
    (h : Walk angles quiet d false ps e eq) :
    Walk angles quiet d false (gap.text.map .char ++ ps) e eq :=
  walk_plain (fun c hc => isPlain_of_isLayout (hgap c hc)) (fun _ c hc => hblank c (hgap c hc)) h

/-- The items `item` of a list lead from outside brackets to outside brackets. -/
def WalksItem (angles : Bool) (quiet : Char → Bool) (item : List Lexeme) : Prop :=
  ∀ (l : Layout) (after : List Char), l.lexemes = item → l.Plain after →
    Walk angles quiet 0 false l.pieces 0 false

theorem textOf_gap (gap : Gap) (ps : List Piece) :
    textOf (gap.text.map Piece.char ++ ps) = gap.text ++ textOf ps := by
  rw [textOf_append]
  simp [textOf, List.flatMap_map, Piece.text]

theorem commaList_ne_nil {item : List Lexeme} {items : List (List Lexeme)} (h : item ≠ []) :
    commaList (item :: items) ≠ [] := by
  cases items with
  | nil => exact h
  | cons next items => simp [commaList]

/-- Items in brackets whose own brackets close. -/
theorem nest_commaList {items : List (List Lexeme)} {d : Nat}
    (h : ∀ item ∈ items, Nest angles Unseparated (d + 1) item (d + 1)) :
    Nest angles Unseparated (d + 1) (commaList items) (d + 1) := by
  induction items with
  | nil => exact .nil _
  | cons item items ih =>
    rw [List.forall_mem_cons] at h
    cases items with
    | nil => exact h.1
    | cons next items =>
      exact Nest.append h.1 (.plain (by cases angles <;> rfl) (fun hd => by simp at hd) (ih h.2))

theorem splitFrom_comma (ps : List Piece) :
    splitFrom angles [','] 0 false (.char ',' :: ps) = (splitFrom angles [','] 0 false ps).cut ',' := by
  rw [splitFrom.eq_def]
  cases angles <;> rfl

/-- **A list is cut at its commas**: each part is a gap and a layout of one item. -/
theorem parts_commaList {items : List (List Lexeme)} (hne : items ≠ [])
    (hwalk : ∀ item ∈ items, WalksItem angles quiet item)
    (hquiet : ∀ c, quiet c = true → c ≠ ',')
    (hblank : ∀ c, Token.isLayout c = true → quiet c = true) {l : Layout} {after : List Char}
    (hl : l.lexemes = commaList items) (hplain : l.Plain after) {gap : Gap} (hgap : gap.IsBare) :
    ∃ parts : List (Gap × Layout),
      ItemTexts items parts ∧
      (splitFrom angles [','] 0 false (gap.text.map .char ++ l.pieces)).parts =
        parts.map fun p => p.1.text ++ p.2.text := by
  have hseparators : ∀ c, quiet c = true → [','].contains c = false := fun c hc => by
    simpa using hquiet c hc
  -- one item between gaps is passed over
  have hpass : ∀ {item : List Lexeme} {l : Layout} {after : List Char} {gap : Gap},
      WalksItem angles quiet item → l.lexemes = item → l.Plain after → gap.IsBare →
      ∀ rest, splitFrom angles [','] 0 false (gap.text.map .char ++ (l.pieces ++ rest)) =
        (splitFrom angles [','] 0 false rest).prepend (gap.text ++ l.text) := by
    intro item l after gap hitem hl hplain hgap rest
    have hwalks := walk_gap hgap hblank (hitem l after hl hplain)
    have := splitFrom_walk hwalks hseparators (by decide) rest
    rw [List.append_assoc, textOf_append, Layout.textOf_pieces] at this
    simpa [textOf, List.flatMap_map, Piece.text] using this
  induction items generalizing l gap with
  | nil => exact absurd rfl hne
  | cons item items ih =>
    rw [List.forall_mem_cons] at hwalk
    cases items with
    | nil =>
      refine ⟨[(gap, l)], .cons ⟨hl, hgap, hplain.at_end⟩ .nil, ?_⟩
      have := hpass hwalk.1 hl hplain hgap []
      rw [List.append_nil] at this
      rw [this, splitFrom.eq_def]
      simp [Split.prepend, Split.parts]
    | cons next items =>
      obtain ⟨l₁, rest, rfl, hl₁, hrest⟩ := Layout.exists_append hl
      obtain ⟨gap', l₂, rfl, hl₂⟩ := Layout.exists_cons hrest
      obtain ⟨hplain₁, hplain₂⟩ := Layout.plain_append.1 hplain
      obtain ⟨-, hgap', -, hplain₂⟩ := Layout.plain_cons.1 hplain₂
      obtain ⟨parts, hparts, hcut⟩ := ih (by simp) hwalk.2 hl₂ hplain₂ hgap'
      refine ⟨(gap, l₁) :: parts, .cons ⟨hl₁, hgap, hplain₁.at_end⟩ hparts, ?_⟩
      rw [Layout.pieces_append, hpass hwalk.1 hl₁ hplain₁ hgap, Layout.pieces_cons]
      change ((splitFrom angles [','] 0 false (.char ',' :: _)).prepend _).parts = _
      rw [splitFrom_comma, List.map_cons, ← hcut]
      simp [Split.parts, Split.cut, Split.prepend]

end

/-! ## Blocks -/

section

variable {angles : Bool} {quiet : Char → Bool}

/-- **A list of items** leads from outside brackets to outside brackets. -/
theorem walk_commaList {items : List (List Lexeme)}
    (hwalk : ∀ item ∈ items, WalksItem angles quiet item) (hcomma : quiet ',' = true)
    (hblank : ∀ c, Token.isLayout c = true → quiet c = true) {l : Layout} {after : List Char}
    (hl : l.lexemes = commaList items) (hplain : l.Plain after) :
    Walk angles quiet 0 false l.pieces 0 false := by
  induction items generalizing l with
  | nil => rw [Layout.lexemes_eq_nil hl]; exact .nil 0 false
  | cons item items ih =>
    rw [List.forall_mem_cons] at hwalk
    cases items with
    | nil => exact hwalk.1 l after hl hplain
    | cons next items =>
      obtain ⟨l₁, rest, rfl, hl₁, hrest⟩ := Layout.exists_append hl
      obtain ⟨gap, l₂, rfl, hl₂⟩ := Layout.exists_cons hrest
      obtain ⟨hplain₁, hplain₂⟩ := Layout.plain_append.1 hplain
      obtain ⟨-, hgap, -, hplain₂⟩ := Layout.plain_cons.1 hplain₂
      rw [Layout.pieces_append, Layout.pieces_cons]
      refine (hwalk.1 l₁ _ hl₁ hplain₁).append ?_
      have hrest := walk_gap hgap hblank (ih hwalk.2 hl₂ hplain₂)
      refine .plain (by cases angles <;> rfl) ?_ hrest
      rintro - c hc
      cases hc
      exact .inl hcomma

/-- **A block ends** with the bracket after a walk. -/
theorem splitBlock_walk {first last : Char} {inner : List Piece}
    (hfirst : Bracket.ofPiece angles false (.char first) = .opens)
    (hlast : Bracket.ofPiece angles false (.char last) = .closes)
    (h : Walk angles quiet 0 false inner 0 false) (rest : List Piece) :
    splitBlock angles (.char first :: (inner ++ .char last :: rest)) =
      (.char first :: (inner ++ [.char last]), rest) := by
  have hend : blockFrom angles 1 false (.char last :: rest) = ([.char last], rest) := by
    rw [blockFrom, hlast]
    rfl
  rw [splitBlock, blockFrom, hfirst]
  simp only [blockFrom_walk h, hend]

theorem insideOf_block (first last : Char) (inner : List Piece) :
    insideOf (.char first :: (inner ++ [.char last])) = textOf inner := by
  rw [insideOf, textOf_cons, textOf_append]
  simp [Piece.text, textOf]

end

/-! ## Types -/

/-- Reading a type looks at the text without the blanks around it. -/
theorem parseType_of_trim {cs ds : List Char} (h : Text.trim cs = Text.trim ds) :
    parseType cs = parseType ds := by
  unfold parseType
  rw [h]

theorem TypeNode.Spellable.ne_raw {ok : String → Prop} {t : TypeNode} (h : t.Spellable ok)
    (text : String) : t ≠ .raw text := by
  cases h <;> nofun

/-- The value that a readable type has no notes on. -/
theorem readType_of_parseType {cs : List Char} {t : TypeNode} (h : FluentBuilders.parseType cs = t)
    (ht : ∀ text, t ≠ .raw text) : readType cs = pure t := by
  unfold readType
  rw [h]
  split
  · next text => exact absurd rfl (ht text)
  · rfl

/-- **The text of a type is read as the type**, with blanks around it. -/
theorem readType_text {t : TypeNode} (ht : t.IsSafe) {l : Layout} {after : List Char}
    (hl : l.lexemes = lexemesOf t.tokens) (hplain : l.Plain after) {cs : List Char}
    (hcs : Text.trim cs = Text.trim l.text) : readType cs = pure t := by
  refine readType_of_parseType ?_ ht.typed.ne_raw
  have := ht.typed.parseType (fun _ hn => hn) [] hl hplain.at_end.apart
  rw [← this]
  exact parseType_of_trim hcs

/-! ### Types as walks -/

/-- A class of characters that a scanner passes over in a type: all but the separators, the equals
sign and the line break. -/
def PassesTypes (quiet : Char → Bool) : Prop :=
  ∀ c, c ≠ ',' → c ≠ ';' → c ≠ '=' → c ≠ '\n' → quiet c = true

theorem PassesTypes.atom {quiet : Char → Bool} (h : PassesTypes quiet) {cs : List Char}
    (hatom : Token.IsAtom cs) : ∀ c ∈ cs, quiet c = true := by
  intro c hc
  have hne : ∀ d : Char, Token.isAtomPart d = false → c ≠ d := by
    rintro d hd rfl
    rw [hatom c hc] at hd
    cases hd
  exact h c (hne _ (by decide)) (hne _ (by decide)) (hne _ (by decide)) (hne _ (by decide))

/-- A lexeme that is no separator and no equals sign is passed over. -/
theorem PassesTypes.isQuiet {quiet : Char → Bool} (h : PassesTypes quiet) {x : Lexeme}
    (hvalid : x.Valid) (hx : Unseparated x) (hequals : x ≠ .equals) : x.IsQuiet quiet := by
  have hmark : ∀ c : Char, c ≠ ',' → c ≠ ';' → c ≠ '=' → c ≠ '\n' → quiet c = true := h
  cases x with
  | token t =>
    cases Token.shape_of_read? hvalid with
    | word name hatom => exact .inr (.inr (h.atom hatom))
    | number text hnumeric => exact .inr (.inr (h.atom hnumeric.isAtom))
    | negative text hnumeric => exact .inr (.inr (h.atom hnumeric.isAtom))
    | string => exact .inl rfl
    | template => exact .inl rfl
    | mark m =>
      by_cases harrow : m = .arrow
      · exact .inr (.inl (by rw [harrow]))
      refine .inr (.inr ?_)
      cases m <;> first
        | exact absurd rfl hx.1
        | exact absurd rfl hx.2
        | exact absurd rfl harrow
        | (simp only [Lexeme.text, Token.text, Mark.text, List.forall_mem_cons]
           simp [hmark])
  | keyword word => exact .inr (.inr (h.atom (isAtom_of_isAsciiName hvalid)))
  | equals => exact absurd rfl hequals
  | star => exact .inr (.inr (by simp [Lexeme.text, hmark]))

theorem gapsOutside_of_bare {quiet : Char → Bool} {angles : Bool}
    (hblank : ∀ c, Token.isLayout c = true → quiet c = true) {l : Layout} (hbare : l.IsBare)
    (d : Nat) : l.GapsOutside angles (quiet · = true) d := by
  induction l generalizing d with
  | nil => trivial
  | cons p l ih =>
    obtain ⟨x, gap⟩ := p
    rw [Layout.IsBare, List.forall_mem_cons] at hbare
    exact ⟨fun _ c hc => hblank c (hbare.1 c hc), ih hbare.2 _⟩

theorem equals_notMem_lexemesOf (ts : List Token) : Lexeme.equals ∉ lexemesOf ts := by
  simp [lexemesOf]

theorem TypeNode.Spellable.nest {t : TypeNode} (h : t.IsTyped) (d : Nat) :
    Nest true Unseparated d (lexemesOf t.tokens) d :=
  (h.readsBack (fun _ hn => hn.2) none (by simp [EndsType])).nest d

/-- Lexemes that nest without separators and equals signs are a walk. -/
theorem walk_unseparated {quiet : Char → Bool} (hquiet : PassesTypes quiet) {l : Layout}
    {after : List Char} (hnest : Nest true Unseparated 0 l.lexemes 0)
    (hequals : .equals ∉ l.lexemes) (hplain : l.Plain after)
    (hgaps : l.GapsOutside true (quiet · = true) 0) : Walk true quiet 0 false l.pieces 0 false := by
  refine walk_of_nest (hnest.mono fun x hx hsep => ?_) hplain.valid hequals hplain.bare
    (hquiet '>' (by decide) (by decide) (by decide) (by decide)) hgaps
  exact hquiet.isQuiet (hplain.valid x hx) hsep fun heq => hequals (heq ▸ hx)

/-- **The text of a type is a walk** from outside brackets to outside brackets. -/
theorem walk_type {quiet : Char → Bool} (hquiet : PassesTypes quiet) {t : TypeNode} (ht : t.IsSafe)
    {l : Layout} {after : List Char} (hl : l.lexemes = lexemesOf t.tokens) (hplain : l.Plain after)
    (hgaps : l.GapsOutside true (quiet · = true) 0) : Walk true quiet 0 false l.pieces 0 false :=
  walk_unseparated hquiet (hl ▸ ht.typed.nest 0) (hl ▸ equals_notMem_lexemesOf _) hplain hgaps

/-- A class of characters that a scanner passes over in an item: all but the separators. -/
def PassesItems (quiet : Char → Bool) : Prop := ∀ c, c ≠ ',' → c ≠ ';' → quiet c = true

theorem PassesItems.passesTypes {quiet : Char → Bool} (h : PassesItems quiet) :
    PassesTypes quiet := fun c hcomma hsemicolon _ _ => h c hcomma hsemicolon

theorem PassesItems.layout {quiet : Char → Bool} (h : PassesItems quiet) {c : Char}
    (hc : Token.isLayout c = true) : quiet c = true :=
  h c (by rintro rfl; cases hc) (by rintro rfl; cases hc)

theorem walksItem_type {quiet : Char → Bool} (hquiet : PassesItems quiet) {t : TypeNode}
    (ht : t.IsSafe) : WalksItem true quiet (lexemesOf t.tokens) := fun _ _ hl hplain =>
  walk_type hquiet.passesTypes ht hl hplain
    (gapsOutside_of_bare (fun _ => hquiet.layout) hplain.bare 0)

/-- No type begins with the word `extends`. -/
theorem TypeNode.IsSafe.head?_ne_extends {t : TypeNode} (h : t.IsSafe) :
    .word "extends" ∉ t.tokens.head? := by
  obtain ⟨htyped, houter⟩ := h
  cases htyped with
  | reference name arguments =>
    obtain ⟨first, parts, hparts, -⟩ := exists_nameParts name
    have hfirst := houter name rfl first (by rw [hparts]; exact List.mem_cons_self)
    rw [TypeNode.tokens, nameTokens_of_nameParts hparts]
    rintro ⟨⟩
    exact hfirst.ne "extends" (by decide) rfl
  | imported => simp [TypeNode.tokens]
  | string => simp [TypeNode.tokens]
  | number =>
    rw [TypeNode.tokens]
    unfold numberToken
    split <;> simp
  | template => simp [TypeNode.tokens]
  | union members hlen =>
    obtain ⟨t, ts, rfl⟩ := List.exists_cons_of_length_pos (by omega : 0 < members.length)
    simp [TypeNode.tokens, groupTokens, parenthesized]
  | intersection members hlen =>
    obtain ⟨t, ts, rfl⟩ := List.exists_cons_of_length_pos (by omega : 0 < members.length)
    simp [TypeNode.tokens, groupTokens, parenthesized]
  | array => simp [TypeNode.tokens, parenthesized]
  | indexed => simp [TypeNode.tokens, parenthesized]
  | tuple => simp [TypeNode.tokens]
  | function => simp [TypeNode.tokens, parenthesized]
  | operator op operand hop =>
    cases op with
    | unique => exact absurd rfl hop
    | keyof => simp [TypeNode.tokens, TypeOperator.word]
    | readonly => simp [TypeNode.tokens, TypeOperator.word]
  | unique => simp [TypeNode.tokens]
  | query => simp [TypeNode.tokens]
  | object => simp [TypeNode.tokens]

/-- The first token of a type. -/
theorem TypeNode.IsSafe.tokens_cons {t : TypeNode} (h : t.IsSafe) :
    ∃ x xs, t.tokens = x :: xs ∧ startsType x = true ∧ x ≠ .word "extends" := by
  obtain ⟨x, xs, htokens, hx⟩ :=
    (h.typed.readsBack (fun _ hn => hn.2) none (by simp [EndsType])).type_cons
  refine ⟨x, xs, htokens, hx, ?_⟩
  rintro rfl
  exact h.head?_ne_extends (by rw [htokens]; rfl)

theorem TypeNode.IsSafe.layout_ne_nil {t : TypeNode} (h : t.IsSafe) {l : Layout}
    (hl : l.lexemes = lexemesOf t.tokens) : l ≠ [] := by
  rintro rfl
  obtain ⟨x, xs, htokens, -⟩ := h.tokens_cons
  rw [htokens] at hl
  cases hl

end FluentBuilders
