import FluentBuilders.Proofs.Source.Declarations

/-!
# Proofs/Source/Imports — imports are read back

The clause of an import has no quotes and no semicolons, so it goes up to the word `from` in front
of the module (`clauseAndModule?_text`).  The pieces of a clause are found in it whatever else is
there: names in braces, a namespace after a star, a default name at the start
(`importOfClause_text`).
-/

namespace FluentBuilders

open Piece Grammar

/-! ## The clause and the module -/

/-- A character of a clause: no quote, and no semicolon. -/
def IsClauseChar (c : Char) : Prop := c ≠ ';' ∧ c ≠ '\'' ∧ c ≠ '"'

/-- A quote that a module stands in. -/
def IsModuleQuote (quote : Char) : Prop := quote = '"' ∨ quote = '\''

theorem IsModuleQuote.not_isClauseChar {quote : Char} (h : IsModuleQuote quote) :
    ¬IsClauseChar quote := by
  rcases h with rfl | rfl <;> simp [IsClauseChar]

theorem isClauseChar_of_isBlank {c : Char} (h : Text.isBlank c = true) : IsClauseChar c := by
  refine ⟨?_, ?_, ?_⟩ <;> (rintro rfl; cases h)

theorem isClauseChar_from : ∀ c ∈ "from".toList, IsClauseChar c := by
  unfold IsClauseChar
  decide

/-- The texts in front of the first quote agree. -/
theorem eq_of_append_quote {cs ds rest rest' : List Char} {q q' : Char}
    (hcs : ∀ c ∈ cs, IsClauseChar c) (hds : ∀ c ∈ ds, IsClauseChar c) (hq : ¬IsClauseChar q)
    (hq' : ¬IsClauseChar q') (h : cs ++ q :: rest = ds ++ q' :: rest') : cs = ds := by
  induction cs generalizing ds with
  | nil =>
    cases ds with
    | nil => rfl
    | cons d ds =>
      cases h
      exact absurd (hds _ List.mem_cons_self) hq
  | cons c cs ih =>
    rw [List.forall_mem_cons] at hcs
    cases ds with
    | nil =>
      cases h
      exact absurd hcs.1 hq'
    | cons d ds =>
      obtain ⟨rfl, htail⟩ := List.cons.inj h
      rw [List.forall_mem_cons] at hds
      rw [ih hcs.2 hds.2 htail]

/-- What stands in front of a text without the blanks at its start. -/
theorem exists_trimStart (cs : List Char) :
    ∃ blanks, Text.AllBlank blanks ∧ cs = blanks ++ Text.trimStart cs :=
  ⟨cs.takeWhile Text.isBlank, fun _ hc => List.mem_takeWhile_imp hc,
    (List.takeWhile_append_dropWhile).symm⟩

/-- **A module is read** after blanks, the word `from`, blanks and a quote. -/
theorem exists_of_fromModule? {cs : List Char} {read : List Char × List Char}
    (h : fromModule? cs = some read) :
    ∃ blanks blanks' quote rest, Text.AllBlank blanks ∧ Text.AllBlank blanks' ∧
      IsModuleQuote quote ∧ cs = blanks ++ ("from".toList ++ (blanks' ++ quote :: rest)) := by
  unfold fromModule? at h
  simp only [Option.bind_eq_bind, Option.bind_eq_some_iff] at h
  obtain ⟨rest, hdrop, h⟩ := h
  obtain ⟨blanks, hblanks, hcs⟩ := exists_trimStart cs
  obtain ⟨blanks', hblanks', hrest⟩ := exists_trimStart rest
  rw [dropWord?_eq_some hdrop] at hcs
  cases hquote : Text.trimStart rest with
  | nil => rw [hquote] at h; cases h
  | cons q tail =>
    rw [hquote] at h hrest
    by_cases hq : q = '\'' ∨ q = '"'
    · exact ⟨blanks, blanks', q, tail, hblanks, hblanks', hq.symm, by rw [hcs, hrest]⟩
    · simp [hq] at h

/-- **A module in quotes** is read. -/
theorem fromModule?_text {blanks blanks' module rest : List Char} {quote : Char}
    (hblanks : Text.AllBlank blanks) (hblanks' : Text.AllBlank blanks') (hquote : IsModuleQuote quote)
    (hne : module ≠ []) (hmodule : ∀ c ∈ module, c ≠ '\'' ∧ c ≠ '"') :
    fromModule? (blanks ++ ("from".toList ++ (blanks' ++ quote :: (module ++ quote :: rest)))) =
      some (module, rest) := by
  have hfrom : ∀ tail, Text.trimStart ("from".toList ++ tail) = "from".toList ++ tail :=
    fun tail => Text.trimStart_cons rfl _
  have hq : Text.isBlank quote = false := by rcases hquote with rfl | rfl <;> rfl
  have hspan : (module ++ quote :: rest).span (fun c => c != '\'' && c != '"') =
      (module, quote :: rest) := by
    have hall : ∀ c ∈ module, (c != '\'' && c != '"') = true := fun c hc => by
      simp [hmodule c hc]
    have hstop : (quote != '\'' && quote != '"') = false := by
      rcases hquote with rfl | rfl <;> rfl
    rw [List.span_eq_takeWhile_dropWhile, List.takeWhile_append_of_pos hall,
      List.dropWhile_append_of_pos hall]
    simp only [List.takeWhile, List.dropWhile, hstop, List.append_nil]
  unfold fromModule?
  simp only [Text.trimStart_append hblanks, hfrom, dropWord?_append, Option.bind_eq_bind,
    Option.bind_some, Text.trimStart_append hblanks', Text.trimStart_cons hq, hquote.symm,
    if_true, hspan]

/-- **No module is read inside a clause.** -/
theorem fromModule?_eq_none {cs blanks blanks' : List Char} {quote : Char}
    (hcs : ∀ c ∈ cs, IsClauseChar c) (hne : cs ≠ [])
    (hlast : ∀ c ∈ cs.getLast?, Text.isBlank c = false) (hblanks : Text.AllBlank blanks)
    (hblanks' : Text.AllBlank blanks') (hquote : IsModuleQuote quote)
    (rest : List Char) :
    fromModule? (cs ++ (blanks ++ ("from".toList ++ (blanks' ++ quote :: rest)))) = none := by
  by_contra hsome
  obtain ⟨read, hread⟩ := Option.ne_none_iff_exists'.1 hsome
  obtain ⟨ds, ds', quote', rest', hds, hds', hquote', htext⟩ := exists_of_fromModule? hread
  have hfront : cs ++ (blanks ++ ("from".toList ++ blanks')) = ds ++ ("from".toList ++ ds') := by
    refine eq_of_append_quote ?_ ?_ hquote.not_isClauseChar hquote'.not_isClauseChar
      (by simpa using htext)
    · simp only [List.forall_mem_append]
      exact ⟨hcs, fun c hc => isClauseChar_of_isBlank (hblanks c hc), isClauseChar_from,
        fun c hc => isClauseChar_of_isBlank (hblanks' c hc)⟩
    · simp only [List.forall_mem_append]
      exact ⟨fun c hc => isClauseChar_of_isBlank (hds c hc), isClauseChar_from,
        fun c hc => isClauseChar_of_isBlank (hds' c hc)⟩
  -- both texts end in the word `from` when their blanks are taken off
  have htrim : ∀ front gap : List Char, Text.AllBlank gap →
      Text.trimEnd (front ++ ("from".toList ++ gap)) = front ++ "from".toList := by
    intro front gap hgap
    rw [← List.append_assoc]
    refine Text.trimEnd_append_gap ?_ hgap
    intro c hc
    rw [List.getLast?_append] at hc
    cases hc
    rfl
  have hwords := congrArg Text.trimEnd hfront
  rw [← List.append_assoc cs, htrim _ _ hblanks', htrim _ _ hds'] at hwords
  have hblank : Text.AllBlank cs := fun c hc =>
    hds c (by rw [← List.append_cancel_right hwords]; exact List.mem_append_left _ hc)
  obtain ⟨c, hc⟩ := Option.ne_none_iff_exists'.1 fun h => hne (List.getLast?_eq_none_iff.1 h)
  have := hblank c (List.mem_of_getLast? hc)
  rw [hlast c hc] at this
  cases this

theorem clauseAndModule?_of_some {cs module rest : List Char}
    (h : fromModule? cs = some (module, rest)) :
    clauseAndModule? cs = some ([], module, rest) := by
  unfold clauseAndModule?
  rw [h]

theorem clauseAndModule?_cons {c : Char} {cs : List Char} (h : fromModule? (c :: cs) = none)
    (hc : IsClauseChar c) :
    clauseAndModule? (c :: cs) = (clauseAndModule? cs).map fun (clause, read) => (c :: clause, read) := by
  have hstop : ¬(c = ';' ∨ c = '\'' ∨ c = '"') := by
    rintro (h | h | h)
    · exact hc.1 h
    · exact hc.2.1 h
    · exact hc.2.2 h
  rw [clauseAndModule?.eq_def, h]
  simp only [if_neg hstop]

/-- **The clause goes up to the word `from`** in front of the module. -/
theorem clauseAndModule?_text {clause blanks blanks' module : List Char} {quote : Char}
    (hclause : ∀ c ∈ clause, IsClauseChar c)
    (hlast : ∀ c ∈ clause.getLast?, Text.isBlank c = false) (hblanks : Text.AllBlank blanks)
    (hblanks' : Text.AllBlank blanks') (hquote : IsModuleQuote quote) (hne : module ≠ [])
    (hmodule : ∀ c ∈ module, c ≠ '\'' ∧ c ≠ '"') (rest : List Char) :
    clauseAndModule? (clause ++
        (blanks ++ ("from".toList ++ (blanks' ++ quote :: (module ++ quote :: rest))))) =
      some (clause, module, rest) := by
  induction clause with
  | nil => exact clauseAndModule?_of_some (fromModule?_text hblanks hblanks' hquote hne hmodule)
  | cons c clause ih =>
    have hnone := fromModule?_eq_none hclause (by simp) hlast hblanks hblanks' hquote
      (module ++ quote :: rest)
    rw [List.forall_mem_cons] at hclause
    have hlast' : ∀ d ∈ clause.getLast?, Text.isBlank d = false := by
      intro d hd
      refine hlast d ?_
      rw [List.getLast?_cons, Option.mem_def.1 hd]
      rfl
    rw [List.cons_append] at hnone ⊢
    rw [clauseAndModule?_cons hnone hclause.1, ih hclause.2 hlast', Option.map_some]

/-! ## Words at the start of a clause -/

/-- A text that begins with one word begins with no other one and a character after it. -/
theorem isPrefixOf_word_eq_false {w : String} {cs rest : List Char} {c : Char}
    (hw : IsWordText w.toList) (hcs : IsWordText cs) (hrest : EndsWord rest)
    (hc : Text.isIdentifierPart c = false) (hne : w.toList ≠ cs) :
    (w.toList ++ [c]).isPrefixOf (cs ++ rest) = false := by
  by_contra hprefix
  rw [Bool.not_eq_false, List.isPrefixOf_iff_prefix] at hprefix
  obtain ⟨tail, htail⟩ := hprefix
  rw [List.append_assoc, List.singleton_append] at htail
  rcases List.append_eq_append_iff.1 htail with ⟨as, hcs', hrest'⟩ | ⟨bs, hw', hrest'⟩
  · cases as with
    | nil => exact hne (by rw [hcs', List.append_nil])
    | cons a as =>
      cases hrest'
      have := hcs c (by rw [hcs']; simp)
      rw [hc] at this
      cases this
  · cases bs with
    | nil => exact hne (by rw [hw', List.append_nil])
    | cons b bs =>
      have hb := hw b (by rw [hw']; simp)
      rw [hrest b (by rw [hrest']; rfl)] at hb
      cases hb

theorem isWordText_type : IsWordText "type".toList := by
  unfold IsWordText
  decide

/-- A name is not the word `type`. -/
theorem IsSafeName.toList_ne_type {name : String} (h : IsSafeName name) :
    "type".toList ≠ name.toList := fun heq =>
  h.ne "type" (by decide) (String.toList_injective heq.symm)

theorem IsSafeName.isWordText {name : String} (h : IsSafeName name) : IsWordText name.toList :=
  isWordText_of_isNameOver h.ascii

/-- **A clause that begins with a name** imports more than types. -/
theorem isTypeClause_name {name : String} (h : IsSafeName name) {rest : List Char}
    (hrest : EndsWord rest) : isTypeClause (name.toList ++ rest) = false := by
  have hspace := isPrefixOf_word_eq_false (c := ' ') isWordText_type h.isWordText hrest (by decide)
    h.toList_ne_type
  have hbrace := isPrefixOf_word_eq_false (c := '{') isWordText_type h.isWordText hrest (by decide)
    h.toList_ne_type
  have htype : "type ".toList = "type".toList ++ [' '] := by decide
  have htype' : "type\x7b".toList = "type".toList ++ ['{'] := by decide
  rw [isTypeClause, htype, htype', hspace, hbrace]
  rfl

theorem skipType?_name {name : String} (h : IsSafeName name) {rest : List Char}
    (hrest : EndsWord rest) : skipType? (name.toList ++ rest) = none := by
  have := wordThenBlanks?_word isWordText_type h.isWordText hrest
  rwa [if_neg h.toList_ne_type] at this

/-- A text that begins with a mark begins with no word. -/
theorem skipType?_mark {c : Char} (hc : c ≠ 't') (rest : List Char) :
    skipType? (c :: rest) = none ∧ isTypeClause (c :: rest) = false := by
  have hprefix : ∀ w : String, 't' ∈ w.toList.head? → w.toList.isPrefixOf (c :: rest) = false := by
    intro w hw
    obtain ⟨cs, hcs⟩ := List.head?_eq_some_iff.1 hw
    simp [hcs, List.isPrefixOf, Ne.symm hc]
  refine ⟨?_, ?_⟩
  · rw [skipType?, Text.dropWord?, hprefix "type" rfl]
    rfl
  · rw [isTypeClause, hprefix "type " rfl, hprefix "type\x7b" rfl]
    rfl

/-! ## Default and namespace -/

/-- **A default name** stands in front of a comma, or alone. -/
theorem importedDefault?_name {name : String} (h : IsSafeName name) {gap : Gap} (hgap : gap.IsBare)
    {rest : List Char} (hrest : rest = [] ∨ ∃ tail, rest = ',' :: tail) :
    importedDefault? (name.toList ++ (gap.text ++ rest)) = some name := by
  have hend : EndsName (gap.text ++ rest) := by
    intro c hc
    cases htext : gap.text with
    | nil =>
      rw [htext] at hc
      rcases hrest with rfl | ⟨tail, rfl⟩
      · cases hc
      · cases hc
        decide
    | cons d ds =>
      rw [htext] at hc
      cases hc
      exact Text.isNamePart_eq_false_of_isLayout (hgap c (by rw [htext]; exact List.mem_cons_self))
  have hlead : leadingName? (name.toList ++ (gap.text ++ rest)) = some name := by
    rw [leadingName?, readName?_name h.ascii hend, Option.bind_eq_bind, Option.bind_some]
    dsimp only
    rw [Text.trimStart_append hgap.allBlank]
    rcases hrest with rfl | ⟨tail, rfl⟩
    · exact congrArg some String.ofList_toList
    · rw [Text.trimStart_cons (by decide)]
      exact congrArg some String.ofList_toList
  rw [importedDefault?, skipType?_name h hend.endsWord, hlead]
  rfl

theorem importedDefault?_mark {c : Char} (hc : Text.isIdentifierStart c = false)
    (rest : List Char) : importedDefault? (c :: rest) = none := by
  have hne : c ≠ 't' := by rintro rfl; cases hc
  have hname : Text.readName? (c :: rest) = none := readName?_of_head (by rintro d ⟨⟩; exact hc)
  rw [importedDefault?, (skipType?_mark hne rest).1, leadingName?, hname]
  rfl

/-- **A namespace is sought** past everything but a star. -/
theorem importedNamespace?_append {front : List Char} (h : ∀ c ∈ front, c ≠ '*') (rest : List Char) :
    importedNamespace? (front ++ rest) = importedNamespace? rest := by
  induction front with
  | nil => rfl
  | cons c front ih =>
    rw [List.forall_mem_cons] at h
    have hnone : namespaceHere? (c :: (front ++ rest)) = none := by
      unfold namespaceHere?
      split
      · next heq =>
        cases heq
        exact absurd rfl h.1
      · rfl
    rw [List.cons_append, importedNamespace?, hnone, Option.orElse_none, ih h.2]

theorem importedNamespace?_eq_none {cs : List Char} (h : ∀ c ∈ cs, c ≠ '*') :
    importedNamespace? cs = none := by
  have := importedNamespace?_append h []
  rwa [List.append_nil] at this

theorem trimStart_as (rest : List Char) :
    Text.trimStart ("as".toList ++ rest) = "as".toList ++ rest :=
  Text.trimStart_cons (by decide) _

/-- **A namespace** stands after a star and the word `as`. -/
theorem importedNamespace?_star {name : String} (h : IsSafeName name) {gap gap' : Gap}
    (hgap : gap.IsBare) (hgap' : gap'.IsBare) (hne : gap'.text ≠ []) {rest : List Char}
    (hrest : EndsName rest) :
    importedNamespace? ('*' :: (gap.text ++ ("as".toList ++ (gap'.text ++ (name.toList ++ rest))))) =
      some name := by
  obtain ⟨c, cs, hc⟩ : ∃ c cs, name.toList = c :: cs := by
    have := h.ascii
    rw [isAsciiName] at this
    cases hname : name.toList with
    | nil => rw [hname] at this; cases this
    | cons c cs => exact ⟨c, cs, rfl⟩
  have hhead : Text.isBlank c = false :=
    Text.isBlank_eq_false_of_isIdentifierPart (h.isWordText c (by rw [hc]; simp))
  have hread := readName?_name h.ascii hrest
  rw [importedNamespace?]
  simp only [namespaceHere?, Text.trimStart_append hgap.allBlank]
  rw [trimStart_as, dropWord?_append,
    Option.bind_some, skipBlanks?_append hgap'.allBlank hne, Text.trimStart_of_head (by
      rw [hc]; rintro d ⟨⟩; exact hhead)]
  simp [hread]

/-! ## Names in braces -/

theorem namedBinding?_same {name : String} (h : isAsciiName name) :
    namedBinding? name.toList = some (name, name) := by
  simp [namedBinding?, readName?_self h]

theorem namedBinding?_renamed {localName exported : String} (hlocal : isAsciiName localName)
    (hexported : isAsciiName exported) {gap gap' : Gap} (hgap : gap.IsBare) (hne : gap.text ≠ [])
    (hgap' : gap'.IsBare) (hne' : gap'.text ≠ []) :
    namedBinding? (exported.toList ++
        (gap.text ++ ("as".toList ++ (gap'.text ++ localName.toList)))) =
      some (localName, exported) := by
  have hhead : ∀ c ∈ localName.toList.head?, Text.isBlank c = false := fun c hc =>
    Text.isBlank_eq_false_of_isIdentifierPart
      (isWordText_of_isNameOver hlocal c (List.mem_of_head? hc))
  have hrest : (gap.text ++ ("as".toList ++ (gap'.text ++ localName.toList))).isEmpty = false := by
    simp [hne]
  unfold namedBinding?
  simp only [readName?_name hexported (endsName_gap hgap hne _), hrest, Option.bind_eq_bind,
    Option.bind_some, Bool.false_eq_true, if_false, skipBlanks?_append hgap.allBlank hne]
  rw [trimStart_as, dropWord?_append,
    Option.bind_some, skipBlanks?_append hgap'.allBlank hne', Text.trimStart_of_head hhead]
  simp [readName?_self hlocal]

/-- **A name and its alias** are read, with blanks around them. -/
theorem importSpecifier?_text {b : String × String} {item : List Lexeme} (h : WritesBinding b item)
    (hsafe : IsSafeName b.1 ∧ IsSafeName b.2) {l : Layout} {after : List Char}
    (hl : l.lexemes = item) (hplain : l.Plain after) {gap : Gap} (hgap : gap.IsBare) :
    importSpecifier? (Text.trim (gap.text ++ l.text)) = some b := by
  rw [Text.trim_blank_append hgap.allBlank]
  cases h with
  | same name =>
    obtain ⟨g, l', rfl, hl'⟩ := Layout.exists_cons hl
    obtain rfl := Layout.lexemes_eq_nil hl'
    have htrim : Text.trim (Layout.text [(.word name, g)]) = name.toList := by
      simpa [Lexeme.text, Token.text] using Layout.Plain.trim_concat (l := []) hplain
    have hskip : skipType? name.toList = none := by
      have hend : EndsWord [] := by simp [EndsWord]
      simpa using skipType?_name hsafe.1 hend
    rw [htrim, importSpecifier?, hskip, namedBinding?_same hsafe.1.ascii]
    rfl
  | renamed localName exported =>
    obtain ⟨g, l₁, rfl, hl₁⟩ := Layout.exists_cons hl
    obtain ⟨g', l₂, rfl, hl₂⟩ := Layout.exists_cons hl₁
    obtain ⟨g₂, l₃, rfl, hl₃⟩ := Layout.exists_cons hl₂
    obtain rfl := Layout.lexemes_eq_nil hl₃
    obtain ⟨-, hg, -, hplain'⟩ := Layout.plain_cons.1 hplain
    obtain ⟨-, hg', -, hplain₂⟩ := Layout.plain_cons.1 hplain'
    obtain ⟨hy, -, -, -⟩ := Layout.plain_cons.1 hplain₂
    -- words stand apart
    have hne : g.text ≠ [] := hplain.word_gap ⟨'a', rfl, by decide⟩
    have hne' : g'.text ≠ [] := by
      refine hplain'.word_gap ?_
      obtain ⟨c, cs, hc⟩ := List.exists_cons_of_ne_nil hy.text_ne_nil
      refine ⟨c, by rw [hc]; rfl, isWordText_of_isNameOver hsafe.1.ascii c ?_⟩
      change c ∈ (Lexeme.word localName).text
      rw [hc]
      exact List.mem_cons_self
    have htrim : Text.trim (Layout.text [(.word exported, g), (.word "as", g'),
        (.word localName, g₂)]) =
        exported.toList ++ (g.text ++ ("as".toList ++ (g'.text ++ localName.toList))) := by
      have := Layout.Plain.trim_concat (l := [(.word exported, g), (.word "as", g')]) hplain
      simpa [Lexeme.text, Token.text] using this
    have hskip := skipType?_name hsafe.2
      (endsName_gap hg hne ("as".toList ++ (g'.text ++ localName.toList))).endsWord
    rw [htrim, importSpecifier?, hskip, Option.bind_none, Option.orElse_none,
      namedBinding?_renamed hsafe.1.ascii hsafe.2.ascii hg hne hg' hne']

/-! ### Lists of names -/

theorem atCommas_append {cs : List Char} (h : ',' ∉ cs) (word rest : List Char) :
    atCommas word (cs ++ rest) = atCommas (cs.reverse ++ word) rest := by
  induction cs generalizing word with
  | nil => rfl
  | cons c cs ih =>
    rw [List.mem_cons, not_or] at h
    rw [List.cons_append, atCommas, if_neg (Ne.symm h.1), ih h.2]
    simp

/-- What holds of the characters of lexemes and of blanks holds of a layout's text. -/
theorem Layout.IsBare.forall_text {P : Char → Prop} {l : Layout} (hbare : l.IsBare)
    (hlexemes : ∀ x ∈ l.lexemes, ∀ c ∈ x.text, P c) (hblank : ∀ c, Token.isLayout c = true → P c) :
    ∀ c ∈ l.text, P c := by
  induction l with
  | nil => nofun
  | cons p l ih =>
    rw [Layout.IsBare, List.forall_mem_cons] at hbare
    rw [Layout.lexemes, List.map_cons, List.forall_mem_cons] at hlexemes
    rw [Layout.text_cons, List.forall_mem_append, List.forall_mem_append]
    exact ⟨hlexemes.1, fun c hc => hblank c (hbare.1 c hc), ih hbare.2 hlexemes.2⟩

/-- **A list of names is cut at its commas.** -/
theorem atCommas_commaList {items : List (List Lexeme)} (hne : items ≠ [])
    (hcomma : ∀ item ∈ items, ∀ x ∈ item, ∀ c ∈ x.text, c ≠ ',') {l : Layout} {after : List Char}
    (hl : l.lexemes = commaList items) (hplain : l.Plain after) {gap : Gap} (hgap : gap.IsBare) :
    ∃ parts, ItemTexts items parts ∧
      atCommas [] (gap.text ++ l.text) = parts.map fun p => p.1.text ++ p.2.text := by
  have hblank : ∀ c, Token.isLayout c = true → c ≠ ',' := by rintro c hc rfl; cases hc
  -- an item between gaps holds no comma
  have hitem : ∀ {item : List Lexeme} {l : Layout} {after : List Char} {gap : Gap},
      (∀ x ∈ item, ∀ c ∈ x.text, c ≠ ',') → l.lexemes = item → l.Plain after → gap.IsBare →
      ',' ∉ gap.text ++ l.text := by
    intro item l after gap hitem hl hplain hgap hmem
    rcases List.mem_append.1 hmem with hmem | hmem
    · exact hblank _ (hgap _ hmem) rfl
    · exact hplain.bare.forall_text (P := (· ≠ ',')) (hl ▸ hitem) hblank _ hmem rfl
  induction items generalizing l gap with
  | nil => exact absurd rfl hne
  | cons item items ih =>
    rw [List.forall_mem_cons] at hcomma
    cases items with
    | nil =>
      refine ⟨[(gap, l)], .cons ⟨hl, hgap, hplain.at_end⟩ .nil, ?_⟩
      have := atCommas_append (hitem hcomma.1 hl hplain hgap) [] []
      rw [List.append_nil] at this
      rw [this, atCommas]
      simp
    | cons next items =>
      obtain ⟨l₁, rest, rfl, hl₁, hrest⟩ := Layout.exists_append hl
      obtain ⟨gap', l₂, rfl, hl₂⟩ := Layout.exists_cons hrest
      obtain ⟨hplain₁, hplain₂⟩ := Layout.plain_append.1 hplain
      obtain ⟨-, hgap', -, hplain₂⟩ := Layout.plain_cons.1 hplain₂
      obtain ⟨parts, hparts, hcut⟩ := ih (by simp) hcomma.2 hl₂ hplain₂ hgap'
      refine ⟨(gap, l₁) :: parts, .cons ⟨hl₁, hgap, hplain₁.at_end⟩ hparts, ?_⟩
      have htext : gap.text ++ (l₁ ++ (.mark .comma, gap') :: l₂).text =
          (gap.text ++ l₁.text) ++ ',' :: (gap'.text ++ l₂.text) := by
        simp [Lexeme.text, Token.text, Mark.text]
      rw [htext, atCommas_append (hitem hcomma.1 hl₁ hplain₁ hgap), atCommas, if_pos rfl, hcut]
      simp

/-- **The names of a list** are its bindings. -/
theorem filterMap_importSpecifier? {names : List (String × String)} {items : List (List Lexeme)}
    (h : List.Forall₂ WritesBinding names items)
    (hsafe : ∀ b ∈ names, IsSafeName b.1 ∧ IsSafeName b.2) {parts : List (Gap × Layout)}
    (hparts : ItemTexts items parts) :
    (parts.map fun p => p.1.text ++ p.2.text).filterMap
      (fun item => importSpecifier? (Text.trim item)) = names := by
  induction h generalizing parts with
  | nil => cases hparts; rfl
  | cons hitem _ ih =>
    rw [List.forall_mem_cons] at hsafe
    obtain _ | ⟨⟨hl, hgap, hplain⟩, hparts⟩ := hparts
    rw [List.map_cons, List.filterMap_cons]
    simp only [importSpecifier?_text hitem hsafe.1 hl hplain hgap, ih hsafe.2 hparts]

/-- **Bindings of different names** are all kept, in their order. -/
theorem foldl_bindName {names others : List (String × String)}
    (h : ((names ++ others).map Prod.fst).Nodup) : others.foldl bindName names = names ++ others := by
  induction others generalizing names with
  | nil => simp
  | cons b others ih =>
    have hkeep : names.filter (·.1 ≠ b.1) = names := by
      rw [List.filter_eq_self]
      intro a ha
      rw [List.map_append, List.map_cons, List.nodup_append] at h
      simpa using h.2.2 a.1 (List.mem_map_of_mem ha) b.1 List.mem_cons_self
    have hbind : bindName names b = names ++ [b] := by rw [bindName, hkeep]
    rw [List.foldl_cons, hbind, ih (by simpa using h), List.append_assoc, List.singleton_append]

/-- The first braces in a text. -/
theorem bracedNames?_append {front names : List Char} (hfront : ∀ c ∈ front, c ≠ '{')
    (hnames : ∀ c ∈ names, c ≠ '}') (rest : List Char) :
    bracedNames? (front ++ '{' :: (names ++ '}' :: rest)) = some names := by
  induction front with
  | nil =>
    have hall : ∀ c ∈ names, decide (c ≠ '}') = true := fun c hc => by simpa using hnames c hc
    rw [List.nil_append, bracedNames?, if_pos rfl, List.span_eq_takeWhile_dropWhile,
      List.takeWhile_append_of_pos hall, List.dropWhile_append_of_pos hall]
    simp
  | cons c front ih =>
    rw [List.forall_mem_cons] at hfront
    rw [List.cons_append, bracedNames?, if_neg hfront.1, ih hfront.2]

theorem bracedNames?_eq_none {cs : List Char} (h : ∀ c ∈ cs, c ≠ '{') : bracedNames? cs = none := by
  induction cs with
  | nil => rfl
  | cons c cs ih =>
    rw [List.forall_mem_cons] at h
    rw [bracedNames?, if_neg h.1, ih h.2]

/-! ## The clause as a whole -/

/-- **The default name** in front of a star or of braces. -/
theorem importedDefault?_text {default : Option String} (hdefault : ∀ n ∈ default, IsSafeName n)
    {l : Layout} {after : List Char} {c : Char} (hl : l.lexemes = defaultLexemes default)
    (hplain : l.Plain after) (hc : c = '*' ∨ c = '{') (rest : List Char) :
    importedDefault? (l.text ++ c :: rest) = default ∧
      isTypeClause (l.text ++ c :: rest) = false ∧ ∀ c ∈ l.text, c ≠ '*' ∧ c ≠ '{' := by
  cases default with
  | none =>
    obtain rfl := Layout.lexemes_eq_nil hl
    have hmark : Text.isIdentifierStart c = false ∧ c ≠ 't' := by
      rcases hc with rfl | rfl <;> decide
    exact ⟨importedDefault?_mark hmark.1 rest, (skipType?_mark hmark.2 rest).2, nofun⟩
  | some name =>
    obtain ⟨g, l₁, rfl, hl₁⟩ := Layout.exists_cons hl
    obtain ⟨g', l₂, rfl, hl₂⟩ := Layout.exists_cons hl₁
    obtain rfl := Layout.lexemes_eq_nil hl₂
    have hname := hdefault name rfl
    obtain ⟨-, hg, hnext, -⟩ := Layout.plain_cons.1 hplain
    have hend : EndsWord (g.text ++ ',' :: (g'.text ++ c :: rest)) := by
      intro d hd
      refine hnext d ?_
      cases hgap : g.text with
      | nil => rw [hgap] at hd; cases hd; rfl
      | cons => rw [hgap] at hd; cases hd; rfl
    have htext : Layout.text [(.word name, g), (.mark .comma, g')] ++ c :: rest =
        name.toList ++ (g.text ++ ',' :: (g'.text ++ c :: rest)) := by
      simp [Lexeme.text, Token.text, Mark.text]
    rw [htext]
    refine ⟨importedDefault?_name hname hg (.inr ⟨_, rfl⟩), isTypeClause_name hname hend, ?_⟩
    refine hplain.bare.forall_text (P := fun c => c ≠ '*' ∧ c ≠ '{') ?_ ?_
    · simp only [Layout.lexemes, List.map_cons, List.map_nil, List.forall_mem_cons]
      refine ⟨fun c hc => ?_, by simp [Lexeme.text, Token.text, Mark.text], by simp⟩
      constructor <;> (rintro rfl; exact absurd (hname.isWordText _ hc) (by decide))
    · rintro c hc
      constructor <;> (rintro rfl; cases hc)

/-- Words hold no marks. -/
theorem ne_of_mem_name {w : String} (hvalid : (Lexeme.word w).Valid) {d : Char}
    (hd : Text.isIdentifierPart d = false) : ∀ c ∈ (Lexeme.word w).text, c ≠ d := by
  rintro c hc rfl
  have := isWordText_of_isNameOver (Token.isAsciiName_of_whole hvalid) c hc
  rw [hd] at this
  cases this

/-- Words and commas hold no other marks. -/
theorem ne_of_mem_word {x : Lexeme} (hx : (∃ w, x = .word w) ∨ x = .mark .comma) (hvalid : x.Valid)
    {d : Char} (hd : Text.isIdentifierPart d = false) (hcomma : d ≠ ',') : ∀ c ∈ x.text, c ≠ d := by
  obtain ⟨w, rfl⟩ | rfl := hx
  · exact ne_of_mem_name hvalid hd
  · rintro c hc rfl
    exact hcomma (List.mem_singleton.1 hc)

theorem WritesBinding.words {b : String × String} {item : List Lexeme} (h : WritesBinding b item) :
    ∀ x ∈ item, ∃ w, x = .word w := by
  cases h <;> simp

theorem words_of_mem_bindings {names : List (String × String)} {items : List (List Lexeme)}
    (h : List.Forall₂ WritesBinding names items) :
    ∀ x ∈ commaList items, (∃ w, x = .word w) ∨ x = .mark .comma := by
  intro x hx
  obtain hcomma | ⟨item, hitem, hx⟩ := mem_commaList hx
  · exact .inr hcomma
  · obtain ⟨b, -, hwrites⟩ := exists_mem_of_forall₂ h hitem
    exact .inl (hwrites.words x hx)

/-- **The names in braces** are the bindings. -/
theorem importedNames_text {names : List (String × String)} {items : List (List Lexeme)}
    (h : List.Forall₂ WritesBinding names items)
    (hsafe : ∀ b ∈ names, IsSafeName b.1 ∧ IsSafeName b.2) (hdistinct : (names.map Prod.fst).Nodup)
    {l : Layout} {after : List Char} (hl : l.lexemes = commaList items) (hplain : l.Plain after)
    {gap : Gap} (hgap : gap.IsBare) {front : List Char} (hfront : ∀ c ∈ front, c ≠ '{')
    (rest : List Char) :
    importedNames (front ++ '{' :: (gap.text ++ (l.text ++ '}' :: rest))) = names := by
  have hbrace : ∀ c ∈ gap.text ++ l.text, c ≠ '}' := by
    have hblank : ∀ c, Token.isLayout c = true → c ≠ '}' := by rintro c hc rfl; cases hc
    rw [List.forall_mem_append]
    refine ⟨fun c hc => hblank c (hgap c hc), hplain.bare.forall_text (fun x hx => ?_) hblank⟩
    exact ne_of_mem_word (words_of_mem_bindings h x (hl ▸ hx)) (hplain.valid x hx) (by decide)
      (by decide)
  have hbraced := bracedNames?_append hfront hbrace rest
  rw [List.append_assoc] at hbraced
  have hcut : (atCommas [] (gap.text ++ l.text)).filterMap
      (fun item => importSpecifier? (Text.trim item)) = names := by
    cases h with
    | nil =>
      obtain rfl := Layout.lexemes_eq_nil hl
      have htrim : Text.trim (gap.text ++ Layout.text []) = [] := Text.trim_blank_append hgap.allBlank []
      have hcomma : ',' ∉ gap.text ++ Layout.text [] := by
        rw [Layout.text_nil, List.append_nil]
        exact fun hmem => absurd (hgap _ hmem) (by decide)
      have := atCommas_append hcomma [] []
      rw [List.append_nil] at this
      rw [this, atCommas, List.append_nil, List.reverse_reverse, List.filterMap_cons, htrim]
      rfl
    | cons hitem hitems =>
      have hall := List.Forall₂.cons hitem hitems
      obtain ⟨parts, hparts, hcut⟩ := atCommas_commaList (by simp) (fun item hmem x hx => by
        obtain ⟨b, -, hwrites⟩ := exists_mem_of_forall₂ hall hmem
        obtain ⟨w, rfl⟩ := hwrites.words x hx
        exact ne_of_mem_name (hplain.valid _ (hl ▸ mem_commaList_of_mem hmem hx)) (by decide))
        hl hplain hgap
      rw [hcut, filterMap_importSpecifier? hall hsafe hparts]
  rw [importedNames, hbraced]
  dsimp only
  rw [hcut]
  exact @foldl_bindName [] names hdistinct

/-- **What is found in a clause**: its names in braces, its namespace and its default name. -/
structure HasBindings (names : List (String × String)) (ns default : Option String)
    (text : List Char) : Prop where
  types : isTypeClause text = false
  names : importedNames text = names
  namespaceName : importedNamespace? text = ns
  default : importedDefault? text = default

/-- No blank is a star or a brace. -/
theorem ne_of_isLayout {c : Char} (h : Token.isLayout c = true) : c ≠ '*' ∧ c ≠ '{' := by
  constructor <;> (rintro rfl; cases h)

section

variable {default : Option String} {name : String} {l : Layout} {after : List Char}

/-- **A default name** by itself. -/
theorem hasBindings_default (hname : IsSafeName name) (hl : l.lexemes = [.word name])
    (hplain : l.Plain after) : HasBindings [] none (some name) l.text := by
  obtain ⟨g, l', rfl, hl'⟩ := Layout.exists_cons hl
  obtain rfl := Layout.lexemes_eq_nil hl'
  obtain ⟨hx, hg, hnext, -⟩ := Layout.plain_cons.1 hplain.at_end
  have hmarks : ∀ c ∈ Layout.text [(.word name, g)], c ≠ '*' ∧ c ≠ '{' := by
    refine hplain.bare.forall_text (P := fun c => c ≠ '*' ∧ c ≠ '{') ?_ fun _ => ne_of_isLayout
    simp only [Layout.lexemes, List.map_cons, List.map_nil, List.forall_mem_singleton]
    exact fun c hc => ⟨ne_of_mem_name hx (by decide) c hc, ne_of_mem_name hx (by decide) c hc⟩
  have htext : Layout.text [(.word name, g)] = name.toList ++ (g.text ++ []) := by
    simp [Lexeme.text, Token.text]
  refine ⟨?_, ?_, importedNamespace?_eq_none fun c hc => (hmarks c hc).1, ?_⟩
  · rw [htext]
    exact isTypeClause_name hname hnext
  · rw [importedNames, bracedNames?_eq_none fun c hc => (hmarks c hc).2]
  · rw [htext, importedDefault?_name hname hg (.inl rfl)]

/-- **A namespace**, behind a default name or by itself. -/
theorem hasBindings_namespace (hdefault : ∀ n ∈ default, IsSafeName n) (hname : IsSafeName name)
    (hl : l.lexemes = defaultLexemes default ++ [Lexeme.star, .word "as", .word name])
    (hplain : l.Plain after) : HasBindings [] (some name) default l.text := by
  obtain ⟨ld, ln, rfl, hld, hln⟩ := Layout.exists_append hl
  obtain ⟨g, l₁, rfl, hl₁⟩ := Layout.exists_cons hln
  obtain ⟨g', l₂, rfl, hl₂⟩ := Layout.exists_cons hl₁
  obtain ⟨g₂, l₃, rfl, hl₃⟩ := Layout.exists_cons hl₂
  obtain rfl := Layout.lexemes_eq_nil hl₃
  obtain ⟨hplaind, hplainn⟩ := Layout.plain_append.1 hplain
  obtain ⟨-, hg, -, hplain₁⟩ := Layout.plain_cons.1 hplainn
  obtain ⟨-, hg', -, hplain₂⟩ := Layout.plain_cons.1 hplain₁
  obtain ⟨hx, hg₂, -, -⟩ := Layout.plain_cons.1 hplain₂
  have hne : g'.text ≠ [] := by
    refine hplain₁.word_gap ?_
    obtain ⟨c, cs, hc⟩ := List.exists_cons_of_ne_nil hx.text_ne_nil
    refine ⟨c, by rw [hc]; rfl, hname.isWordText c ?_⟩
    change c ∈ (Lexeme.word name).text
    rw [hc]
    exact List.mem_cons_self
  have hend : EndsName g₂.text := fun c hc =>
    Text.isNamePart_eq_false_of_isLayout (hg₂ c (List.mem_of_head? hc))
  have htext : Layout.text (ld ++ [(Lexeme.star, g), (.word "as", g'), (.word name, g₂)]) =
      ld.text ++ '*' :: (g.text ++ ("as".toList ++ (g'.text ++ (name.toList ++ g₂.text)))) := by
    simp [Lexeme.text, Token.text]
  obtain ⟨hdefault', htypes, hmarks⟩ := importedDefault?_text hdefault hld hplaind (.inl rfl)
    (g.text ++ ("as".toList ++ (g'.text ++ (name.toList ++ g₂.text))))
  have hbrace : ∀ c ∈ Layout.text (ld ++ [(Lexeme.star, g), (.word "as", g'), (.word name, g₂)]),
      c ≠ '{' := by
    rw [Layout.text_append, List.forall_mem_append]
    refine ⟨fun c hc => (hmarks c hc).2, ?_⟩
    refine hplainn.bare.forall_text ?_ fun c hc => (ne_of_isLayout hc).2
    simp only [Layout.lexemes, List.map_cons, List.map_nil, List.forall_mem_cons]
    exact ⟨by simp [Lexeme.text], by simp [Lexeme.text, Token.text],
      ne_of_mem_name hx (by decide), by simp⟩
  rw [htext] at hbrace ⊢
  refine ⟨htypes, ?_, ?_, hdefault'⟩
  · rw [importedNames, bracedNames?_eq_none hbrace]
  · rw [importedNamespace?_append fun c hc => (hmarks c hc).1,
      importedNamespace?_star hname hg hg' hne hend]

/-- **Names in braces**, behind a default name or by themselves. -/
theorem hasBindings_named (hdefault : ∀ n ∈ default, IsSafeName n) {names : List (String × String)}
    {items : List (List Lexeme)} (hitems : List.Forall₂ WritesBinding names items)
    (hnames : ∀ b ∈ names, IsSafeName b.1 ∧ IsSafeName b.2)
    (hdistinct : (names.map Prod.fst).Nodup)
    (hl : l.lexemes = defaultLexemes default ++
      .mark .openBrace :: (commaList items ++ [Lexeme.mark .closeBrace]))
    (hplain : l.Plain after) : HasBindings names none default l.text := by
  obtain ⟨ld, lb, rfl, hld, hlb⟩ := Layout.exists_append hl
  obtain ⟨g₀, lb', rfl, hlb'⟩ := Layout.exists_cons hlb
  obtain ⟨li, last, rfl, hli, hlast⟩ := Layout.exists_append hlb'
  obtain ⟨g, l', rfl, hl'⟩ := Layout.exists_cons hlast
  obtain rfl := Layout.lexemes_eq_nil hl'
  obtain ⟨hplaind, hplainb⟩ := Layout.plain_append.1 hplain
  obtain ⟨-, hg₀, -, hplainb'⟩ := Layout.plain_cons.1 hplainb
  obtain ⟨hplaini, hplainl⟩ := Layout.plain_append.1 hplainb'
  have htext : Layout.text (ld ++ (.mark .openBrace, g₀) :: (li ++ [(Lexeme.mark .closeBrace, g)])) =
      ld.text ++ '{' :: (g₀.text ++ (li.text ++ '}' :: g.text)) := by
    simp [Lexeme.text, Token.text, Mark.text]
  obtain ⟨hdefault', htypes, hmarks⟩ := importedDefault?_text hdefault hld hplaind (.inr rfl)
    (g₀.text ++ (li.text ++ '}' :: g.text))
  have hstar : ∀ c ∈ Layout.text (ld ++ (.mark .openBrace, g₀) :: (li ++ [(Lexeme.mark .closeBrace, g)])),
      c ≠ '*' := by
    rw [Layout.text_append, List.forall_mem_append]
    refine ⟨fun c hc => (hmarks c hc).1, ?_⟩
    refine hplainb.bare.forall_text ?_ fun c hc => (ne_of_isLayout hc).1
    rw [hlb, List.forall_mem_cons, List.forall_mem_append]
    refine ⟨by simp [Lexeme.text, Token.text, Mark.text], fun x hx => ?_,
      by simp [Lexeme.text, Token.text, Mark.text]⟩
    exact ne_of_mem_word (words_of_mem_bindings hitems x hx) (hplaini.valid x (hli ▸ hx))
      (by decide) (by decide)
  rw [htext] at hstar ⊢
  exact ⟨htypes, importedNames_text hitems hnames hdistinct hli hplaini hg₀
    (fun c hc => (hmarks c hc).2) g.text, importedNamespace?_eq_none hstar, hdefault'⟩

end

/-- **A clause is read back.** -/
theorem importOfClause_text {d : ImportDeclaration} (hd : (Statement.imported d).IsSafe)
    {clause : List Lexeme} (h : WritesClause d.defaultName d.namespaceName d.names clause)
    {l : Layout} {after : List Char} (hl : l.lexemes = clause) (hplain : l.Plain after)
    (htrim : Text.trim l.text = l.text) (directory : String) :
    importOfClause directory l.text d.module.toList =
      { d with module := resolveModule d.module directory } := by
  obtain _ | _ | _ | ⟨_, -, hdefault, hnamespace, hnames, hdistinct, htype⟩ := hd
  obtain ⟨module, names, namespaceName, defaultName, typeOnly⟩ := d
  dsimp only at *
  have hparts : HasBindings names namespaceName defaultName l.text := by
    cases h with
    | default name => exact hasBindings_default (hdefault name rfl) hl hplain
    | «namespace» _ name =>
      exact hasBindings_namespace hdefault (hnamespace name rfl) hl hplain
    | named _ _ items hitems =>
      exact hasBindings_named hdefault hitems hnames hdistinct hl hplain
  rw [importOfClause, htrim]
  simp only [hparts.types, Bool.false_eq_true, if_false, hparts.names, hparts.namespaceName,
    hparts.default, String.ofList_toList, htype]

/-! ## Import statements -/

theorem WritesClause.isClauseChar {default ns : Option String} {names : List (String × String)}
    {clause : List Lexeme} (h : WritesClause default ns names clause) :
    ∀ x ∈ clause, x.Valid → ∀ c ∈ x.text, IsClauseChar c := by
  have hword : ∀ {w : String}, (Lexeme.word w).Valid → ∀ c ∈ (Lexeme.word w).text, IsClauseChar c :=
    fun hvalid c hc => ⟨ne_of_mem_name hvalid (by decide) c hc,
      ne_of_mem_name hvalid (by decide) c hc, ne_of_mem_name hvalid (by decide) c hc⟩
  have hmark : ∀ m, m = Mark.comma ∨ m = .openBrace ∨ m = .closeBrace →
      ∀ c ∈ (Lexeme.mark m).text, IsClauseChar c := by
    rintro m (rfl | rfl | rfl) <;> simp [Lexeme.text, Token.text, Mark.text, IsClauseChar]
  have hdefault : ∀ x ∈ defaultLexemes default, x.Valid → ∀ c ∈ x.text, IsClauseChar c := by
    cases default with
    | none => exact List.forall_mem_nil _
    | some name =>
      rw [defaultLexemes, List.forall_mem_cons, List.forall_mem_singleton]
      exact ⟨hword, fun _ => hmark .comma (.inl rfl)⟩
  cases h with
  | default name => exact List.forall_mem_singleton.2 hword
  | «namespace» _ name =>
    simp only [List.forall_mem_append, List.forall_mem_cons]
    exact ⟨hdefault, by simp [Lexeme.text, IsClauseChar], hword, hword, List.forall_mem_nil _⟩
  | named _ _ items hitems =>
    simp only [List.forall_mem_append, List.forall_mem_cons]
    refine ⟨hdefault, fun _ => hmark _ (.inr (.inl rfl)), fun x hx hvalid => ?_,
      fun _ => hmark _ (.inr (.inr rfl)), List.forall_mem_nil _⟩
    obtain ⟨w, rfl⟩ | rfl := words_of_mem_bindings hitems x hx
    · exact hword hvalid
    · exact hmark .comma (.inl rfl)

theorem WritesClause.ne_nil {default ns : Option String} {names : List (String × String)}
    {clause : List Lexeme} (h : WritesClause default ns names clause) : clause ≠ [] := by
  cases h <;> simp

/-- **An import is read back**, up to the statement after it. -/
theorem readImport?_text {d : ImportDeclaration} (hd : (Statement.imported d).IsSafe)
    {clause : List Lexeme} (h : WritesClause d.defaultName d.namespaceName d.names clause)
    {quote : Char} (hquote : IsModuleQuote quote) {semicolon : Bool} {l : Layout}
    {after : List Char}
    (hl : l.lexemes = .keyword "import" :: (clause ++ .word "from" ::
      .token (moduleToken quote d.module) :: lexemeIf semicolon (.mark .semicolon)))
    (hplain : l.Plain after) (directory : String) :
    ∃ rest, EndsAt l after rest ∧ readImport? directory (l.text ++ after) =
      some ({ d with module := resolveModule d.module directory }, rest) := by
  obtain ⟨gi, l₁, rfl, hl₁⟩ := Layout.exists_cons hl
  obtain ⟨lc, l₂, rfl, hlc, hl₂⟩ := Layout.exists_append hl₁
  obtain ⟨gf, l₃, rfl, hl₃⟩ := Layout.exists_cons hl₂
  obtain ⟨gm, ls, rfl, hls⟩ := Layout.exists_cons hl₃
  obtain ⟨-, hgi, -, hplain₁⟩ := Layout.plain_cons.1 hplain
  obtain ⟨hplainc, hplain₂⟩ := Layout.plain_append.1 hplain₁
  obtain ⟨-, hgf, -, hplain₃⟩ := Layout.plain_cons.1 hplain₂
  obtain ⟨-, hgm, -, hplains⟩ := Layout.plain_cons.1 hplain₃
  have hne : lc ≠ [] := by
    rintro rfl
    exact h.ne_nil hlc.symm
  have hgine : gi.text ≠ [] := hplain.keyword_gap (by simp [hne])
  obtain ⟨l', hl', hplain', ⟨blanks, hblanks, hlctext⟩, hlast⟩ := hplainc.exists_trimEnd hne
  have hlc' := hl'.trans hlc
  have hclause : ∀ c ∈ l'.text, IsClauseChar c :=
    hplain'.bare.forall_text (fun x hx => h.isClauseChar x (hlc' ▸ hx) (hplain'.valid x hx))
      fun c hc => isClauseChar_of_isBlank (Text.isBlank_of_isLayout hc)
  have hhead : ∀ c ∈ l'.text.head?, Text.isBlank c = false := hplain'.fits.isBlank_head?
  have hmodule : d.module.toList ≠ [] ∧ ∀ c ∈ d.module.toList, c ≠ '\'' ∧ c ≠ '"' := by
    obtain _ | _ | _ | ⟨_, hmodule⟩ := hd
    exact ⟨fun hnil => hmodule.ne_empty (String.toList_eq_nil_iff.1 hnil), hmodule.no_quote⟩
  have hread := clauseAndModule?_text hclause hlast hblanks hgf.allBlank hquote hmodule.1 hmodule.2
    (gm.text ++ (ls.text ++ after))
  have hhead' : ∀ c ∈ (l'.text ++ (blanks ++ ("from".toList ++ (gf.text ++ quote ::
      (d.module.toList ++ quote :: (gm.text ++ (ls.text ++ after))))))).head?,
      Text.isBlank c = false := by
    have hne' := hplain'.text_ne_nil (by rintro rfl; exact hne (Layout.lexemes_eq_nil hl'.symm))
    obtain ⟨c, cs, hc⟩ := List.exists_cons_of_ne_nil hne'
    rw [hc] at hhead ⊢
    simpa using hhead
  have htext : Layout.text ((.keyword "import", gi) :: (lc ++ (.word "from", gf) ::
        (.token (moduleToken quote d.module), gm) :: ls)) ++ after =
      "import".toList ++ (gi.text ++ (l'.text ++ (blanks ++ ("from".toList ++ (gf.text ++ quote ::
        (d.module.toList ++ quote :: (gm.text ++ (ls.text ++ after)))))))) := by
    simp [Lexeme.text, Token.text, moduleToken, hlctext]
  refine ⟨gm.text ++ (ls.text ++ after), ⟨gm.text ++ ls.text, ?_, ?_, by simp⟩, ?_⟩
  · refine ⟨Layout.text ((.keyword "import", gi) :: (lc ++ [(Lexeme.word "from", gf)])) ++
      (Lexeme.token (moduleToken quote d.module)).text, ?_⟩
    simp
  · rw [List.forall_mem_append]
    refine ⟨hgm.isIdle, ?_⟩
    cases semicolon with
    | true =>
      obtain ⟨g, l₄, rfl, hl₄⟩ := Layout.exists_cons hls
      obtain rfl := Layout.lexemes_eq_nil hl₄
      have hg := (Layout.plain_cons.1 hplains).2.1
      rw [Layout.text_cons, Layout.text_nil, List.append_nil, List.forall_mem_append]
      exact ⟨fun c hc => .inr (List.mem_singleton.1 hc), hg.isIdle⟩
    | false =>
      obtain rfl := Layout.lexemes_eq_nil hls
      exact List.forall_mem_nil _
  · rw [htext, readImport?, dropWord?_append]
    simp only [Option.bind_eq_bind, Option.bind_some, skipBlanks?_append hgi.allBlank hgine,
      Text.trimStart_of_head hhead', hread]
    rw [importOfClause_text hd h hlc' hplain' (Text.trim_eq_self hhead hlast)]
    rfl

end FluentBuilders
