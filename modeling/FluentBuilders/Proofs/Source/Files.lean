import FluentBuilders.Proofs.Source.Statements

/-!
# Proofs/Source/Files — a source file is read back

A file is a list of statements, each with its layout (`WrittenFile`).  Reading one statement leaves
the reader in front of the next (`scanStatements_cons`), so reading the whole text gives every
statement in its place, in the order of the file and with nothing to warn about
(`readSource_text`).  Comments stand in gaps only and keep their line breaks, so they change
nothing.
-/

namespace FluentBuilders

open Piece Grammar

/-! ## Lexemes of statements -/

theorem forall_mem_commaList {P : Lexeme → Prop} {items : List (List Lexeme)}
    (hcomma : P (.mark .comma)) (h : ∀ item ∈ items, ∀ x ∈ item, P x) :
    ∀ x ∈ commaList items, P x := by
  intro x hx
  obtain rfl | ⟨item, hitem, hx⟩ := mem_commaList hx
  · exact hcomma
  · exact h item hitem x hx

theorem valid_mark (m : Mark) : (Lexeme.mark m).Valid := Token.whole_mark m

theorem valid_type {t : TypeNode} (h : t.IsTyped) : ∀ x ∈ lexemesOf t.tokens, x.Valid :=
  List.forall_mem_map.2 (h.whole fun _ hn => hn.1)

theorem IsSafeName.valid {name : String} (h : IsSafeName name) : (Lexeme.word name).Valid :=
  Token.whole_word h.ascii

theorem valid_lexemeIf {present : Bool} {x : Lexeme} (h : x.Valid) :
    ∀ y ∈ lexemeIf present x, y.Valid := by
  cases present <;> simp [lexemeIf, h]

theorem TypeParameter.IsSafe.valid {p : TypeParameter} (h : p.IsSafe) : ∀ x ∈ p.lexemes, x.Valid := by
  rw [TypeParameter.lexemes, List.forall_mem_cons, List.forall_mem_append]
  refine ⟨h.name.valid, ?_, ?_⟩
  · cases hb : p.bound with
    | none => nofun
    | some t => exact List.forall_mem_cons.2 ⟨toList_extends, valid_type (h.bound t hb).typed⟩
  · cases hd : p.default with
    | none => nofun
    | some t => exact List.forall_mem_cons.2 ⟨trivial, valid_type (h.default t hd).typed⟩

theorem valid_parametersLexemes {ps : List TypeParameter} (h : ∀ p ∈ ps, p.IsSafe) :
    ∀ x ∈ parametersLexemes ps, x.Valid := by
  cases ps with
  | nil => nofun
  | cons p ps =>
    rw [parametersLexemes, List.forall_mem_cons, List.forall_mem_append]
    exact ⟨valid_mark _, forall_mem_commaList (valid_mark _)
      (List.forall_mem_map.2 fun q hq => (h q hq).valid), List.forall_mem_singleton.2 (valid_mark _)⟩

theorem valid_heritageLexemes {ts : List TypeNode} (h : ∀ t ∈ ts, t.IsSafe) :
    ∀ x ∈ heritageLexemes ts, x.Valid := by
  cases ts with
  | nil => nofun
  | cons t ts =>
    exact List.forall_mem_cons.2 ⟨toList_extends, forall_mem_commaList (valid_mark _)
      (List.forall_mem_map.2 fun u hu => valid_type (h u hu).typed)⟩

theorem WritesMember.valid {name : String} {item : List Lexeme} (h : WritesMember name item) :
    ∀ x ∈ item, x.Valid := by
  cases h with
  | bare _ hname => exact List.forall_mem_singleton.2 (Token.whole_word hname)
  | quoted literal hliteral => exact List.forall_mem_singleton.2 hliteral

theorem valid_as : (Lexeme.word "as").Valid := Token.whole_word (by decide)

theorem WritesBinding.valid {b : String × String} {item : List Lexeme} (h : WritesBinding b item)
    (hsafe : IsSafeName b.1 ∧ IsSafeName b.2) : ∀ x ∈ item, x.Valid := by
  cases h with
  | same name => exact List.forall_mem_singleton.2 hsafe.1.valid
  | renamed localName exported =>
    simp only [List.forall_mem_cons]
    exact ⟨hsafe.2.valid, valid_as, hsafe.1.valid, nofun⟩

theorem WritesClause.valid {default ns : Option String} {names : List (String × String)}
    {clause : List Lexeme} (h : WritesClause default ns names clause)
    (hdefault : ∀ n ∈ default, IsSafeName n) (hnamespace : ∀ n ∈ ns, IsSafeName n)
    (hnames : ∀ b ∈ names, IsSafeName b.1 ∧ IsSafeName b.2) : ∀ x ∈ clause, x.Valid := by
  have hfirst : ∀ x ∈ defaultLexemes default, x.Valid := by
    cases default with
    | none => nofun
    | some name =>
      exact List.forall_mem_cons.2
        ⟨(hdefault name rfl).valid, List.forall_mem_singleton.2 (valid_mark _)⟩
  cases h with
  | default name => exact List.forall_mem_singleton.2 (hdefault name rfl).valid
  | «namespace» _ name =>
    simp only [List.forall_mem_append, List.forall_mem_cons]
    exact ⟨hfirst, trivial, valid_as, (hnamespace name rfl).valid, nofun⟩
  | named _ _ items hitems =>
    simp only [List.forall_mem_append, List.forall_mem_cons]
    refine ⟨hfirst, valid_mark _, forall_mem_commaList (valid_mark _) fun item hitem => ?_,
      valid_mark _, nofun⟩
    obtain ⟨b, hb, hwrites⟩ := exists_mem_of_forall₂ hitems hitem
    exact hwrites.valid (hnames b hb)

/-- **Every lexeme of a statement can be read by itself.** -/
theorem Writes.valid {s : Statement} {xs : List Lexeme} (h : Writes s xs) (hsafe : s.IsSafe) :
    ∀ x ∈ xs, x.Valid := by
  have hkeyword : ∀ w ∈ "import" :: headWords, (Lexeme.keyword w).Valid := by
    simp only [Lexeme.Valid, Lexeme.isWordText]
    decide
  have hexport : ∀ {exported : Bool}, ∀ x ∈ lexemeIf exported (.keyword "export"), x.Valid :=
    valid_lexemeIf (hkeyword _ (by decide))
  cases h with
  | «alias» d semicolon =>
    obtain ⟨_, hname, hparameters, hbody⟩ := hsafe
    simp only [List.forall_mem_append, List.forall_mem_cons]
    exact ⟨hexport, hkeyword _ (by decide), hname.valid, valid_parametersLexemes hparameters,
      trivial, valid_type hbody.typed, valid_lexemeIf (valid_mark _)⟩
  | interface d =>
    obtain _ | ⟨_, hname, hparameters, hheritage, hmembers⟩ := hsafe
    simp only [List.forall_mem_append, List.forall_mem_cons]
    exact ⟨hexport, hkeyword _ (by decide), hname.valid, valid_parametersLexemes hparameters,
      valid_heritageLexemes fun t ht => (hheritage t ht).1, valid_type hmembers⟩
  | enum d exported items hitems =>
    obtain _ | _ | ⟨_, hname⟩ := hsafe
    simp only [List.forall_mem_append, List.forall_mem_cons]
    refine ⟨hexport, valid_lexemeIf (hkeyword _ (by decide)), hkeyword _ (by decide), hname.valid,
      valid_mark _, forall_mem_commaList (valid_mark _) fun item hitem => ?_, valid_mark _,
      List.forall_mem_nil _⟩
    obtain ⟨name, -, hwrites⟩ := exists_mem_of_forall₂ hitems hitem
    exact hwrites.valid
  | imported d clause quote semicolon hclause hquote =>
    obtain _ | _ | _ | ⟨_, hmodule, hdefault, hnamespace, hnames⟩ := hsafe
    simp only [List.forall_mem_append, List.forall_mem_cons]
    exact ⟨hkeyword _ (by decide), hclause.valid hdefault hnamespace hnames,
      Token.whole_word (by decide), hmodule.whole quote hquote, valid_lexemeIf (valid_mark _)⟩

/-! ## Contents -/

namespace Contents

/-- **The contents that statements make**, each in the list of its kind. -/
def ofStatements (ss : List Statement) : Contents where
  aliases := ss.filterMap fun | .alias d => some d | _ => none
  interfaces := ss.filterMap fun | .interface d => some d | _ => none
  enums := ss.filterMap fun | .enum d => some d | _ => none
  imports := ss.filterMap fun | .imported d => some d | _ => none

theorem append_ofStatements (ss : List Statement) (s : Statement) :
    (ofStatements ss).append s = ofStatements (ss ++ [s]) := by
  cases s <;> simp [ofStatements, append]

end Contents

/-- The name that a statement declares. -/
def Statement.declaredName? (s : Statement) : Option String := (Contents.declared? s).map (·.1)

theorem Statement.declaredName?_placed (directory : String) (line : Nat) (s : Statement) :
    (s.placed directory line).declaredName? = s.declaredName? := by
  cases s <;> rfl

theorem Contents.find?_ofStatements {ss : List Statement} {name : String}
    (h : name ∉ ss.filterMap Statement.declaredName?) : (ofStatements ss).find? name = none := by
  have hne : ∀ s ∈ ss, ∀ n, s.declaredName? = some n → (n == name) = false := by
    intro s hs n hn
    rw [beq_eq_false_iff_ne]
    rintro rfl
    exact h (List.mem_filterMap.2 ⟨s, hs, hn⟩)
  have haliases : (ofStatements ss).aliases.find? (·.name == name) = none := by
    simp only [List.find?_eq_none, ofStatements, List.mem_filterMap]
    rintro d ⟨s, hs, hd⟩
    cases s <;> cases hd
    simpa using hne _ hs _ rfl
  have hinterfaces : (ofStatements ss).interfaces.find? (·.name == name) = none := by
    simp only [List.find?_eq_none, ofStatements, List.mem_filterMap]
    rintro d ⟨s, hs, hd⟩
    cases s <;> cases hd
    simpa using hne _ hs _ rfl
  have henums : (ofStatements ss).enums.find? (·.name == name) = none := by
    simp only [List.find?_eq_none, ofStatements, List.mem_filterMap]
    rintro d ⟨s, hs, hd⟩
    cases s <;> cases hd
    simpa using hne _ hs _ rfl
  rw [Contents.find?, haliases, hinterfaces, henums]
  rfl

/-- **A statement with a new name** is added. -/
theorem Contents.add_ofStatements {ss : List Statement} {s : Statement}
    (h : ∀ name ∈ s.declaredName?, name ∉ ss.filterMap Statement.declaredName?) :
    (ofStatements ss).add s = pure (ofStatements (ss ++ [s])) := by
  rw [add]
  cases hdeclared : declared? s with
  | none => rw [append_ofStatements]
  | some d =>
    obtain ⟨name, line⟩ := d
    have hname : s.declaredName? = some name := by rw [Statement.declaredName?, hdeclared]; rfl
    dsimp only
    rw [find?_ofStatements (h name hname), if_neg (by simp), append_ofStatements]

/-! ## Files -/

/-- **A file as it is written**: statements with their layouts. -/
abbrev WrittenFile := List (Statement × Layout)

namespace WrittenFile

/-- The layout of a file. -/
def layout (file : WrittenFile) : Layout := file.flatMap (·.2)

/-- **The statements of a file in their places**, the first one on the given line. -/
def placedFrom (directory : String) : Nat → WrittenFile → List Statement
  | _, [] => []
  | line, (s, l) :: file =>
    s.placed directory line :: placedFrom directory (line + lineBreaks l.text) file

/-- **A file that can be read back.**  Its statements are written one to a line, with line breaks in
brackets and between statements only, and declare different names.  The literals in an enum have no
quotes of their own kind inside. -/
structure IsReadable (file : WrittenFile) : Prop where
  writes : ∀ p ∈ file, Writes p.1 p.2.lexemes
  safe : ∀ p ∈ file, p.1.IsSafe
  apart : file.layout.Apart []
  unbroken : ∀ p ∈ file, p.2.Unbroken
  endsLine : ∀ p ∈ file.dropLast, p.2.EndsLine
  literal : ∀ p ∈ file, ∀ d, p.1 = .enum d → ∀ x ∈ p.2.lexemes, x.IsPlainLiteral
  distinct : (file.filterMap (·.1.declaredName?)).Nodup

theorem layout_cons (s : Statement) (l : Layout) (file : WrittenFile) :
    layout ((s, l) :: file) = l ++ layout file := List.flatMap_cons

namespace IsReadable

variable {p : Statement × Layout} {file : WrittenFile}

theorem tail (h : IsReadable (p :: file)) : IsReadable file where
  writes q hq := h.writes q (List.mem_cons_of_mem _ hq)
  safe q hq := h.safe q (List.mem_cons_of_mem _ hq)
  apart := (Layout.apart_append.1 h.apart).2
  unbroken q hq := h.unbroken q (List.mem_cons_of_mem _ hq)
  endsLine q hq := by
    cases file with
    | nil => cases hq
    | cons r file => exact h.endsLine q (List.mem_cons_of_mem _ hq)
  literal q hq := h.literal q (List.mem_cons_of_mem _ hq)
  distinct := h.distinct.sublist ((List.sublist_cons_self p file).filterMap _)

theorem apart_head {s : Statement} {l : Layout} (h : IsReadable ((s, l) :: file)) :
    l.Apart (WrittenFile.layout file).text := by
  have := h.apart
  rw [layout_cons, Layout.apart_append, List.append_nil] at this
  exact this.1

/-- **The lexemes of a file can be read by themselves.** -/
theorem valid (h : IsReadable file) : ∀ x ∈ file.layout.lexemes, x.Valid := by
  intro x hx
  obtain ⟨q, hq, rfl⟩ := List.mem_map.1 hx
  obtain ⟨r, hr, hmem⟩ := List.mem_flatMap.1 hq
  exact (h.writes r hr).valid (h.safe r hr) _ (List.mem_map_of_mem hmem)

end IsReadable

end WrittenFile

/-! ## Reading statement by statement -/

/-- A statement begins with a keyword. -/
theorem Writes.exists_keyword {s : Statement} {xs : List Lexeme} (h : Writes s xs) :
    ∃ w ys, xs = .keyword w :: ys ∧ w ∈ "import" :: headWords := by
  cases h with
  | «alias» d =>
    cases d.exported with
    | true => exact ⟨"export", _, rfl, by decide⟩
    | false => exact ⟨"type", _, rfl, by decide⟩
  | interface d =>
    cases d.exported with
    | true => exact ⟨"export", _, rfl, by decide⟩
    | false => exact ⟨"interface", _, rfl, by decide⟩
  | enum d exported =>
    cases exported with
    | true => exact ⟨"export", _, rfl, by decide⟩
    | false =>
      cases d.constant with
      | true => exact ⟨"const", _, rfl, by decide⟩
      | false => exact ⟨"enum", _, rfl, by decide⟩
  | imported => exact ⟨"import", _, rfl, by decide⟩

/-- **A statement begins with a letter.** -/
theorem Writes.exists_head {s : Statement} {l : Layout} (h : Writes s l.lexemes) :
    ∃ c cs, l.text = c :: cs ∧ Text.isLatin c = true := by
  obtain ⟨w, ys, hw, hmem⟩ := h.exists_keyword
  obtain ⟨g, l', rfl, -⟩ := Layout.exists_cons hw
  obtain ⟨c, hc, hlatin⟩ := (by decide : ∀ w ∈ "import" :: headWords,
    ∃ c ∈ w.toList.head?, Text.isLatin c = true) w hmem
  obtain ⟨cs, hcs⟩ := List.head?_eq_some_iff.1 hc
  exact ⟨c, cs ++ (g.text ++ l'.text), by simp [Lexeme.text, hcs], hlatin⟩

/-- A letter is no quote and no bracket. -/
theorem isLatin_cases {c : Char} (h : Text.isLatin c = true) :
    isQuote c = false ∧ ¬(c = '(' ∨ c = '[' ∨ c = '{') ∧ ¬(c = ')' ∨ c = ']' ∨ c = '}') := by
  refine ⟨?_, ?_, ?_⟩
  · by_contra hq
    simp only [isQuote, Bool.or_eq_false_iff, beq_eq_false_iff_ne, not_and_or, not_not] at hq
    rcases hq with (rfl | rfl) | rfl <;> exact absurd h (by decide)
  · rintro (rfl | rfl | rfl) <;> exact absurd h (by decide)
  · rintro (rfl | rfl | rfl) <;> exact absurd h (by decide)

/-- Nothing begins with an idle character: it is no quote, no bracket and no letter. -/
theorem IsIdle.cases {c : Char} (h : IsIdle c) :
    isQuote c = false ∧ ¬(c = '(' ∨ c = '[' ∨ c = '{') ∧ ¬(c = ')' ∨ c = ']' ∨ c = '}') ∧
      Text.isLatin c = false ∧ isWordBefore c = false := by
  rcases h with h | rfl
  · simp only [Token.isLayout, Bool.or_eq_true, beq_iff_eq] at h
    rcases h with (((rfl | rfl) | rfl) | rfl) | rfl <;> decide
  · decide

/-- **Reading a statement takes some of its text.** -/
theorem Writes.length_lt {s : Statement} {l : Layout} (h : Writes s l.lexemes)
    {after rest : List Char} (hrest : EndsAt l after rest) :
    rest.length < (l.text ++ after).length := by
  obtain ⟨idle, hsuffix, hidle, rfl⟩ := hrest
  obtain ⟨c, cs, hc, hlatin⟩ := h.exists_head
  have hne : idle ≠ l.text := by
    rintro rfl
    have := (hidle c (by rw [hc]; exact List.mem_cons_self)).cases.2.2.2.1
    rw [hlatin] at this
    cases this
  have hlt : idle.length < l.text.length := by
    refine lt_of_le_of_ne hsuffix.length_le fun heq => hne (hsuffix.eq_of_length heq)
  simpa using hlt

section

variable {directory : String} {total fuel : Nat}

/-- **Idle characters are skipped.** -/
theorem scanStatements_idle (directory : String) (total : Nat) (contents : Contents)
    {idle rest : List Char} (h : ∀ c ∈ idle, IsIdle c)
    (hfuel : (idle ++ rest).length < fuel) :
    ∃ fuel', rest.length < fuel' ∧
      scanStatements directory total fuel 0 false (idle ++ rest) contents =
        scanStatements directory total fuel' 0 false rest contents := by
  induction idle generalizing fuel with
  | nil => exact ⟨fuel, hfuel, rfl⟩
  | cons c idle ih =>
    rw [List.forall_mem_cons] at h
    obtain ⟨fuel, rfl⟩ : ∃ n, fuel = n + 1 := ⟨fuel - 1, by simp at hfuel; omega⟩
    obtain ⟨fuel', hfuel', hscan⟩ := ih h.2 (show (idle ++ rest).length < fuel by simpa using hfuel)
    obtain ⟨hquote, hopen, hclose, hlatin, hword⟩ := h.1.cases
    refine ⟨fuel', hfuel', ?_⟩
    rw [List.cons_append, scanStatements, hquote, if_neg Bool.false_ne_true, if_neg hopen,
      if_neg hclose, if_neg (by simp [hlatin]), hword, hscan]

/-- **One statement is read**, and the reader goes on after it. -/
theorem scanStatements_statement {c : Char} {cs rest : List Char} {s : Statement} {ss : List Statement}
    (hc : Text.isLatin c = true)
    (hread : readStatement? directory (total - lineBreaks (c :: cs) + 1) (c :: cs) =
      some { statement := pure (some s), rest })
    (hname : ∀ name ∈ s.declaredName?, name ∉ ss.filterMap Statement.declaredName?) :
    scanStatements directory total (fuel + 1) 0 false (c :: cs) (.ofStatements ss) =
      scanStatements directory total fuel 0 false rest (.ofStatements (ss ++ [s])) := by
  obtain ⟨hquote, hopen, hclose⟩ := isLatin_cases hc
  rw [scanStatements, hquote, if_neg Bool.false_ne_true, if_neg hopen, if_neg hclose,
    if_pos (by simp [hc]), hread]
  dsimp only
  change (do
    let contents ← (Contents.ofStatements ss).add s
    scanStatements directory total fuel 0 false rest contents) = _
  rw [Contents.add_ofStatements hname]
  rfl

/-- What stands behind a statement is the first letter of the next one, or nothing. -/
theorem WrittenFile.IsReadable.beginsStatement {file : WrittenFile} (h : file.IsReadable) :
    BeginsStatement file.layout.text := by
  cases file with
  | nil => exact nofun
  | cons p file =>
    obtain ⟨c, cs, hc, hlatin⟩ := (h.writes p List.mem_cons_self).exists_head
    rintro d hd
    rw [WrittenFile.layout_cons, Layout.text_append, hc] at hd
    cases hd
    exact hlatin

/-- **A file without comments is read statement by statement**, behind idle characters. -/
theorem scanStatements_file {file : WrittenFile} (h : file.IsReadable)
    (hbare : file.layout.IsBare) {ss : List Statement}
    (hnames : (ss.filterMap Statement.declaredName? ++
      file.filterMap (·.1.declaredName?)).Nodup) {line : Nat} (hpos : 0 < line)
    (hline : line + lineBreaks file.layout.text = total + 1) {idle : List Char}
    (hidle : ∀ c ∈ idle, IsIdle c) (hfuel : (idle ++ file.layout.text).length < fuel) :
    scanStatements directory total fuel 0 false (idle ++ file.layout.text) (.ofStatements ss) =
      pure (.ofStatements (ss ++ file.placedFrom directory line)) := by
  induction file generalizing fuel ss line idle with
  | nil =>
    obtain ⟨fuel', hfuel', hscan⟩ :=
      scanStatements_idle directory total (.ofStatements ss) hidle hfuel
    obtain ⟨fuel', rfl⟩ : ∃ n, fuel' = n + 1 := ⟨fuel' - 1, by omega⟩
    rw [hscan, WrittenFile.placedFrom, List.append_nil]
    rfl
  | cons p file ih =>
    obtain ⟨s, l⟩ := p
    have htail := h.tail
    rw [WrittenFile.layout_cons] at hbare
    rw [WrittenFile.layout_cons, Layout.text_append, lineBreaks_append] at hline
    rw [WrittenFile.layout_cons, Layout.text_append] at hfuel ⊢
    rw [Layout.IsBare, List.forall_mem_append] at hbare
    have hwrites : Writes s l.lexemes := h.writes _ List.mem_cons_self
    have hsafe : s.IsSafe := h.safe _ List.mem_cons_self
    have hplain : l.Plain (WrittenFile.layout file).text :=
      ⟨hwrites.valid hsafe, hbare.1, h.apart_head⟩
    have hends : l.EndsLine ∨ (WrittenFile.layout file).text = [] := by
      cases file with
      | nil => exact .inr rfl
      | cons q file => exact .inl (h.endsLine _ List.mem_cons_self)
    obtain ⟨rest, hrest, hread⟩ := readStatement?_text hwrites hsafe hplain
      (h.unbroken _ List.mem_cons_self) (h.literal _ List.mem_cons_self) htail.beginsStatement hends
      directory line
    obtain ⟨fuel', hfuel', hscan⟩ :=
      scanStatements_idle directory total (.ofStatements ss) hidle hfuel
    obtain ⟨fuel', rfl⟩ : ∃ n, fuel' = n + 1 := ⟨fuel' - 1, by omega⟩
    have hlength := hwrites.length_lt hrest
    obtain ⟨idle', -, hidle', rfl⟩ := hrest
    obtain ⟨c, cs, hc, hlatin⟩ := hwrites.exists_head
    have hstart : total - lineBreaks (l.text ++ (WrittenFile.layout file).text) + 1 = line := by
      rw [lineBreaks_append]
      omega
    rw [List.filterMap_cons] at hnames
    have hnew : ∀ name ∈ (s.placed directory line).declaredName?,
        name ∉ ss.filterMap Statement.declaredName? := by
      intro name hname hmem
      rw [Statement.declaredName?_placed] at hname
      rw [Option.mem_def.1 hname] at hnames
      exact (List.nodup_append.1 hnames).2.2 name hmem name List.mem_cons_self rfl
    have hnames' : ((ss ++ [s.placed directory line]).filterMap Statement.declaredName? ++
        List.filterMap (·.1.declaredName?) file).Nodup := by
      rw [List.filterMap_append, List.filterMap_cons, Statement.declaredName?_placed,
        List.filterMap_nil, List.append_assoc]
      revert hnames
      cases s.declaredName? <;> exact id
    have hrun := ih htail hbare.2 hnames' (show 0 < line + lineBreaks l.text by omega) (by omega)
      hidle' (show _ < fuel' by omega)
    rw [hc, List.cons_append] at hread hstart
    rw [← hstart] at hread
    rw [hscan, hc, List.cons_append, scanStatements_statement hlatin hread (hstart ▸ hnew), hstart,
      hrun, WrittenFile.placedFrom, List.append_assoc]
    rfl

end

/-! ## Without comments -/

/-- A gap keeps its line breaks without its comments. -/
theorem Gap.lineBreak_mem_bare {gap : Gap} : '\n' ∈ gap.bare.text ↔ '\n' ∈ gap.text := by
  rw [← List.count_pos_iff, ← List.count_pos_iff]
  exact iff_of_eq (congrArg (0 < ·) gap.lineBreaks_bare)

theorem Layout.GapsOutside.bare {angles : Bool} {d : Nat} {l : Layout}
    (h : l.GapsOutside angles (· ≠ '\n') d) : l.bare.GapsOutside angles (· ≠ '\n') d := by
  induction l generalizing d with
  | nil => trivial
  | cons p l ih =>
    refine ⟨fun hd c hc heq => ?_, ih h.2⟩
    exact h.1 hd '\n' (Gap.lineBreak_mem_bare.1 (heq ▸ hc)) rfl

theorem Layout.Unbroken.bare {l : Layout} (h : l.Unbroken) : l.bare.Unbroken := by
  rw [Layout.Unbroken, Layout.bare, ← List.map_dropLast]
  exact Layout.GapsOutside.bare h

theorem Layout.EndsLine.bare {l : Layout} (h : l.EndsLine) : l.bare.EndsLine := by
  intro p hp
  rw [Layout.bare, List.getLast?_map] at hp
  obtain ⟨q, hq, rfl⟩ := Option.map_eq_some_iff.1 hp
  exact Gap.lineBreak_mem_bare.2 (h q hq)

namespace WrittenFile

/-- A file without its comments. -/
def bare (file : WrittenFile) : WrittenFile := file.map fun p => (p.1, p.2.bare)

theorem layout_bare (file : WrittenFile) : file.bare.layout = file.layout.bare := by
  simp [layout, bare, Layout.bare, List.flatMap_map, List.map_flatMap]

/-- **Every statement keeps its line.** -/
theorem placedFrom_bare (directory : String) (line : Nat) (file : WrittenFile) :
    placedFrom directory line file.bare = placedFrom directory line file := by
  induction file generalizing line with
  | nil => rfl
  | cons p file ih =>
    obtain ⟨s, l⟩ := p
    change s.placed directory line ::
      placedFrom directory (line + lineBreaks l.bare.text) (bare file) = _
    rw [ih, l.lineBreaks_bare, placedFrom]

/-- **A file that can be read back** can be without its comments. -/
theorem IsReadable.bare {file : WrittenFile} (h : file.IsReadable) : file.bare.IsReadable where
  writes p hp := by
    obtain ⟨q, hq, rfl⟩ := List.mem_map.1 hp
    simpa using h.writes q hq
  safe p hp := by
    obtain ⟨q, hq, rfl⟩ := List.mem_map.1 hp
    exact h.safe q hq
  apart := by
    rw [layout_bare]
    exact h.apart.bare h.valid (.inl rfl)
  unbroken p hp := by
    obtain ⟨q, hq, rfl⟩ := List.mem_map.1 hp
    exact (h.unbroken q hq).bare
  endsLine p hp := by
    rw [WrittenFile.bare, ← List.map_dropLast] at hp
    obtain ⟨q, hq, rfl⟩ := List.mem_map.1 hp
    exact (h.endsLine q hq).bare
  literal p hp d hd := by
    obtain ⟨q, hq, rfl⟩ := List.mem_map.1 hp
    simpa using h.literal q hq d hd
  distinct := by
    rw [WrittenFile.bare, List.filterMap_map]
    exact h.distinct

end WrittenFile

/-- **A source file is read back.**  Whatever its layout, its statements are read in their places,
in the order of the file, and nothing is to be warned about. -/
theorem readSource_text {file : WrittenFile} (h : file.IsReadable) (gap : Gap)
    (modulePath : String) (path : Option Path) (strictNullChecks : Bool) :
    readSource (String.ofList (gap.text ++ file.layout.text)) modulePath path strictNullChecks =
      pure
        { text := String.ofList (gap.text ++ file.layout.text), modulePath, path, strictNullChecks
          contents := .ofStatements
            (file.placedFrom (directoryOf modulePath) (1 + lineBreaks gap.text)) } := by
  have hstrip : stripComments (gap.text ++ file.layout.text) =
      gap.bare.text ++ file.bare.layout.text := by
    have := stripComments_text h.valid []
    rw [List.append_nil, stripComments, List.append_nil] at this
    rw [stripComments_gap, this, WrittenFile.layout_bare]
  have hbare : file.bare.layout.IsBare := by
    rw [WrittenFile.layout_bare]
    exact Layout.bare_isBare _
  have hscan : readContents (directoryOf modulePath)
      (String.ofList (gap.text ++ file.layout.text)) = pure (.ofStatements
        ([] ++ file.bare.placedFrom (directoryOf modulePath) (1 + lineBreaks gap.text))) := by
    rw [readContents, String.toList_ofList, hstrip]
    have hline : 1 + lineBreaks gap.text + lineBreaks file.bare.layout.text =
        lineBreaks (gap.bare.text ++ file.bare.layout.text) + 1 := by
      rw [lineBreaks_append, gap.lineBreaks_bare]
      omega
    have hnames : (([] : List Statement).filterMap Statement.declaredName? ++
        file.bare.filterMap (·.1.declaredName?)).Nodup := h.bare.distinct
    exact scanStatements_file h.bare hbare hnames (show 0 < 1 + lineBreaks gap.text by omega)
      hline gap.bare_isBare.isIdle (Nat.lt_succ_self _)
  rw [readSource, hscan, WrittenFile.placedFrom_bare, List.nil_append]
  rfl

/-! ## Files in plain lines -/

namespace Layout

/-- **Lexemes in a line of their own**, with a blank between them. -/
def line : List Lexeme → Layout
  | [] => []
  | [x] => [(x, [.lineBreak])]
  | x :: xs => (x, [.blank ' ' rfl]) :: line xs

theorem line_cons (x : Lexeme) {xs : List Lexeme} (h : xs ≠ []) :
    line (x :: xs) = (x, [.blank ' ' rfl]) :: line xs := by
  obtain ⟨y, ys, rfl⟩ := List.exists_cons_of_ne_nil h
  rfl

theorem line_concat (xs : List Lexeme) (x : Lexeme) :
    line (xs ++ [x]) = xs.map (·, [Filler.blank ' ' rfl]) ++ [(x, [Filler.lineBreak])] := by
  induction xs with
  | nil => rfl
  | cons y ys ih => rw [List.cons_append, line_cons y (by simp), ih]; rfl

@[simp] theorem lexemes_line (xs : List Lexeme) : (line xs).lexemes = xs := by
  rcases List.eq_nil_or_concat xs with rfl | ⟨xs, x, rfl⟩
  · rfl
  · rw [List.concat_eq_append, line_concat]
    simp [lexemes, Function.comp_def]

/-- Lexemes with blanks after them stand apart. -/
theorem apart_of_blanks {l : Layout} (h : ∀ p ∈ l, ∃ c ∈ p.2.text.head?, Token.isLayout c = true)
    (after : List Char) : l.Apart after := by
  induction l with
  | nil => trivial
  | cons p l ih =>
    rw [List.forall_mem_cons] at h
    obtain ⟨c, hc, hlayout⟩ := h.1
    refine ⟨fun d hd => ?_, ih h.2⟩
    rw [List.head?_append, Option.mem_def.1 hc] at hd
    cases hd
    exact p.1.extendsWith_of_isLayout hlayout

theorem apart_line (xs : List Lexeme) (after : List Char) : (line xs).Apart after := by
  refine apart_of_blanks (fun p hp => ?_) after
  rcases List.eq_nil_or_concat xs with rfl | ⟨xs, x, rfl⟩
  · cases hp
  · rw [List.concat_eq_append, line_concat, List.mem_append, List.mem_map, List.mem_singleton] at hp
    obtain ⟨y, -, rfl⟩ | rfl := hp
    · exact ⟨' ', rfl, rfl⟩
    · exact ⟨'\n', rfl, rfl⟩

theorem unbroken_line (xs : List Lexeme) : (line xs).Unbroken := by
  rcases List.eq_nil_or_concat xs with rfl | ⟨xs, x, rfl⟩
  · trivial
  rw [List.concat_eq_append, line_concat, unbroken_concat]
  clear x
  generalize 0 = d
  induction xs generalizing d with
  | nil => trivial
  | cons x xs ih => exact ⟨fun _ => by simp [Filler.text], ih _⟩

theorem endsLine_line (xs : List Lexeme) : (line xs).EndsLine := by
  rcases List.eq_nil_or_concat xs with rfl | ⟨xs, x, rfl⟩
  · exact nofun
  · intro p hp
    rw [List.concat_eq_append, line_concat, List.getLast?_concat, Option.mem_some_iff] at hp
    subst hp
    simp

end Layout

/-- **A file with every statement in a line of its own.** -/
def WrittenFile.inLines (ss : List (Statement × List Lexeme)) : WrittenFile :=
  ss.map fun p => (p.1, Layout.line p.2)

/-- **Statements in lines of their own can be read back.** -/
theorem WrittenFile.isReadable_inLines {ss : List (Statement × List Lexeme)}
    (hwrites : ∀ p ∈ ss, Writes p.1 p.2) (hsafe : ∀ p ∈ ss, p.1.IsSafe)
    (hliteral : ∀ p ∈ ss, ∀ x ∈ p.2, x.IsPlainLiteral)
    (hdistinct : (ss.filterMap (·.1.declaredName?)).Nodup) : (inLines ss).IsReadable where
  writes p hp := by
    obtain ⟨q, hq, rfl⟩ := List.mem_map.1 hp
    simpa using hwrites q hq
  safe p hp := by
    obtain ⟨q, hq, rfl⟩ := List.mem_map.1 hp
    exact hsafe q hq
  apart := by
    induction ss with
    | nil => trivial
    | cons p ss ih =>
      simp only [List.forall_mem_cons] at hwrites hsafe hliteral
      have htail := ih hwrites.2 hsafe.2 hliteral.2
        (hdistinct.sublist ((List.sublist_cons_self p ss).filterMap _))
      exact Layout.apart_append.2 ⟨Layout.apart_line _ _, htail⟩
  unbroken p hp := by
    obtain ⟨q, -, rfl⟩ := List.mem_map.1 hp
    exact Layout.unbroken_line _
  endsLine p hp := by
    obtain ⟨q, -, rfl⟩ := List.mem_map.1 (List.dropLast_subset _ hp)
    exact Layout.endsLine_line _
  literal p hp d _ := by
    obtain ⟨q, hq, rfl⟩ := List.mem_map.1 hp
    simpa using hliteral q hq
  distinct := by
    rw [inLines, List.filterMap_map]
    exact hdistinct

/-! ### A file with statements of every kind -/

/-- The type of a point. -/
def pointType : TypeNode := .reference "P" []

/-- An import of points. -/
def pointImport : ImportDeclaration :=
  { module := "./geo", names := [("P", "Point")], namespaceName := none, defaultName := none,
    typeOnly := false }

/-- Rows, of points if nothing else is said. -/
def rowAlias : AliasDeclaration :=
  { name := "Row", body := .array (.reference "T" []), exported := true, line := 0,
    parameters := [{ name := "T", bound := none, default := some pointType }] }

/-- Cells, which are rows of points. -/
def cellInterface : InterfaceDeclaration :=
  { name := "Cell", parameters := [], heritage := [.reference "Row" [pointType]],
    members := [.property "at" true false (some pointType)], exported := false, line := 0 }

/-- The sides of a cell. -/
def sideEnum : EnumDeclaration :=
  { name := "Side", members := ["left", "up"], constant := true, line := 0 }

/-- **Statements of every kind** and how they are written. -/
def geometry : List (Statement × List Lexeme) :=
  [(.imported pointImport,
      [.keyword "import", .mark .openBrace, .word "Point", .word "as", .word "P", .mark .closeBrace,
        .word "from", .token (moduleToken '\'' "./geo"), .mark .semicolon]),
    (.alias rowAlias,
      [.keyword "export", .keyword "type", .word "Row", .mark .openAngle, .word "T", .equals,
        .word "P", .mark .closeAngle, .equals, .mark .openParen, .word "T", .mark .closeParen,
        .mark .openBracket, .mark .closeBracket]),
    (.interface cellInterface,
      [.keyword "interface", .word "Cell", .keyword "extends", .word "Row", .mark .openAngle,
        .mark .openParen, .word "P", .mark .closeParen, .mark .closeAngle, .mark .openBrace,
        .token (.string "\"at\""), .mark .question, .mark .colon, .mark .openParen, .word "P",
        .mark .closeParen, .mark .semicolon, .mark .closeBrace]),
    (.enum sideEnum,
      [.keyword "const", .keyword "enum", .word "Side", .mark .openBrace, .word "left",
        .mark .comma, .token (.string "\"up\""), .mark .closeBrace])]

theorem writes_geometry : ∀ p ∈ geometry, Writes p.1 p.2 := by
  simp only [geometry, List.forall_mem_cons]
  refine ⟨?_, ?_, ?_, ?_, nofun⟩
  · exact .imported pointImport _ '\'' true (.named none [("P", "Point")] [_]
      (.cons (.renamed "P" "Point") .nil)) (.inr rfl)
  · exact .alias rowAlias false
  · exact .interface cellInterface
  · exact .enum sideEnum false [[.word "left"], [.token (.string "\"up\"")]]
      (.cons (.bare "left" (by decide)) (.cons (.quoted "\"up\"" rfl) .nil))

theorem isSafe_geometry : ∀ p ∈ geometry, p.1.IsSafe := by
  have hpoint : pointType.IsSafe := .reference (by unfold DottedBy; decide +kernel) nofun
  have hrow : (TypeNode.reference "Row" [pointType]).IsSafe :=
    .reference (by unfold DottedBy; decide +kernel) (List.forall_mem_singleton.2 hpoint.typed)
  have helement : (TypeNode.reference "T" []).IsSafe :=
    .reference (by unfold DottedBy; decide +kernel) nofun
  simp only [geometry, List.forall_mem_cons]
  refine ⟨?_, ?_, ?_, ?_, nofun⟩
  · refine .imported pointImport ⟨by decide, by decide, ?_⟩ nofun nofun (by decide) (by decide) rfl
    rintro _ (rfl | rfl) <;> rfl
  · refine .alias rowAlias (by decide) (List.forall_mem_singleton.2 ⟨by decide, nofun, ?_⟩)
      ⟨.array _ helement.typed, nofun⟩
    rintro _ ⟨⟩
    exact hpoint
  · refine .interface cellInterface (by decide) nofun
      (List.forall_mem_singleton.2 ⟨hrow, _, _, rfl⟩)
      (.object _ (List.forall_mem_singleton.2 nofun) (List.forall_mem_singleton.2 ?_))
    exact List.forall_mem_singleton.2 hpoint.typed
  · exact .enum sideEnum (by decide)

/-- A comment of one line. -/
def openingComment : Gap := [.lineComment " cells".toList (by decide)]

theorem readSource_text_geometry :
    (WrittenFile.inLines geometry).layout.text =
        ("import \x7b Point as P \x7d from './geo' ;\nexport type Row < T = P > = ( T ) [ ]\n" ++
          "interface Cell extends Row < ( P ) > \x7b \"at\" ? : ( P ) ; \x7d\n" ++
          "const enum Side \x7b left , \"up\" \x7d\n").toList ∧
      readSource (String.ofList (openingComment.text ++ (WrittenFile.inLines geometry).layout.text))
          "/shapes/cells" none true =
        pure
          { text := String.ofList
              (openingComment.text ++ (WrittenFile.inLines geometry).layout.text)
            modulePath := "/shapes/cells", path := none, strictNullChecks := true
            contents :=
              { imports := [{ pointImport with module := "/shapes/geo" }]
                aliases := [{ rowAlias with line := 3 }]
                interfaces := [{ cellInterface with line := 4 }]
                enums := [{ sideEnum with line := 5 }] } } := by
  have hreadable : (WrittenFile.inLines geometry).IsReadable :=
    WrittenFile.isReadable_inLines writes_geometry isSafe_geometry
      (by decide +kernel) (by decide)
  refine ⟨by decide +kernel,
    (readSource_text hreadable openingComment "/shapes/cells" none true).trans ?_⟩
  rfl

/-! ### Escaped quotes -/

/-- **An enum with both quotes in the name of its member**, one of them escaped. -/
def quotesEnum : List (Statement × List Lexeme) :=
  [(.enum { name := "E", members := ["a\"b'c"], constant := false, line := 0 },
      [.keyword "enum", .word "E", .mark .openBrace, .token (.string "\"a\\\"b'c\""),
        .mark .closeBrace])]

/-- The literal of a member is not read past an escaped quote, though it is scanned and written like
any other. -/
theorem readSource_quotesEnum :
    (∀ p ∈ quotesEnum, Writes p.1 p.2) ∧ (∀ p ∈ quotesEnum, p.1.IsSafe) ∧
      (WrittenFile.inLines quotesEnum).layout.text =
        "enum E \x7b \"a\\\"b'c\" \x7d\n".toList ∧
      (readSource (String.ofList (WrittenFile.inLines quotesEnum).layout.text) "/m" none
        true).value.contents.enums.map (·.members) = [["a\\"]] := by
  refine ⟨List.forall_mem_singleton.2 ?_, List.forall_mem_singleton.2 (.enum _ (by decide)),
    by decide +kernel, by decide +kernel⟩
  exact .enum { name := "E", members := ["a\"b'c"], constant := false, line := 0 } false
    [[.token (.string "\"a\\\"b'c\"")]] (.cons (.quoted "\"a\\\"b'c\"" rfl) .nil)

end FluentBuilders
