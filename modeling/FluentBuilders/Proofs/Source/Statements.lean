import FluentBuilders.Proofs.Source.Imports

/-!
# Proofs/Source/Statements — statements are read back

A statement begins with its keywords, each a word of its own, and goes on with what was written
after its name (`readHead?_alias` and its companions).  Reading it gives the statement in its place:
on its line, the module of an import as it is known in the file's directory
(`readStatement?_text`).
-/

namespace FluentBuilders

open Piece Grammar

/-! ## Keywords -/

section

variable {word w : String} {g : Gap} {l : Layout} {after : List Char}

/-- **A keyword and the gap after it** come off, and no other word does. -/
theorem wordThenBlanks?_keyword (hw : IsWordText w.toList)
    (hplain : Layout.Plain ((.keyword word, g) :: l) after) (hl : l ≠ []) :
    wordThenBlanks? w (Layout.text ((.keyword word, g) :: l) ++ after) =
      if w = word then some (l.text ++ after) else none := by
  obtain ⟨hvalid, hg, -, hplainl⟩ := Layout.plain_cons.1 hplain
  have hne : g.text ≠ [] := hplain.keyword_gap hl
  have hhead : ∀ c ∈ (l.text ++ after).head?, Text.isBlank c = false := by
    obtain ⟨c, cs, hc⟩ := List.exists_cons_of_ne_nil (hplainl.text_ne_nil hl)
    have := hplainl.fits.isBlank_head?
    rw [hc] at this ⊢
    exact this
  have hend : EndsWord (g.text ++ (l.text ++ after)) := (endsName_gap hg hne _).endsWord
  have htext : Layout.text ((.keyword word, g) :: l) ++ after =
      word.toList ++ (g.text ++ (l.text ++ after)) := by
    simp [Lexeme.text]
  rw [htext, wordThenBlanks?_word hw (isWordText_of_isNameOver hvalid) hend]
  by_cases heq : w = word
  · rw [if_pos heq, if_pos (congrArg _ heq), skipBlanks?_append hg.allBlank hne,
      Text.trimStart_of_head hhead]
  · rw [if_neg heq, if_neg fun h => heq (String.toList_injective h)]

theorem wordThenBlanks?_self (hplain : Layout.Plain ((.keyword word, g) :: l) after) (hl : l ≠ []) :
    wordThenBlanks? word (Layout.text ((.keyword word, g) :: l) ++ after) = some (l.text ++ after) := by
  have hvalid := (Layout.plain_cons.1 hplain).1
  rw [wordThenBlanks?_keyword (isWordText_of_isNameOver hvalid) hplain hl, if_pos rfl]

theorem wordThenBlanks?_other (hw : IsWordText w.toList)
    (hplain : Layout.Plain ((.keyword word, g) :: l) after) (hl : l ≠ []) (hne : w ≠ word) :
    wordThenBlanks? w (Layout.text ((.keyword word, g) :: l) ++ after) = none := by
  rw [wordThenBlanks?_keyword hw hplain hl, if_neg hne]

end

/-- The words that a declaration can begin with. -/
def headWords : List String := ["export", "default", "declare", "type", "interface", "const", "enum"]

theorem isWordText_of_mem_headWords {w : String} (h : w ∈ headWords) : IsWordText w.toList := by
  revert w
  simp only [IsWordText]
  decide

/-- What a declaration says before its name. -/
def HeadKind.lexemes : HeadKind → List Lexeme
  | .alias => [.keyword "type"]
  | .interface => [.keyword "interface"]
  | .enum constant => lexemeIf constant (.keyword "const") ++ [.keyword "enum"]

/-- **The kind of a declaration** is read off its keywords. -/
theorem headKind?_text {kind : HeadKind} {l l' : Layout} {after : List Char}
    (hl : l.lexemes = kind.lexemes) (hplain : Layout.Plain (l ++ l') after) (hl' : l' ≠ []) :
    headKind? ((l ++ l').text ++ after) = some (kind, l'.text ++ after) := by
  have htype : IsWordText "type".toList := isWordText_of_mem_headWords (by decide)
  have hinterface : IsWordText "interface".toList := isWordText_of_mem_headWords (by decide)
  have hconst : IsWordText "const".toList := isWordText_of_mem_headWords (by decide)
  cases kind with
  | «alias» =>
    obtain ⟨g, l₁, rfl, hl₁⟩ := Layout.exists_cons hl
    obtain rfl := Layout.lexemes_eq_nil hl₁
    rw [List.cons_append, List.nil_append] at hplain ⊢
    rw [headKind?, wordThenBlanks?_self hplain hl']
  | interface =>
    obtain ⟨g, l₁, rfl, hl₁⟩ := Layout.exists_cons hl
    obtain rfl := Layout.lexemes_eq_nil hl₁
    rw [List.cons_append, List.nil_append] at hplain ⊢
    rw [headKind?, wordThenBlanks?_other htype hplain hl' (by decide)]
    dsimp only
    rw [wordThenBlanks?_self hplain hl']
  | enum constant =>
    cases constant with
    | false =>
      obtain ⟨g, l₁, rfl, hl₁⟩ := Layout.exists_cons hl
      obtain rfl := Layout.lexemes_eq_nil hl₁
      rw [List.cons_append, List.nil_append] at hplain ⊢
      rw [headKind?, wordThenBlanks?_other htype hplain hl' (by decide)]
      dsimp only
      rw [wordThenBlanks?_other hinterface hplain hl' (by decide)]
      dsimp only
      rw [optionalWord, wordThenBlanks?_other hconst hplain hl' (by decide)]
      dsimp only
      rw [wordThenBlanks?_self hplain hl']
      rfl
    | true =>
      obtain ⟨g, l₁, rfl, hl₁⟩ := Layout.exists_cons hl
      obtain ⟨g', l₂, rfl, hl₂⟩ := Layout.exists_cons hl₁
      obtain rfl := Layout.lexemes_eq_nil hl₂
      rw [List.cons_append, List.cons_append, List.nil_append] at hplain ⊢
      have hplain' := (Layout.plain_cons.1 hplain).2.2.2
      rw [headKind?, wordThenBlanks?_other htype hplain (by simp) (by decide)]
      dsimp only
      rw [wordThenBlanks?_other hinterface hplain (by simp) (by decide)]
      dsimp only
      rw [optionalWord, wordThenBlanks?_self hplain (by simp)]
      dsimp only
      rw [wordThenBlanks?_self hplain' hl']
      rfl

/-- The first keyword of a kind. -/
theorem HeadKind.exists_lexemes (kind : HeadKind) :
    ∃ word xs, kind.lexemes = .keyword word :: xs ∧ word ≠ "export" ∧ word ≠ "default" ∧
      word ≠ "declare" := by
  obtain _ | _ | _ | _ := kind
  · exact ⟨"type", [], rfl, by decide, by decide, by decide⟩
  · exact ⟨"interface", [], rfl, by decide, by decide, by decide⟩
  · exact ⟨"enum", [], rfl, by decide, by decide, by decide⟩
  · exact ⟨"const", [.keyword "enum"], rfl, by decide, by decide, by decide⟩

/-! ## Heads -/

/-- **A name ends** in front of a gap, or of a character that no name goes on with. -/
theorem endsName_word {name : String} {g : Gap} {l : Layout} {after : List Char}
    (hplain : Layout.Plain ((.word name, g) :: l) after)
    (hnext : ∀ c ∈ (l.text ++ after).head?, Text.isNamePart c = true → Text.isIdentifierPart c = true) :
    EndsName (g.text ++ (l.text ++ after)) := by
  obtain ⟨-, hg, hword, -⟩ := Layout.plain_cons.1 hplain
  intro c hc
  cases hgap : g.text with
  | nil =>
    rw [hgap, List.nil_append] at hc
    have hfalse := hword c (by rw [hgap, List.nil_append]; exact hc)
    by_contra hpart
    rw [Bool.not_eq_false] at hpart
    change Text.isIdentifierPart c = false at hfalse
    rw [hnext c hc hpart] at hfalse
    cases hfalse
  | cons d ds =>
    rw [hgap] at hc
    cases hc
    exact Text.isNamePart_eq_false_of_isLayout (hg c (by rw [hgap]; exact List.mem_cons_self))

/-- **The head of a declaration is read back.** -/
theorem readHead?_text {exported : Bool} {kind : HeadKind} {name : String} (hname : isAsciiName name)
    {l l' : Layout} {after : List Char}
    (hl : l.lexemes = lexemeIf exported (.keyword "export") ++ (kind.lexemes ++ [Lexeme.word name]))
    (hplain : Layout.Plain (l ++ l') after)
    (hnext : ∀ c ∈ (l'.text ++ after).head?,
      Text.isNamePart c = true → Text.isIdentifierPart c = true) :
    ∃ g : Gap, g.IsBare ∧ readHead? ((l ++ l').text ++ after) =
      some ({ exported, kind, name }, g.text ++ (l'.text ++ after)) := by
  obtain ⟨le, lr, rfl, hle, hlr⟩ := Layout.exists_append hl
  obtain ⟨lk, ln, rfl, hlk, hln⟩ := Layout.exists_append hlr
  obtain ⟨g, l₁, rfl, hl₁⟩ := Layout.exists_cons hln
  obtain rfl := Layout.lexemes_eq_nil hl₁
  obtain ⟨word, xs, hkind, hexport, hdefault, hdeclare⟩ := kind.exists_lexemes
  obtain ⟨gk, lk', rfl, -⟩ := Layout.exists_cons (hlk.trans hkind)
  have hassoc : le ++ ((.keyword word, gk) :: lk' ++ [(Lexeme.word name, g)]) ++ l' =
      le ++ ((.keyword word, gk) :: (lk' ++ ((.word name, g) :: l'))) := by simp
  rw [hassoc] at hplain ⊢
  have hplaink := (Layout.plain_append.1 hplain).2
  have hplainn := (Layout.plain_append.1 (show Layout.Plain
    (((.keyword word, gk) :: lk') ++ ((.word name, g) :: l')) after from hplaink)).2
  have hne : lk' ++ ((.word name, g) :: l') ≠ [] := by simp
  -- the keywords of the kind begin with none of the words that may stand before them
  have hskip : ∀ {w : String}, w ∈ headWords → w ≠ word →
      optionalWord w (Layout.text ((.keyword word, gk) :: (lk' ++ ((.word name, g) :: l'))) ++ after) =
        (false, Layout.text ((.keyword word, gk) :: (lk' ++ ((.word name, g) :: l'))) ++ after) :=
    fun hmem hw => by
      rw [optionalWord, wordThenBlanks?_other (isWordText_of_mem_headWords hmem) hplaink hne hw]
  have hexported : optionalWord "export" ((le ++ ((.keyword word, gk) ::
      (lk' ++ ((.word name, g) :: l')))).text ++ after) =
      (exported, Layout.text ((.keyword word, gk) :: (lk' ++ ((.word name, g) :: l'))) ++ after) := by
    cases exported with
    | false =>
      obtain rfl := Layout.lexemes_eq_nil hle
      exact hskip (by decide) (Ne.symm hexport)
    | true =>
      obtain ⟨ge, l₂, rfl, hl₂⟩ := Layout.exists_cons hle
      obtain rfl := Layout.lexemes_eq_nil hl₂
      rw [List.cons_append, List.nil_append] at hplain ⊢
      rw [optionalWord, wordThenBlanks?_self hplain (by simp)]
  have hhead := headKind?_text (l := (.keyword word, gk) :: lk') hlk hplaink (by simp)
  have htext : Layout.text ((.word name, g) :: l') ++ after =
      name.toList ++ (g.text ++ (l'.text ++ after)) := by simp [Lexeme.text, Token.text]
  refine ⟨g, (Layout.plain_cons.1 hplainn).2.1, ?_⟩
  rw [readHead?, hexported]
  dsimp only
  rw [hskip (by decide) (Ne.symm hdefault)]
  dsimp only
  rw [hskip (by decide) (Ne.symm hdeclare)]
  dsimp only
  rw [List.cons_append] at hhead
  rw [hhead, htext]
  simp [readName?_name hname (endsName_word hplainn hnext), String.ofList_toList]

/-! ## Statements in their place -/

/-- **A statement as a file in `directory` holds it** on a line. -/
def Statement.placed (directory : String) (line : Nat) : Statement → Statement
  | .alias d => .alias { d with line }
  | .interface d => .interface { d with line }
  | .enum d => .enum { d with line }
  | .imported d => .imported { d with module := resolveModule d.module directory }

/-- What can stand after the name of a declaration. -/
def BeginsBody (l : Layout) : Prop :=
  ∃ x g l', l = (x, g) :: l' ∧ (x = .equals ∨ x = .mark .openAngle ∨ x = .mark .openBrace ∨
    ∃ w, x = .keyword w)

theorem BeginsBody.isIdentifierPart {l : Layout} {after : List Char} (h : BeginsBody l)
    (hplain : l.Plain after) : ∀ c ∈ (l.text ++ after).head?,
      Text.isNamePart c = true → Text.isIdentifierPart c = true := by
  obtain ⟨x, g, l', rfl, hx⟩ := h
  have hvalid := (Layout.plain_cons.1 hplain).1
  intro c hc hpart
  rw [hplain.head?_text] at hc
  obtain rfl | rfl | rfl | ⟨w, rfl⟩ := hx
  · cases hc; exact absurd hpart (by decide)
  · cases hc; exact absurd hpart (by decide)
  · cases hc; exact absurd hpart (by decide)
  · exact isWordText_of_isNameOver hvalid c (List.mem_of_head? hc)

theorem isPrefixOf_import {w : String} (h : w ∈ headWords) (rest : List Char) :
    "import".toList.isPrefixOf (w.toList ++ rest) = false := by
  simp only [headWords, List.mem_cons, List.not_mem_nil, or_false] at h
  rcases h with rfl | rfl | rfl | rfl | rfl | rfl | rfl <;> rfl

/-- **The reader of a declaration** after its name. -/
def HeadKind.read (kind : HeadKind) (head : Head) (line : Nat) (cs : List Char) : ReadStatement :=
  match kind with
  | .alias => readAlias head line cs
  | .interface => readInterface head line cs
  | .enum constant => readEnum head constant line cs

/-- **A declaration is read** by its keywords and what follows its name. -/
theorem readStatement?_declaration {exported : Bool} {kind : HeadKind} {name : String}
    (hname : isAsciiName name) {l l' : Layout} {after : List Char}
    (hl : l.lexemes = lexemeIf exported (.keyword "export") ++ (kind.lexemes ++ [Lexeme.word name]))
    (hplain : Layout.Plain (l ++ l') after) (hbody : BeginsBody l') (directory : String)
    (line : Nat) :
    ∃ g : Gap, g.IsBare ∧ readStatement? directory line ((l ++ l').text ++ after) =
      some (kind.read { exported, kind, name } line (g.text ++ (l'.text ++ after))) := by
  obtain ⟨g, hg, hread⟩ := readHead?_text hname hl hplain
    (hbody.isIdentifierPart (Layout.plain_append.1 hplain).2)
  have himport : "import".toList.isPrefixOf ((l ++ l').text ++ after) = false := by
    obtain ⟨w, xs, hw, hmem⟩ : ∃ w xs, l.lexemes = .keyword w :: xs ∧ w ∈ headWords := by
      rw [hl]
      cases exported with
      | true => exact ⟨"export", _, rfl, by decide⟩
      | false =>
        obtain _ | _ | _ | _ := kind
        · exact ⟨"type", _, rfl, by decide⟩
        · exact ⟨"interface", _, rfl, by decide⟩
        · exact ⟨"enum", _, rfl, by decide⟩
        · exact ⟨"const", _, rfl, by decide⟩
    obtain ⟨g', l₁, rfl, -⟩ := Layout.exists_cons hw
    rw [List.cons_append, Layout.text_cons, List.append_assoc]
    exact isPrefixOf_import hmem _
  refine ⟨g, hg, ?_⟩
  rw [readStatement?, himport, hread]
  cases kind <;> rfl

/-- Lexemes that are no brackets stay at their depth. -/
theorem nest_of_bracket {angles : Bool} {d : Nat} {xs : List Lexeme}
    (h : ∀ x ∈ xs, x.bracket angles = .none) : Nest angles (fun _ => True) d xs d := by
  induction xs with
  | nil => exact .nil d
  | cons x xs ih =>
    rw [List.forall_mem_cons] at h
    exact .plain h.1 (fun _ => trivial) (ih h.2)

theorem nest_head (exported : Bool) (kind : HeadKind) (name : String) :
    Nest true (fun _ => True) 0
      (lexemeIf exported (.keyword "export") ++ (kind.lexemes ++ [Lexeme.word name])) 0 := by
  refine nest_of_bracket ?_
  cases exported <;> obtain _ | _ | _ | _ := kind <;> simp [HeadKind.lexemes, lexemeIf, Lexeme.bracket]

theorem Layout.Unbroken.right {P : Lexeme → Prop} {l l' : Layout} (h : (l ++ l').Unbroken)
    (hl' : l' ≠ []) (hnest : Nest true P 0 l.lexemes 0) : l'.Unbroken := by
  rw [Layout.Unbroken, List.dropLast_append_of_ne_nil hl'] at h
  exact h.right hnest

theorem Layout.EndsLine.right {l l' : Layout} (h : (l ++ l').EndsLine) : l'.EndsLine := by
  intro p hp
  refine h p ?_
  rw [List.getLast?_append, Option.mem_def.1 hp]
  rfl

/-- **A statement is read back**, up to the statement after it. -/
theorem readStatement?_text {s : Statement} {l : Layout} {after : List Char}
    (hwrites : Writes s l.lexemes) (hsafe : s.IsSafe) (hplain : l.Plain after)
    (hunbroken : l.Unbroken) (hliteral : ∀ d, s = .enum d → ∀ x ∈ l.lexemes, x.IsPlainLiteral)
    (hafter : BeginsStatement after) (hends : l.EndsLine ∨ after = []) (directory : String)
    (line : Nat) :
    ∃ rest, EndsAt l after rest ∧ readStatement? directory line (l.text ++ after) =
      some { statement := pure (some (s.placed directory line)), rest } := by
  generalize hxs : l.lexemes = xs at hwrites
  cases hwrites with
  | «alias» d semicolon =>
    obtain ⟨_, hname, hparameters, hbody⟩ := hsafe
    have hsplit : l.lexemes = (lexemeIf d.exported (.keyword "export") ++
        (HeadKind.alias.lexemes ++ [Lexeme.word d.name])) ++ (parametersLexemes d.parameters ++ .equals ::
          (lexemesOf d.body.tokens ++ lexemeIf semicolon (.mark .semicolon))) :=
      hxs.trans (by simp [HeadKind.lexemes])
    obtain ⟨lh, lb, rfl, hlh, hlb⟩ := Layout.exists_append hsplit
    have hbegins : BeginsBody lb := by
      cases hps : d.parameters with
      | nil =>
        rw [hps] at hlb
        obtain ⟨g, l', rfl, -⟩ := Layout.exists_cons hlb
        exact ⟨_, g, l', rfl, .inl rfl⟩
      | cons p ps =>
        rw [hps] at hlb
        obtain ⟨g, l', rfl, -⟩ := Layout.exists_cons hlb
        exact ⟨_, g, l', rfl, .inr (.inl rfl)⟩
    have hne : lb ≠ [] := by obtain ⟨x, g, l', rfl, -⟩ := hbegins; simp
    obtain ⟨g, hg, hread⟩ := readStatement?_declaration hname.ascii hlh hplain hbegins directory line
    obtain ⟨rest, hrest, hbodyread⟩ := readAlias_text hparameters hbody hlb
      (Layout.plain_append.1 hplain).2
      (hunbroken.right hne (hlh ▸ nest_head d.exported .alias d.name)) hafter
      (hends.imp_left fun h => h.right) hg
      { exported := d.exported, kind := .alias, name := d.name } line
    exact ⟨rest, hrest.append lh, by rw [hread, HeadKind.read, hbodyread]; rfl⟩
  | interface d =>
    obtain _ | ⟨_, hname, hparameters, hheritage, hmembers⟩ := hsafe
    have hsplit : l.lexemes = (lexemeIf d.exported (.keyword "export") ++
        (HeadKind.interface.lexemes ++ [Lexeme.word d.name])) ++ (parametersLexemes d.parameters ++
          (heritageLexemes d.heritage ++ lexemesOf (TypeNode.object d.members).tokens)) :=
      hxs.trans (by simp [HeadKind.lexemes])
    obtain ⟨lh, lb, rfl, hlh, hlb⟩ := Layout.exists_append hsplit
    have hbegins : BeginsBody lb := by
      cases hps : d.parameters with
      | cons p ps =>
        rw [hps] at hlb
        obtain ⟨g, l', rfl, -⟩ := Layout.exists_cons hlb
        exact ⟨_, g, l', rfl, .inr (.inl rfl)⟩
      | nil =>
        cases hts : d.heritage with
        | cons t ts =>
          rw [hps, hts] at hlb
          obtain ⟨g, l', rfl, -⟩ := Layout.exists_cons hlb
          exact ⟨_, g, l', rfl, .inr (.inr (.inr ⟨_, rfl⟩))⟩
        | nil =>
          rw [hps, hts, TypeNode.tokens] at hlb
          obtain ⟨g, l', rfl, -⟩ := Layout.exists_cons hlb
          exact ⟨_, g, l', rfl, .inr (.inr (.inl rfl))⟩
    obtain ⟨g, hg, hread⟩ := readStatement?_declaration hname.ascii hlh hplain hbegins directory line
    obtain ⟨rest, hrest, hbodyread⟩ := readInterface_text hparameters hheritage hmembers hlb
      (Layout.plain_append.1 hplain).2 hg
      { exported := d.exported, kind := .interface, name := d.name } line
    exact ⟨rest, hrest.append lh, by rw [hread, HeadKind.read, hbodyread]; rfl⟩
  | enum d exported items hitems =>
    obtain _ | _ | ⟨_, hname⟩ := hsafe
    have hsplit : l.lexemes = (lexemeIf exported (.keyword "export") ++
        ((HeadKind.enum d.constant).lexemes ++ [Lexeme.word d.name])) ++
          (.mark .openBrace :: (commaList items ++ [Lexeme.mark .closeBrace])) :=
      hxs.trans (by simp [HeadKind.lexemes])
    obtain ⟨lh, lb, rfl, hlh, hlb⟩ := Layout.exists_append hsplit
    have hbegins : BeginsBody lb := by
      obtain ⟨g, l', rfl, -⟩ := Layout.exists_cons hlb
      exact ⟨_, g, l', rfl, .inr (.inr (.inl rfl))⟩
    have hplainItems : ∀ item ∈ items, ∀ x ∈ item, x.IsPlainLiteral := fun item hitem x hx => by
      refine hliteral d rfl x ?_
      rw [Layout.lexemes_append, hlb]
      exact List.mem_append_right _ (List.mem_cons_of_mem _
        (List.mem_append_left _ (mem_commaList_of_mem hitem hx)))
    obtain ⟨g, hg, hread⟩ := readStatement?_declaration hname.ascii hlh hplain hbegins directory line
    obtain ⟨rest, hrest, hbodyread⟩ := readEnum_text hitems hplainItems hlb
      (Layout.plain_append.1 hplain).2 hg
      { exported, kind := .enum d.constant, name := d.name } d.constant line
    exact ⟨rest, hrest.append lh, by rw [hread, HeadKind.read, hbodyread]; rfl⟩
  | imported d clause quote semicolon hclause hquote =>
    obtain ⟨rest, hrest, hread⟩ := readImport?_text hsafe hclause hquote hxs hplain directory
    have himport : "import".toList.isPrefixOf (l.text ++ after) = true := by
      obtain ⟨g, l', rfl, -⟩ := Layout.exists_cons hxs
      rw [Layout.text_cons, List.append_assoc, List.isPrefixOf_iff_prefix]
      exact List.prefix_append _ _
    refine ⟨rest, hrest, ?_⟩
    rw [readStatement?, if_pos himport, hread]
    rfl

end FluentBuilders
