import FluentBuilders.Proofs.Source.Chunks
import FluentBuilders.Proofs.Syntax.Equality

/-!
# Proofs/Source/ObjectBody — reading members one by one

A chunk that is one member is read as that member, whether by its key or as an object type of its
own (`readProperty?_member`).  So reading an object type member by member gives all of its members
unless a chunk of several begins with a key that is read (`membersByChunk_object`).
-/

namespace FluentBuilders

open Piece Grammar

/-! ## Keys of members -/

section

variable {l : Layout} {ts : List Token} {key rest : List Char}

/-- A word ends where its token does. -/
theorem endsName_of_plain {w : String} {g : Gap} (hl : l.lexemes = lexemesOf ts)
    (hplain : Layout.Plain ((.token (.word w), g) :: l) []) (hevident : Evident ts) :
    EndsName (g.text ++ l.text) := by
  obtain ⟨-, hg, hnext, hplain'⟩ := Layout.plain_cons.1 hplain
  intro c hc
  cases hgap : g.text with
  | cons d ds =>
    rw [hgap] at hc
    cases hc
    exact Text.isNamePart_eq_false_of_isLayout (hg c (by rw [hgap]; exact List.mem_cons_self))
  | nil =>
    rw [hgap, List.nil_append] at hc
    have hpart : Text.isIdentifierPart c = false := hnext c (by simpa [hgap] using hc)
    cases ts with
    | nil => rw [Layout.lexemes_eq_nil hl] at hc; cases hc
    | cons t ts =>
      obtain ⟨g', l', rfl, -⟩ := Layout.exists_cons hl
      have hvalid := (Layout.plain_cons.1 hplain').1
      obtain ⟨d, ds, ht⟩ := List.exists_cons_of_ne_nil (Lexeme.Valid.text_ne_nil hvalid)
      obtain rfl : d = c := by simpa [ht] using hc
      have hbegins := Token.Whole.begins hvalid ht
      cases hbegins with
      | word h => rw [Text.isIdentifierPart_of_isIdentifierStart h] at hpart; cases hpart
      | string h => rcases h with rfl | rfl <;> decide
      | template => decide
      | negative => decide
      | @number n _ h hs =>
        have harabic : Text.isArabicDigit d = true := by
          refine hevident.head d ?_
          rw [show n.toList = d :: ds from ht]
          rfl
        rw [Text.isIdentifierPart, harabic, Bool.or_true] at hpart
        cases hpart
      | @mark m _ _ h => cases m <;> cases h <;> decide

theorem keyText_of_head {c : Char} (hc : ¬(c = '\'' ∨ c = '"')) (cs : List Char) :
    keyText (c :: cs) = String.ofList (c :: cs) := by
  rw [keyText, if_neg hc]

/-- The text of a literal. -/
theorem keyText_string {s : String} (h : (Token.string s).Whole) :
    keyText s.toList = Text.unquoteString s := by
  obtain ⟨c, cs, ht⟩ := List.exists_cons_of_ne_nil (Token.text_ne_nil_of_read? h)
  have hs : s.toList = c :: cs := ht
  have hbegins := Token.Whole.begins h ht
  cases hbegins with
  | string hc => rw [Text.unquoteString, hs, keyText, if_pos hc.symm]

/-- A number is its own text. -/
theorem keyText_number {n : String} (h : (Token.number n).Whole) : keyText n.toList = n := by
  obtain ⟨c, cs, ht⟩ := List.exists_cons_of_ne_nil (Token.text_ne_nil_of_read? h)
  have hn : n.toList = c :: cs := ht
  have hbegins := Token.Whole.begins h ht
  have hnone : ¬(c = '\'' ∨ c = '"') := by
    cases hbegins with
    | number hdigit => rintro (rfl | rfl) <;> exact absurd hdigit (by decide)
  rw [hn, keyText_of_head hnone, ← hn, String.ofList_toList]

/-- **A key that is read** is the key of the tokens. -/
theorem exists_memberKey (hl : l.lexemes = lexemesOf ts) (hplain : l.Plain [])
    (hevident : Evident ts) (h : memberKey? l.text = some (key, rest)) :
    ∃ (ks us : List Token) (g : Gap) (l' : Layout), ts = ks ++ us ∧
      propertyName? ks = some (keyText key, []) ∧ rest = g.text ++ l'.text ∧ g.IsBare ∧
      l'.Plain [] ∧ l'.lexemes = lexemesOf us := by
  cases ts with
  | nil =>
    rw [Layout.lexemes_eq_nil hl] at h
    cases h
  | cons y ts =>
    obtain ⟨g, l, rfl, hl'⟩ := Layout.exists_cons hl
    obtain ⟨hvalid, hg, -, hplain'⟩ := Layout.plain_cons.1 hplain
    obtain ⟨c, cs, hy⟩ := List.exists_cons_of_ne_nil (Lexeme.Valid.text_ne_nil hvalid)
    have hbegins := Token.Whole.begins hvalid hy
    rw [Layout.text_cons] at h
    have hnone (hstart : Text.isIdentifierStart c = false) (hquote : ¬(c = '\'' ∨ c = '"'))
        (hbracket : c ≠ '[') : False := by
      rw [hy, List.cons_append, memberKey?_of_head hstart hquote hbracket] at h
      cases h
    cases hbegins with
    | @word w _ hstart =>
      have hread := memberKey?_word hvalid (endsName_of_plain hl' hplain (hevident.tail rfl))
      rw [show (Lexeme.token (.word w)).text = w.toList from rfl, hread] at h
      cases h
      refine ⟨[.word w], ts, g, l, rfl, ?_, rfl, hg, hplain', hl'⟩
      have hw : w.toList = c :: cs := hy
      have hkey : keyText w.toList = w := by
        rw [hw, keyText_of_head ?_, ← hw, String.ofList_toList]
        rintro (rfl | rfl) <;> cases hstart
      rw [hkey]
      rfl
    | @string s =>
      have hread := memberKey?_string hvalid hevident.head (g.text ++ l.text)
      rw [show (Lexeme.token (.string s)).text = s.toList from rfl, hread] at h
      cases h
      exact ⟨[.string s], ts, g, l, rfl, by rw [keyText_string hvalid]; rfl, rfl, hg, hplain', hl'⟩
    | template => exact (hnone rfl (by decide) (by decide)).elim
    | negative => exact (hnone rfl (by decide) (by decide)).elim
    | number hdigit hstart =>
      refine (hnone hstart ?_ ?_).elim
      · rintro (rfl | rfl) <;> exact absurd hdigit (by decide)
      · rintro rfl; exact absurd hdigit (by decide)
    | @mark m _ _ hm =>
      by_cases hbracket : m = .openBracket
      · subst hbracket
        cases hm
        change memberKey? ('[' :: (g.text ++ l.text)) = _ at h
        obtain ⟨z, ts', g₁, g₂, l', rfl, rfl, rfl, hz⟩ :=
          exists_bracket_key hl' hplain' hg (hevident.tail rfl) h
        obtain ⟨hz', -, -, hplain₁⟩ := Layout.plain_cons.1 hplain'
        obtain ⟨-, hg₂, -, hplain₂⟩ := Layout.plain_cons.1 hplain₁
        have hl₂ : l'.lexemes = lexemesOf ts' := by simpa [Layout.lexemes] using hl'
        refine ⟨[.mark .openBracket, z, .mark .closeBracket], ts', g₂, l', rfl, ?_, rfl, hg₂,
          hplain₂, hl₂⟩
        rcases hz with ⟨s, rfl, rfl⟩ | ⟨n, rfl, rfl⟩
        · rw [keyText_string hz']
          rfl
        · rw [keyText_number hz']
          rfl
      · cases m <;> first
          | exact absurd rfl hbracket
          | (cases hm; exact (hnone rfl (by decide) (by decide)).elim)

/-- **A key and the type after its colon**, read from the text of tokens. -/
theorem exists_keyedType {readonly : Bool} {m : Member} (hl : l.lexemes = lexemesOf ts)
    (hplain : l.Plain []) (hevident : Evident ts) (h : keyedType? readonly l.text = some m) :
    ∃ (ks us : List Token) (name : String) (optional : Bool) (g : Gap) (l' : Layout),
      ts = ks ++ (tokenIf optional (.mark .question) ++ .mark .colon :: us) ∧
      propertyName? ks = some (name, []) ∧ l'.Plain [] ∧ l'.lexemes = lexemesOf us ∧
      m = .property name optional readonly (some (parseType (g.text ++ l'.text))) := by
  unfold keyedType? at h
  split at h
  · cases h
  · next key rest hkey =>
    obtain ⟨ks, vs, g, l', rfl, hname, rfl, hg, hplain', hl'⟩ :=
      exists_memberKey hl hplain hevident hkey
    split at h
    · next optional type hsign =>
      obtain ⟨g', l'', us, rfl, rfl, hg', hplain'', hl''⟩ :=
        exists_optionalSign (m := .colon) hl' hplain' hg rfl (by decide) hsign
      split at h
      · cases h
      · cases h
        exact ⟨ks, us, _, optional, g', l'', rfl, hname, hplain'', hl'', rfl⟩
    · cases h

theorem isWordText_readonly : IsWordText "readonly".toList := by
  unfold IsWordText
  decide

/-- **The word `readonly`** with blanks after it is a token. -/
theorem exists_readonly (hl : l.lexemes = lexemesOf ts) (hplain : l.Plain [])
    (h : skipReadonly? l.text = some rest) :
    ∃ (us : List Token) (l' : Layout), ts = .word "readonly" :: us ∧ rest = l'.text ∧
      l'.Plain [] ∧ l'.lexemes = lexemesOf us := by
  cases ts with
  | nil =>
    rw [Layout.lexemes_eq_nil hl] at h
    cases h
  | cons y ts =>
    obtain ⟨g, l, rfl, hl'⟩ := Layout.exists_cons hl
    obtain ⟨hvalid, hg, hnext, hplain'⟩ := Layout.plain_cons.1 hplain
    obtain ⟨c, cs, hy⟩ := List.exists_cons_of_ne_nil (Lexeme.Valid.text_ne_nil hvalid)
    have hbegins := Token.Whole.begins hvalid hy
    rw [Layout.text_cons] at h
    have hnone (hr : c ≠ 'r') : False := by
      rw [hy, List.cons_append, skipReadonly?_of_head hr] at h
      cases h
    cases hbegins with
    | @word w =>
      have hend : EndsWord (g.text ++ l.text) := by
        rw [List.append_nil] at hnext
        exact hnext
      have hword : IsWordText w.toList := isWordText_of_isNameOver (Token.isAsciiName_of_whole hvalid)
      have hread := wordThenBlanks?_word isWordText_readonly hword hend
      rw [show (Lexeme.token (.word w)).text = w.toList from rfl] at h
      change wordThenBlanks? "readonly" _ = _ at h
      rw [hread] at h
      split at h
      · next heq =>
        obtain rfl := String.toList_injective heq
        by_cases hne : g.text = []
        · rw [hne, List.nil_append, skipBlanks?_of_head hplain'.fits.isBlank_head?] at h
          cases h
        · rw [skipBlanks?_append hg.allBlank hne,
            Text.trimStart_of_head hplain'.fits.isBlank_head?] at h
          cases h
          exact ⟨ts, l, rfl, rfl, hplain', hl'⟩
      · cases h
    | string h => exact (hnone (by rcases h with rfl | rfl <;> decide)).elim
    | template => exact (hnone (by decide)).elim
    | negative => exact (hnone (by decide)).elim
    | number hdigit => exact (hnone (by rintro rfl; exact absurd hdigit (by decide))).elim
    | @mark m _ _ hm => exact (hnone (by cases m <;> cases hm <;> decide)).elim

end

/-! ## One member -/

namespace Grammar

variable {key us : List Token} {name : String} {optional readonly : Bool} {m : Member}
  {next : Option Token}

/-- What a member with a key and a colon is. -/
theorem Derives.member_keyed (hkey : propertyName? key = some (name, []))
    (hplain : readonly = false → key ≠ [.word "readonly"])
    (h : Derives .member (tokenIf readonly (.word "readonly") ++
      (key ++ (tokenIf optional (.mark .question) ++ .mark .colon :: us))) m next) :
    ∃ t, m = .property name optional readonly (some t) ∧ Derives .type us t next := by
  generalize hts : tokenIf readonly (.word "readonly") ++
    (key ++ (tokenIf optional (.mark .question) ++ .mark .colon :: us)) = ts at h
  have hread := @read?_derives _ _ _ _ h (8 * ts.length + 3) next.toList (by cases next <;> rfl)
    (by simp [Category.slack])
  change member? (8 * ts.length + 2 + 1) _ = _ at hread
  have htake : takeToken (.mark .question)
      (tokenIf optional (.mark .question) ++ .mark .colon :: (us ++ next.toList)) =
        (optional, .mark .colon :: (us ++ next.toList)) :=
    takeToken_tokenIf _ _ (by simp)
  have happend : ts ++ next.toList = tokenIf readonly (.word "readonly") ++
      (key ++ (tokenIf optional (.mark .question) ++ .mark .colon :: (us ++ next.toList))) := by
    simp [← hts]
  rw [happend, member?_of_key _ _ hkey hplain, htake] at hread
  simp only [annotation?, Option.bind_eq_bind, Option.bind_eq_some_iff, Prod.exists,
    Option.pure_def, Option.some.injEq, Prod.mk.injEq] at hread
  obtain ⟨_, _, ⟨t, _, ht, rfl, rfl⟩, rfl, rfl⟩ := hread
  have htype : Category.read? .type (8 * ts.length + 1) (us ++ next.toList) =
      some (t, next.toList) := ht
  obtain ⟨us', hus, h⟩ := derives_of_read? htype
  obtain rfl := List.append_cancel_right hus
  exact ⟨t, rfl, by cases next <;> exact h⟩

/-- The word `readonly` is no key by itself. -/
theorem Derives.not_readonly
    (h : Derives .member (.word "readonly" ::
      (tokenIf optional (.mark .question) ++ .mark .colon :: us)) m next) : False := by
  generalize hts : Token.word "readonly" ::
    (tokenIf optional (.mark .question) ++ .mark .colon :: us) = ts at h
  have hread := @read?_derives _ _ _ _ h (8 * ts.length + 3) next.toList (by cases next <;> rfl)
    (by simp [Category.slack])
  change member? (8 * ts.length + 2 + 1) _ = _ at hread
  subst hts
  cases optional <;> simp [member?, takeToken, tokenIf, propertyName?] at hread

end Grammar

/-- **A member that is read by its key** is the member. -/
theorem readProperty?_member {l : Layout} {ts : List Token} {m m' : Member} {next : Option Token}
    (hl : l.lexemes = lexemesOf ts) (hplain : l.Plain []) (hevident : Evident ts)
    (h : Derives .member ts m next) (hread : readProperty? l.text = some m') : m' = m := by
  obtain ⟨readonly, us, l', rfl, hplain', hl', hkeyed⟩ : ∃ (readonly : Bool) (us : List Token)
      (l' : Layout), ts = tokenIf readonly (.word "readonly") ++ us ∧ l'.Plain [] ∧
      l'.lexemes = lexemesOf us ∧ keyedType? readonly l'.text = some m' := by
    unfold readProperty? at hread
    cases hskip : (skipReadonly? l.text).bind (keyedType? true) with
    | none =>
      rw [hskip] at hread
      exact ⟨false, ts, l, rfl, hplain, hl, hread⟩
    | some m₁ =>
      rw [hskip] at hread
      cases hread
      obtain ⟨rest, hrest, hkeyed⟩ := Option.bind_eq_some_iff.1 hskip
      obtain ⟨us, l', rfl, rfl, hplain', hl'⟩ := exists_readonly hl hplain hrest
      exact ⟨true, us, l', rfl, hplain', hl', hkeyed⟩
  have hevident' : Evident us := by
    cases readonly with
    | true => exact hevident.tail rfl
    | false => exact hevident
  obtain ⟨ks, vs, name, optional, g, l'', rfl, hname, hplain'', hl'', rfl⟩ :=
    exists_keyedType hl' hplain' hevident' hkeyed
  by_cases hword : readonly = false ∧ ks = [.word "readonly"]
  · obtain ⟨rfl, rfl⟩ := hword
    exact h.not_readonly.elim
  · obtain ⟨t, rfl, ht⟩ := h.member_keyed hname fun hreadonly hks => hword ⟨hreadonly, hks⟩
    rw [parseType_text ht.before_end g hl'' hplain''.fits]

/-! ## One chunk -/

section

variable {chunk : List Char} {ms : List Member}

/-- A chunk ends in its last token. -/
theorem ChunkOf.exists_layout (h : ChunkOf chunk ms) :
    ∃ (l : Layout) (x : Lexeme) (ts : List Token), chunk = Layout.text (l ++ [(x, [])]) ∧
      Layout.Plain (l ++ [(x, [])]) [] ∧ Layout.lexemes (l ++ [(x, [])]) = lexemesOf ts ∧
      Evident ts ∧ Run ts ms := by
  obtain ⟨_, ⟨gap, l, ts, rfl, hgap, hplain, hl, hevident, hrun⟩, rfl, hne⟩ := h
  rw [Text.trim_blank_append hgap.allBlank] at hne ⊢
  rcases List.eq_nil_or_concat l with rfl | ⟨l, p, rfl⟩
  · exact absurd rfl hne
  · obtain ⟨x, g⟩ := p
    rw [List.concat_eq_append] at hplain hl ⊢
    exact ⟨l, x, ts, hplain.trim_concat, hplain.drop_gap, by simpa [Layout.lexemes] using hl,
      hevident, hrun⟩

theorem ChunkOf.members_ne_nil (h : ChunkOf chunk ms) : ms ≠ [] := by
  obtain ⟨l, x, ts, rfl, -, hl, -, hrun⟩ := h.exists_layout
  cases hrun with
  | nil => simp [Layout.lexemes] at hl
  | cons => simp

/-- A closing brace and the separators carry no token on. -/
theorem Token.extendsWith_separator (t : Token) {c : Char} (hc : c ∈ '}' :: separatorChars) :
    t.extendsWith c = false := by
  simp only [separatorChars, List.mem_cons, List.not_mem_nil, or_false] at hc
  rcases hc with rfl | rfl | rfl <;>
    (rcases t with _ | _ | _ | _ | _ | m <;> first | rfl | (cases m <;> rfl))

/-- Tokens stand apart in front of a character that carries none of them on. -/
theorem Layout.Plain.before {l : Layout} {ts : List Token} (h : l.Plain [])
    (hl : l.lexemes = lexemesOf ts) {c : Char} (hc : c ∈ '}' :: separatorChars)
    (rest : List Char) : l.Plain (c :: rest) := by
  rcases List.eq_nil_or_concat l with rfl | ⟨l, p, rfl⟩
  · exact Layout.plain_nil
  obtain ⟨x, g⟩ := p
  rw [List.concat_eq_append] at h hl ⊢
  obtain ⟨-, hg, -, -⟩ := Layout.plain_cons.1 (Layout.plain_append.1 h).2
  obtain ⟨t, rfl⟩ : ∃ t, x = .token t := by
    have hx : x ∈ lexemesOf ts := hl ▸ by simp [Layout.lexemes]
    obtain ⟨t, -, ht⟩ := List.mem_map.1 hx
    exact ⟨t, ht.symm⟩
  refine h.with_gap hg fun d hd => ?_
  cases hgap : g.text with
  | nil =>
    rw [hgap] at hd
    cases hd
    exact t.extendsWith_separator hc
  | cons b bs =>
    rw [hgap] at hd
    cases hd
    exact Lexeme.extendsWith_of_isLayout _ (hg d (by rw [hgap]; exact List.mem_cons_self))

/-- **Members in braces** are read as an object type. -/
theorem RunText.parseType {text : List Char} (h : RunText text ms) :
    parseType ('{' :: text ++ ['}']) = .object ms := by
  obtain ⟨gap, l, ts, rfl, hgap, hplain, hl, -, hrun⟩ := h
  have hclosed : l.Plain ['}'] := hplain.before hl List.mem_cons_self []
  have hbrace : Layout.Plain [(.token (.mark .closeBrace), [])] [] :=
    Layout.plain_cons.2 ⟨Token.whole_mark _, by simp [Gap.IsBare], by simp, Layout.plain_nil⟩
  have hbody : Layout.Plain (l ++ [(Lexeme.token (.mark .closeBrace), [])]) [] :=
    Layout.plain_append.2 ⟨hclosed, hbrace⟩
  have hall : Layout.Plain ((.token (.mark .openBrace), gap) ::
      (l ++ [(Lexeme.token (.mark .closeBrace), [])])) [] :=
    Layout.plain_cons.2 ⟨Token.whole_mark _, hgap, fun c _ => rfl, hbody⟩
  have hmembers : Derives .members (ts ++ [Token.mark .closeBrace]) ms none := hrun.members none
  have htype := (Derives.object hmembers).type_of_primary (by simp [EndsType])
  have hlexemes : Layout.lexemes ((.token (.mark .openBrace), gap) ::
      (l ++ [(Lexeme.token (.mark .closeBrace), [])])) =
        (Token.mark .openBrace :: (ts ++ [Token.mark .closeBrace])).map Lexeme.token := by
    simp only [Layout.lexemes, lexemesOf, List.map_append, List.map_cons, List.map_nil] at hl ⊢
    rw [hl]
  have := parseType_text htype [] hlexemes hall.fits
  simpa [Lexeme.text, Token.text, Mark.text, Gap.text] using this

/-- A chunk is the text of its members. -/
theorem ChunkOf.runText (h : ChunkOf chunk ms) : RunText chunk ms := by
  obtain ⟨l, x, ts, rfl, hplain, hl, hevident, hrun⟩ := h.exists_layout
  exact ⟨[], l ++ [(x, [])], ts, rfl, List.forall_mem_nil _, hplain, hl, hevident, hrun⟩

theorem ChunkOf.parseType (h : ChunkOf chunk ms) : parseType ('{' :: chunk ++ ['}']) = .object ms :=
  h.runText.parseType

/-- A chunk is read without a warning. -/
theorem ChunkOf.readChunk_eq (h : ChunkOf chunk ms) :
    readChunk chunk = pure (((readProperty? chunk).map fun m => [m]).getD ms) := by
  rw [readChunk]
  cases readProperty? chunk with
  | some m => rfl
  | none => rw [h.parseType]; rfl

/-- A chunk of one member is read as it. -/
theorem ChunkOf.readProperty?_eq {m m' : Member} (h : ChunkOf chunk [m])
    (hread : readProperty? chunk = some m') : m' = m := by
  obtain ⟨l, x, ts, rfl, hplain, hl, hevident, hrun⟩ := h.exists_layout
  generalize hms : [m] = ms at hrun
  cases hrun with
  | nil => cases hms
  | cons h hs =>
    cases hms
    cases hs
    rw [List.append_nil] at hl hevident
    exact readProperty?_member hl hplain hevident h hread

end

/-! ## All chunks -/

theorem value_readChunks_cons (chunk : List Char) (chunks : List (List Char)) :
    (readChunks (chunk :: chunks)).value = (readChunk chunk).value ++ (readChunks chunks).value := rfl

theorem warnings_readChunks_cons (chunk : List Char) (chunks : List (List Char)) :
    (readChunks (chunk :: chunks)).warnings =
      (readChunk chunk).warnings ++ (readChunks chunks).warnings := by
  change _ ++ (_ ++ []) = _
  rw [List.append_nil]

/-- **A chunk that begins with a key** is one member. -/
def Single (chunk : List Char) : Prop :=
  (readProperty? chunk).isSome → ∃ m, parseType ('{' :: chunk ++ ['}']) = .object [m]

section

variable {chunks : List (List Char)} {groups : List (List Member)}

theorem warnings_readChunks (h : List.Forall₂ ChunkOf chunks groups) :
    (readChunks chunks).warnings = [] := by
  induction h with
  | nil => rfl
  | cons hchunk _ ih => rw [warnings_readChunks_cons, ih, hchunk.readChunk_eq]; rfl

/-- Chunks that are single members where they begin with keys are read as their members. -/
theorem value_readChunks (h : List.Forall₂ ChunkOf chunks groups)
    (hsingle : ∀ chunk ∈ chunks, Single chunk) : (readChunks chunks).value = groups.flatten := by
  induction h with
  | nil => rfl
  | @cons chunk ms chunks groups hchunk _ ih =>
    rw [List.forall_mem_cons] at hsingle
    rw [value_readChunks_cons, ih hsingle.2, List.flatten_cons, hchunk.readChunk_eq]
    cases hread : readProperty? chunk with
    | none => rfl
    | some m =>
      obtain ⟨m', hm'⟩ := hsingle.1 (by rw [hread]; rfl)
      rw [hchunk.parseType] at hm'
      cases hm'
      rw [hchunk.readProperty?_eq hread]
      rfl

/-- No chunk is read as more members than it has. -/
theorem length_readChunks_le (h : List.Forall₂ ChunkOf chunks groups) :
    (readChunks chunks).value.length ≤ groups.flatten.length := by
  induction h with
  | nil => exact Nat.le_refl _
  | @cons chunk ms chunks groups hchunk _ ih =>
    rw [value_readChunks_cons, List.flatten_cons, List.length_append, List.length_append,
      hchunk.readChunk_eq]
    refine Nat.add_le_add ?_ ih
    cases readProperty? chunk with
    | none => exact Nat.le_refl _
    | some m => exact List.length_pos_iff.2 hchunk.members_ne_nil

/-- Where no member is missing, each chunk that begins with a key is a single member. -/
theorem single_of_length (h : List.Forall₂ ChunkOf chunks groups)
    (hlength : (readChunks chunks).value.length = groups.flatten.length) :
    ∀ chunk ∈ chunks, Single chunk := by
  induction h with
  | nil => exact nofun
  | @cons chunk ms chunks groups hchunk hchunks ih =>
    have hle := length_readChunks_le hchunks
    rw [value_readChunks_cons, List.flatten_cons, List.length_append, List.length_append,
      hchunk.readChunk_eq] at hlength
    have hpos := List.length_pos_iff.2 hchunk.members_ne_nil
    rw [List.forall_mem_cons]
    cases hread : readProperty? chunk with
    | none =>
      rw [hread] at hlength
      change ms.length + _ = _ at hlength
      refine ⟨fun hsome => ?_, ih (by omega)⟩
      rw [hread] at hsome
      cases hsome
    | some m =>
      rw [hread] at hlength
      change 1 + _ = _ at hlength
      refine ⟨fun _ => ?_, ih (by omega)⟩
      obtain ⟨m', rfl⟩ := List.length_eq_one_iff.1 (by omega : ms.length = 1)
      exact ⟨m', hchunk.parseType⟩

/-- **Chunk by chunk, all members are read** just when each chunk that begins with a key is a single
member. -/
theorem value_readChunks_eq_iff (h : List.Forall₂ ChunkOf chunks groups) :
    (readChunks chunks).value = groups.flatten ↔ ∀ chunk ∈ chunks, Single chunk :=
  ⟨fun heq => single_of_length h (congrArg List.length heq), value_readChunks h⟩

end

/-! ### Members divided by separators -/

/-- The text of a member at most. -/
def AtMostOne (text : List Char) : Prop :=
  ∃ row : List Member, parseType ('{' :: text ++ ['}']) = .object row ∧ row.length ≤ 1

/-- The chunks of one member at most are single members. -/
theorem single_of_length_le_one {chunks : List (List Char)} {groups : List (List Member)}
    (h : List.Forall₂ ChunkOf chunks groups) (hlength : groups.flatten.length ≤ 1) :
    ∀ chunk ∈ chunks, Single chunk := by
  induction h with
  | nil => exact List.forall_mem_nil _
  | @cons chunk ms chunks groups hchunk _ ih =>
    rw [List.flatten_cons, List.length_append] at hlength
    have hpos := List.length_pos_iff.2 hchunk.members_ne_nil
    refine List.forall_mem_cons.2 ⟨fun _ => ?_, ih (by omega)⟩
    obtain ⟨m, rfl⟩ := List.length_eq_one_iff.1 (by omega : ms.length = 1)
    exact ⟨m, hchunk.parseType⟩

/-- **Where separators divide all members**, every chunk is a single member. -/
theorem single_of_parts {parts : List (List Char)} {mss : List (List Member)}
    (h : List.Forall₂ RunText parts mss) (hparts : ∀ part ∈ parts, AtMostOne part) :
    ∀ chunk ∈ parts.flatMap fun part => groupLines [] (splitTopLevel true ['\n'] part).parts,
      Single chunk := by
  induction h with
  | nil => exact List.forall_mem_nil _
  | @cons part ms parts mss hrow _ ih =>
    rw [List.forall_mem_cons] at hparts
    rw [List.flatMap_cons, List.forall_mem_append]
    refine ⟨?_, ih hparts.2⟩
    obtain ⟨row, hrow', hlength⟩ := hparts.1
    rw [hrow.parseType] at hrow'
    cases hrow'
    obtain ⟨groups, hgroups, rfl⟩ := hrow.groupLines
    exact single_of_length_le_one hgroups hlength

/-! ## Next to anything else -/

theorem readChunks_append (xs ys : List (List Char)) :
    readChunks (xs ++ ys) = ⟨(readChunks xs).value ++ (readChunks ys).value,
      (readChunks xs).warnings ++ (readChunks ys).warnings⟩ := by
  induction xs with
  | nil => rfl
  | cons x xs ih =>
    have hvalue := value_readChunks_cons x (xs ++ ys)
    have hwarnings := warnings_readChunks_cons x (xs ++ ys)
    rw [ih] at hvalue hwarnings
    rw [List.cons_append, value_readChunks_cons, warnings_readChunks_cons, List.append_assoc,
      List.append_assoc]
    cases hall : readChunks (x :: (xs ++ ys))
    rw [hall] at hvalue hwarnings
    rw [Noted.mk.injEq]
    exact ⟨hvalue, hwarnings⟩

/-- **A text that what follows it does not reach into**: its quotes and brackets are closed. -/
def StandsAlone (cs : List Char) : Prop :=
  (∀ c ∈ separatorChars, ∀ rest, pieces (cs ++ c :: rest) = pieces cs ++ pieces (c :: rest)) ∧
    ∃ eq, Walk true (fun _ => true) 0 false (pieces cs) 0 eq

theorem Split.parts_prepend (cs : List Char) {s s' : Split} {parts : List (List Char)}
    (h : s.parts = s'.parts ++ parts) : (s.prepend cs).parts = (s'.prepend cs).parts ++ parts := by
  simp only [Split.parts, List.cons_append, List.cons.injEq, Split.prepend] at h ⊢
  exact ⟨by rw [h.1], h.2⟩

theorem Split.parts_cut (c : Char) {s s' : Split} {parts : List (List Char)}
    (h : s.parts = s'.parts ++ parts) : (s.cut c).parts = (s'.cut c).parts ++ parts := by
  simp only [Split.parts, List.cons_append, List.cons.injEq, Split.cut, List.map_cons] at h ⊢
  exact ⟨trivial, h⟩

/-- A separator outside brackets cuts a text in two. -/
theorem parts_walk_separator {quiet : Char → Bool} {d e : Nat} {eq eq' : Bool} {ps : List Piece}
    (h : Walk true quiet d eq ps e eq') (he : e = 0) {c : Char} (hc : c ∈ separatorChars)
    (rest : List Piece) :
    (splitFrom true separatorChars d eq (ps ++ .char c :: rest)).parts =
      (splitFrom true separatorChars d eq ps).parts ++
        (splitFrom true separatorChars 0 false rest).parts := by
  induction h with
  | nil d eq =>
    subst he
    rw [List.nil_append, splitFrom.eq_def]
    simp only [separatorChars, List.mem_cons, List.not_mem_nil, or_false] at hc
    rcases hc with rfl | rfl <;> rfl
  | opens hp _ _ ih =>
    rw [List.cons_append, splitFrom.eq_def, splitFrom.eq_def _ _ _ _ (_ :: _)]
    simp only [hp, natCast_opens]
    exact Split.parts_prepend _ (ih he)
  | closes hp _ ih =>
    rw [List.cons_append, splitFrom.eq_def, splitFrom.eq_def _ _ _ _ (_ :: _)]
    simp only [hp, natCast_closes]
    exact Split.parts_prepend _ (ih he)
  | @plain p ps d e eq eq' hp _ _ ih =>
    rw [List.cons_append, splitFrom.eq_def, splitFrom.eq_def _ _ _ _ (_ :: _)]
    simp only [hp]
    cases p with
    | literal text => exact Split.parts_prepend _ (ih he)
    | char c =>
      rw [isEquals_char] at ih
      dsimp only
      split
      · exact Split.parts_cut _ (ih he)
      · exact Split.parts_prepend _ (ih he)

theorem StandsAlone.splitMembers {cs : List Char} (h : StandsAlone cs) {c : Char}
    (hc : c ∈ separatorChars) (rest : List Char) :
    splitMembers (cs ++ c :: rest) = splitMembers cs ++ splitMembers rest := by
  obtain ⟨hpieces, eq, hwalk⟩ := h
  have hinert : IsInert c := by
    simp only [separatorChars, List.mem_cons, List.not_mem_nil, or_false] at hc
    rcases hc with rfl | rfl <;> exact ⟨by decide, by decide⟩
  have hchar : pieces (c :: rest) = .char c :: pieces rest :=
    @pieces_inert [c] (by simpa using hinert) rest
  rw [FluentBuilders.splitMembers, FluentBuilders.splitMembers, FluentBuilders.splitMembers,
    ← List.flatMap_append, splitTopLevel, splitTopLevel, splitTopLevel, hpieces c hc, hchar]
  exact congrArg _ (parts_walk_separator hwalk rfl hc _)

theorem Grammar.Rows.nest {ts : List Token} {mss : List (List Member)} (h : Rows ts mss) :
    Nest true (fun _ => True) 0 (lexemesOf ts) 0 := by
  induction h with
  | last h => exact h.nest.mono fun _ _ _ => trivial
  | @more xs ms ys mss sep hsep h _ ih =>
    rw [lexemesOf, List.map_append, List.map_cons]
    have hplain : (Lexeme.token (.mark sep)).bracket true = .none := by
      rcases hsep with rfl | rfl <;> rfl
    exact (h.nest.mono fun _ _ _ => trivial).append (.plain hplain (fun _ => trivial) ih)

/-- **The body of an object type** stands alone. -/
theorem standsAlone_rows {gap : Gap} {l : Layout} {ts : List Token} {mss : List (List Member)}
    (hgap : gap.IsBare) (hplain : l.Plain []) (hl : l.lexemes = lexemesOf ts) (h : Rows ts mss) :
    StandsAlone (gap.text ++ l.text) := by
  refine ⟨fun c hc rest => ?_, false, ?_⟩
  · have hafter : l.Plain (c :: rest) := hplain.before hl (List.mem_cons_of_mem _ hc) rest
    rw [List.append_assoc, FluentBuilders.pieces_gap hgap, hafter.pieces_append,
      hplain.pieces_gap hgap, List.append_assoc]
  · rw [hplain.pieces_gap hgap]
    refine walk_gap hgap (fun _ _ => rfl) ?_
    refine walk_of_nest (hl ▸ h.nest.mono fun x _ _ => .inr (.inr fun _ _ => rfl)) hplain.valid
      (hl ▸ equals_notMem_lexemesOf ts) hplain.bare rfl
      (gapsOutside_of_bare (fun _ _ => rfl) hplain.bare 0)

/-! ## An object type -/

/-- What stands between the braces of a text. -/
def bodyOf (text : List Char) : List Char := ((Text.trim text).drop 1).dropLast

theorem membersByChunk_eq (text : List Char) :
    membersByChunk text = readChunks (splitMembers (bodyOf text)) := rfl

/-- What a text is read as is a phrase. -/
theorem derives_of_parseType {gap : Gap} {l : Layout} {ts : List Token} {t : TypeNode}
    (hl : l.lexemes = lexemesOf ts) (hplain : l.Plain []) (hraw : ∀ source, t ≠ .raw source)
    (h : parseType (gap.text ++ l.text) = t) : Derives .type ts t none := by
  unfold parseType at h
  simp only [Token.scan?_trim gap hl hplain.fits, Option.bind_some] at h
  split at h
  · next heq => exact typeOfTokens?_eq_some_iff.1 (h ▸ heq)
  · exact absurd h.symm (hraw _)

/-- **The tokens of an object type in braces** are rows of members in braces. -/
theorem exists_body {gap : Gap} {l : Layout} {ts : List Token} {ms : List Member}
    (hgap : gap.IsBare) (hplain : l.Plain []) (hl : l.lexemes = lexemesOf ts)
    (hbraced : isBraced (Text.trim (gap.text ++ l.text)) = true)
    (h : parseType (gap.text ++ l.text) = .object ms) :
    ∃ (g : Gap) (l' : Layout) (us : List Token) (mss : List (List Member)),
      ts = .mark .openBrace :: (us ++ [Token.mark .closeBrace]) ∧
      bodyOf (gap.text ++ l.text) = g.text ++ l'.text ∧ g.IsBare ∧ l'.Plain [] ∧
      l'.lexemes = lexemesOf us ∧ Rows us mss ∧ mss.flatten = ms := by
  have htype := derives_of_parseType hl hplain (by simp) h
  rcases List.eq_nil_or_concat l with rfl | ⟨l₁, p, rfl⟩
  · obtain ⟨x, xs, rfl, -⟩ := htype.type_cons
    cases hl
  obtain ⟨y, g₁⟩ := p
  rw [List.concat_eq_append] at hplain hl
  rw [bodyOf]
  rw [List.concat_eq_append, Text.trim_blank_append hgap.allBlank, hplain.trim_concat] at hbraced ⊢
  have hl' : Layout.lexemes (l₁ ++ [(y, [])]) = lexemesOf ts := by
    rw [← hl]
    simp [Layout.lexemes]
  obtain ⟨rest, htext⟩ : ∃ rest, Layout.text (l₁ ++ [(y, [])]) = '{' :: rest := by
    rw [isBraced, Bool.and_eq_true, beq_iff_eq] at hbraced
    exact List.head?_eq_some_iff.1 hbraced.1
  obtain ⟨g, l₂, ts', hlayout, rfl, rfl, hg, hplain₂, hl₂⟩ :=
    exists_mark (m := .openBrace) hl' hplain.drop_gap rfl (by decide) htext
  obtain ⟨us, mss, rfl, hrows, hflat⟩ := htype.members_of_type.rows
  rw [lexemesOf, List.map_append] at hl₂
  obtain ⟨l₃, l₄, rfl, hl₃, hl₄⟩ := Layout.exists_append hl₂
  obtain ⟨g₄, l₅, rfl, hl₅⟩ := Layout.exists_cons hl₄
  obtain rfl := Layout.lexemes_eq_nil hl₅
  -- no blanks come after the closing brace
  obtain rfl : g₄ = [] := by
    rw [← List.cons_append] at hlayout
    have := (List.append_inj' hlayout rfl).2
    simpa using (congrArg (List.map Prod.snd) this).symm
  refine ⟨g, l₃, us, mss, rfl, ?_, hg, (Layout.plain_append.1 hplain₂).1.at_end, hl₃, hrows, hflat⟩
  rw [htext, Layout.text_append]
  have hbrace : Layout.text [(.token (.mark .closeBrace), [])] = ['}'] := rfl
  rw [hbrace, List.drop_one, List.tail_cons, ← List.append_assoc, List.dropLast_concat]

/-- **A text of tokens with blanks between them**: no comments, and no number or word that runs into
what comes after it. -/
def Written (text : List Char) (ts : List Token) : Prop :=
  ∃ (gap : Gap) (l : Layout), text = gap.text ++ l.text ∧ gap.IsBare ∧ l.Plain [] ∧
    l.lexemes = lexemesOf ts

/-- **An object type is read member by member as it is read as a whole.**  Its body is cut between
its members, in order and with none left out, and nothing is warned about.  The members are the same
just when no chunk of several members begins with a key and a type, and so they are when separators
divide them.  What stands before and after the body, behind separators, is read by itself. -/
theorem membersByChunk_object {text : List Char} {ts : List Token} {ms : List Member}
    (hwritten : Written text ts) (hevident : Evident ts) (hbraced : isBraced (Text.trim text) = true)
    (h : parseType text = .object ms) :
    let body := bodyOf text
    (membersByChunk text).warnings = [] ∧
      (∃ groups, groups.flatten = ms ∧ List.Forall₂
        (fun chunk group => parseType ('{' :: chunk ++ ['}']) = .object group ∧ group ≠ [])
        (splitMembers body) groups) ∧
      ((membersByChunk text).value = ms ↔ ∀ chunk ∈ splitMembers body, Single chunk) ∧
      ((∀ part ∈ (splitTopLevel true separatorChars body).parts, AtMostOne part) →
        (membersByChunk text).value = ms) ∧
      ∀ before after, StandsAlone before → ∀ c ∈ separatorChars, ∀ d ∈ separatorChars,
        readChunks (splitMembers (before ++ c :: (body ++ d :: after))) =
          ⟨(readChunks (splitMembers before)).value ++ ((membersByChunk text).value ++
              (readChunks (splitMembers after)).value),
            (readChunks (splitMembers before)).warnings ++
              (readChunks (splitMembers after)).warnings⟩ := by
  intro body
  obtain ⟨gap, l, rfl, hgap, hplain, hl⟩ := hwritten
  obtain ⟨g, l', us, mss, rfl, hbody, hg, hplain', hl', hrows, rfl⟩ :=
    exists_body hgap hplain hl hbraced h
  have hevident' : Evident us := (hevident.tail rfl).left
  obtain ⟨groups, hchunks, hflat⟩ := splitMembers_rows hg hplain' hl' hevident' hrows
  have hwarnings := warnings_readChunks hchunks
  have halone := standsAlone_rows hg hplain' hl' hrows
  have hparts := parts_rows hrows hl' hplain' hg hevident'
  rw [← hplain'.pieces_gap hg] at hparts
  have hvalue := value_readChunks_eq_iff hchunks
  rw [hflat] at hvalue
  dsimp only [body]
  rw [membersByChunk_eq, hbody]
  refine ⟨hwarnings, ⟨groups, hflat, hchunks.imp fun _ _ h => ⟨h.parseType, h.members_ne_nil⟩⟩,
    hvalue, fun hone => hvalue.2 (single_of_parts hparts hone), ?_⟩
  intro before after hbefore c hc d hd
  rw [hbefore.splitMembers hc, halone.splitMembers hd, readChunks_append, readChunks_append,
    hwarnings, List.nil_append]

/-! ### Members on lines of their own -/

/-- A body with a member on a line of its own. -/
def linedLayout : Layout :=
  [(.mark .openBrace, [.space]), (.word "a", []), (.mark .colon, [.space]),
    (.word "string", [.lineBreak, .space]), (.token (.string "\"b c\""), []),
    (.mark .question, []), (.mark .colon, [.lineBreak]), (.word "A", []),
    (.mark .semicolon, [.space]), (.token (.number "1"), []), (.mark .colon, []),
    (.word "B", [.space]), (.mark .closeBrace, [])]

/-- The second member begins where the first one ends, the third behind a separator. -/
theorem membersByChunk_object_lined :
    let members : List Member :=
      [.property "a" false false (some (.reference "string" [])),
        .property "b c" true false (some (.reference "A" [])),
        .property "1" false false (some (.reference "B" []))]
    linedLayout.text = "\x7b a: string\n \"b c\"?:\nA; 1:B \x7d".toList ∧
      isBraced (Text.trim linedLayout.text) = true ∧
      parseType linedLayout.text = .object members ∧
      (∀ chunk ∈ splitMembers (bodyOf linedLayout.text), Single chunk) ∧
      (membersByChunk linedLayout.text).value = members := by
  intro members
  have hplain : linedLayout.Plain [] := by decide +kernel
  have hbraced : isBraced (Text.trim linedLayout.text) = true := by decide +kernel
  have hparse : parseType linedLayout.text = .object members := by decide +kernel
  have hwritten : Written linedLayout.text
      [.mark .openBrace, .word "a", .mark .colon, .word "string", .string "\"b c\"",
        .mark .question, .mark .colon, .word "A", .mark .semicolon, .number "1", .mark .colon,
        .word "B", .mark .closeBrace] :=
    ⟨[], linedLayout, rfl, List.forall_mem_nil _, hplain, rfl⟩
  have hchunks : splitMembers (bodyOf linedLayout.text) =
      ["a: string".toList, "\"b c\"?:\nA".toList, "1:B".toList] := by decide +kernel
  have hsingle : ∀ chunk ∈ splitMembers (bodyOf linedLayout.text), Single chunk := by
    rw [hchunks]
    refine List.forall_mem_cons.2 ⟨fun _ => ⟨members[0], by decide +kernel⟩,
      List.forall_mem_cons.2 ⟨fun _ => ⟨members[1], by decide +kernel⟩,
        List.forall_mem_singleton.2 fun _ => ⟨members[2], by decide +kernel⟩⟩⟩
  obtain ⟨-, -, hvalue, -⟩ := membersByChunk_object hwritten (by decide +kernel) hbraced hparse
  exact ⟨by decide +kernel, hbraced, hparse, hsingle, hvalue.2 hsingle⟩

/-- **A number is no key at the start of a line**: next to a member that the grammar cannot read, its
member becomes part of the type before it. -/
theorem membersByChunk_numberedLine :
    let text := "\x7b a: string\n1: number \x7d".toList
    let members : List Member :=
      [.property "a" false false (some (.reference "string" [])),
        .property "1" false false (some (.reference "number" []))]
    stripComments text = text ∧ isBraced (Text.trim text) = true ∧
      parseType text = .object members ∧ (membersByChunk text).value ≠ members ∧
      (readObjectBody "\x7b a: string\n1: number; x: A! \x7d".toList).value =
        [.property "a" false false (some (.raw "string\n1: number")),
          .property "x" false false (some (.raw "A!"))] := by
  intro text members
  have hfree : stripComments text = text := by
    have hinert := @stripComments_inert text (by unfold IsInert; decide) []
    rwa [List.append_nil, show stripComments [] = [] by rw [stripComments], List.append_nil] at hinert
  exact ⟨hfree, by decide +kernel, by decide +kernel, by decide +kernel, by decide +kernel⟩

end FluentBuilders
