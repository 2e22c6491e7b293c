import FluentBuilders.Proofs.Source.Items
import FluentBuilders.Proofs.Source.Members
import FluentBuilders.Source.ObjectBody

/-!
# Proofs/Source/Keys — the keys that are read without the grammar

`memberKey?` reads a key off the characters of a line or a chunk.  On a text of tokens it reads a
word, a string literal that holds no quote of its own kind, or one of these literals or a run of
digits in brackets, and nothing else (`memberKey?_cases`).
-/

namespace FluentBuilders

open Piece Grammar

/-! ## How tokens begin -/

/-- **The first character of a token** tells its kind. -/
inductive Token.Begins : Token → Char → Prop
  | word {w : String} {c : Char} (h : Text.isIdentifierStart c = true) : Begins (.word w) c
  | string {s : String} {c : Char} (h : c = '"' ∨ c = '\'') : Begins (.string s) c
  | template {s : String} : Begins (.template s) '`'
  | negative {s : String} : Begins (.negative s) '-'
  | number {s : String} {c : Char} (h : Text.isDecimalDigit c = true)
      (hs : Text.isIdentifierStart c = false) : Begins (.number s) c
  | mark {m : Mark} {c : Char} {cs : List Char} (h : m.text = c :: cs) : Begins (.mark m) c

theorem Token.Whole.begins {t : Token} (h : t.Whole) {c : Char} {cs : List Char}
    (ht : t.text = c :: cs) : t.Begins c := by
  unfold Whole at h
  rw [ht, read?] at h
  dsimp only at h
  split at h
  · next hstart =>
    simp only [Option.some.injEq, Prod.mk.injEq] at h
    exact h.1 ▸ .word hstart
  next hstart =>
  split at h
  · next hquote =>
    simp only [Option.map_eq_some_iff, Prod.exists] at h
    obtain ⟨body, rest, -, h⟩ := h
    cases h
    exact .string hquote
  split at h
  · next htemplate =>
    simp only [Option.map_eq_some_iff, Prod.exists] at h
    obtain ⟨body, rest, -, h⟩ := h
    cases h
    exact htemplate ▸ .template
  split at h
  · next hminus =>
    simp only [Option.map_eq_some_iff, Prod.exists] at h
    obtain ⟨body, rest, -, h⟩ := h
    cases h
    exact hminus ▸ .negative
  split at h
  · next hdigit =>
    simp only [Option.map_eq_some_iff, Prod.exists] at h
    obtain ⟨body, rest, -, h⟩ := h
    cases h
    exact .number hdigit (by simpa using hstart)
  · simp only [Option.map_eq_some_iff, Prod.exists] at h
    obtain ⟨m, rest, -, h⟩ := h
    cases h
    exact .mark ht

theorem Text.isDecimalDigit_of_isIdentifierStart {c : Char} (h : isIdentifierStart c = true) :
    isDecimalDigit c = false := by
  have hletter (low high : Char) (hlow : low ≤ c) (hhigh : c ≤ high) (hend : high.toNat < 128)
      (hdigits : '9'.toNat < low.toNat) : isDecimalDigit c = false := by
    have hl : low.toNat ≤ c.toNat := hlow
    have hh : c.toNat ≤ high.toNat := hhigh
    have hno : ¬ c ≤ '9' := fun hc => by
      have : c.toNat ≤ '9'.toNat := hc
      omega
    rw [isDecimalDigit, if_pos (by omega), isArabicDigit, decide_eq_false hno, Bool.and_false]
  simp only [isIdentifierStart, isLatin, Bool.or_eq_true, Bool.and_eq_true, decide_eq_true_eq,
    beq_iff_eq] at h
  rcases h with ((⟨hlow, hhigh⟩ | ⟨hlow, hhigh⟩) | rfl) | rfl
  · exact hletter 'a' 'z' hlow hhigh (by decide) (by decide)
  · exact hletter 'A' 'Z' hlow hhigh (by decide) (by decide)
  · rfl
  · rfl

/-! ## Literals and digits -/

theorem plainLiteral?_append {cs : List Char} (h : plainLiteral? cs = some (cs, []))
    (rest : List Char) : plainLiteral? (cs ++ rest) = some (cs, rest) := by
  unfold plainLiteral? at h ⊢
  cases cs with
  | nil => cases h
  | cons q cs =>
    dsimp only at h
    split at h
    · next hq =>
      split at h
      · cases h
      · next body close left hspan =>
        simp only [Option.some.injEq, Prod.mk.injEq] at h
        obtain ⟨htext, rfl⟩ := h
        have := @Token.span_append_of_stop _ _ _ _ _ rest hspan (by simp)
        simp only [List.cons_append, if_pos hq, this]
        rw [← List.cons_append, htext]
        rfl
    · cases h

theorem plainLiteral?_of_head {c : Char} (hc : ¬(c = '\'' ∨ c = '"')) (cs : List Char) :
    plainLiteral? (c :: cs) = none := by
  rw [plainLiteral?, if_neg hc]

theorem digitRun?_of_head {c : Char} (hc : Text.isDecimalDigit c = false) (cs : List Char) :
    digitRun? (c :: cs) = none := by
  simp [digitRun?, List.span_eq_takeWhile_dropWhile, hc]

/-- A token that is read by itself is followed by a blank or another token. -/
theorem trimStart_text {gap : Gap} {l : Layout} {after : List Char} (hgap : gap.IsBare)
    (hplain : l.Plain after) : Text.trimStart (gap.text ++ l.text) = l.text := by
  rw [Text.trimStart_append hgap.allBlank, Text.trimStart_of_head hplain.fits.isBlank_head?]

/-- **A mark is known by its character.** -/
theorem exists_mark {ts : List Token} {l : Layout} {after rest : List Char} {c : Char} {m : Mark}
    (hl : l.lexemes = lexemesOf ts) (hplain : l.Plain after) (hm : m.text = [c]) (hdot : m ≠ .dot)
    (htext : l.text = c :: rest) :
    ∃ (g : Gap) (l' : Layout) (ts' : List Token), l = (.token (.mark m), g) :: l' ∧
      ts = .mark m :: ts' ∧ rest = g.text ++ l'.text ∧ g.IsBare ∧ l'.Plain after ∧
      l'.lexemes = lexemesOf ts' := by
  cases ts with
  | nil =>
    rw [Layout.lexemes_eq_nil hl] at htext
    cases htext
  | cons t ts =>
    obtain ⟨g, l', rfl, hl'⟩ := Layout.exists_cons hl
    obtain ⟨hvalid, hg, -, hplain'⟩ := Layout.plain_cons.1 hplain
    obtain ⟨d, ds, ht⟩ := List.exists_cons_of_ne_nil (Lexeme.Valid.text_ne_nil hvalid)
    rw [Layout.text_cons, ht, List.cons_append, List.cons.injEq] at htext
    obtain ⟨rfl, rfl⟩ := htext
    have hmark : t = .mark m := by
      have hbegins := Token.Whole.begins hvalid ht
      cases hbegins with
      | @mark m' _ _ h =>
        cases m <;> cases hm <;> first
          | exact absurd rfl hdot
          | (cases m' <;> first | rfl | cases h)
      | word h => cases m <;> cases hm <;> cases h
      | string h => rcases h with rfl | rfl <;> cases m <;> cases hm
      | template => cases m <;> cases hm
      | negative => cases m <;> cases hm
      | number h => cases m <;> cases hm <;> exact absurd h (by decide)
    subst hmark
    rw [show (Lexeme.token (.mark m)).text = [d] from hm] at ht
    cases ht
    exact ⟨g, l', ts, rfl, rfl, rfl, hg, hplain', hl'⟩

/-! ## Keys -/

/-- **A token that its characters give away**: no quote of its own kind in a string literal, not even
an escaped one, and no digit of another script in front of a number. -/
def Token.Evident : Token → Prop
  | .string s => plainLiteral? s.toList = some (s.toList, [])
  | .number n => ∀ c ∈ n.toList.head?, Text.isArabicDigit c = true
  | _ => True

instance : (t : Token) → Decidable t.Evident
  | .string s => inferInstanceAs (Decidable (plainLiteral? s.toList = some (s.toList, [])))
  | .number n => inferInstanceAs (Decidable (∀ c ∈ n.toList.head?, Text.isArabicDigit c = true))
  | .word _ | .template _ | .negative _ | .mark _ => .isTrue trivial

/-- A mark in front of a type and never of a key. -/
def holdsType : Token → Bool
  | .mark .colon | .mark .bar | .mark .ampersand | .mark .arrow => true
  | .mark .openParen | .mark .openAngle => true
  | _ => false

/-- **Tokens that their characters give away** wherever a key could be. -/
def Evident (ts : List Token) : Prop :=
  (∀ t ∈ ts.head?, t.Evident) ∧ ts.IsChain fun x y => holdsType x = true ∨ y.Evident

instance (ts : List Token) : Decidable (Evident ts) :=
  inferInstanceAs (Decidable ((∀ t ∈ ts.head?, t.Evident) ∧
    ts.IsChain fun x y => holdsType x = true ∨ y.Evident))

namespace Evident

variable {xs ys : List Token} {x y : Token}

theorem left (h : Evident (xs ++ ys)) : Evident xs := by
  refine ⟨fun t ht => h.1 t ?_, h.2.left_of_append⟩
  rw [List.head?_append, Option.mem_def.1 ht]
  rfl

/-- What comes after a token that is in front of no type. -/
theorem right (h : Evident (xs ++ x :: ys)) (hx : holdsType x = false) : Evident ys := by
  have hchain := h.2.right_of_append
  cases ys with
  | nil => exact ⟨nofun, .nil⟩
  | cons y ys =>
    rw [List.isChain_cons_cons] at hchain
    refine ⟨?_, hchain.2⟩
    rintro _ ⟨⟩
    exact hchain.1.resolve_left (by simp [hx])

theorem tail (h : Evident (x :: ys)) (hx : holdsType x = false) : Evident ys :=
  @right [] ys x h hx

theorem head (h : Evident (x :: ys)) : x.Evident := h.1 x rfl

end Evident

theorem memberKey?_word {w : String} (h : (Token.word w).Whole) {rest : List Char}
    (hrest : EndsName rest) : memberKey? (w.toList ++ rest) = some (w.toList, rest) := by
  unfold memberKey?
  rw [readName?_name (Token.isAsciiName_of_whole h) hrest]

theorem memberKey?_string {s : String} (h : (Token.string s).Whole)
    (hs : plainLiteral? s.toList = some (s.toList, [])) (rest : List Char) :
    memberKey? (s.toList ++ rest) = some (s.toList, rest) := by
  have hname : Text.readName? (s.toList ++ rest) = none := by
    refine readName?_of_head fun c hc => ?_
    obtain ⟨d, ds, ht⟩ := List.exists_cons_of_ne_nil (Token.text_ne_nil_of_read? h)
    rw [show s.toList = d :: ds from ht, List.cons_append, List.head?_cons] at hc
    exact Token.isIdentifierStart_head? h nofun c (by rw [ht]; exact hc)
  unfold memberKey?
  rw [hname, plainLiteral?_append hs]

/-- A text that begins as no key does. -/
theorem memberKey?_of_head {c : Char} (hstart : Text.isIdentifierStart c = false)
    (hquote : ¬(c = '\'' ∨ c = '"')) (hbracket : c ≠ '[') (cs : List Char) :
    memberKey? (c :: cs) = none := by
  have hname : Text.readName? (c :: cs) = none :=
    readName?_of_head (by rintro _ ⟨⟩; exact hstart)
  unfold memberKey?
  rw [hname, plainLiteral?_of_head hquote]
  dsimp only
  split
  · next heq => exact absurd (List.cons.inj heq).1 hbracket
  · rfl

/-- What is read in brackets: a literal or a run of digits, and the closing bracket. -/
theorem memberKey?_bracket {cs key rest : List Char} (h : memberKey? ('[' :: cs) = some (key, rest)) :
    ∃ left, (plainLiteral? (Text.trimStart cs) = some (key, left) ∨
      digitRun? (Text.trimStart cs) = some (key, left)) ∧ Text.trimStart left = ']' :: rest := by
  have hname : Text.readName? ('[' :: cs) = none :=
    readName?_of_head (by rintro _ ⟨⟩; rfl)
  unfold memberKey? at h
  rw [hname, plainLiteral?_of_head (by decide)] at h
  dsimp only at h
  split at h
  · next cs' heq =>
    obtain rfl := (List.cons.inj heq).2
    split at h
    · cases h
    · next key' left hread =>
      split at h
      · next rest' htrim =>
        simp only [Option.some.injEq, Prod.mk.injEq] at h
        obtain ⟨rfl, rfl⟩ := h
        refine ⟨left, ?_, htrim⟩
        cases hliteral : plainLiteral? (Text.trimStart cs) with
        | some read =>
          rw [hliteral] at hread
          exact .inl hread
        | none =>
          rw [hliteral] at hread
          exact .inr hread
      · cases h
  · cases h

theorem digitRun?_eq_some {cs run left : List Char} (h : digitRun? cs = some (run, left)) :
    cs = run ++ left ∧ run ≠ [] ∧ ∀ c ∈ run, Text.isDecimalDigit c = true := by
  unfold digitRun? at h
  rw [List.span_eq_takeWhile_dropWhile] at h
  split at h
  · cases h
  · next hne =>
    cases h
    refine ⟨(List.takeWhile_append_dropWhile).symm, ?_, fun c hc => List.mem_takeWhile_imp hc⟩
    intro hnil
    rw [hnil] at hne
    exact hne _ rfl

/-- **A run of digits in front of a closing bracket** is a number. -/
theorem digitRun?_number {n : String} {g : Gap} {l : Layout} {after run left rest : List Char}
    (hplain : Layout.Plain ((.token (.number n), g) :: l) after)
    (h : digitRun? (n.toList ++ (g.text ++ l.text)) = some (run, left))
    (hclose : Text.trimStart left = ']' :: rest) : run = n.toList ∧ left = g.text ++ l.text := by
  obtain ⟨heq, -, hrun⟩ := digitRun?_eq_some h
  obtain ⟨hvalid, -, hnext, -⟩ := Layout.plain_cons.1 hplain
  rcases List.append_eq_append_iff.1 heq with ⟨more, rfl, hmore⟩ | ⟨more, hn, rfl⟩
  · cases more with
    | nil => exact ⟨List.append_nil _, hmore.symm⟩
    | cons c more =>
      -- a digit after a number would be part of it
      have hc := hnext c (by rw [← List.append_assoc, hmore]; rfl)
      have hdigit := hrun c (by simp)
      simp [Lexeme.extendsWith, Token.extendsWith, hdigit] at hc
  · cases more with
    | nil => exact ⟨by simpa using hn.symm, rfl⟩
    | cons c more =>
      have hatom : Token.isAtomPart c = true := by
        cases Token.shape_of_read? hvalid with
        | number _ hnumeric => exact hnumeric.isAtom c (by rw [hn]; simp)
      rw [List.cons_append, Text.trimStart_cons (Token.isBlank_eq_false_of_isAtomPart hatom)] at hclose
      cases hclose
      cases hatom

/-- A token that is no literal in quotes and no number begins with neither a quote nor a digit. -/
theorem Token.Begins.not_key {t : Token} {c : Char} (h : t.Begins c) (hstring : ∀ s, t ≠ .string s)
    (hnumber : ∀ n, t ≠ .number n) : ¬(c = '\'' ∨ c = '"') ∧ Text.isDecimalDigit c = false := by
  cases h with
  | word h =>
    refine ⟨?_, Text.isDecimalDigit_of_isIdentifierStart h⟩
    rintro (rfl | rfl) <;> cases h
  | string => exact absurd rfl (hstring _)
  | template => exact ⟨by decide, by decide⟩
  | negative => exact ⟨by decide, by decide⟩
  | number => exact absurd rfl (hnumber _)
  | @mark m _ _ h => cases m <;> cases h <;> exact ⟨by decide, by decide⟩

section

variable {gap : Gap} {l : Layout} {ts : List Token} {key rest : List Char}

/-- **A key in brackets** is a literal or a number. -/
theorem exists_bracket_key (hl : l.lexemes = lexemesOf ts) (hplain : l.Plain []) (hgap : gap.IsBare)
    (hevident : Evident ts) (h : memberKey? ('[' :: (gap.text ++ l.text)) = some (key, rest)) :
    ∃ (z : Token) (ts' : List Token) (g g' : Gap) (l' : Layout),
      ts = z :: .mark .closeBracket :: ts' ∧
      l = (.token z, g) :: (.token (.mark .closeBracket), g') :: l' ∧ rest = g'.text ++ l'.text ∧
      ((∃ s, z = .string s ∧ key = s.toList) ∨ ∃ n, z = .number n ∧ key = n.toList) := by
  obtain ⟨left, hread, hclose⟩ := memberKey?_bracket h
  rw [trimStart_text hgap hplain] at hread
  cases ts with
  | nil =>
    rw [Layout.lexemes_eq_nil hl] at hread
    rcases hread with hread | hread <;> cases hread
  | cons z ts =>
    obtain ⟨g, l, rfl, hl'⟩ := Layout.exists_cons hl
    obtain ⟨hvalid, hg, -, hplain'⟩ := Layout.plain_cons.1 hplain
    rw [Layout.text_cons] at hread
    obtain ⟨c, cs, hz⟩ := List.exists_cons_of_ne_nil (Lexeme.Valid.text_ne_nil hvalid)
    have hbegins := Token.Whole.begins hvalid hz
    -- the key is the whole token, so the closing bracket is the next one
    have hnext (hleft : left = g.text ++ l.text) : ∃ (g' : Gap) (l' : Layout) (ts' : List Token),
        l = (.token (.mark .closeBracket), g') :: l' ∧ ts = .mark .closeBracket :: ts' ∧
          rest = g'.text ++ l'.text := by
      rw [hleft, trimStart_text hg hplain'] at hclose
      obtain ⟨g', l', ts', rfl, rfl, rfl, -⟩ :=
        exists_mark (m := .closeBracket) hl' hplain' rfl (by decide) hclose
      exact ⟨g', l', ts', rfl, rfl, rfl⟩
    by_cases hstring : ∃ s, z = .string s
    · obtain ⟨s, rfl⟩ := hstring
      have hs := plainLiteral?_append hevident.head (g.text ++ l.text)
      change plainLiteral? (s.toList ++ _) = _ ∨ digitRun? (s.toList ++ _) = _ at hread
      rw [hs] at hread
      rcases hread with hread | hread
      · cases hread
        obtain ⟨g', l', ts', rfl, rfl, rfl⟩ := hnext rfl
        exact ⟨_, ts', g, g', l', rfl, rfl, rfl, .inl ⟨s, rfl, rfl⟩⟩
      · rw [show s.toList = c :: cs from hz, List.cons_append, digitRun?_of_head] at hread
        · cases hread
        · cases hbegins with
          | string h => rcases h with rfl | rfl <;> decide
    by_cases hnumber : ∃ n, z = .number n
    · obtain ⟨n, rfl⟩ := hnumber
      rcases hread with hread | hread
      · rw [hz, List.cons_append, plainLiteral?_of_head] at hread
        · cases hread
        · cases hbegins with
          | number h => rintro (rfl | rfl) <;> exact absurd h (by decide)
      · obtain ⟨rfl, hleft⟩ := digitRun?_number hplain hread hclose
        obtain ⟨g', l', ts', rfl, rfl, rfl⟩ := hnext hleft
        exact ⟨_, ts', g, g', l', rfl, rfl, rfl, .inr ⟨n, rfl, rfl⟩⟩
    · have hnone := hbegins.not_key (fun s h => hstring ⟨s, h⟩) fun n h => hnumber ⟨n, h⟩
      rw [hz, List.cons_append, plainLiteral?_of_head hnone.1, digitRun?_of_head hnone.2] at hread
      rcases hread with hread | hread <;> cases hread

/-- **What follows a key**: a mark, after a question mark or not. -/
theorem exists_optionalSign (hl : l.lexemes = lexemesOf ts) (hplain : l.Plain [])
    (hgap : gap.IsBare) {optional : Bool} {c : Char} {m : Mark} (hm : m.text = [c]) (hdot : m ≠ .dot)
    (h : optionalSign (gap.text ++ l.text) = (optional, c :: rest)) :
    ∃ (g : Gap) (l' : Layout) (us : List Token),
      ts = tokenIf optional (.mark .question) ++ .mark m :: us ∧ rest = g.text ++ l'.text ∧
      g.IsBare ∧ l'.Plain [] ∧ l'.lexemes = lexemesOf us := by
  unfold optionalSign at h
  rw [trimStart_text hgap hplain] at h
  split at h
  · next htext =>
    obtain ⟨g₁, l₁, ts₁, rfl, rfl, rfl, hg₁, hplain₁, hl₁⟩ :=
      exists_mark (m := .question) hl hplain rfl (by decide) htext
    rw [trimStart_text hg₁ hplain₁] at h
    simp only [Prod.mk.injEq] at h
    obtain ⟨rfl, htext⟩ := h
    obtain ⟨g, l', us, rfl, rfl, hrest⟩ := exists_mark hl₁ hplain₁ hm hdot htext
    exact ⟨g, l', us, rfl, hrest⟩
  · simp only [Prod.mk.injEq] at h
    obtain ⟨rfl, htext⟩ := h
    obtain ⟨g, l', us, rfl, rfl, hrest⟩ := exists_mark hl hplain hm hdot htext
    exact ⟨g, l', us, rfl, hrest⟩

/-- A colon or an opening parenthesis, after a question mark or not, is what can follow a key. -/
theorem exists_followsKey (hl : l.lexemes = lexemesOf ts) (hplain : l.Plain []) (hgap : gap.IsBare)
    {optional : Bool} {c : Char} {m : Mark} (hm : m.text = [c]) (hfollows : followsKey (.mark m) = true)
    (h : optionalSign (gap.text ++ l.text) = (optional, c :: rest)) :
    ∃ t us, ts = t :: us ∧ followsKey t = true := by
  have hdot : m ≠ .dot := by rintro rfl; cases hfollows
  obtain ⟨-, -, us, rfl, -⟩ := exists_optionalSign hl hplain hgap hm hdot h
  cases optional with
  | true => exact ⟨_, _, rfl, rfl⟩
  | false => exact ⟨_, us, rfl, hfollows⟩

end

/-- A text that begins with no key. -/
theorem startsKey_of_memberKey? {cs : List Char} (h : memberKey? cs = none) : startsKey cs = false := by
  rw [startsKey, h]

theorem skipReadonly?_of_head {c : Char} (hc : c ≠ 'r') (cs : List Char) :
    skipReadonly? (c :: cs) = none := by
  have hword : Text.dropWord? "readonly" (c :: cs) = none := by
    rw [Text.dropWord?, if_neg]
    rw [List.isPrefixOf_iff_prefix]
    rintro ⟨rest, heq⟩
    cases heq
    exact hc rfl
  rw [skipReadonly?, hword]
  rfl

/-- **A line that begins with a key** begins with the tokens of one. -/
theorem opensLine_of_startsMember {gap : Gap} {l : Layout} {ts : List Token}
    (hl : l.lexemes = lexemesOf ts) (hplain : l.Plain []) (hgap : gap.IsBare)
    (hevident : Evident ts) (h : startsMember (gap.text ++ l.text) = true) :
    opensLine ts = true := by
  unfold startsMember at h
  dsimp only at h
  rw [trimStart_text hgap hplain] at h
  cases ts with
  | nil =>
    rw [Layout.lexemes_eq_nil hl] at h
    cases h
  | cons y ts =>
    obtain ⟨g, l, rfl, hl'⟩ := Layout.exists_cons hl
    obtain ⟨hvalid, hg, -, hplain'⟩ := Layout.plain_cons.1 hplain
    rw [Layout.text_cons] at h
    obtain ⟨c, cs, hy⟩ := List.exists_cons_of_ne_nil (Lexeme.Valid.text_ne_nil hvalid)
    have hbegins := Token.Whole.begins hvalid hy
    -- a text that begins as no key does starts no member
    have hother (hstart : Text.isIdentifierStart c = false) (hquote : ¬(c = '\'' ∨ c = '"'))
        (hbracket : c ≠ '[') : opensLine (y :: ts) = true := by
      have hr : c ≠ 'r' := by rintro rfl; cases hstart
      rw [hy, List.cons_append, skipReadonly?_of_head hr,
        startsKey_of_memberKey? (memberKey?_of_head hstart hquote hbracket _)] at h
      cases h
    cases hbegins with
    | word => rfl
    | string => rfl
    | template => exact hother rfl (by decide) (by decide)
    | negative => exact hother rfl (by decide) (by decide)
    | number hdigit hstart =>
      refine hother hstart ?_ ?_
      · rintro (rfl | rfl) <;> exact absurd hdigit (by decide)
      · rintro rfl; exact absurd hdigit (by decide)
    | @mark m _ _ hm =>
      by_cases hbracket : m = .openBracket
      · subst hbracket
        cases hm
        change (((skipReadonly? ('[' :: (g.text ++ l.text))).map startsKey).getD false ||
          startsKey ('[' :: (g.text ++ l.text))) = true at h
        rw [skipReadonly?_of_head (by decide), startsKey] at h
        cases hkey : memberKey? ('[' :: (g.text ++ l.text)) with
        | none => rw [hkey] at h; cases h
        | some read =>
          obtain ⟨key, rest⟩ := read
          have hevident' : Evident ts := hevident.tail rfl
          obtain ⟨z, ts', g₁, g₂, l', rfl, rfl, rfl, hz⟩ :=
            exists_bracket_key hl' hplain' hg hevident' hkey
          obtain ⟨-, -, -, hplain₁⟩ := Layout.plain_cons.1 hplain'
          obtain ⟨-, hg₂, -, hplain₂⟩ := Layout.plain_cons.1 hplain₁
          have hl₂ : l'.lexemes = lexemesOf ts' := by simpa [Layout.lexemes] using hl'
          have hfollows : ∃ t us, ts' = t :: us ∧ followsKey t = true := by
            simp only [hkey, Option.map_none, Option.getD_none, Bool.false_or] at h
            split at h
            · next hsign => exact exists_followsKey (m := .colon) hl₂ hplain₂ hg₂ rfl rfl hsign
            · next hsign => exact exists_followsKey (m := .openParen) hl₂ hplain₂ hg₂ rfl rfl hsign
            · cases h
          obtain ⟨t, us, rfl, ht⟩ := hfollows
          rcases hz with ⟨s, rfl, -⟩ | ⟨n, rfl, -⟩ <;> exact ht
      · cases m <;> first
          | exact absurd rfl hbracket
          | (cases hm; exact hother rfl (by decide) (by decide))

end FluentBuilders
