import FluentBuilders.Builder.Accepted
import FluentBuilders.Proofs.Resolve.Segments
import FluentBuilders.Proofs.Source.Names
import Mathlib.Data.List.Infix

/-!
# Proofs/Builder/References — rewriting changes the qualifiers and nothing else

A text of segments is rewritten segment by segment: a qualifier becomes the name of the namespace,
and everything else stays (`Segments.rewriteFrom_text`), unless a literal holds what looks like a
qualifier.  In tokens, each run of `import`, a parenthesis, a string literal and a parenthesis
becomes one word (`Segments.scan?_rewritten`).
-/

namespace FluentBuilders

/-! ## Qualifiers in tokens -/

/-- **The tokens of a qualifier** with a string literal. -/
def qualifierTokens (literal : String) : List Token :=
  [.word "import", .mark .openParen, .string literal, .mark .closeParen]

/-- **The tokens with every qualifier replaced** by a name. -/
def replaceQualifiers (ns : String) : List Token → List Token
  | .word "import" :: .mark .openParen :: .string _ :: .mark .closeParen :: ts =>
    .word ns :: replaceQualifiers ns ts
  | t :: ts => t :: replaceQualifiers ns ts
  | [] => []

/-- **No qualifier** among the tokens. -/
def Unqualified (ts : List Token) : Prop := ∀ literal, ¬ qualifierTokens literal <:+: ts

/-- A parenthesis and a string literal in it. -/
def OpensLiteral : List Token → Prop
  | .mark .openParen :: .string _ :: _ => True
  | _ => False

section

variable {ns : String} {t : Token} {ts us : List Token}

theorem replaceQualifiers_qualifier (literal : String) (ts : List Token) :
    replaceQualifiers ns (qualifierTokens literal ++ ts) = .word ns :: replaceQualifiers ns ts := rfl

theorem replaceQualifiers_cons (h : t = .word "import" → ¬ OpensLiteral ts) :
    replaceQualifiers ns (t :: ts) = t :: replaceQualifiers ns ts := by
  rw [replaceQualifiers]
  rintro literal rest rfl rfl
  exact h rfl trivial

theorem unqualified_nil : Unqualified [] := fun _ h => nomatch List.eq_nil_of_infix_nil h

theorem unqualified_cons (h : t = .word "import" → ¬ OpensLiteral ts) (hts : Unqualified ts) :
    Unqualified (t :: ts) := by
  intro literal hwithin
  rcases List.infix_cons_iff.1 hwithin with hprefix | hwithin
  · obtain ⟨rest, heq⟩ := hprefix
    cases heq
    exact h rfl trivial
  · exact hts literal hwithin

theorem exists_of_opensLiteral (h : OpensLiteral ts) :
    ∃ literal rest, ts = .mark .openParen :: .string literal :: rest := by
  unfold OpensLiteral at h
  split at h
  · exact ⟨_, _, rfl⟩
  · exact h.elim

theorem opensLiteral_of_replaced (h : OpensLiteral (replaceQualifiers ns ts)) : OpensLiteral ts := by
  have hhead : ∀ {ts t us}, replaceQualifiers ns ts = t :: us → (∀ w, t ≠ .word w) →
      ∃ rest, ts = t :: rest ∧ us = replaceQualifiers ns rest := by
    intro ts t us heq hword
    unfold replaceQualifiers at heq
    split at heq
    · cases heq
      exact absurd rfl (hword ns)
    · cases heq
      exact ⟨_, rfl, rfl⟩
    · cases heq
  obtain ⟨literal, rest, heq⟩ := exists_of_opensLiteral h
  obtain ⟨us, rfl, hus⟩ := hhead heq nofun
  obtain ⟨vs, rfl, -⟩ := hhead hus.symm nofun
  trivial

theorem not_opensLiteral_append (h : ∀ t ∈ ts, t ≠ .mark .openParen) (hus : ¬ OpensLiteral us) :
    ¬ OpensLiteral (ts ++ us) := by
  cases ts with
  | nil => exact hus
  | cons t ts =>
    intro hopens
    obtain ⟨literal, rest, heq⟩ := exists_of_opensLiteral hopens
    exact h t List.mem_cons_self (List.cons.inj heq).1

/-- Tokens without parentheses in front of others. -/
theorem replaceQualifiers_append (h : ∀ t ∈ ts, t ≠ .mark .openParen)
    (hlast : Token.word "import" ∈ ts → ¬ OpensLiteral us) :
    replaceQualifiers ns (ts ++ us) = ts ++ replaceQualifiers ns us := by
  induction ts with
  | nil => rfl
  | cons t ts ih =>
    obtain ⟨-, hts⟩ := List.forall_mem_cons.1 h
    rw [List.cons_append, replaceQualifiers_cons, ih hts fun hmem => hlast (List.mem_cons_of_mem _ hmem)]
    · rfl
    · rintro rfl
      exact not_opensLiteral_append hts (hlast List.mem_cons_self)

theorem unqualified_append (h : ∀ t ∈ ts, t ≠ .mark .openParen)
    (hlast : Token.word "import" ∈ ts → ¬ OpensLiteral us) (hus : Unqualified us) :
    Unqualified (ts ++ us) := by
  induction ts with
  | nil => exact hus
  | cons t ts ih =>
    obtain ⟨-, hts⟩ := List.forall_mem_cons.1 h
    refine unqualified_cons ?_ (ih hts fun hmem => hlast (List.mem_cons_of_mem _ hmem))
    rintro rfl
    exact not_opensLiteral_append hts (hlast List.mem_cons_self)

end

/-! ## The tokens of segments -/

namespace Token

/-- Blanks are skipped. -/
theorem scan?_dropWhile (cs : List Char) : scan? (cs.dropWhile isLayout) = scan? cs := by
  induction cs with
  | nil => rfl
  | cons c cs ih =>
    by_cases hc : isLayout c = true
    · rw [List.dropWhile_cons_of_pos hc, ih, scan?_blank hc]
    · rw [List.dropWhile_cons_of_neg hc]

/-- A string literal begins with a quote. -/
theorem isQuote_of_read?_string {c : Char} {cs rest : List Char} {literal : String}
    (h : read? (c :: cs) = some (.string literal, rest)) : Piece.isQuote c = true := by
  rw [read?] at h
  split at h
  · cases h
  split at h
  · next hquote => rcases hquote with rfl | rfl <;> rfl
  split at h
  · next hquote =>
    subst hquote
    rfl
  split at h
  · obtain ⟨⟨text, rest⟩, -, h⟩ := Option.map_eq_some_iff.1 h
    cases h
  split at h
  · obtain ⟨⟨text, rest⟩, -, h⟩ := Option.map_eq_some_iff.1 h
    cases h
  · obtain ⟨⟨m, rest⟩, -, h⟩ := Option.map_eq_some_iff.1 h
    cases h

/-- A literal ends in a quote. -/
theorem exists_quote_getLast? {t : Token} (h : t.Whole) (ht : ∃ x, t = .string x ∨ t = .template x) :
    ∃ c, t.text.getLast? = some c ∧ Piece.isQuote c = true := by
  have hbody : ∀ {c : Char} {multiline : Bool} {body : List Char},
      quotedTail? c multiline body = some (body, []) →
        (String.ofList (c :: body)).toList.getLast? = some c := by
    intro c multiline body hread
    rw [String.toList_ofList, List.getLast?_cons, getLast?_quotedTail? hread]
    rfl
  obtain ⟨x, rfl | rfl⟩ := ht
  · cases shape_of_read? h with
    | string c body hc hread =>
      exact ⟨c, hbody hread, by rcases hc with rfl | rfl <;> rfl⟩
  · cases shape_of_read? h with
    | template body hread => exact ⟨'`', hbody hread, rfl⟩

theorem isLayout_dropWhile {c : Char} {cs rest : List Char} (h : cs.dropWhile isLayout = c :: rest) :
    isLayout c = false := by
  have := @List.head?_dropWhile_not _ isLayout cs
  rw [h] at this
  simpa using this

end Token

namespace Segment

/-- **The tokens of a segment**, if it is made of tokens. -/
def tokens? : Segment → Option (List Token)
  | .space _ => some []
  | .mark m => some [.mark m]
  | .name cs => Token.scan? cs
  | .string literal => some [.string literal]
  | .template text => some [.template text]
  | .qualifier module => some (qualifierTokens (String.ofList ('"' :: (module.toList ++ ['"']))))

theorem not_opensLiteral_of_mayCall {after : List Char} {ts : List Token} (h : mayCall after = false)
    (hscan : Token.scan? after = some ts) : ¬ OpensLiteral ts := by
  rw [← Token.scan?_dropWhile] at hscan
  intro hopens
  obtain ⟨literal, rest, rfl⟩ := exists_of_opensLiteral hopens
  unfold mayCall at h
  split at h
  · next inner heq =>
    rw [heq, Token.scan?_token rfl] at hscan
    obtain ⟨us, hus, h'⟩ := Option.map_eq_some_iff.1 hscan
    cases h'
    rw [← Token.scan?_dropWhile] at hus
    cases hinner : inner.dropWhile Token.isLayout with
    | nil =>
      rw [hinner] at hus
      cases hus
    | cons d rest =>
      rw [hinner] at h hus
      simp only [List.head?_cons, Bool.or_eq_false_iff, beq_eq_false_iff_ne] at h
      obtain ⟨left, hread, -⟩ :=
        Token.exists_read?_of_scan? (Token.isLayout_dropWhile hinner) h.1 hus
      rw [Token.isQuote_of_read?_string hread] at h
      cases h.2
  · next c rest hne heq =>
    rw [heq] at hscan
    obtain ⟨left, hread, -⟩ := Token.exists_read?_of_scan? (Token.isLayout_dropWhile heq)
      (by simpa using h) hscan
    have htext := Token.eq_text_append_of_read? hread
    exact hne (List.cons.inj htext).1
  · next heq =>
    rw [heq] at hscan
    cases hscan

/-- **A module between double quotes** is one string literal. -/
theorem quotedTail?_module {module : List Char} (hquote : '"' ∉ module) (hbreak : '\n' ∉ module)
    (hclosed : escapesClosed module = true) (rest : List Char) :
    Token.quotedTail? '"' false (module ++ '"' :: rest) = some (module ++ ['"'], rest) := by
  induction module using escapesClosed.induct with
  | case1 => rfl
  | case2 => cases hclosed
  | case3 c cs ih =>
    rw [escapesClosed] at hclosed
    simp only [List.mem_cons, not_or] at hquote hbreak
    simp only [List.cons_append, Token.quotedTail?, ih hquote.2.2 hbreak.2.2 hclosed]
    rw [if_neg (Ne.symm hbreak.2.1)]
    rfl
  | case4 c cs hlast hescape ih =>
    have hc : c ≠ '\\' := by
      rintro rfl
      cases cs with
      | nil => exact hlast rfl rfl
      | cons d cs => exact hescape d cs rfl rfl
    simp only [List.mem_cons, not_or] at hquote hbreak
    rw [escapesClosed] at hclosed
    · rw [List.cons_append, Token.quotedTail?, ih hquote.2 hbreak.2 hclosed]
      · simp [Ne.symm hquote.1, Ne.symm hbreak.1, hc]
      · exact fun _ _ heq _ => hc heq
    · exact hlast
    · exact hescape

/-- **A segment in front of other text** has its own tokens. -/
theorem scan?_text {seg : Segment} {after : List Char} (h : seg.FitsBefore after) :
    Token.scan? (seg.text ++ after) =
      seg.tokens?.bind fun ts => (Token.scan? after).map (ts ++ ·) := by
  have hwhole : ∀ {t : Token}, t.Whole → (∀ c ∈ after.head?, t.extendsWith c = false) →
      Token.scan? (t.text ++ after) = (Token.scan? after).map ([t] ++ ·) := fun ht hafter =>
    Token.scan?_token (Token.read?_text_append ht hafter)
  cases seg with
  | space c =>
    have hskip := Token.scan?_blank h after
    simpa [text, tokens?] using hskip
  | mark m =>
    refine hwhole (t := .mark m) (Token.whole_mark m) ?_
    cases m with
    | dot => exact absurd rfl h
    | _ => exact fun _ _ => rfl
  | name cs => exact Token.scan?_run h.1 h.2.1
  | string literal => exact hwhole (t := .string literal) h fun _ _ => rfl
  | template text => exact hwhole (t := .template text) h fun _ _ => rfl
  | qualifier module =>
    obtain ⟨⟨hquote, hbreak, hclosed⟩, -⟩ := h
    have himport : ∀ tail, Token.read? ("import".toList ++ '(' :: tail) =
        some (.word "import", '(' :: tail) := fun tail =>
      Token.read?_text_append (t := .word "import") rfl (by rintro c ⟨⟩; rfl)
    have hliteral : Token.read? ('"' :: (module.toList ++ '"' :: ')' :: after)) =
        some (.string (String.ofList ('"' :: (module.toList ++ ['"']))), ')' :: after) := by
      rw [Token.read?, if_neg (by decide), if_pos (by decide),
        quotedTail?_module hquote hbreak hclosed]
      rfl
    have htext : text (.qualifier module) ++ after =
        "import".toList ++ '(' :: ('"' :: (module.toList ++ '"' :: ')' :: after)) := by
      simp [text, opening]
    rw [htext, Token.scan?_token (himport _), Token.scan?_token (t := .mark .openParen) rfl,
      Token.scan?_token hliteral, Token.scan?_token (t := .mark .closeParen) rfl, tokens?]
    cases Token.scan? after <;> rfl

/-! ## Rewriting -/

/-- **A segment that does not look like a qualifier** unless it is one: no literal holds the start of
a qualifier. -/
def IsClear : Segment → Prop
  | .string literal => ¬ opening <:+: literal.toList
  | .template text => ¬ opening <:+: text.toList
  | _ => True

/-- A segment with a name in the place of the qualifier. -/
def rewritten (ns : List Char) : Segment → List Char
  | .qualifier _ => ns
  | seg => seg.text

end Segment

theorem rewriteFrom_cons {r : List Char} {c : Char} {cs : List Char}
    (h : ¬ Segment.opening <+: c :: cs) : rewriteFrom r (c :: cs) = c :: rewriteFrom r cs := by
  have hskip : skipQualifier? (c :: cs) = none :=
    if_neg fun hprefix => h (List.isPrefixOf_iff_prefix.1 hprefix)
  rw [rewriteFrom]
  split
  · next heq =>
    rw [hskip] at heq
    cases heq
  · rfl

/-- **Text in which no qualifier begins** stays in front of other text. -/
theorem rewriteFrom_append {r cs after : List Char}
    (h : ∀ c rest, c :: rest <:+ cs → ¬ Segment.opening <+: c :: rest ++ after) :
    rewriteFrom r (cs ++ after) = cs ++ rewriteFrom r after := by
  induction cs with
  | nil => rfl
  | cons c cs ih =>
    have hfirst := h c cs List.suffix_rfl
    rw [List.cons_append] at hfirst
    rw [List.cons_append, rewriteFrom_cons hfirst, ih, List.cons_append]
    exact fun d rest hsuffix => h d rest (hsuffix.trans (List.suffix_cons c cs))

theorem rewriteFrom_qualifier {r : List Char} {module : String}
    (h : '"' ∉ module.toList) (after : List Char) :
    rewriteFrom r ((Segment.qualifier module).text ++ after) = r ++ rewriteFrom r after := by
  have htext : (Segment.qualifier module).text ++ after =
      Segment.opening ++ (module.toList ++ '"' :: ')' :: after) := by
    simp [Segment.text]
  have hmodule : (module.toList ++ '"' :: ')' :: after).dropWhile (· ≠ '"') = '"' :: ')' :: after := by
    rw [List.dropWhile_append_of_pos, List.dropWhile_cons_of_neg (by simp)]
    exact fun c hc => decide_eq_true fun heq => h (heq ▸ hc)
  have hskip : skipQualifier? ((Segment.qualifier module).text ++ after) = some after := by
    have hopening : "import(\"".toList.isPrefixOf
        (Segment.opening ++ (module.toList ++ '"' :: ')' :: after)) = true :=
      List.isPrefixOf_iff_prefix.2 (List.prefix_append Segment.opening _)
    have hdrop : (Segment.opening ++ (module.toList ++ '"' :: ')' :: after)).drop 8 =
        module.toList ++ '"' :: ')' :: after := rfl
    rw [htext, skipQualifier?, if_pos hopening, hdrop, hmodule]
    rfl
  rw [rewriteFrom]
  split
  · next heq =>
    rw [hskip] at heq
    cases heq
    rfl
  · next heq =>
    rw [hskip] at heq
    cases heq

namespace Segment

/-- A literal does not run into a qualifier. -/
theorem not_prefix_of_quoted {cs after : List Char} {c : Char} (hlast : cs.getLast? = some c)
    (hquote : Piece.isQuote c = true) (h : ¬ opening <:+: cs) : ¬ opening <+: cs ++ after := by
  intro hprefix
  rcases List.prefix_or_prefix_of_prefix hprefix (List.prefix_append cs after) with hcs | hcs
  · exact h hcs.isInfix
  · have hinits : ∀ cs ∈ opening.inits, ∀ c ∈ cs.getLast?, Piece.isQuote c = true → cs = opening := by
      decide
    exact h (hinits cs ((List.mem_inits _ _).2 hcs) c hlast hquote ▸ List.infix_rfl)

/-- A name that looks like the start of a qualifier is all of its first word. -/
theorem eq_import_of_prefix {cs after : List Char} (hrun : Token.IsRun cs) (hends : Token.EndsRun after)
    (h : opening <+: cs ++ after) : cs = "import".toList ∧ ∃ tail, after = '(' :: '"' :: tail := by
  obtain ⟨tail, heq⟩ := h
  have hcs : (cs ++ after).takeWhile Token.isNameChar = cs := by
    rw [List.takeWhile_append_of_pos hrun]
    cases after with
    | nil => simp
    | cons c after =>
      rw [List.takeWhile_cons_of_neg (by simp [hends c rfl]), List.append_nil]
  have hopening : (opening ++ tail).takeWhile Token.isNameChar = "import".toList := rfl
  rw [← heq, hopening] at hcs
  refine ⟨hcs.symm, tail, ?_⟩
  rw [← hcs] at heq
  exact (@List.append_cancel_left _ "import".toList _ _ heq).symm

theorem rewriteFrom_text {r after : List Char} {seg : Segment} (h : seg.FitsBefore after)
    (hclear : seg.IsClear) :
    rewriteFrom r (seg.text ++ after) = seg.rewritten r ++ rewriteFrom r after := by
  have hplain : 'i' ∉ seg.text →
      rewriteFrom r (seg.text ++ after) = seg.text ++ rewriteFrom r after := by
    intro hi
    refine rewriteFrom_append fun c rest hsuffix hprefix => hi ?_
    obtain ⟨tail, heq⟩ := hprefix
    have hc : 'i' = c := (List.cons.inj heq).1
    exact hsuffix.subset (hc ▸ List.mem_cons_self)
  have hliteral : ∀ {t : Token}, t.Whole → (∃ x, t = .string x ∨ t = .template x) →
      ¬ opening <:+: t.text → rewriteFrom r (t.text ++ after) = t.text ++ rewriteFrom r after := by
    intro t ht hkind hclear
    obtain ⟨c, hlast, hquote⟩ := Token.exists_quote_getLast? ht hkind
    refine rewriteFrom_append fun d rest hsuffix => not_prefix_of_quoted (c := c) ?_ hquote
      fun hwithin => hclear (hwithin.trans hsuffix.isInfix)
    obtain ⟨front, heq⟩ := hsuffix
    rwa [← heq, List.getLast?_append_of_ne_nil _ (List.cons_ne_nil d rest)] at hlast
  cases seg with
  | space c =>
    refine hplain fun hi => ?_
    obtain rfl : 'i' = c := by simpa [text] using hi
    cases h
  | mark m => exact hplain (by cases m <;> decide)
  | name cs =>
    obtain ⟨hrun, hends, hcall⟩ := h
    refine rewriteFrom_append fun c rest hsuffix hprefix => ?_
    obtain ⟨hname, tail, hafter⟩ :=
      eq_import_of_prefix (fun d hd => hrun d (hsuffix.subset hd)) hends hprefix
    rcases hcall with hoperator | huncalled
    · have hoperators : ∀ cs ∈ operators.map String.toList, ¬ "import".toList <:+ cs := by decide
      exact hoperators cs hoperator (hname ▸ hsuffix)
    · rw [hafter] at huncalled
      cases huncalled
  | string literal => exact hliteral (t := .string literal) h ⟨_, .inl rfl⟩ hclear
  | template text => exact hliteral (t := .template text) h ⟨_, .inr rfl⟩ hclear
  | qualifier module => exact rewriteFrom_qualifier h.1.1 after

/-- **A rewritten segment** in front of rewritten text, in tokens. -/
theorem scan?_rewritten {seg : Segment} {after after' : List Char} {ns : String}
    {ts us : List Token} (h : seg.FitsBefore after)
    (hhead : (∀ c ∈ after.head?, c ≠ 'i') → after'.head? = after.head?) (hns : isAsciiName ns = true)
    (hts : seg.tokens? = some ts) (hus : Token.scan? after = some us)
    (hrest : Token.scan? after' = some (replaceQualifiers ns us))
    (hclean : Unqualified (replaceQualifiers ns us)) :
    Token.scan? (seg.rewritten ns.toList ++ after') = some (replaceQualifiers ns (ts ++ us)) ∧
      Unqualified (replaceQualifiers ns (ts ++ us)) := by
  -- what fits in front of any text fits in front of the rewritten one
  have hplain : seg.FitsBefore after' → seg.rewritten ns.toList = seg.text →
      (∀ t ∈ ts, ∀ w, t ≠ .word w) → (∀ t ∈ ts, ts = [t]) →
      Token.scan? (seg.rewritten ns.toList ++ after') = some (replaceQualifiers ns (ts ++ us)) ∧
        Unqualified (replaceQualifiers ns (ts ++ us)) := by
    intro hfits htext hword hsingle
    rw [htext, scan?_text hfits, hts, hrest]
    cases ts with
    | nil => exact ⟨rfl, hclean⟩
    | cons t ts =>
      have ht := hword t List.mem_cons_self
      cases hsingle t List.mem_cons_self
      rw [List.singleton_append, replaceQualifiers_cons fun heq => absurd heq (ht _)]
      exact ⟨rfl, unqualified_cons (fun heq => absurd heq (ht _)) hclean⟩
  cases seg with
  | space c =>
    cases hts
    exact hplain h rfl nofun nofun
  | mark m =>
    cases hts
    exact hplain h rfl (by simp) (by simp)
  | string literal =>
    cases hts
    exact hplain h rfl (by simp) (by simp)
  | template text =>
    cases hts
    exact hplain h rfl (by simp) (by simp)
  | name cs =>
    obtain ⟨hrun, hends, hcall⟩ := h
    have hi : ∀ c ∈ after.head?, c ≠ 'i' := by
      rintro c hc rfl
      exact absurd (hends _ hc) (by decide)
    have hends' : Token.EndsRun after' := by rwa [Token.EndsRun, hhead hi]
    have hparens : ∀ t ∈ ts, t ≠ .mark .openParen := by
      rintro t ht rfl
      exact absurd (Token.isRun_of_mem_scan? hrun hts _ ht) (by decide)
    have hlast : Token.word "import" ∈ ts → ¬ OpensLiteral us := by
      intro hmem
      rcases hcall with hoperator | huncalled
      · have hoperators : ∀ cs ∈ operators.map String.toList,
            Token.word "import" ∉ (Token.scan? cs).getD [] := by decide
        have hnone := hoperators cs hoperator
        rw [show Token.scan? cs = some ts from hts] at hnone
        exact absurd hmem hnone
      · exact not_opensLiteral_of_mayCall huncalled hus
    rw [replaceQualifiers_append hparens hlast]
    refine ⟨?_, unqualified_append hparens (fun hmem hopens => hlast hmem
      (opensLiteral_of_replaced hopens)) hclean⟩
    change Token.scan? (cs ++ after') = _
    rw [Token.scan?_run hrun hends', show Token.scan? cs = some ts from hts, hrest]
    rfl
  | qualifier module =>
    obtain ⟨-, hdot⟩ := h
    cases hts
    obtain ⟨tail, rfl⟩ := List.head?_eq_some_iff.1 hdot
    have hhead' : after'.head? = some '.' := hhead (by simp)
    have hus : ¬ OpensLiteral us := by
      intro hopens
      obtain ⟨literal, rest, rfl⟩ := exists_of_opensLiteral hopens
      obtain ⟨left, hread, -⟩ := Token.exists_read?_of_scan? (by decide) (by decide) hus
      have htext := Token.eq_text_append_of_read? hread
      cases htext
    have hword : Token.read? (Token.text (.word ns) ++ after') = some (.word ns, after') :=
      Token.read?_text_append (Token.whole_word hns) (by rw [hhead']; rintro c ⟨⟩; rfl)
    rw [replaceQualifiers_qualifier]
    refine ⟨?_, unqualified_cons (fun _ hopens => hus (opensLiteral_of_replaced hopens)) hclean⟩
    change Token.scan? (Token.text (.word ns) ++ after') = _
    rw [Token.scan?_token hword, hrest]
    rfl

end Segment

namespace Segments

/-- **The tokens of segments**, if all are made of tokens. -/
def tokens? : Segments → Option (List Token)
  | [] => some []
  | seg :: segs => seg.tokens?.bind fun ts => (tokens? segs).map (ts ++ ·)

/-- **Segments with a name in the place of each qualifier**. -/
def rewritten (ns : List Char) (segs : Segments) : List Char := segs.flatMap (·.rewritten ns)

variable {segs : Segments}

theorem scan?_text (h : segs.Fits []) : Token.scan? segs.text = segs.tokens? := by
  induction segs with
  | nil => rfl
  | cons seg segs ih =>
    obtain ⟨hseg, hsegs⟩ := fits_cons.1 h
    rw [List.append_nil] at hseg
    rw [text_cons, Segment.scan?_text hseg, ih hsegs, tokens?]

/-- **Rewriting puts the name in the place of each qualifier** and leaves the rest. -/
theorem rewriteFrom_text {r : List Char} (h : segs.Fits []) (hclear : ∀ seg ∈ segs, seg.IsClear) :
    rewriteFrom r segs.text = segs.rewritten r := by
  induction segs with
  | nil =>
    rw [rewriteFrom]
    rfl
  | cons seg segs ih =>
    obtain ⟨hseg, hsegs⟩ := fits_cons.1 h
    obtain ⟨hfirst, hrest⟩ := List.forall_mem_cons.1 hclear
    rw [List.append_nil] at hseg
    rw [text_cons, Segment.rewriteFrom_text hseg hfirst, ih hsegs hrest]
    rfl

/-- Text that begins with no qualifier begins in the same way when it is rewritten. -/
theorem head?_rewritten {r : List Char} (h : ∀ c ∈ segs.text.head?, c ≠ 'i') :
    (segs.rewritten r).head? = segs.text.head? := by
  induction segs with
  | nil => rfl
  | cons seg segs ih =>
    have hplain : seg.rewritten r = seg.text →
        (rewritten r (seg :: segs)).head? = (text (seg :: segs)).head? := by
      intro hseg
      change (seg.rewritten r ++ rewritten r segs).head? = (seg.text ++ text segs).head?
      rw [hseg]
      cases htext : seg.text with
      | cons c cs => rfl
      | nil =>
        rw [text_cons, htext] at h
        exact ih h
    cases seg with
    | qualifier module => exact absurd rfl (h 'i' rfl)
    | _ => exact hplain rfl

/-- **The tokens of a rewritten text** are those of the text with each qualifier replaced. -/
theorem scan?_rewritten {ns : String} (hns : isAsciiName ns = true) {ts : List Token}
    (h : segs.Fits []) (hts : segs.tokens? = some ts) :
    Token.scan? (segs.rewritten ns.toList) = some (replaceQualifiers ns ts) ∧
      Unqualified (replaceQualifiers ns ts) := by
  induction segs generalizing ts with
  | nil =>
    cases hts
    exact ⟨rfl, unqualified_nil⟩
  | cons seg segs ih =>
    obtain ⟨hseg, hsegs⟩ := fits_cons.1 h
    rw [List.append_nil] at hseg
    obtain ⟨first, hfirst, hts⟩ := Option.bind_eq_some_iff.1 hts
    obtain ⟨us, hus, rfl⟩ := Option.map_eq_some_iff.1 hts
    obtain ⟨hrest, hclean⟩ := ih hsegs hus
    exact Segment.scan?_rewritten hseg head?_rewritten hns hfirst
      ((scan?_text hsegs).trans hus) hrest hclean

/-- What no token holds, no literal among the segments does. -/
theorem isClear_of_tokens? {ts : List Token} (hts : segs.tokens? = some ts)
    (h : ∀ t ∈ ts, ¬ Segment.opening <:+: t.text) : ∀ seg ∈ segs, seg.IsClear := by
  induction segs generalizing ts with
  | nil => exact List.forall_mem_nil _
  | cons seg segs ih =>
    obtain ⟨first, hfirst, hts⟩ := Option.bind_eq_some_iff.1 hts
    obtain ⟨us, hus, rfl⟩ := Option.map_eq_some_iff.1 hts
    obtain ⟨hseg, hsegs⟩ := List.forall_mem_append.1 h
    refine List.forall_mem_cons.2 ⟨?_, ih hus hsegs⟩
    cases seg with
    | string literal =>
      cases hfirst
      exact hseg _ (List.mem_singleton_self _)
    | template text =>
      cases hfirst
      exact hseg _ (List.mem_singleton_self _)
    | _ => trivial

end Segments

/-! ## Types of a file -/

/-- The module that an import type names. -/
def TypeNode.module? : TypeNode → Option String
  | .imported module _ _ => some module
  | _ => none

/-- **The modules that can stand in qualifiers** in a file: its own, those imported, and those that
types name. -/
def Scope.modules (s : Scope) (types : List TypeNode) : List String :=
  s.modulePath :: (s.contents.imports.map (·.module) ++
    types.flatMap fun t => (t.subterms.filterMap (·.module?)).map (resolveModule · s.directory))

section

variable {s : Scope} {types : List TypeNode}

theorem tame_of_modules {t : TypeNode} (ht : t ∈ types) (hraw : ∀ u ∈ t.subterms, u.isRaw = false)
    (hmodules : ∀ m ∈ s.modules types, Segment.IsModuleText m) : t.Tame s := by
  intro u hu
  cases u with
  | raw text => exact absurd (hraw _ hu) nofun
  | reference name arguments =>
    rintro - module hmodule
    obtain ⟨d, hd, rfl⟩ := hmodule.exists_import
    exact hmodules _ (List.mem_cons_of_mem _ (List.mem_append_left _ (List.mem_map_of_mem hd)))
  | imported module name arguments =>
    refine hmodules _ (List.mem_cons_of_mem _ (List.mem_append_right _ (List.mem_flatMap.2 ⟨t, ht, ?_⟩)))
    exact List.mem_map_of_mem (List.mem_filterMap.2 ⟨_, hu, rfl⟩)
  | _ => trivial

/-- **A file without text that is kept as it is** is tame. -/
theorem Scope.tame_of_modules (hraw : ∀ t ∈ s.contents.types, ∀ u ∈ t.subterms, u.isRaw = false)
    (hsub : s.contents.types ⊆ types) (hmodules : ∀ m ∈ s.modules types, Segment.IsModuleText m) :
    s.Tame where
  modulePath := hmodules _ List.mem_cons_self
  types t ht := FluentBuilders.tame_of_modules (hsub ht) (hraw t ht) hmodules

end

/-- **The names of a file's aliases** are names as they are read. -/
theorem isReadName_of_mem_aliases {text modulePath : String} {path : Option Path} {strict : Bool} :
    ∀ d ∈ (Scope.ofFile (readSource text modulePath path strict).value).contents.aliases,
      IsReadName d.name := fun d hd =>
  isNameOver_of_mem_declarations text modulePath path strict (.alias d)
    (List.mem_append_left _ (List.mem_append_left _ (List.mem_map_of_mem hd)))

/-- **Rewriting the references of a type changes its qualifiers and nothing else**, unless one of its
literals holds the start of a qualifier: in tokens, each qualifier becomes the name of the namespace,
and none is left; in characters, everything between the qualifiers stays as it is. -/
theorem rewriteReferences_tokens (source modulePath : String) (path : Option Path) (strict : Bool)
    (written : String) {ns : String} (hns : isAsciiName ns = true) :
    let s := Scope.ofFile (readSource source modulePath path strict).value
    let node := parseType written.toList
    ∀ {type : ResolvedType} {ts : List Token},
      (∀ t ∈ node :: s.contents.types, ∀ u ∈ t.subterms, u.isRaw = false) →
      (∀ m ∈ s.modules (node :: s.contents.types), Segment.IsModuleText m) →
      s.resolveType [] node = .ok type →
      Token.scan? type.text.toList = some ts →
      (∀ t ∈ ts, ¬ Segment.opening <:+: t.text) →
      Token.scan? (rewriteReferences type.text ns).toList = some (replaceQualifiers ns ts) ∧
        Unqualified (replaceQualifiers ns ts) ∧
        ∃ segs : Segments, segs.text = type.text.toList ∧ segs.tokens? = some ts ∧
          (rewriteReferences type.text ns).toList = segs.rewritten ns.toList := by
  intro s node type ts hraw hmodules hresolve hscan hliterals
  have hs : s.Tame := Scope.tame_of_modules (fun t ht => hraw t (List.mem_cons_of_mem _ ht))
    (List.subset_cons_self _ _) hmodules
  have hnode : node.Formed ∧ node.Tame s := ⟨formed_parseType _, tame_of_modules List.mem_cons_self
    (hraw _ List.mem_cons_self) hmodules⟩
  obtain ⟨⟨⟨segs, htext, hfits, -⟩, -⟩, -⟩ := Invariant.shown_resolveType
    (I := segmentInvariant hs (formed_readContents _ _) isReadName_of_mem_aliases)
    hnode (List.forall_mem_nil _) hresolve
  have hsegs : segs.Fits [] := hfits [] .nil
  have hts : segs.tokens? = some ts := by rw [← Segments.scan?_text hsegs, htext, hscan]
  have hrewritten : (rewriteReferences type.text ns).toList = segs.rewritten ns.toList := by
    rw [rewriteReferences, String.toList_ofList, ← htext]
    exact Segments.rewriteFrom_text hsegs (Segments.isClear_of_tokens? hts hliterals)
  obtain ⟨hrest, hclean⟩ := Segments.scan?_rewritten hns hsegs hts
  exact ⟨by rw [hrewritten, hrest], hclean, segs, htext, hts, hrewritten⟩

theorem rewriteReferences_tokens_importType :
    Token.scan? (rewriteReferences "import(\"/a/m\").Box<\"b)\">" "T").toList =
      some [.word "T", .mark .dot, .word "Box", .mark .openAngle, .string "\"b)\"",
        .mark .closeAngle] := by
  have hnode : parseType "import('./m').Box<'b)'>".toList =
      .imported "./m" "Box" [.literal .string "b)"] := by decide +kernel
  have hcontents : (Scope.ofFile (readSource "" "/a/b" none true).value).contents.types = [] := by
    decide +kernel
  have hmodules : (Scope.ofFile (readSource "" "/a/b" none true).value).modules
      [.imported "./m" "Box" [.literal .string "b)"]] = ["/a/b", "/a/m"] := by decide +kernel
  have hscan : Token.scan? "import(\"/a/m\").Box<\"b)\">".toList =
      some (qualifierTokens "\"/a/m\"" ++ [.mark .dot, .word "Box", .mark .openAngle,
        .string "\"b)\"", .mark .closeAngle]) := by decide +kernel
  have h := @rewriteReferences_tokens "" "/a/b" none true "import('./m').Box<'b)'>" "T" rfl
    (.plain "import(\"/a/m\").Box<\"b)\">" .object) _
    (by rw [hnode, hcontents]; decide) (by rw [hnode, hcontents, hmodules]; decide) (by
      rw [hnode, Scope.resolveType, resolve, collect, argumentLists, collect_literal, argumentLists]
      exact congrArg Except.ok (by decide +kernel)) hscan (by decide)
  exact h.1

/-- **Two literals can look like one qualifier**: a type without any is rewritten all the same. -/
theorem rewriteReferences_not_tokens_literals :
    let s := Scope.ofFile (readSource "" "/a/b" none true).value
    let node := parseType "['import(', ')']".toList
    let text := "[\"import(\", \")\"]"
    let ts : List Token := [.mark .openBracket, .string "\"import(\"", .mark .comma,
      .string "\")\"", .mark .closeBracket]
    (∀ t ∈ node :: s.contents.types, ∀ u ∈ t.subterms, u.isRaw = false) ∧
      (∀ m ∈ s.modules (node :: s.contents.types), Segment.IsModuleText m) ∧
      s.resolveType [] node = .ok (.plain text .tuple) ∧
      Token.scan? text.toList = some ts ∧ replaceQualifiers "T" ts = ts ∧
      rewriteReferences text "T" = "[\"T\"]" ∧
      Token.scan? (rewriteReferences text "T").toList ≠ some (replaceQualifiers "T" ts) := by
  intro s node text ts
  have hnode : node = .tuple [.plain (.literal .string "import("), .plain (.literal .string ")")] := by
    decide +kernel
  have hrewritten : rewriteReferences text "T" = "[\"T\"]" := by decide +kernel
  refine ⟨by decide +kernel, by decide +kernel, ?_, by decide +kernel, by decide +kernel, hrewritten, ?_⟩
  · rw [hnode, Scope.resolveType, resolve, collect, elementTexts, elementTexts, elementTexts, resolve,
      collect_literal, resolve, collect_literal]
    exact congrArg Except.ok (by decide +kernel)
  · rw [hrewritten]
    decide +kernel

end FluentBuilders
