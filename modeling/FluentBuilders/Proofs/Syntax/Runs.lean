import FluentBuilders.Proofs.Syntax.Layout

/-!
# Proofs/Syntax/Runs — names and numbers in front of other text

Words, numbers and dots are made of characters that are no blanks, quotes or other marks.  A run of
such characters is read in the same way in front of any text that does not carry it on
(`scan?_run`).
-/

namespace FluentBuilders

namespace Token

/-- The characters that end a name or a number. -/
def special : List Char :=
  ['(', ')', '[', ']', '\x7b', '\x7d', '<', '>', ',', ';', ':', '?', '|', '&', '=', '"', '\'', '`',
    '/', ' ', '\t', '\x0c', '\r', '\n']

/-- A character of a name or a number. -/
def isNameChar (c : Char) : Bool := !special.contains c

/-- **A run**: nothing but such characters. -/
def IsRun (cs : List Char) : Prop := ∀ c ∈ cs, isNameChar c = true

instance : DecidablePred IsRun := fun cs => inferInstanceAs (Decidable (∀ c ∈ cs, _))

/-- Nothing that carries a run on. -/
def EndsRun (rest : List Char) : Prop := ∀ c ∈ rest.head?, isNameChar c = false

theorem mem_special {c : Char} (h : isNameChar c = false) : c ∈ special := by
  simpa [isNameChar] using h

/-- A character that is special is none of a name. -/
theorem eq_false_of_isNameChar {p : Char → Bool} {c : Char} (hp : p c = true → c ∈ special)
    (h : isNameChar c = true) : p c = false := by
  by_contra hpc
  have hmem := hp (by simpa using hpc)
  rw [isNameChar, Bool.not_eq_true', ← Bool.not_eq_true, List.contains_iff_mem] at h
  exact h hmem

theorem mem_special_of_isLayout {c : Char} (h : isLayout c = true) : c ∈ special := by
  simp only [isLayout, Bool.or_eq_true, beq_iff_eq] at h
  rcases h with (((rfl | rfl) | rfl) | rfl) | rfl <;> decide

/-- What holds of no special character holds of nothing that ends a run. -/
theorem EndsRun.eq_false {p : Char → Bool} (hp : ∀ c ∈ special, p c = false) {rest : List Char}
    (h : EndsRun rest) : ∀ c ∈ rest.head?, p c = false := fun c hc => hp c (mem_special (h c hc))

theorem EndsRun.endsNumber {rest : List Char} (h : EndsRun rest) : EndsNumber rest := by
  have hspecial : ∀ c ∈ special, Text.isIdentifierPart c = false ∧ Text.isDecimalDigit c = false ∧
      c ≠ '.' := by decide
  exact fun c hc => hspecial c (mem_special (h c hc))

section

variable {rest : List Char}

/-- What is read, with more text behind it. -/
def before {α : Type} (rest : List Char) (x : α × List Char) : α × List Char := (x.1, x.2 ++ rest)

theorem span_run {p : Char → Bool} (hp : ∀ c ∈ special, p c = false) (cs : List Char)
    (hrest : EndsRun rest) : (cs ++ rest).span p = before rest (cs.span p) :=
  span_append_of_stop rfl fun _ => hrest.eq_false hp

theorem fractionPart_run (cs : List Char) (hrest : EndsRun rest) :
    fractionPart (cs ++ rest) = before rest (fractionPart cs) :=
  fractionPart_append hrest.endsNumber rfl

theorem exponentSign_run (cs : List Char) (hrest : EndsRun rest) :
    exponentSign (cs ++ rest) = before rest (exponentSign cs) := by
  cases cs with
  | cons c cs => exact exponentSign_append rest (List.cons_ne_nil c cs)
  | nil =>
    have hsigns : ∀ c ∈ special, c ≠ '+' ∧ c ≠ '-' := by decide
    cases rest with
    | nil => rfl
    | cons c rest =>
      obtain ⟨hplus, hminus⟩ := hsigns c (mem_special (hrest c rfl))
      rw [List.nil_append, exponentSign]
      · rfl
      · exact fun _ heq => hplus (List.cons.inj heq).1
      · exact fun _ heq => hminus (List.cons.inj heq).1

theorem exponentPart_run (cs : List Char) (hrest : EndsRun rest) :
    exponentPart (cs ++ rest) = before rest (exponentPart cs) := by
  cases cs with
  | nil => exact exponentPart_of_endsNumber hrest.endsNumber
  | cons e cs =>
    rw [List.cons_append, exponentPart, exponentPart, exponentSign_run cs hrest]
    dsimp only [before]
    rw [span_run (by decide) _ hrest]
    obtain ⟨digits, after⟩ := (exponentSign cs).2.span Text.isDecimalDigit
    split
    · cases digits <;> rfl
    · rfl

theorem decimalNumber?_run (cs : List Char) (hrest : EndsRun rest) :
    decimalNumber? (cs ++ rest) = (decimalNumber? cs).map (before rest) := by
  rw [decimalNumber?, decimalNumber?, span_run (by decide) cs hrest]
  obtain ⟨whole, after⟩ := cs.span Text.isDecimalDigit
  cases whole with
  | nil => rfl
  | cons d ds =>
    dsimp only [before]
    rw [fractionPart_run after hrest]
    dsimp only [before]
    rw [exponentPart_run _ hrest]
    rfl

theorem negativeNumber?_run (cs : List Char) (hrest : EndsRun rest) :
    negativeNumber? ('-' :: cs ++ rest) = (negativeNumber? ('-' :: cs)).map (before rest) := by
  rw [List.cons_append, negativeNumber?, negativeNumber?, span_run (by decide) cs hrest]
  obtain ⟨whole, after⟩ := cs.span Text.isDecimalDigit
  cases whole with
  | nil => rfl
  | cons d ds =>
    dsimp only [before]
    rw [fractionPart_run after hrest]
    rfl

theorem hexNumber?_run (cs : List Char) (hcs : cs ≠ []) (hrest : EndsRun rest) :
    hexNumber? (cs ++ rest) = (hexNumber? cs).map (before rest) := by
  obtain ⟨c, cs, rfl⟩ := List.exists_cons_of_ne_nil hcs
  by_cases hc : c = '0'
  · subst hc
    cases cs with
    | nil =>
      have hspecial : ∀ c ∈ special, c ≠ 'x' ∧ c ≠ 'X' := by decide
      cases rest with
      | nil => rfl
      | cons d rest =>
        have hd := hspecial d (mem_special (hrest d rfl))
        change hexNumber? ('0' :: d :: rest) = _
        rw [hexNumber?, if_neg (by simp [hd])]
        rfl
    | cons x cs =>
      rw [List.cons_append, List.cons_append, hexNumber?, hexNumber?, span_run (by decide) cs hrest]
      split
      · obtain ⟨digits, after⟩ := cs.span isHexDigit
        cases digits <;> rfl
      · rfl
  · have hplain : ∀ tail, hexNumber? (c :: tail) = none := by
      intro tail
      unfold hexNumber?
      split
      · next heq => exact absurd (List.cons.inj heq).1 hc
      · rfl
    rw [List.cons_append, hplain, hplain]
    rfl

/-- No mark but dots begins with such a character. -/
theorem readMark?_eq_none {c : Char} (hc : isNameChar c = true) (hdot : c ≠ '.') (cs : List Char) :
    readMark? (c :: cs) = none := by
  cases hread : readMark? (c :: cs) with
  | none => rfl
  | some read =>
    obtain ⟨m, left⟩ := read
    have htext := readMark?_eq_append hread
    have hmarks : ∀ m : Mark, ∀ d ∈ m.text.head?, d = '.' ∨ isNameChar d = false := by
      intro m
      cases m <;> (rintro d ⟨⟩; decide)
    have hhead : m.text.head? = some c := by
      cases hm : m.text with
      | nil => cases m <;> cases hm
      | cons d ds =>
        rw [hm] at htext
        rw [(List.cons.inj htext).1, List.head?_cons]
    rcases hmarks m c hhead with hd | hd
    · exact absurd hd hdot
    · rw [hc] at hd
      cases hd

theorem readMark?_dot {cs : List Char} (h : ∀ ds, cs ≠ '.' :: '.' :: ds) :
    readMark? ('.' :: cs) = some (.dot, cs) := by
  rw [readMark?]
  · exact fun ds _ heq => h ds heq
  · intro ds hequals
    cases hequals

theorem readMark?_run {c : Char} (hc : isNameChar c = true) (cs : List Char) (hrest : EndsRun rest) :
    readMark? (c :: cs ++ rest) = (readMark? (c :: cs)).map (before rest) := by
  by_cases hdot : c = '.'
  · subst hdot
    have hstop : ∀ c ∈ rest.head?, c ≠ '.' := fun c hc => (hrest.endsNumber c hc).2.2
    by_cases hellipsis : ∃ ds, cs = '.' :: '.' :: ds
    · obtain ⟨ds, rfl⟩ := hellipsis
      rfl
    · have hcs : ∀ ds, cs ≠ '.' :: '.' :: ds := fun ds heq => hellipsis ⟨ds, heq⟩
      have happend : ∀ ds, cs ++ rest ≠ '.' :: '.' :: ds := by
        intro ds heq
        match cs with
        | [] => exact hstop '.' (by rw [← List.nil_append rest, heq]; rfl) rfl
        | [d] =>
          obtain ⟨-, rfl⟩ := List.cons.inj heq
          exact hstop '.' rfl rfl
        | d :: e :: cs =>
          cases heq
          exact hcs _ rfl
      rw [List.cons_append, readMark?_dot happend, readMark?_dot hcs]
      rfl
  · rw [List.cons_append, readMark?_eq_none hc hdot, readMark?_eq_none hc hdot]
    rfl

/-- **A token at the start of a run** is read in the same way in front of other text. -/
theorem read?_run {c : Char} (hc : isNameChar c = true) (cs : List Char) (hrest : EndsRun rest) :
    read? (c :: cs ++ rest) = (read? (c :: cs)).map (before rest) := by
  have hquotes : ∀ d ∈ ['"', '\'', '`'], c ≠ d := by
    have hspecial : ∀ d ∈ ['"', '\'', '`'], isNameChar d = false := by decide
    rintro d hd rfl
    rw [hspecial c hd] at hc
    cases hc
  have hplain : ¬ (c = '"' ∨ c = '\'') ∧ c ≠ '`' := by
    simpa [and_assoc] using hquotes
  rw [List.cons_append, read?, read?, span_run (by decide) cs hrest, if_neg hplain.1,
    if_neg hplain.1, if_neg hplain.2, if_neg hplain.2]
  split
  · rfl
  split
  · next hminus =>
    subst hminus
    rw [← List.cons_append, negativeNumber?_run cs hrest]
    cases negativeNumber? ('-' :: cs) <;> rfl
  split
  · rw [← List.cons_append, hexNumber?_run _ (List.cons_ne_nil c cs) hrest, decimalNumber?_run _ hrest]
    cases hexNumber? (c :: cs) with
    | some read => rfl
    | none => cases decimalNumber? (c :: cs) <;> rfl
  · rw [← List.cons_append, readMark?_run hc cs hrest]
    cases readMark? (c :: cs) <;> rfl

/-- Where neither a blank nor a comment begins, a token has to. -/
theorem scan?_of_read?_eq_none {c : Char} {cs : List Char} (hlayout : isLayout c = false)
    (hslash : c ≠ '/') (h : read? (c :: cs) = none) : scan? (c :: cs) = none := by
  rw [scan?, scanWithin?, h]
  · simp [hlayout]
  · exact fun _ heq _ => hslash heq
  · exact fun _ heq _ => hslash heq

/-- The first token is read, unless a comment comes first. -/
theorem exists_read?_of_scan? {c : Char} {cs : List Char} {t : Token} {ts : List Token}
    (hlayout : isLayout c = false) (hslash : c ≠ '/') (h : scan? (c :: cs) = some (t :: ts)) :
    ∃ rest, read? (c :: cs) = some (t, rest) ∧ scan? rest = some ts := by
  cases hread : read? (c :: cs) with
  | none =>
    rw [scan?_of_read?_eq_none hlayout hslash hread] at h
    cases h
  | some read =>
    obtain ⟨u, rest⟩ := read
    rw [scan?_token hread] at h
    obtain ⟨us, hus, h⟩ := Option.map_eq_some_iff.1 h
    cases h
    exact ⟨rest, rfl, hus⟩

theorem ne_slash_of_isNameChar {c : Char} (h : isNameChar c = true) : c ≠ '/' := by
  rintro rfl
  exact absurd h (by decide)

/-- **A run is read by itself**, whatever follows it. -/
theorem scan?_run {cs : List Char} (h : IsRun cs) (hrest : EndsRun rest) :
    scan? (cs ++ rest) = (scan? cs).bind fun ts => (scan? rest).map (ts ++ ·) := by
  induction hn : cs.length using Nat.strong_induction_on generalizing cs with
  | _ n ih =>
  cases cs with
  | nil => simp
  | cons c cs =>
    have hc := h c List.mem_cons_self
    have happend := read?_run hc cs hrest
    cases hread : read? (c :: cs) with
    | none =>
      have hlayout := eq_false_of_isNameChar mem_special_of_isLayout hc
      have hslash := ne_slash_of_isNameChar hc
      rw [hread, List.cons_append] at happend
      rw [scan?_of_read?_eq_none hlayout hslash hread, List.cons_append,
        scan?_of_read?_eq_none hlayout hslash happend]
      rfl
    | some read =>
      obtain ⟨t, left⟩ := read
      rw [hread] at happend
      have htext := eq_text_append_of_read? hread
      have hlength := congrArg List.length htext
      have hpos := List.length_pos_iff.2 (text_ne_nil_of_read? hread)
      rw [List.length_append] at hlength
      have hleft : IsRun left := fun d hd => h d (by rw [htext]; exact List.mem_append_right _ hd)
      rw [scan?_token happend, scan?_token hread]
      dsimp only
      rw [ih left.length (by omega) hleft rfl]
      cases scan? left with
      | none => rfl
      | some ts => cases scan? rest <;> rfl

/-- The tokens of a run are runs. -/
theorem isRun_of_mem_scan? {cs : List Char} {ts : List Token} (h : IsRun cs)
    (hscan : scan? cs = some ts) : ∀ t ∈ ts, IsRun t.text := by
  induction hn : cs.length using Nat.strong_induction_on generalizing cs ts with
  | _ n ih =>
  cases cs with
  | nil =>
    cases hscan
    exact List.forall_mem_nil _
  | cons c cs =>
    have hc := h c List.mem_cons_self
    cases ts with
    | nil => exact List.forall_mem_nil _
    | cons t ts =>
      obtain ⟨left, hread, hleft⟩ := exists_read?_of_scan?
        (eq_false_of_isNameChar mem_special_of_isLayout hc) (ne_slash_of_isNameChar hc) hscan
      have htext := eq_text_append_of_read? hread
      have hlength := congrArg List.length htext
      have hpos := List.length_pos_iff.2 (text_ne_nil_of_read? hread)
      rw [List.length_append] at hlength
      rw [IsRun, htext, List.forall_mem_append] at h
      exact List.forall_mem_cons.2 ⟨h.1, ih left.length (by omega) h.2 hleft rfl⟩

end

end Token

end FluentBuilders
