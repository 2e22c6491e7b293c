import FluentBuilders.Proofs.Source.Formed
import FluentBuilders.Proofs.Source.Pieces

/-!
# Proofs/Source/Comments — what taking comments out leaves

A text falls into fragments: characters, string literals and comments (`Fragments`), in one way only
(`Fragments.unique`).  Without its comments it has the same literals and other characters in the same
order and on the same lines (`Fragments.stripComments_eq`), and no comment is made of what is left
(`stripComments_stripComments`).  So a declaration's line is the one that it begins on in the text as
it was written (`comments_leave_lines`).
-/

namespace FluentBuilders

open Piece

/-! ## Fragments -/

/-- **A fragment of a text with comments.** -/
inductive Fragment where
  | code (c : Char)
  | literal (text : List Char)
  | lineComment (body : List Char)
  | blockComment (body : List Char) (closed : Bool)

namespace Fragment

/-- The text of a fragment. -/
def text : Fragment → List Char
  | .code c => [c]
  | .literal text => text
  | .lineComment body => '/' :: '/' :: body
  | .blockComment body closed => '/' :: '*' :: (body ++ if closed then ['*', '/'] else [])

/-- The fragment is a comment. -/
def isComment : Fragment → Bool
  | .lineComment _ | .blockComment _ _ => true
  | _ => false

/-- **What a fragment leaves behind**: a block comment its line breaks, or one blank, a line comment
nothing, anything else its text. -/
def trace : Fragment → List Char
  | .code c => [c]
  | .literal text => text
  | .lineComment _ => []
  | .blockComment body _ => commentTrace (List.replicate (lineBreaks body) '\n')

/-- The text of fragments in a row. -/
def textOf (fs : List Fragment) : List Char := fs.flatMap text

/-- What fragments in a row leave behind. -/
def traceOf (fs : List Fragment) : List Char := fs.flatMap trace

theorem textOf_cons (f : Fragment) (fs : List Fragment) : textOf (f :: fs) = f.text ++ textOf fs :=
  List.flatMap_cons

theorem traceOf_cons (f : Fragment) (fs : List Fragment) :
    traceOf (f :: fs) = f.trace ++ traceOf fs :=
  List.flatMap_cons

theorem traceOf_append (fs gs : List Fragment) : traceOf (fs ++ gs) = traceOf fs ++ traceOf gs :=
  List.flatMap_append

theorem trace_of_isComment_eq_false {f : Fragment} (h : f.isComment = false) : f.trace = f.text := by
  cases f with
  | code => rfl
  | literal => rfl
  | lineComment => cases h
  | blockComment => cases h

/-- **Comments leave blanks and line breaks** behind, and nothing else. -/
theorem mem_trace_of_isComment {f : Fragment} (h : f.isComment = true) :
    ∀ c ∈ f.trace, c = ' ' ∨ c = '\n' := by
  cases f with
  | code => cases h
  | literal => cases h
  | lineComment => exact List.forall_mem_nil _
  | blockComment body closed =>
    intro c hc
    rw [trace, commentTrace] at hc
    split at hc
    · exact .inl (List.mem_singleton.1 hc)
    · exact .inr (List.eq_of_mem_replicate hc)

theorem isInert_trace {f : Fragment} (h : f.isComment = true) : ∀ c ∈ f.trace, IsInert c := by
  intro c hc
  rcases mem_trace_of_isComment h c hc with rfl | rfl <;> simp [IsInert, isQuote]

theorem lineBreaks_commentTrace (n : Nat) :
    lineBreaks (commentTrace (List.replicate n '\n')) = n := by
  cases n with
  | zero => rfl
  | succ n => simp [commentTrace, lineBreaks, List.replicate_succ]

theorem lineBreaks_trace {f : Fragment} (h : ∀ body, f = .lineComment body → '\n' ∉ body) :
    lineBreaks f.trace = lineBreaks f.text := by
  cases f with
  | code => rfl
  | literal => rfl
  | lineComment body => simp [trace, text, lineBreaks, List.count_eq_zero_of_not_mem (h body rfl)]
  | blockComment body closed =>
    rw [trace, lineBreaks_commentTrace]
    cases closed <;> simp [text, lineBreaks]

end Fragment

/-- **The fragments of a text.**  A comment begins with its mark, but not in a literal.  A line
comment goes up to the first line break, a block comment to its first closing mark, either to the
end of the text where there is none. -/
inductive Fragments : List Fragment → List Char → Prop
  | nil : Fragments [] []
  | code {c : Char} {cs : List Char} {fs : List Fragment} (hquote : isQuote c = false)
      (hline : ¬['/', '/'] <+: c :: cs) (hblock : ¬['/', '*'] <+: c :: cs) (h : Fragments fs cs) :
      Fragments (.code c :: fs) (c :: cs)
  | literal {c : Char} {cs : List Char} {fs : List Fragment} (hquote : isQuote c = true)
      (h : Fragments fs (literalTail c cs).2) :
      Fragments (.literal (c :: (literalTail c cs).1) :: fs) (c :: cs)
  | lineComment {body cs : List Char} {fs : List Fragment} (hbody : '\n' ∉ body)
      (hcs : ∀ c ∈ cs.head?, c = '\n') (h : Fragments fs cs) :
      Fragments (.lineComment body :: fs) ('/' :: '/' :: (body ++ cs))
  | blockComment {body cs : List Char} {fs : List Fragment} (hbody : ¬['*', '/'] <:+: body)
      (h : Fragments fs cs) :
      Fragments (.blockComment body true :: fs) ('/' :: '*' :: (body ++ '*' :: '/' :: cs))
  | openComment {body : List Char} (hbody : ¬['*', '/'] <:+: body) :
      Fragments [.blockComment body false] ('/' :: '*' :: body)

/-! ## Ends of comments and literals -/

/-- A line comment is skipped up to its line break. -/
theorem dropWhile_lineComment {body cs : List Char} (hbody : '\n' ∉ body)
    (hcs : ∀ c ∈ cs.head?, c = '\n') : (body ++ cs).dropWhile (· ≠ '\n') = cs := by
  have hall : ∀ c ∈ body, decide (c ≠ '\n') = true := fun c hc =>
    decide_eq_true fun heq => hbody (heq ▸ hc)
  rw [List.dropWhile_append_of_pos hall]
  cases cs with
  | nil => rfl
  | cons c cs => exact List.dropWhile_cons_of_neg (by simp [hcs c rfl])

/-- A closing mark at the start of a text stands in it. -/
theorem closes_within (cs : List Char) : ['*', '/'] <:+: '*' :: '/' :: cs := ⟨[], cs, rfl⟩

/-- A block comment goes up to its first closing mark. -/
theorem blockCommentTail_closed {body : List Char} (hbody : ¬['*', '/'] <:+: body)
    (cs : List Char) :
    blockCommentTail (body ++ '*' :: '/' :: cs) =
      (List.replicate (lineBreaks body) '\n', cs) := by
  induction body with
  | nil => rfl
  | cons c body ih =>
    have hrest := ih fun h => hbody (h.trans (List.suffix_cons c body).isInfix)
    rw [List.cons_append, blockCommentTail.eq_3, hrest]
    · by_cases hc : c = '\n'
      · simp [hc, lineBreaks, List.replicate_succ]
      · simp [hc, lineBreaks]
    · rintro rest rfl heq
      cases body with
      | nil => cases heq
      | cons d body =>
        cases heq
        exact hbody (closes_within body)

/-- A block comment without a closing mark is the whole rest. -/
theorem blockCommentTail_open {body : List Char} (hbody : ¬['*', '/'] <:+: body) :
    blockCommentTail body = (List.replicate (lineBreaks body) '\n', []) := by
  induction body with
  | nil => rfl
  | cons c body ih =>
    have hrest := ih fun h => hbody (h.trans (List.suffix_cons c body).isInfix)
    rw [blockCommentTail.eq_3, hrest]
    · by_cases hc : c = '\n'
      · simp [hc, lineBreaks, List.replicate_succ]
      · simp [hc, lineBreaks]
    · rintro rest rfl rfl
      exact hbody (closes_within rest)

/-- **A literal ends in the same place** whatever other text comes after it. -/
theorem literalTail_append_other {quote : Char} {cs : List Char} {other : List Char}
    (h : (literalTail quote cs).2 = [] → other = []) :
    literalTail quote ((literalTail quote cs).1 ++ other) = ((literalTail quote cs).1, other) := by
  fun_induction literalTail quote cs with
  | case1 =>
    rw [h rfl]
    rfl
  | case2 c cs body rest hread ih =>
    rw [hread] at ih
    rw [List.cons_append, List.cons_append, literalTail, ih h]
  | case3 cs hnone =>
    -- nothing is left for the backslash to take along
    obtain rfl : cs = [] := by
      cases cs with
      | nil => rfl
      | cons c cs => exact (hnone c cs rfl rfl).elim
    rw [h rfl]
    rfl
  | case4 c cs hnone hslash hends =>
    rw [List.singleton_append, literalTail, if_neg hslash, if_pos hends]
    exact fun d ds heq => absurd heq hslash
  | case5 c cs hnone hslash hends body rest hread ih =>
    rw [hread] at ih
    rw [List.cons_append, literalTail, if_neg hslash, if_neg hends, ih h]
    exact fun d ds heq => absurd heq hslash

/-! ## Every text has fragments -/

namespace Fragments

variable {fs gs : List Fragment} {cs : List Char}

theorem of_nil (h : Fragments fs []) : fs = [] := by
  cases h
  rfl

/-- **Nothing of a text is missing** in its fragments. -/
theorem textOf_eq (h : Fragments fs cs) : Fragment.textOf fs = cs := by
  induction h with
  | nil => rfl
  | code _ _ _ _ ih => rw [Fragment.textOf_cons, ih]; rfl
  | literal _ _ ih =>
    rw [Fragment.textOf_cons, ih, Fragment.text, List.cons_append, literalTail_append]
  | lineComment _ _ _ ih => rw [Fragment.textOf_cons, ih]; rfl
  | blockComment _ _ ih => rw [Fragment.textOf_cons, ih]; simp [Fragment.text]
  | openComment => simp [Fragment.textOf, Fragment.text]

/-- **Without its comments a text is what its fragments leave behind.** -/
theorem stripComments_eq (h : Fragments fs cs) : stripComments cs = Fragment.traceOf fs := by
  induction h with
  | nil => rw [stripComments]; rfl
  | code hquote hline hblock _ ih =>
    rw [stripComments, if_neg (by simp [hquote]), ih]
    · rfl
    · rintro rest rfl rfl
      exact hline ⟨rest, rfl⟩
    · rintro rest rfl rfl
      exact hblock ⟨rest, rfl⟩
  | literal hquote _ ih =>
    rw [stripComments, if_pos hquote, ih]
    · rfl
    · rintro rest rfl
      cases hquote
    · rintro rest rfl
      cases hquote
  | lineComment hbody hcs _ ih =>
    rw [stripComments, dropWhile_lineComment hbody hcs, ih]
    rfl
  | blockComment hbody _ ih =>
    rw [stripComments, blockCommentTail_closed hbody, ih]
    rfl
  | openComment hbody =>
    rw [stripComments, blockCommentTail_open hbody, stripComments]
    rfl

/-- A line comment has no line break in it. -/
theorem lineBreaks_eq (h : Fragments fs cs) :
    ∀ f ∈ fs, lineBreaks f.trace = lineBreaks f.text := by
  induction h with
  | nil => exact List.forall_mem_nil _
  | code _ _ _ _ ih => exact List.forall_mem_cons.2 ⟨rfl, ih⟩
  | literal _ _ ih => exact List.forall_mem_cons.2 ⟨rfl, ih⟩
  | lineComment hbody _ _ ih =>
    refine List.forall_mem_cons.2 ⟨Fragment.lineBreaks_trace ?_, ih⟩
    rintro _ ⟨⟩
    exact hbody
  | blockComment _ _ ih =>
    exact List.forall_mem_cons.2 ⟨Fragment.lineBreaks_trace (by simp), ih⟩
  | openComment => exact List.forall_mem_singleton.2 (Fragment.lineBreaks_trace (by simp))

end Fragments

/-- **A block comment ends somewhere**: at its first closing mark or at the end of the text. -/
theorem blockComment_cases (cs : List Char) :
    (∃ body, ¬['*', '/'] <:+: body ∧ cs = body ++ '*' :: '/' :: (blockCommentTail cs).2) ∨
      ¬['*', '/'] <:+: cs ∧ (blockCommentTail cs).2 = [] := by
  fun_induction blockCommentTail cs with
  | case1 => exact .inr ⟨by simp, rfl⟩
  | case2 rest => exact .inl ⟨[], by simp, rfl⟩
  | case3 c cs hclose breaks rest hread ih =>
    rw [hread] at ih
    rcases ih with ⟨body, hbody, rfl⟩ | ⟨hbody, hrest⟩
    · refine .inl ⟨c :: body, fun hinfix => ?_, rfl⟩
      rcases List.infix_cons_iff.1 hinfix with ⟨rest', hprefix⟩ | hinfix
      · obtain ⟨rfl, rfl⟩ := List.cons.inj hprefix
        exact hclose _ rfl rfl
      · exact hbody hinfix
    · refine .inr ⟨fun hinfix => ?_, hrest⟩
      rcases List.infix_cons_iff.1 hinfix with ⟨rest', hprefix⟩ | hinfix
      · obtain ⟨rfl, rfl⟩ := List.cons.inj hprefix
        exact hclose _ rfl rfl
      · exact hbody hinfix

/-- **Every text falls into fragments.** -/
theorem exists_fragments (cs : List Char) : ∃ fs, Fragments fs cs := by
  fun_induction stripComments cs with
  | case1 => exact ⟨[], .nil⟩
  | case2 cs ih =>
    obtain ⟨fs, hfs⟩ := ih
    have hbody : '\n' ∉ cs.takeWhile (· ≠ '\n') := fun hmem => by
      simpa using List.mem_takeWhile_imp hmem
    have hcs : ∀ c ∈ (cs.dropWhile (· ≠ '\n')).head?, c = '\n' := by
      intro c hc
      have hnot := List.head?_dropWhile_not (· ≠ '\n') cs
      rw [Option.mem_def.1 hc] at hnot
      simpa using hnot
    have hline := Fragments.lineComment hbody hcs hfs
    rw [List.takeWhile_append_dropWhile] at hline
    exact ⟨_, hline⟩
  | case3 cs ih =>
    obtain ⟨fs, hfs⟩ := ih
    rcases blockComment_cases cs with ⟨body, hbody, hcs⟩ | ⟨hbody, -⟩
    · rw [hcs]
      exact ⟨_, .blockComment hbody hfs⟩
    · exact ⟨_, .openComment hbody⟩
  | case4 c cs hline hblock hquote ih =>
    obtain ⟨fs, hfs⟩ := ih
    exact ⟨_, .literal hquote hfs⟩
  | case5 c cs hline hblock hquote ih =>
    obtain ⟨fs, hfs⟩ := ih
    refine ⟨_, .code (by simpa using hquote) ?_ ?_ hfs⟩
    · rintro ⟨rest, hrest⟩
      obtain ⟨rfl, rfl⟩ := List.cons.inj hrest
      exact hline _ rfl rfl
    · rintro ⟨rest, hrest⟩
      obtain ⟨rfl, rfl⟩ := List.cons.inj hrest
      exact hblock _ rfl rfl

/-! ## One way only -/

namespace Fragments

variable {fs gs : List Fragment} {cs : List Char}

/-- A comment's mark is no quote. -/
theorem not_isQuote_slash : ¬isQuote '/' = true := by decide

/-- **A text falls into fragments in one way only.** -/
theorem unique (h : Fragments fs cs) (h' : Fragments gs cs) : fs = gs := by
  induction h generalizing gs with
  | nil => exact h'.of_nil.symm
  | code hquote hline hblock _ ih =>
    cases h' with
    | code _ _ _ h' => rw [ih h']
    | literal hquote' => exact absurd hquote' (by simp [hquote])
    | lineComment => exact absurd ⟨_, rfl⟩ hline
    | blockComment => exact absurd ⟨_, rfl⟩ hblock
    | openComment => exact absurd ⟨_, rfl⟩ hblock
  | literal hquote _ ih =>
    cases h' with
    | code hquote' => exact absurd hquote (by simp [hquote'])
    | literal _ h' => rw [ih h']
    | lineComment => exact absurd hquote not_isQuote_slash
    | blockComment => exact absurd hquote not_isQuote_slash
    | openComment => exact absurd hquote not_isQuote_slash
  | @lineComment body cs fs hbody hcs _ ih =>
    generalize htext : '/' :: '/' :: (body ++ cs) = text at h'
    cases h' with
    | nil => cases htext
    | code _ hline => exact absurd ⟨_, htext⟩ hline
    | literal hquote =>
      obtain ⟨rfl, -⟩ := List.cons.inj htext
      exact absurd hquote not_isQuote_slash
    | @lineComment body' cs' _ hbody' hcs' h' =>
      have hboth : body ++ cs = body' ++ cs' := List.cons.inj (List.cons.inj htext).2 |>.2
      have hrest : cs = cs' := by
        rw [← dropWhile_lineComment hbody hcs, hboth, dropWhile_lineComment hbody' hcs']
      subst hrest
      rw [ih h', List.append_cancel_right hboth]
    | blockComment => cases (List.cons.inj (List.cons.inj htext).2).1
    | openComment => cases (List.cons.inj (List.cons.inj htext).2).1
  | @blockComment body cs fs hbody _ ih =>
    generalize htext : '/' :: '*' :: (body ++ '*' :: '/' :: cs) = text at h'
    cases h' with
    | nil => cases htext
    | code _ _ hblock => exact absurd ⟨_, htext⟩ hblock
    | literal hquote =>
      obtain ⟨rfl, -⟩ := List.cons.inj htext
      exact absurd hquote not_isQuote_slash
    | lineComment => cases (List.cons.inj (List.cons.inj htext).2).1
    | @blockComment body' cs' _ hbody' h' =>
      have hboth : body ++ '*' :: '/' :: cs = body' ++ '*' :: '/' :: cs' :=
        List.cons.inj (List.cons.inj htext).2 |>.2
      have hread := blockCommentTail_closed hbody cs
      rw [hboth, blockCommentTail_closed hbody'] at hread
      obtain rfl : cs' = cs := (Prod.ext_iff.1 hread).2
      rw [ih h', List.append_cancel_right hboth]
    | openComment hbody' =>
      refine absurd ?_ hbody'
      rw [← List.cons.inj (List.cons.inj htext).2 |>.2]
      exact (closes_within cs).trans (List.suffix_append body _).isInfix
  | @openComment body hbody =>
    generalize htext : '/' :: '*' :: body = text at h'
    cases h' with
    | nil => cases htext
    | code _ _ hblock => exact absurd ⟨_, htext⟩ hblock
    | literal hquote =>
      obtain ⟨rfl, -⟩ := List.cons.inj htext
      exact absurd hquote not_isQuote_slash
    | lineComment => cases (List.cons.inj (List.cons.inj htext).2).1
    | @blockComment body' cs' =>
      refine absurd ?_ hbody
      rw [List.cons.inj (List.cons.inj htext).2 |>.2]
      exact (closes_within cs').trans (List.suffix_append body' _).isInfix
    | openComment => rw [List.cons.inj (List.cons.inj htext).2 |>.2]

/-! ## No comment is made -/

/-- **What fragments leave begins as the text does**, or the text begins with a comment. -/
theorem head?_traceOf (h : Fragments fs cs) :
    (Fragment.traceOf fs).head? = cs.head? ∨ ['/', '/'] <+: cs ∨ ['/', '*'] <+: cs := by
  cases h with
  | nil => exact .inl rfl
  | code => exact .inl rfl
  | literal => exact .inl rfl
  | lineComment => exact .inr (.inl ⟨_, rfl⟩)
  | blockComment => exact .inr (.inr ⟨_, rfl⟩)
  | openComment => exact .inr (.inr ⟨_, rfl⟩)

/-- A character and another after it begin a text when they are its first two. -/
theorem prefix_two_iff {a b c : Char} {cs : List Char} :
    [a, b] <+: c :: cs ↔ a = c ∧ cs.head? = some b := by
  rw [List.cons_prefix_cons, List.head?_eq_some_iff]
  refine and_congr_right fun _ => ⟨?_, ?_⟩
  · rintro ⟨rest, rfl⟩
    exact ⟨rest, rfl⟩
  · rintro ⟨rest, rfl⟩
    exact ⟨rest, rfl⟩

/-- **A character that begins no comment begins none** when the comments behind it are gone. -/
theorem begins_none {c mark : Char} (h : Fragments fs cs) (hline : ¬['/', '/'] <+: c :: cs)
    (hcomment : ¬['/', mark] <+: c :: cs) : ¬['/', mark] <+: c :: Fragment.traceOf fs := by
  intro hprefix
  obtain ⟨rfl, hmark⟩ := prefix_two_iff.1 hprefix
  rcases h.head?_traceOf with hhead | ⟨rest, rfl⟩ | ⟨rest, rfl⟩
  · exact hcomment (prefix_two_iff.2 ⟨rfl, hhead ▸ hmark⟩)
  · exact hline ⟨_, rfl⟩
  · exact hline ⟨_, rfl⟩

/-- **No comment is made** by taking comments out. -/
theorem stripComments_traceOf (h : Fragments fs cs) :
    stripComments (Fragment.traceOf fs) = Fragment.traceOf fs := by
  induction h with
  | nil => exact stripComments.eq_1
  | code hquote hline hblock h ih =>
    change stripComments (_ :: Fragment.traceOf _) = _ :: Fragment.traceOf _
    rw [stripComments, if_neg (by simp [hquote]), ih]
    · rintro rest rfl heq
      exact h.begins_none hline hline ⟨rest, by rw [heq]; rfl⟩
    · rintro rest rfl heq
      exact h.begins_none hline hblock ⟨rest, by rw [heq]; rfl⟩
  | @literal c cs fs hquote h ih =>
    have htail := @literalTail_append_other c cs (Fragment.traceOf fs) fun hnil => by
      rw [hnil] at h
      rw [h.of_nil]
      rfl
    rw [Fragment.traceOf_cons, Fragment.trace, List.cons_append, stripComments, if_pos hquote, htail,
      ih, List.cons_append]
    · rintro rest rfl
      cases hquote
    · rintro rest rfl
      cases hquote
  | lineComment _ _ _ ih => exact ih
  | blockComment _ _ ih =>
    rw [Fragment.traceOf_cons, stripComments_inert (Fragment.isInert_trace rfl), ih]
  | openComment =>
    rw [Fragment.traceOf_cons, stripComments_inert (Fragment.isInert_trace rfl)]
    exact congrArg _ stripComments.eq_1

end Fragments

/-- **Taking comments out once is enough.** -/
theorem stripComments_stripComments (cs : List Char) :
    stripComments (stripComments cs) = stripComments cs := by
  obtain ⟨fs, hfs⟩ := exists_fragments cs
  rw [hfs.stripComments_eq, hfs.stripComments_traceOf]

/-! ## Lines -/

namespace Fragments

variable {fs before after : List Fragment} {cs : List Char}

/-- Fragments that keep their line breaks keep them all together. -/
theorem lineBreaks_traceOf (h : ∀ f ∈ fs, lineBreaks f.trace = lineBreaks f.text) :
    lineBreaks (Fragment.traceOf fs) = lineBreaks (Fragment.textOf fs) := by
  induction fs with
  | nil => rfl
  | cons f fs ih =>
    obtain ⟨hf, hfs⟩ := List.forall_mem_cons.1 h
    rw [Fragment.traceOf_cons, Fragment.textOf_cons, lineBreaks_append, lineBreaks_append, hf, ih hfs]

/-- **A place without comments**: what begins with a character that is no blank and no line break
begins outside comments. -/
theorem exists_place {c : Char} {cs : List Char} (h : c :: cs <:+ Fragment.traceOf fs)
    (hblank : c ≠ ' ') (hbreak : c ≠ '\n') :
    ∃ before f after s₁ s₂, fs = before ++ f :: after ∧ f.isComment = false ∧ f.text = s₁ ++ s₂ ∧
      s₂ ≠ [] ∧ c :: cs = s₂ ++ Fragment.traceOf after := by
  induction fs with
  | nil => exact absurd (List.suffix_nil.1 h) (List.cons_ne_nil c cs)
  | cons f fs ih =>
    have hlater (h : c :: cs <:+ Fragment.traceOf fs) := ih h
    obtain ⟨front, hfront⟩ := h
    rw [Fragment.traceOf_cons] at hfront
    rcases List.append_eq_append_iff.1 hfront with ⟨s₂, htrace, hrest⟩ | ⟨s, -, hrest⟩
    · rcases s₂ with _ | ⟨d, s₂⟩
      · obtain ⟨before, g, after, s₁, s₂, rfl, hplace⟩ := hlater ⟨[], hrest⟩
        exact ⟨f :: before, g, after, s₁, s₂, rfl, hplace⟩
      · obtain ⟨rfl, -⟩ := List.cons.inj hrest
        have hcode : f.isComment = false := by
          by_contra hcomment
          rw [Bool.not_eq_false] at hcomment
          have hmem : c ∈ f.trace := htrace ▸ List.mem_append_right _ List.mem_cons_self
          exact (Fragment.mem_trace_of_isComment hcomment c hmem).elim hblank hbreak
        rw [Fragment.trace_of_isComment_eq_false hcode] at htrace
        exact ⟨[], f, fs, front, c :: s₂, rfl, hcode, htrace, List.cons_ne_nil c s₂, hrest⟩
    · obtain ⟨before, g, after, s₁, s₂, rfl, hplace⟩ := hlater ⟨s, hrest.symm⟩
      exact ⟨f :: before, g, after, s₁, s₂, rfl, hplace⟩

end Fragments

/-! ## Declarations -/

/-- **No statement begins with a blank or a line break.** -/
theorem readStatement?_of_blank {directory : String} {line : Nat} {c : Char} {cs : List Char}
    (hc : c = ' ' ∨ c = '\n') : readStatement? directory line (c :: cs) = none := by
  have hdrop : ∀ w ∈ ["import", "export", "default", "declare", "type", "interface", "const", "enum"],
      w.toList.isPrefixOf (c :: cs) = false := by
    rcases hc with rfl | rfl <;> simp [List.isPrefixOf]
  have hword : ∀ w ∈ ["export", "default", "declare", "type", "interface", "const", "enum"],
      wordThenBlanks? w (c :: cs) = none := fun w hw => by
    rw [wordThenBlanks?, Text.dropWord?, hdrop w (List.mem_cons_of_mem _ hw)]
    rfl
  have hhead : readHead? (c :: cs) = none := by
    simp only [readHead?, headKind?, optionalWord, hword "export" (by decide),
      hword "default" (by decide), hword "declare" (by decide), hword "type" (by decide),
      hword "interface" (by decide), hword "const" (by decide), hword "enum" (by decide)]
    rfl
  rw [readStatement?, hdrop "import" (by decide), hhead]
  rfl

/-- **Where a statement was read**: the text from there on, without its comments, and the line that
the reader was on. -/
theorem exists_readStatement_of_mem {directory text : String} :
    let kept := stripComments text.toList
    ∀ st ∈ (readContents directory text).value.statements, ∃ cs read, cs <:+ kept ∧
      readStatement? directory (lineBreaks kept - lineBreaks cs + 1) cs = some read ∧
        read.statement.value = some st := by
  intro kept
  have hread := @scanStatements_keeps
    (fun cs c => cs <:+ kept ∧ ∀ st ∈ c.statements, ∃ cs read, cs <:+ kept ∧
      readStatement? directory (lineBreaks kept - lineBreaks cs + 1) cs = some read ∧
        read.statement.value = some st) directory (lineBreaks kept)
    (fun hrest h => ⟨hrest.trans h.1, h.2⟩)
    (fun {cs c read st} hread hst h => ⟨(suffix_of_readStatement? hread).trans h.1, fun st' hmem =>
      (Contents.mem_statements_add hmem).elim (h.2 st') fun heq =>
        ⟨cs, read, h.1, hread, heq ▸ hst⟩⟩)
    (kept.length + 1) 0 false kept {} ⟨List.suffix_rfl, List.forall_mem_nil _⟩
  exact hread.2

/-- **Taking comments out is exact and keeps lines.**  Nothing more is taken out of a text without
comments, and all its line breaks are there.  A text falls into fragments in one way; string literals
and the characters outside comments stay as they are, in order, each after as many line breaks as
before; comments leave nothing but blanks and line breaks.  The line of every declaration that is
read is the line, in the text with its comments, of the place outside them where the statement
begins. -/
theorem comments_leave_lines (text : String) :
    let cs := text.toList
    stripComments (stripComments cs) = stripComments cs ∧
      lineBreaks (stripComments cs) = lineBreaks cs ∧
      ∃ fs, Fragments fs cs ∧ (∀ gs, Fragments gs cs → gs = fs) ∧ Fragment.textOf fs = cs ∧
        Fragment.traceOf fs = stripComments cs ∧
        (∀ f ∈ fs, lineBreaks f.trace = lineBreaks f.text ∧ (f.isComment = false → f.trace = f.text) ∧
          (f.isComment = true → ∀ c ∈ f.trace, c = ' ' ∨ c = '\n')) ∧
        ∀ modulePath path strict,
          ∀ st ∈ (readSource text modulePath path strict).value.contents.statements,
          ∀ name line, Contents.declared? st = some (name, line) →
          ∃ before f after s₁ s₂ read, fs = before ++ f :: after ∧ f.isComment = false ∧
            f.text = s₁ ++ s₂ ∧ s₂ ≠ [] ∧
            line = lineBreaks (Fragment.textOf before ++ s₁) + 1 ∧
            readStatement? (directoryOf modulePath) line (s₂ ++ Fragment.traceOf after) = some read ∧
            read.statement.value = some st := by
  intro cs
  obtain ⟨fs, hfs⟩ := exists_fragments cs
  have hbreaks := hfs.lineBreaks_eq
  have htrace := hfs.stripComments_eq
  refine ⟨stripComments_stripComments cs, ?_, fs, hfs, fun gs hgs => hgs.unique hfs, hfs.textOf_eq,
    htrace.symm, fun f hf => ⟨hbreaks f hf, Fragment.trace_of_isComment_eq_false,
      Fragment.mem_trace_of_isComment⟩, fun modulePath path strict st hst name line hdeclared => ?_⟩
  · rw [htrace, Fragments.lineBreaks_traceOf hbreaks, hfs.textOf_eq]
  obtain ⟨rest, read, hrest, hread, hvalue⟩ := exists_readStatement_of_mem st hst
  obtain ⟨rfl, -⟩ := declared?_of_readStatement? hread hvalue hdeclared
  cases rest with
  | nil => cases hread
  | cons c rest =>
    have hblank : c ≠ ' ' ∧ c ≠ '\n' := by
      rw [← not_or]
      intro hc
      rw [readStatement?_of_blank hc] at hread
      cases hread
    rw [htrace] at hrest
    obtain ⟨before, f, after, s₁, s₂, rfl, hcode, htext, hs₂, hplace⟩ :=
      Fragments.exists_place hrest hblank.1 hblank.2
    have hbefore : lineBreaks (Fragment.traceOf before) = lineBreaks (Fragment.textOf before) :=
      Fragments.lineBreaks_traceOf fun g hg => hbreaks g (List.mem_append_left _ hg)
    have hline : lineBreaks (stripComments cs) - lineBreaks (c :: rest) =
        lineBreaks (Fragment.textOf before ++ s₁) := by
      rw [htrace, hplace, Fragment.traceOf_append, Fragment.traceOf_cons,
        Fragment.trace_of_isComment_eq_false hcode, htext]
      simp only [lineBreaks_append, hbefore]
      omega
    rw [hline]
    rw [hline, hplace] at hread
    exact ⟨before, f, after, s₁, s₂, read, rfl, hcode, htext, hs₂, rfl, hread, hvalue⟩

/-- An alias behind a comment of two lines. -/
def secondLineText : String := "'//' /* one\n two */ type A = 'x' // three"

/-- The alias. -/
def secondLineAlias : AliasDeclaration where
  name := "A"
  body := .literal .string "x"
  parameters := []
  exported := false
  line := 2

theorem comments_leave_lines_secondLine :
    let st := Statement.alias secondLineAlias
    st ∈ (readSource secondLineText "/m" none true).value.contents.statements ∧
      Contents.declared? st = some ("A", 2) ∧
      ∃ fs, Fragments fs secondLineText.toList ∧
        ∃ before f after s₁ s₂ read, fs = before ++ f :: after ∧ f.isComment = false ∧
          f.text = s₁ ++ s₂ ∧ s₂ ≠ [] ∧ 2 = lineBreaks (Fragment.textOf before ++ s₁) + 1 ∧
          readStatement? "/" 2 (s₂ ++ Fragment.traceOf after) = some read ∧
          read.statement.value = some st := by
  intro st
  have hcontents : (readSource secondLineText "/m" none true).value.contents =
      { aliases := [secondLineAlias] } := by decide +kernel
  have hst : st ∈ (readSource secondLineText "/m" none true).value.contents.statements := by
    rw [hcontents]
    exact List.mem_singleton_self st
  obtain ⟨-, -, fs, hfs, -, -, -, -, hplaces⟩ := comments_leave_lines secondLineText
  exact ⟨hst, rfl, fs, hfs, hplaces "/m" none true st hst "A" 2 rfl⟩

end FluentBuilders
