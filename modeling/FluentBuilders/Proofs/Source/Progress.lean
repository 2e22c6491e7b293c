import FluentBuilders.Proofs.Source.Remainder

/-!
# Proofs/Source/Progress — a scan goes on to the end of the text

Every scanner leaves the text from a place further on, never past its end (`IsBehind`).  A scan of
statements is a run of steps, each of which takes something off the text (`Scan.step_suffix`), so it
is at the end of the text after as many steps as the text has characters (`Scan.run_rest`), and
`readContents` gives what it has found there.
-/

namespace FluentBuilders

open Piece

/-! ## Places -/

/-- **What is left behind a place**: the rest of the text from a place after `p`, its end at most. -/
def IsBehind (text : List Char) (p : Nat) (rest : List Char) : Prop :=
  ∃ q, p < q ∧ q ≤ text.length ∧ rest = text.drop q

section

variable {text cs rest : List Char} {c : Char} {p : Nat}

theorem exists_drop_of_suffix (hp : p ≤ text.length) (h : rest <:+ text.drop p) :
    ∃ q, p ≤ q ∧ q ≤ text.length ∧ rest = text.drop q := by
  have hlength := h.length_le
  rw [List.length_drop] at hlength
  exact ⟨text.length - rest.length, by omega, by omega,
    List.suffix_iff_eq_drop.1 (h.trans (List.drop_suffix p text))⟩

/-- What a scanner leaves of the text after the character at `p` is behind `p`. -/
theorem isBehind_of_suffix (hp : text.drop p = c :: cs) (h : rest <:+ cs) : IsBehind text p rest := by
  have hpos : p < text.length := by
    rw [← List.drop_eq_nil_iff.not.trans Nat.not_le, hp]
    exact List.cons_ne_nil c cs
  have hnext : text.drop (p + 1) = cs := by rw [← List.tail_drop, hp, List.tail_cons]
  obtain ⟨q, hq, hle, hrest⟩ := exists_drop_of_suffix hpos (hnext ▸ h)
  exact ⟨q, hq, hle, hrest⟩

end

/-! ## Scanners -/

/-- **A block takes its opening bracket along.** -/
theorem splitBlock_suffix_tail (angles : Bool) {p : Piece} {ps : List Piece} :
    (splitBlock angles (p :: ps)).2 <:+ ps := by
  rw [splitBlock, blockFrom]
  split
  · exact blockFrom_suffix _ _ _ _
  · exact List.suffix_rfl
  · exact blockFrom_suffix _ _ _ _

section

variable {cs rest : List Char}

theorem length_lt_of_dropWord? {w : String} (hw : w.toList ≠ [])
    (h : Text.dropWord? w cs = some rest) : rest.length < cs.length := by
  unfold Text.dropWord? at h
  split at h
  · next hprefix =>
    cases h
    have hpos := List.length_pos_iff.2 hw
    have hle := (List.isPrefixOf_iff_prefix.1 hprefix).length_le
    rw [String.length_toList] at hpos hle
    rw [List.length_drop]
    omega
  · cases h

theorem length_lt_of_readName? {name : List Char} (h : Text.readName? cs = some (name, rest)) :
    rest.length < cs.length := by
  unfold Text.readName? at h
  split at h
  · cases h
  · split at h
    · rw [List.span_eq_takeWhile_dropWhile] at h
      cases h
      exact Nat.lt_succ_of_le (List.dropWhile_suffix _).length_le
    · cases h

theorem length_lt_of_readImport? {directory : String} {d : ImportDeclaration}
    (h : readImport? directory cs = some (d, rest)) : rest.length < cs.length := by
  unfold readImport? at h
  obtain ⟨after, hafter, h⟩ := Option.bind_eq_some_iff.1 h
  obtain ⟨word, hword, hblank⟩ := Option.bind_eq_some_iff.1 hafter
  obtain ⟨⟨clause, module, rest'⟩, hread, heq⟩ := Option.bind_eq_some_iff.1 h
  cases heq
  have hclause := (suffix_of_clauseAndModule? hread).length_le
  have hblanks := (Text.suffix_of_skipBlanks? hblank).length_le
  have himport := length_lt_of_dropWord? (by decide) hword
  omega

theorem length_lt_of_readHead? {head : Head} (h : readHead? cs = some (head, rest)) :
    rest.length < cs.length := by
  unfold readHead? at h
  obtain ⟨⟨kind, afterKind⟩, hkind, h⟩ := Option.bind_eq_some_iff.1 h
  obtain ⟨⟨name, afterName⟩, hname, heq⟩ := Option.bind_eq_some_iff.1 h
  cases heq
  have hbefore := (suffix_of_headKind? hkind).trans ((optionalWord_suffix _ _).trans
    ((optionalWord_suffix _ _).trans (optionalWord_suffix _ _)))
  exact Nat.lt_of_lt_of_le (length_lt_of_readName? hname) hbefore.length_le

/-- **A statement takes at least the first character along.** -/
theorem readStatement?_suffix_tail {directory : String} {line : Nat} {c : Char}
    {read : ReadStatement} (h : readStatement? directory line (c :: cs) = some read) :
    read.rest <:+ cs := by
  have hlength : read.rest.length < (c :: cs).length := by
    unfold readStatement? at h
    split at h
    · obtain ⟨⟨d, rest⟩, hread, rfl⟩ := Option.map_eq_some_iff.1 h
      exact length_lt_of_readImport? hread
    · obtain ⟨⟨head, rest⟩, hhead, rfl⟩ := Option.map_eq_some_iff.1 h
      refine Nat.lt_of_le_of_lt ?_ (length_lt_of_readHead? hhead)
      dsimp only
      split
      · exact (readAlias_suffix _ _ _).length_le
      · exact (readInterface_suffix _ _ _).length_le
      · exact (readEnum_suffix _ _ _ _).length_le
  rcases List.suffix_cons_iff.1 (suffix_of_readStatement? h) with heq | hsuffix
  · rw [heq] at hlength
    exact absurd hlength (Nat.lt_irrefl _)
  · exact hsuffix

end

/-! ## Scans -/

instance : LawfulMonad Noted :=
  LawfulMonad.mk' Noted (fun x => by cases x; simp [Functor.map])
    (fun a f => by simp [bind, pure]) (fun x f g => by simp [bind])

/-- **Where a scan of statements stands**: the brackets that are open, whether a word may be going
on, the text that is left, and what was found so far. -/
structure Scan where
  depth : Nat
  inWord : Bool
  rest : List Char
  contents : Contents

namespace Scan

variable {directory : String} {total : Nat}

/-- **One step of a scan**: over a literal, a bracket, a statement or any other character. -/
def step (directory : String) (total : Nat) (s : Scan) : Noted Scan :=
  match s.rest with
  | [] => pure s
  | c :: cs =>
    if isQuote c then pure { s with inWord := false, rest := (literalTail c cs).2 }
    else if c = '(' ∨ c = '[' ∨ c = '{' then
      pure { s with depth := s.depth + 1, inWord := false, rest := cs }
    else if c = ')' ∨ c = ']' ∨ c = '}' then
      pure { s with depth := s.depth - 1, inWord := false, rest := cs }
    else if s.depth = 0 ∧ Text.isLatin c ∧ !s.inWord then
      match readStatement? directory (total - lineBreaks (c :: cs) + 1) (c :: cs) with
      | none => pure { s with inWord := true, rest := cs }
      | some read => do
        match ← read.statement with
        | none => pure { s with inWord := true, rest := read.rest }
        | some statement =>
          let contents ← s.contents.add statement
          pure { s with inWord := false, rest := read.rest, contents }
    else pure { s with inWord := isWordBefore c, rest := cs }

/-- Several steps, one after the other. -/
def run (directory : String) (total : Nat) : Nat → Scan → Noted Scan
  | 0, s => pure s
  | n + 1, s => s.step directory total >>= run directory total n

/-- **A step leaves less of the text.** -/
theorem step_suffix {s : Scan} {c : Char} {cs : List Char} (h : s.rest = c :: cs) :
    (s.step directory total).value.rest <:+ cs := by
  rw [step, h]
  dsimp only
  split
  · exact literalTail_suffix c cs
  split
  · exact List.suffix_rfl
  split
  · exact List.suffix_rfl
  split
  · split
    · exact List.suffix_rfl
    · next read hread =>
      simp only [bind]
      split
      · exact readStatement?_suffix_tail hread
      · exact readStatement?_suffix_tail hread
  · exact List.suffix_rfl

/-- **A scan is at the end of the text** after as many steps as the text has characters. -/
theorem run_rest {n : Nat} {s : Scan} (h : s.rest.length ≤ n) :
    (run directory total n s).value.rest = [] := by
  induction n generalizing s with
  | zero => exact List.length_eq_zero_iff.1 (Nat.le_zero.1 h)
  | succ n ih =>
    refine @ih (s.step directory total).value ?_
    cases hrest : s.rest with
    | nil => simp [step, hrest, pure]
    | cons c cs =>
      have hle := (@step_suffix directory total s c cs hrest).length_le
      rw [hrest, List.length_cons] at h
      omega

theorem step_of_rest_eq_nil {s : Scan} (h : s.rest = []) : s.step directory total = pure s := by
  rw [step, h]

theorem run_of_rest_eq_nil {s : Scan} (h : s.rest = []) (n : Nat) :
    run directory total n s = pure s := by
  induction n with
  | zero => rfl
  | succ n ih => rw [run, step_of_rest_eq_nil h, pure_bind, ih]

/-- **Statements are scanned step by step.** -/
theorem scanStatements_eq_run (n : Nat) (s : Scan) :
    scanStatements directory total n s.depth s.inWord s.rest s.contents =
      contents <$> run directory total n s := by
  induction n generalizing s with
  | zero => rw [scanStatements, run, map_pure]
  | succ n ih =>
    obtain ⟨depth, inWord, rest, found⟩ := s
    cases rest with
    | nil => rw [scanStatements, run_of_rest_eq_nil rfl, map_pure]
    | cons c cs =>
      rw [scanStatements, run, step]
      dsimp only
      split
      · rw [pure_bind, ← ih]
      split
      · rw [pure_bind, ← ih]
      split
      · rw [pure_bind, ← ih]
      split
      · cases readStatement? directory (total - lineBreaks (c :: cs) + 1) (c :: cs) with
        | none => dsimp only; rw [pure_bind, ← ih]
        | some read =>
          dsimp only
          rw [bind_assoc, map_bind]
          refine bind_congr fun found => ?_
          cases found with
          | none => dsimp only; rw [pure_bind, ← ih]
          | some statement =>
            dsimp only
            rw [bind_assoc, map_bind]
            refine bind_congr fun contents => ?_
            rw [pure_bind, ← ih]
      · rw [pure_bind, ← ih]

/-- A run that is at the end stays there. -/
theorem run_add {n : Nat} {s : Scan} (h : (run directory total n s).value.rest = []) (k : Nat) :
    run directory total (n + k) s = run directory total n s := by
  have hadd : ∀ m s, run directory total (m + k) s =
      run directory total m s >>= run directory total k := by
    intro m
    induction m with
    | zero =>
      intro s
      rw [Nat.zero_add, run, pure_bind]
    | succ m ih =>
      intro s
      rw [Nat.succ_add, run, run, bind_assoc]
      exact bind_congr ih
  have hstays := @run_of_rest_eq_nil directory total _ h k
  rw [hadd]
  simp only [bind, hstays]
  simp [pure]

/-- The start of a text. -/
def start (text : List Char) : Scan where
  depth := 0
  inWord := false
  rest := text
  contents := {}

/-- **Reading a file is a run to the end**, in any number of steps that is large enough. -/
theorem readContents_eq_run {text : String} {n : Nat}
    (h : (stripComments text.toList).length ≤ n) :
    let cs := stripComments text.toList
    readContents directory text = contents <$> run directory (lineBreaks cs) n (start cs) := by
  intro cs
  have hend : (run directory (lineBreaks cs) cs.length (start cs)).value.rest = [] :=
    run_rest (Nat.le_refl _)
  obtain ⟨k, rfl⟩ := Nat.exists_eq_add_of_le h
  rw [run_add hend, ← run_add hend 1]
  exact scanStatements_eq_run (cs.length + 1) (start cs)

end Scan

/-- **Scanners go on and stay inside the text.**  A literal, a block and a statement end behind the
place they begin at, an alias's body at its place or behind it, and none of them past the end of the
text.  Each step of a scan of statements takes something off the text, so the scan ends: after as
many steps as the text has characters nothing is left, and what it has found then is what the file
is read as. -/
theorem scanners_advance (text : List Char) :
    (∀ p c cs, text.drop p = c :: cs → isQuote c = true →
        IsBehind text p (literalTail c cs).2) ∧
      (∀ angles p c cs, text.drop p = c :: cs → c ∈ ['(', '[', '{', '<'] →
        IsBehind text p (textOf (splitBlock angles (pieces (c :: cs))).2)) ∧
      (∀ directory line p read, p < text.length →
        readStatement? directory line (text.drop p) = some read → IsBehind text p read.rest) ∧
      (∀ afterEquals p, p ≤ text.length → ∃ q, p ≤ q ∧ q ≤ text.length ∧
        textOf (aliasBodyFrom 0 afterEquals [] (pieces (text.drop p))).2 = text.drop q) ∧
      (∀ directory total (s : Scan) c cs, s.rest = c :: cs →
        (s.step directory total).value.rest <:+ cs) ∧
      ∀ directory source, stripComments source.toList = text → ∀ n, text.length ≤ n →
        let run := Scan.run directory (lineBreaks text) n (.start text)
        run.value.rest = [] ∧ readContents directory source = Scan.contents <$> run := by
  refine ⟨fun p c cs hp _ => isBehind_of_suffix hp (literalTail_suffix c cs),
    fun angles p c cs hp hc => isBehind_of_suffix hp ?_, fun directory line p read hp hread => ?_,
    fun afterEquals p hp => ?_, fun directory total s c cs => Scan.step_suffix, ?_⟩
  · have hquote : isQuote c = false := by
      simp only [List.mem_cons, List.not_mem_nil, or_false] at hc
      rcases hc with rfl | rfl | rfl | rfl <;> rfl
    have hpieces : pieces (c :: cs) = .char c :: pieces cs := by
      rw [pieces, hquote]
      rfl
    have hblock := textOf_suffix (@splitBlock_suffix_tail angles (.char c) (pieces cs))
    rwa [textOf_pieces, ← hpieces] at hblock
  · obtain ⟨c, cs, hcs⟩ := List.exists_cons_of_ne_nil (List.drop_eq_nil_iff.not.2 (Nat.not_le.2 hp))
    rw [hcs] at hread
    exact isBehind_of_suffix hcs (readStatement?_suffix_tail hread)
  · have hbody := textOf_suffix (aliasBodyFrom_suffix 0 afterEquals [] (pieces (text.drop p)))
    rw [textOf_pieces] at hbody
    exact exists_drop_of_suffix hp hbody
  · rintro directory source rfl n hn
    exact ⟨Scan.run_rest hn, Scan.readContents_eq_run hn⟩

/-- A text that ends inside a literal, a block and a declaration. -/
theorem scanners_advance_cutOff :
    let text := "type A<T = \x7b x: 'a\\".toList
    text.drop 16 = ['\'', 'a', '\\'] ∧ isQuote '\'' = true ∧
      IsBehind text 16 (literalTail '\'' ['a', '\\']).2 ∧
      text.drop 6 = '<' :: text.drop 7 ∧ '<' ∈ ['(', '[', '{', '<'] ∧
      IsBehind text 6 (textOf (splitBlock true (pieces ('<' :: text.drop 7))).2) ∧
      0 < text.length ∧ (readStatement? "/" 1 text).isSome = true ∧
      (∀ read, readStatement? "/" 1 text = some read → IsBehind text 0 read.rest) ∧
      stripComments text = text ∧
      (Scan.run "/" (lineBreaks text) text.length (.start text)).value.rest = [] := by
  intro text
  obtain ⟨hliteral, hblock, hstatement, -, -, hscan⟩ := scanners_advance text
  have hstripped : stripComments text = text := by decide +kernel
  have htext : (String.ofList text).toList = text := String.toList_ofList
  exact ⟨by decide, by decide, hliteral 16 _ _ (by decide) (by decide), by decide, by decide,
    hblock true 6 _ _ (by decide) (by decide), by decide, by decide +kernel,
    fun read hread => hstatement "/" 1 0 read (by decide) hread, hstripped,
    (hscan "/" (String.ofList text) (htext.symm ▸ hstripped) _ (Nat.le_refl _)).1⟩

end FluentBuilders
