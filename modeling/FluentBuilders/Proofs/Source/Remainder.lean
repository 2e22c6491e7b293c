import FluentBuilders.Source.File
import Mathlib.Data.List.TakeDrop

/-!
# Proofs/Source/Remainder — what a reader leaves is the end of the text

Every reader of source text takes a front off the text and leaves the rest as it is: what it leaves
is a suffix (`suffix_of_readStatement?`).  So what holds at a place of a text and goes on to hold at
all later ones is carried through the whole scan (`scanStatements_keeps`).
-/

namespace FluentBuilders

open Piece

/-! ## Blanks and words -/

namespace Text

variable {cs rest : List Char}

theorem trimStart_suffix (cs : List Char) : trimStart cs <:+ cs := List.dropWhile_suffix _

theorem suffix_of_skipBlanks? (h : skipBlanks? cs = some rest) : rest <:+ cs := by
  unfold skipBlanks? at h
  split at h
  · cases h
  · split at h <;> cases h
    exact (trimStart_suffix _).trans (List.suffix_cons _ _)

theorem suffix_of_dropWord? {w : String} (h : dropWord? w cs = some rest) : rest <:+ cs := by
  unfold dropWord? at h
  split at h <;> cases h
  exact List.drop_suffix _ _

theorem suffix_of_readName? {name : List Char} (h : readName? cs = some (name, rest)) :
    rest <:+ cs := by
  unfold readName? at h
  split at h
  · cases h
  · split at h
    · rw [List.span_eq_takeWhile_dropWhile] at h
      cases h
      exact (List.dropWhile_suffix _).trans (List.suffix_cons _ _)
    · cases h

end Text

/-! ## Pieces -/

theorem literalTail_suffix (quote : Char) (cs : List Char) : (literalTail quote cs).2 <:+ cs :=
  ⟨_, literalTail_append quote cs⟩

theorem textOf_suffix {ps qs : List Piece} (h : ps <:+ qs) : textOf ps <:+ textOf qs := by
  obtain ⟨front, rfl⟩ := h
  rw [textOf, textOf, List.flatMap_append]
  exact List.suffix_append _ _

theorem blockFrom_suffix (angles : Bool) (depth : Nat) (afterEquals : Bool) (ps : List Piece) :
    (blockFrom angles depth afterEquals ps).2 <:+ ps := by
  induction ps generalizing depth afterEquals with
  | nil => exact List.suffix_rfl
  | cons p ps ih =>
    rw [blockFrom]
    split
    · exact (ih _ _).trans (List.suffix_cons _ _)
    · split
      · exact List.suffix_cons _ _
      · exact (ih _ _).trans (List.suffix_cons _ _)
    · exact (ih _ _).trans (List.suffix_cons _ _)

theorem suffix_of_findFrom {target : Char} {depth : Int} {afterEquals : Bool} {ps rest : List Piece}
    {before : List Char} (h : findFrom target depth afterEquals ps = some (before, rest)) :
    rest <:+ ps := by
  induction ps generalizing depth afterEquals before with
  | nil => cases h
  | cons p ps ih =>
    rw [findFrom] at h
    split at h
    · cases h
      exact List.suffix_rfl
    · split at h
      · cases h
      · obtain ⟨found, hfound, heq⟩ := Option.map_eq_some_iff.1 h
        cases heq
        exact (ih hfound).trans (List.suffix_cons _ _)

theorem aliasBodyFrom_suffix (depth : Nat) (afterEquals : Bool) (before : List Char)
    (ps : List Piece) : (aliasBodyFrom depth afterEquals before ps).2 <:+ ps := by
  induction ps generalizing depth afterEquals before with
  | nil => exact List.suffix_rfl
  | cons p ps ih =>
    rw [aliasBodyFrom]
    split
    · exact (ih _ _ _).trans (List.suffix_cons _ _)
    · split
      · exact List.suffix_rfl
      · exact (ih _ _ _).trans (List.suffix_cons _ _)
    · split
      · exact List.suffix_rfl
      split
      · exact List.suffix_rfl
      · exact (ih _ _ _).trans (List.suffix_cons _ _)

/-! ## Imports -/

section
variable {cs rest : List Char}

theorem suffix_of_fromModule? {module : List Char} (h : fromModule? cs = some (module, rest)) :
    rest <:+ cs := by
  unfold fromModule? at h
  obtain ⟨after, hafter, h⟩ := Option.bind_eq_some_iff.1 h
  have hword : after <:+ cs :=
    (Text.suffix_of_dropWord? hafter).trans (Text.trimStart_suffix cs)
  refine List.IsSuffix.trans ?_ hword
  split at h
  · next q body hbody =>
    split at h
    · split at h
      · cases h
      · next hspan =>
        split at h <;> cases h
        rw [List.span_eq_takeWhile_dropWhile] at hspan
        have hbehind := List.dropWhile_suffix (l := body) fun c => c != '\'' && c != '"'
        rw [show List.dropWhile _ body = _ from (Prod.ext_iff.1 hspan).2] at hbehind
        exact ((List.suffix_cons _ _).trans hbehind).trans
          ((List.suffix_cons q body).trans (hbody ▸ Text.trimStart_suffix after))
      · cases h
    · cases h
  · cases h

theorem suffix_of_clauseAndModule? {clause module : List Char}
    (h : clauseAndModule? cs = some (clause, module, rest)) : rest <:+ cs := by
  induction cs generalizing clause with
  | nil =>
    unfold clauseAndModule? at h
    split at h
    · next hfrom =>
      cases h
      exact suffix_of_fromModule? hfrom
    · cases h
  | cons c cs ih =>
    unfold clauseAndModule? at h
    split at h
    · next hfrom =>
      cases h
      exact suffix_of_fromModule? hfrom
    · dsimp only at h
      split at h
      · cases h
      · obtain ⟨⟨clause', module', rest'⟩, hread, heq⟩ := Option.map_eq_some_iff.1 h
        cases heq
        exact (ih hread).trans (List.suffix_cons _ _)

theorem suffix_of_readImport? {directory : String} {d : ImportDeclaration}
    (h : readImport? directory cs = some (d, rest)) : rest <:+ cs := by
  unfold readImport? at h
  obtain ⟨after, hafter, h⟩ := Option.bind_eq_some_iff.1 h
  obtain ⟨word, hword, hblank⟩ := Option.bind_eq_some_iff.1 hafter
  obtain ⟨⟨clause, module, rest'⟩, hread, heq⟩ := Option.bind_eq_some_iff.1 h
  cases heq
  exact (suffix_of_clauseAndModule? hread).trans
    ((Text.suffix_of_skipBlanks? hblank).trans (Text.suffix_of_dropWord? hword))

/-! ## Heads -/

theorem suffix_of_wordThenBlanks? {w : String} (h : wordThenBlanks? w cs = some rest) :
    rest <:+ cs := by
  obtain ⟨word, hword, hblank⟩ := Option.bind_eq_some_iff.1 h
  exact (Text.suffix_of_skipBlanks? hblank).trans (Text.suffix_of_dropWord? hword)

theorem optionalWord_suffix (w : String) (cs : List Char) : (optionalWord w cs).2 <:+ cs := by
  unfold optionalWord
  split
  · next h => exact suffix_of_wordThenBlanks? h
  · exact List.suffix_rfl

theorem suffix_of_headKind? {kind : HeadKind} (h : headKind? cs = some (kind, rest)) :
    rest <:+ cs := by
  unfold headKind? at h
  split at h
  · next hword =>
    cases h
    exact suffix_of_wordThenBlanks? hword
  · split at h
    · next hword =>
      cases h
      exact suffix_of_wordThenBlanks? hword
    · obtain ⟨rest', hword, heq⟩ := Option.map_eq_some_iff.1 h
      cases heq
      exact (suffix_of_wordThenBlanks? hword).trans (optionalWord_suffix _ _)

theorem suffix_of_readHead? {head : Head} (h : readHead? cs = some (head, rest)) : rest <:+ cs := by
  unfold readHead? at h
  obtain ⟨⟨kind, afterKind⟩, hkind, h⟩ := Option.bind_eq_some_iff.1 h
  obtain ⟨⟨name, afterName⟩, hname, heq⟩ := Option.bind_eq_some_iff.1 h
  cases heq
  exact (Text.suffix_of_readName? hname).trans ((suffix_of_headKind? hkind).trans
    ((optionalWord_suffix _ _).trans ((optionalWord_suffix _ _).trans (optionalWord_suffix _ _))))

/-! ## Declarations -/

theorem readTypeParameters_suffix (cs : List Char) : textOf (readTypeParameters cs).2 <:+ cs := by
  unfold readTypeParameters
  dsimp only
  split
  · have h := textOf_suffix (blockFrom_suffix true 0 false (pieces (Text.trimStart cs)))
    rw [textOf_pieces] at h
    exact h.trans (Text.trimStart_suffix cs)
  · rw [textOf_pieces]
    exact Text.trimStart_suffix cs

theorem readAlias_suffix (head : Head) (line : Nat) (cs : List Char) :
    (readAlias head line cs).rest <:+ cs := by
  unfold readAlias
  dsimp only
  split
  · next body hbody =>
    have hrest : textOf (splitAliasBody (pieces body)).2 <:+ cs := by
      have h := textOf_suffix (aliasBodyFrom_suffix 0 true [] (pieces body))
      rw [textOf_pieces] at h
      refine h.trans ((List.suffix_cons '=' body).trans ?_)
      rw [← hbody]
      exact (Text.trimStart_suffix _).trans (readTypeParameters_suffix cs)
    split
    · next hsemicolon =>
      rw [hsemicolon] at hrest
      exact (List.suffix_cons _ _).trans hrest
    · exact hrest
  · exact List.suffix_rfl

theorem readInterface_suffix (head : Head) (line : Nat) (cs : List Char) :
    (readInterface head line cs).rest <:+ cs := by
  unfold readInterface
  dsimp only
  split
  · next header body hfound =>
    exact (textOf_suffix (blockFrom_suffix true 0 false body)).trans
      ((textOf_suffix (suffix_of_findFrom hfound)).trans (readTypeParameters_suffix cs))
  · exact List.suffix_rfl

theorem readEnum_suffix (head : Head) (constant : Bool) (line : Nat) (cs : List Char) :
    (readEnum head constant line cs).rest <:+ cs := by
  unfold readEnum
  split
  · next before body hfound =>
    have h := textOf_suffix (suffix_of_findFrom hfound)
    rw [textOf_pieces] at h
    exact (textOf_suffix (blockFrom_suffix false 0 false body)).trans h
  · exact List.suffix_rfl

/-- **A statement is read off the front of a text.** -/
theorem suffix_of_readStatement? {directory : String} {line : Nat} {read : ReadStatement}
    (h : readStatement? directory line cs = some read) : read.rest <:+ cs := by
  unfold readStatement? at h
  split at h
  · obtain ⟨⟨d, rest⟩, hread, rfl⟩ := Option.map_eq_some_iff.1 h
    exact suffix_of_readImport? hread
  · obtain ⟨⟨head, rest⟩, hhead, rfl⟩ := Option.map_eq_some_iff.1 h
    refine List.IsSuffix.trans ?_ (suffix_of_readHead? hhead)
    dsimp only
    split
    · exact readAlias_suffix _ _ _
    · exact readInterface_suffix _ _ _
    · exact readEnum_suffix _ _ _ _

end

/-! ## Files -/

/-- **What holds all through a scan**: a property of the text that is left and of what was read so
far, when it holds at every later place and is kept by every statement that is added. -/
theorem scanStatements_keeps {P : List Char → Contents → Prop} {directory : String} {total : Nat}
    (hlater : ∀ {cs rest c}, rest <:+ cs → P cs c → P rest c)
    (hadd : ∀ {cs c read st},
      readStatement? directory (total - lineBreaks cs + 1) cs = some read →
      read.statement.value = some st → P cs c → P read.rest (c.add st).value)
    {fuel depth : Nat} {inWord : Bool} {cs : List Char} {c : Contents} (h : P cs c) :
    P [] (scanStatements directory total fuel depth inWord cs c).value := by
  induction fuel generalizing depth inWord cs c with
  | zero => exact hlater (List.nil_suffix) h
  | succ fuel ih =>
    cases cs with
    | nil => exact h
    | cons x cs =>
      have htail : P cs c := hlater (List.suffix_cons x cs) h
      rw [scanStatements]
      split
      · exact ih (hlater (literalTail_suffix x cs) htail)
      split
      · exact ih htail
      split
      · exact ih htail
      split
      · split
        · exact ih htail
        · next read hread =>
          simp only [bind]
          cases hstatement : read.statement.value with
          | none => exact ih (hlater (suffix_of_readStatement? hread) h)
          | some statement => exact ih (hadd hread hstatement h)
      · exact ih htail

end FluentBuilders
