import FluentBuilders.Proofs.Text.Blank
import FluentBuilders.Source.Statement

/-!
# Proofs/Text/Words — words at the start of a text

A word is dropped from a text that begins with it and with no longer word (`wordThenBlanks?_word`),
and a name is read up to the first character that no name goes on with (`readName?_name`).
-/

namespace FluentBuilders

open Text

/-- A text that carries no ASCII word on. -/
def EndsWord (rest : List Char) : Prop := ∀ c ∈ rest.head?, isIdentifierPart c = false

/-- A text that carries no name on. -/
def EndsName (rest : List Char) : Prop := ∀ c ∈ rest.head?, isNamePart c = false

theorem EndsName.endsWord {rest : List Char} (h : EndsName rest) : EndsWord rest := by
  intro c hc
  by_contra hpart
  rw [Bool.not_eq_false] at hpart
  have := h c hc
  rw [isNamePart_of_isIdentifierPart hpart] at this
  cases this

/-- A text of ASCII letters, digits, `_` and `$`. -/
def IsWordText (cs : List Char) : Prop := ∀ c ∈ cs, isIdentifierPart c = true

theorem dropWord?_append (w : String) (rest : List Char) :
    dropWord? w (w.toList ++ rest) = some rest := by
  have hprefix : w.toList.isPrefixOf (w.toList ++ rest) = true :=
    List.isPrefixOf_iff_prefix.2 (List.prefix_append _ _)
  rw [dropWord?, if_pos hprefix, ← String.length_toList, List.drop_left]

/-- A word is dropped from what begins with it, whatever follows. -/
theorem dropWord?_eq_some {w : String} {cs rest : List Char} (h : dropWord? w cs = some rest) :
    cs = w.toList ++ rest := by
  unfold dropWord? at h
  split at h
  · next hprefix =>
    cases h
    obtain ⟨tail, rfl⟩ := List.isPrefixOf_iff_prefix.1 hprefix
    rw [← String.length_toList, List.drop_left]
  · cases h

theorem skipBlanks?_of_head {cs : List Char} (h : ∀ c ∈ cs.head?, isBlank c = false) :
    skipBlanks? cs = none := by
  cases cs with
  | nil => rfl
  | cons c cs => rw [skipBlanks?, h c rfl]; rfl

theorem skipBlanks?_append {gap : List Char} (h : AllBlank gap) (hne : gap ≠ [])
    (rest : List Char) : skipBlanks? (gap ++ rest) = some (trimStart rest) := by
  cases gap with
  | nil => exact absurd rfl hne
  | cons c gap =>
    have hc := h c List.mem_cons_self
    rw [List.cons_append, skipBlanks?, if_pos hc,
      trimStart_append fun d hd => h d (List.mem_cons_of_mem _ hd)]

/-- **A word and blanks** come off a text that begins with just that word. -/
theorem wordThenBlanks?_word {w : String} {cs : List Char} (hw : IsWordText w.toList)
    (hcs : IsWordText cs) {rest : List Char} (hrest : EndsWord rest) :
    wordThenBlanks? w (cs ++ rest) = if w.toList = cs then skipBlanks? rest else none := by
  unfold wordThenBlanks?
  cases hdrop : dropWord? w (cs ++ rest) with
  | none =>
    rw [if_neg]
    · rfl
    · rintro rfl
      rw [dropWord?_append] at hdrop
      cases hdrop
  | some after =>
    rcases List.append_eq_append_iff.1 (dropWord?_eq_some hdrop) with ⟨ds, hds, hrest'⟩ |
      ⟨ds, rfl, rfl⟩
    · -- the word ends where the text's word ends, since its next character would be a word's
      cases ds with
      | nil =>
        rw [List.append_nil] at hds
        rw [if_pos hds, hrest']
        rfl
      | cons d ds =>
        have hd := hw d (by rw [hds]; simp)
        have := hrest d (by rw [hrest']; rfl)
        rw [hd] at this
        cases this
    · cases ds with
      | nil => simp
      | cons d ds =>
        have hd := isBlank_eq_false_of_isIdentifierPart (hcs d (by simp))
        rw [if_neg (by simp)]
        simp [skipBlanks?, hd]

/-- **A name is read** up to what carries no name on. -/
theorem readName?_name {name : List Char} (h : isNameOver isIdentifierPart name) {rest : List Char}
    (hrest : EndsName rest) : readName? (name ++ rest) = some (name, rest) := by
  cases name with
  | nil => cases h
  | cons c cs =>
    rw [isNameOver, Bool.and_eq_true, List.all_eq_true] at h
    have hcs : ∀ d ∈ cs, isNamePart d = true := fun d hd =>
      isNamePart_of_isIdentifierPart (h.2 d hd)
    have hstop : rest.takeWhile isNamePart = [] ∧ rest.dropWhile isNamePart = rest := by
      cases rest with
      | nil => exact ⟨rfl, rfl⟩
      | cons d rest =>
        have hd := hrest d rfl
        exact ⟨List.takeWhile_cons_of_neg (by simp [hd]), List.dropWhile_cons_of_neg (by simp [hd])⟩
    rw [List.cons_append, readName?, if_pos h.1, List.span_eq_takeWhile_dropWhile,
      List.takeWhile_append_of_pos hcs, List.dropWhile_append_of_pos hcs, hstop.1, hstop.2,
      List.append_nil]

/-- A name by itself. -/
theorem readName?_self {name : List Char} (h : isNameOver isIdentifierPart name) :
    readName? name = some (name, []) := by
  have hend : EndsName [] := nofun
  simpa using readName?_name h hend

theorem readName?_of_head {cs : List Char} (h : ∀ c ∈ cs.head?, isIdentifierStart c = false) :
    readName? cs = none := by
  cases cs with
  | nil => rfl
  | cons c cs =>
    have hc := h c rfl
    rw [readName?, hc]
    rfl

theorem isWordText_of_isNameOver {cs : List Char} (h : isNameOver isIdentifierPart cs) :
    IsWordText cs := by
  cases cs with
  | nil => cases h
  | cons c cs =>
    rw [isNameOver, Bool.and_eq_true, List.all_eq_true] at h
    exact List.forall_mem_cons.2 ⟨isIdentifierPart_of_isIdentifierStart h.1, h.2⟩

end FluentBuilders
