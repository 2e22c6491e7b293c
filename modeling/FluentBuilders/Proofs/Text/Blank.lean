import FluentBuilders.Text.Blank
import FluentBuilders.Text.Identifier
import FluentBuilders.Syntax.Token
import Mathlib.Data.List.TakeDrop
import Mathlib.Data.List.TakeWhile

/-!
# Proofs/Text/Blank — blanks, and what trimming leaves

The blanks that can stand between tokens are blank (`isBlank_of_isLayout`); letters, digits and the
other characters of names and numbers are not.  Trimming takes a run of blanks off an end of a text,
and stops at the first character that is none (`trimStart_append`, `trimEnd_append`).
-/

namespace FluentBuilders.Text

/-! ## Characters of a text

What is asked of the characters of a text is decided by going through the text, never through all
characters there are. -/

instance (priority := high) decidableForallMem {p : Char → Prop} [DecidablePred p]
    (cs : List Char) : Decidable (∀ c ∈ cs, p c) :=
  List.decidableBAll p cs

instance (priority := high) decidableExistsMem {p : Char → Prop} [DecidablePred p]
    (cs : List Char) : Decidable (∃ c ∈ cs, p c) :=
  List.decidableBEx p cs

instance (priority := high) decidableForallMemOption {p : Char → Prop} [DecidablePred p]
    (o : Option Char) : Decidable (∀ c ∈ o, p c) :=
  Option.decidableForallMem o

instance (priority := high) decidableExistsMemOption {p : Char → Prop} [DecidablePred p]
    (o : Option Char) : Decidable (∃ c ∈ o, p c) :=
  Option.decidableExistsMem o

/-! ## Blank characters -/

/-- The code points of the blank characters. -/
def blankCodes : List Nat :=
  [9, 10, 11, 12, 13, 28, 29, 30, 31, 32, 0x85, 0xA0, 0x1680, 0x2000, 0x2001, 0x2002, 0x2003,
  0x2004, 0x2005, 0x2006, 0x2007, 0x2008, 0x2009, 0x200A, 0x2028, 0x2029, 0x202F, 0x205F, 0x3000]

theorem mem_blankCodes {c : Char} (h : isBlank c = true) : c.toNat ∈ blankCodes := by
  simp only [isBlank, isWhiteSpace, Bool.or_eq_true, Bool.and_eq_true, decide_eq_true_eq,
    beq_iff_eq] at h
  simp only [blankCodes, List.mem_cons, List.not_mem_nil, or_false]
  omega

theorem isBlank_of_isLayout {c : Char} (h : Token.isLayout c = true) : isBlank c = true := by
  simp only [Token.isLayout, Bool.or_eq_true, beq_iff_eq] at h
  rcases h with (((rfl | rfl) | rfl) | rfl) | rfl <;> rfl

/-- A character is no blank when its code is none of theirs. -/
theorem isBlank_eq_false_of_codes {p : Char → Bool} {c : Char} (h : p c = true)
    (hcodes : ∀ n ∈ blankCodes, ∀ d : Char, d.toNat = n → p d = false) : isBlank c = false := by
  by_contra hblank
  rw [Bool.not_eq_false] at hblank
  have := hcodes _ (mem_blankCodes hblank) c rfl
  rw [h] at this
  cases this

theorem char_eq_ofNat {c : Char} {n : Nat} (h : c.toNat = n) : c = Char.ofNat n := by
  rw [← h, Char.ofNat_toNat]

theorem isBlank_eq_false_of_isDecimalDigit {c : Char} (h : isDecimalDigit c = true) :
    isBlank c = false := by
  refine isBlank_eq_false_of_codes h fun n hn d hd => ?_
  rw [char_eq_ofNat hd]
  clear hd
  revert n
  decide +kernel

theorem isBlank_eq_false_of_isIdentifierPart {c : Char} (h : isIdentifierPart c = true) :
    isBlank c = false := by
  refine isBlank_eq_false_of_codes h fun n hn d hd => ?_
  rw [char_eq_ofNat hd]
  clear hd
  revert n
  decide +kernel

theorem isNamePart_eq_false_of_isLayout {c : Char} (h : Token.isLayout c = true) :
    isNamePart c = false := by
  simp only [Token.isLayout, Bool.or_eq_true, beq_iff_eq] at h
  rcases h with (((rfl | rfl) | rfl) | rfl) | rfl <;> decide

theorem toNat_lt_of_isIdentifierPart {c : Char} (h : isIdentifierPart c = true) : c.toNat < 128 := by
  simp only [isIdentifierPart, isIdentifierStart, isLatin, isArabicDigit, Bool.or_eq_true,
    Bool.and_eq_true, decide_eq_true_eq, beq_iff_eq] at h
  rcases h with (((⟨-, h⟩ | ⟨-, h⟩) | rfl) | rfl) | ⟨-, h⟩
  · exact Nat.lt_of_le_of_lt (show c.toNat ≤ 'z'.toNat from h) (by decide)
  · exact Nat.lt_of_le_of_lt (show c.toNat ≤ 'Z'.toNat from h) (by decide)
  · decide
  · decide
  · exact Nat.lt_of_le_of_lt (show c.toNat ≤ '9'.toNat from h) (by decide)

theorem isNamePart_of_isIdentifierPart {c : Char} (h : isIdentifierPart c = true) :
    isNamePart c = true := by
  have hlow := toNat_lt_of_isIdentifierPart h
  simp only [isIdentifierPart, isIdentifierStart, Bool.or_eq_true, beq_iff_eq] at h
  simp only [isNamePart, isWord, isAlphanumeric, if_pos hlow, Bool.or_eq_true, beq_iff_eq]
  tauto

theorem isIdentifierPart_of_isIdentifierStart {c : Char} (h : isIdentifierStart c = true) :
    isIdentifierPart c = true := by
  simp [isIdentifierPart, h]

/-! ## Trimming -/

/-- A text of blanks. -/
def AllBlank (cs : List Char) : Prop := ∀ c ∈ cs, isBlank c = true

theorem trimStart_append {gap : List Char} (h : AllBlank gap) (cs : List Char) :
    trimStart (gap ++ cs) = trimStart cs := by
  rw [trimStart, List.dropWhile_append_of_pos h]
  rfl

theorem trimStart_cons {c : Char} (h : isBlank c = false) (cs : List Char) :
    trimStart (c :: cs) = c :: cs := List.dropWhile_cons_of_neg (by simp [h])

theorem trimStart_of_head {cs : List Char} (h : ∀ c ∈ cs.head?, isBlank c = false) :
    trimStart cs = cs := by
  cases cs with
  | nil => rfl
  | cons c cs => exact trimStart_cons (h c rfl) cs

theorem trimStart_eq_nil {gap : List Char} (h : AllBlank gap) : trimStart gap = [] := by
  simpa [trimStart] using trimStart_append h []

theorem trimEnd_append {gap : List Char} (h : AllBlank gap) (cs : List Char) :
    trimEnd (cs ++ gap) = trimEnd cs := by
  have hrev : ∀ c ∈ gap.reverse, isBlank c = true := fun c hc => h c (List.mem_reverse.1 hc)
  rw [trimEnd, List.reverse_append, List.dropWhile_append_of_pos hrev]
  rfl

theorem trimEnd_of_getLast {cs : List Char} (h : ∀ c ∈ cs.getLast?, isBlank c = false) :
    trimEnd cs = cs := by
  have hhead : ∀ c ∈ cs.reverse.head?, isBlank c = false := by
    rwa [List.head?_reverse]
  rw [trimEnd, show cs.reverse.dropWhile isBlank = cs.reverse from trimStart_of_head hhead,
    List.reverse_reverse]

/-- **What trimming leaves at the end** is a text up to a run of blanks. -/
theorem exists_trimEnd_append (cs : List Char) :
    ∃ gap, AllBlank gap ∧ cs = trimEnd cs ++ gap := by
  refine ⟨(cs.reverse.takeWhile isBlank).reverse, ?_, ?_⟩
  · intro c hc
    exact List.mem_takeWhile_imp (List.mem_reverse.1 hc)
  · rw [trimEnd, ← List.reverse_append, List.takeWhile_append_dropWhile, List.reverse_reverse]

theorem getLast?_trimEnd {cs : List Char} {c : Char} (h : c ∈ (trimEnd cs).getLast?) :
    isBlank c = false := by
  rw [trimEnd, List.getLast?_reverse] at h
  have := List.head?_dropWhile_not isBlank cs.reverse
  rw [Option.mem_def.1 h] at this
  simpa using this

/-- A text that ends in a character that is no blank keeps it, whatever blanks follow. -/
theorem trimEnd_append_gap {cs gap : List Char} (hcs : ∀ c ∈ cs.getLast?, isBlank c = false)
    (h : AllBlank gap) : trimEnd (cs ++ gap) = cs := by
  rw [trimEnd_append h, trimEnd_of_getLast hcs]

theorem trim_append_blank {gap : List Char} (h : AllBlank gap) (cs : List Char) :
    trim (cs ++ gap) = trim cs := by
  by_cases hcs : trimStart cs = []
  · have hall : AllBlank cs := List.dropWhile_eq_nil_iff.1 hcs
    rw [trim, trim, trimStart_append hall, hcs, trimStart_eq_nil h]
  · have : trimStart (cs ++ gap) = trimStart cs ++ gap := by
      rw [trimStart, List.dropWhile_append, if_neg]
      · rfl
      · rw [List.isEmpty_iff]
        exact hcs
    rw [trim, trim, this, trimEnd_append h]

theorem trim_blank_append {gap : List Char} (h : AllBlank gap) (cs : List Char) :
    trim (gap ++ cs) = trim cs := by
  rw [trim, trim, trimStart_append h]

theorem trim_eq_self {cs : List Char} (hhead : ∀ c ∈ cs.head?, isBlank c = false)
    (hlast : ∀ c ∈ cs.getLast?, isBlank c = false) : trim cs = cs := by
  rw [trim, trimStart_of_head hhead, trimEnd_of_getLast hlast]

/-- A text that begins with no blank loses nothing but blanks at its end. -/
theorem trimEnd_ne_nil {cs : List Char} (hne : cs ≠ [])
    (hhead : ∀ c ∈ cs.head?, isBlank c = false) : trimEnd cs ≠ [] := by
  intro hnil
  obtain ⟨gap, hgap, hcs⟩ := exists_trimEnd_append cs
  rw [hnil, List.nil_append] at hcs
  obtain ⟨c, rest, rfl⟩ := List.exists_cons_of_ne_nil hne
  have := hhead c rfl
  rw [hgap c (by rw [← hcs]; exact List.mem_cons_self)] at this
  cases this

theorem head?_trimEnd {cs : List Char} (hne : cs ≠ [])
    (hhead : ∀ c ∈ cs.head?, isBlank c = false) : (trimEnd cs).head? = cs.head? := by
  obtain ⟨gap, -, hcs⟩ := exists_trimEnd_append cs
  obtain ⟨c, rest, hkept⟩ := List.exists_cons_of_ne_nil (trimEnd_ne_nil hne hhead)
  rw [hkept] at hcs ⊢
  rw [hcs]
  rfl

end FluentBuilders.Text
