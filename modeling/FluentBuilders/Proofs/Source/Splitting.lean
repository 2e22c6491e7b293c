import FluentBuilders.Proofs.Text.Blank
import FluentBuilders.Source.ObjectBody
import Mathlib.Data.List.Forall2

/-!
# Proofs/Source/Splitting — cutting a text loses nothing of it

A text that is cut at separators comes back when its parts are joined by the separators that were
found (`joined_splitTopLevel`).  The chunks of an object body stand in it one after the other, and
what they leave out is blank, or a separator that the body was cut at (`spaced_groupLines`).
-/

namespace FluentBuilders

open Piece

/-! ## Cutting at separators -/

namespace Split

variable {s : Split}

@[simp] theorem joined_prepend (cs : List Char) (s : Split) :
    (s.prepend cs).joined = cs ++ s.joined := List.append_assoc _ _ _

@[simp] theorem others_prepend (cs : List Char) (s : Split) : (s.prepend cs).others = s.others := rfl

@[simp] theorem joined_cut (c : Char) (s : Split) : (s.cut c).joined = c :: s.joined := by
  simp [joined, cut]

/-- Parts between line breaks are lines. -/
theorem joinLines_parts (h : ∀ p ∈ s.others, p.1 = '\n') : joinLines s.parts = s.joined := by
  obtain ⟨first, others⟩ := s
  rw [parts, joined, joinLines]
  induction others generalizing first with
  | nil => simp [List.intercalate]
  | cons p others ih =>
    obtain ⟨c, part⟩ := p
    obtain ⟨rfl, hrest⟩ := List.forall_mem_cons.1 h
    have hothers := ih part hrest
    dsimp only at hothers ⊢
    rw [List.map_cons, List.intercalate_cons_cons, hothers, List.flatMap_cons]
    simp

end Split

section

variable {angles afterEquals : Bool} {separators : List Char} {depth : Int}

/-- **Nothing is lost in cutting**: the pieces come back from the parts and the separators. -/
theorem joined_splitFrom (ps : List Piece) :
    (splitFrom angles separators depth afterEquals ps).joined = textOf ps := by
  induction ps generalizing depth afterEquals with
  | nil => rfl
  | cons p ps ih =>
    rw [splitFrom.eq_def, textOf, List.flatMap_cons, ← textOf]
    cases hp : Bracket.ofPiece angles afterEquals p with
    | opens => simp only [hp, Split.joined_prepend, ih]
    | closes => simp only [hp, Split.joined_prepend, ih]
    | none =>
      cases p with
      | literal text => simp only [hp, Split.joined_prepend, ih, Piece.text]
      | char c =>
        simp only [hp]
        split
        · rw [Split.joined_cut, ih]
          rfl
        · rw [Split.joined_prepend, ih, Piece.text]

theorem joined_splitTopLevel (text : List Char) :
    (splitTopLevel angles separators text).joined = text :=
  (joined_splitFrom _).trans (textOf_pieces text)

/-- What a text is cut at are separators. -/
theorem mem_separators_splitFrom (ps : List Piece) :
    ∀ p ∈ (splitFrom angles separators depth afterEquals ps).others, p.1 ∈ separators := by
  induction ps generalizing depth afterEquals with
  | nil => exact List.forall_mem_nil _
  | cons p ps ih =>
    rw [splitFrom.eq_def]
    cases hp : Bracket.ofPiece angles afterEquals p with
    | opens => simpa only [hp, Split.others_prepend] using ih
    | closes => simpa only [hp, Split.others_prepend] using ih
    | none =>
      cases p with
      | literal text => simpa only [hp, Split.others_prepend] using ih
      | char c =>
        simp only [hp]
        split
        · next hcut => exact List.forall_mem_cons.2 ⟨List.contains_iff_mem.1 hcut.2.1, ih⟩
        · exact ih

theorem mem_separators_splitTopLevel (text : List Char) :
    ∀ p ∈ (splitTopLevel angles separators text).others, p.1 ∈ separators :=
  mem_separators_splitFrom _

end

/-- The lines of a text are the text. -/
theorem joinLines_splitFrom (angles : Bool) (depth : Int) (afterEquals : Bool) (ps : List Piece) :
    joinLines (splitFrom angles ['\n'] depth afterEquals ps).parts = textOf ps := by
  rw [Split.joinLines_parts fun p hp => List.mem_singleton.1 (mem_separators_splitFrom ps p hp),
    joined_splitFrom]

theorem joinLines_splitTopLevel (angles : Bool) (text : List Char) :
    joinLines (splitTopLevel angles ['\n'] text).parts = text :=
  (joinLines_splitFrom ..).trans (textOf_pieces text)

/-! ## Chunks between blanks -/

/-- **Chunks of a text**: one after the other, none of them blank at its ends, and nothing but blanks
before, between and after them. -/
inductive Spaced : List (List Char) → List Char → Prop
  | blanks {gap : List Char} (hgap : Text.AllBlank gap) : Spaced [] gap
  | chunk {gap chunk rest : List Char} {chunks : List (List Char)} (hgap : Text.AllBlank gap)
      (hchunk : chunk ≠ []) (htrim : Text.trim chunk = chunk) (hrest : Spaced chunks rest) :
      Spaced (chunk :: chunks) (gap ++ (chunk ++ rest))

section

variable {chunks : List (List Char)} {gap text : List Char}

/-- More blanks before the chunks. -/
theorem Spaced.blank_append (hgap : Text.AllBlank gap) (h : Spaced chunks text) :
    Spaced chunks (gap ++ text) := by
  cases h with
  | blanks hgap' => exact .blanks (List.forall_mem_append.2 ⟨hgap, hgap'⟩)
  | chunk hgap' hchunk htrim hrest =>
    rw [← List.append_assoc]
    exact .chunk (List.forall_mem_append.2 ⟨hgap, hgap'⟩) hchunk htrim hrest

/-- **What trimming takes away is blank.** -/
theorem exists_trim (text : List Char) : ∃ before after, Text.AllBlank before ∧
    Text.AllBlank after ∧ text = before ++ (Text.trim text ++ after) := by
  obtain ⟨after, hafter, htext⟩ := Text.exists_trimEnd_append (Text.trimStart text)
  refine ⟨text.takeWhile Text.isBlank, after, fun c hc => List.mem_takeWhile_imp hc, hafter, ?_⟩
  rw [Text.trim, ← htext, Text.trimStart, List.takeWhile_append_dropWhile]

theorem trim_trim (text : List Char) : Text.trim (Text.trim text) = Text.trim text := by
  obtain ⟨before, after, hbefore, hafter, htext⟩ := exists_trim text
  conv_rhs => rw [htext, Text.trim_blank_append hbefore, Text.trim_append_blank hafter]

/-- A text that is not blank is a chunk of itself. -/
theorem spaced_trim (h : Text.trim text ≠ []) {rest : List Char} (hrest : Spaced chunks rest) :
    Spaced (Text.trim text :: chunks) (text ++ rest) := by
  obtain ⟨before, after, hbefore, hafter, htext⟩ := exists_trim text
  have hspaced : Spaced (Text.trim text :: chunks)
      (before ++ (Text.trim text ++ (after ++ rest))) :=
    .chunk hbefore h (trim_trim text) (hrest.blank_append hafter)
  rwa [← List.append_assoc (Text.trim text), ← List.append_assoc before, ← htext] at hspaced

/-- A text that could end somewhere is not blank. -/
theorem trim_ne_nil_of_isComplete (h : isComplete text = true) : Text.trim text ≠ [] := by
  intro hblank
  obtain ⟨before, after, hbefore, hafter, htext⟩ := exists_trim text
  rw [hblank, List.nil_append] at htext
  have hall : Text.AllBlank text := htext ▸ List.forall_mem_append.2 ⟨hbefore, hafter⟩
  have hend : Text.trimEnd text = [] := by
    rw [← List.nil_append text, Text.trimEnd_append hall]
    rfl
  rw [isComplete, hend] at h
  cases h

end

/-! ## The chunks of a body -/

theorem joinLines_cons (line : List Char) {lines : List (List Char)} (h : lines ≠ []) :
    joinLines (line :: lines) = line ++ '\n' :: joinLines lines := by
  obtain ⟨next, lines, rfl⟩ := List.exists_cons_of_ne_nil h
  simp [joinLines, List.intercalate]

theorem joinLines_append {lines others : List (List Char)} (h : lines ≠ []) (line : List Char) :
    joinLines (lines ++ line :: others) = joinLines lines ++ '\n' :: joinLines (line :: others) := by
  induction lines with
  | nil => exact absurd rfl h
  | cons first lines ih =>
    rw [List.cons_append, joinLines_cons _ (by simp)]
    cases lines with
    | nil => simp [joinLines]
    | cons second lines =>
      rw [ih (List.cons_ne_nil second lines), joinLines_cons _ (List.cons_ne_nil second lines)]
      simp

/-- **Lines are put together to chunks without a loss**, those that have been read included. -/
theorem spaced_groupLines (lines current : List (List Char)) :
    Spaced (groupLines current lines) (joinLines (current ++ lines)) := by
  induction lines generalizing current with
  | nil =>
    rw [List.append_nil, groupLines]
    split
    · next hblank =>
      obtain ⟨before, after, hbefore, hafter, htext⟩ := exists_trim (joinLines current)
      rw [List.isEmpty_iff.1 hblank, List.nil_append] at htext
      rw [htext]
      exact .blanks (List.forall_mem_append.2 ⟨hbefore, hafter⟩)
    · next hblank =>
      rw [List.isEmpty_iff] at hblank
      simpa using spaced_trim hblank (.blanks (List.forall_mem_nil _))
  | cons line lines ih =>
    rw [groupLines]
    split
    · next hstarts =>
      simp only [Bool.and_eq_true, Bool.not_eq_true', List.isEmpty_eq_false_iff] at hstarts
      obtain ⟨⟨hcurrent, -⟩, hcomplete⟩ := hstarts
      have hbreak : Text.AllBlank ['\n'] := by
        intro c hc
        rw [List.mem_singleton.1 hc]
        rfl
      rw [joinLines_append hcurrent]
      exact spaced_trim (trim_ne_nil_of_isComplete hcomplete) ((ih [line]).blank_append hbreak)
    · have hlines := ih (current ++ [line])
      rwa [List.append_assoc, List.singleton_append] at hlines

/-- **Splitting loses no text.**  The parts that a text is cut into, joined by the separators that it
was cut at, are the text.  In each part that an object body is cut into at semicolons and commas,
its chunks stand in order, and all that they leave out of it is blank. -/
theorem splitting_loses_nothing :
    (∀ (angles : Bool) (separators text : List Char),
      (splitTopLevel angles separators text).joined = text ∧
        ∀ p ∈ (splitTopLevel angles separators text).others, p.1 ∈ separators) ∧
      ∀ body : List Char, ∃ groups : List (List (List Char)),
        splitMembers body = groups.flatten ∧
          List.Forall₂ Spaced groups (splitTopLevel true [';', ','] body).parts := by
  refine ⟨fun angles separators text =>
    ⟨joined_splitTopLevel text, mem_separators_splitTopLevel text⟩, fun body => ?_⟩
  refine ⟨(splitTopLevel true [';', ','] body).parts.map fun part =>
    groupLines [] (splitTopLevel true ['\n'] part).parts, List.flatMap_def, ?_⟩
  rw [List.forall₂_map_left_iff, List.forall₂_same]
  intro part _
  have hspaced := spaced_groupLines (splitTopLevel true ['\n'] part).parts []
  rwa [List.nil_append, joinLines_splitTopLevel] at hspaced

/-- A body with separators in a literal and in brackets, members on lines, and an empty member. -/
theorem splitting_loses_nothing_mixed :
    let body := "a: ';'\nb: \x7b x; y \x7d,, c".toList
    let s := splitTopLevel true [';', ','] body
    (',', " c".toList) ∈ s.others ∧ ',' ∈ [';', ','] ∧ s.joined = body ∧
      ∃ groups, splitMembers body = groups.flatten ∧ List.Forall₂ Spaced groups s.parts := by
  intro body s
  have hcut : (',', " c".toList) ∈ s.others := by decide +kernel
  obtain ⟨hjoined, hseparators⟩ := splitting_loses_nothing.1 true [';', ','] body
  exact ⟨hcut, hseparators _ hcut, hjoined, splitting_loses_nothing.2 body⟩

end FluentBuilders
