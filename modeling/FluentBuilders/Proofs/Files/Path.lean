import FluentBuilders.Path
import Mathlib.Data.List.Basic

/-!
# Proofs/Files/Path — paths as they are read and written

A path that was read has names without slashes that say where to go, and such a path is read back
from its text (`ofString_text`).  A text added to a directory adds the names in it: a name as a whole
(`child_of_isName`), and of two texts that begin with different names two different paths
(`child_append_injective`).
-/

namespace FluentBuilders.Path

/-! ## Names -/

/-- **A name of a path**: without slashes, and neither empty nor `.`. -/
def IsName (name : String) : Prop := isStep name = true ∧ '/' ∉ name.toList

instance : DecidablePred IsName := fun _ => inferInstanceAs (Decidable (_ ∧ _))

/-- **A path as it is read**: all its names are names. -/
def IsRead (p : Path) : Prop := ∀ name ∈ p.names, IsName name

instance : DecidablePred IsRead := fun p =>
  inferInstanceAs (Decidable (∀ name ∈ p.names, IsName name))

variable {word cs : List Char} {name : String}

theorem toList_ne_nil (h : IsName name) : name.toList ≠ [] := by
  rintro hnil
  obtain rfl : name = "" := String.toList_inj.1 hnil
  exact absurd h.1 (by decide)

theorem head?_of_isName (h : IsName name) (rest : List Char) :
    (name.toList ++ rest).head? ≠ some '/' := by
  obtain ⟨c, tail, hcs⟩ := List.exists_cons_of_ne_nil (toList_ne_nil h)
  rw [hcs, List.cons_append, List.head?_cons]
  rintro ⟨rfl⟩
  exact h.2 (hcs ▸ List.mem_cons_self)

/-! ## Pieces between slashes -/

theorem pieces_append (h : '/' ∉ cs) (rest : List Char) :
    pieces word (cs ++ rest) = pieces (cs.reverse ++ word) rest := by
  induction cs generalizing word with
  | nil => rfl
  | cons c cs ih =>
    obtain ⟨hc, hcs⟩ := not_or.1 (List.mem_cons.not.1 h)
    rw [List.cons_append, pieces, if_neg (Ne.symm hc), ih hcs, List.reverse_cons,
      List.append_assoc]
    rfl

theorem pieces_of_notMem (h : '/' ∉ cs) : pieces word cs = [String.ofList (word.reverse ++ cs)] := by
  have hpieces : pieces word (cs ++ []) = pieces (cs.reverse ++ word) [] := pieces_append h []
  rw [List.append_nil] at hpieces
  rw [hpieces, pieces, List.reverse_append, List.reverse_reverse]

theorem notMem_of_mem_pieces (hword : '/' ∉ word) : ∀ p ∈ pieces word cs, '/' ∉ p.toList := by
  induction cs generalizing word with
  | nil =>
    rw [pieces]
    simpa using hword
  | cons c cs ih =>
    rw [pieces]
    split
    · refine List.forall_mem_cons.2 ⟨?_, ih List.not_mem_nil⟩
      simpa using hword
    · next hc => exact ih (List.mem_cons.not.2 (not_or.2 ⟨Ne.symm hc, hword⟩))

/-- What was read before a text is the front of its first piece. -/
theorem exists_pieces (cs : List Char) :
    ∃ first others, ∀ word, pieces word cs = String.ofList (word.reverse ++ first) :: others := by
  induction cs with
  | nil => exact ⟨[], [], fun word => by rw [List.append_nil]; rfl⟩
  | cons c cs ih =>
    by_cases hc : c = '/'
    · exact ⟨[], pieces [] cs, fun word => by rw [pieces, if_pos hc, List.append_nil]⟩
    · obtain ⟨first, others, h⟩ := ih
      refine ⟨c :: first, others, fun word => ?_⟩
      rw [pieces, if_neg hc, h, List.reverse_cons, List.append_assoc]
      rfl

theorem isRead_ofString (text : String) : (ofString text).IsRead := by
  intro name hname
  obtain ⟨hmem, hstep⟩ := List.mem_filter.1 hname
  exact ⟨hstep, notMem_of_mem_pieces List.not_mem_nil _ hmem⟩

/-! ## Read back -/

/-- The pieces of names with slashes between them are the names. -/
theorem pieces_intercalate {names : List String} (hne : names ≠ [])
    (h : ∀ name ∈ names, '/' ∉ name.toList) :
    pieces [] (String.intercalate "/" names).toList = names := by
  induction names with
  | nil => exact absurd rfl hne
  | cons name names ih =>
    obtain ⟨hname, hnames⟩ := List.forall_mem_cons.1 h
    cases names with
    | nil =>
      rw [String.intercalate_singleton, pieces_of_notMem hname]
      simp
    | cons other names =>
      have htail := ih (List.cons_ne_nil _ _) hnames
      rw [String.intercalate_cons_cons, String.toList_append, String.toList_append,
        List.append_assoc, pieces_append hname]
      change String.ofList _ :: pieces [] (String.intercalate "/" (other :: names)).toList = _
      rw [htail]
      simp

theorem rootOf_text (root : Root) (h : cs.head? ≠ some '/') :
    rootOf (root.text.toList ++ cs) = root := by
  cases root <;> match cs, h with
    | [], _ => rfl
    | c :: cs, h => simp_all [Root.text, rootOf]

theorem filter_pieces_text (root : Root) (cs : List Char) :
    (pieces [] (root.text.toList ++ cs)).filter isStep = (pieces [] cs).filter isStep := by
  cases root <;> rfl

/-- **A path that was read is read back from its text.** -/
theorem ofString_text {p : Path} (h : p.IsRead) : ofString p.text = p := by
  obtain ⟨root, names⟩ := p
  cases names with
  | nil => cases root <;> decide
  | cons name names =>
    have htext : (Path.mk root (name :: names)).text =
        root.text ++ String.intercalate "/" (name :: names) := by
      cases root <;> rfl
    have hhead : (String.intercalate "/" (name :: names)).toList.head? ≠ some '/' := by
      have hname := head?_of_isName (h name List.mem_cons_self)
      cases names with
      | nil => simpa using hname []
      | cons other names =>
        rw [String.intercalate_cons_cons, String.toList_append, String.toList_append,
          List.append_assoc]
        exact hname _
    rw [htext, ofString, String.toList_append, rootOf_text root hhead, filter_pieces_text,
      pieces_intercalate (List.cons_ne_nil _ _) fun n hn => (h n hn).2,
      List.filter_eq_self.2 fun n hn => (h n hn).1]

theorem text_ne_empty {p : Path} (h : p.IsRead) : p.text ≠ "" := by
  intro htext
  have hread := ofString_text h
  rw [htext] at hread
  exact absurd htext (hread ▸ by decide)

/-! ## Added to a directory -/

/-- **A text that begins with a name**: the first name of its path is that and what follows it up to
a slash, unless this is `.`. -/
theorem exists_child_append (p : Path) (rest : String) :
    ∃ first others, ∀ name, IsName name → name.toList.head? ≠ some '.' →
      p.child (name ++ rest) = { p with names := p.names ++ (name ++ first) :: others } := by
  obtain ⟨first, others, hpieces⟩ := exists_pieces rest.toList
  refine ⟨String.ofList first, others.filter isStep, fun name hname hdot => ?_⟩
  have hstep : isStep (name ++ String.ofList first) = true := by
    obtain ⟨c, tail, hcs⟩ := List.exists_cons_of_ne_nil (toList_ne_nil hname)
    have hc : c ≠ '.' := by
      rintro rfl
      exact hdot (by rw [hcs]; rfl)
    simp [isStep, ← String.toList_inj, hcs, hc]
  have hnames : (pieces [] (name ++ rest).toList).filter isStep =
      (name ++ String.ofList first) :: others.filter isStep := by
    have hfirst : String.ofList (name.toList ++ first) = name ++ String.ofList first := by
      simp
    rw [String.toList_append, pieces_append hname.2, hpieces, List.append_nil, List.reverse_reverse,
      hfirst, List.filter_cons_of_pos hstep]
  have hroot : rootOf (name ++ rest).toList = .relative := by
    rw [String.toList_append]
    exact rootOf_text .relative (head?_of_isName hname _)
  rw [child, ofString, hroot, hnames]
  rfl

/-- Texts that begin with different names, and go on alike, lead to different paths. -/
theorem child_append_injective {p : Path} {name other rest : String} (hname : IsName name)
    (hother : IsName other) (hdot : name.toList.head? ≠ some '.')
    (hdot' : other.toList.head? ≠ some '.')
    (h : p.child (name ++ rest) = p.child (other ++ rest)) : name = other := by
  obtain ⟨first, others, hchild⟩ := exists_child_append p rest
  rw [hchild name hname hdot, hchild other hother hdot'] at h
  have hnames := List.append_cancel_left (Path.mk.inj h).2
  exact (String.append_left_inj first).1 (List.cons.inj hnames).1

/-- **A name is added as a whole.** -/
theorem child_of_isName (p : Path) (h : IsName name) :
    p.child name = { p with names := p.names ++ [name] } := by
  have hnames : (pieces [] name.toList).filter isStep = [name] := by
    rw [pieces_of_notMem h.2]
    simpa using h.1
  have hroot : rootOf name.toList = .relative := by
    have := rootOf_text .relative (head?_of_isName h [])
    rwa [List.append_nil] at this
  rw [child, ofString, hroot, hnames]
  rfl

end FluentBuilders.Path
