import FluentBuilders.Resolve.Scope
import Mathlib.Logic.Relation

/-!
# Proofs/Resolve/Walks — two depth-first walks, and why they meet the same names first

A **depth-first walk** (`depthFirst`) visits each name once.  A **walk along paths** (`pathWalk`)
only refuses the names on the path that it came by: it is cut where a path closes a cycle, and
repeats what several paths lead to.  Names that are visited and left for good lead nowhere new
(`Settled`), so such a repetition meets no name for the first time: in both walks the names come
first in the same order (`depthFirst_eq_addNew`).
-/

namespace FluentBuilders

/-- There are fewer names left to visit once one more has been visited, wherever it is noted. -/
theorem unvisited_concat_lt {names visited : List String} {name : String} (hmem : name ∈ names)
    (hnew : name ∉ visited) : unvisited names (visited ++ [name]) < unvisited names visited := by
  have hsame : unvisited names (visited ++ [name]) = unvisited names (name :: visited) := by
    unfold unvisited
    congr 2
    funext n
    simp [Bool.or_comm]
  rw [hsame]
  exact unvisited_cons_lt hmem hnew

variable (vertices : List String) (next : String → List String)

/-- **The depth-first walk** from a stack of names: the names that had been visited, and the ones it
visits, in order. -/
def depthFirst (visited : List String) : List String → List String
  | [] => visited
  | name :: stack =>
    if name ∈ vertices ∧ name ∉ visited then depthFirst (visited ++ [name]) (next name ++ stack)
    else depthFirst visited stack
termination_by stack => (unvisited vertices visited, stack.length)
decreasing_by
  · next h => exact Prod.Lex.left _ _ (unvisited_concat_lt h.1 h.2)
  · exact Prod.Lex.right _ (Nat.lt_succ_self _)

/-- **The walk along paths** from several names, all at the end of one path. -/
def pathWalk (path : List String) : List String → List String
  | [] => []
  | name :: names =>
    if name ∈ vertices ∧ name ∉ path then
      name :: pathWalk (name :: path) (next name) ++ pathWalk path names
    else pathWalk path names
termination_by names => (unvisited vertices path, names.length)
decreasing_by
  · next h => exact Prod.Lex.left _ _ (unvisited_cons_lt h.1 h.2)
  · exact Prod.Lex.right _ (Nat.lt_succ_self _)
  · exact Prod.Lex.right _ (Nat.lt_succ_self _)

/-- Visited names, and those of a walk that are new, each where it comes first. -/
def addNew (visited names : List String) : List String :=
  names.foldl (fun visited name => if name ∈ visited then visited else visited ++ [name]) visited

/-- **Names that are settled**: all that follows a visited name off the path has been visited. -/
def Settled (path visited : List String) : Prop :=
  ∀ name ∈ visited, name ∉ path → ∀ n ∈ next name, n ∈ vertices → n ∈ visited

/-- **A name leads to another** that follows it. -/
def LeadsTo (name n : String) : Prop := n ∈ next name ∧ n ∈ vertices

variable {vertices next} {path visited names : List String} {name : String}

/-! ## New names -/

theorem addNew_cons_of_mem (h : name ∈ visited) :
    addNew visited (name :: names) = addNew visited names := by
  rw [addNew, List.foldl_cons, if_pos h, addNew]

theorem addNew_cons_of_notMem (h : name ∉ visited) :
    addNew visited (name :: names) = addNew (visited ++ [name]) names := by
  rw [addNew, List.foldl_cons, if_neg h, addNew]

theorem addNew_append (more : List String) :
    addNew visited (names ++ more) = addNew (addNew visited names) more :=
  List.foldl_append

/-- Names that are all visited add nothing. -/
theorem addNew_of_subset (h : ∀ n ∈ names, n ∈ visited) : addNew visited names = visited := by
  induction names with
  | nil => rfl
  | cons n names ih =>
    obtain ⟨hn, hnames⟩ := List.forall_mem_cons.1 h
    rw [addNew_cons_of_mem hn, ih hnames]

theorem mem_addNew : name ∈ addNew visited names ↔ name ∈ visited ∨ name ∈ names := by
  induction names generalizing visited with
  | nil => simp [addNew]
  | cons n names ih =>
    by_cases h : n ∈ visited
    · rw [addNew_cons_of_mem h, ih, List.mem_cons]
      grind
    · rw [addNew_cons_of_notMem h, ih, List.mem_append, List.mem_singleton, List.mem_cons, or_assoc]

/-! ## Walking again -/

/-- **Where names are settled, walking again leads nowhere new.** -/
theorem pathWalk_subset (h : Settled vertices next path visited)
    (hnames : ∀ n ∈ names, n ∈ vertices → n ∈ visited) :
    ∀ n ∈ pathWalk vertices next path names, n ∈ visited := by
  induction path, names using pathWalk.induct vertices next with
  | case1 path =>
    rw [pathWalk]
    exact List.forall_mem_nil _
  | case2 path name names hnew ihnext ihnames =>
    obtain ⟨hname, hnames⟩ := List.forall_mem_cons.1 hnames
    have hvisited : name ∈ visited := hname hnew.1
    have hdeeper : Settled vertices next (name :: path) visited := fun n hn hoff =>
      h n hn fun hpath => hoff (List.mem_cons_of_mem _ hpath)
    rw [pathWalk, if_pos hnew]
    exact List.forall_mem_append.2 ⟨List.forall_mem_cons.2
      ⟨hvisited, ihnext hdeeper (h name hvisited hnew.2)⟩, ihnames h hnames⟩
  | case3 path name names hold ih =>
    rw [pathWalk, if_neg hold]
    exact ih h (List.forall_mem_cons.1 hnames).2

/-- **Both walks meet the same names first**: from names above a stack, the depth-first walk visits
the new names of the walk along paths, which leaves them settled, and goes on with the stack. -/
theorem depthFirst_append (names stack : List String) (h : Settled vertices next path visited)
    (hpath : ∀ n ∈ path, n ∈ visited) :
    let after := addNew visited (pathWalk vertices next path names)
    depthFirst vertices next visited (names ++ stack) = depthFirst vertices next after stack ∧
      Settled vertices next path after ∧ ∀ n ∈ names, n ∈ vertices → n ∈ after := by
  induction path, names using pathWalk.induct vertices next generalizing visited stack with
  | case1 path =>
    rw [pathWalk]
    exact ⟨rfl, h, List.forall_mem_nil _⟩
  | case2 path name names hnew ihnext ihnames =>
    rw [pathWalk, if_pos hnew]
    by_cases hvisited : name ∈ visited
    · -- The name has been left for good, or it would be on the path: walking it again adds nothing.
      have hagain : ∀ n ∈ name :: pathWalk vertices next (name :: path) (next name), n ∈ visited := by
        refine List.forall_mem_cons.2 ⟨hvisited, pathWalk_subset ?_ (h name hvisited hnew.2)⟩
        exact fun n hn hoff => h n hn fun hpath => hoff (List.mem_cons_of_mem _ hpath)
      obtain ⟨hwalk, hsettled, hmem⟩ := ihnames stack h hpath
      rw [addNew_append, addNew_of_subset hagain, List.cons_append, depthFirst,
        if_neg fun hname => hname.2 hvisited]
      refine ⟨hwalk, hsettled, List.forall_mem_cons.2 ⟨fun _ => ?_, hmem⟩⟩
      exact mem_addNew.2 (.inl hvisited)
    · have hstart : Settled vertices next (name :: path) (visited ++ [name]) := by
        intro n hn hoff m hm hvertex
        rcases List.mem_append.1 hn with hn | hn
        · have := h n hn (fun hpath => hoff (List.mem_cons_of_mem _ hpath)) m hm hvertex
          exact List.mem_append_left _ this
        · exact absurd (List.mem_cons.2 (.inl (List.mem_singleton.1 hn))) hoff
      have hpath' : ∀ n ∈ name :: path, n ∈ visited ++ [name] :=
        List.forall_mem_cons.2 ⟨List.mem_concat_self, fun n hn => List.mem_append_left _ (hpath n hn)⟩
      obtain ⟨hwalk, hsettled, hmem⟩ := ihnext (names ++ stack) hstart hpath'
      have hkept : ∀ n ∈ visited ++ [name], n ∈ addNew (visited ++ [name])
          (pathWalk vertices next (name :: path) (next name)) := fun n hn => mem_addNew.2 (.inl hn)
      rw [List.cons_append, addNew_cons_of_notMem hvisited, addNew_append, List.cons_append,
        depthFirst, if_pos ⟨hnew.1, hvisited⟩, hwalk]
      generalize addNew (visited ++ [name]) (pathWalk vertices next (name :: path) (next name)) =
        between at hsettled hmem hkept
      have hleft : Settled vertices next path between := by
        intro n hn hoff
        by_cases heq : n = name
        · exact heq ▸ hmem
        · exact hsettled n hn fun hon => (List.mem_cons.1 hon).elim heq hoff
      obtain ⟨hwalk', hsettled', hmem'⟩ := ihnames stack hleft
        fun n hn => hkept n (List.mem_append_left _ (hpath n hn))
      refine ⟨hwalk', hsettled', List.forall_mem_cons.2 ⟨fun _ => ?_, hmem'⟩⟩
      exact mem_addNew.2 (.inl (hkept _ List.mem_concat_self))
  | case3 path name names hold ih =>
    obtain ⟨hwalk, hsettled, hmem⟩ := ih stack h hpath
    have hskip : ¬ (name ∈ vertices ∧ name ∉ visited) := fun hname =>
      hold ⟨hname.1, fun hon => hname.2 (hpath name hon)⟩
    rw [pathWalk, if_neg hold, List.cons_append, depthFirst, if_neg hskip]
    refine ⟨hwalk, hsettled, List.forall_mem_cons.2 ⟨fun hvertex => ?_, hmem⟩⟩
    refine Decidable.byContradiction fun hnot => hold ⟨hvertex, fun hon => hnot ?_⟩
    exact mem_addNew.2 (.inl (hpath name hon))

/-- **The depth-first walk from a name** visits what the walk along paths does, each name where it
comes first. -/
theorem depthFirst_eq_addNew (name : String) :
    depthFirst vertices next [] [name] = addNew [] (pathWalk vertices next [] [name]) := by
  have hnone : Settled vertices next [] [] := fun _ hn => nomatch hn
  have hwalk := (depthFirst_append [name] [] hnone (List.forall_mem_nil _)).1
  rwa [List.append_nil, depthFirst] at hwalk

/-! ## Names that are reached -/

/-- A walk along paths meets no names but those that it is led to. -/
theorem exists_leadsTo_of_mem_pathWalk {n : String} (h : n ∈ pathWalk vertices next path names) :
    ∃ name ∈ names, name ∈ vertices ∧ Relation.ReflTransGen (LeadsTo vertices next) name n := by
  induction path, names using pathWalk.induct vertices next with
  | case1 path =>
    rw [pathWalk] at h
    cases h
  | case2 path name names hnew ihnext ihnames =>
    rw [pathWalk, if_pos hnew, List.cons_append, List.mem_cons, List.mem_append] at h
    rcases h with rfl | h | h
    · exact ⟨n, List.mem_cons_self, hnew.1, .refl⟩
    · obtain ⟨m, hm, hvertex, hleads⟩ := ihnext h
      exact ⟨name, List.mem_cons_self, hnew.1, .head ⟨hm, hvertex⟩ hleads⟩
    · obtain ⟨m, hm, hleads⟩ := ihnames h
      exact ⟨m, List.mem_cons_of_mem _ hm, hleads⟩
  | case3 path name names hold ih =>
    rw [pathWalk, if_neg hold] at h
    obtain ⟨m, hm, hleads⟩ := ih h
    exact ⟨m, List.mem_cons_of_mem _ hm, hleads⟩

/-- **The depth-first walk visits what a name leads to**, and nothing else. -/
theorem mem_depthFirst {n : String} (hname : name ∈ vertices) :
    n ∈ depthFirst vertices next [] [name] ↔
      Relation.ReflTransGen (LeadsTo vertices next) name n := by
  have hnone : Settled vertices next [] [] := fun _ hn => nomatch hn
  obtain ⟨-, hsettled, hstart⟩ := depthFirst_append [name] [] hnone (List.forall_mem_nil _)
  rw [depthFirst_eq_addNew]
  constructor
  · intro hn
    have hwalked := (mem_addNew.1 hn).resolve_left List.not_mem_nil
    obtain ⟨m, hm, -, hleads⟩ := exists_leadsTo_of_mem_pathWalk hwalked
    rwa [List.mem_singleton.1 hm] at hleads
  · intro hleads
    induction hleads with
    | refl => exact hstart name List.mem_cons_self hname
    | tail _ hstep ih => exact hsettled _ ih List.not_mem_nil _ hstep.1 hstep.2

/-- **Names on the path that are not led to** change nothing. -/
theorem pathWalk_congr {path' : List String}
    (h : ∀ name ∈ names, name ∈ vertices → ∀ n, Relation.ReflTransGen (LeadsTo vertices next) name n →
      (n ∈ path ↔ n ∈ path')) :
    pathWalk vertices next path names = pathWalk vertices next path' names := by
  induction path, names using pathWalk.induct vertices next generalizing path' with
  | case1 path => rw [pathWalk, pathWalk]
  | case2 path name names hnew ihnext ihnames =>
    obtain ⟨hname, hnames⟩ := List.forall_mem_cons.1 h
    have hnew' : name ∈ vertices ∧ name ∉ path' :=
      ⟨hnew.1, fun hon => hnew.2 ((hname hnew.1 name .refl).2 hon)⟩
    rw [pathWalk, if_pos hnew, pathWalk, if_pos hnew', ihnames hnames]
    rw [ihnext fun m hm hvertex n hleads => ?_]
    rw [List.mem_cons, List.mem_cons, hname hnew.1 n (.head ⟨hm, hvertex⟩ hleads)]
  | case3 path name names hold ih =>
    obtain ⟨hname, hnames⟩ := List.forall_mem_cons.1 h
    have hold' : ¬ (name ∈ vertices ∧ name ∉ path') := fun hnew =>
      hold ⟨hnew.1, fun hon => hnew.2 ((hname hnew.1 name .refl).1 hon)⟩
    rw [pathWalk, if_neg hold, pathWalk, if_neg hold', ih hnames]

end FluentBuilders
