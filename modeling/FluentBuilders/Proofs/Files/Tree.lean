import FluentBuilders.Files.Access
import Mathlib.Data.List.Basic

/-!
# Proofs/Files/Tree — what following, making and writing do to a tree of files

Where a path leads depends only on the directories that are there.  Making a directory adds
directories and touches no file (`grows_makeDirectory`); a write or a copy sets one place, which was
no directory, and leaves all directories as they were (`perform_file`).  So a path leads to the same
place after it, and what was written is read again (`read_of_write`).
-/

namespace FluentBuilders.FileTree

variable {t t' t'' : FileTree} {p : Path} {q start d : Place} {names : List String}
  {name : String} {content : ByteArray}

/-! ## Directories and what they lead to -/

/-- **All directories of a tree are in another**, seen from the same one. -/
structure Within (t t' : FileTree) : Prop where
  current : t'.current = t.current
  directory : ∀ place, t.get? place = some .directory → t'.get? place = some .directory

/-- **The same directories.** -/
structure SameDirectories (t t' : FileTree) : Prop where
  current : t'.current = t.current
  directory : ∀ place, t'.get? place = some .directory ↔ t.get? place = some .directory

namespace SameDirectories

@[refl] theorem refl (t : FileTree) : SameDirectories t t := ⟨rfl, fun _ => Iff.rfl⟩

theorem symm (h : SameDirectories t t') : SameDirectories t' t :=
  ⟨h.current.symm, fun place => (h.directory place).symm⟩

theorem trans (h : SameDirectories t t') (h' : SameDirectories t' t'') : SameDirectories t t'' :=
  ⟨h'.current.trans h.current, fun place => (h'.directory place).trans (h.directory place)⟩

theorem within (h : SameDirectories t t') : Within t t' :=
  ⟨h.current, fun place => (h.directory place).2⟩

end SameDirectories

/-- The place that one name leads to. -/
def step (place : Place) (name : String) : Place :=
  if name = ".." then place.tail else name :: place

theorem follow_cons :
    t.follow start (name :: names) = .ok q ↔
      t.get? start = some .directory ∧ name.utf8ByteSize ≤ nameLimit ∧
        t.follow (step start name) names = .ok q := by
  rw [follow]
  cases hstart : t.get? start with
  | none => simp
  | some entry =>
    cases entry with
    | file content => simp
    | directory =>
      by_cases hname : nameLimit < name.utf8ByteSize
      · simp [hname, Nat.not_le.2 hname]
      · simp [hname, Nat.not_lt.1 hname, step]

theorem follow_append {later : List String} :
    t.follow start (names ++ later) = .ok q ↔
      ∃ d, t.follow start names = .ok d ∧ t.follow d later = .ok q := by
  induction names generalizing start with
  | nil => simp [follow]
  | cons name names ih =>
    simp only [List.cons_append, follow_cons, ih]
    tauto

/-- **A path leads to the same place** in a tree with more directories. -/
theorem Within.follow (h : Within t t') (hfollow : t.follow start names = .ok q) :
    t'.follow start names = .ok q := by
  induction names generalizing start with
  | nil => exact hfollow
  | cons name names ih =>
    obtain ⟨hstart, hname, hrest⟩ := follow_cons.1 hfollow
    exact follow_cons.2 ⟨h.directory _ hstart, hname, ih hrest⟩

/-- Where following a path starts. -/
def origin (t : FileTree) (p : Path) : Place := if p.root = .relative then t.current else []

/-- The text of a path can be asked for. -/
def CanAsk (p : Path) : Prop :=
  p.names.any (·.toList.contains '\x00') = false ∧ p.text.utf8ByteSize ≤ pathLimit

theorem place_eq_ok :
    t.place p = .ok q ↔ CanAsk p ∧ t.follow (t.origin p) p.names = .ok q := by
  rw [place, CanAsk, origin]
  by_cases hname : (p.names.any (·.toList.contains '\x00')) = true
  · rw [if_pos hname]
    simp only [reduceCtorEq, hname, Bool.true_eq_false, false_and]
  · rw [if_neg hname, Bool.eq_false_iff.2 hname]
    by_cases htext : pathLimit < p.text.utf8ByteSize
    · simp [htext, Nat.not_le.2 htext]
    · simp [htext, Nat.not_lt.1 htext]

theorem Within.place (h : Within t t') (hplace : t.place p = .ok q) : t'.place p = .ok q := by
  obtain ⟨hask, hfollow⟩ := place_eq_ok.1 hplace
  have horigin : t'.origin p = t.origin p := by rw [origin, origin, h.current]
  exact place_eq_ok.2 ⟨hask, horigin ▸ h.follow hfollow⟩

theorem SameDirectories.place_iff (h : SameDirectories t t') :
    t'.place p = .ok q ↔ t.place p = .ok q :=
  ⟨h.symm.within.place, h.within.place⟩

/-! ## Files written -/

theorem bind_eq_ok {ε α β : Type} {x : Except ε α} {f : α → Except ε β} {b : β} :
    (x >>= f) = .ok b ↔ ∃ a, x = .ok a ∧ f a = .ok b := by
  cases x with
  | error e => exact ⟨nofun, fun ⟨_, h, _⟩ => nomatch h⟩
  | ok a => exact ⟨fun h => ⟨a, rfl, h⟩, fun ⟨_, ha, h⟩ => by cases ha; exact h⟩

theorem located_eq_ok {α : Type} {x : Except FileFault α} {a : α} :
    located p x = .ok a ↔ x = .ok a := by
  cases x <;> simp [located, Except.mapError]

theorem read_eq_ok :
    t.read p = .ok content ↔ ∃ q, t.place p = .ok q ∧ t.get? q = some (.file content) := by
  rw [read, located_eq_ok, bind_eq_ok]
  refine exists_congr fun q => and_congr_right fun _ => ?_
  rcases t.get? q with _ | _ | _ <;> simp [throw, throwThe, MonadExceptOf.throw, pure, Except.pure]

theorem isDirectory_iff :
    t.isDirectory p = true ↔ ∃ q, t.place p = .ok q ∧ t.get? q = some .directory := by
  rw [isDirectory]
  cases hplace : t.place p with
  | error fault => simp
  | ok q =>
    simp only [Except.ok.injEq, exists_eq_left']
    rcases t.get? q with _ | _ | content <;> simp [Entry.isDirectory]

theorem write_eq_ok :
    t.write p content = .ok t' ↔
      ∃ q, t.place p = .ok q ∧ t.get? q ≠ some .directory ∧ t' = t.set q (.file content) := by
  rw [write, located_eq_ok, bind_eq_ok]
  refine exists_congr fun q => and_congr_right fun _ => ?_
  rcases t.get? q with _ | _ | _ <;>
    simp [Entry.isDirectory, throw, throwThe, MonadExceptOf.throw, pure, Except.pure, bind_eq_ok,
      @eq_comm _ t']

theorem sameDirectories_set (h : t.get? q ≠ some .directory) :
    SameDirectories t (t.set q (.file content)) := by
  refine ⟨rfl, fun place => ?_⟩
  rw [get?_set]
  split
  · next hplace => simp [hplace, h]
  · rfl

/-! ## Well-formed trees -/

/-- **A well-formed tree**: the working directory is there, whatever is there stands in a directory,
and the way to the working directory leads down only. -/
structure IsTree (t : FileTree) : Prop where
  current : t.get? t.current = some .directory
  above : ∀ name place, t.get? (name :: place) ≠ none → t.get? place = some .directory
  down : ".." ∉ t.current

namespace IsTree

theorem tail (h : t.IsTree) (hq : t.get? q = some .directory) :
    t.get? q.tail = some .directory := by
  cases q with
  | nil => exact hq
  | cons name place => exact h.above name place (by rw [hq]; nofun)

theorem root (h : t.IsTree) : t.get? [] = some .directory := by
  have hroot : ∀ place, t.get? place = some .directory → t.get? [] = some .directory := by
    intro place hplace
    induction place with
    | nil => exact hplace
    | cons name place ih => exact ih (h.tail hplace)
  exact hroot _ h.current

theorem origin (h : t.IsTree) (p : Path) : t.get? (t.origin p) = some .directory := by
  rw [FileTree.origin]
  split
  · exact h.current
  · exact h.root

/-- **Names lead to a directory, or to the last of them in a directory.** -/
theorem follow (h : t.IsTree) (hstart : t.get? start = some .directory)
    (hfollow : t.follow start names = .ok q) :
    t.get? q = some .directory ∨
      ∃ name d, q = name :: d ∧ t.get? d = some .directory ∧ names.getLast? = some name ∧
        name ≠ ".." := by
  induction names generalizing start with
  | nil =>
    obtain rfl := Except.ok.inj hfollow
    exact .inl hstart
  | cons name names ih =>
    obtain ⟨-, -, hrest⟩ := follow_cons.1 hfollow
    cases names with
    | nil =>
      obtain rfl := Except.ok.inj hrest
      by_cases hname : name = ".."
      · exact .inl (by rw [step, if_pos hname]; exact h.tail hstart)
      · exact .inr ⟨name, start, by rw [step, if_neg hname], hstart, rfl, hname⟩
    | cons next names => exact ih (follow_cons.1 hrest).1 hrest

theorem set (h : t.IsTree) (hplace : t.place p = .ok q) (hq : t.get? q ≠ some .directory)
    (entry : Entry) : (t.set q entry).IsTree := by
  obtain ⟨name, d, rfl, hd, -⟩ :=
    (h.follow (h.origin p) (place_eq_ok.1 hplace).2).resolve_left hq
  have hkeep : ∀ place, t.get? place = some .directory →
      (t.set (name :: d) entry).get? place = some .directory := by
    intro place hplace
    rw [get?_set, if_neg, hplace]
    rintro rfl
    exact hq hplace
  refine ⟨hkeep _ h.current, fun other place hother => hkeep _ ?_, h.down⟩
  rw [get?_set] at hother
  split at hother
  · next heq => exact (List.cons.inj heq).2 ▸ hd
  · exact h.above other place hother

end IsTree

/-- **An empty tree has the directories on the way to its working directory.** -/
theorem get?_empty {current : Place} {entry : Entry} :
    (empty current).get? q = some entry ↔ entry = .directory ∧ q <:+ current := by
  have hentries : ∀ e ∈ (empty current).entries, e.2 = .directory ∧ e.1 <:+ current := by
    intro e he
    obtain ⟨n, -, rfl⟩ := List.mem_map.1 he
    exact ⟨rfl, List.drop_suffix n current⟩
  have hget : ∀ place entry, (empty current).get? place = some entry →
      entry = .directory ∧ place <:+ current := by
    intro place entry h
    obtain ⟨before, after, heq, -⟩ := List.lookup_eq_some_iff.1 h
    exact hentries (place, entry) (by rw [heq]; simp)
  refine ⟨hget q entry, ?_⟩
  rintro ⟨rfl, above, rfl⟩
  have hmem : (q, Entry.directory) ∈ (empty (above ++ q)).entries := by
    refine List.mem_map.2 ⟨above.length, by rw [List.mem_range, List.length_append]; omega, ?_⟩
    rw [List.drop_left]
  obtain ⟨entry, hentry⟩ : ∃ entry, (empty (above ++ q)).get? q = some entry :=
    Option.ne_none_iff_exists'.1 fun hnone =>
      absurd (List.lookup_eq_none_iff.1 hnone _ hmem) (by simp)
  rw [hentry, (hget q entry hentry).1]

theorem isTree_empty {current : Place} (h : ".." ∉ current) : (empty current).IsTree := by
  refine ⟨get?_empty.2 ⟨rfl, List.suffix_rfl⟩, fun name place hthere => ?_, h⟩
  obtain ⟨entry, hentry⟩ := Option.ne_none_iff_exists'.1 hthere
  exact get?_empty.2 ⟨rfl, (List.suffix_cons name place).trans (get?_empty.1 hentry).2⟩

/-! ## Places and resolved paths -/

theorem collapseStep_eq_step (h : ".." ∉ start) (name : String) :
    Path.collapseStep true start name = step start name := by
  rw [Path.collapseStep.eq_def, step]
  split
  · cases start with
    | nil => rfl
    | cons last before => exact if_neg (Ne.symm (not_or.1 (List.mem_cons.not.1 h)).1)
  · rfl

theorem notMem_step (h : ".." ∉ start) (name : String) : ".." ∉ step start name := by
  rw [step]
  split
  · exact fun hmem => h (List.mem_of_mem_tail hmem)
  · next hname => exact List.mem_cons.not.2 (not_or.2 ⟨Ne.symm hname, h⟩)

theorem foldl_of_follow (h : ".." ∉ start) (hfollow : t.follow start names = .ok q) :
    ".." ∉ q ∧ names.foldl (Path.collapseStep true) start = q := by
  induction names generalizing start with
  | nil => exact Except.ok.inj hfollow ▸ ⟨h, rfl⟩
  | cons name names ih =>
    rw [List.foldl_cons, collapseStep_eq_step h]
    exact ih (notMem_step h name) (follow_cons.1 hfollow).2.2

theorem foldl_collapseStep_reverse (h : ".." ∉ start) :
    start.reverse.foldl (Path.collapseStep true) [] = start := by
  induction start with
  | nil => rfl
  | cons name start ih =>
    obtain ⟨hname, hstart⟩ := not_or.1 (List.mem_cons.not.1 h)
    rw [List.reverse_cons, List.foldl_append, ih hstart, List.foldl_cons, List.foldl_nil,
      collapseStep_eq_step hstart, step, if_neg (Ne.symm hname)]

/-- **A path goes on from where it can be followed to** as its names say. -/
theorem IsTree.resolve_append (h : t.IsTree) (hplace : t.place p = .ok q) (later : List String) :
    Path.resolve t.currentDirectory { p with names := p.names ++ later } =
      ⟨.slash, (later.foldl (Path.collapseStep true) q).reverse⟩ := by
  have hfollow := (place_eq_ok.1 hplace).2
  by_cases hroot : p.root = .relative
  · rw [FileTree.origin, if_pos hroot] at hfollow
    simp [Path.resolve, Path.join, currentDirectory, Path.collapse, hroot,
      foldl_collapseStep_reverse h.down, (foldl_of_follow h.down hfollow).2]
  · rw [FileTree.origin, if_neg hroot] at hfollow
    simp [Path.resolve, Path.join, Path.collapse, hroot,
      (foldl_of_follow List.not_mem_nil hfollow).2]

/-- **A path that can be followed leads where it resolves to.** -/
theorem IsTree.resolve (h : t.IsTree) (hplace : t.place p = .ok q) :
    Path.resolve t.currentDirectory p = ⟨.slash, q.reverse⟩ := by
  have happend := h.resolve_append hplace []
  rwa [List.append_nil] at happend

theorem IsTree.notMem_place (h : t.IsTree) (hplace : t.place p = .ok q) : ".." ∉ q := by
  have hfollow := (place_eq_ok.1 hplace).2
  refine (foldl_of_follow ?_ hfollow).1
  rw [FileTree.origin]
  split
  · exact h.down
  · exact List.not_mem_nil

/-! ## Directories made -/

/-- **Directories come in**, and files stay as they are. -/
structure Grows (t t' : FileTree) : Prop extends Within t t' where
  file : ∀ place content, t'.get? place = some (.file content) ↔ t.get? place = some (.file content)
  isTree : t.IsTree → t'.IsTree

namespace Grows

@[refl] theorem refl (t : FileTree) : Grows t t := ⟨⟨rfl, fun _ h => h⟩, fun _ _ => Iff.rfl, id⟩

theorem trans (h : Grows t t') (h' : Grows t' t'') : Grows t t'' :=
  ⟨⟨h'.current.trans h.current, fun _ hplace => h'.directory _ (h.directory _ hplace)⟩,
    fun place content => (h'.file place content).trans (h.file place content),
    h'.isTree ∘ h.isTree⟩

theorem read (h : Grows t t') (hread : t.read p = .ok content) : t'.read p = .ok content := by
  obtain ⟨q, hplace, hq⟩ := read_eq_ok.1 hread
  exact read_eq_ok.2 ⟨q, h.place hplace, (h.file _ _).2 hq⟩

end Grows

theorem grows_set (hplace : t.place p = .ok q) (h : t.get? q = none) :
    Grows t (t.set q .directory) := by
  refine ⟨⟨rfl, fun place hplace => ?_⟩, fun place content => ?_,
    fun htree => htree.set hplace (by rw [h]; nofun) _⟩
  · rw [get?_set]
    split
    · rfl
    · exact hplace
  · rw [get?_set]
    split
    · next hplace => simp [hplace, h]
    · rfl

theorem addDirectory_eq_ok :
    t.addDirectory p = .ok t' ↔
      ∃ q, t.place p = .ok q ∧ t.get? q = none ∧ t' = t.set q .directory := by
  rw [addDirectory, bind_eq_ok]
  refine exists_congr fun q => and_congr_right fun _ => ?_
  rcases t.get? q with _ | _ | _ <;>
    simp [throw, throwThe, MonadExceptOf.throw, pure, Except.pure, eq_comm]

/-- **A directory that is made is there**, and nothing else but directories came in. -/
theorem ensureDirectory_spec (h : t.ensureDirectory p = .ok t') :
    Grows t t' ∧ t'.isDirectory p = true := by
  rw [ensureDirectory] at h
  split at h
  · next added hadded =>
    obtain rfl := Except.ok.inj h
    obtain ⟨q, hplace, hnone, rfl⟩ := addDirectory_eq_ok.1 hadded
    have hgrows := grows_set hplace hnone
    refine ⟨hgrows, isDirectory_iff.2 ⟨q, hgrows.place hplace, ?_⟩⟩
    rw [get?_set, if_pos rfl]
  · split at h
    · next hthere =>
      obtain rfl := Except.ok.inj h
      exact ⟨.refl _, hthere⟩
    · exact nomatch h

theorem ensureDirectories_spec {root : Root}
    (h : ensureDirectories root t names = .ok t') :
    Grows t t' ∧ t'.isDirectory ⟨root, names.reverse⟩ = true := by
  induction names generalizing t t' with
  | nil => exact ensureDirectory_spec h
  | cons name above ih =>
    rw [ensureDirectories] at h
    split at h
    · obtain ⟨made, hmade, h⟩ := bind_eq_ok.1 h
      obtain ⟨hgrows, hthere⟩ := ensureDirectory_spec h
      exact ⟨(ih hmade).1.trans hgrows, hthere⟩
    · exact ensureDirectory_spec h

/-- **A directory that is made is there**, and nothing else but directories came in. -/
theorem makeDirectory_spec (h : t.makeDirectory p = .ok t') :
    Grows t t' ∧ t'.isDirectory p = true := by
  have hspec := ensureDirectories_spec h
  rwa [List.reverse_reverse] at hspec

theorem addDirectory_of_isDirectory (h : t.isDirectory p = true) :
    t.addDirectory p = .error .alreadyThere := by
  obtain ⟨q, hplace, hq⟩ := isDirectory_iff.1 h
  simp only [addDirectory, hplace, bind, Except.bind, hq]
  rfl

theorem ensureDirectory_of_isDirectory (h : t.isDirectory p = true) :
    t.ensureDirectory p = .ok t := by
  rw [ensureDirectory, addDirectory_of_isDirectory h]
  exact if_pos h

/-- **A directory that is there is left as it is.** -/
theorem makeDirectory_of_isDirectory (h : t.isDirectory p = true) : t.makeDirectory p = .ok t := by
  obtain ⟨root, names⟩ := p
  obtain ⟨above, rfl⟩ : ∃ above : List String, names = above.reverse := ⟨_, (List.reverse_reverse _).symm⟩
  rw [makeDirectory, List.reverse_reverse]
  cases above with
  | nil => exact ensureDirectory_of_isDirectory h
  | cons name above =>
    rw [ensureDirectories]
    dsimp only
    rw [addDirectory_of_isDirectory h]
    exact ensureDirectory_of_isDirectory h

/-! ## Acts on files -/

/-- The directory that an act needs is there. -/
def IsReady (t : FileTree) : FileAct → Prop
  | .makeDirectory _ => False
  | .write p _ => t.isDirectory p.parent = true
  | .copy _ _ => True

/-- **What an act puts where**, in a tree where it is ready. -/
inductive Puts (t : FileTree) : FileAct → Place → ByteArray → Prop
  | write {p : Path} {q : Place} {content : ByteArray} (hplace : t.place p = .ok q) :
    Puts t (.write p content) q content
  | copy {source target : Path} {q : Place} {content : ByteArray}
    (hread : t.read source = .ok content) (hplace : t.place target = .ok q) :
    Puts t (.copy source target) q content

variable {act : FileAct} {acts : List FileAct}

/-- **An act on files sets one place**, which is no directory. -/
theorem perform_file (hready : t.IsReady act) (h : t.perform act = .ok t') :
    ∃ q content, Puts t act q content ∧ t.get? q ≠ some .directory ∧
      t' = t.set q (.file content) := by
  cases act with
  | makeDirectory p => exact hready.elim
  | write p content =>
    obtain ⟨made, hmade, hwrite⟩ := bind_eq_ok.1 h
    obtain rfl := Except.ok.inj ((makeDirectory_of_isDirectory hready).symm.trans hmade)
    obtain ⟨q, hplace, hq, rfl⟩ := write_eq_ok.1 hwrite
    exact ⟨q, content, .write hplace, hq, rfl⟩
  | copy source target =>
    obtain ⟨content, hread, hwrite⟩ := bind_eq_ok.1 h
    obtain ⟨q, hplace, hq, rfl⟩ := write_eq_ok.1 hwrite
    exact ⟨q, content, .copy hread hplace, hq, rfl⟩

theorem perform_of_puts (hready : t.IsReady act) (h : Puts t act q content)
    (hq : t.get? q ≠ some .directory) : t.perform act = .ok (t.set q (.file content)) := by
  cases h with
  | write hplace =>
    exact bind_eq_ok.2 ⟨t, makeDirectory_of_isDirectory hready, write_eq_ok.2 ⟨q, hplace, hq, rfl⟩⟩
  | copy hread hplace =>
    exact bind_eq_ok.2 ⟨content, hread, write_eq_ok.2 ⟨q, hplace, hq, rfl⟩⟩

/-- **What was written is read again.** -/
theorem read_of_write (h : t.perform (.write p content) = .ok t') : t'.read p = .ok content := by
  obtain ⟨made, -, hwrite⟩ := bind_eq_ok.1 h
  obtain ⟨q, hplace, hq, rfl⟩ := write_eq_ok.1 hwrite
  refine read_eq_ok.2 ⟨q, (sameDirectories_set hq).place_iff.2 hplace, ?_⟩
  rw [get?_set, if_pos rfl]

/-! ## Programs over a tree -/

section
variable {α β : Type}

theorem bind_apply (x : StateM FileTree α) (f : α → StateM FileTree β) (t : FileTree) :
    (x >>= f) t = f (x t).1 (x t).2 := rfl

theorem pure_apply (a : α) (t : FileTree) : (pure a : StateM FileTree α) t = (a, t) := rfl

theorem read_apply (p : Path) (t : FileTree) :
    (FileAccess.read p : StateM FileTree _) t = (t.read p, t) := rfl

theorem perform_of_ok (h : t.perform act = .ok t') :
    (FileAccess.perform act : StateM FileTree _) t = (.ok (), t') := by
  simp only [FileAccess.perform, h]

theorem perform_of_error {e : FileError} (h : t.perform act = .error e) :
    (FileAccess.perform act : StateM FileTree _) t = (.error e, t) := by
  simp only [FileAccess.perform, h]

end

/-! ## Acts one after the other -/

/-- **Acts that can take effect in any order**: no two of them write to one place, and what is
copied is not changed by any. -/
structure Independent (t : FileTree) (acts : List FileAct) : Prop where
  ready : ∀ act ∈ acts, t.IsReady act
  distinct : acts.Pairwise fun a b => ∀ q c c', Puts t a q c → ¬ Puts t b q c'
  source : ∀ source target, .copy source target ∈ acts → ∀ act ∈ acts, ∀ q c, Puts t act q c →
    t.place source = .ok q → t.get? q ≠ some .directory → t.get? q = some (.file c)

theorem Independent.perm {acts' : List FileAct} (h : t.Independent acts) (hperm : acts'.Perm acts) :
    t.Independent acts' := by
  have hsymm : ∀ a b : FileAct, (∀ q c c', Puts t a q c → ¬ Puts t b q c') →
      ∀ q c c', Puts t b q c → ¬ Puts t a q c' :=
    fun a b hab q c c' hb ha => hab q c' c ha hb
  exact ⟨fun act hact => h.ready act (hperm.subset hact),
    (hperm.pairwise_iff (hsymm _ _)).2 h.distinct,
    fun source target hcopy act hact =>
      h.source source target (hperm.subset hcopy) act (hperm.subset hact)⟩

theorem performAll_cons_eq_ok :
    FileAccess.performAll (m := StateM FileTree) (act :: acts) t = (.ok (), t') ↔
      ∃ made, t.perform act = .ok made ∧
        FileAccess.performAll (m := StateM FileTree) acts made = (.ok (), t') := by
  rw [FileAccess.performAll, bind_apply, bind_apply, pure_apply, Prod.mk.injEq]
  cases hact : t.perform act with
  | error e => simp [perform_of_error hact, Except.bind]
  | ok made =>
    have hpair : ∀ others : Except FileError Unit × FileTree,
        others.1 = .ok () ∧ others.2 = t' ↔ others = (.ok (), t') := by simp [Prod.ext_iff]
    simpa [perform_of_ok hact, Except.bind] using hpair _

/-- What acts put where, after one that they are independent of. -/
theorem puts_set {other : FileAct} {c : ByteArray} (hq : t.get? q ≠ some .directory)
    (hsource : ∀ source target, other = .copy source target → t.place source = .ok q →
      t.get? q = some (.file content)) :
    Puts (t.set q (.file content)) other d c ↔ Puts t other d c := by
  have hsame : SameDirectories t (t.set q (.file content)) := sameDirectories_set hq
  have hread : ∀ source target, other = .copy source target → ∀ c,
      (t.set q (.file content)).read source = .ok c ↔ t.read source = .ok c := by
    intro source target hother c
    rw [read_eq_ok, read_eq_ok]
    refine exists_congr fun place => ?_
    rw [hsame.place_iff]
    refine and_congr_right fun hplace => ?_
    rw [get?_set]
    split
    · next heq => rw [heq, hsource source target hother (heq ▸ hplace)]
    · rfl
  constructor
  · rintro (hplace | ⟨hcopy, hplace⟩)
    · exact .write (hsame.place_iff.1 hplace)
    · exact .copy ((hread _ _ rfl _).1 hcopy) (hsame.place_iff.1 hplace)
  · rintro (hplace | ⟨hcopy, hplace⟩)
    · exact .write (hsame.place_iff.2 hplace)
    · exact .copy ((hread _ _ rfl _).2 hcopy) (hsame.place_iff.2 hplace)

theorem IsReady.set (h : t.IsReady act) (hq : t.get? q ≠ some .directory) :
    (t.set q (.file content)).IsReady act := by
  cases act with
  | makeDirectory p => exact h
  | copy source target => trivial
  | write p c =>
    have hsame : SameDirectories t (t.set q (.file content)) := sameDirectories_set hq
    obtain ⟨place, hplace, hdirectory⟩ := isDirectory_iff.1 h
    exact isDirectory_iff.2 ⟨place, hsame.place_iff.2 hplace, (hsame.directory _).2 hdirectory⟩

/-- **What acts do is as it was after the first of them**, and they are independent still. -/
theorem Independent.after (h : t.Independent (act :: acts)) (hputs : Puts t act q content)
    (hq : t.get? q ≠ some .directory) :
    (∀ other ∈ acts, ∀ d c, Puts (t.set q (.file content)) other d c ↔ Puts t other d c) ∧
      (t.set q (.file content)).Independent acts := by
  obtain ⟨hdistinct, hpairs⟩ := List.pairwise_cons.1 h.distinct
  have hsame : ∀ other ∈ acts, ∀ d c,
      Puts (t.set q (.file content)) other d c ↔ Puts t other d c := by
    intro other hother d c
    refine puts_set hq fun source target hcopy hplace => ?_
    exact h.source source target (List.mem_cons_of_mem _ (hcopy ▸ hother)) act
      List.mem_cons_self q content hputs hplace hq
  refine ⟨hsame, fun other hother => (h.ready other (List.mem_cons_of_mem _ hother)).set hq, ?_, ?_⟩
  · refine List.Pairwise.imp_of_mem (fun ha hb hab d c c' hputsa hputsb => ?_) hpairs
    exact hab d c c' ((hsame _ ha _ _).1 hputsa) ((hsame _ hb _ _).1 hputsb)
  · intro source target hcopy other hother d c hputs' hplace hd
    have hputs'' := (hsame other hother d c).1 hputs'
    have hne : d ≠ q := by
      rintro rfl
      exact hdistinct other hother d content c hputs hputs''
    rw [get?_set, if_neg hne] at hd ⊢
    exact h.source source target (List.mem_cons_of_mem _ hcopy) other
      (List.mem_cons_of_mem _ hother) d c hputs''
      ((sameDirectories_set hq).place_iff.1 hplace) hd

/-- **What acts do, whatever their order**: every one of them has its content in its place, and
everything else is as it was. -/
theorem performAll_file (h : t.Independent acts)
    (hrun : FileAccess.performAll (m := StateM FileTree) acts t = (.ok (), t')) :
    SameDirectories t t' ∧
      (∀ act ∈ acts, ∃ q content, Puts t act q content ∧ t'.get? q = some (.file content)) ∧
      ∀ q, (∀ act ∈ acts, ∀ content, ¬ Puts t act q content) → t'.get? q = t.get? q := by
  induction acts generalizing t with
  | nil =>
    obtain rfl : t = t' := congrArg Prod.snd hrun
    exact ⟨.refl t, nofun, fun _ _ => rfl⟩
  | cons act acts ih =>
    obtain ⟨made, hact, hrun⟩ := performAll_cons_eq_ok.1 hrun
    obtain ⟨q, content, hputs, hq, rfl⟩ := perform_file (h.ready act List.mem_cons_self) hact
    obtain ⟨hsame, hindependent⟩ := h.after hputs hq
    obtain ⟨hdirectories, hdone, hkept⟩ := ih hindependent hrun
    have hdistinct := (List.pairwise_cons.1 h.distinct).1
    refine ⟨(sameDirectories_set hq).trans hdirectories, ?_, ?_⟩
    · refine List.forall_mem_cons.2 ⟨⟨q, content, hputs, ?_⟩, fun other hother => ?_⟩
      · rw [hkept, get?_set, if_pos rfl]
        exact fun other hother c hputs' =>
          hdistinct other hother q content c hputs ((hsame other hother q c).1 hputs')
      · obtain ⟨d, c, hputs', hd⟩ := hdone other hother
        exact ⟨d, c, (hsame other hother d c).1 hputs', hd⟩
    · intro d hd
      obtain ⟨hfirst, hothers⟩ := List.forall_mem_cons.1 hd
      rw [hkept d fun other hother c hputs' => hothers other hother c
        ((hsame other hother d c).1 hputs'), get?_set, if_neg]
      rintro rfl
      exact hfirst content hputs

/-- **None of the acts is refused** exactly when each has a place to write to that is no directory,
as things stand before the first of them. -/
theorem exists_performAll_iff (h : t.Independent acts) :
    (∃ t', FileAccess.performAll (m := StateM FileTree) acts t = (.ok (), t')) ↔
      ∀ act ∈ acts, ∃ q content, Puts t act q content ∧ t.get? q ≠ some .directory := by
  induction acts generalizing t with
  | nil => exact ⟨fun _ => nofun, fun _ => ⟨t, rfl⟩⟩
  | cons act acts ih =>
    have hready := h.ready act List.mem_cons_self
    constructor
    · rintro ⟨t', hrun⟩
      obtain ⟨made, hact, hrun⟩ := performAll_cons_eq_ok.1 hrun
      obtain ⟨q, content, hputs, hq, rfl⟩ := perform_file hready hact
      obtain ⟨hsame, hindependent⟩ := h.after hputs hq
      refine List.forall_mem_cons.2 ⟨⟨q, content, hputs, hq⟩, fun other hother => ?_⟩
      obtain ⟨d, c, hputs', hd⟩ := (ih hindependent).1 ⟨t', hrun⟩ other hother
      exact ⟨d, c, (hsame other hother d c).1 hputs',
        fun heq => hd (((sameDirectories_set hq).directory d).2 heq)⟩
    · intro hall
      obtain ⟨⟨q, content, hputs, hq⟩, hothers⟩ := List.forall_mem_cons.1 hall
      obtain ⟨hsame, hindependent⟩ := h.after hputs hq
      have hlater : ∀ other ∈ acts, ∃ d c, Puts (t.set q (.file content)) other d c ∧
          (t.set q (.file content)).get? d ≠ some .directory := by
        intro other hother
        obtain ⟨d, c, hputs', hd⟩ := hothers other hother
        exact ⟨d, c, (hsame other hother d c).2 hputs',
          fun heq => hd (((sameDirectories_set hq).directory d).1 heq)⟩
      obtain ⟨t', hrun⟩ := (ih hindependent).2 hlater
      exact ⟨t', performAll_cons_eq_ok.2 ⟨_, perform_of_puts hready hputs hq, hrun⟩⟩

theorem Puts.unique {c c' : ByteArray} (h : Puts t act q c) (h' : Puts t act d c') :
    q = d ∧ c = c' := by
  cases h with
  | write hplace =>
    cases h' with
    | write hplace' => exact ⟨Except.ok.inj (hplace.symm.trans hplace'), rfl⟩
  | copy hread hplace =>
    cases h' with
    | copy hread' hplace' =>
      exact ⟨Except.ok.inj (hplace.symm.trans hplace'), Except.ok.inj (hread.symm.trans hread')⟩

/-- **The order of acts does not show**: in any other none is refused either, and they end in the
same tree. -/
theorem performAll_perm {acts' : List FileAct} (h : t.Independent acts) (hperm : acts'.Perm acts)
    (hrun : FileAccess.performAll (m := StateM FileTree) acts t = (.ok (), t')) :
    ∃ t'', FileAccess.performAll (m := StateM FileTree) acts' t = (.ok (), t'') ∧
      ∀ q, t''.get? q = t'.get? q := by
  have h' := h.perm hperm
  have hputs := (exists_performAll_iff h).1 ⟨t', hrun⟩
  obtain ⟨t'', hrun'⟩ := (exists_performAll_iff h').2 fun act hact => hputs act (hperm.subset hact)
  obtain ⟨-, hdone, hkept⟩ := performAll_file h hrun
  obtain ⟨-, hdone', hkept'⟩ := performAll_file h' hrun'
  refine ⟨t'', hrun', fun q => ?_⟩
  by_cases hput : ∃ act ∈ acts, ∃ content, Puts t act q content
  · obtain ⟨act, hact, content, hputs⟩ := hput
    obtain ⟨d, c, hputs₁, hd⟩ := hdone act hact
    obtain ⟨d', c', hputs₂, hd'⟩ := hdone' act (hperm.mem_iff.2 hact)
    obtain ⟨rfl, rfl⟩ := hputs.unique hputs₁
    obtain ⟨rfl, rfl⟩ := hputs.unique hputs₂
    rw [hd, hd']
  · push Not at hput
    rw [hkept q hput, hkept' q fun act hact => hput act (hperm.subset hact)]

end FluentBuilders.FileTree
