import FluentBuilders.Generation.Run
import FluentBuilders.Proofs.Builder.Plan
import FluentBuilders.Proofs.Config.Validity
import FluentBuilders.Proofs.Files.Tree

/-!
# Proofs/Generation/Writing — all files of a run have paths of their own, or nothing is written

Every planned builder has a text (`exists_renderBuilder`), and the files of a run are distinct unless
two of three names are one (`nodup_targetsOf_iff`).  Files of their own are written independently of
each other, and of the file that is copied; so it does not show in which order they are
(`distinct_files_or_nothing`).
-/

namespace FluentBuilders

/-! ## Every planned builder has a text -/

section
variable {config : Config} {ds : List StructuralDeclaration} {b : BuilderSpec}

theorem exists_setterSpec {className : String} {taken : List String} {fields : List Field}
    {m : MethodSpec} (h : m ∈ setterSpecs config className taken fields) :
    ∃ name field, m = setterSpec config.emit className name field := by
  induction fields generalizing taken with
  | nil => exact absurd h List.not_mem_nil
  | cons field fields ih =>
    rw [setterSpecs] at h
    split at h
    · exact ih h
    · rcases List.mem_cons.1 h with rfl | h
      · exact ⟨_, field, rfl⟩
      · exact ih h

/-- A setter writes its one parameter to its field, the typename method its text; the accessor gives
the object back. -/
theorem exists_methodLines (emit : EmitConfig) (d : StructuralDeclaration) {m : MethodSpec}
    (h : m ∈ (builderSpec config d).builderClass.methods) (accumulator : String) :
    ∃ lines, methodLines emit accumulator m = .ok lines := by
  rw [methods_builderSpec, setters_builderSpec] at h
  rcases List.mem_append.1 h with h | h
  · obtain ⟨name, field, rfl⟩ := exists_setterSpec h
    exact ⟨_, rfl⟩
  · rcases List.mem_pair.1 h with rfl | rfl
    · exact ⟨_, rfl⟩
    · exact ⟨_, rfl⟩

theorem exists_allMethodLines {emit : EmitConfig} {accumulator : String} {methods : List MethodSpec}
    (h : ∀ m ∈ methods, ∃ lines, methodLines emit accumulator m = .ok lines) :
    ∃ lines, allMethodLines emit accumulator methods = .ok lines := by
  induction methods with
  | nil => exact ⟨[], rfl⟩
  | cons m methods ih =>
    obtain ⟨hm, hmethods⟩ := List.forall_mem_cons.1 h
    obtain ⟨lines, hlines⟩ := hm
    obtain ⟨others, hothers⟩ := ih hmethods
    exact ⟨lines ++ others, by rw [allMethodLines, hlines, hothers]; rfl⟩

/-- **Every planned builder has a text.** -/
theorem exists_renderBuilder (hb : b ∈ (planOf config ds).builders) (emit : EmitConfig)
    (stem : String) : ∃ text, renderBuilder emit b stem = .ok text := by
  rw [builders_planOf] at hb
  obtain ⟨d, -, rfl⟩ := List.mem_map.1 hb
  have hclass : ∃ lines, classLines emit (builderSpec config d).builderClass = .ok lines := by
    obtain ⟨methods, hmethods⟩ := exists_allMethodLines fun _ hm =>
      exists_methodLines emit d hm (builderSpec config d).builderClass.accumulatorName
    rw [classLines, hmethods]
    exact ⟨_, rfl⟩
  have hfactory : ∃ lines, factoryLines emit (builderSpec config d).factory = .ok lines := ⟨_, rfl⟩
  obtain ⟨class_, hclass⟩ := hclass
  obtain ⟨factory, hfactory⟩ := hfactory
  rw [renderBuilder, hclass, hfactory]
  exact ⟨_, rfl⟩

end

/-! ## Names of files -/

/-- **A file's name**: a name that does not lead up. -/
structure IsFileName (name : String) : Prop where
  isName : Path.IsName name
  ne : name ≠ ".."

/-- **A name with an extension is a file's name.** -/
theorem isFileName_append {stem ext : String} (hstem : '/' ∉ stem.toList)
    (hext : isExtension ext = true) : IsFileName (stem ++ ext) := by
  obtain ⟨c, cs, htoList, hletters⟩ : ∃ c cs, ext.toList = '.' :: c :: cs ∧
      (c :: cs).all Text.isLatin = true := by
    rw [isExtension] at hext
    split at hext
    · next c cs h => exact ⟨c, cs, h, hext⟩
    · exact absurd hext Bool.false_ne_true
  have hletter : ∀ d ∈ c :: cs, Text.isLatin d = true := List.all_eq_true.1 hletters
  -- the last character is a letter
  have hlast : ∀ name : String, name.toList.getLast? = some '.' → stem ++ ext ≠ name := by
    rintro _ hdot rfl
    rw [String.toList_append, htoList, List.getLast?_append_cons, List.getLast?_cons_cons] at hdot
    exact absurd (hletter _ (List.mem_of_getLast? hdot)) (by decide)
  have hempty : stem ++ ext ≠ "" := by
    intro hnil
    have hnil' := congrArg String.toList hnil
    rw [String.toList_append, htoList] at hnil'
    simp at hnil'
  have hslash : '/' ∉ (stem ++ ext).toList := by
    rw [String.toList_append, htoList, List.mem_append, List.mem_cons]
    rintro (hmem | hmem | hmem)
    · exact hstem hmem
    · exact absurd hmem (by decide)
    · exact absurd (hletter _ hmem) (by decide)
  have hstep : Path.isStep (stem ++ ext) = true := by
    rw [Path.isStep, Bool.and_eq_true, bne_iff_ne, bne_iff_ne]
    exact ⟨hempty, hlast "." (by decide)⟩
  exact ⟨⟨hstep, hslash⟩, hlast ".." (by decide)⟩

/-! ## Files in a directory -/

section
variable {directory : Path} {name other : String}

theorem child_of_isFileName (h : IsFileName name) :
    directory.child name = { directory with names := directory.names ++ [name] } :=
  Path.child_of_isName directory h.isName

theorem parent_child (h : IsFileName name) : (directory.child name).parent = directory := by
  rw [child_of_isFileName h, Path.parent, List.dropLast_concat]

/-- Nothing added to a directory is the directory itself, and has no file's name. -/
theorem child_eq_child_iff (h : IsFileName name) (hother : other = "" ∨ Path.IsName other) :
    directory.child name = directory.child other ↔ name = other := by
  refine ⟨fun heq => ?_, congrArg _⟩
  rw [child_of_isFileName h] at heq
  rcases hother with rfl | hother
  · have hself : directory.child "" = directory := by
      obtain ⟨root, names⟩ := directory
      exact congrArg (Path.mk root) (List.append_nil names)
    rw [hself] at heq
    simpa using congrArg (fun p => p.names.length) heq
  · rw [Path.child_of_isName directory hother] at heq
    exact (List.cons.inj (List.append_cancel_left (Path.mk.inj heq).2)).1

namespace FileTree

variable {t : FileTree} {p : Path} {q d : Place} {content : ByteArray}

/-- **A file in a directory stands below it.** -/
theorem place_child (hd : t.place directory = .ok d) (hname : IsFileName name)
    (h : t.place (directory.child name) = .ok q) : q = name :: d := by
  rw [child_of_isFileName hname] at h
  obtain ⟨d', hd', hstep⟩ := follow_append.1 (place_eq_ok.1 h).2
  obtain rfl := Except.ok.inj (hd'.symm.trans (place_eq_ok.1 hd).2)
  obtain ⟨-, -, hlast⟩ := follow_cons.1 hstep
  rw [← Except.ok.inj hlast, step, if_neg hname.ne]

/-- **What is read by a path is named by it**, and stands in a directory. -/
theorem IsTree.name_of_place (h : t.IsTree) (hp : p.IsRead) (hplace : t.place p = .ok q)
    (hq : t.get? q ≠ some .directory) : IsFileName p.name ∧ ∃ d, q = p.name :: d := by
  obtain ⟨last, d, rfl, -, hlast, hne⟩ :=
    (h.follow (h.origin p) (place_eq_ok.1 hplace).2).resolve_left hq
  have hname : p.name = last := by rw [Path.name, hlast]; rfl
  rw [hname]
  exact ⟨⟨hp last (List.mem_of_getLast? hlast), hne⟩, d, rfl⟩

theorem IsTree.resolve_child (h : t.IsTree) (hd : t.place directory = .ok d)
    (hname : IsFileName name) :
    Path.resolve t.currentDirectory (directory.child name) = ⟨.slash, (name :: d).reverse⟩ := by
  rw [child_of_isFileName hname, h.resolve_append hd, List.foldl_cons, List.foldl_nil,
    collapseStep_eq_step (h.notMem_place hd), step, if_neg hname.ne]

end FileTree

end

/-! ## The files of a run -/

namespace Output

/-- The name of a unit's file. -/
def unitName (emit : EmitConfig) (b : BuilderSpec) : String := b.className ++ emit.extension

/-- The name of the index's file. -/
def indexName (emit : EmitConfig) : String := emit.indexName ++ emit.extension

/-- **Two of the files of a run have one name**: the source's copy that of a unit or of the index, or
a unit that of the index. -/
def Conflicting (emit : EmitConfig) (builders : List BuilderSpec) (source : SourceFile) : Prop :=
  source.fileName ∈ builders.map (unitName emit) ∨ source.fileName = indexName emit ∨
    indexName emit ∈ builders.map (unitName emit)

/-- **Names of files as they are planned**: the units and the index have files' names, the units
different ones; the source was read from a path, or has a file's name. -/
structure Named (emit : EmitConfig) (builders : List BuilderSpec) (source : SourceFile) : Prop where
  unit : ∀ b ∈ builders, IsFileName (unitName emit b)
  units : (builders.map (unitName emit)).Nodup
  index : IsFileName (indexName emit)
  input : ∀ p ∈ source.path, p.IsRead
  inMemory : source.path = none → IsFileName source.fileName

variable {emit : EmitConfig} {directory : Path} {builders : List BuilderSpec} {source : SourceFile}

theorem fileName_of_path {p : Path} (h : source.path = some p) : source.fileName = p.name := by
  rw [SourceFile.fileName, h]

/-- The source has a name or none. -/
theorem Named.name (h : Named emit builders source) :
    source.fileName = "" ∨ Path.IsName source.fileName := by
  cases hpath : source.path with
  | none => exact .inr (h.inMemory hpath).isName
  | some p =>
    rw [fileName_of_path hpath, Path.name]
    cases hlast : p.names.getLast? with
    | none => exact .inl rfl
    | some last => exact .inr (h.input p hpath last (List.mem_of_getLast? hlast))

/-- **All paths differ** unless two of the names are one. -/
theorem nodup_targetsOf_iff (h : Named emit builders source) :
    (targetsOf emit directory builders source).Nodup ↔ ¬ Conflicting emit builders source := by
  have hunits : (builders.map (unitPath emit directory)).Nodup := by
    change (builders.map fun b => directory.child (unitName emit b)).Nodup
    refine List.Nodup.map_on (fun b hb b' hb' heq => ?_) (List.Nodup.of_map _ h.units)
    exact List.inj_on_of_nodup_map h.units hb hb'
      ((child_eq_child_iff (h.unit b hb) (.inr (h.unit b' hb').isName)).1 heq)
  have hcopy : copyPath directory source ∈ builders.map (unitPath emit directory) ↔
      source.fileName ∈ builders.map (unitName emit) := by
    simp only [List.mem_map]
    exact exists_congr fun b => and_congr_right fun hb => child_eq_child_iff (h.unit b hb) h.name
  have hindex : indexPath emit directory ∈ builders.map (unitPath emit directory) ↔
      indexName emit ∈ builders.map (unitName emit) := by
    simp only [List.mem_map]
    exact exists_congr fun b => and_congr_right fun hb =>
      child_eq_child_iff (h.unit b hb) (.inr h.index.isName)
  have hpair : copyPath directory source = indexPath emit directory ↔
      source.fileName = indexName emit := by
    rw [eq_comm, @eq_comm _ source.fileName]
    exact child_eq_child_iff h.index h.name
  rw [targetsOf, List.nodup_append', Conflicting]
  simp only [hunits, List.nodup_cons, List.mem_singleton, List.not_mem_nil, not_false_eq_true,
    List.nodup_nil, and_true, true_and, List.disjoint_cons_right, List.disjoint_nil_right, hcopy,
    hindex, hpair, not_or]
  exact and_left_comm

theorem firstRepeated?_eq_none {ps : List Path} : firstRepeated? ps = none ↔ ps.Nodup := by
  induction ps with
  | nil => simp [firstRepeated?]
  | cons p ps ih =>
    rw [firstRepeated?, List.nodup_cons]
    by_cases hp : p ∈ ps
    · simp [hp]
    · simp [hp, ih]

/-! ### What is written where -/

/-- The text of a unit. -/
def unitText (emit : EmitConfig) (stem : String) (b : BuilderSpec) : String :=
  (renderBuilder emit b stem).toOption.getD ""

/-- The act that writes a unit. -/
def unitAct (emit : EmitConfig) (directory : Path) (stem : String) (b : BuilderSpec) : FileAct :=
  .write (unitPath emit directory b) (unitText emit stem b).toUTF8

/-- All that is written, seen from the directory `current`. -/
def actsOf (emit : EmitConfig) (current directory : Path) (builders : List BuilderSpec)
    (source : SourceFile) : List FileAct :=
  builders.map (unitAct emit directory source.stem) ++ copyActs current directory source ++
    [indexAct emit directory builders]

theorem unitActs_eq_ok {stem : String}
    (h : ∀ b ∈ builders, ∃ text, renderBuilder emit b stem = .ok text) :
    unitActs emit directory stem builders = .ok (builders.map (unitAct emit directory stem)) := by
  induction builders with
  | nil => rfl
  | cons b builders ih =>
    obtain ⟨⟨text, htext⟩, hbuilders⟩ := List.forall_mem_cons.1 h
    rw [unitActs, htext, ih hbuilders, List.map_cons, unitAct, unitText, htext]
    rfl

/-- **How the source gets to its copy**: written out when it was not read from a file, copied unless
it is there. -/
theorem mem_copyActs {current : Path} {act : FileAct} :
    act ∈ copyActs current directory source ↔
      source.path = none ∧ act = .write (copyPath directory source) source.text.toUTF8 ∨
        ∃ p, source.path = some p ∧
          Path.resolve current p ≠ Path.resolve current (copyPath directory source) ∧
            act = .copy p (copyPath directory source) := by
  rw [copyActs]
  cases source.path with
  | none => simp
  | some p =>
    by_cases hsame : Path.resolve current p = Path.resolve current (copyPath directory source)
    · simp [hsame]
    · simp [hsame]

/-- **A plan of files with paths of their own.** -/
theorem plan_eq_ok {current : Path} (hnodup : (targetsOf emit directory builders source).Nodup)
    (htexts : ∀ b ∈ builders, ∃ text, renderBuilder emit b source.stem = .ok text) :
    plan emit current directory builders source =
      .ok ⟨directory, targetsOf emit directory builders source,
        actsOf emit current directory builders source⟩ := by
  rw [plan]
  simp only [firstRepeated?_eq_none.2 hnodup, unitActs_eq_ok htexts]
  rfl

/-! ### Independence -/

/-- **A directory that is there**, for files with names of their own. -/
structure Ready (t : FileTree) (d : Place) (emit : EmitConfig) (directory : Path)
    (builders : List BuilderSpec) (source : SourceFile) : Prop where
  tree : t.IsTree
  place : t.place directory = .ok d
  isDirectory : t.get? d = some .directory
  named : Named emit builders source
  free : ¬ Conflicting emit builders source

section
variable {t : FileTree} {d q : Place} {name : String} {content c : ByteArray} {act : FileAct}

open FileTree

theorem puts_write (hd : t.place directory = .ok d) (hname : IsFileName name)
    (h : Puts t (.write (directory.child name) content) q c) : q = name :: d ∧ c = content := by
  cases h with
  | write hplace => exact ⟨place_child hd hname hplace, rfl⟩

variable (h : Ready t d emit directory builders source)
include h

/-- The file that a source was read from has the source's name. -/
theorem Ready.name_of_input {p : Path} (hp : source.path = some p) (hplace : t.place p = .ok q)
    (hq : t.get? q ≠ some .directory) :
    IsFileName source.fileName ∧ ∃ d, q = source.fileName :: d := by
  rw [fileName_of_path hp]
  exact h.tree.name_of_place (h.named.input p hp) hplace hq

theorem Ready.puts_unit {b : BuilderSpec} (hb : b ∈ builders)
    (hputs : Puts t (unitAct emit directory source.stem b) q c) :
    q = unitName emit b :: d ∧ c = (unitText emit source.stem b).toUTF8 :=
  puts_write h.place (h.named.unit b hb) hputs

theorem Ready.puts_index (hputs : Puts t (indexAct emit directory builders) q c) :
    q = indexName emit :: d ∧ c = (renderIndex emit (builders.map (·.className))).toUTF8 :=
  puts_write h.place h.named.index hputs

theorem Ready.puts_copy (hact : act ∈ copyActs t.currentDirectory directory source)
    (hputs : Puts t act q c) : q = source.fileName :: d := by
  obtain ⟨hpath, rfl⟩ | ⟨p, hpath, -, rfl⟩ := mem_copyActs.1 hact
  · exact (puts_write h.place (h.named.inMemory hpath) hputs).1
  · cases hputs with
    | copy hcopy hplace =>
      obtain ⟨s, hs, hfile⟩ := read_eq_ok.1 hcopy
      exact place_child h.place (h.name_of_input hpath hs (by rw [hfile]; nofun)).1 hplace

omit h in
theorem mem_actsOf {current : Path} :
    act ∈ actsOf emit current directory builders source ↔
      (∃ b ∈ builders, act = unitAct emit directory source.stem b) ∨
        act ∈ copyActs current directory source ∨ act = indexAct emit directory builders := by
  simp [actsOf, @eq_comm _ act]

/-- **Each act writes to the place of its own name.** -/
theorem Ready.puts_acts (hact : act ∈ actsOf emit t.currentDirectory directory builders source)
    (hputs : Puts t act q c) :
    (∃ b ∈ builders, q = unitName emit b :: d) ∨ q = source.fileName :: d ∨
      q = indexName emit :: d := by
  obtain ⟨b, hb, rfl⟩ | hact | rfl := mem_actsOf.1 hact
  · exact .inl ⟨b, hb, (h.puts_unit hb hputs).1⟩
  · exact .inr (.inl (h.puts_copy hact hputs))
  · exact .inr (.inr (h.puts_index hputs).1)

theorem Ready.isReady_write (hname : IsFileName name) :
    t.IsReady (.write (directory.child name) content) := by
  rw [IsReady, parent_child hname]
  exact isDirectory_iff.2 ⟨d, h.place, h.isDirectory⟩

theorem Ready.isReady (hact : act ∈ actsOf emit t.currentDirectory directory builders source) :
    t.IsReady act := by
  obtain ⟨b, hb, rfl⟩ | hact | rfl := mem_actsOf.1 hact
  · exact h.isReady_write (h.named.unit b hb)
  · obtain ⟨hpath, rfl⟩ | ⟨p, -, -, rfl⟩ := mem_copyActs.1 hact
    · exact h.isReady_write (h.named.inMemory hpath)
    · trivial
  · exact h.isReady_write h.named.index

/-- **No two acts write to one place.** -/
theorem Ready.pairwise :
    (actsOf emit t.currentDirectory directory builders source).Pairwise fun a b =>
      ∀ q c c', Puts t a q c → ¬ Puts t b q c' := by
  have hfree := h.free
  rw [Conflicting, not_or, not_or] at hfree
  obtain ⟨hcopyUnit, hcopyIndex, hindexUnit⟩ := hfree
  refine List.pairwise_append.2 ⟨List.pairwise_append.2 ⟨?_, ?_, ?_⟩, List.pairwise_singleton _ _, ?_⟩
  · refine List.pairwise_map.2 (List.Pairwise.imp_of_mem ?_ (List.pairwise_map.1 h.named.units))
    intro b b' hb hb' hne q c c' hputs hputs'
    have heq := (h.puts_unit hb hputs).1.symm.trans (h.puts_unit hb' hputs').1
    exact hne (List.cons.inj heq).1
  · rw [copyActs]
    split
    · exact List.pairwise_singleton _ _
    · split
      · exact List.Pairwise.nil
      · exact List.pairwise_singleton _ _
  · intro a ha a' ha' q c c' hputs hputs'
    obtain ⟨b, hb, rfl⟩ := List.mem_map.1 ha
    have heq := (h.puts_unit hb hputs).1.symm.trans (h.puts_copy ha' hputs')
    exact hcopyUnit ((List.cons.inj heq).1 ▸ List.mem_map_of_mem hb)
  · intro a ha a' ha' q c c' hputs hputs'
    obtain rfl := List.mem_singleton.1 ha'
    have hindex := (h.puts_index hputs').1
    rcases List.mem_append.1 ha with ha | ha
    · obtain ⟨b, hb, rfl⟩ := List.mem_map.1 ha
      have heq := (h.puts_unit hb hputs).1.symm.trans hindex
      exact hindexUnit ((List.cons.inj heq).1 ▸ List.mem_map_of_mem hb)
    · exact hcopyIndex (List.cons.inj ((h.puts_copy ha hputs).symm.trans hindex)).1

/-- **The files of a run are written independently of each other**, and of the file that is copied:
a unit or index in its place would have its name. -/
theorem Ready.independent :
    t.Independent (actsOf emit t.currentDirectory directory builders source) := by
  have hfree := h.free
  rw [Conflicting, not_or, not_or] at hfree
  obtain ⟨hcopyUnit, hcopyIndex, -⟩ := hfree
  refine ⟨fun _ => h.isReady, h.pairwise, fun p target hcopy act hact q c hputs hplace hq => ?_⟩
  obtain ⟨hp, rfl⟩ : source.path = some p ∧ target = copyPath directory source := by
    obtain ⟨b, -, heq⟩ | hcopy | heq := mem_actsOf.1 hcopy
    · exact nomatch heq
    · obtain ⟨-, heq⟩ | ⟨_, hp, -, heq⟩ := mem_copyActs.1 hcopy
      · exact nomatch heq
      · cases heq
        exact ⟨hp, rfl⟩
    · exact nomatch heq
  obtain ⟨-, d', rfl⟩ := h.name_of_input hp hplace hq
  obtain ⟨b, hb, rfl⟩ | hact | rfl := mem_actsOf.1 hact
  · have heq := (h.puts_unit hb hputs).1
    exact absurd ((List.cons.inj heq).1 ▸ List.mem_map_of_mem hb) hcopyUnit
  · obtain ⟨hnone, -⟩ | ⟨_, hp', -, rfl⟩ := mem_copyActs.1 hact
    · exact nomatch hp.symm.trans hnone
    · obtain rfl := Option.some.inj (hp.symm.trans hp')
      cases hputs with
      | copy hread _ =>
        obtain ⟨s, hs, hfile⟩ := read_eq_ok.1 hread
        rwa [Except.ok.inj (hplace.symm.trans hs)]
  · exact absurd (List.cons.inj (h.puts_index hputs).1).1 hcopyIndex

end

/-! ## Runs -/

/-- **What stands in the output directory and around it after a run** from `t` to `t'`: every unit's
text, the source's copy, and the index of the units in `d`, where the directory is; and all other
files as they were, the one that the source was read from among them. -/
structure Written (emit : EmitConfig) (directory : Path) (builders : List BuilderSpec)
    (source : SourceFile) (t t' : FileTree) (d : Place) : Prop where
  place : t'.place directory = .ok d
  units : ∀ b ∈ builders, ∃ text, renderBuilder emit b source.stem = .ok text ∧
    t'.get? (unitName emit b :: d) = some (.file text.toUTF8)
  inMemory : source.path = none →
    t'.get? (source.fileName :: d) = some (.file source.text.toUTF8)
  copy : ∀ p ∈ source.path, ∀ content, t'.read p = .ok content →
    t'.get? (source.fileName :: d) = some (.file content)
  input : ∀ p ∈ source.path, ∀ content, t.read p = .ok content → t'.read p = .ok content
  index : t'.get? (indexName emit :: d) =
    some (.file (linesText (builders.map fun b => indexLine emit b.className)).toUTF8)
  directories : ∀ q, t.get? q = some .directory → t'.get? q = some .directory
  others : ∀ q, (∀ b ∈ builders, q ≠ unitName emit b :: d) → q ≠ source.fileName :: d →
    q ≠ indexName emit :: d →
      ∀ content, t'.get? q = some (.file content) ↔ t.get? q = some (.file content)

section
variable {t t₁ t' t'' : FileTree} {d q : Place} {content : ByteArray} {acts : List FileAct}

open FileTree

/-- **What a run leaves alone**, seen from the tree in which the output directory is there. -/
theorem Ready.get?_of_run (h : Ready t d emit directory builders source)
    (hkept : ∀ q, (∀ act ∈ actsOf emit t.currentDirectory directory builders source, ∀ content,
      ¬ Puts t act q content) → t'.get? q = t.get? q)
    (hunits : ∀ b ∈ builders, q ≠ unitName emit b :: d) (hsource : q ≠ source.fileName :: d)
    (hindex : q ≠ indexName emit :: d) : t'.get? q = t.get? q := by
  refine hkept q fun act hact content hputs => ?_
  obtain ⟨b, hb, hq⟩ | hq | hq := h.puts_acts hact hputs
  · exact hunits b hb hq
  · exact hsource hq
  · exact hindex hq

/-- **The source's place is written to by no other act** than its own copy's. -/
theorem Ready.get?_of_input (h : Ready t d emit directory builders source)
    (hkept : ∀ q, (∀ act ∈ actsOf emit t.currentDirectory directory builders source, ∀ content,
      ¬ Puts t act q content) → t'.get? q = t.get? q)
    {d' : Place} (hne : d' ≠ d) :
    t'.get? (source.fileName :: d') = t.get? (source.fileName :: d') :=
  h.get?_of_run hkept (fun _ _ heq => hne (List.cons.inj heq).2)
    (fun heq => hne (List.cons.inj heq).2) fun heq => hne (List.cons.inj heq).2

/-- A source in the output directory under its own name is not copied, nor is anything else written
to it. -/
theorem Ready.get?_of_input_there (h : Ready t d emit directory builders source)
    (hkept : ∀ q, (∀ act ∈ actsOf emit t.currentDirectory directory builders source, ∀ content,
      ¬ Puts t act q content) → t'.get? q = t.get? q)
    {p : Path} (hp : source.path = some p) (hplace : t.place p = .ok (source.fileName :: d))
    (hname : IsFileName source.fileName) :
    t'.get? (source.fileName :: d) = t.get? (source.fileName :: d) := by
  have hfree := h.free
  rw [Conflicting, not_or, not_or] at hfree
  obtain ⟨hcopyUnit, hcopyIndex, -⟩ := hfree
  refine hkept _ fun act hact content hputs => ?_
  obtain ⟨b, hb, rfl⟩ | hact | rfl := mem_actsOf.1 hact
  · have heq := (h.puts_unit hb hputs).1
    exact absurd ((List.cons.inj heq).1 ▸ List.mem_map_of_mem hb) hcopyUnit
  · obtain ⟨hnone, -⟩ | ⟨p', hp', hne, -⟩ := mem_copyActs.1 hact
    · exact nomatch hp.symm.trans hnone
    · obtain rfl := Option.some.inj (hp.symm.trans hp')
      exact hne ((h.tree.resolve hplace).trans (h.tree.resolve_child h.place hname).symm)
  · exact hcopyIndex (List.cons.inj (h.puts_index hputs).1).1

/-- **What a run into a directory that is there leaves behind**, in whatever order the files are
written. -/
theorem Ready.written (h : Ready t₁ d emit directory builders source) (hgrows : Grows t t₁)
    (htexts : ∀ b ∈ builders, ∃ text, renderBuilder emit b source.stem = .ok text)
    (hperm : acts.Perm (actsOf emit t₁.currentDirectory directory builders source))
    (hrun : FileAccess.performAll (m := StateM FileTree) acts t₁ = (.ok (), t')) :
    Written emit directory builders source t t' d := by
  obtain ⟨hsame, hdone, hkept⟩ := performAll_file (h.independent.perm hperm) hrun
  replace hdone := fun act hact => hdone act (hperm.mem_iff.2 hact)
  replace hkept : ∀ q, (∀ act ∈ actsOf emit t₁.currentDirectory directory builders source,
      ∀ content, ¬ Puts t₁ act q content) → t'.get? q = t₁.get? q :=
    fun q hq => hkept q fun act hact => hq act (hperm.subset hact)
  -- whatever the source's path leads to is there before the files are written
  have hinput : ∀ p ∈ source.path, ∀ s, t₁.place p = .ok s → t₁.get? s ≠ some .directory →
      IsFileName source.fileName ∧ ∃ d', s = source.fileName :: d' := fun p hp s hs hfile =>
    h.name_of_input hp hs hfile
  constructor
  case place => exact hsame.place_iff.2 h.place
  case units =>
    intro b hb
    obtain ⟨text, htext⟩ := htexts b hb
    obtain ⟨q, c, hputs, hq⟩ := hdone _ (mem_actsOf.2 (.inl ⟨b, hb, rfl⟩))
    obtain ⟨rfl, rfl⟩ := h.puts_unit hb hputs
    rw [unitText, htext] at hq
    exact ⟨text, htext, hq⟩
  case inMemory =>
    intro hpath
    obtain ⟨q, c, hputs, hq⟩ := hdone _ (mem_actsOf.2 (.inr (.inl
      (mem_copyActs.2 (.inl ⟨hpath, rfl⟩)))))
    obtain ⟨rfl, rfl⟩ := puts_write h.place (h.named.inMemory hpath) hputs
    exact hq
  case copy =>
    intro p hp content hread
    obtain ⟨s, hs, hfile⟩ := read_eq_ok.1 hread
    have hs₁ := hsame.place_iff.1 hs
    have hdir : t₁.get? s ≠ some .directory := fun hdir =>
      nomatch hfile.symm.trans ((hsame.directory s).2 hdir)
    obtain ⟨hname, d', rfl⟩ := hinput p hp s hs₁ hdir
    by_cases hd : d' = d
    · exact hd ▸ hfile
    · rw [h.get?_of_input hkept hd] at hfile
      have hne : Path.resolve t₁.currentDirectory p ≠
          Path.resolve t₁.currentDirectory (copyPath directory source) := by
        rw [h.tree.resolve hs₁, copyPath, h.tree.resolve_child h.place hname]
        intro heq
        exact hd (List.cons.inj (List.reverse_inj.1 (Path.mk.inj heq).2)).2
      have hact := mem_copyActs.2 (.inr ⟨p, hp, hne, rfl⟩)
      obtain ⟨q, c, hputs, hq⟩ := hdone _ (mem_actsOf.2 (.inr (.inl hact)))
      obtain rfl := h.puts_copy hact hputs
      cases hputs with
      | copy hcopy _ =>
        obtain rfl := Except.ok.inj (hcopy.symm.trans (read_eq_ok.2 ⟨_, hs₁, hfile⟩))
        exact hq
  case input =>
    intro p hp content hread
    obtain ⟨s, hs, hfile⟩ := read_eq_ok.1 (hgrows.read hread)
    refine read_eq_ok.2 ⟨s, hsame.place_iff.2 hs, ?_⟩
    obtain ⟨hname, d', rfl⟩ := hinput p hp s hs (by rw [hfile]; nofun)
    by_cases hd : d' = d
    · subst hd
      rw [h.get?_of_input_there hkept hp hs hname, hfile]
    · rw [h.get?_of_input hkept hd, hfile]
  case index =>
    obtain ⟨q, c, hputs, hq⟩ := hdone _ (mem_actsOf.2 (.inr (.inr rfl)))
    obtain ⟨rfl, rfl⟩ := h.puts_index hputs
    rw [renderIndex, List.map_map] at hq
    exact hq
  case directories => exact fun q hq => (hsame.directory q).2 (hgrows.directory q hq)
  case others =>
    intro q hunits hsource hindex content
    rw [h.get?_of_run hkept hunits hsource hindex]
    exact hgrows.file q content

/-- **None of the files of a run is refused**, in whatever order, where each has a place that is no
directory and the source can be read. -/
theorem Ready.exists_run (h : Ready t d emit directory builders source)
    (hplaces : ∀ name ∈ builders.map (unitName emit) ++ [source.fileName, indexName emit],
      ∃ q, t.place (directory.child name) = .ok q ∧ t.get? q ≠ some .directory)
    (hread : ∀ p ∈ source.path, ∃ content, t.read p = .ok content)
    (hperm : acts.Perm (actsOf emit t.currentDirectory directory builders source)) :
    ∃ t', FileAccess.performAll (m := StateM FileTree) acts t = (.ok (), t') := by
  obtain ⟨hunits, hothers⟩ := List.forall_mem_append.1 hplaces
  obtain ⟨⟨copied, hcopied, hnotCopied⟩, hothers⟩ := List.forall_mem_cons.1 hothers
  obtain ⟨index, hindex, hnotIndex⟩ := hothers _ List.mem_cons_self
  refine (exists_performAll_iff (h.independent.perm hperm)).2 fun act hact => ?_
  obtain ⟨b, hb, rfl⟩ | hcopy | rfl := mem_actsOf.1 (hperm.subset hact)
  · obtain ⟨q, hplace, hq⟩ := hunits _ (List.mem_map_of_mem hb)
    exact ⟨q, _, .write hplace, hq⟩
  · obtain ⟨-, rfl⟩ | ⟨p, hp, -, rfl⟩ := mem_copyActs.1 hcopy
    · exact ⟨copied, _, .write hcopied, hnotCopied⟩
    · obtain ⟨content, hcontent⟩ := hread p hp
      exact ⟨copied, content, .copy hcontent hcopied, hnotCopied⟩
  · exact ⟨index, _, .write hindex, hnotIndex⟩

theorem write_eq_ok {o : Output} {paths : List Path} :
    o.write (m := StateM FileTree) t = (.ok paths, t') ↔
      ∃ t₁, t.makeDirectory o.directory = .ok t₁ ∧
        FileAccess.performAll (m := StateM FileTree) o.acts t₁ = (.ok (), t') ∧
          paths = o.targets := by
  rw [Output.write, bind_apply]
  cases hmade : t.perform (.makeDirectory o.directory) with
  | error e =>
    rw [perform_of_error hmade]
    change ((.error e, t) : Except FileError (List Path) × FileTree) = _ ↔ _
    change t.makeDirectory o.directory = _ at hmade
    simp [hmade]
  | ok t₁ =>
    rw [perform_of_ok hmade]
    change t.makeDirectory o.directory = _ at hmade
    simp only [hmade, Except.ok.injEq, exists_eq_left']
    rw [bind_apply]
    rcases hrun : FileAccess.performAll (m := StateM FileTree) o.acts t₁ with ⟨e | _, last⟩
    · change ((.error e, last) : Except FileError (List Path) × FileTree) = _ ↔
        ((.error e, last) : Except FileError Unit × FileTree) = (.ok (), t') ∧ _
      simp
    · change ((.ok o.targets, last) : Except FileError (List Path) × FileTree) = _ ↔
        ((.ok (), last) : Except FileError Unit × FileTree) = (.ok (), t') ∧ _
      simp [and_comm, @eq_comm _ paths]

/-- **A refused plan leaves everything as it is.** -/
theorem writePlan_of_error {cause : OutputError}
    (h : plan emit t.currentDirectory directory builders source = .error cause) :
    writePlan (m := StateM FileTree) emit directory builders source t =
      (.error (.unwritable directory cause), t) := by
  simp only [writePlan, bind_apply, FileAccess.currentDirectory, h]
  rfl

/-- **Only a refused plan is reported as one.** -/
theorem plan_of_writePlan {cause : OutputError}
    (h : writePlan (m := StateM FileTree) emit directory builders source t =
      (.error (.unwritable directory cause), t')) :
    plan emit t.currentDirectory directory builders source = .error cause ∧ t' = t := by
  cases hplan : plan emit t.currentDirectory directory builders source with
  | error other =>
    have hrefused := (writePlan_of_error hplan).symm.trans h
    cases hrefused
    exact ⟨rfl, rfl⟩
  | ok o =>
    simp only [writePlan, bind_apply, FileAccess.currentDirectory, hplan] at h
    rcases hrun : o.write (m := StateM FileTree) t with ⟨e | files, last⟩
    · rw [hrun] at h
      cases h
    · rw [hrun] at h
      cases h

theorem plan_eq_conflict {current target : Path} :
    plan emit current directory builders source = .error (.conflict target) ↔
      firstRepeated? (targetsOf emit directory builders source) = some target := by
  rw [plan]
  cases hrepeated : firstRepeated? (targetsOf emit directory builders source) with
  | some p => simp
  | none =>
    simp only [reduceCtorEq, iff_false]
    split
    · simp
    · simp

theorem two_le_count_of_firstRepeated? {ps : List Path} {p : Path}
    (h : firstRepeated? ps = some p) : 2 ≤ ps.count p := by
  induction ps with
  | nil => exact nomatch h
  | cons p' ps ih =>
    rw [firstRepeated?] at h
    split at h
    · next hmem =>
      obtain rfl := Option.some.inj h
      have hcount := List.count_pos_iff.2 (List.contains_iff_mem.1 hmem)
      rw [List.count_cons_self]
      omega
    · exact (ih h).trans List.count_le_count_cons

end

end Output

/-! ## Plans from a source text -/

section
variable {config : Config} {text modulePath : String} {input : Option String} {strict : Bool}
  {source : SourceFile} {planned : Plan}

/-- **A source that was not read from a file** is named by its module. -/
theorem isFileName_of_inMemory (h : source.path = none) : IsFileName source.fileName := by
  have hname : '/' ∉ (Path.ofString source.modulePath).name.toList := by
    rw [Path.name]
    cases hlast : (Path.ofString source.modulePath).names.getLast? with
    | none => exact List.not_mem_nil
    | some last =>
      exact (Path.isRead_ofString source.modulePath last (List.mem_of_getLast? hlast)).2
  have hstem : '/' ∉ source.stem.toList := by
    rw [SourceFile.stem, h, Option.getD_none, stripModuleSuffix]
    split
    · rw [String.toList_ofList]
      exact fun hmem => hname (List.mem_of_mem_take hmem)
    · exact hname
  rw [SourceFile.fileName, h]
  exact isFileName_append hstem (by decide)

/-- **The names of planned files**, where neither the classes' suffix nor the index leads into
another directory. -/
theorem named_of_plan (hconfig : config.IsValid)
    (hsuffix : '/' ∉ config.naming.classSuffix.toList)
    (hindex : '/' ∉ config.emit.indexName.toList)
    (hsource : source = (readSource text modulePath (input.map Path.ofString) strict).value)
    (hplanned : plan config source = .ok planned) :
    Output.Named config.emit planned.builders source := by
  obtain ⟨ds, hends, rfl⟩ := plan_eq_ok.1 hplanned
  rw [hsource] at hends
  constructor
  case unit =>
    intro b hb
    have hname := (isName_of_isNameOver (isNameOver_of_mem_builders hends hb)).1.2
    rw [Output.unitName, className_of_mem_builders config hb]
    refine isFileName_append ?_ hconfig.emit.extension
    rw [String.toList_append, List.mem_append]
    exact not_or.2 ⟨hname, hsuffix⟩
  case units =>
    refine nodup_map_builders hends fun b hb b' hb' h => ?_
    rw [Output.unitName, Output.unitName, className_of_mem_builders config hb,
      className_of_mem_builders config hb'] at h
    exact (String.append_left_inj _).1 ((String.append_left_inj _).1 h)
  case index => exact isFileName_append hindex hconfig.emit.extension
  case input =>
    intro p hp
    have hpath : source.path = input.map Path.ofString := by
      rw [hsource]
      rfl
    rw [hpath] at hp
    obtain ⟨text, -, rfl⟩ := Option.map_eq_some_iff.1 hp
    exact Path.isRead_ofString text
  case inMemory => exact isFileName_of_inMemory

theorem exists_texts (hplanned : plan config source = .ok planned) (emit : EmitConfig)
    (stem : String) : ∀ b ∈ planned.builders, ∃ text, renderBuilder emit b stem = .ok text := by
  intro b hb
  obtain ⟨ds, -, rfl⟩ := plan_eq_ok.1 hplanned
  exact exists_renderBuilder hb emit stem

/-- **All files of a run are written to paths of their own, or nothing is.**  Two of the files share
a path exactly when the source's copy has the name of a unit or of the index, or a unit that of the
index; then the run ends with the conflict, and the tree, the output directory included, is as it
was.  Otherwise there is a plan, and whatever the order of its acts, a run of them in which none is
refused leaves in the output directory each unit's text, the copy of the source, and the index with
a line for each unit in order; leaves all other files as they were, the one that the source was read
from among them; and gives the paths in their order.  In every other order none is refused either,
and the tree is the same after it. -/
theorem distinct_files_or_nothing (hconfig : config.Accepted)
    (hsuffix : '/' ∉ config.naming.classSuffix.toList)
    (hindex : '/' ∉ config.emit.indexName.toList)
    (hsource : source = (readSource text modulePath (input.map Path.ofString) strict).value)
    (hplanned : plan config source = .ok planned) (directory : Path) {t : FileTree}
    (ht : t.IsTree) :
    let emit := config.emit
    let builders := planned.builders
    let targets := Output.targetsOf emit directory builders source
    (¬ targets.Nodup ↔ Output.Conflicting emit builders source) ∧
    (∀ target t', writePlan (m := StateM FileTree) emit directory builders source t =
        (.error (.unwritable directory (.conflict target)), t') → 2 ≤ targets.count target ∧ t' = t) ∧
    (Output.Conflicting emit builders source ↔ ∃ target t',
      writePlan (m := StateM FileTree) emit directory builders source t =
        (.error (.unwritable directory (.conflict target)), t')) ∧
    (¬ Output.Conflicting emit builders source → ∃ o,
      Output.plan emit t.currentDirectory directory builders source = .ok o ∧
      ∀ acts, acts.Perm o.acts → ∀ paths t',
        Output.write (m := StateM FileTree) { o with acts } t = (.ok paths, t') →
          paths = targets ∧
          (∃ d, Output.Written emit directory builders source t t' d) ∧
          ∀ acts', acts'.Perm o.acts → ∃ t'',
            Output.write (m := StateM FileTree) { o with acts := acts' } t = (.ok paths, t'') ∧
              ∀ q, t''.get? q = t'.get? q) := by
  intro emit builders targets
  have hnamed := named_of_plan (Config.accepted_iff.1 hconfig) hsuffix hindex hsource hplanned
  have hnodup : targets.Nodup ↔ ¬ Output.Conflicting emit builders source :=
    Output.nodup_targetsOf_iff hnamed
  have hconflict : ∀ target t', writePlan (m := StateM FileTree) emit directory builders source t =
      (.error (.unwritable directory (.conflict target)), t') →
        2 ≤ targets.count target ∧ t' = t := by
    intro target t' h
    obtain ⟨hplan, hsame⟩ := Output.plan_of_writePlan h
    exact ⟨Output.two_le_count_of_firstRepeated? (Output.plan_eq_conflict.1 hplan), hsame⟩
  refine ⟨not_iff_comm.1 hnodup.symm, hconflict, ⟨fun h => ?_, fun ⟨target, t', h⟩ => ?_⟩,
    fun hfree => ?_⟩
  · have hrepeated : Output.firstRepeated? targets ≠ none := fun hnone =>
      hnodup.1 (Output.firstRepeated?_eq_none.1 hnone) h
    obtain ⟨target, htarget⟩ := Option.ne_none_iff_exists'.1 hrepeated
    exact ⟨target, t, Output.writePlan_of_error (Output.plan_eq_conflict.2 htarget)⟩
  · by_contra hfree
    have htwice := (hconflict target t' h).1
    have honce := List.nodup_iff_count_le_one.1 (hnodup.2 hfree) target
    omega
  · have htexts := exists_texts hplanned emit source.stem
    refine ⟨_, Output.plan_eq_ok (hnodup.2 hfree) htexts, fun acts hperm paths t' hwrite => ?_⟩
    obtain ⟨t₁, hmade, hrun, rfl⟩ := Output.write_eq_ok.1 hwrite
    obtain ⟨hgrows, hthere⟩ := FileTree.makeDirectory_spec hmade
    obtain ⟨d, hplace, hd⟩ := FileTree.isDirectory_iff.1 hthere
    have hready : Output.Ready t₁ d emit directory builders source :=
      ⟨hgrows.isTree ht, hplace, hd, hnamed, hfree⟩
    have hcurrent : t₁.currentDirectory = t.currentDirectory := by
      rw [FileTree.currentDirectory, hgrows.current, FileTree.currentDirectory]
    rw [← hcurrent] at hperm
    refine ⟨rfl, ⟨d, hready.written hgrows htexts hperm hrun⟩, fun acts' hperm' => ?_⟩
    rw [← hcurrent] at hperm'
    obtain ⟨t'', hrun', hsame⟩ := FileTree.performAll_perm (hready.independent.perm hperm)
      (hperm'.trans hperm.symm) hrun
    exact ⟨t'', Output.write_eq_ok.2 ⟨t₁, hmade, hrun', rfl⟩, hsame⟩

end


/-! ### A run for one interface -/

/-- An interface with one field. -/
def userText : String := "interface User \x7b a: 'x' \x7d"

/-- What it declares. -/
def userInterface : InterfaceDeclaration where
  name := "User"
  heritage := []
  members := [.property "a" false false (some (.literal .string "x"))]
  parameters := []
  exported := false
  line := 1

theorem extract_userInterface {s : Scope}
    (hs : s.contents = { interfaces := [userInterface] }) :
    ∃ field : Field, extract s = .ok [⟨"User", .interface, [field], false, [], [], 1⟩] := by
  have hshape : interfaceShape s s.steps [] ["User"] [] userInterface =
      .ok (Property.ofMembers [] userInterface.members) := by
    rw [interfaceShape, show userInterface.heritage = [] from rfl, mergedShapes]
  have hfields : ∃ field, fieldsOf s s.steps (Property.ofMembers [] userInterface.members) =
      .ok [field] := by
    rw [show Property.ofMembers [] userInterface.members =
      [⟨"a", .property "a" false false (some (.literal .string "x")), []⟩] from rfl, fieldsOf,
      fieldsOf, fieldOf]
    simp only [memberTypes, collect_literal, Resolution.ok_bind]
    exact ⟨_, rfl⟩
  obtain ⟨field, hfield⟩ := hfields
  refine ⟨field, ?_⟩
  rw [extract, hs]
  simp only [List.mapM_nil, List.mapM_cons, extractInterface,
    show userInterface.name = "User" from rfl,
    show parameterEnv userInterface.parameters = [] from rfl, hshape, hfield, Resolution.ok_bind]
  rfl

/-- The source file that was read from it. -/
def userSource : SourceFile :=
  (readSource userText "/w/user" (some (Path.ofString "user.ts")) true).value

/-- A tree with this file in its working directory. -/
def userTree : FileTree :=
  (FileTree.empty ["w"]).set ["user.ts", "w"] (.file userText.toUTF8)

theorem isTree_userTree : userTree.IsTree :=
  (FileTree.isTree_empty (by decide)).set (p := Path.ofString "user.ts") rfl
    (fun h => absurd (FileTree.get?_empty.1 h).2 (by decide)) _

theorem fileName_userSource : userSource.fileName = "user.ts" := by decide +kernel

theorem plan_userSource : ∃ planned field, plan {} userSource = .ok planned ∧
    planned.builders = [builderSpec {} ⟨"User", .interface, [field], false, [], [], 1⟩] := by
  have hcontents : userSource.contents = { interfaces := [userInterface] } := by decide +kernel
  obtain ⟨field, hends⟩ := extract_userInterface (s := Scope.ofFile userSource) hcontents
  exact ⟨_, field, plan_eq_ok.2 ⟨_, hends, rfl⟩, rfl⟩

/-- A run into a directory that is not there yet, the files written in the opposite order. -/
theorem distinct_files_or_nothing_user :
    let config : Config := {}
    let out : Path := ⟨.relative, ["out"]⟩
    userTree.IsTree ∧ ∃ planned o t', plan config userSource = .ok planned ∧
      Output.plan config.emit userTree.currentDirectory out planned.builders userSource = .ok o ∧
      Output.write (m := StateM FileTree) { o with acts := o.acts.reverse } userTree =
        (.ok (["UserBuilder.ts", "user.ts", "index.ts"].map out.child), t') ∧
      t'.get? ["user.ts", "out", "w"] = some (.file userText.toUTF8) ∧
      t'.get? ["index.ts", "out", "w"] =
        some (.file "export * from './UserBuilder';\n".toUTF8) := by
  intro config out
  have hconfig : config.Accepted := ⟨_, Config.check_toJson Config.isValid_default⟩
  have hsource : userSource =
      (readSource userText "/w/user" ((some "user.ts").map Path.ofString) true).value := rfl
  obtain ⟨planned, field, hplanned, hbuilders⟩ := plan_userSource
  have hunits : planned.builders.map (Output.unitName config.emit) = ["UserBuilder.ts"] := by
    rw [hbuilders]
    rfl
  have hfree : ¬ Output.Conflicting config.emit planned.builders userSource := by
    rw [Output.Conflicting, hunits, fileName_userSource]
    decide
  obtain ⟨-, -, -, hrun⟩ := distinct_files_or_nothing hconfig (by decide) (by decide) hsource
    hplanned out isTree_userTree
  obtain ⟨o, ho, hwritten⟩ := hrun hfree
  -- the directory is made before the files are written
  let t₁ := userTree.set ["out", "w"] .directory
  have hmade : userTree.makeDirectory out = .ok t₁ := rfl
  have hgrows := (FileTree.makeDirectory_spec hmade).1
  have hready : Output.Ready t₁ ["out", "w"] config.emit out planned.builders userSource :=
    ⟨hgrows.isTree isTree_userTree, rfl, rfl,
      named_of_plan (Config.accepted_iff.1 hconfig) (by decide) (by decide) hsource hplanned, hfree⟩
  obtain rfl := Except.ok.inj (ho.symm.trans (Output.plan_eq_ok
    ((Output.nodup_targetsOf_iff hready.named).2 hfree) (exists_texts hplanned _ _)))
  have hplaces : ∀ name ∈ planned.builders.map (Output.unitName config.emit) ++
      [userSource.fileName, Output.indexName config.emit],
      ∃ q, t₁.place (out.child name) = .ok q ∧ t₁.get? q ≠ some .directory := by
    rw [hunits, fileName_userSource]
    change ∀ name ∈ ["UserBuilder.ts", "user.ts", "index.ts"], _
    simp only [List.forall_mem_cons, List.not_mem_nil, false_implies, implies_true, and_true]
    exact ⟨⟨_, rfl, nofun⟩, ⟨_, rfl, nofun⟩, ⟨_, rfl, nofun⟩⟩
  have hpath : Path.ofString "user.ts" ∈ userSource.path := rfl
  have hread : userTree.read (Path.ofString "user.ts") = .ok userText.toUTF8 := rfl
  have hreverse := List.reverse_perm
    (Output.actsOf config.emit t₁.currentDirectory out planned.builders userSource)
  obtain ⟨t', hperformed⟩ := hready.exists_run hplaces
    (fun p hp => ⟨_, Option.some.inj (hpath.symm.trans hp) ▸ hgrows.read hread⟩) hreverse
  have hwrite : Output.write (m := StateM FileTree) ⟨out,
      Output.targetsOf config.emit out planned.builders userSource, (Output.actsOf config.emit
        t₁.currentDirectory out planned.builders userSource).reverse⟩ userTree = (.ok _, t') :=
    Output.write_eq_ok.2 ⟨t₁, hmade, hperformed, rfl⟩
  obtain ⟨-, ⟨d, hd⟩, -⟩ := hwritten _ hreverse _ _ hwrite
  have hsame := (FileTree.performAll_file (hready.independent.perm hreverse) hperformed).1
  obtain rfl := Except.ok.inj (hd.place.symm.trans (hsame.place_iff.2 hready.place))
  have hcopy := hd.copy _ hpath _ (hd.input _ hpath _ hread)
  rw [fileName_userSource] at hcopy
  have hlines : linesText (planned.builders.map fun b => indexLine config.emit b.className) =
      "export * from './UserBuilder';\n" := by
    rw [hbuilders]
    change linesText [indexLine {} "UserBuilder"] = _
    decide +kernel
  have hindex := hd.index
  rw [hlines] at hindex
  have htargets : Output.targetsOf config.emit out planned.builders userSource =
      ["UserBuilder.ts", "user.ts", "index.ts"].map out.child := by
    rw [hbuilders, Output.targetsOf, Output.copyPath, fileName_userSource]
    rfl
  refine ⟨isTree_userTree, planned, _, t', hplanned, ho, ?_, hcopy, hindex⟩
  rw [← htargets]
  exact hwrite

end FluentBuilders
