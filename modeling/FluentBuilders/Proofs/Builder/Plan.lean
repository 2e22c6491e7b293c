import FluentBuilders.Generation.Output
import FluentBuilders.Proofs.Builder.Methods
import FluentBuilders.Proofs.Files.Path
import FluentBuilders.Proofs.Resolve.Locality
import FluentBuilders.Proofs.Resolve.Termination

/-!
# Proofs/Builder/Plan — every declaration of a file has its one place in the plan

What a file declares is listed once and in order, each alias and interface becomes a builder or a
skip, and builders of different declarations have classes and files of their own
(`nothing_lost_or_doubled`).
-/

namespace FluentBuilders

/-! ## Plans -/

section
variable (config : Config)

theorem builders_planOf (ds : List StructuralDeclaration) :
    (planOf config ds).builders =
      (ds.filter fun d => (skipReason? d).isNone).map (builderSpec config) := by
  induction ds with
  | nil => rfl
  | cons d ds ih =>
    rw [planOf, synthesize]
    cases h : skipReason? d <;> simp [h, ih]

theorem skips_planOf (ds : List StructuralDeclaration) :
    (planOf config ds).skips =
      ds.filterMap fun d => (skipReason? d).map fun reason => ⟨d.name, reason⟩ := by
  induction ds with
  | nil => rfl
  | cons d ds ih =>
    rw [planOf, synthesize]
    cases h : skipReason? d <;> simp [h, ih]

theorem declarationNames_builders (ds : List StructuralDeclaration) :
    (planOf config ds).builders.map (·.declarationName) =
      (ds.filter fun d => (skipReason? d).isNone).map (·.name) := by
  rw [builders_planOf, List.map_map]
  rfl

theorem declarationNames_skips (ds : List StructuralDeclaration) :
    (planOf config ds).skips.map (·.declarationName) =
      (ds.filter fun d => !(skipReason? d).isNone).map (·.name) := by
  rw [skips_planOf]
  induction ds with
  | nil => rfl
  | cons d ds ih => cases h : skipReason? d <;> simp_all

/-- A builder's class is named by its declaration and the classes' suffix. -/
theorem className_of_mem_builders {ds : List StructuralDeclaration} {b : BuilderSpec}
    (hb : b ∈ (planOf config ds).builders) :
    b.className = b.declarationName ++ config.naming.classSuffix := by
  rw [builders_planOf] at hb
  obtain ⟨d, -, rfl⟩ := List.mem_map.1 hb
  rfl

end

theorem plan_eq_ok {config : Config} {f : SourceFile} {planned : Plan} :
    plan config f = .ok planned ↔
      ∃ ds, extract (Scope.ofFile f) = .ok ds ∧ planned = planOf config ds := by
  rw [plan, Resolution.bind_eq_ok]
  refine exists_congr fun ds => and_congr_right fun _ => ?_
  exact ⟨fun h => (Except.ok.inj h).symm, fun h => congrArg _ h.symm⟩

/-- **Unions and generic declarations are skipped with a warning**, which names them. -/
theorem diagnostic?_of_skip (s : Skip) :
    (s.diagnostic?.isSome = true ↔ s.reason = .union ∨ s.reason = .generic) ∧
      ∀ text ∈ s.diagnostic?, ∃ front, text = front ++ s.declarationName := by
  unfold Skip.diagnostic?
  cases s.reason <;> simp

/-! ## Extraction -/

section
variable {s : Scope} {ds : List StructuralDeclaration}

/-- What tells declarations apart: their kind, their name, and their line. -/
def StructuralDeclaration.identity (d : StructuralDeclaration) : DeclarationKind × String × Nat :=
  (d.kind, d.name, d.line)

theorem identity_of_extractAlias {d : AliasDeclaration} {r : StructuralDeclaration}
    (h : extractAlias s d = .ok r) : r.identity = (.alias, d.name, d.line) := by
  obtain ⟨⟨properties, isUnion⟩, -, h⟩ := Resolution.bind_eq_ok.1 h
  obtain ⟨fields, -, h⟩ := Resolution.bind_eq_ok.1 h
  split at h <;> obtain ⟨members, -, h⟩ := Resolution.bind_eq_ok.1 h <;> cases h <;> rfl

theorem identity_of_extractInterface {d : InterfaceDeclaration} {r : StructuralDeclaration}
    (h : extractInterface s d = .ok r) : r.identity = (.interface, d.name, d.line) := by
  obtain ⟨properties, -, h⟩ := Resolution.bind_eq_ok.1 h
  obtain ⟨fields, -, h⟩ := Resolution.bind_eq_ok.1 h
  cases h
  rfl

theorem map_of_mapM {α β : Type} {f : α → Resolution StructuralDeclaration} {key : α → β}
    {of : StructuralDeclaration → β} (hkey : ∀ x r, f x = .ok r → of r = key x) {xs : List α}
    {rs : List StructuralDeclaration} (h : xs.mapM f = .ok rs) : rs.map of = xs.map key := by
  induction xs generalizing rs with
  | nil =>
    cases h
    rfl
  | cons x xs ih =>
    rw [List.mapM_cons] at h
    obtain ⟨r, hr, h⟩ := Resolution.bind_eq_ok.1 h
    obtain ⟨others, hothers, h⟩ := Resolution.bind_eq_ok.1 h
    cases h
    rw [List.map_cons, List.map_cons, hkey x r hr, ih hothers]

/-- **Every alias is listed, then every interface**, once and in order. -/
theorem identities_of_extract (h : extract s = .ok ds) :
    ds.map (·.identity) =
      s.contents.aliases.map (fun d => (DeclarationKind.alias, d.name, d.line)) ++
        s.contents.interfaces.map fun d => (DeclarationKind.interface, d.name, d.line) := by
  obtain ⟨aliases, haliases, h⟩ := Resolution.bind_eq_ok.1 h
  obtain ⟨interfaces, hinterfaces, h⟩ := Resolution.bind_eq_ok.1 h
  cases h
  rw [List.map_append, map_of_mapM (fun _ _ => identity_of_extractAlias) haliases,
    map_of_mapM (fun _ _ => identity_of_extractInterface) hinterfaces]

theorem names_of_extract (h : extract s = .ok ds) :
    ds.map (·.name) = s.contents.aliases.map (·.name) ++ s.contents.interfaces.map (·.name) := by
  have hnames := congrArg (List.map fun i => i.2.1) (identities_of_extract h)
  simpa [StructuralDeclaration.identity, Function.comp_def] using hnames

end

/-! ## Files of their own -/

section
variable {text modulePath : String} {path : Option Path} {strict : Bool}
  {ds : List StructuralDeclaration}

theorem isName_of_isNameOver {name : String}
    (h : Text.isNameOver Text.isNamePart name.toList = true) :
    Path.IsName name ∧ name.toList.head? ≠ some '.' := by
  cases hcs : name.toList with
  | nil => rw [hcs] at h; cases h
  | cons c cs =>
    rw [hcs, Text.isNameOver, Bool.and_eq_true, List.all_eq_true] at h
    obtain ⟨hstart, hparts⟩ := h
    have hdot : c ≠ '.' := by
      rintro rfl
      exact absurd hstart (by decide)
    have hslash : '/' ∉ name.toList := by
      rw [hcs]
      rintro (_ | ⟨_, hmem⟩)
      · exact absurd hstart (by decide)
      · exact absurd (hparts _ hmem) (by decide)
    refine ⟨⟨?_, hslash⟩, by simpa using hdot⟩
    simp [Path.isStep, ← String.toList_inj, hcs, hdot]

variable (hends : extract (Scope.ofFile (readSource text modulePath path strict).value) = .ok ds)
include hends

theorem nodup_names_of_extract : (ds.map (·.name)).Nodup := by
  have hnodup := nodup_names_readSource text modulePath path strict
  rw [names_of_extract hends]
  rw [Contents.names, Contents.declarations, List.map_append, List.map_append, List.map_map,
    List.map_map] at hnodup
  exact hnodup.of_append_left

/-- **A declaration that is listed is named by an identifier.** -/
theorem isNameOver_of_mem_extract {d : StructuralDeclaration} (hd : d ∈ ds) :
    Text.isNameOver Text.isNamePart d.name.toList = true := by
  have hall := isNameOver_of_mem_declarations text modulePath path strict
  have hmem : d.name ∈ ds.map (·.name) := List.mem_map_of_mem hd
  rw [names_of_extract hends, List.mem_append] at hmem
  simp only [Contents.declarations, List.forall_mem_append, List.forall_mem_map] at hall
  obtain ⟨⟨haliases, hinterfaces⟩, -⟩ := hall
  rcases hmem with hmem | hmem
  · obtain ⟨e, he, heq⟩ := List.mem_map.1 hmem
    exact heq ▸ haliases e he
  · obtain ⟨e, he, heq⟩ := List.mem_map.1 hmem
    exact heq ▸ hinterfaces e he

theorem nodup_declarationNames_builders (config : Config) :
    ((planOf config ds).builders.map (·.declarationName)).Nodup := by
  rw [declarationNames_builders]
  exact (nodup_names_of_extract hends).sublist (List.filter_sublist.map _)

theorem isNameOver_of_mem_builders {config : Config} {b : BuilderSpec}
    (hb : b ∈ (planOf config ds).builders) :
    Text.isNameOver Text.isNamePart b.declarationName.toList = true := by
  rw [builders_planOf] at hb
  obtain ⟨d, hd, rfl⟩ := List.mem_map.1 hb
  exact isNameOver_of_mem_extract hends (List.mem_of_mem_filter hd)

/-- What tells declarations apart tells their builders apart. -/
theorem nodup_map_builders {config : Config} {α : Type} {f : BuilderSpec → α}
    (hf : ∀ b ∈ (planOf config ds).builders, ∀ b' ∈ (planOf config ds).builders,
      f b = f b' → b.declarationName = b'.declarationName) :
    ((planOf config ds).builders.map f).Nodup := by
  have hnodup := nodup_declarationNames_builders hends config
  refine List.Nodup.map_on (fun b hb b' hb' h => ?_) (List.Nodup.of_map _ hnodup)
  exact List.inj_on_of_nodup_map hnodup hb hb' (hf b hb b' hb' h)

/-- **Builders of different declarations have classes of their own.** -/
theorem nodup_classNames (config : Config) :
    ((planOf config ds).builders.map (·.className)).Nodup :=
  nodup_map_builders hends fun b hb b' hb' h => by
    rw [className_of_mem_builders config hb, className_of_mem_builders config hb'] at h
    exact (String.append_left_inj _).1 h

/-- **Builders of different declarations have files of their own**, whatever stands in the classes'
suffix. -/
theorem nodup_unitPaths (config : Config) (directory : Path) :
    ((planOf config ds).builders.map (Output.unitPath config.emit directory)).Nodup :=
  nodup_map_builders hends fun b hb b' hb' h => by
    obtain ⟨hname, hdot⟩ := isName_of_isNameOver (isNameOver_of_mem_builders hends hb)
    obtain ⟨hname', hdot'⟩ := isName_of_isNameOver (isNameOver_of_mem_builders hends hb')
    rw [Output.unitPath, Output.unitPath, className_of_mem_builders config hb,
      className_of_mem_builders config hb', String.append_assoc, String.append_assoc] at h
    exact Path.child_append_injective hname hname' hdot hdot' h

end

/-- **No declaration is lost or doubled** on the way from a text to its plan.  The names that a file
declares are distinct, each finds its declaration, and the declarations of a kind are in the order of
their lines.  Where extraction ends it lists every alias, then every interface, once and in order; of
each there is a builder or a skip, not both, in the same order again; the skips with a warning, which
names the declaration, are the unions and the generic declarations; and the builders' classes and
files all have names of their own. -/
theorem nothing_lost_or_doubled {text modulePath : String} {path : Option Path} {strict : Bool}
    {ds : List StructuralDeclaration}
    (hends : extract (Scope.ofFile (readSource text modulePath path strict).value) = .ok ds)
    (config : Config) :
    let file := (readSource text modulePath path strict).value
    let c := file.contents
    (c.names.Nodup ∧ ∀ d ∈ c.declarations, c.find? d.name = some d) ∧
    ((c.aliases.map (·.line)).Pairwise (· ≤ ·) ∧ (c.interfaces.map (·.line)).Pairwise (· ≤ ·) ∧
      (c.enums.map (·.line)).Pairwise (· ≤ ·)) ∧
    ds.map (·.identity) = c.aliases.map (fun d => (.alias, d.name, d.line)) ++
      c.interfaces.map (fun d => (.interface, d.name, d.line)) ∧
    ∃ planned, plan config file = .ok planned ∧
      ((planned.builders.map (·.declarationName)).Sublist (ds.map (·.name)) ∧
        (planned.skips.map (·.declarationName)).Sublist (ds.map (·.name)) ∧
        (planned.builders.map (·.declarationName) ++ planned.skips.map (·.declarationName)).Perm
          (ds.map (·.name))) ∧
      (∀ skip ∈ planned.skips,
        (skip.diagnostic?.isSome = true ↔ skip.reason = .union ∨ skip.reason = .generic) ∧
          ∀ text ∈ skip.diagnostic?, ∃ front, text = front ++ skip.declarationName) ∧
      (planned.builders.map (·.className)).Nodup ∧
      (planned.builders.map fun b => b.className ++ config.emit.extension).Nodup ∧
      ∀ directory, (planned.builders.map (Output.unitPath config.emit directory)).Nodup := by
  intro file c
  have hnames : c.names.Nodup := nodup_names_readSource text modulePath path strict
  obtain ⟨line, horder⟩ := inOrder_readSource text modulePath path strict
  have hplan : plan config file = .ok (planOf config ds) := plan_eq_ok.2 ⟨ds, hends, rfl⟩
  refine ⟨⟨hnames, fun d hd => Contents.find?_of_mem hnames hd⟩,
    ⟨horder.aliases, horder.interfaces, horder.enums⟩, identities_of_extract hends,
    planOf config ds, hplan, ⟨?_, ?_, ?_⟩, fun skip _ => diagnostic?_of_skip skip,
    nodup_classNames hends config, ?_, nodup_unitPaths hends config⟩
  · rw [declarationNames_builders]
    exact List.filter_sublist.map _
  · rw [declarationNames_skips]
    exact List.filter_sublist.map _
  · rw [declarationNames_builders, declarationNames_skips, ← List.map_append]
    exact (List.filter_append_perm _ ds).map _
  · refine nodup_map_builders hends fun b hb b' hb' h => ?_
    rw [className_of_mem_builders config hb, className_of_mem_builders config hb'] at h
    exact (String.append_left_inj _).1 ((String.append_left_inj _).1 h)

/-- A file with a union, a generic alias, an enum, and an interface that is declared twice. -/
def mixedText : String :=
  "type U = 'a' | 'b'\ninterface I \x7b x: U \x7d\nenum E \x7b Q \x7d\n" ++
    "type G<T> = \x7b t: T \x7d\ninterface I \x7b z: string \x7d\n"

/-- Its three declarations are in the plan, also when classes are named like paths. -/
theorem nothing_lost_or_doubled_mixed :
    let config : Config := { naming := { classSuffix := "/../B" } }
    let file := (readSource mixedText "/m" none true).value
    file.contents.names = ["U", "G", "I", "E"] ∧
      ∃ ds planned, extract (Scope.ofFile file) = .ok ds ∧ plan config file = .ok planned ∧
        ds.map (·.identity) = [(.alias, "U", 1), (.alias, "G", 4), (.interface, "I", 2)] ∧
        (planned.builders.map (·.declarationName) ++ planned.skips.map (·.declarationName)).Perm
          (ds.map (·.name)) ∧
        (planned.builders.map (Output.unitPath config.emit ⟨.slash, ["out"]⟩)).Nodup := by
  intro config file
  have hc : (Scope.ofFile file).contents.Unindexed := by unfold Contents.Unindexed; decide +kernel
  obtain ⟨ds, hends⟩ := exists_extract hc (by decide +kernel)
  obtain ⟨-, -, hidentities, planned, hplan, ⟨-, -, hperm⟩, -, -, -, hunits⟩ :=
    nothing_lost_or_doubled hends config
  exact ⟨by decide +kernel, ds, planned, hends, hplan, hidentities.trans (by decide +kernel), hperm,
    hunits _⟩

end FluentBuilders
