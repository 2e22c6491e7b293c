import FluentBuilders.Builder.Synthesis
import Mathlib.Data.List.Nodup
import Mathlib.Data.List.Perm.Subperm

/-!
# Proofs/Builder/Methods — the methods of a builder and their names

Setters come one for each field, in the order of the fields, under names that differ from each other.
The names of the two fixed methods are free to choose: they are told apart from each other, but a
setter's name can be one of them.
-/

namespace FluentBuilders

/-! ## Free names -/

/-- A number after a name tells which it is. -/
theorem numbered_inj {name : String} {m n : Nat} (h : name ++ toString m = name ++ toString n) :
    m = n := by
  have hdigits : Nat.toDigits 10 m = Nat.toDigits 10 n :=
    String.ofList_injective ((String.append_right_inj name).1 h)
  rw [← Nat.ofDigitChars_toDigits (b := 10) (n := m) (by decide) (by decide), hdigits,
    Nat.ofDigitChars_toDigits (by decide) (by decide)]

theorem prefix_append_toString (name : String) (n : Nat) :
    name.toList <+: (name ++ toString n).toList := by
  rw [String.toList_append]
  exact List.prefix_append _ _

/-- The search stops at a name that is not taken, if one of those it tries is not. -/
theorem numberedName_notMem {name : String} {taken : List String} {fuel n k : Nat}
    (hle : n ≤ k) (hlt : k ≤ n + fuel) (hfree : name ++ toString k ∉ taken) :
    numberedName name taken fuel n ∉ taken := by
  induction fuel generalizing n with
  | zero =>
    obtain rfl : n = k := by omega
    exact hfree
  | succ fuel ih =>
    rw [numberedName]
    split
    · next htaken =>
      have hne : n ≠ k := by
        rintro rfl
        exact hfree (by simpa using htaken)
      exact ih (by omega) (by omega)
    · next hnew => simpa using hnew

/-- **One of the names that are tried is not taken**: there are more of them than taken names. -/
theorem exists_numbered_notMem (name : String) (taken : List String) :
    ∃ k, 2 ≤ k ∧ k ≤ 2 + taken.length ∧ name ++ toString k ∉ taken := by
  by_contra hall
  have htried : ∀ k, 2 ≤ k → k ≤ 2 + taken.length → name ++ toString k ∈ taken := by
    simpa using hall
  let tried := (List.range (taken.length + 1)).map fun k => name ++ toString (k + 2)
  have hnodup : tried.Nodup := by
    refine List.nodup_range.map fun m n hmn => ?_
    have := numbered_inj hmn
    omega
  have hsub : tried ⊆ taken := by
    intro x hx
    obtain ⟨k, hk, rfl⟩ := List.mem_map.1 hx
    have hlt := List.mem_range.1 hk
    exact htried _ (by omega) (by omega)
  have hlength := (List.subperm_of_subset hnodup hsub).length_le
  rw [List.length_map, List.length_range] at hlength
  omega

/-- **A free name is not taken.** -/
theorem freeName_notMem (name : String) (taken : List String) : freeName name taken ∉ taken := by
  rw [freeName]
  split
  · obtain ⟨k, hle, hlt, hfree⟩ := exists_numbered_notMem name taken
    exact numberedName_notMem hle hlt hfree
  · next hnew => simpa using hnew

theorem prefix_numberedName (name : String) (taken : List String) (fuel n : Nat) :
    name.toList <+: (numberedName name taken fuel n).toList := by
  induction fuel generalizing n with
  | zero => exact prefix_append_toString name n
  | succ fuel ih =>
    rw [numberedName]
    split
    · exact ih (n + 1)
    · exact prefix_append_toString name n

theorem prefix_freeName (name : String) (taken : List String) :
    name.toList <+: (freeName name taken).toList := by
  rw [freeName]
  split
  · exact prefix_numberedName _ _ _ _
  · exact List.prefix_rfl

/-! ## Setters -/

/-- **The setter of a field**: it writes the field, and takes one value, of the type that is accepted
for the field. -/
structure MethodSpec.Sets (emit : EmitConfig) (m : MethodSpec) (field : Field) : Prop where
  kind : m.kind = .setter
  writes : m.fieldName = some field.name
  accepts : m.acceptedType = some (FluentBuilders.acceptedType emit field.types)
  takes : ∃ value type, m.parameters = [value] ∧ m.typeParameters = [type] ∧
    value.type = type.name ∧ value.optional = false ∧
    type.bound = some (FluentBuilders.acceptedType emit field.types)

theorem sets_setterSpec (emit : EmitConfig) (className name : String) (field : Field) :
    (setterSpec emit className name field).Sets emit field :=
  ⟨rfl, rfl, rfl, _, _, rfl, rfl, rfl, rfl, rfl⟩

variable {config : Config} {className : String} {taken : List String} {fields : List Field}

/-- **One setter for each field** but the one that holds the type's name, in order. -/
theorem forall₂_setterSpecs :
    List.Forall₂ (MethodSpec.Sets config.emit) (setterSpecs config className taken fields)
      (fields.filter (·.name ≠ config.naming.typenameField)) := by
  induction fields generalizing taken with
  | nil => exact .nil
  | cons field fields ih =>
    rw [setterSpecs]
    split
    · next hname => simpa [hname] using ih
    · next hname =>
      rw [List.filter_cons_of_pos (by simpa using hname)]
      exact .cons (sets_setterSpec _ _ _ _) ih

/-- The fields that the setters write, in order. -/
theorem filterMap_fieldName_setterSpecs :
    (setterSpecs config className taken fields).filterMap (·.fieldName) =
      (fields.map (·.name)).filter (· ≠ config.naming.typenameField) := by
  induction fields generalizing taken with
  | nil => rfl
  | cons field fields ih =>
    rw [setterSpecs, List.map_cons]
    split
    · next hname => simpa [hname] using ih
    · next hname =>
      rw [List.filter_cons_of_pos (by simpa using hname)]
      exact congrArg (List.cons field.name) ih

/-- **The names of setters differ**, also from those taken before. -/
theorem nodup_setterSpecs :
    ((setterSpecs config className taken fields).map (·.name)).Nodup ∧
      ∀ m ∈ setterSpecs config className taken fields, m.name ∉ taken := by
  induction fields generalizing taken with
  | nil => exact ⟨List.nodup_nil, List.forall_mem_nil _⟩
  | cons field fields ih =>
    rw [setterSpecs]
    split
    · exact ih
    · obtain ⟨hnodup, hnew⟩ :=
        @ih (freeName (setterName config.naming field.name) taken :: taken)
      refine ⟨List.nodup_cons.2 ⟨fun hmem => ?_, hnodup⟩, List.forall_mem_cons.2 ⟨?_, ?_⟩⟩
      · obtain ⟨m, hm, hname⟩ := List.mem_map.1 hmem
        exact hnew m hm (hname ▸ List.mem_cons_self)
      · exact freeName_notMem _ _
      · exact fun m hm hmem => hnew m hm (List.mem_cons_of_mem _ hmem)

/-- Setters have names that begin with the setters' prefix. -/
theorem prefix_setterSpecs :
    ∀ m ∈ setterSpecs config className taken fields,
      config.naming.setterPrefix.toList <+: m.name.toList := by
  induction fields generalizing taken with
  | nil => exact List.forall_mem_nil _
  | cons field fields ih =>
    rw [setterSpecs]
    split
    · exact ih
    · refine List.forall_mem_cons.2 ⟨?_, ih⟩
      have hfront : config.naming.setterPrefix.toList <+:
          (setterName config.naming field.name).toList := by
        rw [setterName, String.toList_append]
        exact List.prefix_append _ _
      exact hfront.trans (prefix_freeName _ _)

/-! ## Builders -/

theorem synthesize_eq_ok {d : StructuralDeclaration} {b : BuilderSpec}
    (h : synthesize config d = .ok b) : b = builderSpec config d := by
  rw [synthesize] at h
  split at h <;> cases h
  rfl

theorem filter_setterSpecs :
    (setterSpecs config className taken fields).filter (·.kind == .setter) =
      setterSpecs config className taken fields := by
  induction fields generalizing taken with
  | nil => rfl
  | cons field fields ih =>
    rw [setterSpecs]
    split
    · exact ih
    · rw [List.filter_cons_of_pos (by rfl), ih]

theorem exists_fieldName_of_mem_setterSpecs :
    ∀ m ∈ setterSpecs config className taken fields, m.kind = .setter ∧
      ∃ key, m.fieldName = some key := by
  induction fields generalizing taken with
  | nil => exact List.forall_mem_nil _
  | cons field fields ih =>
    rw [setterSpecs]
    split
    · exact ih
    · exact List.forall_mem_cons.2 ⟨⟨rfl, _, rfl⟩, ih⟩

theorem setters_builderSpec (config : Config) (d : StructuralDeclaration) :
    (builderSpec config d).setters =
      setterSpecs config (d.name ++ config.naming.classSuffix) [] d.fields := by
  rw [BuilderSpec.setters, BuilderSpec.methodsOf, builderSpec, List.filter_append,
    filter_setterSpecs]
  exact List.append_nil _

/-- **The methods of a builder**: its setters, the method that stamps the type's name, the accessor. -/
theorem methods_builderSpec (config : Config) (d : StructuralDeclaration) :
    (builderSpec config d).builderClass.methods = (builderSpec config d).setters ++
      [typenameSpec config.naming (builderSpec config d).className d.name,
        accessorSpec config.naming (builderSpec config d).targetType] := by
  rw [setters_builderSpec]
  rfl

theorem names_methods_builderSpec (config : Config) (d : StructuralDeclaration) :
    (builderSpec config d).builderClass.methods.map (·.name) =
      (builderSpec config d).setters.map (·.name) ++
        [config.naming.typenameMethod, config.naming.accessorMethod] := by
  rw [methods_builderSpec, List.map_append]
  rfl

theorem nodup_setters_builderSpec (config : Config) (d : StructuralDeclaration) :
    ((builderSpec config d).setters.map (·.name)).Nodup := by
  rw [setters_builderSpec]
  exact nodup_setterSpecs.1

/-- **All names differ** exactly when no setter has the name of one of the two other methods. -/
theorem nodup_methods_builderSpec_iff {config : Config}
    (hfixed : config.naming.typenameMethod ≠ config.naming.accessorMethod)
    (d : StructuralDeclaration) :
    ((builderSpec config d).builderClass.methods.map (·.name)).Nodup ↔
      config.naming.typenameMethod ∉ (builderSpec config d).setters.map (·.name) ∧
        config.naming.accessorMethod ∉ (builderSpec config d).setters.map (·.name) := by
  have hpair : [config.naming.typenameMethod, config.naming.accessorMethod].Nodup := by
    simpa using hfixed
  rw [names_methods_builderSpec, List.nodup_append']
  simp only [nodup_setters_builderSpec, hpair, true_and, List.disjoint_cons_right,
    List.disjoint_nil_right, and_true]

/-- **The methods of a builder**: a setter for each field but the one that holds the type's name, in
order and under names of their own that begin with the setters' prefix, then the method that stamps
the type's name, then the accessor.  All names differ exactly when no setter has the name of one of
the two last. -/
theorem methods_mirror_fields {config : Config} {d : StructuralDeclaration} {b : BuilderSpec}
    (h : synthesize config d = .ok b)
    (hfixed : config.naming.typenameMethod ≠ config.naming.accessorMethod) :
    b.builderClass.methods = b.setters ++
        [typenameSpec config.naming b.className d.name, accessorSpec config.naming b.targetType] ∧
      List.Forall₂ (MethodSpec.Sets config.emit) b.setters
        (d.fields.filter (·.name ≠ config.naming.typenameField)) ∧
      (b.setters.map (·.name)).Nodup ∧
      (∀ m ∈ b.setters, config.naming.setterPrefix.toList <+: m.name.toList) ∧
      ((b.builderClass.methods.map (·.name)).Nodup ↔
        config.naming.typenameMethod ∉ b.setters.map (·.name) ∧
          config.naming.accessorMethod ∉ b.setters.map (·.name)) := by
  obtain rfl := synthesize_eq_ok h
  refine ⟨methods_builderSpec config d, ?_, nodup_setters_builderSpec config d, ?_,
    nodup_methods_builderSpec_iff hfixed d⟩
  · rw [setters_builderSpec]
    exact forall₂_setterSpecs
  · rw [setters_builderSpec]
    exact prefix_setterSpecs

/-- A declaration whose setters need numbers. -/
def crowded : StructuralDeclaration where
  name := "A"
  kind := .interface
  fields := ["a-b", "__typename", "a b", "aB2", "aB"].map fun name =>
    { name, types := [.plain "string" .string], optional := false, readonly := false }
  isUnion := false
  members := []
  typeParameters := []
  line := 1

theorem methods_mirror_fields_crowded :
    synthesize {} crowded = .ok (builderSpec {} crowded) ∧
      (builderSpec {} crowded).setters.map (·.name) = ["withAB", "withAB2", "withAB22", "withAB3"] ∧
      ((builderSpec {} crowded).builderClass.methods.map (·.name)).Nodup := by
  have hok : synthesize {} crowded = .ok (builderSpec {} crowded) := by decide +kernel
  have hnames : (builderSpec {} crowded).setters.map (·.name) =
      ["withAB", "withAB2", "withAB22", "withAB3"] := by decide +kernel
  obtain ⟨-, -, -, -, hdistinct⟩ := methods_mirror_fields hok (by decide)
  exact ⟨hok, hnames, hdistinct.2 (by rw [hnames]; decide)⟩

/-! ## Names that meet -/

/-- A declaration with a field whose setter can be named like the method that stamps the type's
name. -/
def typenameField : StructuralDeclaration where
  name := "A"
  kind := .interface
  fields := [⟨"typename", [.plain "string" .string], false, false⟩]
  isUnion := false
  members := []
  typeParameters := []
  line := 1

/-- **The methods of a builder can share a name**: a setter with the name of a fixed method gets no
number. -/
theorem methods_share_name :
    ¬ ∀ (config : Config) (d : StructuralDeclaration) (b : BuilderSpec), d.fieldNames.Nodup →
      synthesize config d = .ok b →
      config.naming.typenameMethod ≠ config.naming.accessorMethod →
        (b.builderClass.methods.map (·.name)).Nodup := by
  intro hall
  have hnodup := hall { naming := { setterPrefix := "include" } } typenameField _ (by decide)
    rfl (by decide)
  have hnames : (builderSpec { naming := { setterPrefix := "include" } }
      typenameField).builderClass.methods.map (·.name) =
        ["includeTypename", "includeTypename", "get"] := by
    decide +kernel
  rw [hnames] at hnodup
  exact absurd hnodup (by decide)

end FluentBuilders
