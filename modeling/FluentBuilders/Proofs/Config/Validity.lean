import FluentBuilders.Config.Load
import FluentBuilders.Proofs.Files.Path

/-!
# Proofs/Config/Validity — what an accepted configuration is

A configuration is accepted when a check of some JSON value gives it.  This is a property of its
fields alone (`accepted_iff`): what each check lets through passes the same check again, and so the
JSON of an accepted configuration is checked to the configuration itself (`check_toJson`).
-/

namespace FluentBuilders

/-! ## Checks put together -/

namespace Checked

variable {α β : Type}

theorem map_eq_valid {f : α → β} {a : Checked α} {b : β} :
    f <$> a = .valid b ↔ ∃ x, a = .valid x ∧ f x = b := by
  change Checked.map f a = _ ↔ _
  cases a <;> simp [Checked.map]

theorem seq_eq_valid {f : Checked (α → β)} {a : Checked α} {b : β} :
    f <*> a = .valid b ↔ ∃ g x, f = .valid g ∧ a = .valid x ∧ g x = b := by
  change Checked.and f a = _ ↔ _
  cases f <;> cases a <;> simp [Checked.and]

theorem within_eq_valid {step : Step} {a : Checked α} {x : α} :
    a.within step = .valid x ↔ a = .valid x := by
  cases a <;> simp [Checked.within]

end Checked

namespace Check

variable {α : Type} {name : String} {fallback value : α} {check : Json → Checked α} {json j : Json}

/-- **What a field that may be missing is**: its fallback, or what its check lets through. -/
theorem field_valid {P : α → Prop} (h : field name fallback check json = .valid value)
    (hfallback : P fallback) (hcheck : ∀ j v, check j = .valid v → P v) : P value := by
  rw [field] at h
  split at h
  · exact hcheck _ _ (Checked.within_eq_valid.1 h)
  · obtain rfl := Checked.valid.inj h
    exact hfallback

/-- A model is checked field by field, of an object. -/
theorem model_valid {fields : Json → Checked α} (h : model fields json = .valid value) :
    fields json = .valid value := by
  rw [model.eq_def] at h
  split at h
  · exact h
  · exact nomatch h

theorem field_eq (hget : json.get? name = some j) (hcheck : check j = .valid value) :
    field name fallback check json = .valid value := by
  rw [field, hget]
  exact Checked.within_eq_valid.2 hcheck

theorem stringWhere_string {holds : String → Bool} {kind : FaultKind} {s : String}
    (h : holds s = true) : stringWhere holds kind (.string s) = .valid s :=
  if_pos h

theorem nonempty_string {s : String} (h : s ≠ "") : nonempty (.string s) = .valid s :=
  stringWhere_string (decide_eq_true h)

theorem indentation_string {s : String} (hne : s ≠ "") (h : isIndentation s = true) :
    indentation (.string s) = .valid s := by
  rw [indentation, if_neg hne, if_pos h]

/-- **A quote mark is checked to itself.** -/
theorem quoteMark_string (mark : Text.QuoteMark) :
    quoteMark (.string (String.ofList [mark.char])) = .valid mark := by
  cases mark <;> rfl

theorem path_string {p : Path} (h : p.IsRead) : path (.string p.text) = .valid p := by
  rw [path, Path.ofString_text h]

theorem stringWhere_valid {holds : String → Bool} {kind : FaultKind} {s : String}
    (h : stringWhere holds kind json = .valid s) : holds s = true := by
  rw [stringWhere.eq_def] at h
  split at h
  · split at h
    · next hholds => exact Checked.valid.inj h ▸ hholds
    · exact nomatch h
  · exact nomatch h

theorem nonempty_valid {s : String} (h : nonempty json = .valid s) : s ≠ "" :=
  of_decide_eq_true (stringWhere_valid h)

theorem indentation_valid {s : String} (h : indentation json = .valid s) :
    s ≠ "" ∧ isIndentation s = true := by
  rw [indentation.eq_def] at h
  split at h
  · split at h
    · exact nomatch h
    · next hne =>
      split at h
      · next hindent =>
        obtain rfl := Checked.valid.inj h
        exact ⟨hne, hindent⟩
      · exact nomatch h
  · exact nomatch h

theorem path_valid {p : Path} (h : path json = .valid p) : p.IsRead := by
  rw [path.eq_def] at h
  split at h
  · exact Checked.valid.inj h ▸ Path.isRead_ofString _
  · exact nomatch h

end Check

/-! ## Accepted configurations -/

/-- **Settings of text that pass their checks.** -/
structure EmitConfig.IsValid (e : EmitConfig) : Prop where
  indent_ne : e.indent ≠ ""
  indent : isIndentation e.indent = true
  namespaceAlias : isPlainIdentifier e.namespaceAlias = true
  partialType : isPlainIdentifier e.partialType = true
  partialModule : e.partialModule ≠ ""
  extension : isExtension e.extension = true
  indexName : e.indexName ≠ ""

/-- **Names that pass their checks.** -/
structure NamingConfig.IsValid (n : NamingConfig) : Prop where
  typenameField : n.typenameField ≠ ""
  setterPrefix : n.setterPrefix ≠ ""
  typenameMethod : n.typenameMethod ≠ ""
  accessorMethod : n.accessorMethod ≠ ""

namespace Config

/-- **A configuration that passes its checks.** -/
structure IsValid (c : Config) : Prop where
  outputDir : c.outputDir.IsRead
  emit : c.emit.IsValid
  naming : c.naming.IsValid

/-- **Validation accepts the configuration**: it is what checking some JSON value gives. -/
def Accepted (c : Config) : Prop := ∃ json, check json = .valid c

end Config

open Check Checked

theorem EmitConfig.isValid_default : ({} : EmitConfig).IsValid := by
  constructor <;> decide

theorem NamingConfig.isValid_default : ({} : NamingConfig).IsValid := by
  constructor <;> decide

theorem EmitConfig.isValid_of_check {json : Json} {e : EmitConfig} (h : check json = .valid e) :
    e.IsValid := by
  have hmodel := model_valid h
  simp only [seq_eq_valid, map_eq_valid] at hmodel
  obtain ⟨_, indexName, ⟨_, extension, ⟨_, lintDisabled, ⟨_, partialModule, ⟨_, partialType,
    ⟨_, namespaceAlias, ⟨_, quote, ⟨indent, hindent, rfl⟩, hquote, rfl⟩, halias, rfl⟩, htype, rfl⟩,
    hmodule, rfl⟩, hlint, rfl⟩, hextension, rfl⟩, hindex, rfl⟩ := hmodel
  have d := EmitConfig.isValid_default
  have hind := field_valid (P := fun s => s ≠ "" ∧ isIndentation s = true) hindent
    ⟨d.indent_ne, d.indent⟩ fun _ _ => indentation_valid
  exact
    { indent_ne := hind.1
      indent := hind.2
      namespaceAlias := field_valid (P := fun s => isPlainIdentifier s = true) halias
        d.namespaceAlias fun _ _ => stringWhere_valid
      partialType := field_valid (P := fun s => isPlainIdentifier s = true) htype
        d.partialType fun _ _ => stringWhere_valid
      partialModule := field_valid (P := (· ≠ "")) hmodule d.partialModule fun _ _ => nonempty_valid
      extension := field_valid (P := fun s => isExtension s = true) hextension
        d.extension fun _ _ => stringWhere_valid
      indexName := field_valid (P := (· ≠ "")) hindex d.indexName fun _ _ => nonempty_valid }

theorem NamingConfig.isValid_of_check {json : Json} {n : NamingConfig} (h : check json = .valid n) :
    n.IsValid := by
  have hmodel := model_valid h
  simp only [seq_eq_valid, map_eq_valid] at hmodel
  obtain ⟨_, accessor, ⟨_, typename, ⟨_, setter, ⟨_, factory, ⟨_, suffix, ⟨field, hfield, rfl⟩,
    hsuffix, rfl⟩, hfactory, rfl⟩, hsetter, rfl⟩, htypename, rfl⟩, haccessor, rfl⟩ := hmodel
  have d := NamingConfig.isValid_default
  exact
    { typenameField := field_valid (P := (· ≠ "")) hfield d.typenameField fun _ _ => nonempty_valid
      setterPrefix := field_valid (P := (· ≠ "")) hsetter d.setterPrefix fun _ _ => nonempty_valid
      typenameMethod := field_valid (P := (· ≠ "")) htypename d.typenameMethod
        fun _ _ => nonempty_valid
      accessorMethod := field_valid (P := (· ≠ "")) haccessor d.accessorMethod
        fun _ _ => nonempty_valid }

namespace Config

theorem isValid_default : ({} : Config).IsValid :=
  ⟨by decide, EmitConfig.isValid_default, NamingConfig.isValid_default⟩

theorem isValid_of_check {json : Json} {c : Config} (h : check json = .valid c) : c.IsValid := by
  have hmodel := model_valid h
  simp only [seq_eq_valid, map_eq_valid] at hmodel
  obtain ⟨_, naming, ⟨_, emit, ⟨_, resolution, ⟨outputDir, hdir, rfl⟩, -, rfl⟩, hemit, rfl⟩, hnaming,
    rfl⟩ := hmodel
  exact
    { outputDir := field_valid hdir isValid_default.outputDir fun _ _ => path_valid
      emit := field_valid hemit isValid_default.emit fun _ _ => EmitConfig.isValid_of_check
      naming := field_valid hnaming isValid_default.naming fun _ _ => NamingConfig.isValid_of_check }

end Config

/-! ### Checked again -/

theorem EmitConfig.check_toJson {e : EmitConfig} (h : e.IsValid) : check e.toJson = .valid e := by
  have hindent := indentation_string h.indent_ne h.indent
  rw [EmitConfig.check, toJson, model]
  simp only [seq_eq_valid, map_eq_valid]
  exact ⟨_, _, ⟨_, _, ⟨_, _, ⟨_, _, ⟨_, _, ⟨_, _, ⟨_, _, ⟨_, field_eq rfl hindent, rfl⟩,
    field_eq rfl (quoteMark_string _), rfl⟩, field_eq rfl (stringWhere_string h.namespaceAlias), rfl⟩,
    field_eq rfl (stringWhere_string h.partialType), rfl⟩,
    field_eq rfl (nonempty_string h.partialModule), rfl⟩, field_eq rfl rfl, rfl⟩,
    field_eq rfl (stringWhere_string h.extension), rfl⟩,
    field_eq rfl (nonempty_string h.indexName), rfl⟩

theorem NamingConfig.check_toJson {n : NamingConfig} (h : n.IsValid) :
    check n.toJson = .valid n := by
  rw [NamingConfig.check, toJson, model]
  simp only [seq_eq_valid, map_eq_valid]
  exact ⟨_, _, ⟨_, _, ⟨_, _, ⟨_, _, ⟨_, _, ⟨_, field_eq rfl (nonempty_string h.typenameField), rfl⟩,
    field_eq rfl rfl, rfl⟩, field_eq rfl rfl, rfl⟩, field_eq rfl (nonempty_string h.setterPrefix),
    rfl⟩, field_eq rfl (nonempty_string h.typenameMethod), rfl⟩,
    field_eq rfl (nonempty_string h.accessorMethod), rfl⟩

namespace Config

/-- **The JSON of a configuration that passes its checks is checked to it.** -/
theorem check_toJson {c : Config} (h : c.IsValid) : check c.toJson = .valid c := by
  rw [check, toJson, model]
  simp only [seq_eq_valid, map_eq_valid]
  exact ⟨_, _, ⟨_, _, ⟨_, _, ⟨_, field_eq rfl (path_string h.outputDir), rfl⟩, field_eq rfl rfl, rfl⟩,
    field_eq rfl (EmitConfig.check_toJson h.emit), rfl⟩,
    field_eq rfl (NamingConfig.check_toJson h.naming), rfl⟩

/-- **Validation accepts just the configurations that pass their checks.** -/
theorem accepted_iff {c : Config} : c.Accepted ↔ c.IsValid :=
  ⟨fun ⟨_, h⟩ => isValid_of_check h, fun h => ⟨_, check_toJson h⟩⟩

/-- **The configuration of the environment is accepted too.** -/
theorem accepted_ofEnvironment {env : Environment} {c : Config} (h : ofEnvironment env = .valid c) :
    c.Accepted := by
  rw [ofEnvironment] at h
  split at h
  · exact nomatch h
  · next emit hemit =>
    obtain ⟨naming, hnaming, rfl⟩ := map_eq_valid.1 h
    refine accepted_iff.2 ⟨?_, EmitConfig.isValid_of_check hemit,
      NamingConfig.isValid_of_check hnaming⟩
    cases env.lookup "TSB_OUTPUT_DIR" with
    | none => exact isValid_default.outputDir
    | some text => exact Path.isRead_ofString text

end Config

end FluentBuilders
