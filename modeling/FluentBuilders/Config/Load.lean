import FluentBuilders.Config.Basic
import FluentBuilders.Config.Validation
import FluentBuilders.Json.Reader
import FluentBuilders.Text.Blank

/-!
# Config/Load — configurations from JSON and from the environment

Fields that are missing take their defaults, fields that are unknown are ignored, and every fault is
reported.  In the environment an empty variable counts as one that is not set.
-/

namespace FluentBuilders

/-! ## The forms of settings -/

/-- Blanks and tabs alone. -/
def isIndentation (s : String) : Bool := s.toList.all fun c => c == ' ' || c == '\t'

/-- An identifier, with nothing after it. -/
def isPlainIdentifier (s : String) : Bool := Text.isNameOver Text.isIdentifierPart s.toList

/-- A dot and letters. -/
def isExtension (s : String) : Bool :=
  match s.toList with
  | '.' :: c :: cs => (c :: cs).all Text.isLatin
  | _ => false

/-- The quote mark a string is. -/
def quoteMark? (s : String) : Option Text.QuoteMark :=
  match s.toList with
  | ['\''] => some .single
  | ['"'] => some .double
  | _ => none

namespace Check

/-- An indentation of at least one character. -/
def indentation : Json → Checked String
  | .string s =>
    if s = "" then .fault .tooShort
    else if isIndentation s then .valid s
    else .fault .patternMismatch
  | _ => .fault .notString

/-- A quote mark. -/
def quoteMark : Json → Checked Text.QuoteMark
  | .string s =>
    match quoteMark? s with
    | some mark => .valid mark
    | none => .fault .patternMismatch
  | _ => .fault .notString

/-- An identifier. -/
def identifier : Json → Checked String := stringWhere isPlainIdentifier .patternMismatch

/-- A file name's extension. -/
def extension : Json → Checked String := stringWhere isExtension .patternMismatch

/-- A path. -/
def path : Json → Checked Path
  | .string s => .valid (Path.ofString s)
  | _ => .fault .notPath

end Check

/-! ## From JSON -/

open Check in
/-- How types are resolved, checked. -/
def ResolutionConfig.check : Json → Checked ResolutionConfig :=
  model fun json => ResolutionConfig.mk <$> field "strict_null_checks" true bool json

open Check in
/-- How generated text looks, checked. -/
def EmitConfig.check : Json → Checked EmitConfig :=
  model fun json =>
    let d : EmitConfig := {}
    EmitConfig.mk <$> field "indent" d.indent indentation json <*>
      field "quote" d.quote quoteMark json <*>
      field "namespace_alias" d.namespaceAlias identifier json <*>
      field "partial_type" d.partialType identifier json <*>
      field "partial_module" d.partialModule nonempty json <*>
      field "eslint_disable" d.lintDisabled bool json <*>
      field "extension" d.extension Check.extension json <*>
      field "index_name" d.indexName nonempty json

open Check in
/-- How the parts of a builder are named, checked. -/
def NamingConfig.check : Json → Checked NamingConfig :=
  model fun json =>
    let d : NamingConfig := {}
    NamingConfig.mk <$> field "typename_field" d.typenameField nonempty json <*>
      field "class_suffix" d.classSuffix string json <*>
      field "factory_prefix" d.factoryPrefix string json <*>
      field "setter_prefix" d.setterPrefix nonempty json <*>
      field "typename_method" d.typenameMethod nonempty json <*>
      field "accessor_method" d.accessorMethod nonempty json

open Check in
/-- **A configuration, checked.** -/
def Config.check : Json → Checked Config :=
  model fun json =>
    let d : Config := {}
    Config.mk <$> field "output_dir" d.outputDir path json <*>
      field "compiler" d.resolution ResolutionConfig.check json <*>
      field "emit" d.emit EmitConfig.check json <*>
      field "naming" d.naming NamingConfig.check json

/-- **The configuration a JSON text holds.** -/
def Config.load (text : String) : Checked Config :=
  match Json.ofText? text with
  | some json => Config.check json
  | none => .fault .invalidJson

/-! ## From the environment -/

/-- **Environment variables**, by name. -/
abbrev Environment := List (String × String)

namespace Environment

/-- The variables that say something about a configuration. -/
def names : List String :=
  ["TSB_OUTPUT_DIR", "TSB_STRICT_NULL_CHECKS", "TSB_NAMESPACE_ALIAS", "TSB_TYPENAME_FIELD",
    "TSB_INDENT", "TSB_QUOTE"]

/-- A variable that is set to something. -/
def get? (env : Environment) (name : String) : Option String :=
  (env.lookup name).filter (· ≠ "")

/-- The words that switch a setting on. -/
def onWords : List String := ["1", "true", "yes", "on"]

/-- The word switches a setting on; blanks around it and its case do not matter. -/
def isOn (word : String) : Bool :=
  onWords.contains (String.ofList (Text.trim word.toList)).toLower

/-- A pair of a JSON object, for a variable that is set. -/
def pair (env : Environment) (name key : String) : List (String × Json) :=
  match env.get? name with
  | some value => [(key, .string value)]
  | none => []

end Environment

/-- **The configuration of the environment.**  Each group of settings is checked by itself. -/
def Config.ofEnvironment (env : Environment) : Checked Config :=
  let d : Config := {}
  let strict := ((env.get? "TSB_STRICT_NULL_CHECKS").map Environment.isOn).getD
    d.resolution.strictNullChecks
  let emit := EmitConfig.check (.object (env.pair "TSB_INDENT" "indent" ++
    env.pair "TSB_QUOTE" "quote" ++ env.pair "TSB_NAMESPACE_ALIAS" "namespace_alias"))
  match emit with
  | .faulty faults => .faulty faults
  | .valid emit =>
    let naming := NamingConfig.check (.object (env.pair "TSB_TYPENAME_FIELD" "typename_field"))
    naming.map fun naming =>
      { outputDir := ((env.lookup "TSB_OUTPUT_DIR").map Path.ofString).getD d.outputDir
        resolution := ⟨strict⟩, emit, naming }

end FluentBuilders
