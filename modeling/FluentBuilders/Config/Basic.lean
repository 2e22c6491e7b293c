import FluentBuilders.Json.Printer
import FluentBuilders.Path
import FluentBuilders.Text.Quoted

/-!
# Config/Basic — what a run is configured with

Three groups of settings beside the output directory: how types are resolved, how text is written,
and how the parts of a builder are named.  A configuration is saved as JSON, in the order of its
fields.
-/

namespace FluentBuilders

/-- **How types are resolved.** -/
structure ResolutionConfig where
  strictNullChecks : Bool := true
  deriving DecidableEq, Repr

/-- How types are resolved, as JSON. -/
def ResolutionConfig.toJson (r : ResolutionConfig) : Json :=
  .object [("strict_null_checks", .bool r.strictNullChecks)]

/-- **How generated text looks**, and what it takes its types from. -/
structure EmitConfig where
  indent : String := "  "
  quote : Text.QuoteMark := .single
  namespaceAlias : String := "SchemaTypes"
  partialType : String := "DeepPartial"
  partialModule : String := "ts-essentials"
  /-- A comment at the top switches a linter off. -/
  lintDisabled : Bool := true
  extension : String := ".ts"
  indexName : String := "index"
  deriving DecidableEq, Repr

/-- How generated text looks, as JSON. -/
def EmitConfig.toJson (e : EmitConfig) : Json :=
  .object
    [("indent", .string e.indent),
      ("quote", .string (String.ofList [e.quote.char])),
      ("namespace_alias", .string e.namespaceAlias),
      ("partial_type", .string e.partialType),
      ("partial_module", .string e.partialModule),
      ("eslint_disable", .bool e.lintDisabled),
      ("extension", .string e.extension),
      ("index_name", .string e.indexName)]

/-- **How the parts of a builder are named.** -/
structure NamingConfig where
  typenameField : String := "__typename"
  classSuffix : String := "Builder"
  factoryPrefix : String := "a"
  setterPrefix : String := "with"
  typenameMethod : String := "includeTypename"
  accessorMethod : String := "get"
  deriving DecidableEq, Repr

/-- How the parts of a builder are named, as JSON. -/
def NamingConfig.toJson (n : NamingConfig) : Json :=
  .object
    [("typename_field", .string n.typenameField),
      ("class_suffix", .string n.classSuffix),
      ("factory_prefix", .string n.factoryPrefix),
      ("setter_prefix", .string n.setterPrefix),
      ("typename_method", .string n.typenameMethod),
      ("accessor_method", .string n.accessorMethod)]

/-- **The configuration of a run.** -/
structure Config where
  outputDir : Path := ⟨.relative, ["generated"]⟩
  resolution : ResolutionConfig := {}
  emit : EmitConfig := {}
  naming : NamingConfig := {}
  deriving DecidableEq, Repr

namespace Config

/-- The configuration as JSON. -/
def toJson (c : Config) : Json :=
  .object
    [("output_dir", .string c.outputDir.text), ("compiler", c.resolution.toJson),
      ("emit", c.emit.toJson), ("naming", c.naming.toJson)]

/-- **The text a configuration is saved as.** -/
def saved (c : Config) : String := c.toJson.indented ""

/-- The name of the file a configuration is saved in. -/
def fileName : String := "tsbuilder.json"

/-- Where a configuration is saved by default: in its own output directory. -/
def defaultPath (c : Config) : Path := c.outputDir.child fileName

end Config

end FluentBuilders
