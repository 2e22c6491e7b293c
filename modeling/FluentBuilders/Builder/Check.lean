import FluentBuilders.Builder.Spec
import FluentBuilders.Config.Load
import FluentBuilders.Resolve.Extraction

/-!
# Builder/Check — declarations and specifications from JSON

Structural declarations and builder specifications written as JSON, checked field by field.
-/

namespace FluentBuilders

namespace Check

/-- One of several words. -/
def word {α : Type} (meaning : String → Option α) : Json → Checked α
  | .string s =>
    match meaning s with
    | some a => .valid a
    | none => .fault .unknownWord
  | _ => .fault .unknownWord

/-- A list that may be missing. -/
def listField {α : Type} (name : String) (check : Json → Checked α) (json : Json) :
    Checked (List α) :=
  field name [] (list check) json

/-- A string that may be missing or null. -/
def optionalString (name : String) (json : Json) : Checked (Option String) :=
  field name none (optional string) json

end Check

open Check

/-! ## Declarations -/

/-- A resolved type; an element counts for an array alone. -/
def ResolvedType.ofParts (text : String) (kind : TypeKind) (element : Option ResolvedType) :
    ResolvedType :=
  match kind, element with
  | .array, some element => .arrayOf text element
  | kind, _ => .plain text kind

/-- A resolved type of at most `depth` resolved types inside each other. -/
def ResolvedType.checkWithin : Nat → Json → Checked ResolvedType
  | 0, _ => .fault .nestedTooDeep
  | depth + 1, json =>
    model (fun json =>
      ResolvedType.ofParts <$> required "text" string json <*>
        required "kind" (word TypeKind.ofName?) json <*>
        field "element" none (optional (ResolvedType.checkWithin depth)) json) json

/-- How many resolved types can be inside each other. -/
def ResolvedType.depthLimit : Nat := 255

/-- **A resolved type.** -/
def ResolvedType.check (json : Json) : Checked ResolvedType :=
  ResolvedType.checkWithin ResolvedType.depthLimit json

/-- The kind of a declaration by its word. -/
def DeclarationKind.ofName? : String → Option DeclarationKind
  | "alias" => some .alias
  | "interface" => some .interface
  | _ => none

/-- A field of a declaration. -/
def Field.check : Json → Checked Field :=
  model fun json =>
    Field.mk <$> required "name" string json <*>
      required "type" (model (listField "types" ResolvedType.check)) json <*>
      field "optional" false bool json <*> field "readonly" false bool json

/-- **A structural declaration.** -/
def StructuralDeclaration.check : Json → Checked StructuralDeclaration :=
  model fun json =>
    (fun name kind fields isUnion members typeParameters _ =>
        { name, kind, fields, isUnion, members, typeParameters, line := 0 }) <$>
      required "name" string json <*>
      required "kind" (word DeclarationKind.ofName?) json <*>
      listField "fields" Field.check json <*> field "is_union" false bool json <*>
      listField "members" ResolvedType.check json <*>
      listField "type_parameters" string json <*> field "line" () integer json

/-! ## Specifications -/

/-- The kind of a method by its word. -/
def MethodKind.ofName? : String → Option MethodKind
  | "setter" => some .setter
  | "typename" => some .typename
  | "accessor" => some .accessor
  | _ => none

/-- A type parameter. -/
def TypeParameterSpec.check : Json → Checked TypeParameterSpec :=
  model fun json =>
    TypeParameterSpec.mk <$> required "name" string json <*> optionalString "constraint" json <*>
      optionalString "default" json

/-- A parameter. -/
def ParameterSpec.check : Json → Checked ParameterSpec :=
  model fun json =>
    ParameterSpec.mk <$> required "name" string json <*> required "type" string json <*>
      field "optional" false bool json

/-- A method. -/
def MethodSpec.check : Json → Checked MethodSpec :=
  model fun json =>
    MethodSpec.mk <$> required "name" string json <*>
      required "kind" (word MethodKind.ofName?) json <*>
      listField "type_parameters" TypeParameterSpec.check json <*>
      listField "parameters" ParameterSpec.check json <*> required "return_type" string json <*>
      optionalString "field_name" json <*> optionalString "accepted_type" json <*>
      optionalString "value" json

/-- A class. -/
def ClassSpec.check : Json → Checked ClassSpec :=
  model fun json =>
    (fun name exported accumulator methods =>
        ClassSpec.mk name exported accumulator.1 accumulator.2 methods) <$>
      required "name" string json <*> field "exported" true bool json <*>
      required "accumulator" (model fun json =>
        Prod.mk <$> field "name" "obj" string json <*> required "type" string json) json <*>
      listField "methods" MethodSpec.check json

/-- A factory. -/
def FactorySpec.check : Json → Checked FactorySpec :=
  model fun json =>
    FactorySpec.mk <$> required "name" string json <*> field "exported" true bool json <*>
      listField "type_parameters" TypeParameterSpec.check json <*>
      listField "parameters" ParameterSpec.check json <*> required "return_type" string json <*>
      required "constructs" string json

/-- **A builder specification.** -/
def BuilderSpec.check : Json → Checked BuilderSpec :=
  model fun json =>
    BuilderSpec.mk <$> required "declaration_name" string json <*>
      required "target_type" string json <*> field "typename_field" "__typename" string json <*>
      required "builder_class" ClassSpec.check json <*> required "factory" FactorySpec.check json

end FluentBuilders
