import FluentBuilders.Builder.Accepted
import FluentBuilders.Builder.Spec
import FluentBuilders.Resolve.Extraction

/-!
# Builder/Synthesis — a builder for every declaration with fields

Declarations without fields, unions and generic declarations are skipped.  Any other gets a setter
for each field but the one that holds its type's name; two fields whose setters would have one name
get numbers from 2 on.
-/

namespace FluentBuilders

/-! ## Names -/

/-- The first of the numbered forms of a name, from `n` on, that is not taken; in at most `fuel`
steps. -/
def numberedName (name : String) (taken : List String) : Nat → Nat → String
  | 0, n => name ++ toString n
  | fuel + 1, n =>
    if taken.contains (name ++ toString n) then numberedName name taken fuel (n + 1)
    else name ++ toString n

/-- **A name that is not taken**: the name itself, or one with a number after it. -/
def freeName (name : String) (taken : List String) : String :=
  if taken.contains name then numberedName name taken taken.length 2 else name

/-- The name a setter should have. -/
def setterName (naming : NamingConfig) (field : String) : String :=
  naming.setterPrefix ++ Text.pascalCase field

/-! ## Methods -/

/-- A setter. -/
def setterSpec (emit : EmitConfig) (className name : String) (field : Field) : MethodSpec :=
  let accepted := acceptedType emit field.types
  { name, kind := .setter
    typeParameters := [⟨"P", some accepted, none⟩]
    parameters := [⟨"val", "P", false⟩]
    returnType := className
    fieldName := some field.name, acceptedType := some accepted, value := none }

/-- **The setters** of the fields, in order; `taken` holds the names of those before them. -/
def setterSpecs (config : Config) (className : String) (taken : List String) :
    List Field → List MethodSpec
  | [] => []
  | field :: fields =>
    if field.name = config.naming.typenameField then setterSpecs config className taken fields
    else
      let name := freeName (setterName config.naming field.name) taken
      setterSpec config.emit className name field ::
        setterSpecs config className (name :: taken) fields

/-- The method that stamps the type's name. -/
def typenameSpec (naming : NamingConfig) (className declaration : String) : MethodSpec :=
  { name := naming.typenameMethod, kind := .typename, typeParameters := [], parameters := []
    returnType := className, fieldName := some naming.typenameField, acceptedType := none
    value := some declaration }

/-- The method that gives the object back. -/
def accessorSpec (naming : NamingConfig) (targetType : String) : MethodSpec :=
  { name := naming.accessorMethod, kind := .accessor, typeParameters := [], parameters := []
    returnType := targetType, fieldName := none, acceptedType := none, value := none }

/-! ## Builders -/

/-- The builder of a declaration that is not skipped. -/
def builderSpec (config : Config) (d : StructuralDeclaration) : BuilderSpec :=
  let className := d.name ++ config.naming.classSuffix
  let targetType := config.emit.namespaceAlias ++ "." ++ d.name
  let partialTarget := partialOf config.emit targetType
  { declarationName := d.name
    targetType
    typenameField := config.naming.typenameField
    builderClass :=
      { name := className, exported := true
        accumulatorName := "obj", accumulatorType := partialTarget
        methods := setterSpecs config className [] d.fields ++
          [typenameSpec config.naming className d.name, accessorSpec config.naming targetType] }
    factory :=
      { name := config.naming.factoryPrefix ++ className, exported := true
        typeParameters := [⟨"O", some partialTarget, some "\x7b\x7d"⟩]
        parameters := [⟨"baseObj", "O", true⟩]
        returnType := className, constructs := className } }

/-- **Why a declaration is skipped**, if it is. -/
def skipReason? (d : StructuralDeclaration) : Option SkipReason :=
  if d.fields.isEmpty && !d.isPrimitiveUnion then some .noFields
  else if d.isUnion then some .union
  else if !d.typeParameters.isEmpty then some .generic
  else none

/-- **The builder of a declaration**, or the skip. -/
def synthesize (config : Config) (d : StructuralDeclaration) : Except Skip BuilderSpec :=
  match skipReason? d with
  | some reason => .error { declarationName := d.name, reason }
  | none => .ok (builderSpec config d)

/-- **What is made of a file**: its builders and its skips, each in the order of the
declarations. -/
structure Plan where
  builders : List BuilderSpec
  skips : List Skip

/-- The plan for a list of declarations. -/
def planOf (config : Config) : List StructuralDeclaration → Plan
  | [] => ⟨[], []⟩
  | d :: ds =>
    let rest := planOf config ds
    match synthesize config d with
    | .ok builder => { rest with builders := builder :: rest.builders }
    | .error skip => { rest with skips := skip :: rest.skips }

/-- **The plan for a file.** -/
def plan (config : Config) (f : SourceFile) : Resolution Plan := do
  let declarations ← extract (Scope.ofFile f)
  return planOf config declarations

end FluentBuilders
