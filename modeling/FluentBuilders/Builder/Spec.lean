/-!
# Builder/Spec — what a builder consists of

A builder is a class around one mutable object, the accumulator: a setter for every field, a method
that stamps the type's name, an accessor that gives the object back — and a factory that wraps an
object, or a new one, in the class.
-/

namespace FluentBuilders

/-- **What a method does.** -/
inductive MethodKind where
  | setter
  | typename
  | accessor
  deriving DecidableEq, Repr

/-- The name of a method kind. -/
def MethodKind.name : MethodKind → String
  | .setter => "setter"
  | .typename => "typename"
  | .accessor => "accessor"

/-- A type parameter of generated code. -/
structure TypeParameterSpec where
  name : String
  bound : Option String
  default : Option String
  deriving DecidableEq, Repr

/-- A parameter of generated code. -/
structure ParameterSpec where
  name : String
  type : String
  optional : Bool
  deriving DecidableEq, Repr

/-- **A method of a builder.** -/
structure MethodSpec where
  name : String
  kind : MethodKind
  typeParameters : List TypeParameterSpec
  parameters : List ParameterSpec
  returnType : String
  /-- The key of the accumulator that is written. -/
  fieldName : Option String
  /-- The type of the values a setter takes. -/
  acceptedType : Option String
  /-- The text that is stamped. -/
  value : Option String
  deriving DecidableEq, Repr

/-- **The class of a builder.** -/
structure ClassSpec where
  name : String
  exported : Bool
  accumulatorName : String
  accumulatorType : String
  methods : List MethodSpec
  deriving DecidableEq, Repr

/-- **The factory of a builder.** -/
structure FactorySpec where
  name : String
  exported : Bool
  typeParameters : List TypeParameterSpec
  parameters : List ParameterSpec
  returnType : String
  /-- The class that is made. -/
  constructs : String
  deriving DecidableEq, Repr

/-- **A builder for a declaration.** -/
structure BuilderSpec where
  declarationName : String
  targetType : String
  typenameField : String
  builderClass : ClassSpec
  factory : FactorySpec
  deriving DecidableEq, Repr

namespace BuilderSpec

/-- The name of the class. -/
def className (b : BuilderSpec) : String := b.builderClass.name

/-- The methods of a kind. -/
def methodsOf (b : BuilderSpec) (kind : MethodKind) : List MethodSpec :=
  b.builderClass.methods.filter (·.kind == kind)

/-- The setters, in order. -/
def setters (b : BuilderSpec) : List MethodSpec := b.methodsOf .setter

end BuilderSpec

/-! ## Declarations without a builder -/

/-- **Why a declaration has no builder.** -/
inductive SkipReason where
  | noFields
  | union
  | generic
  deriving DecidableEq, Repr

/-- The name of a reason. -/
def SkipReason.name : SkipReason → String
  | .noFields => "no_fields"
  | .union => "union"
  | .generic => "generic"

/-- **A declaration that is skipped.** -/
structure Skip where
  declarationName : String
  reason : SkipReason
  deriving DecidableEq, Repr

/-- **The warning about a skip**; a declaration without fields is skipped silently. -/
def Skip.diagnostic? (s : Skip) : Option String :=
  match s.reason with
  | .noFields => none
  | .union => some ("Skipped type generation for union: " ++ s.declarationName)
  | .generic => some ("Skipped type generation for generic: " ++ s.declarationName)

end FluentBuilders
