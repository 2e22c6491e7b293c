import FluentBuilders.Builder.Spec
import FluentBuilders.Config.Basic
import FluentBuilders.Text.Identifier

/-!
# Builder/Render — the text of generated code

A unit is one builder: its imports, its class and its factory.  The index exports every unit again.
Rendering fails for a specification in which a part is missing that the text needs.
-/

namespace FluentBuilders

/-- **What a specification lacks.** -/
inductive RenderError where
  /-- A setter or factory without a parameter. -/
  | noParameter
  /-- A method that writes no key. -/
  | noField
  /-- A typename method without a text to stamp. -/
  | noValue
  deriving DecidableEq, Repr

/-! ## Pieces -/

/-- A property of an object, after a dot, or in brackets as the literal that `literal` makes of
it. -/
def memberAccessWith (literal : String → String) (name : String) : String :=
  if Text.isIdentifier name then "." ++ name else "[" ++ literal name ++ "]"

/-- **A property of an object**, after a dot or in brackets. -/
def memberAccess (mark : Text.QuoteMark) (name : String) : String :=
  memberAccessWith (Text.quoted mark) name

/-- A word before a text, for a text that is there and not empty. -/
def clause (word : String) : Option String → String
  | none => ""
  | some text => if text = "" then "" else word ++ text

/-- A type parameter with its bound and its default. -/
def typeParameterText (p : TypeParameterSpec) : String :=
  p.name ++ clause " extends " p.bound ++ clause " = " p.default

/-- A parameter with its type. -/
def parameterSpecText (p : ParameterSpec) : String :=
  p.name ++ (if p.optional then "?" else "") ++ ": " ++ p.type

/-- **The signature** of a method or function. -/
def signature (name : String) (typeParameters : List TypeParameterSpec)
    (parameters : List ParameterSpec) (returnType : String) : String :=
  let generics :=
    if typeParameters.isEmpty then ""
    else "<" ++ String.intercalate ", " (typeParameters.map typeParameterText) ++ ">"
  name ++ generics ++ "(" ++ String.intercalate ", " (parameters.map parameterSpecText) ++ "): " ++
    returnType

/-- Text lines, each with its line break. -/
def linesText (lines : List String) : String := String.join (lines.map (· ++ "\n"))

/-- The word `export` where it is due. -/
def exportWord (exported : Bool) : String := if exported then "export " else ""

/-! ## Classes -/

/-- **The property a method writes.** -/
def assignmentTarget (mark : Text.QuoteMark) (accumulator : String) (m : MethodSpec) :
    Except RenderError String :=
  match m.fieldName with
  | none => .error .noField
  | some field => .ok ("this." ++ accumulator ++ memberAccess mark field)

/-- The lines of a method's body. -/
def methodBody (mark : Text.QuoteMark) (accumulator : String) (m : MethodSpec) :
    Except RenderError (List String) :=
  match m.kind with
  | .setter => do
    let target ← assignmentTarget mark accumulator m
    match m.parameters with
    | [] => throw .noParameter
    | p :: _ => return [target ++ " = " ++ p.name ++ ";", "return this;"]
  | .typename => do
    let target ← assignmentTarget mark accumulator m
    match m.value with
    | none => throw .noValue
    | some value =>
      return ["// @ts-ignore", target ++ " = " ++ Text.quoted mark value ++ ";", "return this;"]
  | .accessor => .ok ["return this." ++ accumulator ++ " as " ++ m.returnType ++ ";"]

/-- The lines of a method, an empty line before it. -/
def methodLines (emit : EmitConfig) (accumulator : String) (m : MethodSpec) :
    Except RenderError (List String) := do
  let body ← methodBody emit.quote accumulator m
  let head := signature m.name m.typeParameters m.parameters m.returnType
  return ["", emit.indent ++ head ++ " \x7b"] ++ body.map (emit.indent ++ emit.indent ++ ·) ++
    [emit.indent ++ "\x7d"]

/-- The lines of the methods, in order. -/
def allMethodLines (emit : EmitConfig) (accumulator : String) :
    List MethodSpec → Except RenderError (List String)
  | [] => .ok []
  | m :: methods => do
    let lines ← methodLines emit accumulator m
    let others ← allMethodLines emit accumulator methods
    return lines ++ others

/-- **The lines of the class.** -/
def classLines (emit : EmitConfig) (c : ClassSpec) : Except RenderError (List String) := do
  let methods ← allMethodLines emit c.accumulatorName c.methods
  return [exportWord c.exported ++ "class " ++ c.name ++ " \x7b",
    emit.indent ++ "constructor(private readonly " ++ c.accumulatorName ++ " = \x7b\x7d as " ++
      c.accumulatorType ++ ") \x7b\x7d"] ++ methods ++ ["\x7d"]

/-- **The lines of the factory.** -/
def factoryLines (emit : EmitConfig) (f : FactorySpec) : Except RenderError (List String) :=
  match f.parameters with
  | [] => .error .noParameter
  | p :: _ =>
    .ok [exportWord f.exported ++ "function " ++
        signature f.name f.typeParameters f.parameters f.returnType ++ " \x7b",
      emit.indent ++ "return new " ++ f.constructs ++ "(" ++ p.name ++ " ?? \x7b\x7d);", "\x7d"]

/-! ## Units and the index -/

/-- The lines before the class; `stem` names the module with the types. -/
def importLines (emit : EmitConfig) (stem : String) : List String :=
  (if emit.lintDisabled then ["/* eslint-disable */"] else []) ++
    ["import \x7b " ++ emit.partialType ++ " \x7d from " ++
      Text.quoted emit.quote emit.partialModule ++ ";",
    "import * as " ++ emit.namespaceAlias ++ " from " ++
      Text.quoted emit.quote ("./" ++ stem) ++ ";",
    ""]

/-- **The text of a unit.** -/
def renderBuilder (emit : EmitConfig) (b : BuilderSpec) (stem : String) :
    Except RenderError String := do
  let class_ ← classLines emit b.builderClass
  let factory ← factoryLines emit b.factory
  return linesText (importLines emit stem ++ class_ ++ [""] ++ factory)

/-- The line of the index for a unit. -/
def indexLine (emit : EmitConfig) (module : String) : String :=
  "export * from " ++ Text.quoted emit.quote ("./" ++ module) ++ ";"

/-- **The text of the index.** -/
def renderIndex (emit : EmitConfig) (modules : List String) : String :=
  linesText (modules.map (indexLine emit))

end FluentBuilders
