import FluentBuilders.Text.Identifier
import FluentBuilders.Text.Quoted

/-!
# Resolve/ResolvedType — types as they are shown, and their kinds

A resolved type is its text and the kind of type it is; an array also keeps its element.  The type
of a value is a list of **constituents**, those of a union, of which `single` makes one type.
-/

namespace FluentBuilders

/-- **The kinds of resolved types.** -/
inductive TypeKind where
  | string | number | bigint | boolean | literal | template | enum
  | undefined | null | any | unknown | void | never | symbol
  | object | array | tuple | function | union | intersection
  | typeParameter | alias | raw
  deriving DecidableEq, Repr

namespace TypeKind

/-- The name of a kind. -/
def name : TypeKind → String
  | .string => "string"
  | .number => "number"
  | .bigint => "bigint"
  | .boolean => "boolean"
  | .literal => "literal"
  | .template => "template"
  | .enum => "enum"
  | .undefined => "undefined"
  | .null => "null"
  | .any => "any"
  | .unknown => "unknown"
  | .void => "void"
  | .never => "never"
  | .symbol => "symbol"
  | .object => "object"
  | .array => "array"
  | .tuple => "tuple"
  | .function => "function"
  | .union => "union"
  | .intersection => "intersection"
  | .typeParameter => "type_parameter"
  | .alias => "alias"
  | .raw => "raw"

/-- All kinds. -/
def all : List TypeKind :=
  [.string, .number, .bigint, .boolean, .literal, .template, .enum, .undefined, .null, .any,
    .unknown, .void, .never, .symbol, .object, .array, .tuple, .function, .union, .intersection,
    .typeParameter, .alias, .raw]

/-- The kind of a name. -/
def ofName? (name : String) : Option TypeKind := all.find? (·.name == name)

/-- **Kinds a setter takes bare**, not as a partial type. -/
def isPrimitive : TypeKind → Bool
  | .string | .number | .literal | .boolean | .undefined | .null | .any | .enum | .raw => true
  | _ => false

/-- **Kinds with members of their own**: the types whose values are wrapped in an object when a
property of them is asked for. -/
def hasApparentMembers : TypeKind → Bool
  | .string | .number | .bigint | .boolean | .literal | .template | .enum | .symbol => true
  | _ => false

/-- Kinds that have to stand in parentheses before brackets or between ampersands. -/
def isComposite : TypeKind → Bool
  | .union | .function | .intersection => true
  | _ => false

end TypeKind

/-- **A resolved type.** -/
inductive ResolvedType where
  | plain (text : String) (kind : TypeKind)
  /-- An array whose element is known. -/
  | arrayOf (text : String) (element : ResolvedType)
  deriving DecidableEq, Repr

instance : Inhabited ResolvedType := ⟨.plain "never" .never⟩

namespace ResolvedType

/-- The text of a resolved type. -/
def text : ResolvedType → String
  | .plain text _ => text
  | .arrayOf text _ => text

/-- The kind of a resolved type. -/
def kind : ResolvedType → TypeKind
  | .plain _ kind => kind
  | .arrayOf _ _ => .array

/-- The element of an array. -/
def element? : ResolvedType → Option ResolvedType
  | .plain _ _ => none
  | .arrayOf _ element => some element

/-- The type `any`. -/
def any : ResolvedType := .plain "any" .any

/-- The type `unknown`. -/
def unknown : ResolvedType := .plain "unknown" .unknown

/-- The type `never`. -/
def never : ResolvedType := .plain "never" .never

/-- The type `undefined`. -/
def undefined : ResolvedType := .plain "undefined" .undefined

/-- The two values of type `boolean`. -/
def booleans : List ResolvedType := [.plain "false" .literal, .plain "true" .literal]

/-- A string literal type. -/
def stringLiteral (text : String) : ResolvedType := .plain (Text.typeLiteral text) .literal

/-- **The text as an operand** of brackets or an ampersand. -/
def operandText (t : ResolvedType) : String :=
  if t.kind.isComposite then "(" ++ t.text ++ ")" else t.text

/-- An array of a type. -/
def array (element : ResolvedType) : ResolvedType := .arrayOf (element.operandText ++ "[]") element

/-- A read-only array of a type. -/
def readonlyArray (element : ResolvedType) : ResolvedType :=
  .plain ("readonly " ++ element.operandText ++ "[]") .object

/-- **The types without constituents of their own**, by name; `never` has no constituent at all. -/
def intrinsics : List (String × List ResolvedType) :=
  [("boolean", booleans), ("true", [.plain "true" .literal]), ("false", [.plain "false" .literal]),
    ("string", [.plain "string" .string]), ("number", [.plain "number" .number]),
    ("bigint", [.plain "bigint" .bigint]), ("symbol", [.plain "symbol" .symbol]), ("any", [any]),
    ("unknown", [unknown]), ("never", []), ("void", [.plain "void" .void]),
    ("undefined", [undefined]), ("null", [.plain "null" .null]),
    ("object", [.plain "object" .object])]

end ResolvedType

/-- **A property name as it stands in a type**: bare when it is an identifier or a number. -/
def propertyKey (name : String) : String :=
  if Text.isPropertyIdentifier name || (name ≠ "" && name.toList.all Text.isDigit) then name
  else Text.typeLiteral name

end FluentBuilders
