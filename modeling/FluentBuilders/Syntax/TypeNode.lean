/-!
# Syntax/TypeNode — type expressions and declarations as they are written

`TypeNode` is the tree of a type expression, with tuple elements, parameters and object members as
trees of their own.  Text that is no type expression is kept as `TypeNode.raw`.  A source file holds
aliases, interfaces, enums and imports.
-/

namespace FluentBuilders

/-- **The kinds of literal types.** -/
inductive LiteralKind where
  | string
  | number
  | template
  deriving DecidableEq, Repr

/-- **The words that make a type from another type.** -/
inductive TypeOperator where
  | keyof
  | readonly
  | unique
  deriving DecidableEq, Repr

/-- The word of an operator. -/
def TypeOperator.word : TypeOperator → String
  | .keyof => "keyof"
  | .readonly => "readonly"
  | .unique => "unique"

mutual

/-- **A type expression.** -/
inductive TypeNode where
  /-- A name, which may have dots in it, with type arguments. -/
  | reference (name : String) (arguments : List TypeNode)
  /-- A name exported by a module, `import("module").Name`. -/
  | imported (module name : String) (arguments : List TypeNode)
  /-- A literal: the decoded text of a string, the written form of anything else. -/
  | literal (kind : LiteralKind) (text : String)
  | union (members : List TypeNode)
  | intersection (members : List TypeNode)
  | array (element : TypeNode)
  /-- The type of a property, `T["name"]`. -/
  | indexed (object index : TypeNode)
  | tuple (elements : List TupleElement)
  | function (parameters : List Parameter) (returns : TypeNode)
  | operator (op : TypeOperator) (operand : TypeNode)
  /-- The type of a value, `typeof name`. -/
  | query (name : String)
  | object (members : List Member)
  /-- Text that could not be read. -/
  | raw (text : String)

/-- **An element of a tuple.** -/
inductive TupleElement where
  | plain (type : TypeNode)
  | named (name : String) (optional : Bool) (type : TypeNode)
  | rest (type : TypeNode)

/-- **A parameter** of a function or method. -/
inductive Parameter where
  | mk (name : String) (optional rest : Bool) (type : TypeNode)

/-- **A member of an object type.** -/
inductive Member where
  | property (name : String) (optional readonly : Bool) (type : Option TypeNode)
  | method (name : String) (optional : Bool) (parameters : List Parameter)
      (returns : Option TypeNode)
  /-- An index signature, `[key: K]: V`. -/
  | index (key : String) (readonly : Bool) (keyType valueType : TypeNode)

end

deriving instance Repr for TypeNode, TupleElement, Parameter, Member

instance : Inhabited TypeNode := ⟨.raw ""⟩

namespace Member

/-- The name of a property or method; index signatures have none. -/
def name? : Member → Option String
  | .property name .. => some name
  | .method name .. => some name
  | .index .. => none

end Member

/-! ## Declarations -/

/-- **A type parameter** of a declaration. -/
structure TypeParameter where
  name : String
  bound : Option TypeNode
  default : Option TypeNode
  deriving Repr

/-- `type Name<…> = body`. -/
structure AliasDeclaration where
  name : String
  body : TypeNode
  parameters : List TypeParameter
  exported : Bool
  line : Nat
  deriving Repr

/-- `interface Name<…> extends heritage { members }`. -/
structure InterfaceDeclaration where
  name : String
  heritage : List TypeNode
  members : List Member
  parameters : List TypeParameter
  exported : Bool
  line : Nat
  deriving Repr

/-- `enum Name { members }`. -/
structure EnumDeclaration where
  name : String
  members : List String
  constant : Bool
  line : Nat
  deriving Repr

/-- **An import**: `names` holds pairs of a local and an exported name. -/
structure ImportDeclaration where
  module : String
  names : List (String × String)
  namespaceName : Option String
  defaultName : Option String
  typeOnly : Bool
  deriving Repr

end FluentBuilders
