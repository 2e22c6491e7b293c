import FluentBuilders.Syntax.TypeNode

/-!
# Proofs/Syntax/Substitution — types put in the place of names

`substitute` puts types in the place of names without type arguments, everywhere in a type at once.
No name is bound inside a type, so nothing is captured.
-/

namespace FluentBuilders

/-- **Types for names**, the first of a name counts. -/
abbrev Substitution := List (String × TypeNode)

mutual

/-- **The type with types in the place of names.** -/
def TypeNode.substitute (σ : Substitution) : TypeNode → TypeNode
  | .reference name [] => (σ.lookup name).getD (.reference name [])
  | .reference name (a :: arguments) =>
    .reference name (a.substitute σ :: substituteAll σ arguments)
  | .imported module name arguments => .imported module name (substituteAll σ arguments)
  | .literal kind text => .literal kind text
  | .union members => .union (substituteAll σ members)
  | .intersection members => .intersection (substituteAll σ members)
  | .array element => .array (element.substitute σ)
  | .indexed object index => .indexed (object.substitute σ) (index.substitute σ)
  | .tuple elements => .tuple (substituteElements σ elements)
  | .function parameters returns =>
    .function (substituteParameters σ parameters) (returns.substitute σ)
  | .operator op operand => .operator op (operand.substitute σ)
  | .query name => .query name
  | .object members => .object (substituteMembers σ members)
  | .raw text => .raw text

/-- Several types. -/
def substituteAll (σ : Substitution) : List TypeNode → List TypeNode
  | [] => []
  | node :: nodes => node.substitute σ :: substituteAll σ nodes

/-- A type that may be missing. -/
def substituteOptional (σ : Substitution) : Option TypeNode → Option TypeNode
  | none => none
  | some node => some (node.substitute σ)

/-- Tuple elements. -/
def substituteElements (σ : Substitution) : List TupleElement → List TupleElement
  | [] => []
  | .plain node :: elements => .plain (node.substitute σ) :: substituteElements σ elements
  | .named name optional node :: elements =>
    .named name optional (node.substitute σ) :: substituteElements σ elements
  | .rest node :: elements => .rest (node.substitute σ) :: substituteElements σ elements

/-- Parameters of a function: their names are no types. -/
def substituteParameters (σ : Substitution) : List Parameter → List Parameter
  | [] => []
  | .mk name optional rest node :: parameters =>
    .mk name optional rest (node.substitute σ) :: substituteParameters σ parameters

/-- Members of an object type. -/
def substituteMembers (σ : Substitution) : List Member → List Member
  | [] => []
  | .property name optional readonly type :: members =>
    .property name optional readonly (substituteOptional σ type) :: substituteMembers σ members
  | .method name optional parameters returns :: members =>
    .method name optional (substituteParameters σ parameters) (substituteOptional σ returns) ::
      substituteMembers σ members
  | .index key readonly keyType valueType :: members =>
    .index key readonly (keyType.substitute σ) (valueType.substitute σ) ::
      substituteMembers σ members

end

end FluentBuilders
