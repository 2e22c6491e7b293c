import FluentBuilders.Proofs.Syntax.Spelling

/-!
# Proofs/Syntax/Subterms — the types inside a type

The **parts** of a type are the types it is made of; its **subterms** are the type itself and the
subterms of its parts.
-/

namespace FluentBuilders

/-- **The types that a type is made of.** -/
def TypeNode.parts : TypeNode → List TypeNode
  | .reference _ arguments => arguments
  | .imported _ _ arguments => arguments
  | .literal _ _ => []
  | .union members => members
  | .intersection members => members
  | .array element => [element]
  | .indexed o i => [o, i]
  | .tuple elements => elements.map TupleElement.type
  | .function parameters returns => parameters.map Parameter.type ++ [returns]
  | .operator _ operand => [operand]
  | .query _ => []
  | .object members => members.flatMap Member.types
  | .raw _ => []

/-- Whether a type is text that is kept as it is. -/
def TypeNode.isRaw : TypeNode → Bool
  | .raw _ => true
  | _ => false

mutual

/-- **A type and the types inside it**, at any depth. -/
def TypeNode.subterms : TypeNode → List TypeNode
  | .reference name arguments => .reference name arguments :: subtermsOfTypes arguments
  | .imported module name arguments =>
    .imported module name arguments :: subtermsOfTypes arguments
  | .literal kind text => [.literal kind text]
  | .union members => .union members :: subtermsOfTypes members
  | .intersection members => .intersection members :: subtermsOfTypes members
  | .array element => .array element :: element.subterms
  | .indexed object index => .indexed object index :: (object.subterms ++ index.subterms)
  | .tuple elements => .tuple elements :: subtermsOfElements elements
  | .function parameters returns =>
    .function parameters returns :: (subtermsOfParameters parameters ++ returns.subterms)
  | .operator op operand => .operator op operand :: operand.subterms
  | .query name => [.query name]
  | .object members => .object members :: subtermsOfMembers members
  | .raw text => [.raw text]

/-- The types inside types in a row. -/
def subtermsOfTypes : List TypeNode → List TypeNode
  | [] => []
  | node :: nodes => node.subterms ++ subtermsOfTypes nodes

/-- The types inside a type that may be missing. -/
def subtermsOfOptional : Option TypeNode → List TypeNode
  | none => []
  | some node => node.subterms

/-- The types inside tuple elements. -/
def subtermsOfElements : List TupleElement → List TypeNode
  | [] => []
  | .plain node :: elements => node.subterms ++ subtermsOfElements elements
  | .named _ _ node :: elements => node.subterms ++ subtermsOfElements elements
  | .rest node :: elements => node.subterms ++ subtermsOfElements elements

/-- The types inside parameters. -/
def subtermsOfParameters : List Parameter → List TypeNode
  | [] => []
  | .mk _ _ _ node :: parameters => node.subterms ++ subtermsOfParameters parameters

/-- The types inside members. -/
def subtermsOfMembers : List Member → List TypeNode
  | [] => []
  | .property _ _ _ type :: members => subtermsOfOptional type ++ subtermsOfMembers members
  | .method _ _ parameters returns :: members =>
    subtermsOfParameters parameters ++ subtermsOfOptional returns ++ subtermsOfMembers members
  | .index _ _ keyType valueType :: members =>
    keyType.subterms ++ valueType.subterms ++ subtermsOfMembers members

end

theorem subtermsOfTypes_eq (nodes : List TypeNode) :
    subtermsOfTypes nodes = nodes.flatMap TypeNode.subterms := by
  induction nodes with
  | nil => rfl
  | cons node nodes ih => rw [subtermsOfTypes, ih, List.flatMap_cons]

theorem subtermsOfOptional_eq (type : Option TypeNode) :
    subtermsOfOptional type = type.toList.flatMap TypeNode.subterms := by
  cases type <;> simp [subtermsOfOptional]

theorem subtermsOfElements_eq (elements : List TupleElement) :
    subtermsOfElements elements = (elements.map TupleElement.type).flatMap TypeNode.subterms := by
  induction elements with
  | nil => rfl
  | cons e elements ih => cases e <;> simp [subtermsOfElements, ih, TupleElement.type]

theorem subtermsOfParameters_eq (parameters : List Parameter) :
    subtermsOfParameters parameters =
      (parameters.map Parameter.type).flatMap TypeNode.subterms := by
  induction parameters with
  | nil => rfl
  | cons p parameters ih => cases p; simp [subtermsOfParameters, ih, Parameter.type]

theorem subtermsOfMembers_eq (members : List Member) :
    subtermsOfMembers members = (members.flatMap Member.types).flatMap TypeNode.subterms := by
  induction members with
  | nil => rfl
  | cons m members ih =>
    cases m <;>
      simp [subtermsOfMembers, ih, Member.types, subtermsOfParameters_eq, subtermsOfOptional_eq]

/-- **The subterms of a type** are itself and those of its parts. -/
theorem TypeNode.subterms_eq (node : TypeNode) :
    node.subterms = node :: node.parts.flatMap TypeNode.subterms := by
  cases node <;>
    simp [TypeNode.subterms, TypeNode.parts, subtermsOfTypes_eq, subtermsOfElements_eq,
      subtermsOfParameters_eq, subtermsOfMembers_eq]

theorem TypeNode.self_mem_subterms (node : TypeNode) : node ∈ node.subterms := by
  rw [node.subterms_eq]
  exact List.mem_cons_self

theorem TypeNode.subterms_subset {node part : TypeNode} (h : part ∈ node.parts) :
    part.subterms ⊆ node.subterms := by
  intro t ht
  rw [node.subterms_eq]
  exact List.mem_cons_of_mem _ (List.mem_flatMap.2 ⟨part, h, ht⟩)

end FluentBuilders
