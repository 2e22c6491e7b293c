import FluentBuilders.Proofs.Resolve.Parts
import FluentBuilders.Proofs.Syntax.Equality
import FluentBuilders.Proofs.Text.Quoted

/-!
# Proofs/Resolve/Leaves — types that lead nowhere

Literals, intrinsic types and bound parameters are expanded without a look at any declaration.
-/

namespace FluentBuilders

variable {s : Scope} {deeper : Deeper} {active : List String} {env : Env} {name : String}
  {types : List ResolvedType}

/-- The type that a literal is. -/
def Literal.type : Literal → ResolvedType
  | (.string, text) => .stringLiteral text
  | (.number, text) => .plain text .literal
  | (.template, text) => .plain text .template

theorem collect_literal {kind : LiteralKind} {text : String} :
    collect s deeper active env (.literal kind text) = .ok [Literal.type (kind, text)] := by
  cases kind <;> rw [collect] <;> rfl

/-- The types that the intrinsic types stand for. -/
def intrinsicTypes : List ResolvedType := ResolvedType.intrinsics.flatMap (·.2)

theorem mem_intrinsicTypes {t : ResolvedType}
    (h : ResolvedType.intrinsics.lookup name = some types) (ht : t ∈ types) :
    t ∈ intrinsicTypes := List.mem_flatMap.2 ⟨_, mem_of_lookup h, ht⟩

theorem collect_of_lookup (h : env.lookup name = some types) :
    collect s deeper active env (.reference name []) = .ok types := by
  rw [collect]
  simp only [List.isEmpty_nil, if_true, h]

theorem free_of_lookup_eq_none {arguments : List TypeNode}
    (h : arguments = [] → env.lookup name = none) :
    (if arguments.isEmpty = true then env.lookup name else none) = none := by
  split
  · next he => exact h (List.isEmpty_iff.1 he)
  · rfl

theorem collect_of_intrinsic {arguments : List TypeNode}
    (hfree : arguments = [] → env.lookup name = none)
    (h : ResolvedType.intrinsics.lookup name = some types) :
    collect s deeper active env (.reference name arguments) = .ok types := by
  rw [collect, free_of_lookup_eq_none hfree]
  simp only [h]

end FluentBuilders
