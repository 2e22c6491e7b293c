import FluentBuilders.Proofs.Resolve.NormalForm
import FluentBuilders.Proofs.Resolve.Parts
import FluentBuilders.Proofs.Syntax.Equality
import FluentBuilders.Proofs.Text.Quoted

/-!
# Proofs/Resolve/UnionFlag — when an alias that is listed as a union is one

Two walks say whether the body of an alias is a union: `unionParts` counts the parts it is written
with, `collect` gathers the constituents it resolves to, and these are brought to normal form.  They
disagree where several parts collapse (`Collapses`) and where a single part hides a union
(`HidesUnion`), and nowhere else (`flag_iff_several_iff`).
-/

namespace FluentBuilders

variable {s : Scope} {deeper : Deeper} {active seen : List String} {env : Env}

/-! ## Unions that are not written -/

/-- **A type that is not written as a union and is one**: several property names under `keyof`, a
property whose type is a union, a type parameter bound to several types, and an alias of one of
these.  A type parameter that takes type arguments is no longer the parameter but the alias of that
name, whatever its body is. -/
inductive HidesUnion (s : Scope) (deeper : Deeper) : List String → Env → TypeNode → Prop
  | keyof {active env operand properties p q}
      (h : deeper.shape active [] env operand = .ok (some properties)) (hp : p ∈ properties)
      (hq : q ∈ properties) (hne : p.name ≠ q.name) :
      HidesUnion s deeper active env (.operator .keyof operand)
  | indexed {active env object index p types}
      (h : indexedProperty? deeper active env object index = .ok (some p))
      (htypes : deeper.memberTypes active p.env p.member = .ok types)
      (hunion : IsUnion s.strictNullChecks types) :
      HidesUnion s deeper active env (.indexed object index)
  | parameter {active env name types} (h : env.lookup name = some types)
      (hunion : IsUnion s.strictNullChecks types) :
      HidesUnion s deeper active env (.reference name [])
  | ofAlias {active env name arguments d bound}
      (h : Expands s deeper active env name arguments d bound)
      (hbody : HidesUnion s deeper (d.name :: active) bound d.body) :
      HidesUnion s deeper active env (.reference name arguments)
  | applied {active env name arguments d bound types}
      (h : Expands s deeper active env name arguments d bound)
      (hname : (env.lookup name).isSome ∨ name ≠ d.name)
      (htypes : collect s deeper (d.name :: active) bound d.body = .ok types)
      (hunion : IsUnion s.strictNullChecks types) :
      HidesUnion s deeper active env (.reference name arguments)

/-- Property names that differ make a union of literals. -/
theorem isUnion_stringLiterals {strict : Bool} {properties : List Property} :
    IsUnion strict (properties.map fun p => .stringLiteral p.name) ↔
      ∃ p ∈ properties, ∃ q ∈ properties, p.name ≠ q.name := by
  constructor
  · rintro ⟨-, t, u, ht, hu, hne⟩
    obtain ⟨p, hp, rfl⟩ := List.mem_map.1 (of_mem_dropRepeats ht.1).1
    obtain ⟨q, hq, rfl⟩ := List.mem_map.1 (of_mem_dropRepeats hu.1).1
    exact ⟨p, hp, q, hq, fun h => hne (by rw [h])⟩
  · rintro ⟨p, hp, q, hq, hne⟩
    refine isUnion_of_plain (fun t ht => ?_) (List.mem_map_of_mem hp) (List.mem_map_of_mem hq)
      fun h => hne (Text.typeLiteral_injective h)
    obtain ⟨r, -, rfl⟩ := List.mem_map.1 ht
    simp [ResolvedType.stringLiteral, ResolvedType.kind]

theorem HidesUnion.isUnion {node : TypeNode} {types : List ResolvedType}
    (h : HidesUnion s deeper active env node) (htypes : collect s deeper active env node = .ok types) :
    IsUnion s.strictNullChecks types := by
  induction h generalizing types with
  | keyof h hp hq hne =>
    rw [collect, h] at htypes
    cases htypes
    exact isUnion_stringLiterals.2 ⟨_, hp, _, hq, hne⟩
  | indexed h hmember hunion =>
    rw [collect, h] at htypes
    change Deeper.memberTypes _ _ _ _ = _ at htypes
    rw [hmember] at htypes
    cases htypes
    exact hunion
  | parameter h hunion =>
    rw [collect] at htypes
    simp only [List.isEmpty_nil, if_true, h] at htypes
    cases htypes
    exact hunion
  | ofAlias h _ ih =>
    rw [collect_of_expands h] at htypes
    exact ih htypes
  | applied h _ hbody hunion =>
    rw [collect_of_expands h, hbody] at htypes
    cases htypes
    exact hunion

/-! ## The walk over the parts and the walk over the constituents -/

variable {home : AliasDeclaration}

/-- **The expansion of `home` is under way**: its body refers to an alias that is being expanded, so
coming back to the body ends there. -/
def Underway (s : Scope) (home : AliasDeclaration) (active : List String) : Prop :=
  ∃ name arguments d, home.body = .reference name arguments ∧ name ∈ active ∧
    name ∉ home.parameters.map (·.name) ∧ name ≠ "boolean" ∧
    s.contents.find? name = some (.alias d)

theorem Underway.cons {name : String} (h : Underway s home active) :
    Underway s home (name :: active) := by
  obtain ⟨n, arguments, d, hbody, hmem, hrest⟩ := h
  exact ⟨n, arguments, d, hbody, List.mem_cons_of_mem name hmem, hrest⟩

end FluentBuilders
