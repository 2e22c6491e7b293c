import FluentBuilders.Proofs.Syntax.Subterms
import FluentBuilders.Syntax.Equality
import Mathlib.Algebra.Order.BigOperators.Group.List
import Mathlib.Algebra.Order.Group.Nat
import Mathlib.Algebra.Ring.Nat

/-!
# Proofs/Syntax/Size — a type is larger than the types inside it

The size of a type is one more than the sizes of its parts together, so what holds of a type when it
holds of its parts holds of every type (`TypeNode.induction_parts`).
-/

namespace FluentBuilders

theorem sizeOfTypes_eq (ts : List TypeNode) : sizeOfTypes ts = (ts.map TypeNode.size).sum := by
  induction ts with
  | nil => rfl
  | cons t ts ih => rw [sizeOfTypes, ih, List.map_cons, List.sum_cons]

theorem sizeOfElements_eq (es : List TupleElement) :
    sizeOfElements es = (es.map fun e => e.type.size).sum := by
  induction es with
  | nil => rfl
  | cons e es ih => cases e <;> rw [sizeOfElements, ih, List.map_cons, List.sum_cons] <;> rfl

theorem sizeOfParameters_eq (ps : List Parameter) :
    sizeOfParameters ps = (ps.map fun p => p.type.size).sum := by
  induction ps with
  | nil => rfl
  | cons p ps ih => cases p; rw [sizeOfParameters, ih, List.map_cons, List.sum_cons]; rfl

/-- The size of a member that stands by itself. -/
def Member.size (m : Member) : Nat := sizeOfMembers [m]

theorem sizeOfMembers_eq (ms : List Member) : sizeOfMembers ms = (ms.map Member.size).sum := by
  induction ms with
  | nil => rfl
  | cons m ms ih =>
    rw [List.map_cons, List.sum_cons, ← ih]
    cases m <;> simp only [Member.size, sizeOfMembers] <;> omega

theorem size_mem_le {α : Type} {size : α → Nat} {x : α} {xs : List α} (h : x ∈ xs) :
    size x ≤ (xs.map size).sum := List.le_sum_of_mem (List.mem_map_of_mem h)

theorem Member.size_lt {m : Member} {t : TypeNode} (h : t ∈ m.types) : t.size < m.size := by
  cases m with
  | property name optional readonly type =>
    obtain rfl : type = some t := by simpa [Member.types] using h
    simp [Member.size, sizeOfMembers, sizeOfOptional]
  | method name optional parameters returns =>
    rw [Member.types, List.mem_append, List.mem_map] at h
    simp only [Member.size, sizeOfMembers, sizeOfParameters_eq]
    rcases h with ⟨p, hp, rfl⟩ | h
    · have := @size_mem_le _ (fun p : Parameter => p.type.size) _ _ hp
      omega
    · obtain rfl : returns = some t := by simpa using h
      simp only [sizeOfOptional]
      omega
  | index key readonly keyType valueType =>
    simp only [Member.size, sizeOfMembers]
    simp only [Member.types, List.mem_cons, List.not_mem_nil, or_false] at h
    rcases h with rfl | rfl <;> omega

/-- **A part is smaller.** -/
theorem TypeNode.size_lt {t part : TypeNode} (h : part ∈ t.parts) : part.size < t.size := by
  cases t with
  | reference | imported | union | intersection =>
    rw [TypeNode.size, sizeOfTypes_eq]
    exact Nat.lt_succ_of_le (size_mem_le h)
  | literal | query | raw => cases h
  | array | operator =>
    rw [List.mem_singleton.1 h, TypeNode.size]
    exact Nat.lt_succ_self _
  | indexed object index =>
    simp only [TypeNode.parts, List.mem_cons, List.not_mem_nil, or_false] at h
    rw [TypeNode.size]
    rcases h with rfl | rfl <;> omega
  | tuple elements =>
    obtain ⟨e, he, rfl⟩ := List.mem_map.1 h
    rw [TypeNode.size, sizeOfElements_eq]
    exact Nat.lt_succ_of_le (@size_mem_le _ (fun e : TupleElement => e.type.size) _ _ he)
  | function parameters returns =>
    rw [TypeNode.parts, List.mem_append, List.mem_map] at h
    rw [TypeNode.size, sizeOfParameters_eq]
    rcases h with ⟨p, hp, rfl⟩ | h
    · have := @size_mem_le _ (fun p : Parameter => p.type.size) _ _ hp
      omega
    · rw [List.mem_singleton.1 h]
      omega
  | object members =>
    obtain ⟨m, hm, ht⟩ := List.mem_flatMap.1 h
    rw [TypeNode.size, sizeOfMembers_eq]
    have := @size_mem_le _ Member.size _ _ hm
    have := Member.size_lt ht
    omega

/-- **Induction over the types inside a type.** -/
theorem TypeNode.induction_parts {P : TypeNode → Prop}
    (h : ∀ t, (∀ part ∈ t.parts, P part) → P t) (t : TypeNode) : P t := by
  induction hn : t.size using Nat.strong_induction_on generalizing t with
  | _ n ih =>
    subst hn
    exact h t fun part hpart => ih part.size (TypeNode.size_lt hpart) part rfl

end FluentBuilders
