import FluentBuilders.Number.Binary64

/-!
# Json/Value — JSON values, with objects in the order they were written

An object is a list of pairs in which `put` keeps every key once: a key that is written again keeps
its place and takes the new value.
-/

namespace FluentBuilders

/-- **A JSON value.**  Numbers with a fraction or an exponent are floating-point numbers, all others
integers of any size. -/
inductive Json where
  | null
  | bool (b : Bool)
  | int (n : Int)
  | float (x : Binary64)
  | string (s : String)
  | array (items : List Json)
  | object (pairs : List (String × Json))
  deriving Repr, Inhabited

namespace Pairs

/-- **Writes a key** of an ordered map: in place when the key is there, at the end otherwise. -/
def put {α : Type} (key : String) (value : α) : List (String × α) → List (String × α)
  | [] => [(key, value)]
  | (k, v) :: pairs => if k = key then (k, value) :: pairs else (k, v) :: put key value pairs

theorem lookup_put {α : Type} (key k : String) (value : α) (pairs : List (String × α)) :
    (put key value pairs).lookup k = if k = key then some value else pairs.lookup k := by
  induction pairs with
  | nil => by_cases h : k = key <;> simp [put, List.lookup_cons, h, beq_eq_false_iff_ne.2]
  | cons p pairs ih =>
    obtain ⟨a, v⟩ := p
    by_cases ha : a = key
    · subst ha
      by_cases h : k = a
      · subst h; simp [put]
      · simp [put, List.lookup_cons, beq_eq_false_iff_ne.2 h, h]
    · by_cases h : k = a
      · subst h; simp [put, ha]
      · simp [put, ha, List.lookup_cons, beq_eq_false_iff_ne.2 h, ih]

end Pairs

namespace Json

/-- The value of a key of an object. -/
def get? (json : Json) (key : String) : Option Json :=
  match json with
  | .object pairs => pairs.lookup key
  | _ => none

end Json

end FluentBuilders
