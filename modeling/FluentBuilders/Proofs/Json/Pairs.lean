import FluentBuilders.Json.Value
import Mathlib.Data.List.Nodup

/-!
# Proofs/Json/Pairs — pairs written one after the other

Every key has the last value written to it (`lookup_putAll`), and new keys follow the others in the
order of writing (`putAll_of_nodup`).
-/

namespace FluentBuilders.Pairs

variable {α : Type} {key : String} {ws pairs : List (String × α)}

/-- **Pairs written one after the other.** -/
def putAll (ws pairs : List (String × α)) : List (String × α) :=
  ws.foldl (fun pairs w => put w.1 w.2 pairs) pairs

@[simp] theorem putAll_cons (w : String × α) :
    putAll (w :: ws) pairs = putAll ws (put w.1 w.2 pairs) := rfl

/-- **The last value written to a key** is the one it has; a key that is not written keeps its own. -/
theorem lookup_putAll :
    (putAll ws pairs).lookup key = (ws.reverse.lookup key).or (pairs.lookup key) := by
  induction ws generalizing pairs with
  | nil => rfl
  | cons w ws ih =>
    obtain ⟨k, value⟩ := w
    rw [putAll_cons, ih, lookup_put, List.reverse_cons, List.lookup_append, Option.or_assoc]
    congr 1
    by_cases h : key = k <;> simp [List.lookup_cons, h, beq_eq_false_iff_ne.2]

theorem put_of_notMem {value : α} (h : key ∉ pairs.map Prod.fst) :
    put key value pairs = pairs ++ [(key, value)] := by
  induction pairs with
  | nil => rfl
  | cons p pairs ih =>
    obtain ⟨hne, hrest⟩ := not_or.1 (List.mem_cons.not.1 h)
    rw [put, if_neg (Ne.symm hne), ih hrest, List.cons_append]

/-- New keys, each written once, follow the others in the order of writing. -/
theorem putAll_of_nodup (h : (pairs.map Prod.fst ++ ws.map Prod.fst).Nodup) :
    putAll ws pairs = pairs ++ ws := by
  induction ws generalizing pairs with
  | nil => exact (List.append_nil _).symm
  | cons w ws ih =>
    rw [List.map_cons, List.append_cons] at h
    have hnew : w.1 ∉ pairs.map Prod.fst := fun hmem =>
      (List.nodup_append'.1 h.of_append_left).2.2 hmem List.mem_cons_self
    rw [putAll_cons, put_of_notMem hnew, ih (by simpa using h), List.append_assoc]
    rfl

end FluentBuilders.Pairs
