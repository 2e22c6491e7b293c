import FluentBuilders.Proofs.Syntax.Reading
import FluentBuilders.Source.ObjectBody

/-!
# Proofs/Syntax/Unions — the unions that can be written

A union that is read has at least two members, and so have the unions among its members: one member
alone is no union (`joins_parseType`).
-/

namespace FluentBuilders

mutual

/-- **A union of two or more**, as are the unions among its members; anything else is none. -/
def TypeNode.joins : TypeNode → Bool
  | .union members => 2 ≤ members.length && joinsAll members
  | _ => true

/-- Every one of several types joins two or more, if it is a union. -/
def joinsAll : List TypeNode → Bool
  | [] => true
  | node :: nodes => node.joins && joinsAll nodes

end

namespace Grammar

/-- What is known of the unions at the root of a tree. -/
def Category.Joins : (c : Category) → c.Tree → Prop
  | .type, t | .function, t | .union, t | .intersection, t | .operand, t | .primary, t => t.joins
  | .unionTail, ts | .intersectionTail, ts => joinsAll ts
  | .brackets base, t => base.joins → t.joins
  | _, _ => True

theorem joins_groupOf_union {t : TypeNode} {ts : List TypeNode} (ht : t.joins) (hts : joinsAll ts) :
    (groupOf .union (t :: ts)).joins := by
  cases ts with
  | nil => exact ht
  | cons u ts => simp [groupOf, TypeNode.joins, joinsAll, ht] at hts ⊢; exact hts

theorem joins_groupOf_intersection {t : TypeNode} {ts : List TypeNode} (ht : t.joins) :
    (groupOf .intersection (t :: ts)).joins := by
  cases ts with
  | nil => exact ht
  | cons u ts => rfl

theorem Derives.joins {c : Category} {ts : List Token} {v : c.Tree} {next : Option Token}
    (h : Derives c ts v next) : c.Joins v := by
  induction h with
  | ofFunction _ _ ih => exact ih
  | ofUnion _ ih => exact ih
  | unionOf _ _ _ ih ihs => exact joins_groupOf_union ih ihs
  | unionEnd => rfl
  | unionMore _ _ ih ihs => exact (Bool.and_eq_true _ _).mpr ⟨ih, ihs⟩
  | intersectionOf _ _ _ ih => exact joins_groupOf_intersection ih
  | intersectionEnd => rfl
  | intersectionMore _ _ ih ihs => exact (Bool.and_eq_true _ _).mpr ⟨ih, ihs⟩
  | bracketed _ _ ih ihs => exact ihs ih
  | bracketsEnd => exact id
  | arrayOf _ ih => exact fun _ => ih rfl
  | indexedBy _ _ _ ih => exact fun _ => ih rfl
  | parens _ ih => exact ih
  | _ => trivial

end Grammar

/-- **Every union that is read joins two or more types.** -/
theorem joins_parseType (text : List Char) : (parseType text).joins := by
  unfold parseType
  dsimp only
  split
  · next t h =>
    obtain ⟨tokens, -, htype⟩ := Option.bind_eq_some_iff.1 h
    exact (Grammar.typeOfTokens?_eq_some_iff.1 htype).joins
  · rfl

theorem joins_readType (text : List Char) : (readType text).value.joins := by
  unfold readType
  split
  · split
    · rfl
    · rfl
  · exact joins_parseType text

end FluentBuilders
