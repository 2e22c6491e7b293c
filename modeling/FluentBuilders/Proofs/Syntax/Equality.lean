import FluentBuilders.Source.File
import FluentBuilders.Syntax.Equality

/-!
# Proofs/Syntax/Equality — the comparison of type expressions decides whether they are equal
-/

namespace FluentBuilders

mutual

theorem TypeNode.same_iff : ∀ a b : TypeNode, a.same b = true ↔ a = b
  | .reference n as, b => by
    cases b <;> simp [TypeNode.same, sameTypes_iff as]
  | .imported m n as, b => by
    cases b <;> simp [TypeNode.same, sameTypes_iff as, and_assoc]
  | .literal k t, b => by
    cases b <;> simp [TypeNode.same]
  | .union ms, b => by
    cases b <;> simp [TypeNode.same, sameTypes_iff ms]
  | .intersection ms, b => by
    cases b <;> simp [TypeNode.same, sameTypes_iff ms]
  | .array e, b => by
    cases b <;> simp [TypeNode.same, TypeNode.same_iff e]
  | .indexed o i, b => by
    cases b <;> simp [TypeNode.same, TypeNode.same_iff o, TypeNode.same_iff i, and_comm]
  | .tuple es, b => by
    cases b <;> simp [TypeNode.same, sameElements_iff es]
  | .function ps r, b => by
    cases b <;> simp [TypeNode.same, sameParameters_iff ps, TypeNode.same_iff r]
  | .operator op n, b => by
    cases b <;> simp [TypeNode.same, TypeNode.same_iff n]
  | .query n, b => by
    cases b <;> simp [TypeNode.same]
  | .object ms, b => by
    cases b <;> simp [TypeNode.same, sameMembers_iff ms]
  | .raw t, b => by
    cases b <;> simp [TypeNode.same]

theorem sameTypes_iff : ∀ as bs : List TypeNode, sameTypes as bs = true ↔ as = bs
  | [], bs => by cases bs <;> simp [sameTypes]
  | a :: as, bs => by cases bs <;> simp [sameTypes, TypeNode.same_iff a, sameTypes_iff as]

theorem sameOptional_iff : ∀ a b : Option TypeNode, sameOptional a b = true ↔ a = b
  | none, b => by cases b <;> simp [sameOptional]
  | some a, b => by cases b <;> simp [sameOptional, TypeNode.same_iff a]

theorem sameElements_iff : ∀ as bs : List TupleElement, sameElements as bs = true ↔ as = bs
  | [], bs => by cases bs <;> simp [sameElements]
  | .plain a :: as, [] | .named n o a :: as, [] | .rest a :: as, [] => by simp [sameElements]
  | .plain a :: as, b :: bs => by
    cases b <;> simp [sameElements, TypeNode.same_iff a, sameElements_iff as]
  | .named n o a :: as, b :: bs => by
    cases b <;> simp [sameElements, TypeNode.same_iff a, sameElements_iff as, and_assoc]
  | .rest a :: as, b :: bs => by
    cases b <;> simp [sameElements, TypeNode.same_iff a, sameElements_iff as]

theorem sameParameters_iff : ∀ as bs : List Parameter, sameParameters as bs = true ↔ as = bs
  | [], bs => by cases bs <;> simp [sameParameters]
  | .mk n o r a :: as, [] => by simp [sameParameters]
  | .mk n o r a :: as, .mk n' o' r' b :: bs => by
    simp [sameParameters, TypeNode.same_iff a, sameParameters_iff as, and_assoc]

theorem sameMembers_iff : ∀ as bs : List Member, sameMembers as bs = true ↔ as = bs
  | [], bs => by cases bs <;> simp [sameMembers]
  | .property n o r t :: as, [] | .method n o ps t :: as, [] | .index k r a v :: as, [] => by
    simp [sameMembers]
  | .property n o r t :: as, b :: bs => by
    cases b <;> simp [sameMembers, sameOptional_iff t, sameMembers_iff as, and_assoc]
  | .method n o ps t :: as, b :: bs => by
    cases b <;>
      simp [sameMembers, sameParameters_iff ps, sameOptional_iff t, sameMembers_iff as, and_assoc]
  | .index k r a v :: as, b :: bs => by
    cases b <;>
      simp [sameMembers, TypeNode.same_iff a, TypeNode.same_iff v, sameMembers_iff as, and_assoc]

end

instance : DecidableEq TypeNode := fun a b => decidable_of_iff _ (TypeNode.same_iff a b)

instance : DecidableEq Member := fun a b =>
  decidable_of_iff (sameMembers [a] [b] = true) ((sameMembers_iff _ _).trans (by simp))

deriving instance DecidableEq for TypeParameter
deriving instance DecidableEq for AliasDeclaration
deriving instance DecidableEq for InterfaceDeclaration
deriving instance DecidableEq for EnumDeclaration
deriving instance DecidableEq for ImportDeclaration
deriving instance DecidableEq for Contents

end FluentBuilders
