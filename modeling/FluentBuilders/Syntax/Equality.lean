import FluentBuilders.Syntax.TypeNode

/-!
# Syntax/Equality — when two type expressions are the same, and how large one is

Two expressions are the same when they are built alike from the same names and texts.  The size
counts the parts an expression has; expressions of different sizes are told apart at once.
-/

namespace FluentBuilders

/-! ## Size -/

mutual

/-- **The number of parts** of a type expression. -/
def TypeNode.size : TypeNode → Nat
  | .reference _ arguments => sizeOfTypes arguments + 1
  | .imported _ _ arguments => sizeOfTypes arguments + 1
  | .literal _ _ => 1
  | .union members => sizeOfTypes members + 1
  | .intersection members => sizeOfTypes members + 1
  | .array element => element.size + 1
  | .indexed object index => object.size + index.size + 1
  | .tuple elements => sizeOfElements elements + 1
  | .function parameters returns => sizeOfParameters parameters + returns.size + 1
  | .operator _ operand => operand.size + 1
  | .query _ => 1
  | .object members => sizeOfMembers members + 1
  | .raw _ => 1

/-- The sizes of types in a row. -/
def sizeOfTypes : List TypeNode → Nat
  | [] => 0
  | node :: nodes => node.size + sizeOfTypes nodes

/-- The size of a type that may be missing. -/
def sizeOfOptional : Option TypeNode → Nat
  | none => 0
  | some node => node.size

/-- The sizes of tuple elements. -/
def sizeOfElements : List TupleElement → Nat
  | [] => 0
  | .plain node :: elements => node.size + sizeOfElements elements
  | .named _ _ node :: elements => node.size + sizeOfElements elements
  | .rest node :: elements => node.size + sizeOfElements elements

/-- The sizes of parameters. -/
def sizeOfParameters : List Parameter → Nat
  | [] => 0
  | .mk _ _ _ node :: parameters => node.size + sizeOfParameters parameters

/-- The sizes of members, each counted as a part. -/
def sizeOfMembers : List Member → Nat
  | [] => 0
  | .property _ _ _ type :: members => sizeOfOptional type + sizeOfMembers members + 1
  | .method _ _ parameters returns :: members =>
    sizeOfParameters parameters + sizeOfOptional returns + sizeOfMembers members + 1
  | .index _ _ keyType valueType :: members =>
    keyType.size + valueType.size + sizeOfMembers members + 1

end

/-! ## Equality -/

mutual

/-- **The same expression.** -/
def TypeNode.same : TypeNode → TypeNode → Bool
  | .reference n as, .reference n' as' => n == n' && sameTypes as as'
  | .imported m n as, .imported m' n' as' => m == m' && n == n' && sameTypes as as'
  | .literal k t, .literal k' t' => k == k' && t == t'
  | .union ms, .union ms' => sameTypes ms ms'
  | .intersection ms, .intersection ms' => sameTypes ms ms'
  | .array e, .array e' => e.same e'
  | .indexed o i, .indexed o' i' => i.same i' && o.same o'
  | .tuple es, .tuple es' => sameElements es es'
  | .function ps r, .function ps' r' => sameParameters ps ps' && r.same r'
  | .operator op n, .operator op' n' => op == op' && n.same n'
  | .query n, .query n' => n == n'
  | .object ms, .object ms' => sameMembers ms ms'
  | .raw t, .raw t' => t == t'
  | _, _ => false
termination_by structural a => a

/-- The same expressions in a row. -/
def sameTypes : List TypeNode → List TypeNode → Bool
  | [], [] => true
  | a :: as, b :: bs => a.same b && sameTypes as bs
  | _, _ => false
termination_by structural a => a

/-- The same expression, or none twice. -/
def sameOptional : Option TypeNode → Option TypeNode → Bool
  | none, none => true
  | some a, some b => a.same b
  | _, _ => false
termination_by structural a => a

/-- The same tuple elements in a row. -/
def sameElements : List TupleElement → List TupleElement → Bool
  | [], [] => true
  | .plain a :: as, .plain b :: bs => a.same b && sameElements as bs
  | .named n o a :: as, .named n' o' b :: bs =>
    n == n' && o == o' && a.same b && sameElements as bs
  | .rest a :: as, .rest b :: bs => a.same b && sameElements as bs
  | _, _ => false
termination_by structural a => a

/-- The same parameters in a row. -/
def sameParameters : List Parameter → List Parameter → Bool
  | [], [] => true
  | .mk n o r a :: as, .mk n' o' r' b :: bs =>
    n == n' && o == o' && r == r' && a.same b && sameParameters as bs
  | _, _ => false
termination_by structural a => a

/-- The same members in a row. -/
def sameMembers : List Member → List Member → Bool
  | [], [] => true
  | .property n o r t :: as, .property n' o' r' t' :: bs =>
    n == n' && o == o' && r == r' && sameOptional t t' && sameMembers as bs
  | .method n o ps t :: as, .method n' o' ps' t' :: bs =>
    n == n' && o == o' && sameParameters ps ps' && sameOptional t t' && sameMembers as bs
  | .index k r a v :: as, .index k' r' a' v' :: bs =>
    k == k' && r == r' && a.same a' && v.same v' && sameMembers as bs
  | _, _ => false
termination_by structural a => a

end

instance : BEq TypeNode := ⟨TypeNode.same⟩

end FluentBuilders
