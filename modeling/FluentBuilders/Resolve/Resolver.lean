import FluentBuilders.Resolve.Shape
import FluentBuilders.Syntax.Equality

/-!
# Resolve/Resolver — resolution with nested steps

`deeperSteps` makes the steps that lead to types of which nothing is known to be smaller.  What such
a step leads to depends on the type, on the aliases being expanded and the declarations being
listed, and on which names are type parameters — not on what these stand for.  So a step that comes
again inside itself would come again and again: resolution is endless exactly then.
-/

namespace FluentBuilders

/-- What a step asks for. -/
inductive DescentKind where
  | constituents
  | memberTypes
  | shape
  deriving DecidableEq, Repr

/-- **A step into a type**, with all that decides where it leads. -/
structure Descent where
  kind : DescentKind
  /-- The size of the type, which tells most steps apart. -/
  size : Nat
  active : List String
  seen : List String
  /-- The names of the type parameters. -/
  names : List String
  node : TypeNode

namespace Descent

/-- The step into a type under an environment. -/
def into (kind : DescentKind) (active seen : List String) (env : Env) (node : TypeNode) : Descent :=
  { kind, size := node.size, active, seen, names := env.map (·.1), node }

/-- The same step. -/
def same (a b : Descent) : Bool :=
  a.kind == b.kind && a.size == b.size && a.active == b.active && a.seen == b.seen &&
    a.names == b.names && a.node == b.node

/-- **A step taken** inside those of `trail`: endless when it is one of them. -/
def enter {α : Type} (d : Descent) (trail : List Descent)
    (next : List Descent → Resolution α) : Resolution α :=
  if trail.any (·.same d) then .error .endless else next (d :: trail)

end Descent

/-- **The steps inside those of `trail`**, of a number of levels: each level resolves with the one
below it. -/
def deeperSteps (s : Scope) (trail : List Descent) : Nat → Deeper
  | 0 => Deeper.none
  | level + 1 =>
    { constituents := fun active env node =>
        (Descent.into .constituents active [] env node).enter trail fun trail =>
          s.normalForm <$> collect s (deeperSteps s trail level) active env node
      memberTypes := fun active env member =>
        (Descent.into .memberTypes active [] env (.object [member])).enter trail fun trail =>
          memberTypes s (deeperSteps s trail level) active env member
      shape := fun active seen env node =>
        (Descent.into .shape active seen env node).enter trail fun trail =>
          shape s (deeperSteps s trail level) active seen env node }

/-- How many levels of nested steps are followed: more than a run of any length could take. -/
def nestingLimit : Nat := 1000000000000000000

namespace Scope

/-- The steps that resolution starts with. -/
def steps (s : Scope) : Deeper := deeperSteps s [] nestingLimit

/-- **The constituents of a type** in normal form, under an environment. -/
def describe (s : Scope) (env : Env) (node : TypeNode) : Resolution (List ResolvedType) :=
  s.normalForm <$> collect s s.steps [] env node

/-- **A type as one type**, under an environment. -/
def resolveType (s : Scope) (env : Env) (node : TypeNode) : Resolution ResolvedType :=
  resolve s s.steps [] env node

end Scope

/-- **A declaration's own type parameters** as types of their own. -/
def parameterEnv (parameters : List TypeParameter) : Env :=
  parameters.foldl (fun env p => (p.name, [.plain p.name .typeParameter]) :: env) []

end FluentBuilders
