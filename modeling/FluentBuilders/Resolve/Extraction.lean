import FluentBuilders.Resolve.Resolver

/-!
# Resolve/Extraction — the structural declarations of a file

Every alias, then every interface, with its fields and their types.  An alias of a union has the
fields that all its parts share, and keeps the constituents of the union.
-/

namespace FluentBuilders

/-- **A field** of a structural declaration: its type is the list of its constituents. -/
structure Field where
  name : String
  types : List ResolvedType
  optional : Bool
  readonly : Bool
  deriving DecidableEq, Repr

/-- How a structural declaration is written. -/
inductive DeclarationKind where
  | alias
  | interface
  deriving DecidableEq, Repr

/-- **A declaration as builders see it.** -/
structure StructuralDeclaration where
  name : String
  kind : DeclarationKind
  fields : List Field
  isUnion : Bool
  /-- The constituents of the declaration's own type, when it is a union. -/
  members : List ResolvedType
  typeParameters : List String
  line : Nat
  deriving DecidableEq, Repr

namespace StructuralDeclaration

/-- The names of the fields, in order. -/
def fieldNames (d : StructuralDeclaration) : List String := d.fields.map (·.name)

/-- **A union of primitives and literals**: every constituent has members of its own. -/
def isPrimitiveUnion (d : StructuralDeclaration) : Bool :=
  d.isUnion && !d.members.isEmpty && d.members.all (·.kind.hasApparentMembers)

end StructuralDeclaration

/-- The field a property is. -/
def fieldOf (s : Scope) (deeper : Deeper) (p : Property) : Resolution Field := do
  let types ← memberTypes s deeper [] p.env p.member
  let (optional, readonly) :=
    match p.member with
    | .property _ optional readonly _ => (optional, readonly)
    | .method _ optional _ _ => (optional, false)
    | .index _ _ _ _ => (false, false)
  return { name := p.name, types, optional, readonly }

/-- The fields of properties, in order. -/
def fieldsOf (s : Scope) (deeper : Deeper) : List Property → Resolution (List Field)
  | [] => .ok []
  | p :: properties => do
    let field ← fieldOf s deeper p
    let others ← fieldsOf s deeper properties
    return field :: others

/-- **An alias's properties**, and whether its type is a union. -/
def aliasProperties (s : Scope) (deeper : Deeper) (d : AliasDeclaration) :
    Resolution (List Property × Bool) := do
  let env := parameterEnv d.parameters
  let parts ← unionParts s deeper [d.name] env d.body
  if 1 < parts.length then
    let shapes ← partShapes s deeper [d.name] parts
    return (commonShape shapes, true)
  else
    let properties ← shape s deeper [] [d.name] env d.body
    return (properties.getD [], false)

/-- **The structural declaration of an alias.** -/
def extractAlias (s : Scope) (d : AliasDeclaration) : Resolution StructuralDeclaration := do
  let (properties, isUnion) ← aliasProperties s s.steps d
  let fields ← fieldsOf s s.steps properties
  let members ← if isUnion then s.describe (parameterEnv d.parameters) d.body else pure []
  return { name := d.name, kind := .alias, fields, isUnion, members
           typeParameters := d.parameters.map (·.name), line := d.line }

/-- **The structural declaration of an interface.** -/
def extractInterface (s : Scope) (d : InterfaceDeclaration) : Resolution StructuralDeclaration := do
  let properties ← interfaceShape s s.steps [] [d.name] (parameterEnv d.parameters) d
  let fields ← fieldsOf s s.steps properties
  return { name := d.name, kind := .interface, fields, isUnion := false, members := []
           typeParameters := d.parameters.map (·.name), line := d.line }

/-- **Every alias, then every interface**, each in the order of the file. -/
def extract (s : Scope) : Resolution (List StructuralDeclaration) := do
  let aliases ← s.contents.aliases.mapM (extractAlias s)
  let interfaces ← s.contents.interfaces.mapM (extractInterface s)
  return aliases ++ interfaces

end FluentBuilders
