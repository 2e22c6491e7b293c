import FluentBuilders.Resolve.Expansion

/-!
# Resolve/Shape — the properties of object types

The **shape** of a type is the list of its properties, when it has any: those written in an object
type, those of the parts of an intersection, those an interface has of its own and inherits.  A
declaration whose properties are being listed (`seen`) is not entered again, so the recursion ends.
-/

namespace FluentBuilders

/-- The properties of `more` whose names are not in `properties`, added at its end one by one. -/
def mergeShape (properties : List Property) : List Property → List Property
  | [] => properties
  | p :: more =>
    if properties.any (·.name == p.name) then mergeShape properties more
    else mergeShape (properties ++ [p]) more

mutual

/-- **The properties of a type**, or nothing when it is no object type. -/
def shape (s : Scope) (deeper : Deeper) (active seen : List String) (env : Env) :
    TypeNode → Resolution (Option (List Property))
  | .object members => .ok (some (Property.ofMembers env members))
  | .intersection members => do
    let properties ← mergedShapes s deeper active seen env [] members
    return some properties
  | .reference name arguments =>
    if (env.lookup name).isSome then .ok none
    else
      match h : s.contents.find? name with
      | none => .ok none
      | some (.enum _) => .ok none
      | some (.interface d) =>
        if hd : d.name ∈ seen then .ok none
        else do
          let arguments ← argumentLists s deeper active env arguments
          let bound ← bind deeper active [] d.parameters arguments
          have := unvisited_cons_lt (Contents.mem_structuralNames_of_find?_interface h) hd
          let properties ← mergedShapes s deeper active (d.name :: seen) bound
            (Property.ofMembers bound d.members) d.heritage
          return some properties
      | some (.alias d) =>
        if hd : d.name ∈ seen then .ok none
        else do
          let arguments ← argumentLists s deeper active env arguments
          let bound ← bind deeper active [] d.parameters arguments
          have := unvisited_cons_lt (Contents.mem_structuralNames_of_find?_alias h) hd
          shape s deeper active (d.name :: seen) bound d.body
  | .indexed object index => do
    match ← indexedProperty? deeper active env object index with
    | some ⟨_, .property _ _ _ (some type), env⟩ => deeper.shape active seen env type
    | _ => return none
  | _ => .ok none
termination_by node => (unvisited s.contents.structuralNames seen, sizeOf node)
decreasing_by all_goals simp_wf; simp only [Prod.lex_def, true_and]; omega

/-- The properties of several types, added to those before them unless a property of the same name
is there. -/
def mergedShapes (s : Scope) (deeper : Deeper) (active seen : List String) (env : Env)
    (properties : List Property) : List TypeNode → Resolution (List Property)
  | [] => .ok properties
  | node :: nodes => do
    let more ← shape s deeper active seen env node
    mergedShapes s deeper active seen env (mergeShape properties (more.getD [])) nodes
termination_by nodes => (unvisited s.contents.structuralNames seen, sizeOf nodes)
decreasing_by all_goals simp_wf; simp only [Prod.lex_def, true_and]; omega

end

/-- **An interface's properties**: its own, then those it inherits. -/
def interfaceShape (s : Scope) (deeper : Deeper) (active seen : List String) (env : Env)
    (d : InterfaceDeclaration) : Resolution (List Property) :=
  mergedShapes s deeper active seen env (Property.ofMembers env d.members) d.heritage

/-! ## Unions -/

/-- A body that is looked into for the parts of a union. -/
def isUnionBody : TypeNode → Bool
  | .union _ => true
  | .reference _ _ => true
  | _ => false

mutual

/-- **The parts of a union** as they are written, aliases of unions and of references followed. -/
def unionParts (s : Scope) (deeper : Deeper) (seen : List String) (env : Env) :
    TypeNode → Resolution (List (TypeNode × Env))
  | .union members => unionPartsAll s deeper seen env members
  | .reference name arguments =>
    if name = "boolean" then
      .ok [(.reference "false" [], env), (.reference "true" [], env)]
    else
      match env.lookup name with
      | some types =>
        if 1 < types.length then .ok (types.map fun t => (.raw t.text, []))
        else .ok [(.reference name arguments, env)]
      | none =>
        match h : s.contents.find? name with
        | some (.alias d) =>
          if hd : d.name ∈ seen then .ok [(.reference name arguments, env)]
          else if isUnionBody d.body then do
            let arguments ← argumentLists s deeper [] env arguments
            let bound ← bind deeper [] [] d.parameters arguments
            have := unvisited_cons_lt (Contents.mem_structuralNames_of_find?_alias h) hd
            unionParts s deeper (d.name :: seen) bound d.body
          else .ok [(.reference name arguments, env)]
        | _ => .ok [(.reference name arguments, env)]
  | node => .ok [(node, env)]
termination_by node => (unvisited s.contents.structuralNames seen, sizeOf node)
decreasing_by all_goals simp_wf; simp only [Prod.lex_def, true_and]; omega

/-- The parts of several types in a row. -/
def unionPartsAll (s : Scope) (deeper : Deeper) (seen : List String) (env : Env) :
    List TypeNode → Resolution (List (TypeNode × Env))
  | [] => .ok []
  | node :: nodes => do
    let parts ← unionParts s deeper seen env node
    let others ← unionPartsAll s deeper seen env nodes
    return parts ++ others
termination_by nodes => (unvisited s.contents.structuralNames seen, sizeOf nodes)
decreasing_by all_goals simp_wf; simp only [Prod.lex_def, true_and]; omega

end

/-- The shapes of the parts of a union. -/
def partShapes (s : Scope) (deeper : Deeper) (seen : List String) :
    List (TypeNode × Env) → Resolution (List (Option (List Property)))
  | [] => .ok []
  | (node, env) :: parts => do
    let properties ← shape s deeper [] seen env node
    let others ← partShapes s deeper seen parts
    return properties :: others

/-- **What all shapes share**: the properties of the first whose names every other has too; nothing
when one is no object type. -/
def commonShape (shapes : List (Option (List Property))) : List Property :=
  if shapes.any (·.isNone) then []
  else
    match shapes with
    | some first :: _ =>
      first.filter fun p => shapes.all fun other => (other.getD []).any (·.name == p.name)
    | _ => []

end FluentBuilders
