import FluentBuilders.Resolve.Scope

/-!
# Resolve/Expansion — the constituents of a type

`collect` lists what a type is a union of: aliases are expanded, `boolean` is its two values, and
everything else is one type with its text.  An alias that is being expanded (`active`) is not
expanded again, so the recursion ends: either fewer aliases are left to expand, or the type is
smaller.

Three steps lead to types of which nothing is known to be smaller — the type of a property that is
looked up, the properties of the operand of `keyof`, and the default of a type parameter.  They are
taken **deeper**, by a resolver that is given; which of them are endless is decided where the
resolvers are made.
-/

namespace FluentBuilders

/-- **The steps taken one level deeper.**  Each takes the aliases being expanded; `shape` also takes
the declarations whose properties are being listed. -/
structure Deeper where
  constituents : List String → Env → TypeNode → Resolution (List ResolvedType)
  memberTypes : List String → Env → Member → Resolution (List ResolvedType)
  shape : List String → List String → Env → TypeNode → Resolution (Option (List Property))

/-- Nothing is deeper: a step that is taken would go on for ever. -/
def Deeper.none : Deeper where
  constituents _ _ _ := .error .endless
  memberTypes _ _ _ := .error .endless
  shape _ _ _ _ := .error .endless

/-! ## References -/

/-- The name before the first dot of a name, and what comes after it. -/
def splitHead (name : String) : String × String :=
  let (head, rest) := name.toList.span (· ≠ '.')
  (String.ofList head, String.ofList (rest.drop 1))

/-- Type arguments as they stand after a name. -/
def argumentsText (arguments : List (List ResolvedType)) : String :=
  match arguments with
  | [] => ""
  | arguments =>
    "<" ++ String.intercalate ", " (arguments.map fun types => (single types).text) ++ ">"

/-- **A name the file does not declare**: from a namespace, imported by itself, or left as it is. -/
def Scope.foreignName (s : Scope) (name : String) : String :=
  let (head, rest) := splitHead name
  match if rest = "" then Option.none else s.contents.namespaceModule? head with
  | some module => s.qualify rest module
  | none =>
    match s.contents.imported? head with
    | some (module, exported) =>
      s.qualify (if rest = "" then exported else exported ++ "." ++ rest) module
    | none => name

/-- **Type parameters bound to arguments**; a parameter without one is bound to its default,
resolved with the parameters before it, or else to `unknown`. -/
def bind (deeper : Deeper) (active : List String) (env : Env) :
    List TypeParameter → List (List ResolvedType) → Resolution Env
  | [], _ => .ok env
  | p :: ps, types :: arguments => bind deeper active ((p.name, types) :: env) ps arguments
  | p :: ps, [] =>
    match p.default with
    | none => bind deeper active ((p.name, [.unknown]) :: env) ps []
    | some type => do
      let types ← deeper.constituents active env type
      bind deeper active ((p.name, types) :: env) ps []

/-- An alias whose body is shown by the alias's name: the kind of its body. -/
def namedBodyKind? : TypeNode → Option TypeKind
  | .object _ => some .object
  | .intersection _ => some .object
  | .function _ _ => some .function
  | _ => none

/-- **The property an indexed access names**, if the object type has it. -/
def indexedProperty? (deeper : Deeper) (active : List String) (env : Env)
    (object index : TypeNode) : Resolution (Option Property) :=
  match index with
  | .literal kind text =>
    if kind = .template then .ok none
    else do
      let properties ← deeper.shape active [] env object
      return (properties.getD []).find? (·.name == text)
  | _ => .ok none

/-! ## Texts -/

/-- The mark of something optional. -/
def optionalSuffix (optional : Bool) : String := if optional then "?" else ""

/-- The word before something read-only. -/
def readonlyWord (readonly : Bool) : String := if readonly then "readonly " else ""

/-- A parameter with the text of its type. -/
def parameterText (name : String) (optional rest : Bool) (type : String) : String :=
  (if rest then "..." else "") ++ name ++ optionalSuffix optional ++ ": " ++ type

/-- Parameters in parentheses. -/
def signatureText (parameters : List String) : String :=
  "(" ++ String.intercalate ", " parameters ++ ")"

/-- Members in braces. -/
def bodyText (members : List String) : String :=
  if members.isEmpty then "\x7b\x7d" else "\x7b " ++ String.intercalate " " members ++ " \x7d"

/-! ## Constituents -/

mutual

/-- **The constituents of a type**, in the order they are written and with repeats. -/
def collect (s : Scope) (deeper : Deeper) (active : List String) (env : Env) :
    TypeNode → Resolution (List ResolvedType)
  | .union members => collectAll s deeper active env members
  | .reference name arguments =>
    match if arguments.isEmpty then env.lookup name else none with
    | some types => .ok types
    | none =>
      match ResolvedType.intrinsics.lookup name with
      | some types => .ok types
      | none => do
        let argumentTypes ← argumentLists s deeper active env arguments
        let elements ←
          if (name = "Array" ∨ name = "ReadonlyArray") ∧ (s.contents.find? name).isNone then
            resolveEach s deeper active env arguments
          else pure []
        match elements with
        | [element] =>
          return [if name = "Array" then .array element else .readonlyArray element]
        | _ =>
          let named := argumentsText argumentTypes
          match h : s.contents.find? (splitHead name).1 with
          | some (.enum _) =>
            return [.plain (s.ownName name) (if (splitHead name).2 = "" then .enum else .literal)]
          | some (.interface _) => return [.plain (s.ownName name ++ named) .object]
          | some (.alias d) =>
            if (splitHead name).2 ≠ "" then return [.plain (s.ownName name ++ named) .object]
            else if hd : d.name ∈ active then return [.plain (s.ownName d.name) .raw]
            else
              match namedBodyKind? d.body with
              | some kind => return [.plain (s.ownName d.name ++ named) kind]
              | none =>
                let bound ← bind deeper active [] d.parameters argumentTypes
                have := unvisited_cons_lt (Contents.mem_aliasNames_of_find? h) hd
                collect s deeper (d.name :: active) bound d.body
          | none => return [.plain (s.foreignName name ++ named) .object]
  | .indexed object index => do
    match ← indexedProperty? deeper active env object index with
    | some p => deeper.memberTypes active p.env p.member
    | none =>
      let object ← resolve s deeper active env object
      let index ← resolve s deeper active env index
      return [.plain (object.text ++ "[" ++ index.text ++ "]") .raw]
  | .operator .keyof operand => do
    match ← deeper.shape active [] env operand with
    | some properties => return properties.map fun p => .stringLiteral p.name
    | none =>
      let operand ← resolve s deeper active env operand
      return [.plain ("keyof " ++ operand.operandText) .raw]
  | .operator .unique _ => .ok [.plain "unique symbol" .symbol]
  | .operator .readonly operand => do
    let operand ← resolve s deeper active env operand
    if operand.kind = .array ∨ operand.kind = .tuple then
      return [.plain ("readonly " ++ operand.text) .object]
    else return [operand]
  | .literal .string text => .ok [.stringLiteral text]
  | .literal .template text => .ok [.plain text .template]
  | .literal .number text => .ok [.plain text .literal]
  | .array element => do
    let element ← resolve s deeper active env element
    return [.array element]
  | .intersection members => do
    let members ← resolveEach s deeper active env members
    return [.plain (String.intercalate " & " (members.map (·.operandText))) .intersection]
  | .tuple elements => do
    let elements ← elementTexts s deeper active env elements
    return [.plain ("[" ++ String.intercalate ", " elements ++ "]") .tuple]
  | .function parameters returns => do
    let parameters ← parameterTexts s deeper active env parameters
    let returns ← resolve s deeper active env returns
    return [.plain (signatureText parameters ++ " => " ++ returns.text) .function]
  | .object members => do
    let members ← memberTexts s deeper active env members
    return [.plain (bodyText members) .object]
  | .query name => .ok [.plain ("typeof " ++ name) .raw]
  | .imported module name arguments => do
    let arguments ← argumentLists s deeper active env arguments
    let module := resolveModule module s.directory
    return [.plain (s.qualify name module ++ argumentsText arguments) .object]
  | .raw text => .ok [.plain text .raw]
termination_by node => (unvisited s.contents.aliasNames active, sizeOf node, 0)
decreasing_by all_goals simp_wf; simp only [Prod.lex_def, true_and]; omega

/-- The constituents of several types in a row. -/
def collectAll (s : Scope) (deeper : Deeper) (active : List String) (env : Env) :
    List TypeNode → Resolution (List ResolvedType)
  | [] => .ok []
  | node :: nodes => do
    let types ← collect s deeper active env node
    let others ← collectAll s deeper active env nodes
    return types ++ others
termination_by nodes => (unvisited s.contents.aliasNames active, sizeOf nodes, 0)
decreasing_by all_goals simp_wf; simp only [Prod.lex_def, true_and]; omega

/-- The constituents of each of several types, in normal form. -/
def argumentLists (s : Scope) (deeper : Deeper) (active : List String) (env : Env) :
    List TypeNode → Resolution (List (List ResolvedType))
  | [] => .ok []
  | node :: nodes => do
    let types ← collect s deeper active env node
    let others ← argumentLists s deeper active env nodes
    return s.normalForm types :: others
termination_by nodes => (unvisited s.contents.aliasNames active, sizeOf nodes, 0)
decreasing_by all_goals simp_wf; simp only [Prod.lex_def, true_and]; omega

/-- **One type.**  A reference to an alias of a union keeps the alias's name. -/
def resolve (s : Scope) (deeper : Deeper) (active : List String) (env : Env) (node : TypeNode) :
    Resolution ResolvedType := do
  let types ← collect s deeper active env node
  let type := single (s.normalForm types)
  if type.kind = .union then
    match ← aliasText? s deeper active env node with
    | some text => return .plain text .alias
    | none => return type
  else return type
termination_by (unvisited s.contents.aliasNames active, sizeOf node, 1)
decreasing_by all_goals simp only [Prod.lex_def, true_and]; omega

/-- The name of an alias with its arguments, for a reference to one that is not being expanded. -/
def aliasText? (s : Scope) (deeper : Deeper) (active : List String) (env : Env) :
    TypeNode → Resolution (Option String)
  | .reference name arguments =>
    match env.lookup name, s.contents.find? name with
    | none, some (.alias d) =>
      if d.name ∈ active then .ok none
      else do
        let arguments ← argumentLists s deeper active env arguments
        return some (s.ownName name ++ argumentsText arguments)
    | _, _ => .ok none
  | _ => .ok none
termination_by node => (unvisited s.contents.aliasNames active, sizeOf node, 0)
decreasing_by all_goals simp_wf; simp only [Prod.lex_def, true_and]; omega

/-- Each of several types as one type. -/
def resolveEach (s : Scope) (deeper : Deeper) (active : List String) (env : Env) :
    List TypeNode → Resolution (List ResolvedType)
  | [] => .ok []
  | node :: nodes => do
    let type ← resolve s deeper active env node
    let others ← resolveEach s deeper active env nodes
    return type :: others
termination_by nodes => (unvisited s.contents.aliasNames active, sizeOf nodes, 0)
decreasing_by all_goals simp_wf; simp only [Prod.lex_def, true_and]; omega

/-- The text of a type that may be missing; a missing one is `any`. -/
def optionalTypeText (s : Scope) (deeper : Deeper) (active : List String) (env : Env) :
    Option TypeNode → Resolution String
  | none => .ok "any"
  | some node => do
    let type ← resolve s deeper active env node
    return type.text
termination_by node => (unvisited s.contents.aliasNames active, sizeOf node, 0)
decreasing_by all_goals simp_wf; simp only [Prod.lex_def, true_and]; omega

/-- The texts of tuple elements. -/
def elementTexts (s : Scope) (deeper : Deeper) (active : List String) (env : Env) :
    List TupleElement → Resolution (List String)
  | [] => .ok []
  | .plain node :: elements => do
    let type ← resolve s deeper active env node
    let others ← elementTexts s deeper active env elements
    return type.text :: others
  | .named name optional node :: elements => do
    let type ← resolve s deeper active env node
    let others ← elementTexts s deeper active env elements
    return (name ++ optionalSuffix optional ++ ": " ++ type.text) :: others
  | .rest node :: elements => do
    let type ← resolve s deeper active env node
    let others ← elementTexts s deeper active env elements
    return ("..." ++ type.text) :: others
termination_by elements => (unvisited s.contents.aliasNames active, sizeOf elements, 0)
decreasing_by all_goals simp_wf; simp only [Prod.lex_def, true_and]; omega

/-- The texts of parameters. -/
def parameterTexts (s : Scope) (deeper : Deeper) (active : List String) (env : Env) :
    List Parameter → Resolution (List String)
  | [] => .ok []
  | .mk name optional rest node :: parameters => do
    let type ← resolve s deeper active env node
    let others ← parameterTexts s deeper active env parameters
    return parameterText name optional rest type.text :: others
termination_by parameters => (unvisited s.contents.aliasNames active, sizeOf parameters, 0)
decreasing_by all_goals simp_wf; simp only [Prod.lex_def, true_and]; omega

/-- The texts of object members, each with its semicolon. -/
def memberTexts (s : Scope) (deeper : Deeper) (active : List String) (env : Env) :
    List Member → Resolution (List String)
  | [] => .ok []
  | .index key readonly keyType valueType :: members => do
    let keyType ← resolve s deeper active env keyType
    let valueType ← resolve s deeper active env valueType
    let others ← memberTexts s deeper active env members
    return (readonlyWord readonly ++ "[" ++ key ++ ": " ++ keyType.text ++ "]: " ++
      valueType.text ++ ";") :: others
  | .method name optional parameters returns :: members => do
    let parameters ← parameterTexts s deeper active env parameters
    let returns ← optionalTypeText s deeper active env returns
    let others ← memberTexts s deeper active env members
    return (propertyKey name ++ optionalSuffix optional ++ signatureText parameters ++ ": " ++
      returns ++ ";") :: others
  | .property name optional readonly type :: members => do
    let types ← memberTypes s deeper active env (.property name optional readonly type)
    let others ← memberTexts s deeper active env members
    return (readonlyWord readonly ++ propertyKey name ++ optionalSuffix optional ++ ": " ++
      (single types).text ++ ";") :: others
termination_by members => (unvisited s.contents.aliasNames active, sizeOf members, 0)
decreasing_by all_goals simp_wf; simp only [Prod.lex_def, true_and]; omega

/-- **The constituents of a member's type**, in normal form.  An optional member can be
`undefined`. -/
def memberTypes (s : Scope) (deeper : Deeper) (active : List String) (env : Env) :
    Member → Resolution (List ResolvedType)
  | .method _ optional parameters returns => do
    let parameters ← parameterTexts s deeper active env parameters
    let returns ← optionalTypeText s deeper active env returns
    return s.memberForm optional [.plain (signatureText parameters ++ " => " ++ returns) .function]
  | .property _ optional _ none => .ok (s.memberForm optional [.any])
  | .property _ optional _ (some node) => do
    let types ← collect s deeper active env node
    return s.memberForm optional types
  | .index _ _ _ _ => .ok []
termination_by member => (unvisited s.contents.aliasNames active, sizeOf member, 0)
decreasing_by all_goals simp_wf; simp only [Prod.lex_def, true_and]; omega

end

end FluentBuilders
