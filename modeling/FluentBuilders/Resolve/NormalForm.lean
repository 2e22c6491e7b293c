import FluentBuilders.Resolve.ResolvedType

/-!
# Resolve/NormalForm — unions in normal form

In normal form a union has each text once, holds neither `never` nor — beside anything else — `any`
or `unknown`, and lists the intrinsic types first, in a fixed order.  With null checks off `null`
and `undefined` count only where nothing else is there.
-/

namespace FluentBuilders

/-- **The order of the intrinsic types** in a union; all others keep the order they were written
in. -/
def intrinsicOrder : List String :=
  ["any", "unknown", "undefined", "null", "string", "number", "bigint", "false", "true", "symbol",
    "void"]

/-- The types that are not `never` and have none of the texts in `seen`, the first of each text. -/
def dropRepeats (seen : List String) : List ResolvedType → List ResolvedType
  | [] => []
  | t :: types =>
    if t.kind = .never ∨ t.text ∈ seen then dropRepeats seen types
    else t :: dropRepeats (t.text :: seen) types

/-- The kind of `null` or of `undefined`. -/
def isNullish (t : ResolvedType) : Bool := t.kind == .null || t.kind == .undefined

/-- The types without `null` and `undefined`, unless nothing would be left. -/
def dropNullish (types : List ResolvedType) : List ResolvedType :=
  match types.filter (!isNullish ·) with
  | [] => types
  | others => others

/-- **The intrinsic types first**, in their order. -/
def intrinsicsFirst (types : List ResolvedType) : List ResolvedType :=
  intrinsicOrder.flatMap (fun name => types.filter (·.text == name)) ++
    types.filter (!intrinsicOrder.contains ·.text)

/-- **The normal form** of a list of constituents. -/
def normalize (strictNullChecks : Bool) (types : List ResolvedType) : List ResolvedType :=
  if types.any (·.kind == .any) then [.any]
  else if types.any (·.kind == .unknown) then [.unknown]
  else
    let distinct := dropRepeats [] types
    intrinsicsFirst (if strictNullChecks then distinct else dropNullish distinct)

/-- The texts of a union's members, with `boolean` in the place of `false` when `true` is there
too. -/
def joinBooleans (texts : List String) : List String :=
  (texts.filter (· ≠ "true")).map fun text => if text = "false" then "boolean" else text

/-- **One type** made of constituents. -/
def single (types : List ResolvedType) : ResolvedType :=
  match types with
  | [] => .never
  | [t] => t
  | types =>
    let texts := types.map (·.text)
    if texts.contains "false" && texts.contains "true" then
      if texts.length = 2 then .plain "boolean" .boolean
      else .plain (String.intercalate " | " (joinBooleans texts)) .union
    else .plain (String.intercalate " | " texts) .union

end FluentBuilders
