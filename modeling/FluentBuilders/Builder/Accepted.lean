import FluentBuilders.Config.Basic
import FluentBuilders.Resolve.ResolvedType

/-!
# Builder/Accepted — the types a setter takes

A setter takes a field's type with everything composite made partial, so that nested objects can be
given in part.  Names of other modules become names of the one namespace the generated code uses.
-/

namespace FluentBuilders

/-! ## Module qualifiers -/

/-- A qualifier `import("…")` at the start of a text: what follows it. -/
def skipQualifier? (cs : List Char) : Option (List Char) :=
  if "import(\"".toList.isPrefixOf cs then
    match (cs.drop 8).dropWhile (· ≠ '"') with
    | '"' :: ')' :: rest => some rest
    | _ => none
  else none

theorem skipQualifier?_length {cs rest : List Char} (h : skipQualifier? cs = some rest) :
    rest.length < cs.length := by
  unfold skipQualifier? at h
  split at h
  · have hle := (List.dropWhile_sublist (p := (· ≠ '"')) (l := cs.drop 8)).length_le
    split at h
    · next heq =>
      cases h
      rw [heq] at hle
      simp only [List.length_cons, List.length_drop] at hle
      omega
    · cases h
  · cases h

/-- The text with every module qualifier replaced. -/
def rewriteFrom (replacement : List Char) (cs : List Char) : List Char :=
  match _ : skipQualifier? cs with
  | some rest => replacement ++ rewriteFrom replacement rest
  | none =>
    match cs with
    | [] => []
    | c :: cs => c :: rewriteFrom replacement cs
termination_by cs.length
decreasing_by
  · exact skipQualifier?_length ‹_›
  · simp

/-- **Module qualifiers replaced** by the name of a namespace. -/
def rewriteReferences (text namespaceName : String) : String :=
  String.ofList (rewriteFrom namespaceName.toList text.toList)

/-! ## Accepted types -/

/-- A type made partial. -/
def partialOf (emit : EmitConfig) (type : String) : String := emit.partialType ++ "<" ++ type ++ ">"

/-- **What a setter takes for one constituent.**  Primitive types stay bare, others become partial,
and an array becomes an array of what is taken for its element. -/
def acceptedConstituent (emit : EmitConfig) : ResolvedType → String
  | .plain text kind =>
    let text := rewriteReferences text emit.namespaceAlias
    if kind.isPrimitive then text else partialOf emit text
  | .arrayOf _ element =>
    let text := rewriteReferences element.text emit.namespaceAlias
    let text :=
      if !element.kind.isPrimitive then partialOf emit text
      else if element.kind = .raw ∧ text.toList.contains ' ' then "(" ++ text ++ ")"
      else text
    text ++ "[]"

/-- The alternatives among accepted types: `true` stands for `boolean`, `false` is dropped, repeats
are left out. -/
def distinctAlternatives (before : List String) : List String → List String
  | [] => before
  | text :: texts =>
    if text = "false" then distinctAlternatives before texts
    else
      let text := if text = "true" then "boolean" else text
      if before.contains text then distinctAlternatives before texts
      else distinctAlternatives (before ++ [text]) texts

/-- **The type of the values a setter takes** for a field of these constituents.  Where no
alternative is left, or none with a text, it is `boolean`. -/
def acceptedType (emit : EmitConfig) (types : List ResolvedType) : String :=
  if types.isEmpty then "never"
  else
    let text := String.intercalate " | "
      (distinctAlternatives [] (types.map (acceptedConstituent emit)))
    if text = "" then "boolean" else text

end FluentBuilders
