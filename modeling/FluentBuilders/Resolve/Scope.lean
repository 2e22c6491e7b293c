import FluentBuilders.Resolve.NormalForm
import FluentBuilders.Source.File

/-!
# Resolve/Scope — what a name can stand for

A scope is what resolution needs to know of a file.  An environment holds the constituents that type
parameters stand for; the property of an object type carries the environment its type is resolved
in.
-/

namespace FluentBuilders

/-- **What resolution knows of a file.** -/
structure Scope where
  contents : Contents
  modulePath : String
  strictNullChecks : Bool

namespace Scope

/-- The scope of a file. -/
def ofFile (f : SourceFile) : Scope := ⟨f.contents, f.modulePath, f.strictNullChecks⟩

/-- The directory of the file's module. -/
def directory (s : Scope) : String := directoryOf s.modulePath

/-- **A name qualified by a module**; the empty module is the file's own. -/
def qualify (s : Scope) (name module : String) : String :=
  "import(\"" ++ (if module = "" then s.modulePath else module) ++ "\")." ++ name

/-- A name of the file's own module. -/
def ownName (s : Scope) (name : String) : String := s.qualify name s.modulePath

/-- The normal form under the file's null checks. -/
def normalForm (s : Scope) (types : List ResolvedType) : List ResolvedType :=
  normalize s.strictNullChecks types

/-- The normal form of a member's constituents; one that is optional can be `undefined` as well. -/
def memberForm (s : Scope) (optional : Bool) (types : List ResolvedType) : List ResolvedType :=
  s.normalForm (if optional && s.strictNullChecks then .undefined :: types else types)

end Scope

/-! ## Environments and properties -/

/-- **The constituents of type parameters**, the latest binding of a name first. -/
abbrev Env := List (String × List ResolvedType)

/-- **A property or method** of an object type, with the environment of its type. -/
structure Property where
  name : String
  member : Member
  env : Env

namespace Property

/-- The properties among the members of an object type. -/
def ofMembers (env : Env) (members : List Member) : List Property :=
  members.filterMap fun m => m.name?.map fun name => { name, member := m, env }

end Property

/-- **Why resolution fails**: it would go on for ever. -/
inductive ResolutionError where
  | endless
  deriving DecidableEq, Repr

/-- A result of resolution. -/
abbrev Resolution (α : Type) := Except ResolutionError α

/-! ## Names left to visit -/

/-- The number of names not among the visited ones. -/
def unvisited (names visited : List String) : Nat := (names.filter (!visited.contains ·)).length

theorem unvisited_cons_lt {names visited : List String} {name : String} (hmem : name ∈ names)
    (hnew : name ∉ visited) : unvisited names (name :: visited) < unvisited names visited := by
  have hsub : names.filter (!(name :: visited).contains ·) =
      (names.filter (!visited.contains ·)).filter (· ≠ name) := by
    rw [List.filter_filter]
    refine List.filter_congr fun x _ => ?_
    by_cases hx : x = name <;> simp [hx]
  have hin : name ∈ names.filter (!visited.contains ·) := by simp [hmem, hnew]
  unfold unvisited
  rw [hsub]
  refine Nat.lt_of_le_of_ne (List.length_filter_le _ _) fun h => ?_
  have := List.length_filter_eq_length_iff.1 h name hin
  simp at this

namespace Contents

/-- The names of the aliases. -/
def aliasNames (c : Contents) : List String := c.aliases.map (·.name)

/-- The names of the aliases and interfaces. -/
def structuralNames (c : Contents) : List String := c.aliasNames ++ c.interfaces.map (·.name)

theorem mem_aliasNames_of_find? {c : Contents} {name : String} {d : AliasDeclaration}
    (h : c.find? name = some (.alias d)) : d.name ∈ c.aliasNames := by
  unfold find? at h
  cases ha : c.aliases.find? (·.name == name) with
  | some d' =>
    simp [ha] at h
    subst h
    exact List.mem_map_of_mem (List.mem_of_find?_eq_some ha)
  | none =>
    cases hi : c.interfaces.find? (·.name == name) <;> simp [ha, hi] at h

theorem mem_structuralNames_of_find?_alias {c : Contents} {name : String} {d : AliasDeclaration}
    (h : c.find? name = some (.alias d)) : d.name ∈ c.structuralNames :=
  List.mem_append_left _ (mem_aliasNames_of_find? h)

theorem mem_structuralNames_of_find?_interface {c : Contents} {name : String}
    {d : InterfaceDeclaration} (h : c.find? name = some (.interface d)) :
    d.name ∈ c.structuralNames := by
  unfold find? at h
  cases ha : c.aliases.find? (·.name == name) with
  | some d' => simp [ha] at h
  | none =>
    cases hi : c.interfaces.find? (·.name == name) with
    | none => simp [ha, hi] at h
    | some d' =>
      simp [ha, hi] at h
      subst h
      exact List.mem_append_right _ (List.mem_map_of_mem (List.mem_of_find?_eq_some hi))

end Contents

end FluentBuilders
