import FluentBuilders.Proofs.Resolve.Parts
import FluentBuilders.Proofs.Syntax.Equality
import FluentBuilders.Proofs.Syntax.Subterms

/-!
# Proofs/Resolve/Visits — the types that resolution comes to

A **visit** is to a type that is expanded, or to one whose properties are listed.  Most visits are
walked to: the parts of a type, and declarations that have not been seen.  The others are restarts,
which begin a new walk: the default of a type parameter and the operand of `keyof`.
-/

namespace FluentBuilders

/-- **A visit of resolution**: to a type that is expanded, or to one whose properties are listed. -/
inductive Visit where
  | collect (node : TypeNode)
  | shape (node : TypeNode)
  deriving DecidableEq

/-- The type that is visited. -/
def Visit.node : Visit → TypeNode
  | .collect node => node
  | .shape node => node

/-- The defaults of type parameters. -/
def defaults (parameters : List TypeParameter) : List TypeNode := parameters.filterMap (·.default)

/-- Visits to the defaults of the parameters that get no argument. -/
def missingDefaults (parameters : List TypeParameter) (given : Nat) : List Visit :=
  (defaults (parameters.drop given)).map .collect

/-- A type that is the type of a property. -/
def TypeNode.isIndexed : TypeNode → Bool
  | .indexed _ _ => true
  | _ => false

/-! ## What a file holds -/

namespace Contents

/-- **The types that resolution reads**; what bounds a type parameter is not among them. -/
def types (c : Contents) : List TypeNode :=
  c.aliases.flatMap (fun d => d.body :: FluentBuilders.defaults d.parameters) ++
    c.interfaces.flatMap fun d =>
      FluentBuilders.defaults d.parameters ++ d.heritage ++ d.members.flatMap Member.types

/-- These types, and those inside them. -/
def nodes (c : Contents) : List TypeNode := c.types.flatMap TypeNode.subterms

/-- **No property is looked up** in a file's types. -/
def Unindexed (c : Contents) : Prop := ∀ t ∈ c.nodes, t.isIndexed = false

/-- The defaults of all type parameters. -/
def defaults (c : Contents) : List TypeNode :=
  c.aliases.flatMap (fun d => FluentBuilders.defaults d.parameters) ++
    c.interfaces.flatMap fun d => FluentBuilders.defaults d.parameters

/-- The operands of `keyof`. -/
def keyofOperands (c : Contents) : List TypeNode :=
  c.nodes.filterMap fun
    | .operator .keyof operand => some operand
    | _ => none

/-- **The visits that can begin a new walk.** -/
def restartPoints (c : Contents) : List Visit :=
  c.defaults.map .collect ++ c.keyofOperands.map .shape

/-- **The visits that a walk goes on to.** -/
def walks (c : Contents) : Visit → List Visit
  | .collect node => node.parts.map .collect
  | .shape (.intersection members) => members.map .shape
  | .shape (.reference name arguments) =>
    arguments.map .collect ++
      match c.find? name with
      | some (.alias d) => [.shape d.body]
      | some (.interface d) => d.heritage.map .shape
      | _ => []
  | .shape _ => []

/-- **The visits that begin a new walk.** -/
def restarts (c : Contents) : Visit → List Visit
  | .collect (.operator .keyof operand) => [.shape operand]
  | .collect (.reference name arguments) =>
    match c.find? (splitHead name).1 with
    | some (.alias d) =>
      if (splitHead name).2 = "" ∧ namedBodyKind? d.body = none then
        missingDefaults d.parameters arguments.length
      else []
    | _ => []
  | .shape (.reference name arguments) =>
    match c.find? name with
    | some (.alias d) => missingDefaults d.parameters arguments.length
    | some (.interface d) => missingDefaults d.parameters arguments.length
    | _ => []
  | _ => []

/-- **A type that a file's restarts cover**: no property is looked up in it, and every operand of
`keyof` is one of the file's. -/
structure Covers (c : Contents) (node : TypeNode) : Prop where
  unindexed : ∀ t ∈ node.subterms, t.isIndexed = false
  keyof : ∀ o, .operator .keyof o ∈ node.subterms → .shape o ∈ c.restartPoints

variable {c : Contents} {node : TypeNode} {v v' : Visit}

/-! ## Types that are covered -/

theorem Covers.part {t : TypeNode} (h : c.Covers node) (hpart : t ∈ node.parts) : c.Covers t :=
  ⟨fun u hmem => h.unindexed u (TypeNode.subterms_subset hpart hmem),
    fun o hmem => h.keyof o (TypeNode.subterms_subset hpart hmem)⟩

theorem covers_of_mem_types (hc : c.Unindexed) (h : node ∈ c.types) : c.Covers node where
  unindexed t hmem := hc t (List.mem_flatMap.2 ⟨node, h, hmem⟩)
  keyof o hmem := by
    have hnode : .operator .keyof o ∈ c.nodes := List.mem_flatMap.2 ⟨node, h, hmem⟩
    exact List.mem_append_right _ (List.mem_map_of_mem (List.mem_filterMap.2 ⟨_, hnode, rfl⟩))

/-- A type that has no parts is covered. -/
theorem covers_of_parts_eq_nil (hparts : node.parts = []) : c.Covers node := by
  have hsub : node.subterms = [node] := by rw [TypeNode.subterms_eq, hparts]; rfl
  constructor
  · intro t hmem
    obtain rfl := List.mem_singleton.1 (hsub ▸ hmem)
    cases t <;> first | rfl | cases hparts
  · intro o hmem
    obtain rfl := List.mem_singleton.1 (hsub ▸ hmem)
    cases hparts

theorem body_mem_types {d : AliasDeclaration} (h : d ∈ c.aliases) : d.body ∈ c.types :=
  List.mem_append_left _ (List.mem_flatMap.2 ⟨d, h, List.mem_cons_self⟩)

theorem heritage_mem_types {d : InterfaceDeclaration} (h : d ∈ c.interfaces)
    (hnode : node ∈ d.heritage) : node ∈ c.types :=
  List.mem_append_right _ (List.mem_flatMap.2 ⟨d, h,
    List.mem_append_left _ (List.mem_append_right _ hnode)⟩)

theorem member_mem_types {d : InterfaceDeclaration} {m : Member} (h : d ∈ c.interfaces)
    (hm : m ∈ d.members) (hnode : node ∈ m.types) : node ∈ c.types :=
  List.mem_append_right _ (List.mem_flatMap.2 ⟨d, h,
    List.mem_append_right _ (List.mem_flatMap.2 ⟨m, hm, hnode⟩)⟩)

theorem defaults_subset_types : c.defaults ⊆ c.types := by
  intro node h
  simp only [Contents.defaults, Contents.types, List.mem_append, List.mem_flatMap,
    List.mem_cons] at h ⊢
  grind

theorem mem_interfaces_of_find? {name : String} {d : InterfaceDeclaration}
    (h : c.find? name = some (.interface d)) : d ∈ c.interfaces := by
  unfold Contents.find? at h
  cases ha : c.aliases.find? (·.name == name) with
  | some d' => simp [ha] at h
  | none =>
    cases hi : c.interfaces.find? (·.name == name) with
    | none => simp [ha, hi] at h
    | some d' =>
      simp only [ha, hi, Option.map_none, Option.map_some, Option.orElse_none, Option.orElse_some,
        Option.some.injEq, Declaration.interface.injEq] at h
      exact h ▸ List.mem_of_find?_eq_some hi

/-! ## Visits to covered types -/

theorem mem_defaults_of_mem_missingDefaults {parameters : List TypeParameter} {given : Nat}
    (h : v ∈ missingDefaults parameters given) :
    ∃ node ∈ FluentBuilders.defaults parameters, v = .collect node := by
  obtain ⟨node, hnode, rfl⟩ := List.mem_map.1 h
  obtain ⟨p, hp, hdefault⟩ := List.mem_filterMap.1 hnode
  exact ⟨node, List.mem_filterMap.2 ⟨p, List.mem_of_mem_drop hp, hdefault⟩, rfl⟩

theorem Covers.walk (hc : c.Unindexed) (h : c.Covers v.node) (hv : v' ∈ c.walks v) :
    c.Covers v'.node := by
  unfold walks at hv
  split at hv
  · obtain ⟨part, hpart, rfl⟩ := List.mem_map.1 hv
    exact h.part hpart
  · obtain ⟨part, hpart, rfl⟩ := List.mem_map.1 hv
    exact h.part hpart
  · rcases List.mem_append.1 hv with hv | hv
    · obtain ⟨part, hpart, rfl⟩ := List.mem_map.1 hv
      exact h.part hpart
    · split at hv
      · next d hfound =>
        obtain rfl := List.mem_singleton.1 hv
        exact covers_of_mem_types hc (body_mem_types (mem_aliases_of_find? hfound).1)
      · next d hfound =>
        obtain ⟨node, hnode, rfl⟩ := List.mem_map.1 hv
        exact covers_of_mem_types hc (heritage_mem_types (mem_interfaces_of_find? hfound) hnode)
      · cases hv
  · cases hv

/-- **A restart is one of the file's**: the operand of a `keyof`, or a default. -/
theorem restart_cases (hv : v' ∈ c.restarts v) :
    (∃ o, v = .collect (.operator .keyof o) ∧ v' = .shape o) ∨
      ∃ node ∈ c.defaults, v' = .collect node := by
  have halias {name : String} {d : AliasDeclaration} {given : Nat}
      (hfound : c.find? name = some (.alias d)) (h : v' ∈ missingDefaults d.parameters given) :
      ∃ node ∈ c.defaults, v' = .collect node := by
    obtain ⟨node, hnode, rfl⟩ := mem_defaults_of_mem_missingDefaults h
    exact ⟨node, List.mem_append_left _ (List.mem_flatMap.2
      ⟨d, (mem_aliases_of_find? hfound).1, hnode⟩), rfl⟩
  unfold restarts at hv
  split at hv
  · exact .inl ⟨_, rfl, List.mem_singleton.1 hv⟩
  · split at hv
    · next d hfound =>
      split at hv
      · exact .inr (halias hfound hv)
      · cases hv
    · cases hv
  · split at hv
    · next d hfound => exact .inr (halias hfound hv)
    · next d hfound =>
      obtain ⟨node, hnode, rfl⟩ := mem_defaults_of_mem_missingDefaults hv
      exact .inr ⟨node, List.mem_append_right _ (List.mem_flatMap.2
        ⟨d, mem_interfaces_of_find? hfound, hnode⟩), rfl⟩
    · cases hv
  · cases hv

theorem Covers.restart (hc : c.Unindexed) (h : c.Covers v.node) (hv : v' ∈ c.restarts v) :
    c.Covers v'.node ∧ v' ∈ c.restartPoints := by
  rcases restart_cases hv with ⟨o, rfl, rfl⟩ | ⟨node, hnode, rfl⟩
  · exact ⟨h.part (List.mem_singleton_self _), h.keyof o (TypeNode.self_mem_subterms _)⟩
  · exact ⟨covers_of_mem_types hc (defaults_subset_types hnode),
      List.mem_append_left _ (List.mem_map_of_mem hnode)⟩

end Contents

end FluentBuilders
