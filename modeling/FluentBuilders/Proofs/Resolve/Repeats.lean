import FluentBuilders.Proofs.Resolve.Listing
import FluentBuilders.Proofs.Resolve.Termination

/-!
# Proofs/Resolve/Repeats — properties that are listed more than once

What a type lists begins with the properties of one body, as they are written; whatever is inherited
or comes from the parts of an intersection is added once, and not again.  So a name that is listed
more than once is written more than once in a single body of the file.
-/

namespace FluentBuilders

/-! ## Names that are added once -/

/-- **Names that go on from others**: each name that is added is new, and is added once. -/
def AddsOnce (own names : List String) : Prop :=
  ∃ added, names = own ++ added ∧ added.Nodup ∧ ∀ name ∈ added, name ∉ own

namespace AddsOnce

variable {own names : List String}

theorem refl (names : List String) : AddsOnce names names :=
  ⟨[], (List.append_nil _).symm, List.nodup_nil, List.forall_mem_nil _⟩

theorem of_nodup (h : names.Nodup) : AddsOnce [] names :=
  ⟨names, rfl, h, fun _ _ => List.not_mem_nil⟩

theorem isPrefix (h : AddsOnce own names) : own <+: names := by
  obtain ⟨added, rfl, -⟩ := h
  exact List.prefix_append _ _

/-- Names repeat when those they begin with do. -/
theorem nodup_iff (h : AddsOnce own names) : names.Nodup ↔ own.Nodup := by
  obtain ⟨added, rfl, hadded, hnew⟩ := h
  rw [List.nodup_append']
  exact ⟨fun h => h.1, fun h => ⟨h, hadded, fun name hname hmem => hnew name hmem hname⟩⟩

theorem filter (h : AddsOnce own names) (shared : String → Bool) :
    AddsOnce (own.filter shared) (names.filter shared) := by
  obtain ⟨added, rfl, hadded, hnew⟩ := h
  refine ⟨added.filter shared, List.filter_append _ _, hadded.filter _, fun name hname hown => ?_⟩
  exact hnew name (List.mem_of_mem_filter hname) (List.mem_of_mem_filter hown)

theorem mergeShape {properties more : List Property} (h : AddsOnce own (namesOf properties)) :
    AddsOnce own (namesOf (mergeShape properties more)) := by
  obtain ⟨added, heq, hadded, hnew⟩ := h
  obtain ⟨last, hlast, -, hnodup, hapart⟩ := exists_mergeShape properties more
  have hnames : namesOf (FluentBuilders.mergeShape properties more) =
      namesOf properties ++ namesOf last := by
    rw [hlast, namesOf, List.map_append]
    rfl
  refine ⟨added ++ namesOf last, ?_, ?_, fun name hname => ?_⟩
  · rw [hnames, heq, List.append_assoc]
  · rw [List.nodup_append']
    refine ⟨hadded, hnodup, fun name hname hmem => hapart name hmem ?_⟩
    rw [heq]
    exact List.mem_append_right _ hname
  · rcases List.mem_append.1 hname with hname | hname
    · exact hnew name hname
    · intro hown
      refine hapart name hname ?_
      rw [heq]
      exact List.mem_append_left _ hown

end AddsOnce

/-! ## Bodies -/

namespace Contents

/-- **The bodies of a file**: those of its interfaces and of the object types in it. -/
def bodies (c : Contents) : List (List Member) :=
  c.interfaces.map (·.members) ++
    c.nodes.filterMap fun
      | .object members => some members
      | _ => none

/-- A type whose object types are among the bodies of a file. -/
def Knows (c : Contents) (node : TypeNode) : Prop :=
  ∀ members, .object members ∈ node.subterms → members ∈ c.bodies

theorem knows_of_mem_types {c : Contents} {node : TypeNode} (h : node ∈ c.types) :
    c.Knows node := by
  intro members hmem
  have hnode : .object members ∈ c.nodes := List.mem_flatMap.2 ⟨node, h, hmem⟩
  exact List.mem_append_right _ (List.mem_filterMap.2 ⟨_, hnode, rfl⟩)

/-- A type that has no parts and no members is known. -/
theorem knows_of_subterms {c : Contents} {node : TypeNode} (h : node.subterms = [node])
    (hobject : ∀ members, node ≠ .object members) : c.Knows node := by
  intro members hmem
  rw [h, List.mem_singleton] at hmem
  exact absurd hmem.symm (hobject members)

end Contents

variable {s : Scope} {deeper : Deeper} {active seen : List String} {env : Env}

theorem closed_knows (s : Scope) : s.Closed s.contents.Knows where
  part h hpart members hmem := h members (TypeNode.subterms_subset hpart hmem)
  body _ hfound :=
    Contents.knows_of_mem_types (Contents.body_mem_types (Contents.mem_aliases_of_find? hfound).1)
  heritage _ hfound hbase := Contents.knows_of_mem_types
    (Contents.heritage_mem_types (Contents.mem_interfaces_of_find? hfound) hbase)
  member _ hfound hm htype := Contents.knows_of_mem_types
    (Contents.member_mem_types (Contents.mem_interfaces_of_find? hfound) hm htype)

/-! ## What a listing begins with -/

/-- **A listing that begins with a body**: with the properties of one of the file's bodies, or with
none, and every other name stands once. -/
def Begins (c : Contents) (properties : List Property) : Prop :=
  ∃ members, (members = [] ∨ members ∈ c.bodies) ∧
    AddsOnce (memberNames members) (namesOf properties)

/-- Merging adds to what is there. -/
theorem exists_mergedShapes {nodes : List TypeNode} {properties merged : List Property}
    (h : mergedShapes s deeper active seen env properties nodes = .ok merged) :
    ∃ more, merged = mergeShape properties more := by
  induction nodes generalizing properties with
  | nil =>
    rw [mergedShapes] at h
    cases h
    exact ⟨[], rfl⟩
  | cons node nodes ih =>
    rw [mergedShapes] at h
    obtain ⟨first, -, h⟩ := Resolution.bind_eq_ok.1 h
    obtain ⟨more, rfl⟩ := ih h
    exact ⟨first.getD [] ++ more, mergeShape_append.symm⟩

/-- **An interface's listing** begins with its own body. -/
theorem addsOnce_interfaceShape {d : InterfaceDeclaration} {properties : List Property}
    (h : interfaceShape s deeper active seen env d = .ok properties) :
    AddsOnce (memberNames d.members) (namesOf properties) := by
  obtain ⟨more, rfl⟩ := exists_mergedShapes h
  rw [← namesOf_ofMembers env]
  exact (AddsOnce.refl _).mergeShape

/-- One level deeper, a listing begins with a body. -/
def Deeper.Begins (deeper : Deeper) (c : Contents) : Prop :=
  ∀ active seen env node properties, c.Knows node →
    deeper.shape active seen env node = .ok (some properties) → FluentBuilders.Begins c properties

/-- **What a type lists** begins with a body. -/
theorem shape_begins (hk : deeper.Keeps s.contents.Knows) (hd : deeper.Begins s.contents)
    {active seen : List String} {env : Env} {node : TypeNode} {properties : List Property}
    (hnode : s.contents.Knows node)
    (h : shape s deeper active seen env node = .ok (some properties)) :
    Begins s.contents properties := by
  match node with
  | .object members =>
    rw [shape] at h
    cases h
    refine ⟨members, .inr (hnode members (TypeNode.self_mem_subterms _)), ?_⟩
    rw [namesOf_ofMembers]
    exact .refl _
  | .intersection members =>
    rw [shape] at h
    obtain ⟨merged, hmerged, h⟩ := Resolution.bind_eq_ok.1 h
    cases h
    obtain ⟨more, rfl⟩ := exists_mergedShapes hmerged
    exact ⟨[], .inl rfl, .of_nodup (nodup_namesOf_mergeShape.2 List.nodup_nil)⟩
  | .reference name arguments =>
    rw [shape_reference] at h
    split at h
    · cases h
    split at h
    · next d hfound =>
      split at h
      · cases h
      obtain ⟨types, -, h⟩ := Resolution.bind_eq_ok.1 h
      obtain ⟨bound, -, h⟩ := Resolution.bind_eq_ok.1 h
      obtain ⟨listed, hlisted, h⟩ := Resolution.bind_eq_ok.1 h
      cases h
      have hbody : d.members ∈ s.contents.bodies :=
        List.mem_append_left _ (List.mem_map_of_mem (Contents.mem_interfaces_of_find? hfound))
      exact ⟨d.members, .inr hbody, addsOnce_interfaceShape hlisted⟩
    · next d hfound =>
      split at h
      · cases h
      next hnew =>
      have := unvisited_cons_lt (Contents.mem_structuralNames_of_find?_alias hfound) hnew
      obtain ⟨types, -, h⟩ := Resolution.bind_eq_ok.1 h
      obtain ⟨bound, -, h⟩ := Resolution.bind_eq_ok.1 h
      exact shape_begins hk hd ((closed_knows s).body hnode hfound) h
    · cases h
  | .indexed o i =>
    rw [shape] at h
    obtain ⟨looked, hlooked, h⟩ := Resolution.bind_eq_ok.1 h
    split at h
    · have htype := indexedProperty?_within hk
        ((closed_knows s).part hnode List.mem_cons_self) hlooked
      exact hd _ _ _ _ _ (htype _ (List.mem_singleton_self _)) h
    · cases h
  | .imported .. | .literal .. | .union .. | .array .. | .tuple .. | .function ..
  | .operator .. | .query .. | .raw .. =>
    rw [shape] at h
    · cases h
    all_goals simp
termination_by (unvisited s.contents.structuralNames seen, sizeOf node)
decreasing_by all_goals simp_wf; simp only [Prod.lex_def]; omega

theorem begins_deeperSteps (s : Scope) (trail : List Descent) (level : Nat) :
    (deeperSteps s trail level).Begins s.contents := by
  induction level generalizing trail with
  | zero => exact fun _ _ _ _ _ _ h => nomatch h
  | succ level ih =>
    intro active seen env node properties hnode h
    simp only [deeperSteps, Descent.enter] at h
    split at h
    · cases h
    · exact shape_begins (keeps_deeperSteps (closed_knows s) _ _) (ih _) hnode h

/-! ## Declarations -/

theorem namesOf_fieldsOf {properties : List Property} {fields : List Field}
    (h : fieldsOf s deeper properties = .ok fields) : fields.map (·.name) = namesOf properties := by
  induction properties generalizing fields with
  | nil =>
    rw [fieldsOf] at h
    cases h
    rfl
  | cons p properties ih =>
    rw [fieldsOf] at h
    obtain ⟨field, hfield, h⟩ := Resolution.bind_eq_ok.1 h
    obtain ⟨others, hothers, h⟩ := Resolution.bind_eq_ok.1 h
    cases h
    obtain ⟨types, -, hfield⟩ := Resolution.bind_eq_ok.1 hfield
    cases hfield
    rw [List.map_cons, ih hothers]
    rfl

/-- The parts of a known type are known. -/
theorem unionParts_knows {parts : List (TypeNode × Env)} {node : TypeNode}
    (hnode : s.contents.Knows node) (h : unionParts s deeper seen env node = .ok parts) :
    ∀ p ∈ parts, s.contents.Knows p.1 :=
  unionParts_keeps (closed_knows s) (fun _ => Contents.knows_of_subterms rfl fun _ => nofun)
    (fun _ _ => ⟨Contents.knows_of_subterms rfl fun _ => nofun,
      Contents.knows_of_subterms rfl fun _ => nofun⟩) hnode h

/-- **What all shapes share** is part of the first. -/
theorem namesOf_commonShape (shapes : List (Option (List Property))) :
    namesOf (commonShape shapes) = [] ∨ ∃ first shared, some first ∈ shapes ∧
      namesOf (commonShape shapes) = (namesOf first).filter shared := by
  unfold commonShape
  split
  · exact .inl rfl
  split
  · next first others _ =>
    refine .inr ⟨first, fun name => (some first :: others).all fun other =>
      (other.getD []).any (·.name == name), List.mem_cons_self, ?_⟩
    rw [namesOf, namesOf, List.filter_map]
    rfl
  · exact .inl rfl

/-- **An alias's listing** begins with a body, or with the names in it that all parts of a union
share. -/
theorem exists_body_of_aliasProperties {d : AliasDeclaration} (hd : d ∈ s.contents.aliases)
    {properties : List Property} {isUnion : Bool}
    (h : aliasProperties s s.steps d = .ok (properties, isUnion)) :
    ∃ members shared, (members = [] ∨ members ∈ s.contents.bodies) ∧
      (isUnion = false → ∀ name, shared name = true) ∧
      AddsOnce ((memberNames members).filter shared) (namesOf properties) := by
  have hkeeps := keeps_deeperSteps (closed_knows s) [] nestingLimit
  have hbegins := begins_deeperSteps s [] nestingLimit
  have hbody : s.contents.Knows d.body := Contents.knows_of_mem_types (Contents.body_mem_types hd)
  have hnone : AddsOnce ((memberNames []).filter fun _ => true) [] := .refl []
  obtain ⟨parts, hparts, h⟩ := Resolution.bind_eq_ok.1 h
  split at h
  · obtain ⟨shapes, hshapes, h⟩ := Resolution.bind_eq_ok.1 h
    cases h
    rcases namesOf_commonShape shapes with hempty | ⟨first, shared, hfirst, heq⟩
    · rw [hempty]
      exact ⟨[], _, .inl rfl, fun _ _ => rfl, hnone⟩
    · obtain ⟨p, hp, hshape⟩ := exists_of_mem_partShapes hshapes hfirst
      obtain ⟨members, hmembers, hadds⟩ :=
        shape_begins hkeeps hbegins (unionParts_knows hbody hparts p hp) hshape
      rw [heq]
      exact ⟨members, shared, hmembers, nofun, hadds.filter shared⟩
  · obtain ⟨listed, hlisted, h⟩ := Resolution.bind_eq_ok.1 h
    cases h
    cases listed with
    | none => exact ⟨[], _, .inl rfl, fun _ _ => rfl, hnone⟩
    | some listed =>
      obtain ⟨members, hmembers, hadds⟩ := shape_begins hkeeps hbegins hbody hlisted
      exact ⟨members, fun _ => true, hmembers, fun _ _ => rfl, by rwa [List.filter_true]⟩

/-- **A property is listed more than once only where one body writes it more than once.**  The
fields of an interface begin with its own members, those of an alias with the members of one body of
the file, of which a union of types leaves those that all share; every other field has a name of its
own. -/
theorem fieldNames_nodup_iff (text modulePath : String) (path : Option Path) (strict : Bool) :
    let s := Scope.ofFile (readSource text modulePath path strict).value
    (∀ d ∈ s.contents.interfaces, ∀ properties fields,
      interfaceShape s s.steps [] [d.name] (parameterEnv d.parameters) d = .ok properties →
      fieldsOf s s.steps properties = .ok fields →
        memberNames d.members <+: fields.map (·.name) ∧
          ((fields.map (·.name)).Nodup ↔ (memberNames d.members).Nodup)) ∧
    ∀ d ∈ s.contents.aliases, ∀ properties isUnion fields,
      aliasProperties s s.steps d = .ok (properties, isUnion) →
      fieldsOf s s.steps properties = .ok fields →
        ∃ members shared, (members = [] ∨ members ∈ s.contents.bodies) ∧
          (isUnion = false → ∀ name, shared name = true) ∧
          (memberNames members).filter shared <+: fields.map (·.name) ∧
          ((fields.map (·.name)).Nodup ↔ ((memberNames members).filter shared).Nodup) := by
  intro s
  constructor
  · intro d _ properties fields hlisted hfields
    have hadds := addsOnce_interfaceShape hlisted
    rw [namesOf_fieldsOf hfields]
    exact ⟨hadds.isPrefix, hadds.nodup_iff⟩
  · intro d hd properties isUnion fields hlisted hfields
    obtain ⟨members, shared, hmembers, hall, hadds⟩ := exists_body_of_aliasProperties hd hlisted
    rw [namesOf_fieldsOf hfields]
    exact ⟨members, shared, hmembers, hall, hadds.isPrefix, hadds.nodup_iff⟩

/-! ## A method with two signatures -/

/-- An interface with a method that has two signatures. -/
def overloaded : InterfaceDeclaration where
  name := "A"
  heritage := []
  members :=
    [.method "f" false [] (some (.reference "void" [])),
      .method "f" false [.mk "x" false false (.reference "string" [])]
        (some (.reference "void" []))]
  parameters := []
  exported := false
  line := 1

/-- An interface that has a property before the method it inherits. -/
def heir : InterfaceDeclaration where
  name := "B"
  heritage := [.reference "A" []]
  members := [.property "g" true false (some (.reference "string" []))]
  parameters := []
  exported := false
  line := 2

/-- The text of both. -/
def overloadedText : String :=
  "interface A \x7b f(): void; f(x: string): void \x7d\ninterface B extends A \x7b g?: string \x7d"

/-- Where nothing restarts, the fields of an interface are found. -/
theorem exists_fields_of_interface (hc : s.contents.Unindexed)
    (hnone : s.contents.restartPoints = []) {d : InterfaceDeclaration}
    (hd : d ∈ s.contents.interfaces) :
    ∃ properties fields,
      interfaceShape s s.steps [] [d.name] (parameterEnv d.parameters) d = .ok properties ∧
        fieldsOf s s.steps properties = .ok fields := by
  obtain ⟨P, hending, hstart⟩ := ending_of_no_restarts hc hnone
  have htypes {t : TypeNode} (ht : t ∈ s.contents.types) := Contents.covers_of_mem_types hc ht
  have hown : s.contents.CoversAll (Property.ofMembers (parameterEnv d.parameters) d.members) :=
    coversAll_ofMembers fun m hm t ht => htypes (Contents.member_mem_types hd hm ht)
  obtain ⟨properties, hlisted, hcovers⟩ := mergedShapes_ends hending hc hown fun m hm =>
    hstart (.shape m) (htypes (Contents.heritage_mem_types hd hm))
  obtain ⟨fields, hfields⟩ := fieldsOf_ends hending hstart hcovers
  exact ⟨properties, fields, hlisted, hfields⟩

/-- Where nothing restarts, the fields of an alias are found. -/
theorem exists_fields_of_alias (hc : s.contents.Unindexed) (hnone : s.contents.restartPoints = [])
    {d : AliasDeclaration} (hd : d ∈ s.contents.aliases) :
    ∃ properties isUnion fields, aliasProperties s s.steps d = .ok (properties, isUnion) ∧
      fieldsOf s s.steps properties = .ok fields := by
  obtain ⟨P, hending, hstart⟩ := ending_of_no_restarts hc hnone
  obtain ⟨⟨properties, isUnion⟩, hlisted, hcovers⟩ := aliasProperties_ends hending hc hstart hd
  obtain ⟨fields, hfields⟩ := fieldsOf_ends hending hstart hcovers
  exact ⟨properties, isUnion, fields, hlisted, hfields⟩

/-- What stands in that text. -/
theorem contents_overloadedText :
    let s := Scope.ofFile (readSource overloadedText "/m" none true).value
    s.contents.interfaces = [overloaded, heir] ∧ s.contents.Unindexed ∧
      s.contents.restartPoints = [] := by
  intro s
  obtain ⟨haliases, hinterfaces⟩ :
      s.contents.aliases = [] ∧ s.contents.interfaces = [overloaded, heir] := by
    decide +kernel
  refine ⟨hinterfaces, ?_, ?_⟩
  · rw [Contents.Unindexed, Contents.nodes, Contents.types, haliases, hinterfaces]
    decide
  · rw [Contents.restartPoints, Contents.defaults, Contents.keyofOperands, Contents.nodes,
      Contents.types, haliases, hinterfaces]
    rfl

/-- An alias of an intersection whose parts have a property in common. -/
def merged : AliasDeclaration where
  name := "C"
  body := .intersection
    [.object [.property "g" true false (some (.reference "string" []))],
      .object [.property "g" false false (some (.reference "string" [])),
        .property "h" false false (some (.reference "string" []))]]
  parameters := []
  exported := false
  line := 1

/-- The text of this alias. -/
def mergedText : String := "type C = \x7b g?: string \x7d & \x7b g: string; h: string \x7d"

/-- What stands in that text. -/
theorem contents_mergedText :
    let s := Scope.ofFile (readSource mergedText "/m" none true).value
    s.contents.aliases = [merged] ∧ s.contents.Unindexed ∧ s.contents.restartPoints = [] ∧
      ∀ members ∈ s.contents.bodies, (memberNames members).Nodup := by
  intro s
  obtain ⟨haliases, hinterfaces⟩ :
      s.contents.aliases = [merged] ∧ s.contents.interfaces = [] := by
    decide +kernel
  refine ⟨haliases, ?_, ?_, ?_⟩
  · rw [Contents.Unindexed, Contents.nodes, Contents.types, haliases, hinterfaces]
    decide
  · rw [Contents.restartPoints, Contents.defaults, Contents.keyofOperands, Contents.nodes,
      Contents.types, haliases, hinterfaces]
    rfl
  · rw [Contents.bodies, Contents.nodes, Contents.types, haliases, hinterfaces]
    decide

/-- The heir has each field once, the interface that it extends has one twice, and an intersection
has what its parts have in common once. -/
theorem fieldNames_nodup_iff_overloaded :
    (let s := Scope.ofFile (readSource overloadedText "/m" none true).value
      ∃ own inherited fields others,
        interfaceShape s s.steps [] ["A"] [] overloaded = .ok own ∧
        fieldsOf s s.steps own = .ok fields ∧
        interfaceShape s s.steps [] ["B"] [] heir = .ok inherited ∧
        fieldsOf s s.steps inherited = .ok others ∧
        ¬ (fields.map (·.name)).Nodup ∧ (others.map (·.name)).Nodup) ∧
    (let s := Scope.ofFile (readSource mergedText "/m" none true).value
      ∃ properties isUnion fields, aliasProperties s s.steps merged = .ok (properties, isUnion) ∧
        fieldsOf s s.steps properties = .ok fields ∧ (fields.map (·.name)).Nodup) := by
  constructor
  · intro s
    obtain ⟨hinterfaces, hc, hnone⟩ := contents_overloadedText
    have hfirst : overloaded ∈ s.contents.interfaces := by rw [hinterfaces]; exact .head _
    have hsecond : heir ∈ s.contents.interfaces := by rw [hinterfaces]; exact .tail _ (.head _)
    obtain ⟨own, fields, hown, hfields⟩ := exists_fields_of_interface hc hnone hfirst
    obtain ⟨inherited, others, hinherited, hothers⟩ := exists_fields_of_interface hc hnone hsecond
    have honce := (fieldNames_nodup_iff overloadedText "/m" none true).1
    refine ⟨own, inherited, fields, others, hown, hfields, hinherited, hothers, ?_, ?_⟩
    · rw [(honce _ hfirst _ _ hown hfields).2]
      decide
    · rw [(honce _ hsecond _ _ hinherited hothers).2]
      decide
  · intro s
    obtain ⟨haliases, hc, hnone, hbodies⟩ := contents_mergedText
    have hmerged : merged ∈ s.contents.aliases := by rw [haliases]; exact .head _
    obtain ⟨properties, isUnion, fields, hlisted, hfields⟩ := exists_fields_of_alias hc hnone hmerged
    obtain ⟨members, shared, hmembers, -, -, honce⟩ :=
      (fieldNames_nodup_iff mergedText "/m" none true).2 merged hmerged _ _ _ hlisted hfields
    refine ⟨properties, isUnion, fields, hlisted, hfields, honce.2 ?_⟩
    rcases hmembers with rfl | hmembers
    · exact List.nodup_nil
    · exact (hbodies members hmembers).filter _

/-- **A property can be listed more than once**: a method with two signatures is. -/
theorem fieldNames_repeat :
    ¬ ∀ (text modulePath : String) (path : Option Path) (strict : Bool),
      let s := Scope.ofFile (readSource text modulePath path strict).value
      ∀ d ∈ s.contents.interfaces, ∀ properties fields,
        interfaceShape s s.steps [] [d.name] (parameterEnv d.parameters) d = .ok properties →
        fieldsOf s s.steps properties = .ok fields → (fields.map (·.name)).Nodup := by
  intro hall
  obtain ⟨hinterfaces, hc, hnone⟩ := contents_overloadedText
  have hfirst : overloaded ∈ _ := hinterfaces ▸ List.mem_cons_self
  obtain ⟨own, fields, hown, hfields⟩ := exists_fields_of_interface hc hnone hfirst
  have hnodup := hall overloadedText "/m" none true overloaded hfirst own fields hown hfields
  rw [namesOf_fieldsOf hfields, (addsOnce_interfaceShape hown).nodup_iff] at hnodup
  exact absurd hnodup (by decide)

end FluentBuilders
