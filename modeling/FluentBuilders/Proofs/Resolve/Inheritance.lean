import FluentBuilders.Proofs.Resolve.Repeats
import FluentBuilders.Proofs.Resolve.Walks
import FluentBuilders.Proofs.Source.Names

/-!
# Proofs/Resolve/Inheritance — what an interface inherits

Listing an interface's properties walks what it extends along paths (`interfaceShape_eq_walk`): a
base that several paths lead to is listed again, one that closes a cycle is not.  Properties that are
listed again are merged away, so the interface has what a depth-first walk meets first
(`Flattens`), and so has an intersection of the same bases.
-/

namespace FluentBuilders

/-! ## What is extended -/

/-- The name that a reference refers to. -/
def TypeNode.name? : TypeNode → Option String
  | .reference name _ => some name
  | _ => none

namespace Contents

/-- The names of the interfaces. -/
def interfaceNames (c : Contents) : List String := c.interfaces.map (·.name)

/-- **What the interface of a name extends**, in the order it is written. -/
def bases (c : Contents) (name : String) : List String :=
  match c.find? name with
  | some (.interface d) => d.heritage.filterMap TypeNode.name?
  | _ => []

/-- **The properties that the interface of a name has of its own.** -/
def ownProperties (c : Contents) (name : String) : List Property :=
  match c.find? name with
  | some (.interface d) => Property.ofMembers [] d.members
  | _ => []

/-- **An interface extends another.** -/
def Extends (c : Contents) (name base : String) : Prop := base ∈ c.bases name

instance (c : Contents) (name base : String) : Decidable (c.Extends name base) :=
  inferInstanceAs (Decidable (base ∈ c.bases name))

/-- **Interfaces that inherit from each other**: they have no type parameters, no body names a member
twice, and they extend interfaces only. -/
structure Inherits (c : Contents) : Prop where
  concrete : ∀ d ∈ c.interfaces, d.parameters = []
  distinct : ∀ d ∈ c.interfaces, (memberNames d.members).Nodup
  extended : ∀ d ∈ c.interfaces, ∀ base ∈ d.heritage, ∃ name ∈ c.interfaceNames, ∃ arguments,
    base = .reference name arguments

/-- **Properties that flatten an interface**: its own, then others, each name once; the names are
those of what it extends directly or not, and the first interface met that has a name wins. -/
structure Flattens (c : Contents) (d : InterfaceDeclaration) (properties : List Property) :
    Prop where
  own : Property.ofMembers [] d.members <+: properties
  once : (namesOf properties).Nodup
  complete : ∀ name, name ∈ namesOf properties ↔
    ∃ e, Relation.ReflTransGen c.Extends d.name e ∧ name ∈ namesOf (c.ownProperties e)
  first : ∀ p ∈ properties, (depthFirst c.interfaceNames c.bases [] [d.name]).findSome?
    (fun e => (c.ownProperties e).find? (·.name == p.name)) = some p

variable {c : Contents} {name : String} {d : InterfaceDeclaration}

theorem find?_interface (hc : c.names.Nodup) (hd : d ∈ c.interfaces) :
    c.find? d.name = some (.interface d) :=
  find?_of_mem hc
    (List.mem_append_left _ (List.mem_append_right _ (List.mem_map_of_mem hd)))

theorem find?_alias (hc : c.names.Nodup) {a : AliasDeclaration} (ha : a ∈ c.aliases) :
    c.find? a.name = some (.alias a) :=
  find?_of_mem hc
    (List.mem_append_left _ (List.mem_append_left _ (List.mem_map_of_mem ha)))

theorem exists_of_mem_interfaceNames (hc : c.names.Nodup) (h : name ∈ c.interfaceNames) :
    ∃ d ∈ c.interfaces, d.name = name ∧ c.find? name = some (.interface d) := by
  obtain ⟨d, hd, rfl⟩ := List.mem_map.1 h
  exact ⟨d, hd, rfl, find?_interface hc hd⟩

theorem bases_of_interface (hc : c.names.Nodup) (hd : d ∈ c.interfaces) :
    c.bases d.name = d.heritage.filterMap TypeNode.name? := by
  rw [bases, find?_interface hc hd]

theorem ownProperties_of_interface (hc : c.names.Nodup) (hd : d ∈ c.interfaces) :
    c.ownProperties d.name = Property.ofMembers [] d.members := by
  rw [ownProperties, find?_interface hc hd]

/-- What interfaces extend are interfaces. -/
theorem Inherits.mem_interfaceNames (h : c.Inherits) {base : String}
    (hbase : c.Extends name base) : base ∈ c.interfaceNames := by
  unfold Extends bases at hbase
  split at hbase
  · next d hfound =>
    have hd := (mem_of_find? hfound).1
    obtain ⟨node, hnode, hname⟩ := List.mem_filterMap.1 hbase
    obtain ⟨n, hn, arguments, rfl⟩ := h.extended d (by simpa [declarations] using hd) node hnode
    cases hname
    exact hn
  · cases hbase

theorem Inherits.leadsTo_eq (h : c.Inherits) :
    LeadsTo c.interfaceNames c.bases = c.Extends := by
  funext name base
  exact propext ⟨fun hbase => hbase.1, fun hbase => ⟨hbase, h.mem_interfaceNames hbase⟩⟩

/-- What an interface extends are references to interfaces, under names that stand for themselves. -/
theorem Inherits.heritage_references (h : c.Inherits) (hd : d ∈ c.interfaces) {env : Env}
    (hfree : ∀ name ∈ d.heritage.filterMap TypeNode.name?, env.lookup name = none) :
    ∀ node ∈ d.heritage, ∃ name ∈ c.interfaceNames, env.lookup name = none ∧
      ∃ arguments, node = .reference name arguments := by
  intro node hnode
  obtain ⟨name, hname, arguments, rfl⟩ := h.extended d hd node hnode
  exact ⟨name, hname, hfree name (List.mem_filterMap.2 ⟨_, hnode, rfl⟩), arguments, rfl⟩

end Contents

/-! ## Merging along a walk -/

/-- Merging what a walk meets is merging what it meets first. -/
theorem mergeShape_flatMap_addNew (own : String → List Property) (visited names : List String) :
    mergeShape [] ((addNew visited names).flatMap own) =
      mergeShape [] ((visited ++ names).flatMap own) := by
  induction names generalizing visited with
  | nil => rw [List.append_nil]; rfl
  | cons name names ih =>
    by_cases h : name ∈ visited
    · have hagain : ∀ p ∈ own name, p.name ∈ namesOf (mergeShape [] (visited.flatMap own)) :=
        fun p hp => mem_namesOf_mergeShape.2
          (.inr (List.mem_map_of_mem (List.mem_flatMap.2 ⟨name, h, hp⟩)))
      rw [addNew_cons_of_mem h, ih, List.flatMap_append, List.flatMap_append, List.flatMap_cons,
        mergeShape_append, mergeShape_append, mergeShape_append, mergeShape_of_subset hagain]
    · rw [addNew_cons_of_notMem h, ih, List.append_assoc, List.singleton_append]

variable {s : Scope} {deeper : Deeper}

/-- **Listing what is extended walks along paths.** -/
theorem mergedShapes_eq_walk (h : s.contents.Inherits) (hc : s.contents.names.Nodup)
    {active seen : List String} {env : Env} {nodes : List TypeNode}
    {properties merged : List Property}
    (hnodes : ∀ node ∈ nodes, ∃ name ∈ s.contents.interfaceNames, env.lookup name = none ∧
      ∃ arguments, node = .reference name arguments)
    (hmerged : mergedShapes s deeper active seen env properties nodes = .ok merged) :
    merged = mergeShape properties ((pathWalk s.contents.interfaceNames s.contents.bases seen
      (nodes.filterMap TypeNode.name?)).flatMap s.contents.ownProperties) := by
  match nodes with
  | [] =>
    rw [mergedShapes] at hmerged
    cases hmerged
    rw [List.filterMap_nil, pathWalk]
    rfl
  | node :: nodes =>
    obtain ⟨⟨name, hname, hfree, arguments, rfl⟩, hothers⟩ := List.forall_mem_cons.1 hnodes
    obtain ⟨d, hd, hdname, hfound⟩ := Contents.exists_of_mem_interfaceNames hc hname
    subst hdname
    rw [mergedShapes] at hmerged
    obtain ⟨more, hmore, hmerged⟩ := Resolution.bind_eq_ok.1 hmerged
    rw [mergedShapes_eq_walk h hc hothers hmerged]
    rw [shape_reference, hfree, hfound] at hmore
    simp only [Option.isSome_none, Bool.false_eq_true, if_false] at hmore
    have hcons : (TypeNode.reference d.name arguments :: nodes).filterMap TypeNode.name? =
        d.name :: nodes.filterMap TypeNode.name? := rfl
    rw [hcons, pathWalk]
    split at hmore
    · next hseen =>
      cases hmore
      rw [if_neg fun hnew => hnew.2 hseen]
      rfl
    · next hnew =>
      have := unvisited_cons_lt (Contents.mem_structuralNames_of_find?_interface hfound) hnew
      obtain ⟨types, -, hmore⟩ := Resolution.bind_eq_ok.1 hmore
      obtain ⟨bound, hbound, hmore⟩ := Resolution.bind_eq_ok.1 hmore
      obtain ⟨listed, hlisted, hmore⟩ := Resolution.bind_eq_ok.1 hmore
      cases hmore
      rw [h.concrete d hd, bind] at hbound
      cases hbound
      have hheritage := h.heritage_references hd fun _ _ => List.lookup_nil
      rw [if_pos ⟨hname, hnew⟩, List.cons_append, List.flatMap_cons, List.flatMap_append,
        ← List.append_assoc, mergeShape_append, Contents.bases_of_interface hc hd,
        Contents.ownProperties_of_interface hc hd, ← mergeShape_mergeShape,
        ← mergedShapes_eq_walk h hc hheritage hlisted]
      rfl
termination_by (unvisited s.contents.structuralNames seen, sizeOf nodes)
decreasing_by all_goals simp_wf; simp only [Prod.lex_def, true_and]; omega

/-- What the depth-first walk from an interface meets first: its own properties, and then those that
walking along paths from its bases adds. -/
theorem mergeShape_depthFirst {c : Contents} (h : c.Inherits) (hc : c.names.Nodup)
    {d : InterfaceDeclaration} (hd : d ∈ c.interfaces) :
    mergeShape [] ((depthFirst c.interfaceNames c.bases [] [d.name]).flatMap c.ownProperties) =
      mergeShape (Property.ofMembers [] d.members) ((pathWalk c.interfaceNames c.bases [d.name]
        (d.heritage.filterMap TypeNode.name?)).flatMap c.ownProperties) := by
  have hname : d.name ∈ c.interfaceNames := List.mem_map_of_mem hd
  have hown : mergeShape [] (Property.ofMembers [] d.members) = Property.ofMembers [] d.members := by
    refine mergeShape_of_nodup ?_
    rw [List.nil_append, namesOf_ofMembers]
    exact h.distinct d hd
  rw [depthFirst_eq_addNew, mergeShape_flatMap_addNew, List.nil_append, pathWalk,
    if_pos ⟨hname, List.not_mem_nil⟩, pathWalk, List.append_nil, List.flatMap_cons,
    mergeShape_append, Contents.ownProperties_of_interface hc hd, hown,
    Contents.bases_of_interface hc hd]

/-- **The properties of an interface** are what the depth-first walk from it meets first. -/
theorem interfaceShape_eq_walk (h : s.contents.Inherits) (hc : s.contents.names.Nodup)
    {d : InterfaceDeclaration} (hd : d ∈ s.contents.interfaces) {properties : List Property}
    (hlisted : interfaceShape s deeper [] [d.name] (parameterEnv d.parameters) d = .ok properties) :
    properties = mergeShape [] ((depthFirst s.contents.interfaceNames s.contents.bases []
      [d.name]).flatMap s.contents.ownProperties) := by
  have henv : parameterEnv d.parameters = [] := by rw [h.concrete d hd]; rfl
  rw [henv] at hlisted
  rw [mergeShape_depthFirst h hc hd]
  exact mergedShapes_eq_walk h hc (h.heritage_references hd fun _ _ => List.lookup_nil) hlisted

theorem find?_of_mem_properties {properties : List Property} (h : (namesOf properties).Nodup)
    {p : Property} (hp : p ∈ properties) : properties.find? (·.name == p.name) = some p := by
  obtain ⟨q, hq⟩ : ∃ q, properties.find? (·.name == p.name) = some q :=
    Option.isSome_iff_exists.1 (List.find?_isSome.2 ⟨p, hp, beq_self_eq_true _⟩)
  have hname : q.name = p.name := by simpa using List.find?_some hq
  rw [hq, List.inj_on_of_nodup_map h (List.mem_of_find?_eq_some hq) hp hname]

theorem nodup_mergeShape_nil (properties : List Property) :
    (namesOf (mergeShape [] properties)).Nodup :=
  nodup_namesOf_mergeShape.2 List.nodup_nil

/-- **What the depth-first walk meets first flattens the interface.** -/
theorem flattens_walk {c : Contents} (h : c.Inherits) (hc : c.names.Nodup) {d : InterfaceDeclaration}
    (hd : d ∈ c.interfaces) : c.Flattens d (mergeShape []
      ((depthFirst c.interfaceNames c.bases [] [d.name]).flatMap c.ownProperties)) where
  own := by
    rw [mergeShape_depthFirst h hc hd]
    obtain ⟨added, heq, -⟩ := exists_mergeShape (Property.ofMembers [] d.members)
      ((pathWalk c.interfaceNames c.bases [d.name]
        (d.heritage.filterMap TypeNode.name?)).flatMap c.ownProperties)
    exact ⟨added, heq.symm⟩
  once := nodup_mergeShape_nil _
  complete name := by
    have hname : d.name ∈ c.interfaceNames := List.mem_map_of_mem hd
    have hflat : ∀ names : List String, name ∈ namesOf (names.flatMap c.ownProperties) ↔
        ∃ e ∈ names, name ∈ namesOf (c.ownProperties e) := fun names => by
      rw [namesOf, List.map_flatMap, List.mem_flatMap]
      rfl
    have hempty : name ∉ namesOf [] := List.not_mem_nil
    rw [mem_namesOf_mergeShape, or_iff_right hempty, hflat, ← h.leadsTo_eq]
    simp only [mem_depthFirst hname]
  first p hp := by
    have hfound := find?_of_mem_properties (nodup_mergeShape_nil _) hp
    rwa [find?_mergeShape, List.nil_append, List.find?_flatMap] at hfound

/-! ## Intersections of the same bases -/

/-- **The properties of an intersection** of what an interface without members extends are those of
the interface, where it is none of its bases' bases. -/
theorem aliasProperties_intersection (h : s.contents.Inherits) (hc : s.contents.names.Nodup)
    {d : InterfaceDeclaration} (hd : d ∈ s.contents.interfaces) (hmembers : d.members = [])
    (hacyclic : ∀ base, s.contents.Extends d.name base →
      ¬ Relation.ReflTransGen s.contents.Extends base d.name)
    {a : AliasDeclaration} (ha : a ∈ s.contents.aliases) (hbody : a.body = .intersection d.heritage)
    (hfree : ∀ p ∈ a.parameters, ¬ s.contents.Extends d.name p.name)
    {properties : List Property} {isUnion : Bool}
    (hlisted : aliasProperties s s.steps a = .ok (properties, isUnion)) :
    properties = mergeShape [] ((depthFirst s.contents.interfaceNames s.contents.bases []
      [d.name]).flatMap s.contents.ownProperties) ∧ isUnion = false := by
  have hheritage : ∀ node ∈ d.heritage, ∃ name ∈ s.contents.interfaceNames,
      (parameterEnv a.parameters).lookup name = none ∧ ∃ arguments,
        node = .reference name arguments := by
    refine h.heritage_references hd fun name hname => ?_
    rw [lookup_eq_none_iff_not_mem, map_fst_parameterEnv, List.mem_reverse, List.mem_map]
    rintro ⟨p, hp, rfl⟩
    rw [← Contents.bases_of_interface hc hd] at hname
    exact hfree p hp hname
  have hparts : unionParts s s.steps [a.name] (parameterEnv a.parameters) a.body =
      .ok [(a.body, parameterEnv a.parameters)] := by
    rw [hbody, unionParts]
    all_goals simp
  rw [aliasProperties, hparts, hbody] at hlisted
  simp only [Resolution.ok_bind, List.length_singleton, lt_self_iff_false, if_false, shape] at hlisted
  obtain ⟨listed, hshape, hlisted⟩ := Resolution.bind_eq_ok.1 hlisted
  obtain ⟨merged, hmerged, hshape⟩ := Resolution.bind_eq_ok.1 hshape
  cases hshape
  cases hlisted
  have hsame : pathWalk s.contents.interfaceNames s.contents.bases [a.name]
      (d.heritage.filterMap TypeNode.name?) = pathWalk s.contents.interfaceNames s.contents.bases
        [d.name] (d.heritage.filterMap TypeNode.name?) := by
    refine pathWalk_congr fun base hbase hinterface n hleads => ?_
    rw [← Contents.bases_of_interface hc hd] at hbase
    have hn : n ∈ s.contents.interfaceNames := by
      cases hleads with
      | refl => exact hinterface
      | tail _ hstep => exact hstep.2
    have halias : n ≠ a.name := by
      rintro rfl
      obtain ⟨e, -, -, hfound⟩ := Contents.exists_of_mem_interfaceNames hc hn
      cases hfound.symm.trans (Contents.find?_alias hc ha)
    have hself : n ≠ d.name := by
      rintro rfl
      rw [h.leadsTo_eq] at hleads
      exact hacyclic base hbase hleads
    simp only [List.mem_singleton, halias, hself]
  refine ⟨?_, rfl⟩
  rw [mergeShape_depthFirst h hc hd, hmembers, ← hsame]
  exact mergedShapes_eq_walk h hc hheritage hmerged

/-! ## Inheritance -/

/-- **Inheritance is flattened completely and in order.**  In a file whose interfaces inherit from
each other, without looked up properties, `keyof` and parameter defaults: listing an interface ends
and flattens it; and an alias of the intersection of what it extends, where it has no members and is
not among the bases of its bases, has the same fields. -/
theorem inheritance_flattened (text modulePath : String) (path : Option Path) (strict : Bool) :
    let s := Scope.ofFile (readSource text modulePath path strict).value
    let c := s.contents
    c.Unindexed → c.keyofOperands = [] → c.defaults = [] → c.Inherits → ∀ d ∈ c.interfaces,
      ∃ properties r,
        interfaceShape s s.steps [] [d.name] (parameterEnv d.parameters) d = .ok properties ∧
        c.Flattens d properties ∧ extractInterface s d = .ok r ∧
        fieldsOf s s.steps properties = .ok r.fields ∧
        ∀ a ∈ c.aliases, a.body = .intersection d.heritage → d.members = [] →
          (∀ base, c.Extends d.name base → ¬ Relation.ReflTransGen c.Extends base d.name) →
          (∀ p ∈ a.parameters, ¬ c.Extends d.name p.name) →
          ∃ r', extractAlias s a = .ok r' ∧ r'.fields = r.fields ∧ r'.isUnion = r.isUnion ∧
            r'.members = r.members := by
  intro s c hindexed hkeyof hdefaults h d hd
  have hc : c.names.Nodup := nodup_names_readSource text modulePath path strict
  have hnone : c.restartPoints = [] := by
    rw [Contents.restartPoints, hkeyof, hdefaults]
    rfl
  obtain ⟨properties, fields, hlisted, hfields⟩ := exists_fields_of_interface hindexed hnone hd
  have hwalk := interfaceShape_eq_walk h hc hd hlisted
  have hextracted : extractInterface s d = .ok
      { name := d.name, kind := .interface, fields, isUnion := false, members := []
        typeParameters := d.parameters.map (·.name), line := d.line } := by
    rw [extractInterface, hlisted]
    simp only [Resolution.ok_bind, hfields]
    rfl
  refine ⟨properties, _, hlisted, hwalk ▸ flattens_walk h hc hd, hextracted, hfields, ?_⟩
  intro a ha hbody hmembers hacyclic hfree
  obtain ⟨P, hending, hstart⟩ := ending_of_no_restarts hindexed hnone
  obtain ⟨r', hr'⟩ := extractAlias_ends hending hindexed hstart ha
  refine ⟨r', hr', ?_⟩
  obtain ⟨⟨listed, isUnion⟩, halias, hrest⟩ := Resolution.bind_eq_ok.1 hr'
  obtain ⟨rfl, rfl⟩ := aliasProperties_intersection h hc hd hmembers hacyclic ha hbody hfree halias
  rw [← hwalk] at hrest
  obtain ⟨fields', hfields', hrest⟩ := Resolution.bind_eq_ok.1 hrest
  rw [if_neg Bool.false_ne_true] at hrest
  cases hfields.symm.trans hfields'
  cases hrest
  exact ⟨rfl, rfl, rfl⟩

/-- Two paths from one interface to another, which closes a cycle, and the intersection that begins
with the same. -/
def diamondText : String :=
  "interface X extends B, C \x7b \x7d\ninterface B extends D \x7b b: 'x' \x7d\n" ++
    "interface C extends D \x7b d: 'y' \x7d\ninterface D extends C \x7b d: 'x' \x7d\n" ++
      "type T = B & C"

/-- An interface there: what it extends, and its members. -/
def diamondInterface (name : String) (bases : List String) (members : List (String × String))
    (line : Nat) : InterfaceDeclaration where
  name := name
  heritage := bases.map (.reference · [])
  members := members.map fun m => .property m.1 false false (some (.literal .string m.2))
  parameters := []
  exported := false
  line := line

/-- The alias of the intersection. -/
def diamondAlias : AliasDeclaration where
  name := "T"
  body := .intersection [.reference "B" [], .reference "C" []]
  parameters := []
  exported := false
  line := 5

/-- All that stands there. -/
def diamondContents : Contents where
  aliases := [diamondAlias]
  interfaces := [diamondInterface "X" ["B", "C"] [] 1, diamondInterface "B" ["D"] [("b", "x")] 2,
    diamondInterface "C" ["D"] [("d", "y")] 3, diamondInterface "D" ["C"] [("d", "x")] 4]

theorem inherits_diamondContents : diamondContents.Inherits where
  concrete := by decide
  distinct := by decide
  extended := by
    have hall : ∀ d ∈ diamondContents.interfaces, ∀ base ∈ d.heritage,
        ∃ name ∈ diamondContents.interfaceNames, base = .reference name [] := by
      decide
    exact fun d hd base hbase =>
      let ⟨name, hname, heq⟩ := hall d hd base hbase
      ⟨name, hname, [], heq⟩

/-- Names that keep to each other extend no others. -/
theorem Contents.mem_of_extends {c : Contents} {names : List String} {name e : String}
    (hclosed : ∀ n ∈ names, ∀ base ∈ c.bases n, base ∈ names) (hname : name ∈ names)
    (h : Relation.ReflTransGen c.Extends name e) : e ∈ names := by
  induction h with
  | refl => exact hname
  | tail _ hstep ih => exact hclosed _ ih _ hstep

/-- The interface and the intersection have the same two fields. -/
theorem inheritance_flattened_diamond :
    let s := Scope.ofFile (readSource diamondText "/m" none true).value
    s.contents.Unindexed ∧ s.contents.keyofOperands = [] ∧ s.contents.defaults = [] ∧
      s.contents.Inherits ∧ ∃ r r', extractInterface s (diamondInterface "X" ["B", "C"] [] 1) = .ok r ∧
        extractAlias s diamondAlias = .ok r' ∧ r'.fields = r.fields ∧ r.fieldNames.Nodup ∧
          ∀ name, name ∈ r.fieldNames ↔ name = "b" ∨ name = "d" := by
  intro s
  have hcontents : s.contents = diamondContents := by
    have hread : (readSource diamondText "/m" none true).value.contents = diamondContents := by
      decide +kernel
    exact hread
  have hindexed : s.contents.Unindexed := by
    rw [hcontents, Contents.Unindexed]
    decide
  have hkeyof : s.contents.keyofOperands = [] := by rw [hcontents]; rfl
  have hdefaults : s.contents.defaults = [] := by rw [hcontents]; rfl
  have h : s.contents.Inherits := hcontents ▸ inherits_diamondContents
  refine ⟨hindexed, hkeyof, hdefaults, h, ?_⟩
  obtain ⟨properties, r, hlisted, hflat, hr, hfields, hsame⟩ := inheritance_flattened diamondText "/m"
    none true hindexed hkeyof hdefaults h (diamondInterface "X" ["B", "C"] [] 1)
    (by rw [hcontents]; exact .head _)
  have hacyclic : ∀ base, s.contents.Extends "X" base →
      ¬ Relation.ReflTransGen s.contents.Extends base "X" := by
    rw [hcontents]
    intro base hbase hcycle
    have hbelow : base ∈ ["B", "C", "D"] := by
      obtain rfl | rfl : base = "B" ∨ base = "C" := by
        simpa using (show base ∈ ["B", "C"] from hbase)
      all_goals decide
    exact absurd (Contents.mem_of_extends (by decide) hbelow hcycle) (by decide)
  obtain ⟨r', hr', heq, -⟩ := hsame diamondAlias (by rw [hcontents]; exact .head _) rfl rfl hacyclic
    (List.forall_mem_nil _)
  refine ⟨r, r', hr, hr', heq, ?_⟩
  rw [StructuralDeclaration.fieldNames, namesOf_fieldsOf hfields]
  refine ⟨hflat.once, fun name => (hflat.complete name).trans ?_⟩
  rw [hcontents]
  constructor
  · rintro ⟨e, he, hname⟩
    have hall : ∀ e ∈ ["X", "B", "C", "D"], ∀ name ∈ namesOf (diamondContents.ownProperties e),
        name = "b" ∨ name = "d" := by
      decide
    exact hall e (Contents.mem_of_extends (by decide) (.head _) he) name hname
  · rintro (rfl | rfl)
    · exact ⟨"B", .single (by decide), by decide⟩
    · exact ⟨"C", .single (by decide), by decide⟩

end FluentBuilders
