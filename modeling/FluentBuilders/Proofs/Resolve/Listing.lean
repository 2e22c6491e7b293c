import FluentBuilders.Proofs.Resolve.Parts
import FluentBuilders.Proofs.Syntax.Subterms
import Mathlib.Data.List.Nodup

/-!
# Proofs/Resolve/Listing — where the properties of a type come from

Properties that are merged are the first of each name.  What is listed comes from the types that
resolution is led to: with every type it brings those that the type is made of, and those that a
declaration it names is written with (`Scope.Closed`).
-/

namespace FluentBuilders

/-! ## Merging -/

/-- The names of properties. -/
def namesOf (properties : List Property) : List String := properties.map (·.name)

/-- The names that members have. -/
def memberNames (members : List Member) : List String := members.filterMap (·.name?)

theorem namesOf_ofMembers (env : Env) (members : List Member) :
    namesOf (Property.ofMembers env members) = memberNames members := by
  rw [namesOf, Property.ofMembers, memberNames, List.map_filterMap]
  simp only [Option.map_map, Function.comp_def, Option.map_id']

theorem any_name_iff {properties : List Property} {name : String} :
    properties.any (·.name == name) = true ↔ name ∈ namesOf properties := by
  simp [namesOf]

section Merging

variable {properties more rest : List Property} {p : Property} {name : String}

theorem mergeShape_cons_of_mem (h : p.name ∈ namesOf properties) :
    mergeShape properties (p :: more) = mergeShape properties more := by
  rw [mergeShape, if_pos (any_name_iff.2 h)]

theorem mergeShape_cons_of_notMem (h : p.name ∉ namesOf properties) :
    mergeShape properties (p :: more) = mergeShape (properties ++ [p]) more := by
  rw [mergeShape, if_neg fun hany => h (any_name_iff.1 hany)]

theorem mergeShape_append :
    mergeShape properties (more ++ rest) = mergeShape (mergeShape properties more) rest := by
  induction more generalizing properties with
  | nil => rfl
  | cons p more ih =>
    rw [List.cons_append]
    by_cases h : p.name ∈ namesOf properties
    · rw [mergeShape_cons_of_mem h, mergeShape_cons_of_mem h, ih]
    · rw [mergeShape_cons_of_notMem h, mergeShape_cons_of_notMem h, ih]

/-- **What merging adds**: properties of other names, each name once. -/
theorem exists_mergeShape (properties more : List Property) :
    ∃ added, mergeShape properties more = properties ++ added ∧ added.Sublist more ∧
      (namesOf added).Nodup ∧ ∀ name ∈ namesOf added, name ∉ namesOf properties := by
  induction more generalizing properties with
  | nil => exact ⟨[], (List.append_nil _).symm, .slnil, List.nodup_nil, List.forall_mem_nil _⟩
  | cons p more ih =>
    by_cases h : p.name ∈ namesOf properties
    · obtain ⟨added, heq, hsub, hnodup, hnew⟩ := ih properties
      exact ⟨added, by rw [mergeShape_cons_of_mem h, heq], hsub.cons p, hnodup, hnew⟩
    · obtain ⟨added, heq, hsub, hnodup, hnew⟩ := ih (properties ++ [p])
      have hapart : ∀ name ∈ namesOf added, name ∉ namesOf properties ∧ name ≠ p.name := by
        intro name hname
        simpa [namesOf] using hnew name hname
      refine ⟨p :: added, ?_, hsub.cons_cons p, ?_, List.forall_mem_cons.2 ⟨h, ?_⟩⟩
      · rw [mergeShape_cons_of_notMem h, heq, List.append_assoc, List.singleton_append]
      · exact List.nodup_cons.2 ⟨fun hmem => (hapart _ hmem).2 rfl, hnodup⟩
      · exact fun name hname => (hapart name hname).1

theorem mem_namesOf_mergeShape :
    name ∈ namesOf (mergeShape properties more) ↔
      name ∈ namesOf properties ∨ name ∈ namesOf more := by
  induction more generalizing properties with
  | nil => simp [mergeShape, namesOf]
  | cons p more ih =>
    have hcons : name ∈ namesOf (p :: more) ↔ name = p.name ∨ name ∈ namesOf more := by
      simp [namesOf]
    by_cases h : p.name ∈ namesOf properties
    · rw [mergeShape_cons_of_mem h, ih, hcons]
      grind
    · have hconcat : name ∈ namesOf (properties ++ [p]) ↔
          name ∈ namesOf properties ∨ name = p.name := by
        simp [namesOf]
      rw [mergeShape_cons_of_notMem h, ih, hcons, hconcat, or_assoc]

/-- Properties whose names are all there add nothing. -/
theorem mergeShape_of_subset (h : ∀ p ∈ more, p.name ∈ namesOf properties) :
    mergeShape properties more = properties := by
  induction more with
  | nil => rfl
  | cons p more ih =>
    obtain ⟨hp, hmore⟩ := List.forall_mem_cons.1 h
    rw [mergeShape_cons_of_mem hp, ih hmore]

/-- **Merging what is merged already** is merging all of it. -/
theorem mergeShape_mergeShape :
    mergeShape properties (mergeShape more rest) = mergeShape properties (more ++ rest) := by
  induction rest generalizing more with
  | nil => rw [List.append_nil]; rfl
  | cons p rest ih =>
    by_cases h : p.name ∈ namesOf more
    · have hthere : p.name ∈ namesOf (mergeShape properties more) :=
        mem_namesOf_mergeShape.2 (.inr h)
      rw [mergeShape_cons_of_mem h, ih, mergeShape_append, mergeShape_append,
        mergeShape_cons_of_mem hthere]
    · rw [mergeShape_cons_of_notMem h, ih, List.append_assoc, List.singleton_append]

/-- Properties of different names are kept as they are. -/
theorem mergeShape_of_nodup (h : (namesOf (properties ++ more)).Nodup) :
    mergeShape properties more = properties ++ more := by
  induction more generalizing properties with
  | nil => rw [List.append_nil]; rfl
  | cons p more ih =>
    have hnew : p.name ∉ namesOf properties := by
      intro hmem
      rw [namesOf, List.map_append, List.nodup_append'] at h
      exact h.2.2 hmem List.mem_cons_self
    rw [mergeShape_cons_of_notMem hnew, ih, List.append_assoc, List.singleton_append]
    rwa [List.append_assoc, List.singleton_append]

/-- **The winner of a name** is the first property that has it. -/
theorem find?_mergeShape :
    (mergeShape properties more).find? (·.name == name) =
      (properties ++ more).find? (·.name == name) := by
  induction more generalizing properties with
  | nil => rw [List.append_nil]; rfl
  | cons p more ih =>
    by_cases h : p.name ∈ namesOf properties
    · rw [mergeShape_cons_of_mem h, ih, List.find?_append, List.find?_append]
      by_cases hname : p.name = name
      · obtain ⟨q, hq, hqname⟩ := List.mem_map.1 h
        have hfound : (properties.find? (·.name == name)).isSome = true := by
          rw [List.find?_isSome]
          exact ⟨q, hq, by simp [hqname, hname]⟩
        obtain ⟨r, hr⟩ := Option.isSome_iff_exists.1 hfound
        rw [hr, Option.some_or, Option.some_or]
      · rw [List.find?_cons_of_neg (by simpa using hname)]
    · rw [mergeShape_cons_of_notMem h, ih, List.append_assoc, List.singleton_append]

theorem nodup_namesOf_mergeShape :
    (namesOf (mergeShape properties more)).Nodup ↔ (namesOf properties).Nodup := by
  obtain ⟨added, heq, -, hnodup, hnew⟩ := exists_mergeShape properties more
  rw [heq, namesOf, List.map_append, List.nodup_append']
  exact ⟨fun h => h.1, fun h => ⟨h, hnodup, fun name hname hadded => hnew name hadded hname⟩⟩

end Merging

/-! ## References -/

variable {s : Scope} {deeper : Deeper} {active seen : List String} {env : Env}

/-- **What a reference lists.** -/
theorem shape_reference (name : String) (arguments : List TypeNode) :
    shape s deeper active seen env (.reference name arguments) =
      if (env.lookup name).isSome then .ok none
      else
        match s.contents.find? name with
        | some (.interface d) =>
          if d.name ∈ seen then .ok none
          else do
            let arguments ← argumentLists s deeper active env arguments
            let bound ← bind deeper active [] d.parameters arguments
            let properties ← interfaceShape s deeper active (d.name :: seen) bound d
            return some properties
        | some (.alias d) =>
          if d.name ∈ seen then .ok none
          else do
            let arguments ← argumentLists s deeper active env arguments
            let bound ← bind deeper active [] d.parameters arguments
            shape s deeper active (d.name :: seen) bound d.body
        | _ => .ok none := by
  rw [shape]
  split
  · rfl
  split
  · next heq => simp only [heq]
  · next heq => simp only [heq]
  · next d heq =>
    simp only [heq, interfaceShape]
    split <;> rfl
  · next d heq =>
    simp only [heq]
    split <;> rfl

/-- **What a reference is taken apart into.** -/
theorem unionParts_reference (name : String) (arguments : List TypeNode) :
    unionParts s deeper seen env (.reference name arguments) =
      if name = "boolean" then .ok [(.reference "false" [], env), (.reference "true" [], env)]
      else
        match env.lookup name with
        | some types =>
          if 1 < types.length then .ok (types.map fun t => (.raw t.text, []))
          else .ok [(.reference name arguments, env)]
        | none =>
          match s.contents.find? name with
          | some (.alias d) =>
            if d.name ∈ seen then .ok [(.reference name arguments, env)]
            else if isUnionBody d.body then do
              let arguments ← argumentLists s deeper [] env arguments
              let bound ← bind deeper [] [] d.parameters arguments
              unionParts s deeper (d.name :: seen) bound d.body
            else .ok [(.reference name arguments, env)]
          | _ => .ok [(.reference name arguments, env)] := by
  rw [unionParts]
  split
  · rfl
  cases env.lookup name with
  | some types => rfl
  | none =>
    dsimp only
    split
    · next d heq =>
      simp only [heq]
      split <;> rfl
    · next hother =>
      split
      · next d heq => exact absurd heq (hother d)
      · rfl

/-! ## Types that are led to -/

/-- **Types that lead to no others**: with a type there are those it is made of, and those that a
declaration it names is written with. -/
structure Scope.Closed (s : Scope) (P : TypeNode → Prop) : Prop where
  part : ∀ {node part}, P node → part ∈ node.parts → P part
  body : ∀ {name arguments d}, P (.reference name arguments) →
    s.contents.find? name = some (.alias d) → P d.body
  heritage : ∀ {name arguments d base}, P (.reference name arguments) →
    s.contents.find? name = some (.interface d) → base ∈ d.heritage → P base
  member : ∀ {name arguments d m type}, P (.reference name arguments) →
    s.contents.find? name = some (.interface d) → m ∈ d.members → type ∈ m.types → P type

/-- **Properties with types of a kind.** -/
def Within (P : TypeNode → Prop) (properties : List Property) : Prop :=
  ∀ p ∈ properties, ∀ type ∈ p.member.types, P type

/-- The properties listed one level deeper have types of a kind when the type has it. -/
def Deeper.Keeps (deeper : Deeper) (P : TypeNode → Prop) : Prop :=
  ∀ active seen env node properties, P node →
    deeper.shape active seen env node = .ok (some properties) → Within P properties

variable {P : TypeNode → Prop}

theorem within_ofMembers {members : List Member} (h : ∀ m ∈ members, ∀ type ∈ m.types, P type) :
    Within P (Property.ofMembers env members) := by
  intro p hp
  obtain ⟨m, hm, hname⟩ := List.mem_filterMap.1 hp
  obtain ⟨name, -, rfl⟩ := Option.map_eq_some_iff.1 hname
  exact h m hm

theorem Within.mergeShape {properties more : List Property} (h : Within P properties)
    (hmore : Within P more) : Within P (mergeShape properties more) := by
  obtain ⟨added, heq, hsub, -, -⟩ := exists_mergeShape properties more
  rw [heq]
  exact List.forall_mem_append.2 ⟨h, fun p hp => hmore p (hsub.subset hp)⟩

/-- **The property that is looked up** is one that the object type lists. -/
theorem exists_of_indexedProperty? {o i : TypeNode} {p : Property}
    (h : indexedProperty? deeper active env o i = .ok (some p)) :
    ∃ properties, deeper.shape active [] env o = .ok (some properties) ∧ p ∈ properties := by
  unfold indexedProperty? at h
  split at h
  · split at h
    · cases h
    obtain ⟨listed, hlisted, h⟩ := Resolution.bind_eq_ok.1 h
    cases listed with
    | none => cases h
    | some properties =>
      refine ⟨properties, hlisted, ?_⟩
      simp only [pure, Except.pure, Except.ok.injEq, Option.getD_some] at h
      exact List.mem_of_find?_eq_some h
  · cases h

theorem indexedProperty?_within (hd : deeper.Keeps P) {o i : TypeNode} {p : Property} (ho : P o)
    (h : indexedProperty? deeper active env o i = .ok (some p)) :
    ∀ type ∈ p.member.types, P type := by
  obtain ⟨properties, hlisted, hp⟩ := exists_of_indexedProperty? h
  exact hd _ _ _ _ _ ho hlisted p hp

mutual

/-- **What a type lists** has types that the type leads to. -/
theorem shape_within (hc : s.Closed P) (hd : deeper.Keeps P) {active seen : List String} {env : Env}
    {node : TypeNode} {properties : List Property} (hnode : P node)
    (h : shape s deeper active seen env node = .ok (some properties)) : Within P properties := by
  match node with
  | .object members =>
    rw [shape] at h
    cases h
    exact within_ofMembers fun m hm type htype => hc.part hnode (List.mem_flatMap.2 ⟨m, hm, htype⟩)
  | .intersection members =>
    rw [shape] at h
    obtain ⟨merged, hmerged, h⟩ := Resolution.bind_eq_ok.1 h
    cases h
    exact mergedShapes_within hc hd (List.forall_mem_nil _)
      (fun m (hm : m ∈ members) => hc.part hnode hm) hmerged
  | .reference name arguments =>
    rw [shape_reference] at h
    split at h
    · cases h
    split at h
    · next d hfound =>
      split at h
      · cases h
      next hnew =>
      have := unvisited_cons_lt (Contents.mem_structuralNames_of_find?_interface hfound) hnew
      obtain ⟨types, -, h⟩ := Resolution.bind_eq_ok.1 h
      obtain ⟨bound, -, h⟩ := Resolution.bind_eq_ok.1 h
      obtain ⟨merged, hmerged, h⟩ := Resolution.bind_eq_ok.1 h
      cases h
      exact mergedShapes_within hc hd
        (within_ofMembers fun m hm type htype => hc.member hnode hfound hm htype)
        (fun base hbase => hc.heritage hnode hfound hbase) hmerged
    · next d hfound =>
      split at h
      · cases h
      next hnew =>
      have := unvisited_cons_lt (Contents.mem_structuralNames_of_find?_alias hfound) hnew
      obtain ⟨types, -, h⟩ := Resolution.bind_eq_ok.1 h
      obtain ⟨bound, -, h⟩ := Resolution.bind_eq_ok.1 h
      exact shape_within hc hd (hc.body hnode hfound) h
    · cases h
  | .indexed o i =>
    rw [shape] at h
    obtain ⟨looked, hlooked, h⟩ := Resolution.bind_eq_ok.1 h
    split at h
    · have htype := indexedProperty?_within hd (hc.part hnode List.mem_cons_self) hlooked
      exact hd _ _ _ _ _ (htype _ (List.mem_singleton_self _)) h
    · cases h
  | .imported .. | .literal .. | .union .. | .array .. | .tuple .. | .function ..
  | .operator .. | .query .. | .raw .. =>
    rw [shape] at h
    · cases h
    all_goals simp
termination_by (unvisited s.contents.structuralNames seen, sizeOf node)
decreasing_by all_goals simp_wf; simp only [Prod.lex_def, true_and]; omega

theorem mergedShapes_within (hc : s.Closed P) (hd : deeper.Keeps P) {active seen : List String}
    {env : Env} {nodes : List TypeNode} {properties merged : List Property}
    (hproperties : Within P properties) (hnodes : ∀ node ∈ nodes, P node)
    (h : mergedShapes s deeper active seen env properties nodes = .ok merged) :
    Within P merged := by
  match nodes with
  | [] =>
    rw [mergedShapes] at h
    cases h
    exact hproperties
  | node :: nodes =>
    obtain ⟨hnode, hnodes⟩ := List.forall_mem_cons.1 hnodes
    rw [mergedShapes] at h
    obtain ⟨more, hmore, h⟩ := Resolution.bind_eq_ok.1 h
    have hwithin : Within P (more.getD []) := by
      cases more with
      | none => exact List.forall_mem_nil _
      | some more => exact shape_within hc hd hnode hmore
    exact mergedShapes_within hc hd (hproperties.mergeShape hwithin) hnodes h
termination_by (unvisited s.contents.structuralNames seen, sizeOf nodes)
decreasing_by all_goals simp_wf; simp only [Prod.lex_def, true_and]; omega

end

mutual

/-- **The parts of a union** are types that its body leads to, texts of constituents and the values
of `boolean`. -/
theorem unionParts_keeps (hc : s.Closed P) (hraw : ∀ text, P (.raw text))
    (hvalues : ∀ arguments, P (.reference "boolean" arguments) →
      P (.reference "false" []) ∧ P (.reference "true" []))
    {seen : List String} {env : Env} {node : TypeNode} {parts : List (TypeNode × Env)}
    (hnode : P node) (h : unionParts s deeper seen env node = .ok parts) :
    ∀ p ∈ parts, P p.1 := by
  match node with
  | .union members =>
    rw [unionParts] at h
    exact unionPartsAll_keeps hc hraw hvalues (fun m (hm : m ∈ members) => hc.part hnode hm) h
  | .reference name arguments =>
    have hself : ∀ p ∈ [(TypeNode.reference name arguments, env)], P p.1 :=
      List.forall_mem_singleton.2 hnode
    rw [unionParts] at h
    split at h
    · next hname =>
      cases h
      obtain ⟨hfalse, htrue⟩ := hvalues arguments (hname ▸ hnode)
      exact List.forall_mem_cons.2 ⟨hfalse, List.forall_mem_singleton.2 htrue⟩
    split at h
    · split at h
      · cases h
        intro p hp
        obtain ⟨t, -, rfl⟩ := List.mem_map.1 hp
        exact hraw _
      · cases h
        exact hself
    split at h
    · next d hfound =>
      split at h
      · cases h
        exact hself
      next hnew =>
      split at h
      · have := unvisited_cons_lt (Contents.mem_structuralNames_of_find?_alias hfound) hnew
        obtain ⟨types, -, h⟩ := Resolution.bind_eq_ok.1 h
        obtain ⟨bound, -, h⟩ := Resolution.bind_eq_ok.1 h
        exact unionParts_keeps hc hraw hvalues (hc.body hnode hfound) h
      · cases h
        exact hself
    · cases h
      exact hself
  | .imported .. | .literal .. | .intersection .. | .array .. | .indexed .. | .tuple ..
  | .function .. | .operator .. | .query .. | .object .. | .raw .. =>
    rw [unionParts] at h
    · cases h
      exact List.forall_mem_singleton.2 hnode
    all_goals simp
termination_by (unvisited s.contents.structuralNames seen, sizeOf node)
decreasing_by all_goals simp_wf; simp only [Prod.lex_def, true_and]; omega

theorem unionPartsAll_keeps (hc : s.Closed P) (hraw : ∀ text, P (.raw text))
    (hvalues : ∀ arguments, P (.reference "boolean" arguments) →
      P (.reference "false" []) ∧ P (.reference "true" []))
    {seen : List String} {env : Env} {nodes : List TypeNode} {parts : List (TypeNode × Env)}
    (hnodes : ∀ node ∈ nodes, P node) (h : unionPartsAll s deeper seen env nodes = .ok parts) :
    ∀ p ∈ parts, P p.1 := by
  match nodes with
  | [] =>
    rw [unionPartsAll] at h
    cases h
    exact List.forall_mem_nil _
  | node :: nodes =>
    obtain ⟨hnode, hnodes⟩ := List.forall_mem_cons.1 hnodes
    rw [unionPartsAll] at h
    obtain ⟨first, hfirst, h⟩ := Resolution.bind_eq_ok.1 h
    obtain ⟨others, hothers, h⟩ := Resolution.bind_eq_ok.1 h
    cases h
    exact List.forall_mem_append.2 ⟨unionParts_keeps hc hraw hvalues hnode hfirst,
      unionPartsAll_keeps hc hraw hvalues hnodes hothers⟩
termination_by (unvisited s.contents.structuralNames seen, sizeOf nodes)
decreasing_by all_goals simp_wf; simp only [Prod.lex_def, true_and]; omega

end

/-- The shape of a part is listed. -/
theorem exists_of_mem_partShapes {parts : List (TypeNode × Env)}
    {shapes : List (Option (List Property))} {seen : List String}
    (h : partShapes s deeper seen parts = .ok shapes) {r : Option (List Property)}
    (hr : r ∈ shapes) :
    ∃ p ∈ parts, shape s deeper [] seen p.2 p.1 = .ok r := by
  induction parts generalizing shapes with
  | nil =>
    rw [partShapes] at h
    cases h
    cases hr
  | cons p parts ih =>
    rw [partShapes] at h
    obtain ⟨first, hfirst, h⟩ := Resolution.bind_eq_ok.1 h
    obtain ⟨others, hothers, h⟩ := Resolution.bind_eq_ok.1 h
    cases h
    rcases List.mem_cons.1 hr with rfl | hr
    · exact ⟨p, List.mem_cons_self, hfirst⟩
    · obtain ⟨q, hq, hshape⟩ := ih hothers hr
      exact ⟨q, List.mem_cons_of_mem _ hq, hshape⟩

/-- **Every level keeps** what the file's types lead to. -/
theorem keeps_deeperSteps (hc : s.Closed P) (trail : List Descent) (level : Nat) :
    (deeperSteps s trail level).Keeps P := by
  induction level generalizing trail with
  | zero => exact fun _ _ _ _ _ _ h => nomatch h
  | succ level ih =>
    intro active seen env node properties hnode h
    simp only [deeperSteps, Descent.enter] at h
    split at h
    · cases h
    · exact shape_within hc (ih _) hnode h

end FluentBuilders
