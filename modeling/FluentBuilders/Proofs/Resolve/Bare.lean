import FluentBuilders.Proofs.Resolve.Listing
import FluentBuilders.Proofs.Resolve.Meaning
import FluentBuilders.Proofs.Resolve.Visits
import FluentBuilders.Proofs.Syntax.Size

/-!
# Proofs/Resolve/Bare — resolution in a file that declares and imports nothing

There every step that resolution takes leads into a smaller type, so it ends, and it gives what
`TypeNode.meaning` says (`resolveType_eq_rendered_shown`).  The steps that are taken one level deeper
are the only ones that are not a recursion over the type; their sizes go down, so none comes again.
-/

namespace FluentBuilders

/-- **What was listed of a type**: the properties it comes to, each to be resolved in no environment
and smaller than the type. -/
structure Lists (s : Scope) (node : TypeNode) (listed : Option (List Property)) : Prop where
  meanings : listed.map (·.map fun p => (p.name, p.member.meaning s)) = (node.meaning s).properties
  free : ∀ properties ∈ listed, ∀ p ∈ properties, p.env = [] ∧ p.member.size < node.size

/-- **Steps one level deeper** that give what types smaller than `n` come to. -/
structure Deep (s : Scope) (n : Nat) (deeper : Deeper) : Prop where
  memberTypes : ∀ {active m}, m.size + 1 < n → deeper.memberTypes active [] m =
    .ok ((m.meaning s).constituents.map TypeNode.rendered)
  shape : ∀ {active seen node}, node.size < n →
    ∃ listed, deeper.shape active seen [] node = .ok listed ∧ Lists s node listed

theorem Deep.mono {s : Scope} {deeper : Deeper} {m n : Nat} (h : Deep s n deeper) (hmn : m ≤ n) :
    Deep s m deeper where
  memberTypes hm := h.memberTypes (hm.trans_le hmn)
  shape hnode := h.shape (hnode.trans_le hmn)

section

variable {s : Scope} {deeper : Deeper} {active seen : List String}

/-- The constituents of a type are those it comes to. -/
def Comes (s : Scope) (deeper : Deeper) (active : List String) (node : TypeNode) : Prop :=
  collect s deeper active [] node = .ok ((node.meaning s).constituents.map TypeNode.rendered)

theorem find?_bare (hbare : s.contents = {}) (name : String) : s.contents.find? name = none := by
  rw [hbare]
  rfl

theorem isForeign_bare (hbare : s.contents = {}) (name : String) : s.contents.isForeign name := by
  rw [hbare]
  rfl

/-- No alias lends a type its name. -/
theorem aliasText?_bare (hbare : s.contents = {}) (node : TypeNode) :
    aliasText? s deeper active [] node = .ok none := by
  cases node with
  | reference name arguments => rw [aliasText?, find?_bare hbare]; simp
  | _ => rw [aliasText?]; simp

/-- **A type is resolved to what it is shown as.** -/
theorem Comes.resolve (hbare : s.contents = {}) {node : TypeNode} (h : Comes s deeper active node) :
    resolve s deeper active [] node = .ok (node.shown s).rendered := by
  rw [FluentBuilders.resolve, h, TypeNode.shown, rendered_shown]
  simp only [Resolution.ok_bind, aliasText?_bare hbare]
  split <;> rfl

/-! ### Types in a row -/

theorem collectAll_comes {nodes : List TypeNode} (h : ∀ t ∈ nodes, Comes s deeper active t) :
    collectAll s deeper active [] nodes =
      .ok ((nodes.flatMap fun t => (t.meaning s).constituents).map TypeNode.rendered) := by
  induction nodes with
  | nil => rw [collectAll]; rfl
  | cons node nodes ih =>
    obtain ⟨hnode, hnodes⟩ := List.forall_mem_cons.1 h
    rw [collectAll, hnode, ih hnodes, List.flatMap_cons, List.map_append]
    rfl

theorem argumentLists_comes {nodes : List TypeNode} (h : ∀ t ∈ nodes, Comes s deeper active t) :
    argumentLists s deeper active [] nodes = .ok (nodes.map fun t =>
      s.normalForm ((t.meaning s).constituents.map TypeNode.rendered)) := by
  induction nodes with
  | nil => rw [argumentLists]; rfl
  | cons node nodes ih =>
    obtain ⟨hnode, hnodes⟩ := List.forall_mem_cons.1 h
    rw [argumentLists, hnode, ih hnodes]
    rfl

theorem resolveEach_comes (hbare : s.contents = {}) {nodes : List TypeNode}
    (h : ∀ t ∈ nodes, Comes s deeper active t) :
    resolveEach s deeper active [] nodes = .ok ((nodes.map (·.shown s)).map TypeNode.rendered) := by
  induction nodes with
  | nil => rw [resolveEach]; rfl
  | cons node nodes ih =>
    obtain ⟨hnode, hnodes⟩ := List.forall_mem_cons.1 h
    rw [resolveEach, hnode.resolve hbare, ih hnodes]
    rfl

theorem elementTexts_comes (hbare : s.contents = {}) {es : List TupleElement}
    (h : ∀ e ∈ es, Comes s deeper active e.type) :
    elementTexts s deeper active [] es =
      .ok ((es.map (·.shown s)).map TupleElement.rendered) := by
  induction es with
  | nil => rw [elementTexts]; rfl
  | cons e es ih =>
    obtain ⟨he, hes⟩ := List.forall_mem_cons.1 h
    have htype := he.resolve hbare
    cases e <;>
      (simp only [TupleElement.type] at htype
       rw [elementTexts, htype, ih hes]
       rfl)

theorem parameterTexts_comes (hbare : s.contents = {}) {ps : List Parameter}
    (h : ∀ p ∈ ps, Comes s deeper active p.type) :
    parameterTexts s deeper active [] ps =
      .ok ((ps.map (·.shown s)).map Parameter.rendered) := by
  induction ps with
  | nil => rw [parameterTexts]; rfl
  | cons p ps ih =>
    obtain ⟨hp, hps⟩ := List.forall_mem_cons.1 h
    have htype := hp.resolve hbare
    obtain ⟨name, optional, rest, type⟩ := p
    simp only [Parameter.type] at htype
    rw [parameterTexts, htype, ih hps]
    rfl

theorem optionalTypeText_comes (hbare : s.contents = {}) {type : Option TypeNode}
    (h : ∀ t ∈ type, Comes s deeper active t) :
    optionalTypeText s deeper active [] type = .ok (shownOptional s type).rendered.text := by
  cases type with
  | none => rw [optionalTypeText]; rfl
  | some t =>
    rw [optionalTypeText, (h t rfl).resolve hbare]
    rfl

/-- **The types of a member** are those it comes to. -/
theorem memberTypes_comes (hbare : s.contents = {}) {m : Member}
    (h : ∀ t ∈ m.types, Comes s deeper active t) :
    memberTypes s deeper active [] m = .ok ((m.meaning s).constituents.map TypeNode.rendered) := by
  cases m with
  | property name optional readonly type =>
    cases type with
    | none => rw [memberTypes, Member.meaning, map_rendered_memberConstituents]; rfl
    | some t =>
      have ht : Comes s deeper active t := h t (by simp [Member.types])
      rw [memberTypes, ht, Member.meaning, map_rendered_memberConstituents]
      rfl
  | method name optional parameters returns =>
    simp only [Member.types, List.mem_append, or_imp, forall_and, List.forall_mem_map,
      Option.mem_toList] at h
    rw [memberTypes, parameterTexts_comes hbare h.1, optionalTypeText_comes hbare h.2,
      Member.meaning, map_rendered_memberConstituents]
    simp only [shownParameters_eq, List.map_cons, List.map_nil, TypeNode.rendered,
      renderedParameters_eq]
    rfl
  | index => rw [memberTypes]; rfl

theorem memberTexts_comes (hbare : s.contents = {}) {ms : List Member}
    (h : ∀ m ∈ ms, ∀ t ∈ m.types, Comes s deeper active t) :
    memberTexts s deeper active [] ms = .ok ((ms.map (·.shown s)).map Member.rendered) := by
  induction ms with
  | nil => rw [memberTexts]; rfl
  | cons m ms ih =>
    obtain ⟨hm, hms⟩ := List.forall_mem_cons.1 h
    cases m with
    | property name optional readonly type =>
      rw [memberTexts, memberTypes_comes hbare hm, ih hms]
      simp only [Resolution.ok_bind, List.map_cons, Member.shown, Member.rendered, Member.meaning,
        renderedOptional, rendered_oneType]
      rfl
    | method name optional parameters returns =>
      simp only [Member.types, List.mem_append, or_imp, forall_and, List.forall_mem_map,
        Option.mem_toList] at hm
      rw [memberTexts, parameterTexts_comes hbare hm.1, optionalTypeText_comes hbare hm.2, ih hms]
      simp only [Resolution.ok_bind, List.map_cons, Member.shown, Member.rendered,
        renderedOptional, shownParameters_eq, renderedParameters_eq]
      rfl
    | index key readonly keyType valueType =>
      have hk := hm keyType (by simp [Member.types])
      have hv := hm valueType (by simp [Member.types])
      rw [memberTexts, hk.resolve hbare, hv.resolve hbare, ih hms]
      rfl

/-! ### Properties -/

/-- A property with what its type comes to. -/
def Property.entry (s : Scope) (p : Property) : String × Meaning := (p.name, p.member.meaning s)

/-- **Properties within `n`**: each is resolved in no environment, and is smaller. -/
def PropertiesWithin (n : Nat) (properties : List Property) : Prop :=
  ∀ p ∈ properties, p.env = [] ∧ p.member.size < n

theorem map_mergeShape (properties more : List Property) :
    (mergeShape properties more).map (·.entry s) =
      Meaning.merge (properties.map (·.entry s)) (more.map (·.entry s)) := by
  induction more generalizing properties with
  | nil => rfl
  | cons p more ih =>
    have hany : (properties.map (·.entry s)).any (·.1 == (p.entry s).1) =
        properties.any (·.name == p.name) := by
      rw [List.any_map]
      rfl
    rw [mergeShape, List.map_cons, Meaning.merge, hany]
    split
    · exact ih properties
    · rw [ih, List.map_append]
      rfl

theorem PropertiesWithin.mergeShape {n : Nat} {properties more : List Property}
    (h : PropertiesWithin n properties) (hmore : PropertiesWithin n more) :
    PropertiesWithin n (mergeShape properties more) := by
  obtain ⟨added, heq, hsub, -, -⟩ := exists_mergeShape properties more
  rw [heq]
  exact List.forall_mem_append.2 ⟨h, fun p hp => hmore p (hsub.subset hp)⟩

theorem Lists.within {node : TypeNode} {listed : Option (List Property)} (h : Lists s node listed) :
    PropertiesWithin node.size (listed.getD []) := by
  cases listed with
  | none => exact List.forall_mem_nil _
  | some properties => exact h.free properties rfl

theorem Lists.entries {node : TypeNode} {listed : Option (List Property)} (h : Lists s node listed) :
    (listed.getD []).map (·.entry s) = (node.meaning s).properties.getD [] := by
  rw [← h.meanings]
  cases listed <;> rfl

theorem mergedShapes_comes {n : Nat} {nodes : List TypeNode} {properties : List Property}
    (h : ∀ t ∈ nodes, ∃ listed, shape s deeper active seen [] t = .ok listed ∧ Lists s t listed)
    (hsize : ∀ t ∈ nodes, t.size ≤ n) (hproperties : PropertiesWithin n properties) :
    ∃ merged, mergedShapes s deeper active seen [] properties nodes = .ok merged ∧
      merged.map (·.entry s) =
        Meaning.mergeAll (properties.map (·.entry s)) (nodes.map (·.meaning s)) ∧
      PropertiesWithin n merged := by
  induction nodes generalizing properties with
  | nil => exact ⟨properties, by rw [mergedShapes], rfl, hproperties⟩
  | cons t nodes ih =>
    obtain ⟨⟨listed, hlisted, hlists⟩, hnodes⟩ := List.forall_mem_cons.1 h
    obtain ⟨ht, hsizes⟩ := List.forall_mem_cons.1 hsize
    have hmore : PropertiesWithin n (listed.getD []) := fun p hp =>
      ⟨(hlists.within p hp).1, (hlists.within p hp).2.trans_le ht⟩
    obtain ⟨merged, hmerged, hentries, hwithin⟩ := ih hnodes hsizes (hproperties.mergeShape hmore)
    refine ⟨merged, ?_, ?_, hwithin⟩
    · rw [mergedShapes, hlisted]
      exact hmerged
    · rw [hentries, map_mergeShape, hlists.entries]
      rfl

/-- **The property that an index names** is one that the type comes to have. -/
theorem indexedProperty?_comes {n : Nat} (hd : Deep s n deeper) {o i : TypeNode} (ho : o.size < n) :
    ∃ found, indexedProperty? deeper active [] o i = .ok found ∧
      found.map (fun p => p.member.meaning s) = (o.meaning s).property? i ∧
      ∀ p ∈ found, p.env = [] ∧ p.member.size < o.size := by
  cases i with
  | literal kind text =>
    rw [indexedProperty?, Meaning.property?]
    split
    · exact ⟨none, rfl, rfl, by simp⟩
    · obtain ⟨listed, hlisted, hlists⟩ := @Deep.shape _ _ _ hd active [] o ho
      refine ⟨(listed.getD []).find? (·.name == text), by rw [hlisted]; rfl, ?_,
        fun p hp => hlists.within p (List.mem_of_find?_eq_some hp)⟩
      rw [← hlists.entries, List.find?_map, Option.map_map]
      rfl
  | _ => exact ⟨none, rfl, rfl, by simp⟩

theorem lists_object (members : List Member) :
    Lists s (.object members) (some (Property.ofMembers [] members)) where
  meanings := by
    rw [TypeNode.meaning, memberMeanings_eq, Option.map_some, Property.ofMembers,
      List.map_filterMap]
    congr 1
    refine List.filterMap_congr fun m _ => ?_
    rw [Option.map_map]
    rfl
  free := by
    rintro properties ⟨⟩ p hp
    obtain ⟨m, hm, hname⟩ := List.mem_filterMap.1 hp
    obtain ⟨name, -, rfl⟩ := Option.map_eq_some_iff.1 hname
    refine ⟨rfl, ?_⟩
    rw [TypeNode.size, sizeOfMembers_eq]
    exact Nat.lt_succ_of_le (size_mem_le hm)

theorem lists_none {node : TypeNode} (h : (node.meaning s).properties = none) :
    Lists s node none where
  meanings := h.symm
  free := nofun

/-- **The properties of a type** are those it comes to. -/
theorem shape_comes (hbare : s.contents = {}) (node : TypeNode) (hd : Deep s node.size deeper) :
    ∃ listed, shape s deeper active seen [] node = .ok listed ∧ Lists s node listed := by
  induction node using TypeNode.induction_parts with
  | _ node ih =>
  have hparts (t) (ht : t ∈ node.parts) := ih t ht (hd.mono (TypeNode.size_lt ht).le)
  cases node with
  | object members =>
    exact ⟨_, by rw [shape], lists_object members⟩
  | intersection members =>
    have hmembers : ∀ t ∈ members, ∃ listed,
        shape s deeper active seen [] t = .ok listed ∧ Lists s t listed := hparts
    have hsize : ∀ t ∈ members, t.size ≤ (TypeNode.intersection members).size :=
      fun t ht => (TypeNode.size_lt ht).le
    obtain ⟨merged, hmerged, hentries, hwithin⟩ :=
      mergedShapes_comes hmembers hsize (List.forall_mem_nil _)
    refine ⟨some merged, by rw [shape, hmerged]; rfl, ?_, by rintro _ ⟨⟩; exact hwithin⟩
    rw [TypeNode.meaning, meanings_eq]
    exact congrArg some hentries
  | indexed o i =>
    have ho : o.size < (TypeNode.indexed o i).size := TypeNode.size_lt (by simp [TypeNode.parts])
    obtain ⟨found, hfound, hmeaning, hsmall⟩ := @indexedProperty?_comes s deeper active _ hd o i ho
    rw [shape, hfound]
    simp only [Resolution.ok_bind]
    cases found with
    | none =>
      refine ⟨none, rfl, lists_none ?_⟩
      rw [TypeNode.meaning, ← hmeaning]
      rfl
    | some p =>
      obtain ⟨name, m, env⟩ := p
      obtain ⟨rfl, hm⟩ := hsmall _ rfl
      have hproperties : ((TypeNode.indexed o i).meaning s).properties = (m.meaning s).properties := by
        rw [TypeNode.meaning, ← hmeaning]
        rfl
      cases m with
      | property _ optional readonly type =>
        cases type with
        | none => exact ⟨none, rfl, lists_none hproperties⟩
        | some t =>
          have ht : t.size < (TypeNode.indexed o i).size :=
            (Member.size_lt (by simp [Member.types])).trans (hm.trans ho)
          obtain ⟨listed, hlisted, hlists⟩ := @Deep.shape _ _ _ hd active seen t ht
          refine ⟨listed, hlisted, hlists.meanings.trans hproperties.symm,
            fun properties hp p hmem => ?_⟩
          obtain ⟨henv, hsize⟩ := hlists.free properties hp p hmem
          exact ⟨henv, hsize.trans ht⟩
      | method => exact ⟨none, rfl, lists_none hproperties⟩
      | index => exact ⟨none, rfl, lists_none hproperties⟩
  | reference name arguments =>
    refine ⟨none, ?_, lists_none ?_⟩
    · rw [shape]
      simp only [List.lookup_nil, Option.isSome_none, Bool.false_eq_true, if_false]
      split
      · rfl
      · rfl
      all_goals
        next heq =>
        rw [find?_bare hbare] at heq
        cases heq
    · rw [TypeNode.meaning]
      split <;> rfl
  | operator op operand =>
    refine ⟨none, by rw [shape] <;> simp, lists_none ?_⟩
    cases op <;> rw [TypeNode.meaning]
    split <;> rfl
  | _ => exact ⟨none, by rw [shape] <;> simp, lists_none rfl⟩

/-! ### Constituents -/

/-- **The constituents of a type** are those it comes to. -/
theorem collect_comes (hbare : s.contents = {}) (node : TypeNode) (hd : Deep s node.size deeper) :
    Comes s deeper active node := by
  induction node using TypeNode.induction_parts with
  | _ node ih =>
  have hparts (t) (ht : t ∈ node.parts) : Comes s deeper active t :=
    ih t ht (hd.mono (TypeNode.size_lt ht).le)
  unfold Comes
  cases node with
  | reference name arguments =>
    have harguments : ∀ t ∈ arguments, Comes s deeper active t := hparts
    rw [TypeNode.meaning]
    cases hname : ResolvedType.intrinsics.lookup name with
    | some types =>
      rw [collect_of_intrinsic (fun _ => rfl) hname]
      exact congrArg Except.ok (rendered_intrinsic hname).symm
    | none =>
      rw [collect_of_foreign (fun _ => rfl) hname (isForeign_bare hbare name)
        (argumentLists_comes harguments) (resolveEach_comes hbare harguments)]
      simp only [meanings_eq, List.map_map, List.map_cons, List.map_nil, rendered_namedType hname,
        foreignType, argumentsText_shown]
      rfl
  | imported module name arguments =>
    have harguments : ∀ t ∈ arguments, Comes s deeper active t := hparts
    rw [collect, argumentLists_comes harguments, TypeNode.meaning]
    simp only [Resolution.ok_bind, argumentsText_shown, meanings_eq, List.map_cons, List.map_nil,
      TypeNode.rendered, renderedTypes_eq, List.map_map]
    rfl
  | literal kind text => rw [collect_literal]; rfl
  | union members =>
    have hmembers : ∀ t ∈ members, Comes s deeper active t := hparts
    rw [collect, collectAll_comes hmembers, TypeNode.meaning, meanings_eq, List.flatMap_map]
  | intersection members =>
    have hmembers : ∀ t ∈ members, Comes s deeper active t := hparts
    rw [collect, resolveEach_comes hbare hmembers, TypeNode.meaning, meanings_eq]
    simp only [Resolution.ok_bind, List.map_cons, List.map_nil, List.map_map, TypeNode.rendered,
      renderedTypes_eq]
    rfl
  | array element =>
    rw [collect, (hparts element (by simp [TypeNode.parts])).resolve hbare]
    rfl
  | indexed o i =>
    have ho : o.size < (TypeNode.indexed o i).size := TypeNode.size_lt (by simp [TypeNode.parts])
    obtain ⟨found, hfound, hmeaning, hsmall⟩ := @indexedProperty?_comes s deeper active _ hd o i ho
    rw [collect, hfound, TypeNode.meaning, ← hmeaning]
    cases found with
    | none =>
      simp only [Resolution.ok_bind]
      rw [(hparts o (by simp [TypeNode.parts])).resolve hbare,
        (hparts i (by simp [TypeNode.parts])).resolve hbare]
      rfl
    | some p =>
      obtain ⟨name, m, env⟩ := p
      obtain ⟨rfl, hm⟩ := hsmall _ rfl
      exact hd.memberTypes ((Nat.succ_le_of_lt hm).trans_lt ho)
  | tuple elements =>
    have helements : ∀ e ∈ elements, Comes s deeper active e.type :=
      fun e he => hparts _ (List.mem_map_of_mem he)
    rw [collect, elementTexts_comes hbare helements, TypeNode.meaning, shownElements_eq]
    simp only [Resolution.ok_bind, List.map_cons, List.map_nil, TypeNode.rendered,
      renderedElements_eq]
    rfl
  | function parameters returns =>
    have hparameters : ∀ p ∈ parameters, Comes s deeper active p.type :=
      fun p hp => hparts _ (List.mem_append_left _ (List.mem_map_of_mem hp))
    rw [collect, parameterTexts_comes hbare hparameters,
      (hparts returns (by simp [TypeNode.parts])).resolve hbare, TypeNode.meaning,
      shownParameters_eq]
    simp only [Resolution.ok_bind, List.map_cons, List.map_nil, TypeNode.rendered,
      renderedParameters_eq]
    rfl
  | operator op operand =>
    have hoperand : Comes s deeper active operand := hparts operand (by simp [TypeNode.parts])
    cases op with
    | keyof =>
      have hsize : operand.size < (TypeNode.operator .keyof operand).size :=
        TypeNode.size_lt (by simp [TypeNode.parts])
      obtain ⟨listed, hlisted, hlists⟩ := @Deep.shape _ _ _ hd active [] operand hsize
      rw [collect, hlisted, TypeNode.meaning, ← hlists.meanings]
      cases listed with
      | none =>
        simp only [Resolution.ok_bind]
        rw [hoperand.resolve hbare]
        rfl
      | some properties =>
        simp only [Resolution.ok_bind, Option.map_some, List.map_map]
        rfl
    | readonly =>
      rw [collect, hoperand.resolve hbare, TypeNode.meaning, List.map_singleton]
      change _ = Except.ok [(readonlyOf (operand.shown s)).rendered]
      rw [rendered_readonlyOf, readonlyType]
      simp only [Resolution.ok_bind]
      split <;> rfl
    | unique => rw [collect]; rfl
  | query name => rw [collect]; rfl
  | object members =>
    have hmembers : ∀ m ∈ members, ∀ t ∈ m.types, Comes s deeper active t :=
      fun m hm t ht => hparts t (List.mem_flatMap.2 ⟨m, hm, ht⟩)
    rw [collect, memberTexts_comes hbare hmembers, TypeNode.meaning, shownMembers_eq]
    simp only [Resolution.ok_bind, List.map_cons, List.map_nil, TypeNode.rendered,
      renderedMembers_eq]
    rfl
  | raw text => rw [collect]; rfl

/-! ### Nested steps -/

theorem Descent.enter_of_size {α : Type} {d : Descent} {trail : List Descent}
    {next : List Descent → Resolution α} (h : ∀ e ∈ trail, d.size < e.size) :
    d.enter trail next = next (d :: trail) := by
  have hnew : trail.any (·.same d) = false := by
    rw [List.any_eq_false]
    intro e he hsame
    simp only [Descent.same, Bool.and_eq_true, beq_iff_eq] at hsame
    exact (h e he).ne' hsame.1.1.1.1.2
  rw [Descent.enter, hnew]
  rfl

/-- **Steps into smaller and smaller types** come to an end: there are levels enough, and no step
comes again. -/
theorem deep_deeperSteps (hbare : s.contents = {}) (level : Nat) :
    ∀ {n : Nat} {trail : List Descent}, n ≤ level → (∀ e ∈ trail, n ≤ e.size) →
      Deep s n (deeperSteps s trail level) := by
  induction level with
  | zero =>
    intro n trail hn _
    obtain rfl := Nat.le_zero.1 hn
    exact ⟨nofun, nofun⟩
  | succ level ih =>
    intro n trail hn htrail
    have hdeep (d : Descent) (hd : d.size < n) :
        Deep s d.size (deeperSteps s (d :: trail) level) :=
      ih (Nat.le_of_lt_succ (hd.trans_le hn))
        (List.forall_mem_cons.2 ⟨le_rfl, fun e he => hd.le.trans (htrail e he)⟩)
    constructor
    · intro active m hm
      have hnew : ∀ e ∈ trail, (Descent.into .memberTypes active [] [] (.object [m])).size < e.size :=
        fun e he => hm.trans_le (htrail e he)
      have hnext := hdeep (Descent.into .memberTypes active [] [] (.object [m])) hm
      rw [deeperSteps]
      dsimp only
      rw [Descent.enter_of_size hnew]
      exact memberTypes_comes hbare fun t ht =>
        collect_comes hbare t (hnext.mono ((Member.size_lt ht).trans (Nat.lt_succ_self _)).le)
    · intro active seen node hnode
      have hnew : ∀ e ∈ trail, (Descent.into .shape active seen [] node).size < e.size :=
        fun e he => hnode.trans_le (htrail e he)
      rw [deeperSteps]
      dsimp only
      rw [Descent.enter_of_size hnew]
      exact shape_comes hbare node (hdeep (Descent.into .shape active seen [] node) hnode)

/-- **Resolution where nothing is declared** ends, and gives what the type is shown as. -/
theorem resolveType_eq_rendered_shown (hbare : s.contents = {}) {node : TypeNode}
    (hsize : node.size ≤ nestingLimit) :
    s.resolveType [] node = .ok (node.shown s).rendered :=
  (collect_comes hbare node (deep_deeperSteps hbare nestingLimit hsize (List.forall_mem_nil _))).resolve
    hbare

end

end FluentBuilders
