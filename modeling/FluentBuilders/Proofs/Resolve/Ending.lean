import FluentBuilders.Proofs.Resolve.Visits

/-!
# Proofs/Resolve/Ending — what resolution waits for

Walks end by themselves: each visit is to a smaller type, or into a declaration that has not been
seen.  So resolution ends when its restarts do (`collect_ends`, `shape_ends`).
-/

namespace FluentBuilders

/-! ## Resolution that ends -/

namespace Resolution

variable {α β : Type} {x : Resolution α}

/-- **Resolution ends** with a result of a kind. -/
def EndsIn (x : Resolution α) (Q : α → Prop) : Prop := ∃ a, x = .ok a ∧ Q a

/-- **Resolution ends**, with a result. -/
def Ends (x : Resolution α) : Prop := ∃ a, x = .ok a

namespace Ends

theorem ok (a : α) : Ends (.ok a) := ⟨a, rfl⟩

theorem pure (a : α) : Ends (Pure.pure a) := ⟨a, rfl⟩

theorem bind {f : α → Resolution β} (hx : x.Ends) (hf : ∀ a, x = .ok a → (f a).Ends) :
    (x >>= f).Ends := by
  obtain ⟨a, rfl⟩ := hx
  exact hf a rfl

theorem map {f : α → β} (hx : x.Ends) : Ends (f <$> x) := by
  obtain ⟨a, rfl⟩ := hx
  exact ⟨f a, rfl⟩

theorem bindIn {Q : β → Prop} {f : α → Resolution β} (hx : x.Ends)
    (hf : ∀ a, x = .ok a → (f a).EndsIn Q) : (x >>= f).EndsIn Q := by
  obtain ⟨a, rfl⟩ := hx
  exact hf a rfl

end Ends

namespace EndsIn

variable {Q : α → Prop} {R : β → Prop}

theorem ok {a : α} (h : Q a) : EndsIn (.ok a) Q := ⟨a, rfl, h⟩

theorem pure {a : α} (h : Q a) : EndsIn (Pure.pure a) Q := ⟨a, rfl, h⟩

theorem ends (hx : x.EndsIn Q) : x.Ends := ⟨hx.choose, hx.choose_spec.1⟩

theorem bind {f : α → Resolution β} (hx : x.EndsIn Q) (hf : ∀ a, Q a → (f a).EndsIn R) :
    (x >>= f).EndsIn R := by
  obtain ⟨a, rfl, ha⟩ := hx
  exact hf a ha

end EndsIn

end Resolution

open Resolution (Ends EndsIn)

/-- A restart is answered: the visit ends one level deeper, under every environment. -/
def Answers (deeper : Deeper) (active : List String) : Visit → Prop
  | .collect node => ∀ env, Ends (deeper.constituents active env node)
  | .shape node => ∀ env, Ends (deeper.shape active [] env node)

/-- **Visits that end**: the visits they walk to and the aliases they expand are among them, the
restarts they ask for are answered, and their types are covered. -/
structure Ending (s : Scope) (deeper : Deeper) (P : List String → Visit → Prop) : Prop where
  walk : ∀ {active v v'}, P active v → v' ∈ s.contents.walks v → P active v'
  expand : ∀ {active name arguments d}, P active (.collect (.reference name arguments)) →
    s.contents.find? (splitHead name).1 = some (.alias d) → d.name ∉ active →
      P (d.name :: active) (.collect d.body)
  restart : ∀ {active v v'}, P active v → v' ∈ s.contents.restarts v →
    Answers deeper active v'
  covers : ∀ {active v}, P active v → s.contents.Covers v.node

variable {s : Scope} {deeper : Deeper} {P : List String → Visit → Prop}

theorem Ending.part (h : Ending s deeper P) {active : List String} {node part : TypeNode}
    (hp : P active (.collect node)) (hpart : part ∈ node.parts) : P active (.collect part) :=
  h.walk hp (List.mem_map_of_mem hpart)

/-! ## Walks end -/

theorem bind_ends {active : List String} {env : Env} {parameters : List TypeParameter}
    {arguments : List (List ResolvedType)}
    (h : ∀ v ∈ missingDefaults parameters arguments.length, Answers deeper active v) :
    Ends (bind deeper active env parameters arguments) := by
  induction parameters generalizing env arguments with
  | nil => rw [bind]; exact .ok _
  | cons p parameters ih =>
    cases arguments with
    | cons types arguments => rw [bind]; exact ih h
    | nil =>
      rw [bind]
      split
      · next hnone =>
        exact ih fun v hv => h v (by simpa [missingDefaults, defaults, hnone] using hv)
      · next type hdefault =>
        have htype : Answers deeper active (.collect type) :=
          h _ (by simp [missingDefaults, defaults, hdefault])
        refine (htype env).bind fun types _ => ih fun v hv => h v ?_
        simp only [missingDefaults, defaults, List.length_nil, List.drop_zero] at hv ⊢
        rw [List.filterMap_cons_some hdefault]
        exact List.mem_cons_of_mem _ hv

theorem length_argumentLists {active : List String} {env : Env} {nodes : List TypeNode}
    {lists : List (List ResolvedType)} (h : argumentLists s deeper active env nodes = .ok lists) :
    lists.length = nodes.length := by
  induction nodes generalizing lists with
  | nil =>
    rw [argumentLists] at h
    cases h
    rfl
  | cons node nodes ih =>
    rw [argumentLists] at h
    obtain ⟨types, -, h⟩ := Resolution.bind_eq_ok.1 h
    obtain ⟨others, hothers, h⟩ := Resolution.bind_eq_ok.1 h
    cases h
    rw [List.length_cons, List.length_cons, ih hothers]

theorem mem_restarts_expand {c : Contents} {name : String} {arguments : List TypeNode}
    {d : AliasDeclaration} {v : Visit} (hfound : c.find? (splitHead name).1 = some (.alias d))
    (hwhole : (splitHead name).2 = "") (hbody : namedBodyKind? d.body = none)
    (h : v ∈ missingDefaults d.parameters arguments.length) :
    v ∈ c.restarts (.collect (.reference name arguments)) := by
  simp only [Contents.restarts, hfound]
  rwa [if_pos ⟨hwhole, hbody⟩]

mutual

/-- **Expansion ends.** -/
theorem collect_ends (h : Ending s deeper P) {active : List String} {env : Env} {node : TypeNode}
    (hp : P active (.collect node)) : Ends (collect s deeper active env node) := by
  match node with
  | .union members =>
    rw [collect]
    exact collectAll_ends h fun m (hm : m ∈ members) => h.part hp hm
  | .reference name arguments =>
    have hargs : ∀ m ∈ arguments, P active (.collect m) := fun m hm => h.part hp hm
    have hlists : Ends (argumentLists s deeper active env arguments) := argumentLists_ends h hargs
    have heach : Ends (resolveEach s deeper active env arguments) := resolveEach_ends h hargs
    rw [collect]
    split
    · exact .ok _
    split
    · exact .ok _
    refine hlists.bind fun argumentTypes htypes => ?_
    extract_lets named continued
    have htail : ∀ elements, Ends (continued elements) := by
      intro elements
      simp only [continued]
      split
      · exact .pure _
      split
      · exact .pure _
      · exact .pure _
      · next d hfound =>
        split
        · exact .pure _
        next hwhole =>
        split
        · exact .pure _
        next hnew =>
        split
        · exact .pure _
        next hbody =>
        refine (bind_ends fun v hv => h.restart hp ?_).bind fun bound _ => ?_
        · rw [length_argumentLists htypes] at hv
          exact mem_restarts_expand hfound (not_not.1 hwhole) hbody hv
        · have := unvisited_cons_lt (Contents.mem_aliasNames_of_find? hfound) hnew
          exact collect_ends h (h.expand hp hfound hnew)
      · exact .pure _
    split
    · exact heach.bind fun elements _ => htail elements
    · exact htail []
  | .indexed object index =>
    exact nomatch (h.covers hp).unindexed _ (TypeNode.self_mem_subterms _)
  | .operator .keyof operand =>
    rw [collect]
    have hshape : Answers deeper active (.shape operand) := h.restart hp (List.mem_singleton_self _)
    refine (hshape env).bind fun properties _ => ?_
    split
    · exact .pure _
    · exact (resolve_ends h (h.part hp (List.mem_singleton_self _))).bind fun _ _ => .pure _
  | .operator .unique _ => rw [collect]; exact .ok _
  | .operator .readonly operand =>
    rw [collect]
    refine (resolve_ends h (h.part hp (List.mem_singleton_self _))).bind fun _ _ => ?_
    split <;> exact .pure _
  | .literal .string _ | .literal .template _ | .literal .number _ => rw [collect]; exact .ok _
  | .array element =>
    rw [collect]
    exact (resolve_ends h (h.part hp (List.mem_singleton_self _))).bind fun _ _ => .pure _
  | .intersection members =>
    rw [collect]
    exact (resolveEach_ends h fun m (hm : m ∈ members) => h.part hp hm).bind fun _ _ => .pure _
  | .tuple elements =>
    rw [collect]
    exact (elementTexts_ends h fun e he => h.part hp (List.mem_map_of_mem he)).bind
      fun _ _ => .pure _
  | .function parameters returns =>
    rw [collect]
    refine (parameterTexts_ends h fun p hmem => h.part hp ?_).bind fun _ _ => ?_
    · exact List.mem_append_left _ (List.mem_map_of_mem hmem)
    · exact (resolve_ends h (h.part hp (by simp [TypeNode.parts]))).bind fun _ _ => .pure _
  | .object members =>
    rw [collect]
    exact (memberTexts_ends h fun m hm t ht => h.part hp (List.mem_flatMap.2 ⟨m, hm, ht⟩)).bind
      fun _ _ => .pure _
  | .query name => rw [collect]; exact .ok _
  | .imported module name arguments =>
    rw [collect]
    exact (argumentLists_ends h fun m (hm : m ∈ arguments) => h.part hp hm).bind fun _ _ => .pure _
  | .raw text => rw [collect]; exact .ok _
termination_by (unvisited s.contents.aliasNames active, sizeOf node, 0)
decreasing_by all_goals simp_wf; simp only [Prod.lex_def, true_and]; omega

theorem collectAll_ends (h : Ending s deeper P) {active : List String} {env : Env}
    {nodes : List TypeNode} (hp : ∀ m ∈ nodes, P active (.collect m)) :
    Ends (collectAll s deeper active env nodes) := by
  match nodes with
  | [] => rw [collectAll]; exact .ok _
  | node :: nodes =>
    obtain ⟨hnode, hnodes⟩ := List.forall_mem_cons.1 hp
    rw [collectAll]
    exact (collect_ends h hnode).bind fun _ _ =>
      (collectAll_ends h hnodes).bind fun _ _ => .pure _
termination_by (unvisited s.contents.aliasNames active, sizeOf nodes, 0)
decreasing_by all_goals simp_wf; simp only [Prod.lex_def, true_and]; omega

theorem argumentLists_ends (h : Ending s deeper P) {active : List String} {env : Env}
    {nodes : List TypeNode} (hp : ∀ m ∈ nodes, P active (.collect m)) :
    Ends (argumentLists s deeper active env nodes) := by
  match nodes with
  | [] => rw [argumentLists]; exact .ok _
  | node :: nodes =>
    obtain ⟨hnode, hnodes⟩ := List.forall_mem_cons.1 hp
    rw [argumentLists]
    exact (collect_ends h hnode).bind fun _ _ =>
      (argumentLists_ends h hnodes).bind fun _ _ => .pure _
termination_by (unvisited s.contents.aliasNames active, sizeOf nodes, 0)
decreasing_by all_goals simp_wf; simp only [Prod.lex_def, true_and]; omega

theorem resolve_ends (h : Ending s deeper P) {active : List String} {env : Env} {node : TypeNode}
    (hp : P active (.collect node)) : Ends (resolve s deeper active env node) := by
  rw [resolve]
  refine (collect_ends h hp).bind fun types _ => ?_
  dsimp only
  split
  · refine (aliasText?_ends h hp).bind fun text _ => ?_
    split <;> exact .pure _
  · exact .pure _
termination_by (unvisited s.contents.aliasNames active, sizeOf node, 1)
decreasing_by all_goals simp only [Prod.lex_def, true_and]; omega

theorem aliasText?_ends (h : Ending s deeper P) {active : List String} {env : Env}
    {node : TypeNode} (hp : P active (.collect node)) :
    Ends (aliasText? s deeper active env node) := by
  match node with
  | .reference name arguments =>
    rw [aliasText?]
    split
    · split
      · exact .ok _
      · exact (argumentLists_ends h fun m (hm : m ∈ arguments) => h.part hp hm).bind
          fun _ _ => .pure _
    · exact .ok _
  | .imported .. | .literal .. | .union .. | .intersection .. | .array .. | .indexed .. | .tuple ..
  | .function .. | .operator .. | .query .. | .object .. | .raw .. =>
    rw [aliasText?]
    · exact .ok _
    · simp
termination_by (unvisited s.contents.aliasNames active, sizeOf node, 0)
decreasing_by all_goals simp_wf; simp only [Prod.lex_def, true_and]; omega

theorem resolveEach_ends (h : Ending s deeper P) {active : List String} {env : Env}
    {nodes : List TypeNode} (hp : ∀ m ∈ nodes, P active (.collect m)) :
    Ends (resolveEach s deeper active env nodes) := by
  match nodes with
  | [] => rw [resolveEach]; exact .ok _
  | node :: nodes =>
    obtain ⟨hnode, hnodes⟩ := List.forall_mem_cons.1 hp
    rw [resolveEach]
    exact (resolve_ends h hnode).bind fun _ _ =>
      (resolveEach_ends h hnodes).bind fun _ _ => .pure _
termination_by (unvisited s.contents.aliasNames active, sizeOf nodes, 0)
decreasing_by all_goals simp_wf; simp only [Prod.lex_def, true_and]; omega

theorem optionalTypeText_ends (h : Ending s deeper P) {active : List String} {env : Env}
    {type : Option TypeNode} (hp : ∀ t ∈ type.toList, P active (.collect t)) :
    Ends (optionalTypeText s deeper active env type) := by
  match type with
  | none => rw [optionalTypeText]; exact .ok _
  | some node =>
    rw [optionalTypeText]
    exact (resolve_ends h (hp node (List.mem_singleton_self _))).bind fun _ _ => .pure _
termination_by (unvisited s.contents.aliasNames active, sizeOf type, 0)
decreasing_by all_goals simp_wf; simp only [Prod.lex_def, true_and]; omega

theorem elementTexts_ends (h : Ending s deeper P) {active : List String} {env : Env}
    {elements : List TupleElement} (hp : ∀ e ∈ elements, P active (.collect e.type)) :
    Ends (elementTexts s deeper active env elements) := by
  match elements with
  | [] => rw [elementTexts]; exact .ok _
  | .plain node :: elements | .named _ _ node :: elements | .rest node :: elements =>
    obtain ⟨helement, helements⟩ := List.forall_mem_cons.1 hp
    change P active (.collect node) at helement
    rw [elementTexts]
    exact (resolve_ends h helement).bind fun _ _ =>
      (elementTexts_ends h helements).bind fun _ _ => .pure _
termination_by (unvisited s.contents.aliasNames active, sizeOf elements, 0)
decreasing_by all_goals simp_wf; simp only [Prod.lex_def, true_and]; omega

theorem parameterTexts_ends (h : Ending s deeper P) {active : List String} {env : Env}
    {parameters : List Parameter} (hp : ∀ p ∈ parameters, P active (.collect p.type)) :
    Ends (parameterTexts s deeper active env parameters) := by
  match parameters with
  | [] => rw [parameterTexts]; exact .ok _
  | .mk _ _ _ node :: parameters =>
    obtain ⟨hparameter, hparameters⟩ := List.forall_mem_cons.1 hp
    change P active (.collect node) at hparameter
    rw [parameterTexts]
    exact (resolve_ends h hparameter).bind fun _ _ =>
      (parameterTexts_ends h hparameters).bind fun _ _ => .pure _
termination_by (unvisited s.contents.aliasNames active, sizeOf parameters, 0)
decreasing_by all_goals simp_wf; simp only [Prod.lex_def, true_and]; omega

theorem memberTexts_ends (h : Ending s deeper P) {active : List String} {env : Env}
    {members : List Member} (hp : ∀ m ∈ members, ∀ t ∈ m.types, P active (.collect t)) :
    Ends (memberTexts s deeper active env members) := by
  match members with
  | [] => rw [memberTexts]; exact .ok _
  | .index key readonly keyType valueType :: members =>
    obtain ⟨hmember, hmembers⟩ := List.forall_mem_cons.1 hp
    rw [memberTexts]
    exact (resolve_ends h (hmember keyType (by simp [Member.types]))).bind fun _ _ =>
      (resolve_ends h (hmember valueType (by simp [Member.types]))).bind fun _ _ =>
        (memberTexts_ends h hmembers).bind fun _ _ => .pure _
  | .method name optional parameters returns :: members =>
    obtain ⟨hmember, hmembers⟩ := List.forall_mem_cons.1 hp
    rw [memberTexts]
    refine (parameterTexts_ends h fun p hmem => hmember _ ?_).bind fun _ _ => ?_
    · exact List.mem_append_left _ (List.mem_map_of_mem hmem)
    · exact (optionalTypeText_ends h fun t ht => hmember t (List.mem_append_right _ ht)).bind
        fun _ _ => (memberTexts_ends h hmembers).bind fun _ _ => .pure _
  | .property name optional readonly type :: members =>
    obtain ⟨hmember, hmembers⟩ := List.forall_mem_cons.1 hp
    rw [memberTexts]
    exact (memberTypes_ends h hmember).bind fun _ _ =>
      (memberTexts_ends h hmembers).bind fun _ _ => .pure _
termination_by (unvisited s.contents.aliasNames active, sizeOf members, 0)
decreasing_by all_goals simp_wf; simp only [Prod.lex_def, true_and]; omega

theorem memberTypes_ends (h : Ending s deeper P) {active : List String} {env : Env}
    {member : Member} (hp : ∀ t ∈ member.types, P active (.collect t)) :
    Ends (memberTypes s deeper active env member) := by
  match member with
  | .method name optional parameters returns =>
    rw [memberTypes]
    refine (parameterTexts_ends h fun p hmem => hp _ ?_).bind fun _ _ => ?_
    · exact List.mem_append_left _ (List.mem_map_of_mem hmem)
    · exact (optionalTypeText_ends h fun t ht => hp t (List.mem_append_right _ ht)).bind
        fun _ _ => .pure _
  | .property _ _ _ none => rw [memberTypes]; exact .ok _
  | .property _ _ _ (some node) =>
    rw [memberTypes]
    exact (collect_ends h (hp node (List.mem_singleton_self _))).bind fun _ _ => .pure _
  | .index _ _ _ _ => rw [memberTypes]; exact .ok _
termination_by (unvisited s.contents.aliasNames active, sizeOf member, 0)
decreasing_by all_goals simp_wf; simp only [Prod.lex_def, true_and]; omega

end

/-! ## Properties end -/

/-- **Properties with covered types.** -/
def Contents.CoversAll (c : Contents) (properties : List Property) : Prop :=
  ∀ p ∈ properties, ∀ t ∈ p.member.types, c.Covers t

theorem coversAll_ofMembers {c : Contents} {env : Env} {members : List Member}
    (h : ∀ m ∈ members, ∀ t ∈ m.types, c.Covers t) :
    c.CoversAll (Property.ofMembers env members) := by
  intro p hp
  obtain ⟨m, hm, hname⟩ := List.mem_filterMap.1 hp
  obtain ⟨name, -, rfl⟩ := Option.map_eq_some_iff.1 hname
  exact h m hm

theorem coversAll_mergeShape {c : Contents} {properties more : List Property}
    (h : c.CoversAll properties) (hmore : c.CoversAll more) :
    c.CoversAll (mergeShape properties more) := by
  induction more generalizing properties with
  | nil => exact h
  | cons p more ih =>
    obtain ⟨hp, hmore⟩ := List.forall_mem_cons.1 hmore
    rw [mergeShape]
    split
    · exact ih h hmore
    · exact ih (List.forall_mem_append.2 ⟨h, List.forall_mem_singleton.2 hp⟩) hmore

theorem mem_restarts_list {c : Contents} {name : String} {arguments : List TypeNode} {v : Visit}
    {parameters : List TypeParameter}
    (hfound : (∃ d, c.find? name = some (.alias d) ∧ d.parameters = parameters) ∨
      ∃ d, c.find? name = some (.interface d) ∧ d.parameters = parameters)
    (h : v ∈ missingDefaults parameters arguments.length) :
    v ∈ c.restarts (.shape (.reference name arguments)) := by
  obtain ⟨d, hd, rfl⟩ | ⟨d, hd, rfl⟩ := hfound <;> simpa only [Contents.restarts, hd] using h

mutual

/-- **Listing properties ends**, with properties of covered types. -/
theorem shape_ends (h : Ending s deeper P) (hc : s.contents.Unindexed) {active seen : List String}
    {env : Env} {node : TypeNode} (hp : P active (.shape node)) :
    (shape s deeper active seen env node).EndsIn fun r =>
      ∀ properties ∈ r, s.contents.CoversAll properties := by
  match node with
  | .object members =>
    rw [shape]
    refine .ok fun properties hmem => ?_
    cases hmem
    refine coversAll_ofMembers fun m hm t ht => ?_
    exact (h.covers hp).part (List.mem_flatMap.2 ⟨m, hm, ht⟩)
  | .intersection members =>
    have hmembers : ∀ m ∈ members, P active (.shape m) := fun m hm =>
      h.walk hp (List.mem_map_of_mem hm)
    rw [shape]
    refine (mergedShapes_ends h hc (List.forall_mem_nil _) hmembers).bind fun properties hps => ?_
    exact .pure fun _ hmem => by cases hmem; exact hps
  | .reference name arguments =>
    have harguments : ∀ m ∈ arguments, P active (.collect m) := fun m hm =>
      h.walk hp (List.mem_append_left _ (List.mem_map_of_mem hm))
    have hlists : Ends (argumentLists s deeper active env arguments) :=
      argumentLists_ends h harguments
    rw [shape]
    split
    · exact .ok fun _ hmem => nomatch hmem
    split
    · exact .ok fun _ hmem => nomatch hmem
    · exact .ok fun _ hmem => nomatch hmem
    · next d hfound =>
      split
      · exact .ok fun _ hmem => nomatch hmem
      next hnew =>
      have := unvisited_cons_lt (Contents.mem_structuralNames_of_find?_interface hfound) hnew
      have hd := Contents.mem_interfaces_of_find? hfound
      have hheritage : ∀ m ∈ d.heritage, P active (.shape m) := fun m hm =>
        h.walk hp (List.mem_append_right _ (by simpa [hfound] using hm))
      refine hlists.bindIn fun types htypes => ?_
      refine (bind_ends fun v hv => h.restart hp ?_).bindIn fun bound _ => ?_
      · rw [length_argumentLists htypes] at hv
        exact mem_restarts_list (.inr ⟨d, hfound, rfl⟩) hv
      refine (mergedShapes_ends h hc (coversAll_ofMembers fun m hm t ht => ?_)
        hheritage).bind fun properties hps => ?_
      · exact Contents.covers_of_mem_types hc (Contents.member_mem_types hd hm ht)
      · exact .pure fun _ hmem => by cases hmem; exact hps
    · next d hfound =>
      split
      · exact .ok fun _ hmem => nomatch hmem
      next hnew =>
      have := unvisited_cons_lt (Contents.mem_structuralNames_of_find?_alias hfound) hnew
      have hbody : P active (.shape d.body) :=
        h.walk hp (List.mem_append_right _ (by simp [hfound]))
      refine hlists.bindIn fun types htypes => ?_
      refine (bind_ends fun v hv => h.restart hp ?_).bindIn fun bound _ => ?_
      · rw [length_argumentLists htypes] at hv
        exact mem_restarts_list (.inl ⟨d, hfound, rfl⟩) hv
      exact shape_ends h hc hbody
  | .indexed object index =>
    exact nomatch (h.covers hp).unindexed _ (TypeNode.self_mem_subterms _)
  | .imported .. | .literal .. | .union .. | .array .. | .tuple .. | .function ..
  | .operator .. | .query .. | .raw .. =>
    rw [shape]
    · exact .ok fun _ hmem => nomatch hmem
    all_goals simp
termination_by (unvisited s.contents.structuralNames seen, sizeOf node)
decreasing_by all_goals simp_wf; simp only [Prod.lex_def, true_and]; omega

/-- Listing the properties of several types ends. -/
theorem mergedShapes_ends (h : Ending s deeper P) (hc : s.contents.Unindexed)
    {active seen : List String} {env : Env} {properties : List Property} {nodes : List TypeNode}
    (hproperties : s.contents.CoversAll properties) (hp : ∀ m ∈ nodes, P active (.shape m)) :
    (mergedShapes s deeper active seen env properties nodes).EndsIn s.contents.CoversAll := by
  match nodes with
  | [] => rw [mergedShapes]; exact .ok hproperties
  | node :: nodes =>
    obtain ⟨hnode, hnodes⟩ := List.forall_mem_cons.1 hp
    rw [mergedShapes]
    refine (shape_ends h hc hnode).bind fun more hmore => ?_
    refine mergedShapes_ends h hc (coversAll_mergeShape hproperties ?_) hnodes
    cases more with
    | none => exact List.forall_mem_nil _
    | some more => exact hmore more rfl
termination_by (unvisited s.contents.structuralNames seen, sizeOf nodes)
decreasing_by all_goals simp_wf; simp only [Prod.lex_def, true_and]; omega

end

end FluentBuilders
