import FluentBuilders.Proofs.Resolve.Invariant
import FluentBuilders.Resolve.Extraction

/-!
# Proofs/Resolve/Fields — what holds of the types of all fields

The properties of an extracted declaration come from the types of the file, so an invariant of
resolution holds of the constituents of every field (`Invariant.shown_extractAlias`,
`Invariant.shown_extractInterface`).
-/

namespace FluentBuilders

/-- What is gathered comes from one of the things it is gathered from. -/
theorem Resolution.exists_of_mem_mapM {α β : Type} {f : α → Resolution β} {xs : List α} {ys : List β}
    (h : xs.mapM f = .ok ys) : ∀ y ∈ ys, ∃ x ∈ xs, f x = .ok y := by
  induction xs generalizing ys with
  | nil =>
    cases h
    exact List.forall_mem_nil _
  | cons x xs ih =>
    rw [List.mapM_cons] at h
    obtain ⟨y, hy, h⟩ := Resolution.bind_eq_ok.1 h
    obtain ⟨others, hothers, h⟩ := Resolution.bind_eq_ok.1 h
    cases h
    refine List.forall_mem_cons.2 ⟨⟨x, List.mem_cons_self, hy⟩, fun z hz => ?_⟩
    obtain ⟨w, hw, hz⟩ := ih hothers z hz
    exact ⟨w, List.mem_cons_of_mem _ hw, hz⟩

namespace Invariant

variable {s : Scope} {I : Invariant s} {deeper : Deeper}

/-- **A part of a union** that is written as it should be, or text that stands for a constituent. -/
def IsPart (I : Invariant s) (p : TypeNode × Env) : Prop :=
  (I.Node p.1 ∧ I.Binds p.2) ∨ ∃ text, p.1 = .raw text

mutual

theorem isPart_unionParts (hd : I.Keeps deeper) {seen : List String} {env : Env} {node : TypeNode}
    {parts : List (TypeNode × Env)} (hnode : I.Node node) (henv : I.Binds env)
    (h : unionParts s deeper seen env node = .ok parts) : ∀ p ∈ parts, I.IsPart p := by
  match node with
  | .union members =>
    rw [unionParts] at h
    exact isPart_unionPartsAll hd (fun m (hm : m ∈ members) => I.node_part hnode hm) henv h
  | .reference name arguments =>
    have hself : ∀ p ∈ [(TypeNode.reference name arguments, env)], I.IsPart p :=
      List.forall_mem_singleton.2 (.inl ⟨hnode, henv⟩)
    rw [unionParts] at h
    split at h
    · cases h
      exact List.forall_mem_cons.2 ⟨.inl ⟨I.node_values.1, henv⟩,
        List.forall_mem_singleton.2 (.inl ⟨I.node_values.2, henv⟩)⟩
    split at h
    · split at h
      · cases h
        exact List.forall_mem_map.2 fun t _ => .inr ⟨t.text, rfl⟩
      · cases h
        exact hself
    split at h
    · next d hfound =>
      split at h
      · cases h
        exact hself
      next hnew =>
      split at h
      · have := unvisited_cons_lt (Contents.mem_structuralNames_of_find?_alias hfound) hnew
        obtain ⟨lists, hlists, h⟩ := Resolution.bind_eq_ok.1 h
        obtain ⟨bound, hbound, h⟩ := Resolution.bind_eq_ok.1 h
        have hbinds : I.Binds bound := binds_bind hd (node_defaults_alias hfound)
          (shown_argumentLists hd (fun m hm => I.node_part hnode hm) henv hlists)
          (List.forall_mem_nil _) hbound
        exact isPart_unionParts hd (node_body hfound) hbinds h
      · cases h
        exact hself
    · cases h
      exact hself
  | .imported .. | .literal .. | .intersection .. | .array .. | .indexed .. | .tuple ..
  | .function .. | .operator .. | .query .. | .object .. | .raw .. =>
    rw [unionParts] at h
    · cases h
      exact List.forall_mem_singleton.2 (.inl ⟨hnode, henv⟩)
    all_goals simp
termination_by (unvisited s.contents.structuralNames seen, sizeOf node)
decreasing_by all_goals simp_wf; simp only [Prod.lex_def, true_and]; omega

theorem isPart_unionPartsAll (hd : I.Keeps deeper) {seen : List String} {env : Env}
    {nodes : List TypeNode} {parts : List (TypeNode × Env)} (hnodes : ∀ node ∈ nodes, I.Node node)
    (henv : I.Binds env) (h : unionPartsAll s deeper seen env nodes = .ok parts) :
    ∀ p ∈ parts, I.IsPart p := by
  match nodes with
  | [] =>
    rw [unionPartsAll] at h
    cases h
    exact List.forall_mem_nil _
  | node :: nodes =>
    obtain ⟨hnode, hnodes⟩ := List.forall_mem_cons.1 hnodes
    rw [unionPartsAll] at h
    obtain ⟨first, hfirst, h⟩ := Resolution.bind_eq_ok.1 h
    obtain ⟨others, hothers, h⟩ := Resolution.bind_eq_ok.1 h
    cases h
    exact List.forall_mem_append.2
      ⟨isPart_unionParts hd hnode henv hfirst, isPart_unionPartsAll hd hnodes henv hothers⟩
termination_by (unvisited s.contents.structuralNames seen, sizeOf nodes)
decreasing_by all_goals simp_wf; simp only [Prod.lex_def, true_and]; omega

end

/-- Text that stands for a constituent lists no properties. -/
theorem lists_partShapes (hd : I.Keeps deeper) {seen : List String} {parts : List (TypeNode × Env)}
    {shapes : List (Option (List Property))} (hparts : ∀ p ∈ parts, I.IsPart p)
    (h : partShapes s deeper seen parts = .ok shapes) :
    ∀ properties, some properties ∈ shapes → I.Lists properties := by
  intro properties hmem
  obtain ⟨⟨node, env⟩, hp, hshape⟩ := exists_of_mem_partShapes h hmem
  rcases hparts _ hp with ⟨hnode, henv⟩ | ⟨text, rfl⟩
  · exact lists_shape hd hnode henv hshape
  · rw [shape] at hshape
    · cases hshape
    all_goals simp

theorem lists_commonShape {shapes : List (Option (List Property))}
    (h : ∀ properties, some properties ∈ shapes → I.Lists properties) :
    I.Lists (commonShape shapes) := by
  unfold commonShape
  split
  · exact List.forall_mem_nil _
  split
  · next first others _ =>
    exact fun p hp => h first List.mem_cons_self p (List.mem_of_mem_filter hp)
  · exact List.forall_mem_nil _

variable {properties : List Property} {fields : List Field} {isUnion : Bool}

theorem lists_aliasProperties {d : AliasDeclaration} (hd : d ∈ s.contents.aliases)
    (henv : I.Binds (parameterEnv d.parameters))
    (h : aliasProperties s s.steps d = .ok (properties, isUnion)) : I.Lists properties := by
  have hbody : I.Node d.body := I.node_types _ (Contents.body_mem_types hd)
  rw [aliasProperties] at h
  obtain ⟨parts, hparts, h⟩ := Resolution.bind_eq_ok.1 h
  split at h
  · obtain ⟨shapes, hshapes, h⟩ := Resolution.bind_eq_ok.1 h
    cases h
    exact lists_commonShape
      (lists_partShapes keeps_steps (isPart_unionParts keeps_steps hbody henv hparts) hshapes)
  · obtain ⟨listed, hlisted, h⟩ := Resolution.bind_eq_ok.1 h
    cases h
    cases listed with
    | none => exact List.forall_mem_nil _
    | some listed => exact lists_shape keeps_steps hbody henv hlisted

theorem lists_interfaceShape {d : InterfaceDeclaration} (hd : d ∈ s.contents.interfaces)
    (henv : I.Binds (parameterEnv d.parameters))
    (h : interfaceShape s s.steps [] [d.name] (parameterEnv d.parameters) d = .ok properties) :
    I.Lists properties :=
  lists_mergedShapes keeps_steps
    (lists_ofMembers (fun _ hm => I.node_member (I.node_members d hd) hm) henv)
    (fun base hbase => I.node_types base (Contents.heritage_mem_types hd hbase)) henv h

theorem shown_fieldsOf (hproperties : I.Lists properties)
    (h : fieldsOf s s.steps properties = .ok fields) : ∀ f ∈ fields, I.AllShown f.types := by
  induction properties generalizing fields with
  | nil =>
    rw [fieldsOf] at h
    cases h
    exact List.forall_mem_nil _
  | cons p properties ih =>
    obtain ⟨⟨hmember, henv⟩, hrest⟩ := List.forall_mem_cons.1 hproperties
    rw [fieldsOf] at h
    obtain ⟨field, hfield, h⟩ := Resolution.bind_eq_ok.1 h
    obtain ⟨others, hothers, h⟩ := Resolution.bind_eq_ok.1 h
    cases h
    refine List.forall_mem_cons.2 ⟨?_, ih hrest hothers⟩
    obtain ⟨types, htypes, hfield⟩ := Resolution.bind_eq_ok.1 hfield
    cases hfield
    exact shown_memberTypes keeps_steps hmember henv htypes

/-- **The constituents of every field of an alias are shown.** -/
theorem shown_extractAlias {a : AliasDeclaration} {d : StructuralDeclaration}
    (ha : a ∈ s.contents.aliases) (henv : I.Binds (parameterEnv a.parameters))
    (h : extractAlias s a = .ok d) : ∀ f ∈ d.fields, I.AllShown f.types := by
  obtain ⟨⟨properties, isUnion⟩, hlisted, h⟩ := Resolution.bind_eq_ok.1 h
  obtain ⟨fields, hfields, h⟩ := Resolution.bind_eq_ok.1 h
  have hd : d.fields = fields := by
    dsimp only at h
    split at h
    · obtain ⟨members, -, h⟩ := Resolution.bind_eq_ok.1 h
      cases h
      rfl
    · cases h
      rfl
  rw [hd]
  exact shown_fieldsOf (lists_aliasProperties ha henv hlisted) hfields

/-- **So are those of an interface.** -/
theorem shown_extractInterface {i : InterfaceDeclaration} {d : StructuralDeclaration}
    (hi : i ∈ s.contents.interfaces) (henv : I.Binds (parameterEnv i.parameters))
    (h : extractInterface s i = .ok d) : ∀ f ∈ d.fields, I.AllShown f.types := by
  obtain ⟨properties, hlisted, h⟩ := Resolution.bind_eq_ok.1 h
  obtain ⟨fields, hfields, h⟩ := Resolution.bind_eq_ok.1 h
  cases h
  exact shown_fieldsOf (lists_interfaceShape hi henv hlisted) hfields

end Invariant

end FluentBuilders
