import FluentBuilders.Proofs.Resolve.Listing
import FluentBuilders.Proofs.Resolve.Visits

/-!
# Proofs/Resolve/Dependence — what the result for a declaration depends on

Resolution asks a file for nothing but the declarations of names, and for no names but those it is
led to: the names that a type refers to, and those that their declarations refer to.  So two files
that declare the same under these names (`Contents.Agree`) resolve alike, step by step, whatever else
they declare and in whatever order.
-/

namespace FluentBuilders

/-! ## Names that are referred to -/

/-- The names that a reference asks for: its own, and the part before the first dot. -/
def TypeNode.ownReferences : TypeNode → List String
  | .reference name _ => [name, (splitHead name).1]
  | _ => []

/-- **The names a type refers to**, at any depth. -/
def TypeNode.references (node : TypeNode) : List String :=
  node.subterms.flatMap TypeNode.ownReferences

namespace Declaration

/-- The types that are read of a declaration; what bounds a type parameter is not among them. -/
def types : Declaration → List TypeNode
  | .alias d => d.body :: defaults d.parameters
  | .interface d => defaults d.parameters ++ d.heritage ++ d.members.flatMap Member.types
  | .enum _ => []

/-- **The names a declaration refers to.** -/
def references (d : Declaration) : List String := d.types.flatMap TypeNode.references

/-- **A declaration wherever it stands**: its line is left out. -/
def unplaced : Declaration → Declaration
  | .alias d => .alias { d with line := 0 }
  | .interface d => .interface { d with line := 0 }
  | .enum d => .enum { d with line := 0 }

end Declaration

/-- **A type that refers to names of a kind.** -/
def TypeNode.RefersTo (P : String → Prop) (node : TypeNode) : Prop :=
  ∀ name ∈ node.references, P name

/-- **Files that agree**: they have the same imports and declare the same under names of a kind, and
the declarations of these refer to no others. -/
structure Contents.Agree (c c' : Contents) (P : String → Prop) : Prop where
  imports : c'.imports = c.imports
  same : ∀ name, P name →
    (c'.find? name).map Declaration.unplaced = (c.find? name).map Declaration.unplaced
  closed : ∀ name d, P name → c.find? name = some d → ∀ n ∈ d.references, P n

variable {s : Scope} {c : Contents} {P : String → Prop} {deeper deeper' : Deeper}
  {active seen : List String} {env : Env} {node : TypeNode} {name : String}

theorem TypeNode.RefersTo.part {part : TypeNode} (h : node.RefersTo P) (hpart : part ∈ node.parts) :
    part.RefersTo P := by
  intro name hname
  obtain ⟨t, ht, hname⟩ := List.mem_flatMap.1 hname
  exact h name (List.mem_flatMap.2 ⟨t, TypeNode.subterms_subset hpart ht, hname⟩)

theorem TypeNode.RefersTo.names {arguments : List TypeNode}
    (h : (TypeNode.reference name arguments).RefersTo P) : P name ∧ P (splitHead name).1 := by
  have hown : ∀ n ∈ [name, (splitHead name).1], P n := fun n hn =>
    h n (List.mem_flatMap.2 ⟨_, TypeNode.self_mem_subterms _, hn⟩)
  exact ⟨hown _ (.head _), hown _ (.tail _ (.head _))⟩

namespace Contents.Agree

theorem refersTo {c₀ : Contents} (h : c₀.Agree c P) {d : Declaration} (hname : P name)
    (hfound : c₀.find? name = some d) (hnode : node ∈ d.types) : node.RefersTo P :=
  fun n hn => h.closed name d hname hfound n (List.mem_flatMap.2 ⟨node, hnode, hn⟩)

/-- **The declarations of a name in both files**: none, or two that differ in their lines. -/
theorem find?_cases {c₀ : Contents} (h : c₀.Agree c P) (hname : P name) :
    (c₀.find? name = none ∧ c.find? name = none) ∨
      (∃ d line, c₀.find? name = some (.enum d) ∧ c.find? name = some (.enum { d with line })) ∨
      (∃ d line, c₀.find? name = some (.interface d) ∧
        c.find? name = some (.interface { d with line })) ∨
      ∃ d line, c₀.find? name = some (.alias d) ∧ c.find? name = some (.alias { d with line }) := by
  have hsame := h.same name hname
  cases hfound : c₀.find? name with
  | none =>
    rw [hfound, Option.map_none, Option.map_eq_none_iff] at hsame
    exact .inl ⟨rfl, hsame⟩
  | some d =>
    rw [hfound, Option.map_some, Option.map_eq_some_iff] at hsame
    obtain ⟨d', hfound', heq⟩ := hsame
    rw [hfound']
    obtain d | d | d := d <;> obtain d' | d' | d' := d' <;> cases d <;> cases d' <;>
      simp only [Declaration.unplaced, Declaration.alias.injEq, Declaration.interface.injEq,
        Declaration.enum.injEq, AliasDeclaration.mk.injEq, InterfaceDeclaration.mk.injEq,
        EnumDeclaration.mk.injEq, and_true, reduceCtorEq] at heq <;> grind

end Contents.Agree

/-- A scope with other contents. -/
def Scope.withContents (s : Scope) (c : Contents) : Scope := { s with contents := c }

@[simp] theorem Scope.contents_withContents : (s.withContents c).contents = c := rfl

@[simp] theorem Scope.ownName_withContents (name : String) :
    (s.withContents c).ownName name = s.ownName name := rfl

theorem closed_refersTo (h : s.contents.Agree c P) : s.Closed (TypeNode.RefersTo P) where
  part h hpart := h.part hpart
  body hnode hfound := h.refersTo hnode.names.1 hfound List.mem_cons_self
  heritage hnode hfound hbase := h.refersTo hnode.names.1 hfound
    (List.mem_append_left _ (List.mem_append_right _ hbase))
  member hnode hfound hm htype := h.refersTo hnode.names.1 hfound
    (List.mem_append_right _ (List.mem_flatMap.2 ⟨_, hm, htype⟩))

theorem foreignName_withContents (h : s.contents.Agree c P) (name : String) :
    (s.withContents c).foreignName name = s.foreignName name := by
  have hnamespace : ∀ n, c.namespaceModule? n = s.contents.namespaceModule? n := fun n => by
    rw [Contents.namespaceModule?, Contents.namespaceModule?, h.imports]
  have himported : ∀ n, c.imported? n = s.contents.imported? n := fun n => by
    rw [Contents.imported?, Contents.imported?, h.imports]
  simp only [Scope.foreignName, Scope.withContents, hnamespace, himported]
  rfl

/-! ## Expansion -/

/-- **Steps that agree** one level deeper, for types of a kind. -/
structure Deeper.Agree (deeper deeper' : Deeper) (Q : TypeNode → Prop) : Prop where
  constituents : ∀ active env node, Q node →
    deeper'.constituents active env node = deeper.constituents active env node
  memberTypes : ∀ active env m, (∀ type ∈ m.types, Q type) →
    deeper'.memberTypes active env m = deeper.memberTypes active env m
  shape : ∀ active seen env node, Q node →
    deeper'.shape active seen env node = deeper.shape active seen env node
  keeps : deeper.Keeps Q

theorem bind_agree {Q : TypeNode → Prop} (hd : deeper.Agree deeper' Q)
    {parameters : List TypeParameter} (h : ∀ node ∈ defaults parameters, Q node) {env : Env}
    {arguments : List (List ResolvedType)} :
    bind deeper' active env parameters arguments = bind deeper active env parameters arguments := by
  induction parameters generalizing env arguments with
  | nil => rw [bind, bind]
  | cons p parameters ih =>
    have hrest : ∀ node ∈ defaults parameters, Q node := fun node hnode =>
      h node (((List.sublist_cons_self p parameters).filterMap _).subset hnode)
    cases arguments with
    | cons types arguments => rw [bind, bind, ih hrest]
    | nil =>
      rw [bind, bind]
      split
      · exact ih hrest
      · next type hdefault =>
        have htype : Q type := h type (List.mem_filterMap.2 ⟨p, List.mem_cons_self, hdefault⟩)
        rw [hd.constituents _ _ _ htype]
        exact bind_congr fun types => ih hrest

theorem indexedProperty?_agree {Q : TypeNode → Prop} (hd : deeper.Agree deeper' Q) {o i : TypeNode}
    (ho : Q o) :
    indexedProperty? deeper' active env o i = indexedProperty? deeper active env o i := by
  unfold indexedProperty?
  rw [hd.shape _ _ _ _ ho]

/-- A step is followed by the same whatever it gives. -/
theorem Resolution.bind_congr_of_ok {α β : Type} {x : Resolution α} {f g : α → Resolution β}
    (h : ∀ a, x = .ok a → f a = g a) : x >>= f = x >>= g := by
  cases x with
  | error e => rfl
  | ok a => exact h a rfl

/-- **What a name stands for** that is no parameter and no intrinsic type. -/
def namedTypes (s : Scope) (deeper : Deeper) (active : List String) (name : String)
    (arguments : List (List ResolvedType)) : Resolution (List ResolvedType) :=
  let named := argumentsText arguments
  match s.contents.find? (splitHead name).1 with
  | some (.enum _) =>
    return [.plain (s.ownName name) (if (splitHead name).2 = "" then .enum else .literal)]
  | some (.interface _) => return [.plain (s.ownName name ++ named) .object]
  | some (.alias d) =>
    if (splitHead name).2 ≠ "" then return [.plain (s.ownName name ++ named) .object]
    else if d.name ∈ active then return [.plain (s.ownName d.name) .raw]
    else
      match namedBodyKind? d.body with
      | some kind => return [.plain (s.ownName d.name ++ named) kind]
      | none => do
        let bound ← bind deeper active [] d.parameters arguments
        collect s deeper (d.name :: active) bound d.body
  | none => return [.plain (s.foreignName name ++ named) .object]

/-- **What a reference collects.** -/
theorem collect_reference (name : String) (arguments : List TypeNode) :
    collect s deeper active env (.reference name arguments) =
      (match if arguments.isEmpty then env.lookup name else none with
      | some types => .ok types
      | none =>
        match ResolvedType.intrinsics.lookup name with
        | some types => .ok types
        | none => do
          let argumentTypes ← argumentLists s deeper active env arguments
          let elements ←
            if (name = "Array" ∨ name = "ReadonlyArray") ∧ (s.contents.find? name).isNone then
              resolveEach s deeper active env arguments
            else pure []
          match elements with
          | [element] => return [if name = "Array" then .array element else .readonlyArray element]
          | _ => namedTypes s deeper active name argumentTypes) := by
  rw [collect]
  cases hbound : (if arguments.isEmpty then env.lookup name else none) with
  | some types => rfl
  | none =>
  cases hplain : ResolvedType.intrinsics.lookup name with
  | some types => rfl
  | none =>
  refine bind_congr fun argumentTypes => ?_
  extract_lets named continued continued'
  have hcontinued : continued = continued' := by
    funext elements
    simp only [continued, continued', named, namedTypes]
    split
    · rfl
    · split
      · next heq => simp only [heq]
      · next heq => simp only [heq]
      · next d heq =>
        simp only [heq]
        split
        · rfl
        · split <;> rfl
      · next heq => simp only [heq]
  rw [hcontinued]

mutual

/-- **Expansion agrees.** -/
theorem collect_agree (h : s.contents.Agree c P) (hd : deeper.Agree deeper' (TypeNode.RefersTo P))
    {active : List String} {env : Env} {node : TypeNode} (hnode : node.RefersTo P) :
    collect (s.withContents c) deeper' active env node = collect s deeper active env node := by
  match node with
  | .union members =>
    rw [collect, collect]
    exact collectAll_agree h hd fun m (hm : m ∈ members) => hnode.part hm
  | .reference name arguments =>
    have harguments : ∀ m ∈ arguments, m.RefersTo P := fun m hm => hnode.part hm
    obtain ⟨hname, hhead⟩ := hnode.names
    have hnone : (c.find? name).isNone = (s.contents.find? name).isNone := by
      rcases h.find?_cases hname with ⟨h₁, h₂⟩ | ⟨_, _, h₁, h₂⟩ | ⟨_, _, h₁, h₂⟩ | ⟨_, _, h₁, h₂⟩ <;>
        rw [h₁, h₂] <;> rfl
    have hnamed : ∀ types, namedTypes (s.withContents c) deeper' active name types =
        namedTypes s deeper active name types := by
      intro types
      have hforeign := foreignName_withContents h name
      unfold namedTypes
      rcases h.find?_cases hhead with ⟨h₁, h₂⟩ | ⟨_, _, h₁, h₂⟩ | ⟨_, _, h₁, h₂⟩ | ⟨d, line, h₁, h₂⟩
      · simp only [Scope.contents_withContents, h₁, h₂, hforeign]
      · simp only [Scope.contents_withContents, Scope.ownName_withContents, h₁, h₂]
      · simp only [Scope.contents_withContents, Scope.ownName_withContents, h₁, h₂]
      · simp only [Scope.contents_withContents, Scope.ownName_withContents, h₁, h₂]
        split
        · rfl
        split
        · rfl
        next hnew =>
        split
        · rfl
        have := unvisited_cons_lt (Contents.mem_aliasNames_of_find? h₁) hnew
        rw [bind_agree hd fun node hmem => h.refersTo hhead h₁ (List.mem_cons_of_mem _ hmem)]
        exact bind_congr fun bound => collect_agree h hd (h.refersTo hhead h₁ List.mem_cons_self)
    rw [collect_reference, collect_reference, argumentLists_agree h hd harguments,
      resolveEach_agree h hd harguments]
    simp only [hnamed, Scope.contents_withContents, hnone]
  | .indexed o i =>
    have ho : o.RefersTo P := hnode.part (.head _)
    have hi : i.RefersTo P := hnode.part (.tail _ (.head _))
    rw [collect, collect, indexedProperty?_agree hd ho, resolve_agree h hd ho, resolve_agree h hd hi]
    refine Resolution.bind_congr_of_ok fun looked hlooked => ?_
    cases looked with
    | none => rfl
    | some p => exact hd.memberTypes _ _ _ (indexedProperty?_within hd.keeps ho hlooked)
  | .operator .keyof operand =>
    have hoperand : operand.RefersTo P := hnode.part (.head _)
    rw [collect, collect, hd.shape _ _ _ _ hoperand, resolve_agree h hd hoperand]
  | .operator .unique _ => rw [collect, collect]
  | .operator .readonly operand =>
    rw [collect, collect, resolve_agree h hd (hnode.part (.head _))]
  | .literal .string _ | .literal .template _ | .literal .number _ => rw [collect, collect]
  | .array element => rw [collect, collect, resolve_agree h hd (hnode.part (.head _))]
  | .intersection members =>
    rw [collect, collect, resolveEach_agree h hd fun m (hm : m ∈ members) => hnode.part hm]
  | .tuple elements =>
    rw [collect, collect,
      elementTexts_agree h hd fun e he => hnode.part (List.mem_map_of_mem he)]
  | .function parameters returns =>
    have hreturns : returns.RefersTo P := hnode.part (by simp [TypeNode.parts])
    rw [collect, collect, resolve_agree h hd hreturns, parameterTexts_agree h hd fun p hp =>
      hnode.part (List.mem_append_left _ (List.mem_map_of_mem hp))]
  | .object members =>
    rw [collect, collect, memberTexts_agree h hd fun m hm type htype =>
      hnode.part (List.mem_flatMap.2 ⟨m, hm, htype⟩)]
  | .query name => rw [collect, collect]
  | .imported module name arguments =>
    rw [collect, collect, argumentLists_agree h hd fun m (hm : m ∈ arguments) => hnode.part hm]
    rfl
  | .raw text => rw [collect, collect]
termination_by (unvisited s.contents.aliasNames active, sizeOf node, 0)
decreasing_by all_goals simp_wf; simp only [Prod.lex_def, true_and]; omega

theorem collectAll_agree (h : s.contents.Agree c P)
    (hd : deeper.Agree deeper' (TypeNode.RefersTo P)) {active : List String} {env : Env}
    {nodes : List TypeNode} (hnodes : ∀ node ∈ nodes, node.RefersTo P) :
    collectAll (s.withContents c) deeper' active env nodes =
      collectAll s deeper active env nodes := by
  match nodes with
  | [] => rw [collectAll, collectAll]
  | node :: nodes =>
    obtain ⟨hnode, hnodes⟩ := List.forall_mem_cons.1 hnodes
    rw [collectAll, collectAll, collect_agree h hd hnode, collectAll_agree h hd hnodes]
termination_by (unvisited s.contents.aliasNames active, sizeOf nodes, 0)
decreasing_by all_goals simp_wf; simp only [Prod.lex_def, true_and]; omega

theorem argumentLists_agree (h : s.contents.Agree c P)
    (hd : deeper.Agree deeper' (TypeNode.RefersTo P)) {active : List String} {env : Env}
    {nodes : List TypeNode} (hnodes : ∀ node ∈ nodes, node.RefersTo P) :
    argumentLists (s.withContents c) deeper' active env nodes =
      argumentLists s deeper active env nodes := by
  match nodes with
  | [] => rw [argumentLists, argumentLists]
  | node :: nodes =>
    obtain ⟨hnode, hnodes⟩ := List.forall_mem_cons.1 hnodes
    rw [argumentLists, argumentLists, collect_agree h hd hnode, argumentLists_agree h hd hnodes]
    rfl
termination_by (unvisited s.contents.aliasNames active, sizeOf nodes, 0)
decreasing_by all_goals simp_wf; simp only [Prod.lex_def, true_and]; omega

theorem resolve_agree (h : s.contents.Agree c P) (hd : deeper.Agree deeper' (TypeNode.RefersTo P))
    {active : List String} {env : Env} {node : TypeNode} (hnode : node.RefersTo P) :
    resolve (s.withContents c) deeper' active env node = resolve s deeper active env node := by
  rw [resolve, resolve, collect_agree h hd hnode, aliasText?_agree h hd hnode]
  rfl
termination_by (unvisited s.contents.aliasNames active, sizeOf node, 1)
decreasing_by all_goals simp only [Prod.lex_def, true_and]; omega

theorem aliasText?_agree (h : s.contents.Agree c P)
    (hd : deeper.Agree deeper' (TypeNode.RefersTo P)) {active : List String} {env : Env}
    {node : TypeNode} (hnode : node.RefersTo P) :
    aliasText? (s.withContents c) deeper' active env node =
      aliasText? s deeper active env node := by
  match node with
  | .reference name arguments =>
    rw [aliasText?, aliasText?,
      argumentLists_agree h hd fun m (hm : m ∈ arguments) => hnode.part hm]
    rcases h.find?_cases hnode.names.1 with ⟨h₁, h₂⟩ | ⟨_, _, h₁, h₂⟩ | ⟨_, _, h₁, h₂⟩ | ⟨_, _, h₁, h₂⟩ <;>
      simp only [Scope.contents_withContents, Scope.ownName_withContents, h₁, h₂] <;>
      cases env.lookup name <;> rfl
  | .imported .. | .literal .. | .union .. | .intersection .. | .array .. | .indexed .. | .tuple ..
  | .function .. | .operator .. | .query .. | .object .. | .raw .. =>
    rw [aliasText?, aliasText?]
    all_goals simp
termination_by (unvisited s.contents.aliasNames active, sizeOf node, 0)
decreasing_by all_goals simp_wf; simp only [Prod.lex_def, true_and]; omega

theorem resolveEach_agree (h : s.contents.Agree c P)
    (hd : deeper.Agree deeper' (TypeNode.RefersTo P)) {active : List String} {env : Env}
    {nodes : List TypeNode} (hnodes : ∀ node ∈ nodes, node.RefersTo P) :
    resolveEach (s.withContents c) deeper' active env nodes =
      resolveEach s deeper active env nodes := by
  match nodes with
  | [] => rw [resolveEach, resolveEach]
  | node :: nodes =>
    obtain ⟨hnode, hnodes⟩ := List.forall_mem_cons.1 hnodes
    rw [resolveEach, resolveEach, resolve_agree h hd hnode, resolveEach_agree h hd hnodes]
termination_by (unvisited s.contents.aliasNames active, sizeOf nodes, 0)
decreasing_by all_goals simp_wf; simp only [Prod.lex_def, true_and]; omega

theorem optionalTypeText_agree (h : s.contents.Agree c P)
    (hd : deeper.Agree deeper' (TypeNode.RefersTo P)) {active : List String} {env : Env}
    {type : Option TypeNode} (htype : ∀ t ∈ type.toList, t.RefersTo P) :
    optionalTypeText (s.withContents c) deeper' active env type =
      optionalTypeText s deeper active env type := by
  match type with
  | none => rw [optionalTypeText, optionalTypeText]
  | some node =>
    rw [optionalTypeText, optionalTypeText,
      resolve_agree h hd (htype node (List.mem_singleton_self _))]
termination_by (unvisited s.contents.aliasNames active, sizeOf type, 0)
decreasing_by all_goals simp_wf; simp only [Prod.lex_def, true_and]; omega

theorem elementTexts_agree (h : s.contents.Agree c P)
    (hd : deeper.Agree deeper' (TypeNode.RefersTo P)) {active : List String} {env : Env}
    {elements : List TupleElement} (helements : ∀ e ∈ elements, e.type.RefersTo P) :
    elementTexts (s.withContents c) deeper' active env elements =
      elementTexts s deeper active env elements := by
  match elements with
  | [] => rw [elementTexts, elementTexts]
  | .plain node :: elements | .named _ _ node :: elements | .rest node :: elements =>
    obtain ⟨helement, helements⟩ := List.forall_mem_cons.1 helements
    change node.RefersTo P at helement
    rw [elementTexts, elementTexts, resolve_agree h hd helement, elementTexts_agree h hd helements]
termination_by (unvisited s.contents.aliasNames active, sizeOf elements, 0)
decreasing_by all_goals simp_wf; simp only [Prod.lex_def, true_and]; omega

theorem parameterTexts_agree (h : s.contents.Agree c P)
    (hd : deeper.Agree deeper' (TypeNode.RefersTo P)) {active : List String} {env : Env}
    {parameters : List Parameter} (hparameters : ∀ p ∈ parameters, p.type.RefersTo P) :
    parameterTexts (s.withContents c) deeper' active env parameters =
      parameterTexts s deeper active env parameters := by
  match parameters with
  | [] => rw [parameterTexts, parameterTexts]
  | .mk _ _ _ node :: parameters =>
    obtain ⟨hparameter, hparameters⟩ := List.forall_mem_cons.1 hparameters
    change node.RefersTo P at hparameter
    rw [parameterTexts, parameterTexts, resolve_agree h hd hparameter,
      parameterTexts_agree h hd hparameters]
termination_by (unvisited s.contents.aliasNames active, sizeOf parameters, 0)
decreasing_by all_goals simp_wf; simp only [Prod.lex_def, true_and]; omega

theorem memberTexts_agree (h : s.contents.Agree c P)
    (hd : deeper.Agree deeper' (TypeNode.RefersTo P)) {active : List String} {env : Env}
    {members : List Member} (hmembers : ∀ m ∈ members, ∀ type ∈ m.types, type.RefersTo P) :
    memberTexts (s.withContents c) deeper' active env members =
      memberTexts s deeper active env members := by
  match members with
  | [] => rw [memberTexts, memberTexts]
  | .index key readonly keyType valueType :: members =>
    obtain ⟨hmember, hmembers⟩ := List.forall_mem_cons.1 hmembers
    rw [memberTexts, memberTexts, resolve_agree h hd (hmember keyType (by simp [Member.types])),
      resolve_agree h hd (hmember valueType (by simp [Member.types])),
      memberTexts_agree h hd hmembers]
  | .method name optional parameters returns :: members =>
    obtain ⟨hmember, hmembers⟩ := List.forall_mem_cons.1 hmembers
    rw [memberTexts, memberTexts, memberTexts_agree h hd hmembers,
      optionalTypeText_agree h hd fun t ht => hmember t (List.mem_append_right _ ht),
      parameterTexts_agree h hd fun p hp =>
        hmember _ (List.mem_append_left _ (List.mem_map_of_mem hp))]
  | .property name optional readonly type :: members =>
    obtain ⟨hmember, hmembers⟩ := List.forall_mem_cons.1 hmembers
    rw [memberTexts, memberTexts, memberTypes_agree h hd hmember, memberTexts_agree h hd hmembers]
termination_by (unvisited s.contents.aliasNames active, sizeOf members, 0)
decreasing_by all_goals simp_wf; simp only [Prod.lex_def, true_and]; omega

theorem memberTypes_agree (h : s.contents.Agree c P)
    (hd : deeper.Agree deeper' (TypeNode.RefersTo P)) {active : List String} {env : Env}
    {member : Member} (hmember : ∀ type ∈ member.types, type.RefersTo P) :
    memberTypes (s.withContents c) deeper' active env member =
      memberTypes s deeper active env member := by
  match member with
  | .method name optional parameters returns =>
    rw [memberTypes, memberTypes,
      optionalTypeText_agree h hd fun t ht => hmember t (List.mem_append_right _ ht),
      parameterTexts_agree h hd fun p hp =>
        hmember _ (List.mem_append_left _ (List.mem_map_of_mem hp))]
    rfl
  | .property _ _ _ none => rw [memberTypes, memberTypes]; rfl
  | .property _ _ _ (some node) =>
    rw [memberTypes, memberTypes, collect_agree h hd (hmember node (List.mem_singleton_self _))]
    rfl
  | .index _ _ _ _ => rw [memberTypes, memberTypes]
termination_by (unvisited s.contents.aliasNames active, sizeOf member, 0)
decreasing_by all_goals simp_wf; simp only [Prod.lex_def, true_and]; omega

end

/-! ## Listing -/

mutual

/-- **Listing agrees.** -/
theorem shape_agree (h : s.contents.Agree c P) (hd : deeper.Agree deeper' (TypeNode.RefersTo P))
    {active seen : List String} {env : Env} {node : TypeNode} (hnode : node.RefersTo P) :
    shape (s.withContents c) deeper' active seen env node =
      shape s deeper active seen env node := by
  match node with
  | .object members => rw [shape, shape]
  | .intersection members =>
    rw [shape, shape, mergedShapes_agree h hd fun m (hm : m ∈ members) => hnode.part hm]
  | .reference name arguments =>
    have harguments : ∀ m ∈ arguments, m.RefersTo P := fun m hm => hnode.part hm
    have hname := hnode.names.1
    rw [shape_reference, shape_reference, argumentLists_agree h hd harguments]
    rcases h.find?_cases hname with ⟨h₁, h₂⟩ | ⟨_, _, h₁, h₂⟩ | ⟨d, line, h₁, h₂⟩ | ⟨d, line, h₁, h₂⟩
    · simp only [Scope.contents_withContents, h₁, h₂]
    · simp only [Scope.contents_withContents, h₁, h₂]
    · have hdefaults : ∀ node ∈ defaults d.parameters, node.RefersTo P := fun node hmem =>
        h.refersTo hname h₁ (List.mem_append_left _ (List.mem_append_left _ hmem))
      simp only [Scope.contents_withContents, h₁, h₂, bind_agree hd hdefaults]
      split
      · rfl
      split
      · rfl
      next hnew =>
      have := unvisited_cons_lt (Contents.mem_structuralNames_of_find?_interface h₁) hnew
      refine bind_congr fun types => bind_congr fun bound => ?_
      have hlisted : interfaceShape (s.withContents c) deeper' active (d.name :: seen) bound
          { d with line } = interfaceShape s deeper active (d.name :: seen) bound d :=
        mergedShapes_agree h hd fun base hbase => (closed_refersTo h).heritage hnode h₁ hbase
      rw [hlisted]
    · have hdefaults : ∀ node ∈ defaults d.parameters, node.RefersTo P := fun node hmem =>
        h.refersTo hname h₁ (List.mem_cons_of_mem _ hmem)
      simp only [Scope.contents_withContents, h₁, h₂, bind_agree hd hdefaults]
      split
      · rfl
      split
      · rfl
      next hnew =>
      have := unvisited_cons_lt (Contents.mem_structuralNames_of_find?_alias h₁) hnew
      exact bind_congr fun types => bind_congr fun bound =>
        shape_agree h hd ((closed_refersTo h).body hnode h₁)
  | .indexed o i =>
    have ho : o.RefersTo P := hnode.part (.head _)
    rw [shape, shape, indexedProperty?_agree hd ho]
    refine Resolution.bind_congr_of_ok fun looked hlooked => ?_
    split
    · have htype := indexedProperty?_within hd.keeps ho hlooked
      exact hd.shape _ _ _ _ (htype _ (List.mem_singleton_self _))
    · rfl
  | .imported .. | .literal .. | .union .. | .array .. | .tuple .. | .function ..
  | .operator .. | .query .. | .raw .. =>
    rw [shape, shape]
    all_goals simp
termination_by (unvisited s.contents.structuralNames seen, sizeOf node)
decreasing_by all_goals simp_wf; simp only [Prod.lex_def, true_and]; omega

theorem mergedShapes_agree (h : s.contents.Agree c P)
    (hd : deeper.Agree deeper' (TypeNode.RefersTo P)) {active seen : List String} {env : Env}
    {properties : List Property} {nodes : List TypeNode}
    (hnodes : ∀ node ∈ nodes, node.RefersTo P) :
    mergedShapes (s.withContents c) deeper' active seen env properties nodes =
      mergedShapes s deeper active seen env properties nodes := by
  match nodes with
  | [] => rw [mergedShapes, mergedShapes]
  | node :: nodes =>
    obtain ⟨hnode, hnodes⟩ := List.forall_mem_cons.1 hnodes
    rw [mergedShapes, mergedShapes, shape_agree h hd hnode]
    exact bind_congr fun more => mergedShapes_agree h hd hnodes
termination_by (unvisited s.contents.structuralNames seen, sizeOf nodes)
decreasing_by all_goals simp_wf; simp only [Prod.lex_def, true_and]; omega

end

/-- **Every level agrees.** -/
theorem deeperSteps_agree (h : s.contents.Agree c P) (trail : List Descent) (level : Nat) :
    (deeperSteps s trail level).Agree (deeperSteps (s.withContents c) trail level)
      (TypeNode.RefersTo P) := by
  induction level generalizing trail with
  | zero => exact ⟨fun _ _ _ _ => rfl, fun _ _ _ _ => rfl, fun _ _ _ _ _ => rfl,
      keeps_deeperSteps (closed_refersTo h) trail 0⟩
  | succ level ih =>
    refine ⟨fun active env node hnode => ?_, fun active env m hm => ?_,
      fun active seen env node hnode => ?_, keeps_deeperSteps (closed_refersTo h) trail _⟩
    all_goals simp only [deeperSteps, Descent.enter]
    · rw [collect_agree h (ih _) hnode]
      rfl
    · rw [memberTypes_agree h (ih _) hm]
    · rw [shape_agree h (ih _) hnode]

mutual

theorem unionParts_agree (h : s.contents.Agree c P)
    (hd : deeper.Agree deeper' (TypeNode.RefersTo P)) {seen : List String} {env : Env}
    {node : TypeNode} (hnode : node.RefersTo P) :
    unionParts (s.withContents c) deeper' seen env node = unionParts s deeper seen env node := by
  match node with
  | .union members =>
    rw [unionParts, unionParts]
    exact unionPartsAll_agree h hd fun m (hm : m ∈ members) => hnode.part hm
  | .reference name arguments =>
    have harguments : ∀ m ∈ arguments, m.RefersTo P := fun m hm => hnode.part hm
    have hname := hnode.names.1
    rw [unionParts_reference, unionParts_reference, argumentLists_agree h hd harguments]
    split
    · rfl
    split
    · rfl
    rcases h.find?_cases hname with ⟨h₁, h₂⟩ | ⟨_, _, h₁, h₂⟩ | ⟨_, _, h₁, h₂⟩ | ⟨d, line, h₁, h₂⟩
    · simp only [Scope.contents_withContents, h₁, h₂]
    · simp only [Scope.contents_withContents, h₁, h₂]
    · simp only [Scope.contents_withContents, h₁, h₂]
    · have hdefaults : ∀ node ∈ defaults d.parameters, node.RefersTo P := fun node hmem =>
        h.refersTo hname h₁ (List.mem_cons_of_mem _ hmem)
      simp only [Scope.contents_withContents, h₁, h₂, bind_agree hd hdefaults]
      split
      · rfl
      next hnew =>
      split
      · have := unvisited_cons_lt (Contents.mem_structuralNames_of_find?_alias h₁) hnew
        exact bind_congr fun types => bind_congr fun bound =>
          unionParts_agree h hd ((closed_refersTo h).body hnode h₁)
      · rfl
  | .imported .. | .literal .. | .intersection .. | .array .. | .indexed .. | .tuple ..
  | .function .. | .operator .. | .query .. | .object .. | .raw .. =>
    rw [unionParts, unionParts]
    all_goals simp
termination_by (unvisited s.contents.structuralNames seen, sizeOf node)
decreasing_by all_goals simp_wf; simp only [Prod.lex_def, true_and]; omega

theorem unionPartsAll_agree (h : s.contents.Agree c P)
    (hd : deeper.Agree deeper' (TypeNode.RefersTo P)) {seen : List String} {env : Env}
    {nodes : List TypeNode} (hnodes : ∀ node ∈ nodes, node.RefersTo P) :
    unionPartsAll (s.withContents c) deeper' seen env nodes =
      unionPartsAll s deeper seen env nodes := by
  match nodes with
  | [] => rw [unionPartsAll, unionPartsAll]
  | node :: nodes =>
    obtain ⟨hnode, hnodes⟩ := List.forall_mem_cons.1 hnodes
    rw [unionPartsAll, unionPartsAll, unionParts_agree h hd hnode, unionPartsAll_agree h hd hnodes]
termination_by (unvisited s.contents.structuralNames seen, sizeOf nodes)
decreasing_by all_goals simp_wf; simp only [Prod.lex_def, true_and]; omega

end

theorem partShapes_agree (h : s.contents.Agree c P)
    (hd : deeper.Agree deeper' (TypeNode.RefersTo P)) {seen : List String}
    {parts : List (TypeNode × Env)} (hparts : ∀ p ∈ parts, p.1.RefersTo P) :
    partShapes (s.withContents c) deeper' seen parts = partShapes s deeper seen parts := by
  induction parts with
  | nil => rw [partShapes, partShapes]
  | cons p parts ih =>
    obtain ⟨hp, hparts⟩ := List.forall_mem_cons.1 hparts
    rw [partShapes, partShapes, shape_agree h hd hp, ih hparts]

theorem fieldsOf_agree (h : s.contents.Agree c P)
    (hd : deeper.Agree deeper' (TypeNode.RefersTo P)) {properties : List Property}
    (hproperties : Within (TypeNode.RefersTo P) properties) :
    fieldsOf (s.withContents c) deeper' properties = fieldsOf s deeper properties := by
  induction properties with
  | nil => rw [fieldsOf, fieldsOf]
  | cons p properties ih =>
    obtain ⟨hp, hproperties⟩ := List.forall_mem_cons.1 hproperties
    rw [fieldsOf, fieldsOf, fieldOf, fieldOf, memberTypes_agree h hd hp, ih hproperties]

end FluentBuilders
