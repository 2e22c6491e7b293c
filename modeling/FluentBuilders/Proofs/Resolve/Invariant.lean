import FluentBuilders.Proofs.Resolve.Dependence
import FluentBuilders.Proofs.Resolve.Plain
import FluentBuilders.Proofs.Resolve.Visits
import FluentBuilders.Proofs.Syntax.Formed

/-!
# Proofs/Resolve/Invariant — what holds of all that resolution shows

An **invariant** of resolution says what holds of the types as they are written, and what of the types
and texts that are made of them.  It is kept by each form by itself; then it is kept by all of
resolution, however long it runs (`Invariant.shown_describe`).
-/

namespace FluentBuilders

theorem Resolution.map_eq_ok {α β : Type} {x : Resolution α} {f : α → β} {b : β} :
    f <$> x = .ok b ↔ ∃ a, x = .ok a ∧ f a = b := by
  cases x with
  | error e => exact ⟨nofun, nofun⟩
  | ok a => simp

/-- The kinds of a name of the file's own that stands by itself. -/
def ownKinds : List TypeKind := [.enum, .literal, .object, .function, .raw, .alias]

/-- The kinds of a name of the file's own that can have type arguments. -/
def namedKinds : List TypeKind := [.object, .function, .alias]

/-- **An invariant of resolution**: `Node` of types as they are written, `Shown` of resolved types, and
of the texts that stand between brackets `ElementText`, `ParameterText` and `MemberText`.  `Word` and
`Name` are for what is written without being a type: words inside brackets, and names with or without
dots. -/
structure Invariant (s : Scope) where
  Node : TypeNode → Prop
  Word : String → Prop
  Name : String → Prop
  Shown : ResolvedType → Prop
  ElementText : String → Prop
  ParameterText : String → Prop
  MemberText : String → Prop
  -- what is written
  node_part : ∀ {node part}, Node node → part ∈ node.parts → Node part
  node_word : ∀ {node w}, Node node → w ∈ node.words → Word w
  node_name : ∀ {name arguments}, Node (.reference name arguments) → Name name
  node_member : ∀ {members m}, Node (.object members) → m ∈ members → Node (.object [m])
  node_types : ∀ t ∈ s.contents.types, Node t
  node_members : ∀ d ∈ s.contents.interfaces, Node (.object d.members)
  node_values : Node (.reference "false" []) ∧ Node (.reference "true" [])
  name_alias : ∀ d ∈ s.contents.aliases, Name d.name
  -- what stands by itself
  intrinsic : ∀ t ∈ intrinsicTypes, Shown t
  literal : ∀ {kind text}, Node (.literal kind text) → Shown (Literal.type (kind, text))
  key : ∀ name, Shown (.stringLiteral name)
  raw : ∀ {text}, Node (.raw text) → Shown (.plain text .raw)
  query : ∀ {name}, Node (.query name) → Shown (.plain ("typeof " ++ name) .raw)
  unique : Shown (.plain "unique symbol" .symbol)
  -- names
  own : ∀ {name kind}, Name name → kind ∈ ownKinds → Shown (.plain (s.ownName name) kind)
  named : ∀ {name arguments kind}, Name name → (∀ types ∈ arguments, ∀ t ∈ types, Shown t) →
    kind ∈ namedKinds → Shown (.plain (s.ownName name ++ argumentsText arguments) kind)
  foreign : ∀ {name nodes arguments}, Node (.reference name nodes) →
    ResolvedType.intrinsics.lookup name = none → (∀ types ∈ arguments, ∀ t ∈ types, Shown t) →
    Shown (.plain (s.foreignName name ++ argumentsText arguments) .object)
  imported : ∀ {module name nodes arguments}, Node (.imported module name nodes) →
    (∀ types ∈ arguments, ∀ t ∈ types, Shown t) →
    Shown (.plain (s.qualify name (resolveModule module s.directory) ++ argumentsText arguments)
      .object)
  -- what is made of other types
  single : ∀ {types}, (∀ t ∈ types, Shown t) → Shown (single types)
  array : ∀ {t}, Shown t → Shown (.array t)
  readonlyArray : ∀ {t}, Shown t → Shown (.readonlyArray t)
  readonly : ∀ {t}, Shown t → Shown (readonlyType t)
  keyof : ∀ {t}, Shown t → Shown (.plain ("keyof " ++ t.operandText) .raw)
  indexed : ∀ {object index o i}, Node (.indexed object index) → Shown o → Shown i →
    Shown (.plain (o.text ++ "[" ++ i.text ++ "]") .raw)
  intersection : ∀ {members} {types : List ResolvedType}, Node (.intersection members) →
    types.length = members.length → (∀ t ∈ types, Shown t) →
    Shown (.plain (String.intercalate " & " (types.map (·.operandText))) .intersection)
  tuple : ∀ {texts}, (∀ x ∈ texts, ElementText x) →
    Shown (.plain ("[" ++ String.intercalate ", " texts ++ "]") .tuple)
  function : ∀ {texts r}, (∀ x ∈ texts, ParameterText x) → Shown r →
    Shown (.plain (signatureText texts ++ " => " ++ r.text) .function)
  object : ∀ {texts}, (∀ x ∈ texts, MemberText x) → Shown (.plain (bodyText texts) .object)
  -- texts between brackets
  element : ∀ {t}, Shown t → ElementText t.text
  namedElement : ∀ {name t} (optional), Word name → Shown t →
    ElementText (name ++ optionalSuffix optional ++ ": " ++ t.text)
  restElement : ∀ {t}, Shown t → ElementText ("..." ++ t.text)
  parameter : ∀ {name t} (optional rest), Word name → Shown t →
    ParameterText (parameterText name optional rest t.text)
  index : ∀ {key k v} (readonly), Word key → Shown k → Shown v →
    MemberText (readonlyWord readonly ++ "[" ++ key ++ ": " ++ k.text ++ "]: " ++ v.text ++ ";")
  method : ∀ {texts r} (name optional), (∀ x ∈ texts, ParameterText x) → Shown r →
    MemberText (propertyKey name ++ optionalSuffix optional ++ signatureText texts ++ ": " ++
      r.text ++ ";")
  property : ∀ {t} (name optional readonly), Shown t →
    MemberText (readonlyWord readonly ++ propertyKey name ++ optionalSuffix optional ++ ": " ++
      t.text ++ ";")

namespace Invariant

variable {s : Scope} (I : Invariant s)

/-- All of several types are shown. -/
def AllShown (types : List ResolvedType) : Prop := ∀ t ∈ types, I.Shown t

/-- **Environments** in which all that is bound is shown. -/
def Binds (env : Env) : Prop := ∀ b ∈ env, I.AllShown b.2

/-- **Properties** whose members are written as they should be, in such environments. -/
def Lists (properties : List Property) : Prop :=
  ∀ p ∈ properties, I.Node (.object [p.member]) ∧ I.Binds p.env

/-- **Steps one level deeper** that keep the invariant. -/
structure Keeps (deeper : Deeper) : Prop where
  constituents : ∀ {active env node types}, I.Node node → I.Binds env →
    deeper.constituents active env node = .ok types → I.AllShown types
  memberTypes : ∀ {active env m types}, I.Node (.object [m]) → I.Binds env →
    deeper.memberTypes active env m = .ok types → I.AllShown types
  shape : ∀ {active seen env node properties}, I.Node node → I.Binds env →
    deeper.shape active seen env node = .ok (some properties) → I.Lists properties

variable {I} {deeper : Deeper} {active seen : List String} {env bound : Env} {node : TypeNode}
  {types : List ResolvedType} {name : String}

/-! ## Constituents -/

theorem shown_any : I.Shown .any := I.intrinsic _ (by decide)

theorem shown_normalForm (h : I.AllShown types) : I.AllShown (s.normalForm types) := by
  intro t ht
  obtain ht | ⟨rfl, -⟩ | ⟨rfl, -⟩ := mem_of_mem_normalize ht
  · exact h t ht
  · exact shown_any
  · exact I.intrinsic _ (by decide)

theorem shown_memberForm (optional : Bool) (h : I.AllShown types) :
    I.AllShown (s.memberForm optional types) := by
  unfold Scope.memberForm
  refine shown_normalForm ?_
  split
  · exact List.forall_mem_cons.2 ⟨I.intrinsic _ (by decide), h⟩
  · exact h

theorem shown_of_lookup (henv : I.Binds env) (h : env.lookup name = some types) :
    I.AllShown types := henv _ (mem_of_lookup h)

theorem binds_cons (henv : I.Binds env) (h : I.AllShown types) : I.Binds ((name, types) :: env) :=
  List.forall_mem_cons.2 ⟨h, henv⟩

/-- A declaration's own type parameters stand for themselves. -/
theorem binds_parameterEnv {parameters : List TypeParameter}
    (h : ∀ p ∈ parameters, I.Shown (.plain p.name .typeParameter)) :
    I.Binds (parameterEnv parameters) := by
  suffices hfold : ∀ env, I.Binds env → I.Binds
      (parameters.foldl (fun env p => (p.name, [.plain p.name .typeParameter]) :: env) env) from
    hfold [] (List.forall_mem_nil _)
  induction parameters with
  | nil => exact fun env henv => henv
  | cons p parameters ih =>
    obtain ⟨hp, hrest⟩ := List.forall_mem_cons.1 h
    exact fun env henv => ih hrest _ (binds_cons henv (List.forall_mem_singleton.2 hp))

/-- **Type parameters are bound** to what is shown. -/
theorem binds_bind (hd : I.Keeps deeper) {parameters : List TypeParameter}
    (hparameters : ∀ t ∈ defaults parameters, I.Node t) {arguments : List (List ResolvedType)}
    (harguments : ∀ types ∈ arguments, I.AllShown types) (henv : I.Binds env)
    (h : bind deeper active env parameters arguments = .ok bound) : I.Binds bound := by
  induction parameters generalizing env arguments with
  | nil =>
    rw [bind] at h
    cases h
    exact henv
  | cons p parameters ih =>
    have hrest : ∀ t ∈ defaults parameters, I.Node t := fun t ht =>
      hparameters t (((List.sublist_cons_self p parameters).filterMap _).subset ht)
    cases arguments with
    | cons types arguments =>
      obtain ⟨htypes, harguments⟩ := List.forall_mem_cons.1 harguments
      rw [bind] at h
      exact ih hrest harguments (binds_cons henv htypes) h
    | nil =>
      have hunknown : I.AllShown [.unknown] :=
        List.forall_mem_singleton.2 (I.intrinsic _ (by decide))
      rw [bind] at h
      split at h
      · exact ih hrest harguments (binds_cons henv hunknown) h
      · next type hdefault =>
        have htype : I.Node type :=
          hparameters type (List.mem_filterMap.2 ⟨p, List.mem_cons_self, hdefault⟩)
        obtain ⟨types, htypes, h⟩ := Resolution.bind_eq_ok.1 h
        exact ih hrest harguments (binds_cons henv (hd.constituents htype henv htypes)) h

theorem lists_of_indexedProperty? (hd : I.Keeps deeper) {o i : TypeNode} {p : Property}
    (ho : I.Node o) (henv : I.Binds env)
    (h : indexedProperty? deeper active env o i = .ok (some p)) :
    I.Node (.object [p.member]) ∧ I.Binds p.env := by
  obtain ⟨properties, hlisted, hp⟩ := exists_of_indexedProperty? h
  exact hd.shape ho henv hlisted p hp

theorem node_body {d : AliasDeclaration} (h : s.contents.find? name = some (.alias d)) :
    I.Node d.body := I.node_types _ (Contents.body_mem_types (Contents.mem_aliases_of_find? h).1)

theorem node_defaults_alias {d : AliasDeclaration} (h : s.contents.find? name = some (.alias d)) :
    ∀ t ∈ defaults d.parameters, I.Node t := fun t ht =>
  I.node_types t (Contents.defaults_subset_types (List.mem_append_left _
    (List.mem_flatMap.2 ⟨d, (Contents.mem_aliases_of_find? h).1, ht⟩)))

theorem node_defaults_interface {d : InterfaceDeclaration}
    (h : s.contents.find? name = some (.interface d)) : ∀ t ∈ defaults d.parameters, I.Node t :=
  fun t ht => I.node_types t (Contents.defaults_subset_types (List.mem_append_right _
    (List.mem_flatMap.2 ⟨d, Contents.mem_interfaces_of_find? h, ht⟩)))

theorem mem_namedKinds_of_namedBodyKind? {kind : TypeKind} (h : namedBodyKind? node = some kind) :
    kind ∈ namedKinds := by
  cases node <;> cases h <;> decide

theorem length_resolveEach {nodes : List TypeNode}
    (h : resolveEach s deeper active env nodes = .ok types) : types.length = nodes.length := by
  induction nodes generalizing types with
  | nil =>
    rw [resolveEach] at h
    cases h
    rfl
  | cons node nodes ih =>
    rw [resolveEach] at h
    obtain ⟨first, -, h⟩ := Resolution.bind_eq_ok.1 h
    obtain ⟨others, hothers, h⟩ := Resolution.bind_eq_ok.1 h
    cases h
    rw [List.length_cons, List.length_cons, ih hothers]

theorem node_parameters {parameters : List Parameter} {optional : Bool} {returns : Option TypeNode}
    (h : I.Node (.object [.method name optional parameters returns])) :
    ∀ p ∈ parameters, I.Word p.name ∧ I.Node p.type := by
  intro p hp
  constructor
  · refine I.node_word h (List.mem_flatMap.2 ⟨_, List.mem_singleton_self _, ?_⟩)
    exact List.mem_map_of_mem hp
  · refine I.node_part h (List.mem_flatMap.2 ⟨_, List.mem_singleton_self _, ?_⟩)
    exact List.mem_append_left _ (List.mem_map_of_mem hp)

theorem node_returns {parameters : List Parameter} {optional : Bool} {returns : Option TypeNode}
    (h : I.Node (.object [.method name optional parameters returns])) :
    ∀ t ∈ returns.toList, I.Node t := fun _ ht =>
  I.node_part h (List.mem_flatMap.2 ⟨_, List.mem_singleton_self _, List.mem_append_right _ ht⟩)

mutual

/-- **All constituents are shown.** -/
theorem shown_collect (hd : I.Keeps deeper) {active : List String} {env : Env} {node : TypeNode}
    {types : List ResolvedType} (hnode : I.Node node) (henv : I.Binds env)
    (h : collect s deeper active env node = .ok types) : I.AllShown types := by
  match node with
  | .union members =>
    rw [collect] at h
    exact shown_collectAll hd (fun m (hm : m ∈ members) => I.node_part hnode hm) henv h
  | .reference name arguments =>
    have harguments : ∀ m ∈ arguments, I.Node m := fun m hm => I.node_part hnode hm
    rw [collect_reference] at h
    split at h
    · next hlookup =>
      cases h
      split at hlookup
      · exact shown_of_lookup henv hlookup
      · cases hlookup
    split at h
    · next hintrinsic =>
      cases h
      exact fun t ht => I.intrinsic t (mem_intrinsicTypes hintrinsic ht)
    next hintrinsic =>
    obtain ⟨lists, hlists, h⟩ := Resolution.bind_eq_ok.1 h
    have hshown := shown_argumentLists hd harguments henv hlists
    extract_lets continued at h
    have helements : ∃ elements, I.AllShown elements ∧ continued elements = .ok types := by
      split at h
      · obtain ⟨elements, helements, h⟩ := Resolution.bind_eq_ok.1 h
        exact ⟨elements, shown_resolveEach hd harguments henv helements, h⟩
      · exact ⟨[], List.forall_mem_nil _, h⟩
    obtain ⟨elements, helements, h⟩ := helements
    simp only [continued] at h
    split at h
    · cases h
      refine List.forall_mem_singleton.2 ?_
      split
      · exact I.array (List.forall_mem_singleton.1 helements)
      · exact I.readonlyArray (List.forall_mem_singleton.1 helements)
    unfold namedTypes at h
    dsimp only at h
    split at h
    · cases h
      refine List.forall_mem_singleton.2 (I.own (I.node_name hnode) ?_)
      split <;> decide
    · cases h
      exact List.forall_mem_singleton.2 (I.named (I.node_name hnode) hshown (by decide))
    · next d hfound =>
      have hname : I.Name d.name := I.name_alias d (Contents.mem_aliases_of_find? hfound).1
      split at h
      · cases h
        exact List.forall_mem_singleton.2 (I.named (I.node_name hnode) hshown (by decide))
      split at h
      · cases h
        exact List.forall_mem_singleton.2 (I.own hname (by decide))
      next hnew =>
      split at h
      · next kind hkind =>
        cases h
        exact List.forall_mem_singleton.2 (I.named hname hshown (mem_namedKinds_of_namedBodyKind? hkind))
      · obtain ⟨bound, hbound, h⟩ := Resolution.bind_eq_ok.1 h
        have := unvisited_cons_lt (Contents.mem_aliasNames_of_find? hfound) hnew
        exact shown_collect hd (node_body hfound)
          (binds_bind hd (node_defaults_alias hfound) hshown (List.forall_mem_nil _) hbound) h
    · cases h
      exact List.forall_mem_singleton.2 (I.foreign hnode hintrinsic hshown)
  | .indexed o i =>
    have ho : I.Node o := I.node_part hnode (.head _)
    have hi : I.Node i := I.node_part hnode (.tail _ (.head _))
    rw [collect] at h
    obtain ⟨looked, hlooked, h⟩ := Resolution.bind_eq_ok.1 h
    split at h
    · next p =>
      obtain ⟨hmember, hbinds⟩ := lists_of_indexedProperty? hd ho henv hlooked
      exact hd.memberTypes hmember hbinds h
    · obtain ⟨object, hobject, h⟩ := Resolution.bind_eq_ok.1 h
      obtain ⟨index, hindex, h⟩ := Resolution.bind_eq_ok.1 h
      cases h
      exact List.forall_mem_singleton.2
        (I.indexed hnode (shown_resolve hd ho henv hobject) (shown_resolve hd hi henv hindex))
  | .operator .keyof operand =>
    have hoperand : I.Node operand := I.node_part hnode (.head _)
    rw [collect] at h
    obtain ⟨listed, hlisted, h⟩ := Resolution.bind_eq_ok.1 h
    split at h
    · cases h
      exact List.forall_mem_map.2 fun p _ => I.key p.name
    · obtain ⟨t, ht, h⟩ := Resolution.bind_eq_ok.1 h
      cases h
      exact List.forall_mem_singleton.2 (I.keyof (shown_resolve hd hoperand henv ht))
  | .operator .unique _ =>
    rw [collect] at h
    cases h
    exact List.forall_mem_singleton.2 I.unique
  | .operator .readonly operand =>
    rw [collect] at h
    obtain ⟨t, ht, h⟩ := Resolution.bind_eq_ok.1 h
    have hreadonly := I.readonly (shown_resolve hd (I.node_part hnode (.head _)) henv ht)
    unfold readonlyType at hreadonly
    split at h
    · next hkind =>
      cases h
      rw [if_pos hkind] at hreadonly
      exact List.forall_mem_singleton.2 hreadonly
    · next hkind =>
      cases h
      rw [if_neg hkind] at hreadonly
      exact List.forall_mem_singleton.2 hreadonly
  | .literal kind text =>
    rw [collect_literal] at h
    cases h
    exact List.forall_mem_singleton.2 (I.literal hnode)
  | .array element =>
    rw [collect] at h
    obtain ⟨t, ht, h⟩ := Resolution.bind_eq_ok.1 h
    cases h
    exact List.forall_mem_singleton.2
      (I.array (shown_resolve hd (I.node_part hnode (.head _)) henv ht))
  | .intersection members =>
    rw [collect] at h
    obtain ⟨ts, hts, h⟩ := Resolution.bind_eq_ok.1 h
    cases h
    exact List.forall_mem_singleton.2 (I.intersection hnode (length_resolveEach hts)
      (shown_resolveEach hd (fun m (hm : m ∈ members) => I.node_part hnode hm) henv hts))
  | .tuple elements =>
    have hwords : ∀ e ∈ elements, ∀ w ∈ e.name?, I.Word w := fun e he w hw =>
      I.node_word hnode (List.mem_filterMap.2 ⟨e, he, hw⟩)
    rw [collect] at h
    obtain ⟨texts, htexts, h⟩ := Resolution.bind_eq_ok.1 h
    cases h
    exact List.forall_mem_singleton.2 (I.tuple (shown_elementTexts hd hwords
      (fun e he => I.node_part hnode (List.mem_map_of_mem he)) henv htexts))
  | .function parameters returns =>
    have hparameters : ∀ p ∈ parameters, I.Word p.name ∧ I.Node p.type := fun p hp =>
      ⟨I.node_word hnode (List.mem_map_of_mem hp),
        I.node_part hnode (List.mem_append_left _ (List.mem_map_of_mem hp))⟩
    rw [collect] at h
    obtain ⟨texts, htexts, h⟩ := Resolution.bind_eq_ok.1 h
    obtain ⟨r, hr, h⟩ := Resolution.bind_eq_ok.1 h
    cases h
    exact List.forall_mem_singleton.2 (I.function (shown_parameterTexts hd hparameters henv htexts)
      (shown_resolve hd (I.node_part hnode (by simp [TypeNode.parts])) henv hr))
  | .object members =>
    rw [collect] at h
    obtain ⟨texts, htexts, h⟩ := Resolution.bind_eq_ok.1 h
    cases h
    exact List.forall_mem_singleton.2 (I.object (shown_memberTexts hd
      (fun m hm => I.node_member hnode hm) henv htexts))
  | .query name =>
    rw [collect] at h
    cases h
    exact List.forall_mem_singleton.2 (I.query hnode)
  | .imported module name arguments =>
    rw [collect] at h
    obtain ⟨lists, hlists, h⟩ := Resolution.bind_eq_ok.1 h
    cases h
    exact List.forall_mem_singleton.2 (I.imported hnode (shown_argumentLists hd
      (fun m (hm : m ∈ arguments) => I.node_part hnode hm) henv hlists))
  | .raw text =>
    rw [collect] at h
    cases h
    exact List.forall_mem_singleton.2 (I.raw hnode)
termination_by (unvisited s.contents.aliasNames active, sizeOf node, 0)
decreasing_by all_goals simp_wf; simp only [Prod.lex_def, true_and]; omega

theorem shown_collectAll (hd : I.Keeps deeper) {active : List String} {env : Env}
    {nodes : List TypeNode} {types : List ResolvedType} (hnodes : ∀ node ∈ nodes, I.Node node)
    (henv : I.Binds env) (h : collectAll s deeper active env nodes = .ok types) :
    I.AllShown types := by
  match nodes with
  | [] =>
    rw [collectAll] at h
    cases h
    exact List.forall_mem_nil _
  | node :: nodes =>
    obtain ⟨hnode, hnodes⟩ := List.forall_mem_cons.1 hnodes
    rw [collectAll] at h
    obtain ⟨first, hfirst, h⟩ := Resolution.bind_eq_ok.1 h
    obtain ⟨others, hothers, h⟩ := Resolution.bind_eq_ok.1 h
    cases h
    exact List.forall_mem_append.2
      ⟨shown_collect hd hnode henv hfirst, shown_collectAll hd hnodes henv hothers⟩
termination_by (unvisited s.contents.aliasNames active, sizeOf nodes, 0)
decreasing_by all_goals simp_wf; simp only [Prod.lex_def, true_and]; omega

theorem shown_argumentLists (hd : I.Keeps deeper) {active : List String} {env : Env}
    {nodes : List TypeNode} {lists : List (List ResolvedType)} (hnodes : ∀ node ∈ nodes, I.Node node)
    (henv : I.Binds env) (h : argumentLists s deeper active env nodes = .ok lists) :
    ∀ types ∈ lists, I.AllShown types := by
  match nodes with
  | [] =>
    rw [argumentLists] at h
    cases h
    exact List.forall_mem_nil _
  | node :: nodes =>
    obtain ⟨hnode, hnodes⟩ := List.forall_mem_cons.1 hnodes
    rw [argumentLists] at h
    obtain ⟨first, hfirst, h⟩ := Resolution.bind_eq_ok.1 h
    obtain ⟨others, hothers, h⟩ := Resolution.bind_eq_ok.1 h
    cases h
    exact List.forall_mem_cons.2 ⟨shown_normalForm (shown_collect hd hnode henv hfirst),
      shown_argumentLists hd hnodes henv hothers⟩
termination_by (unvisited s.contents.aliasNames active, sizeOf nodes, 0)
decreasing_by all_goals simp_wf; simp only [Prod.lex_def, true_and]; omega

/-- **One type is shown.** -/
theorem shown_resolve (hd : I.Keeps deeper) {active : List String} {env : Env} {node : TypeNode}
    {type : ResolvedType} (hnode : I.Node node) (henv : I.Binds env)
    (h : resolve s deeper active env node = .ok type) : I.Shown type := by
  rw [resolve] at h
  obtain ⟨types, htypes, h⟩ := Resolution.bind_eq_ok.1 h
  have hone := I.single (shown_normalForm (shown_collect hd hnode henv htypes))
  dsimp only at h
  split at h
  · obtain ⟨found, hfound, h⟩ := Resolution.bind_eq_ok.1 h
    split at h
    · cases h
      exact shown_aliasText? hd hnode henv hfound
    · cases h
      exact hone
  · cases h
    exact hone
termination_by (unvisited s.contents.aliasNames active, sizeOf node, 1)
decreasing_by all_goals simp only [Prod.lex_def, true_and]; omega

theorem shown_aliasText? (hd : I.Keeps deeper) {active : List String} {env : Env} {node : TypeNode}
    {text : String} (hnode : I.Node node) (henv : I.Binds env)
    (h : aliasText? s deeper active env node = .ok (some text)) : I.Shown (.plain text .alias) := by
  match node with
  | .reference name arguments =>
    rw [aliasText?] at h
    split at h
    · split at h
      · cases h
      obtain ⟨lists, hlists, h⟩ := Resolution.bind_eq_ok.1 h
      cases h
      exact I.named (I.node_name hnode) (shown_argumentLists hd
        (fun m (hm : m ∈ arguments) => I.node_part hnode hm) henv hlists) (by decide)
    · cases h
  | .imported .. | .literal .. | .union .. | .intersection .. | .array .. | .indexed .. | .tuple ..
  | .function .. | .operator .. | .query .. | .object .. | .raw .. =>
    rw [aliasText?] at h
    · cases h
    all_goals simp
termination_by (unvisited s.contents.aliasNames active, sizeOf node, 0)
decreasing_by all_goals simp_wf; simp only [Prod.lex_def, true_and]; omega

theorem shown_resolveEach (hd : I.Keeps deeper) {active : List String} {env : Env}
    {nodes : List TypeNode} {types : List ResolvedType} (hnodes : ∀ node ∈ nodes, I.Node node)
    (henv : I.Binds env) (h : resolveEach s deeper active env nodes = .ok types) :
    I.AllShown types := by
  match nodes with
  | [] =>
    rw [resolveEach] at h
    cases h
    exact List.forall_mem_nil _
  | node :: nodes =>
    obtain ⟨hnode, hnodes⟩ := List.forall_mem_cons.1 hnodes
    rw [resolveEach] at h
    obtain ⟨first, hfirst, h⟩ := Resolution.bind_eq_ok.1 h
    obtain ⟨others, hothers, h⟩ := Resolution.bind_eq_ok.1 h
    cases h
    exact List.forall_mem_cons.2
      ⟨shown_resolve hd hnode henv hfirst, shown_resolveEach hd hnodes henv hothers⟩
termination_by (unvisited s.contents.aliasNames active, sizeOf nodes, 0)
decreasing_by all_goals simp_wf; simp only [Prod.lex_def, true_and]; omega

theorem shown_optionalTypeText (hd : I.Keeps deeper) {active : List String} {env : Env}
    {type : Option TypeNode} {text : String} (htype : ∀ t ∈ type.toList, I.Node t)
    (henv : I.Binds env) (h : optionalTypeText s deeper active env type = .ok text) :
    ∃ t, I.Shown t ∧ text = t.text := by
  match type with
  | none =>
    rw [optionalTypeText] at h
    cases h
    exact ⟨.any, shown_any, rfl⟩
  | some node =>
    rw [optionalTypeText] at h
    obtain ⟨t, ht, h⟩ := Resolution.bind_eq_ok.1 h
    cases h
    exact ⟨t, shown_resolve hd (htype node (List.mem_singleton_self _)) henv ht, rfl⟩
termination_by (unvisited s.contents.aliasNames active, sizeOf type, 0)
decreasing_by all_goals simp_wf; simp only [Prod.lex_def, true_and]; omega

theorem shown_elementTexts (hd : I.Keeps deeper) {active : List String} {env : Env}
    {elements : List TupleElement} {texts : List String}
    (hwords : ∀ e ∈ elements, ∀ w ∈ e.name?, I.Word w) (helements : ∀ e ∈ elements, I.Node e.type)
    (henv : I.Binds env) (h : elementTexts s deeper active env elements = .ok texts) :
    ∀ x ∈ texts, I.ElementText x := by
  match elements with
  | [] =>
    rw [elementTexts] at h
    cases h
    exact List.forall_mem_nil _
  | .plain node :: elements | .named _ _ node :: elements | .rest node :: elements =>
    obtain ⟨hnode, helements⟩ := List.forall_mem_cons.1 helements
    change I.Node node at hnode
    obtain ⟨hword, hwords⟩ := List.forall_mem_cons.1 hwords
    rw [elementTexts] at h
    obtain ⟨t, ht, h⟩ := Resolution.bind_eq_ok.1 h
    obtain ⟨others, hothers, h⟩ := Resolution.bind_eq_ok.1 h
    cases h
    have hshown := shown_resolve hd hnode henv ht
    refine List.forall_mem_cons.2 ⟨?_, shown_elementTexts hd hwords helements henv hothers⟩
    first
    | exact I.element hshown
    | exact I.namedElement _ (hword _ rfl) hshown
    | exact I.restElement hshown
termination_by (unvisited s.contents.aliasNames active, sizeOf elements, 0)
decreasing_by all_goals simp_wf; simp only [Prod.lex_def, true_and]; omega

theorem shown_parameterTexts (hd : I.Keeps deeper) {active : List String} {env : Env}
    {parameters : List Parameter} {texts : List String}
    (hparameters : ∀ p ∈ parameters, I.Word p.name ∧ I.Node p.type) (henv : I.Binds env)
    (h : parameterTexts s deeper active env parameters = .ok texts) : ∀ x ∈ texts, I.ParameterText x := by
  match parameters with
  | [] =>
    rw [parameterTexts] at h
    cases h
    exact List.forall_mem_nil _
  | .mk name optional rest node :: parameters =>
    obtain ⟨⟨hword, hnode⟩, hparameters⟩ := List.forall_mem_cons.1 hparameters
    change I.Node node at hnode
    rw [parameterTexts] at h
    obtain ⟨t, ht, h⟩ := Resolution.bind_eq_ok.1 h
    obtain ⟨others, hothers, h⟩ := Resolution.bind_eq_ok.1 h
    cases h
    exact List.forall_mem_cons.2 ⟨I.parameter _ _ hword (shown_resolve hd hnode henv ht),
      shown_parameterTexts hd hparameters henv hothers⟩
termination_by (unvisited s.contents.aliasNames active, sizeOf parameters, 0)
decreasing_by all_goals simp_wf; simp only [Prod.lex_def, true_and]; omega

theorem shown_memberTexts (hd : I.Keeps deeper) {active : List String} {env : Env}
    {members : List Member} {texts : List String} (hmembers : ∀ m ∈ members, I.Node (.object [m]))
    (henv : I.Binds env) (h : memberTexts s deeper active env members = .ok texts) :
    ∀ x ∈ texts, I.MemberText x := by
  match members with
  | [] =>
    rw [memberTexts] at h
    cases h
    exact List.forall_mem_nil _
  | .index key readonly keyType valueType :: members =>
    obtain ⟨hmember, hmembers⟩ := List.forall_mem_cons.1 hmembers
    rw [memberTexts] at h
    obtain ⟨k, hk, h⟩ := Resolution.bind_eq_ok.1 h
    obtain ⟨v, hv, h⟩ := Resolution.bind_eq_ok.1 h
    obtain ⟨others, hothers, h⟩ := Resolution.bind_eq_ok.1 h
    cases h
    have hword : I.Word key := I.node_word hmember (by simp [TypeNode.words, Member.words])
    have hkey : I.Node keyType := I.node_part hmember (by simp [TypeNode.parts, Member.types])
    have hvalue : I.Node valueType := I.node_part hmember (by simp [TypeNode.parts, Member.types])
    exact List.forall_mem_cons.2 ⟨I.index _ hword (shown_resolve hd hkey henv hk)
      (shown_resolve hd hvalue henv hv), shown_memberTexts hd hmembers henv hothers⟩
  | .method name optional parameters returns :: members =>
    obtain ⟨hmember, hmembers⟩ := List.forall_mem_cons.1 hmembers
    rw [memberTexts] at h
    obtain ⟨ps, hps, h⟩ := Resolution.bind_eq_ok.1 h
    obtain ⟨r, hr, h⟩ := Resolution.bind_eq_ok.1 h
    obtain ⟨others, hothers, h⟩ := Resolution.bind_eq_ok.1 h
    cases h
    obtain ⟨t, ht, rfl⟩ := shown_optionalTypeText hd (node_returns hmember) henv hr
    exact List.forall_mem_cons.2
      ⟨I.method _ _ (shown_parameterTexts hd (node_parameters hmember) henv hps) ht,
        shown_memberTexts hd hmembers henv hothers⟩
  | .property name optional readonly type :: members =>
    obtain ⟨hmember, hmembers⟩ := List.forall_mem_cons.1 hmembers
    rw [memberTexts] at h
    obtain ⟨types, htypes, h⟩ := Resolution.bind_eq_ok.1 h
    obtain ⟨others, hothers, h⟩ := Resolution.bind_eq_ok.1 h
    cases h
    exact List.forall_mem_cons.2
      ⟨I.property _ _ _ (I.single (shown_memberTypes hd hmember henv htypes)),
        shown_memberTexts hd hmembers henv hothers⟩
termination_by (unvisited s.contents.aliasNames active, sizeOf members, 0)
decreasing_by all_goals simp_wf; simp only [Prod.lex_def, true_and]; omega

/-- **The constituents of a member's type are shown.** -/
theorem shown_memberTypes (hd : I.Keeps deeper) {active : List String} {env : Env} {m : Member}
    {types : List ResolvedType} (hmember : I.Node (.object [m])) (henv : I.Binds env)
    (h : memberTypes s deeper active env m = .ok types) : I.AllShown types := by
  match m with
  | .method name optional parameters returns =>
    rw [memberTypes] at h
    obtain ⟨ps, hps, h⟩ := Resolution.bind_eq_ok.1 h
    obtain ⟨r, hr, h⟩ := Resolution.bind_eq_ok.1 h
    cases h
    obtain ⟨t, ht, rfl⟩ := shown_optionalTypeText hd (node_returns hmember) henv hr
    exact shown_memberForm _ (List.forall_mem_singleton.2
      (I.function (shown_parameterTexts hd (node_parameters hmember) henv hps) ht))
  | .property _ optional _ none =>
    rw [memberTypes] at h
    cases h
    exact shown_memberForm _ (List.forall_mem_singleton.2 shown_any)
  | .property _ optional _ (some node) =>
    rw [memberTypes] at h
    obtain ⟨found, hfound, h⟩ := Resolution.bind_eq_ok.1 h
    cases h
    have hnode : I.Node node := I.node_part hmember (by simp [TypeNode.parts, Member.types])
    exact shown_memberForm _ (shown_collect hd hnode henv hfound)
  | .index _ _ _ _ =>
    rw [memberTypes] at h
    cases h
    exact List.forall_mem_nil _
termination_by (unvisited s.contents.aliasNames active, sizeOf m, 0)
decreasing_by all_goals simp_wf; simp only [Prod.lex_def, true_and]; omega

end

/-! ## Properties -/

theorem lists_ofMembers {members : List Member} (h : ∀ m ∈ members, I.Node (.object [m]))
    (henv : I.Binds env) : I.Lists (Property.ofMembers env members) := by
  intro p hp
  obtain ⟨m, hm, hname⟩ := List.mem_filterMap.1 hp
  obtain ⟨name, -, rfl⟩ := Option.map_eq_some_iff.1 hname
  exact ⟨h m hm, henv⟩

theorem Lists.mergeShape {properties more : List Property} (h : I.Lists properties)
    (hmore : I.Lists more) : I.Lists (mergeShape properties more) := by
  obtain ⟨added, heq, hsub, -, -⟩ := exists_mergeShape properties more
  rw [heq]
  exact List.forall_mem_append.2 ⟨h, fun p hp => hmore p (hsub.subset hp)⟩

mutual

/-- **Listed properties** are written as they should be. -/
theorem lists_shape (hd : I.Keeps deeper) {active seen : List String} {env : Env} {node : TypeNode}
    {properties : List Property} (hnode : I.Node node) (henv : I.Binds env)
    (h : shape s deeper active seen env node = .ok (some properties)) : I.Lists properties := by
  match node with
  | .object members =>
    rw [shape] at h
    cases h
    exact lists_ofMembers (fun m hm => I.node_member hnode hm) henv
  | .intersection members =>
    rw [shape] at h
    obtain ⟨merged, hmerged, h⟩ := Resolution.bind_eq_ok.1 h
    cases h
    exact lists_mergedShapes hd (List.forall_mem_nil _)
      (fun m (hm : m ∈ members) => I.node_part hnode hm) henv hmerged
  | .reference name arguments =>
    have harguments : ∀ m ∈ arguments, I.Node m := fun m hm => I.node_part hnode hm
    rw [shape_reference] at h
    split at h
    · cases h
    split at h
    · next d hfound =>
      have hd' := Contents.mem_interfaces_of_find? hfound
      split at h
      · cases h
      next hnew =>
      have := unvisited_cons_lt (Contents.mem_structuralNames_of_find?_interface hfound) hnew
      obtain ⟨lists, hlists, h⟩ := Resolution.bind_eq_ok.1 h
      obtain ⟨bound, hbound, h⟩ := Resolution.bind_eq_ok.1 h
      obtain ⟨merged, hmerged, h⟩ := Resolution.bind_eq_ok.1 h
      cases h
      have hbinds : I.Binds bound := binds_bind hd (node_defaults_interface hfound)
        (shown_argumentLists hd harguments henv hlists) (List.forall_mem_nil _) hbound
      exact lists_mergedShapes hd
        (lists_ofMembers (fun m hm => I.node_member (I.node_members d hd') hm) hbinds)
        (fun base hbase => I.node_types base (Contents.heritage_mem_types hd' hbase)) hbinds hmerged
    · next d hfound =>
      split at h
      · cases h
      next hnew =>
      have := unvisited_cons_lt (Contents.mem_structuralNames_of_find?_alias hfound) hnew
      obtain ⟨lists, hlists, h⟩ := Resolution.bind_eq_ok.1 h
      obtain ⟨bound, hbound, h⟩ := Resolution.bind_eq_ok.1 h
      exact lists_shape hd (node_body hfound) (binds_bind hd (node_defaults_alias hfound)
        (shown_argumentLists hd harguments henv hlists) (List.forall_mem_nil _) hbound) h
    · cases h
  | .indexed o i =>
    rw [shape] at h
    obtain ⟨looked, hlooked, h⟩ := Resolution.bind_eq_ok.1 h
    split at h
    · next name optional readonly type env' =>
      obtain ⟨hmember, hbinds⟩ :=
        lists_of_indexedProperty? hd (I.node_part hnode (.head _)) henv hlooked
      exact hd.shape (I.node_part hmember (by simp [TypeNode.parts, Member.types])) hbinds h
    · cases h
  | .imported .. | .literal .. | .union .. | .array .. | .tuple .. | .function ..
  | .operator .. | .query .. | .raw .. =>
    rw [shape] at h
    · cases h
    all_goals simp
termination_by (unvisited s.contents.structuralNames seen, sizeOf node)
decreasing_by all_goals simp_wf; simp only [Prod.lex_def, true_and]; omega

theorem lists_mergedShapes (hd : I.Keeps deeper) {active seen : List String} {env : Env}
    {nodes : List TypeNode} {properties merged : List Property} (hproperties : I.Lists properties)
    (hnodes : ∀ node ∈ nodes, I.Node node) (henv : I.Binds env)
    (h : mergedShapes s deeper active seen env properties nodes = .ok merged) : I.Lists merged := by
  match nodes with
  | [] =>
    rw [mergedShapes] at h
    cases h
    exact hproperties
  | node :: nodes =>
    obtain ⟨hnode, hnodes⟩ := List.forall_mem_cons.1 hnodes
    rw [mergedShapes] at h
    obtain ⟨more, hmore, h⟩ := Resolution.bind_eq_ok.1 h
    have hlists : I.Lists (more.getD []) := by
      cases more with
      | none => exact List.forall_mem_nil _
      | some more => exact lists_shape hd hnode henv hmore
    exact lists_mergedShapes hd (hproperties.mergeShape hlists) hnodes henv h
termination_by (unvisited s.contents.structuralNames seen, sizeOf nodes)
decreasing_by all_goals simp_wf; simp only [Prod.lex_def, true_and]; omega

end

/-! ## All levels -/

/-- **Every level keeps the invariant.** -/
theorem keeps_deeperSteps (trail : List Descent) (level : Nat) :
    I.Keeps (deeperSteps s trail level) := by
  induction level generalizing trail with
  | zero => exact ⟨nofun, nofun, nofun⟩
  | succ level ih =>
    constructor
    · intro active env node types hnode henv h
      simp only [deeperSteps, Descent.enter] at h
      split at h
      · cases h
      · obtain ⟨collected, hcollected, rfl⟩ := Resolution.map_eq_ok.1 h
        exact shown_normalForm (shown_collect (ih _) hnode henv hcollected)
    · intro active env m types hmember henv h
      simp only [deeperSteps, Descent.enter] at h
      split at h
      · cases h
      · exact shown_memberTypes (ih _) hmember henv h
    · intro active seen env node properties hnode henv h
      simp only [deeperSteps, Descent.enter] at h
      split at h
      · cases h
      · exact lists_shape (ih _) hnode henv h

theorem keeps_steps : I.Keeps s.steps := keeps_deeperSteps [] nestingLimit

/-- **All that a description lists is shown.** -/
theorem shown_describe (hnode : I.Node node) (henv : I.Binds env)
    (h : s.describe env node = .ok types) : I.AllShown types := by
  obtain ⟨collected, hcollected, rfl⟩ := Scope.describe_eq_ok h
  exact shown_normalForm (shown_collect keeps_steps hnode henv hcollected)

/-- **So is a type as one type.** -/
theorem shown_resolveType {type : ResolvedType} (hnode : I.Node node) (henv : I.Binds env)
    (h : s.resolveType env node = .ok type) : I.Shown type :=
  shown_resolve keeps_steps hnode henv h

end Invariant

end FluentBuilders
