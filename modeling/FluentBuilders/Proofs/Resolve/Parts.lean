import FluentBuilders.Proofs.Source.Contents
import FluentBuilders.Resolve.Extraction

/-!
# Proofs/Resolve/Parts — the parts a union is written with, and what they collect

Two walks take the body of an alias apart: `unionParts` lists the parts it is written with,
`collect` gathers the constituents it resolves to.  Both follow aliases, and they come to the same
sites: what a site adds to one list and to the other is its **share** (`Share.Fits`), and the
shares make up both (`exists_shares`).
-/

namespace FluentBuilders

variable {s : Scope} {deeper : Deeper} {active seen : List String} {env : Env}

/-! ## Resolution that ends -/

theorem Resolution.bind_eq_ok {α β : Type} {x : Resolution α} {f : α → Resolution β} {b : β} :
    (x >>= f) = .ok b ↔ ∃ a, x = .ok a ∧ f a = .ok b := by
  cases x with
  | error e => exact ⟨fun h => (nomatch h), fun ⟨_, h, _⟩ => (nomatch h)⟩
  | ok a => exact ⟨fun h => ⟨a, rfl, h⟩, fun ⟨_, h, hf⟩ => by cases h; exact hf⟩

@[simp] theorem Resolution.ok_bind {α β : Type} (a : α) (f : α → Resolution β) :
    (Except.ok a >>= f) = f a := rfl

@[simp] theorem Resolution.map_ok {α β : Type} (a : α) (f : α → β) :
    (f <$> Except.ok a : Resolution β) = .ok (f a) := rfl

theorem Scope.describe_eq_ok {types : List ResolvedType} {node : TypeNode}
    (h : s.describe env node = .ok types) :
    ∃ collected, collect s s.steps [] env node = .ok collected ∧ types = s.normalForm collected := by
  unfold Scope.describe at h
  cases hc : collect s s.steps [] env node with
  | error e => rw [hc] at h; cases h
  | ok collected => rw [hc] at h; cases h; exact ⟨collected, rfl, rfl⟩

/-! ## Aliases that are taken apart -/

/-- **A reference that stands for the body of an alias**: the alias `d`, not being expanded yet,
with its parameters bound. -/
structure Expands (s : Scope) (deeper : Deeper) (active : List String) (env : Env) (name : String)
    (arguments : List TypeNode) (d : AliasDeclaration) (bound : Env) : Prop where
  free : arguments = [] → env.lookup name = none
  plain : ResolvedType.intrinsics.lookup name = none
  found : s.contents.find? (splitHead name).1 = some (.alias d)
  whole : (splitHead name).2 = ""
  new : d.name ∉ active
  unnamed : namedBodyKind? d.body = none
  binds : ∃ types, argumentLists s deeper active env arguments = .ok types ∧
    bind deeper active [] d.parameters types = .ok bound

/-- **A reference to an alias** that is not being expanded collects what the body of the alias does,
with the parameters bound to the arguments. -/
theorem collect_reference_alias {name : String} {arguments : List TypeNode} {d : AliasDeclaration}
    (hfree : arguments = [] → env.lookup name = none)
    (hplain : ResolvedType.intrinsics.lookup name = none)
    (hfound : s.contents.find? (splitHead name).1 = some (.alias d))
    (hwhole : (splitHead name).2 = "") (hnew : d.name ∉ active)
    (hunnamed : namedBodyKind? d.body = none) :
    collect s deeper active env (.reference name arguments) = (do
      let types ← argumentLists s deeper active env arguments
      let bound ← bind deeper active [] d.parameters types
      collect s deeper (d.name :: active) bound d.body) := by
  have hunbound : (if arguments.isEmpty = true then env.lookup name else none) = none := by
    split
    · next he => exact hfree (List.isEmpty_iff.1 he)
    · rfl
  have harray : ¬ ((name = "Array" ∨ name = "ReadonlyArray") ∧
      (s.contents.find? name).isNone = true) := by
    rintro ⟨hname, hnone⟩
    have hsplit : (splitHead name).1 = name := by
      rcases hname with rfl | rfl <;> decide
    rw [← hsplit, hfound] at hnone
    simp at hnone
  rw [collect, hunbound, hplain]
  simp only [harray, if_false]
  refine bind_congr fun types => ?_
  simp only [Bind.bind, Except.bind, pure, Except.pure]
  split
  · next e heq => rw [hfound] at heq; cases heq
  · next i heq => rw [hfound] at heq; cases heq
  · next d' heq =>
    rw [hfound] at heq
    cases heq
    simp only [hwhole, ne_eq, not_true_eq_false, if_false, hnew, dif_neg, not_false_eq_true, hunnamed]
  · next heq => rw [hfound] at heq; cases heq

theorem collect_of_expands {name : String} {arguments : List TypeNode} {d : AliasDeclaration}
    {bound : Env} (h : Expands s deeper active env name arguments d bound) :
    collect s deeper active env (.reference name arguments) =
      collect s deeper (d.name :: active) bound d.body := by
  obtain ⟨types, htypes, hbound⟩ := h.binds
  rw [collect_reference_alias h.free h.plain h.found h.whole h.new h.unnamed, htypes,
    Resolution.ok_bind, hbound, Resolution.ok_bind]

/-- A reference to an alias that collects something does so through the body of the alias. -/
theorem exists_expands_of_collect {name : String} {arguments : List TypeNode} {d : AliasDeclaration}
    {types : List ResolvedType} (hfree : arguments = [] → env.lookup name = none)
    (hplain : ResolvedType.intrinsics.lookup name = none)
    (hfound : s.contents.find? (splitHead name).1 = some (.alias d))
    (hwhole : (splitHead name).2 = "") (hnew : d.name ∉ active)
    (hunnamed : namedBodyKind? d.body = none)
    (h : collect s deeper active env (.reference name arguments) = .ok types) :
    ∃ bound, Expands s deeper active env name arguments d bound ∧
      collect s deeper (d.name :: active) bound d.body = .ok types := by
  rw [collect_reference_alias hfree hplain hfound hwhole hnew hunnamed] at h
  obtain ⟨argumentTypes, hargs, h⟩ := Resolution.bind_eq_ok.1 h
  obtain ⟨bound, hbound, h⟩ := Resolution.bind_eq_ok.1 h
  exact ⟨bound, ⟨hfree, hplain, hfound, hwhole, hnew, hunnamed, argumentTypes, hargs, hbound⟩, h⟩

theorem mem_of_lookup {α : Type} {pairs : List (String × α)} {name : String} {x : α}
    (h : pairs.lookup name = some x) : (name, x) ∈ pairs := by
  obtain ⟨before, after, rfl, -⟩ := List.lookup_eq_some_iff.1 h
  exact List.mem_append_right _ List.mem_cons_self

theorem map_fst_bind {deeper : Deeper} {active : List String} {env bound : Env}
    {parameters : List TypeParameter} {arguments : List (List ResolvedType)}
    (h : bind deeper active env parameters arguments = .ok bound) :
    bound.map (·.1) = (parameters.map (·.name)).reverse ++ env.map (·.1) := by
  induction parameters generalizing env arguments with
  | nil => rw [bind] at h; cases h; rfl
  | cons p parameters ih =>
    cases arguments with
    | cons types arguments =>
      rw [bind] at h
      simpa using ih h
    | nil =>
      rw [bind] at h
      split at h
      · simpa using ih h
      · obtain ⟨types, -, h⟩ := Resolution.bind_eq_ok.1 h
        simpa using ih h

theorem map_fst_parameterEnv (parameters : List TypeParameter) :
    (parameterEnv parameters).map (·.1) = (parameters.map (·.name)).reverse := by
  have h : ∀ env : Env, (parameters.foldl
      (fun env p => (p.name, [.plain p.name .typeParameter]) :: env) env).map (·.1) =
        (parameters.map (·.name)).reverse ++ env.map (·.1) := by
    induction parameters with
    | nil => intro env; rfl
    | cons p parameters ih => intro env; rw [List.foldl_cons, ih]; simp
  exact (h []).trans (List.append_nil _)

theorem lookup_eq_none_iff_not_mem {env : Env} {name : String} :
    env.lookup name = none ↔ name ∉ env.map (·.1) := by
  rw [List.lookup_eq_none_iff]
  constructor
  · intro h hmem
    obtain ⟨p, hp, rfl⟩ := List.mem_map.1 hmem
    simpa using h p hp
  · rintro h p hp
    exact bne_iff_ne.2 fun heq => h (heq ▸ List.mem_map_of_mem hp)

/-! ## Parts -/

/-- **The parts of a type that is not followed**: the two of `boolean`, one for each of the types its
parameter is bound to when there are several, and otherwise the type as it is written. -/
inductive Splits : Env → TypeNode → List (TypeNode × Env) → Prop
  | boolean {env arguments} :
      Splits env (.reference "boolean" arguments)
        [(.reference "false" [], env), (.reference "true" [], env)]
  | parameter {env name arguments types} (hname : name ≠ "boolean")
      (h : env.lookup name = some types) (hmany : 1 < types.length) :
      Splits env (.reference name arguments) (types.map fun t => (.raw t.text, []))
  | reference {env name arguments} (hname : name ≠ "boolean")
      (h : ∀ types, env.lookup name = some types → types.length ≤ 1) :
      Splits env (.reference name arguments) [(.reference name arguments, env)]
  | other {env node} (hunion : ∀ members, node ≠ .union members)
      (href : ∀ name arguments, node ≠ .reference name arguments) :
      Splits env node [(node, env)]

theorem Splits.one_le_length {node : TypeNode} {parts : List (TypeNode × Env)}
    (h : Splits env node parts) : 1 ≤ parts.length := by
  cases h with
  | boolean => simp
  | parameter hname h hmany =>
    rw [List.length_map]
    omega
  | reference => simp
  | other => simp

/-- **What the parts of a reference are**: those of a type that is not followed, or the parts of the
alias it names. -/
theorem unionParts_reference_cases {name : String} {arguments : List TypeNode}
    {parts : List (TypeNode × Env)}
    (h : unionParts s deeper seen env (.reference name arguments) = .ok parts) :
    (Splits env (.reference name arguments) parts ∧
        (name ≠ "boolean" → env.lookup name = none →
          ∀ d, s.contents.find? name = some (.alias d) →
            d.name ∈ seen ∨ isUnionBody d.body = false)) ∨
      name ≠ "boolean" ∧ env.lookup name = none ∧
        ∃ d types bound, s.contents.find? name = some (.alias d) ∧ d.name ∉ seen ∧
          isUnionBody d.body ∧ argumentLists s deeper [] env arguments = .ok types ∧
          bind deeper [] [] d.parameters types = .ok bound ∧
          unionParts s deeper (d.name :: seen) bound d.body = .ok parts := by
  rw [unionParts] at h
  split at h
  · next hname =>
    cases h
    subst hname
    exact .inl ⟨.boolean, fun hname => absurd rfl hname⟩
  next hname =>
  split at h
  · next types htypes =>
    refine .inl ⟨?_, fun _ hnone => by rw [htypes] at hnone; cases hnone⟩
    split at h
    · next hmany => cases h; exact .parameter hname htypes hmany
    · next hmany =>
      cases h
      refine .reference hname fun types' htypes' => ?_
      rw [htypes] at htypes'
      cases htypes'
      exact Nat.not_lt.1 hmany
  next hnone =>
  have hself : Splits env (.reference name arguments) [(.reference name arguments, env)] :=
    .reference hname fun types htypes => by rw [hnone] at htypes; cases htypes
  split at h
  · next d hfound =>
    split at h
    · next hseen =>
      cases h
      refine .inl ⟨hself, fun _ _ d' hd' => ?_⟩
      rw [hfound] at hd'
      cases hd'
      exact .inl hseen
    next hnew =>
    split at h
    · next hbody =>
      obtain ⟨types, htypes, h⟩ := Resolution.bind_eq_ok.1 h
      obtain ⟨bound, hbound, h⟩ := Resolution.bind_eq_ok.1 h
      exact .inr ⟨hname, hnone, d, types, bound, hfound, hnew, hbody, htypes, hbound, h⟩
    · next hbody =>
      cases h
      refine .inl ⟨hself, fun _ _ d' hd' => ?_⟩
      rw [hfound] at hd'
      cases hd'
      exact .inr (by simpa using hbody)
  · next hother =>
    cases h
    exact .inl ⟨hself, fun _ _ d' hd' => absurd hd' (hother d')⟩

theorem splits_of_unionParts {node : TypeNode} {parts : List (TypeNode × Env)}
    (hunion : ∀ members, node ≠ .union members)
    (href : ∀ name arguments, node ≠ .reference name arguments)
    (h : unionParts s deeper seen env node = .ok parts) : Splits env node parts := by
  rw [unionParts] at h
  · cases h
    exact .other hunion href
  · exact hunion
  · exact href

mutual

/-- Every type has a part. -/
theorem one_le_length_unionParts (hs : s.contents.Sound) {seen : List String} {env : Env}
    {node : TypeNode} {parts : List (TypeNode × Env)} (hjoins : node.joins)
    (h : unionParts s deeper seen env node = .ok parts) : 1 ≤ parts.length := by
  match node with
  | .union members =>
    rw [unionParts] at h
    simp only [TypeNode.joins, Bool.and_eq_true, decide_eq_true_eq] at hjoins
    have := length_le_length_unionPartsAll hs hjoins.2 h
    omega
  | .reference name arguments =>
    obtain ⟨hsplits, -⟩ | ⟨-, -, d, types, bound, hfound, hnew, -, -, -, hbody⟩ :=
      unionParts_reference_cases h
    · exact hsplits.one_le_length
    · have := unvisited_cons_lt (Contents.mem_structuralNames_of_find?_alias hfound) hnew
      obtain ⟨hmem, -⟩ := Contents.mem_aliases_of_find? hfound
      exact one_le_length_unionParts hs (hs.aliases d hmem).joins hbody
  | .imported .. | .literal .. | .intersection .. | .array .. | .indexed .. | .tuple ..
  | .function .. | .operator .. | .query .. | .object .. | .raw .. =>
    exact (splits_of_unionParts (by simp) (by simp) h).one_le_length
termination_by (unvisited s.contents.structuralNames seen, sizeOf node)
decreasing_by all_goals simp_wf; simp only [Prod.lex_def, true_and]; omega

/-- Several types have as many parts at least. -/
theorem length_le_length_unionPartsAll (hs : s.contents.Sound) {seen : List String} {env : Env}
    {nodes : List TypeNode} {parts : List (TypeNode × Env)} (hjoins : joinsAll nodes)
    (h : unionPartsAll s deeper seen env nodes = .ok parts) : nodes.length ≤ parts.length := by
  match nodes with
  | [] => exact Nat.zero_le _
  | node :: nodes =>
    rw [unionPartsAll] at h
    obtain ⟨first, hfirst, h⟩ := Resolution.bind_eq_ok.1 h
    obtain ⟨others, hothers, h⟩ := Resolution.bind_eq_ok.1 h
    cases h
    rw [joinsAll, Bool.and_eq_true] at hjoins
    have h1 := one_le_length_unionParts hs hjoins.1 hfirst
    have h2 := length_le_length_unionPartsAll hs hjoins.2 hothers
    rw [List.length_append, List.length_cons]
    omega
termination_by (unvisited s.contents.structuralNames seen, sizeOf nodes)
decreasing_by all_goals simp_wf; simp only [Prod.lex_def, true_and]; omega

end

/-! ## Sites and shares -/

/-- **A site in the body of an alias**: a type, the aliases it was reached through, and what the type
parameters stand for there.  To bind them, the walk over the constituents (`inner`) leaves the aliases
it has come through unexpanded, the walk over the parts (`outer`) starts afresh. -/
structure Site where
  node : TypeNode
  active : List String
  inner : Env
  outer : Env

/-- **The sites that both walks come to**, from the body of `home` on: the members of a union, and
the body of an alias, other than `home`, that is itself a union or a reference. -/
inductive Site.Reached (s : Scope) (deeper : Deeper) (home : AliasDeclaration) : Site → Prop
  | body : Reached s deeper home
      ⟨home.body, [], parameterEnv home.parameters, parameterEnv home.parameters⟩
  | member {members node active inner outer}
      (h : Reached s deeper home ⟨.union members, active, inner, outer⟩) (hmem : node ∈ members) :
      Reached s deeper home ⟨node, active, inner, outer⟩
  | ofAlias {name arguments d active inner outer bound types bound'}
      (h : Reached s deeper home ⟨.reference name arguments, active, inner, outer⟩)
      (hinner : Expands s deeper active inner name arguments d bound) (hne : d.name ≠ home.name)
      (hbody : isUnionBody d.body)
      (htypes : argumentLists s deeper [] outer arguments = .ok types)
      (houter : bind deeper [] [] d.parameters types = .ok bound') :
      Reached s deeper home ⟨d.body, d.name :: active, bound, bound'⟩

/-- Both walks have the same type parameters everywhere. -/
theorem Site.Reached.map_fst {home : AliasDeclaration} {p : Site} (h : p.Reached s deeper home) :
    p.outer.map (·.1) = p.inner.map (·.1) := by
  induction h with
  | body => rfl
  | member _ _ ih => exact ih
  | ofAlias _ hinner _ _ _ houter =>
    obtain ⟨_, -, hbind⟩ := hinner.binds
    rw [map_fst_bind houter, map_fst_bind hbind]

/-- **What a type adds** to the parts and to the constituents. -/
structure Share where
  site : Site
  parts : List (TypeNode × Env)
  types : List ResolvedType

/-- **A share of the body of `home`**: a site both walks come to where one of them does not go on,
with its parts and with what it collects.  Only at the name of a built-in type that the file declares
as an alias too does one walk go on alone, that over the parts. -/
structure Share.Fits (s : Scope) (deeper : Deeper) (home : AliasDeclaration) (x : Share) : Prop where
  reached : x.site.Reached s deeper home
  splits : Splits x.site.outer x.site.node x.parts ∨
    ∃ name arguments, x.site.node = .reference name arguments ∧
      (ResolvedType.intrinsics.lookup name).isSome ∧
      unionParts s deeper (x.site.active ++ [home.name]) x.site.outer x.site.node = .ok x.parts
  collects : collect s deeper x.site.active x.site.inner x.site.node = .ok x.types

/-- One share makes up all the parts and all the constituents. -/
theorem exists_shares_of_fits {home : AliasDeclaration} {site : Site}
    {parts : List (TypeNode × Env)} {types : List ResolvedType}
    (h : Share.Fits s deeper home ⟨site, parts, types⟩) :
    ∃ shares : List Share, (∀ x ∈ shares, x.Fits s deeper home) ∧
      parts = shares.flatMap Share.parts ∧ types = shares.flatMap Share.types :=
  ⟨[⟨site, parts, types⟩], fun x hx => by rwa [List.mem_singleton.1 hx], by simp, by simp⟩

mutual

/-- **The shares make up both lists**: from a site on, the parts are those of the shares one after
the other, and so are the constituents. -/
theorem exists_shares (hs : s.contents.Sound) {home : AliasDeclaration} {node : TypeNode}
    {active : List String} {inner outer : Env} {parts : List (TypeNode × Env)}
    {types : List ResolvedType}
    (hreached : Site.Reached s deeper home ⟨node, active, inner, outer⟩)
    (hparts : unionParts s deeper (active ++ [home.name]) outer node = .ok parts)
    (htypes : collect s deeper active inner node = .ok types) :
    ∃ shares : List Share, (∀ x ∈ shares, x.Fits s deeper home) ∧
      parts = shares.flatMap Share.parts ∧ types = shares.flatMap Share.types := by
  match node with
  | .union members =>
    rw [unionParts] at hparts
    rw [collect] at htypes
    exact exists_shares_all hs (fun n hn => hreached.member hn) hparts htypes
  | .reference name arguments =>
    obtain ⟨hsplits, -⟩ | ⟨hname, hnone, d, argumentTypes, bound', hfound, hnew, hbody, hargs,
      hbound', hparts'⟩ := unionParts_reference_cases hparts
    · exact exists_shares_of_fits ⟨hreached, .inl hsplits, htypes⟩
    cases hplain : ResolvedType.intrinsics.lookup name with
    | some known =>
      have hknown : (ResolvedType.intrinsics.lookup name).isSome := by rw [hplain]; rfl
      exact exists_shares_of_fits
        ⟨hreached, .inr ⟨name, arguments, rfl, hknown, hparts⟩, htypes⟩
    | none =>
      obtain ⟨hmem, rfl⟩ := Contents.mem_aliases_of_find? hfound
      have hsplit := (hs.aliases d hmem).plain
      obtain ⟨hnew', hne⟩ : d.name ∉ active ∧ d.name ≠ home.name := by simpa using hnew
      have hfree : inner.lookup d.name = none := by
        rw [lookup_eq_none_iff_not_mem] at hnone ⊢
        rwa [← hreached.map_fst]
      have hunnamed : namedBodyKind? d.body = none := by
        cases hd : d.body <;> rw [hd] at hbody <;> first | rfl | cases hbody
      obtain ⟨bound, hexpands, htypes'⟩ := exists_expands_of_collect (fun _ => hfree) hplain
        (by rw [hsplit]; exact hfound) (by rw [hsplit]) hnew' hunnamed htypes
      have := unvisited_cons_lt (Contents.mem_structuralNames_of_find?_alias hfound) hnew
      exact exists_shares hs (hreached.ofAlias hexpands hne hbody hargs hbound') hparts' htypes'
  | .imported .. | .literal .. | .intersection .. | .array .. | .indexed .. | .tuple ..
  | .function .. | .operator .. | .query .. | .object .. | .raw .. =>
    exact exists_shares_of_fits
      ⟨hreached, .inl (splits_of_unionParts (by simp) (by simp) hparts), htypes⟩
termination_by (unvisited s.contents.structuralNames (active ++ [home.name]), sizeOf node)
decreasing_by all_goals simp_wf; simp only [Prod.lex_def, true_and]; omega

/-- The shares of several types in a row. -/
theorem exists_shares_all (hs : s.contents.Sound) {home : AliasDeclaration} {nodes : List TypeNode}
    {active : List String} {inner outer : Env} {parts : List (TypeNode × Env)}
    {types : List ResolvedType}
    (hreached : ∀ node ∈ nodes, Site.Reached s deeper home ⟨node, active, inner, outer⟩)
    (hparts : unionPartsAll s deeper (active ++ [home.name]) outer nodes = .ok parts)
    (htypes : collectAll s deeper active inner nodes = .ok types) :
    ∃ shares : List Share, (∀ x ∈ shares, x.Fits s deeper home) ∧
      parts = shares.flatMap Share.parts ∧ types = shares.flatMap Share.types := by
  match nodes with
  | [] =>
    rw [unionPartsAll] at hparts
    rw [collectAll] at htypes
    cases hparts
    cases htypes
    exact ⟨[], by simp, rfl, rfl⟩
  | node :: nodes =>
    rw [unionPartsAll] at hparts
    obtain ⟨firstParts, hfirst, hparts⟩ := Resolution.bind_eq_ok.1 hparts
    obtain ⟨otherParts, hothers, hparts⟩ := Resolution.bind_eq_ok.1 hparts
    cases hparts
    rw [collectAll] at htypes
    obtain ⟨firstTypes, hfirst', htypes⟩ := Resolution.bind_eq_ok.1 htypes
    obtain ⟨otherTypes, hothers', htypes⟩ := Resolution.bind_eq_ok.1 htypes
    cases htypes
    obtain ⟨shares, hshares, rfl, rfl⟩ :=
      exists_shares hs (hreached node List.mem_cons_self) hfirst hfirst'
    obtain ⟨others, hshares', rfl, rfl⟩ :=
      exists_shares_all hs (fun n hn => hreached n (List.mem_cons_of_mem node hn)) hothers hothers'
    refine ⟨shares ++ others, fun x hx => ?_, List.flatMap_append.symm, List.flatMap_append.symm⟩
    exact (List.mem_append.1 hx).elim (hshares x) (hshares' x)
termination_by (unvisited s.contents.structuralNames (active ++ [home.name]), sizeOf nodes)
decreasing_by all_goals simp_wf; simp only [Prod.lex_def, true_and]; omega

end

end FluentBuilders
