import FluentBuilders.Proofs.Resolve.Plain
import FluentBuilders.Proofs.Syntax.Substitution

/-!
# Proofs/Resolve/Instantiation — a generic alias with arguments

Expansion binds the parameters of an alias to its arguments in normal form and splices these into
the body.  For plain types the outcome is what the body gives with the arguments put in the place of
the parameters (`describe_instance`).  The two walks gather constituents that are alike, and every
place where constituents become one type brings them to normal form first.
-/

namespace FluentBuilders

variable {s : Scope} {deeper : Deeper} {active : List String} {env : Env}
  {parameters : List String} {node : TypeNode} {name : String} {t : ResolvedType}

/-! ## Two walks -/

/-- **Parameters bound to types**: in the environment to what the types collect, in normal form, in
the substitution to the types themselves, which are plain. -/
structure Binds (s : Scope) (deeper : Deeper) (active : List String) (parameters : List String)
    (env : Env) (σ : Substitution) : Prop where
  free : ∀ name, name ∉ parameters → env.lookup name = none ∧ σ.lookup name = none
  bound : ∀ name ∈ parameters, ∃ node types, σ.lookup name = some node ∧
    node.AvoidsAliases s.contents [] ∧ collect s deeper active [] node = .ok types ∧
      (∀ t ∈ types, TellsNullish t) ∧ env.lookup name = some (s.normalForm types)

section

variable {active' : List String} {σ : Substitution}

theorem avoidsAliases_substitute (hb : Binds s deeper active' parameters env σ)
    (h : node.AvoidsAliases s.contents parameters) :
    (node.substitute σ).AvoidsAliases s.contents [] := by
  match node with
  | .reference name [] =>
    rw [TypeNode.substitute]
    by_cases hname : name ∈ parameters
    · obtain ⟨node, types, hlookup, hnode, -⟩ := hb.bound name hname
      rw [hlookup]
      exact hnode
    · rw [(hb.free name hname).2]
      exact .inr (h.resolve_left fun h => hname h.1)
  | .reference name (a :: arguments) =>
    rw [TypeNode.substitute]
    exact .inr (h.resolve_left nofun)
  | .imported .. | .literal .. | .union .. | .intersection .. | .array .. | .indexed .. | .tuple ..
  | .function .. | .operator .. | .query .. | .object .. | .raw .. => trivial

/-- A name that is no parameter stays, its arguments change. -/
theorem substitute_reference {arguments : List TypeNode} (h : σ.lookup name = none) :
    (TypeNode.reference name arguments).substitute σ =
      .reference name (substituteAll σ arguments) := by
  cases arguments with
  | nil => rw [TypeNode.substitute, h]; rfl
  | cons a arguments => rw [TypeNode.substitute, substituteAll]

/-- **Both walks make the same type** of constituents that are alike. -/
theorem resolve_substitute (hs : s.contents.Sound) (hb : Binds s deeper active' parameters env σ)
    (hnode : node.isPlain s.contents parameters)
    (h : ∃ xs ys, collect s deeper active env node = .ok xs ∧
      collect s deeper active' [] (node.substitute σ) = .ok ys ∧
        Alike s.strictNullChecks xs ys) :
    ∃ t, resolve s deeper active env node = .ok t ∧
      resolve s deeper active' [] (node.substitute σ) = .ok t ∧ TellsNullish t := by
  obtain ⟨xs, ys, hxs, hys, halike⟩ := h
  have havoids := avoidsAliases_of_isPlain hnode
  have hbound : ∀ name ∈ parameters, env.lookup name ≠ none := by
    intro name hname hnone
    obtain ⟨_, _, -, -, -, -, hlookup⟩ := hb.bound name hname
    rw [hnone] at hlookup
    cases hlookup
  refine ⟨_, resolve_of_collect hs havoids hbound hxs, ?_, ?_⟩
  · rw [resolve_of_collect hs (avoidsAliases_substitute hb havoids) (by simp) hys,
      Scope.normalForm, Scope.normalForm, halike.normalize_eq]
  · exact tellsNullish_single (alike_normalize halike.left).left

mutual

/-- **Expansion under an environment and expansion of the substituted type** gather constituents
that are alike. -/
theorem collect_substitute (hs : s.contents.Sound) (hb : Binds s deeper active' parameters env σ)
    {node : TypeNode} (h : node.isPlain s.contents parameters) :
    ∃ xs ys, collect s deeper active env node = .ok xs ∧
      collect s deeper active' [] (node.substitute σ) = .ok ys ∧
        Alike s.strictNullChecks xs ys := by
  match node with
  | .reference name arguments =>
    by_cases hname : name ∈ parameters
    · obtain ⟨node, types, hlookup, -, htypes, htells, henv⟩ := hb.bound name hname
      rw [TypeNode.isPlain, if_pos hname, List.isEmpty_iff] at h
      subst h
      refine ⟨_, _, collect_of_lookup henv, ?_, alike_normalize htells⟩
      rwa [TypeNode.substitute, hlookup]
    · obtain ⟨henv, hσ⟩ := hb.free name hname
      rw [TypeNode.isPlain, if_neg hname, Bool.and_eq_true, Bool.or_eq_true] at h
      rw [substitute_reference hσ]
      cases hintrinsic : ResolvedType.intrinsics.lookup name with
      | some types =>
        exact ⟨_, _, collect_of_intrinsic (fun _ => henv) hintrinsic,
          collect_of_intrinsic (fun _ => rfl) hintrinsic,
          .refl (tellsNullish_of_intrinsic hintrinsic)⟩
      | none =>
        have hforeign : s.contents.isForeign name := h.1.resolve_left (by simp [hintrinsic])
        obtain ⟨types, htypes, htypes'⟩ := argumentLists_substitute hs hb h.2
        obtain ⟨elements, helements, helements', -⟩ := resolveEach_substitute hs hb h.2
        refine ⟨_, _, collect_of_foreign (fun _ => henv) hintrinsic hforeign htypes helements,
          collect_of_foreign (fun _ => rfl) hintrinsic hforeign htypes' helements', .refl ?_⟩
        simpa using tellsNullish_foreignType hintrinsic
  | .literal kind text =>
    rw [TypeNode.isPlain, decide_eq_true_eq] at h
    have htells : ∀ t ∈ [Literal.type (kind, text)], TellsNullish t := by
      simpa using tellsNullish_literal h
    exact ⟨_, _, collect_literal, by rw [TypeNode.substitute, collect_literal], .refl htells⟩
  | .union members =>
    rw [TypeNode.isPlain] at h
    obtain ⟨xs, ys, hxs, hys, halike⟩ := collectAll_substitute hs hb h
    exact ⟨xs, ys, by rw [collect, hxs], by rw [TypeNode.substitute, collect, hys], halike⟩
  | .intersection members =>
    rw [TypeNode.isPlain, Bool.and_eq_true, decide_eq_true_eq] at h
    obtain ⟨types, htypes, htypes', hlength⟩ := resolveEach_substitute hs hb h.2
    refine ⟨_, _, by rw [collect, htypes]; rfl, by rw [TypeNode.substitute, collect, htypes']; rfl,
      .refl (List.forall_mem_singleton.2 ?_)⟩
    obtain ⟨t, u, rest, rfl⟩ : ∃ t u rest, types = t :: u :: rest := by
      match types, hlength ▸ h.1 with
      | t :: u :: rest, _ => exact ⟨t, u, rest, rfl⟩
    exact tellsNullish_of_mem (c := '&') (mem_toList_intercalate_separator (by decide))
      (by decide) rfl
  | .array element =>
    rw [TypeNode.isPlain] at h
    obtain ⟨t, ht, ht', -⟩ := resolve_substitute hs hb h (collect_substitute hs hb h)
    exact ⟨_, _, by rw [collect, ht]; rfl, by rw [TypeNode.substitute, collect, ht']; rfl,
      .refl (List.forall_mem_singleton.2 (tellsNullish_array t))⟩
  | .tuple elements =>
    rw [TypeNode.isPlain] at h
    obtain ⟨texts, htexts, htexts'⟩ := elementTexts_substitute hs hb h
    exact ⟨_, _, by rw [collect, htexts]; rfl, by rw [TypeNode.substitute, collect, htexts']; rfl,
      .refl (List.forall_mem_singleton.2 (tellsNullish_of_mem (c := '[')
        (by simp [ResolvedType.text]) (by decide) rfl))⟩
  | .function ps returns =>
    rw [TypeNode.isPlain, Bool.and_eq_true] at h
    obtain ⟨texts, htexts, htexts'⟩ := parameterTexts_substitute hs hb h.1
    obtain ⟨t, ht, ht', -⟩ := resolve_substitute hs hb h.2 (collect_substitute hs hb h.2)
    exact ⟨_, _, by rw [collect, htexts, ht]; rfl,
      by rw [TypeNode.substitute, collect, htexts', ht']; rfl,
      .refl (List.forall_mem_singleton.2 (tellsNullish_of_mem (c := '(')
        (by simp [ResolvedType.text, signatureText]) (by decide) rfl))⟩
  | .operator .readonly operand =>
    rw [TypeNode.isPlain] at h
    obtain ⟨t, ht, ht', htells⟩ := resolve_substitute hs hb h (collect_substitute hs hb h)
    have hone : ∀ active env node, resolve s deeper active env node = .ok t →
        collect s deeper active env (.operator .readonly node) = .ok [readonlyType t] := by
      intro active env node ht
      rw [collect, ht, readonlyType]
      simp only [Resolution.ok_bind]
      split <;> rfl
    exact ⟨_, _, hone _ _ _ ht, by rw [TypeNode.substitute]; exact hone _ _ _ ht',
      .refl (List.forall_mem_singleton.2 (tellsNullish_readonlyType htells))⟩
  | .object members =>
    rw [TypeNode.isPlain] at h
    obtain ⟨texts, htexts, htexts'⟩ := memberTexts_substitute hs hb h
    exact ⟨_, _, by rw [collect, htexts]; rfl, by rw [TypeNode.substitute, collect, htexts']; rfl,
      .refl (List.forall_mem_singleton.2 (tellsNullish_bodyText texts))⟩
  | .operator .keyof _ | .operator .unique _ | .imported .. | .indexed .. | .query .. | .raw .. =>
    exact absurd h (by simp [TypeNode.isPlain])
termination_by sizeOf node

theorem collectAll_substitute (hs : s.contents.Sound)
    (hb : Binds s deeper active' parameters env σ) {nodes : List TypeNode}
    (h : arePlain s.contents parameters nodes) :
    ∃ xs ys, collectAll s deeper active env nodes = .ok xs ∧
      collectAll s deeper active' [] (substituteAll σ nodes) = .ok ys ∧
        Alike s.strictNullChecks xs ys := by
  match nodes with
  | [] => exact ⟨[], [], by rw [collectAll], by rw [substituteAll, collectAll], .refl (by simp)⟩
  | node :: nodes =>
    rw [arePlain, Bool.and_eq_true] at h
    obtain ⟨xs, ys, hxs, hys, halike⟩ := collect_substitute hs hb h.1
    obtain ⟨xs', ys', hxs', hys', halike'⟩ := collectAll_substitute hs hb h.2
    exact ⟨xs ++ xs', ys ++ ys', by rw [collectAll, hxs, hxs']; rfl,
      by rw [substituteAll, collectAll, hys, hys']; rfl, halike.append halike'⟩
termination_by sizeOf nodes

theorem argumentLists_substitute (hs : s.contents.Sound)
    (hb : Binds s deeper active' parameters env σ) {nodes : List TypeNode}
    (h : arePlain s.contents parameters nodes) :
    ∃ types, argumentLists s deeper active env nodes = .ok types ∧
      argumentLists s deeper active' [] (substituteAll σ nodes) = .ok types := by
  match nodes with
  | [] => exact ⟨[], by rw [argumentLists], by rw [substituteAll, argumentLists]⟩
  | node :: nodes =>
    rw [arePlain, Bool.and_eq_true] at h
    obtain ⟨xs, ys, hxs, hys, halike⟩ := collect_substitute hs hb h.1
    obtain ⟨types, htypes, htypes'⟩ := argumentLists_substitute hs hb h.2
    refine ⟨s.normalForm xs :: types, by rw [argumentLists, hxs, htypes]; rfl, ?_⟩
    rw [substituteAll, argumentLists, hys, htypes', Scope.normalForm, halike.normalize_eq]
    rfl
termination_by sizeOf nodes

theorem resolveEach_substitute (hs : s.contents.Sound)
    (hb : Binds s deeper active' parameters env σ) {nodes : List TypeNode}
    (h : arePlain s.contents parameters nodes) :
    ∃ types, resolveEach s deeper active env nodes = .ok types ∧
      resolveEach s deeper active' [] (substituteAll σ nodes) = .ok types ∧
        types.length = nodes.length := by
  match nodes with
  | [] => exact ⟨[], by rw [resolveEach], by rw [substituteAll, resolveEach], rfl⟩
  | node :: nodes =>
    rw [arePlain, Bool.and_eq_true] at h
    obtain ⟨t, ht, ht', -⟩ := resolve_substitute hs hb h.1 (collect_substitute hs hb h.1)
    obtain ⟨types, htypes, htypes', hlength⟩ := resolveEach_substitute hs hb h.2
    exact ⟨t :: types, by rw [resolveEach, ht, htypes]; rfl,
      by rw [substituteAll, resolveEach, ht', htypes']; rfl, by simp [hlength]⟩
termination_by sizeOf nodes

theorem optionalTypeText_substitute (hs : s.contents.Sound)
    (hb : Binds s deeper active' parameters env σ) {type : Option TypeNode}
    (h : optionalIsPlain s.contents parameters type) :
    ∃ text, optionalTypeText s deeper active env type = .ok text ∧
      optionalTypeText s deeper active' [] (substituteOptional σ type) = .ok text := by
  match type with
  | none => exact ⟨"any", by rw [optionalTypeText], by rw [substituteOptional, optionalTypeText]⟩
  | some node =>
    obtain ⟨t, ht, ht', -⟩ := resolve_substitute hs hb h (collect_substitute hs hb h)
    exact ⟨t.text, by rw [optionalTypeText, ht]; rfl,
      by rw [substituteOptional, optionalTypeText, ht']; rfl⟩
termination_by sizeOf type

theorem elementTexts_substitute (hs : s.contents.Sound)
    (hb : Binds s deeper active' parameters env σ) {elements : List TupleElement}
    (h : elementsArePlain s.contents parameters elements) :
    ∃ texts, elementTexts s deeper active env elements = .ok texts ∧
      elementTexts s deeper active' [] (substituteElements σ elements) = .ok texts := by
  match elements with
  | [] => exact ⟨[], by rw [elementTexts], by rw [substituteElements, elementTexts]⟩
  | .plain node :: elements | .named _ _ node :: elements | .rest node :: elements =>
    rw [elementsArePlain, Bool.and_eq_true] at h
    obtain ⟨t, ht, ht', -⟩ := resolve_substitute hs hb h.1 (collect_substitute hs hb h.1)
    obtain ⟨texts, htexts, htexts'⟩ := elementTexts_substitute hs hb h.2
    exact ⟨_, by rw [elementTexts, ht, htexts]; rfl,
      by rw [substituteElements, elementTexts, ht', htexts']; rfl⟩
termination_by sizeOf elements

theorem parameterTexts_substitute (hs : s.contents.Sound)
    (hb : Binds s deeper active' parameters env σ) {ps : List Parameter}
    (h : parametersArePlain s.contents parameters ps) :
    ∃ texts, parameterTexts s deeper active env ps = .ok texts ∧
      parameterTexts s deeper active' [] (substituteParameters σ ps) = .ok texts := by
  match ps with
  | [] => exact ⟨[], by rw [parameterTexts], by rw [substituteParameters, parameterTexts]⟩
  | .mk name optional rest node :: ps =>
    rw [parametersArePlain, Bool.and_eq_true] at h
    obtain ⟨t, ht, ht', -⟩ := resolve_substitute hs hb h.1 (collect_substitute hs hb h.1)
    obtain ⟨texts, htexts, htexts'⟩ := parameterTexts_substitute hs hb h.2
    exact ⟨_, by rw [parameterTexts, ht, htexts]; rfl,
      by rw [substituteParameters, parameterTexts, ht', htexts']; rfl⟩
termination_by sizeOf ps

theorem memberTexts_substitute (hs : s.contents.Sound)
    (hb : Binds s deeper active' parameters env σ) {members : List Member}
    (h : membersArePlain s.contents parameters members) :
    ∃ texts, memberTexts s deeper active env members = .ok texts ∧
      memberTexts s deeper active' [] (substituteMembers σ members) = .ok texts := by
  match members with
  | [] => exact ⟨[], by rw [memberTexts], by rw [substituteMembers, memberTexts]⟩
  | .index key readonly keyType valueType :: members =>
    rw [membersArePlain, Bool.and_eq_true, Bool.and_eq_true] at h
    obtain ⟨k, hk, hk', -⟩ := resolve_substitute hs hb h.1.1 (collect_substitute hs hb h.1.1)
    obtain ⟨v, hv, hv', -⟩ := resolve_substitute hs hb h.1.2 (collect_substitute hs hb h.1.2)
    obtain ⟨texts, htexts, htexts'⟩ := memberTexts_substitute hs hb h.2
    exact ⟨_, by rw [memberTexts, hk, hv, htexts]; rfl,
      by rw [substituteMembers, memberTexts, hk', hv', htexts']; rfl⟩
  | .method name optional ps returns :: members =>
    rw [membersArePlain, Bool.and_eq_true, Bool.and_eq_true] at h
    obtain ⟨parameters, hps, hps'⟩ := parameterTexts_substitute hs hb h.1.1
    obtain ⟨text, htext, htext'⟩ := optionalTypeText_substitute hs hb h.1.2
    obtain ⟨texts, htexts, htexts'⟩ := memberTexts_substitute hs hb h.2
    exact ⟨_, by rw [memberTexts, hps, htext, htexts]; rfl,
      by rw [substituteMembers, memberTexts, hps', htext', htexts']; rfl⟩
  | .property name optional readonly none :: members =>
    rw [membersArePlain, Bool.and_eq_true] at h
    obtain ⟨texts, htexts, htexts'⟩ := memberTexts_substitute hs hb h.2
    exact ⟨_, by rw [memberTexts, memberTypes, htexts]; rfl,
      by rw [substituteMembers, substituteOptional, memberTexts, memberTypes, htexts']; rfl⟩
  | .property name optional readonly (some node) :: members =>
    rw [membersArePlain, optionalIsPlain, Bool.and_eq_true] at h
    obtain ⟨xs, ys, hxs, hys, halike⟩ := collect_substitute hs hb h.1
    obtain ⟨texts, htexts, htexts'⟩ := memberTexts_substitute hs hb h.2
    have hform := memberForm_congr (s := s) optional halike
    refine ⟨_, by rw [memberTexts, memberTypes, hxs, htexts]; rfl, ?_⟩
    rw [substituteMembers, substituteOptional, memberTexts, memberTypes, hys, htexts', hform]
    rfl
termination_by sizeOf members

end

end

/-! ## Instances -/

theorem lookup_zip_eq_none {α : Type} {names : List String} {xs : List α} (h : name ∉ names) :
    (names.zip xs).lookup name = none := by
  rw [List.lookup_eq_none_iff]
  rintro ⟨n, x⟩ hmem
  exact bne_iff_ne.2 fun heq => h (heq ▸ (List.of_mem_zip hmem).1)

theorem exists_lookup_zip {α : Type} {names : List String} {xs : List α} (h : name ∈ names)
    (hlength : xs.length = names.length) : ∃ x, (names.zip xs).lookup name = some x := by
  induction names generalizing xs with
  | nil => cases h
  | cons n names ih =>
    obtain ⟨x, xs, rfl⟩ := List.exists_cons_of_length_eq_add_one hlength
    rw [List.zip_cons_cons, List.lookup_cons]
    split
    · exact ⟨x, rfl⟩
    · next hne =>
      obtain rfl | h := List.mem_cons.1 h
      · simp at hne
      · exact ih h (by simpa using hlength)

/-- **Parameters bound to as many arguments**, each to the one at its place. -/
theorem exists_bind (deeper : Deeper) (active : List String) (env : Env) {ps : List TypeParameter}
    {types : List (List ResolvedType)} (hnodup : (ps.map (·.name)).Nodup)
    (hlength : types.length = ps.length) :
    ∃ bound, bind deeper active env ps types = .ok bound ∧ ∀ name,
      bound.lookup name = (((ps.map (·.name)).zip types).lookup name).or (env.lookup name) := by
  induction ps generalizing env types with
  | nil => exact ⟨env, by cases types <;> rfl, fun name => by simp⟩
  | cons p ps ih =>
    obtain ⟨first, types, rfl⟩ := List.exists_cons_of_length_eq_add_one hlength
    obtain ⟨hp, hnodup⟩ := List.nodup_cons.1 hnodup
    obtain ⟨bound, hbound, hlookup⟩ := ih ((p.name, first) :: env) hnodup (by simpa using hlength)
    refine ⟨bound, by rw [bind, hbound], fun name => ?_⟩
    rw [hlookup, List.map_cons, List.zip_cons_cons, List.lookup_cons, List.lookup_cons]
    split
    · next heq =>
      rw [beq_iff_eq] at heq
      rw [heq, lookup_zip_eq_none hp]
      rfl
    · rfl

/-- **Plain arguments are expanded.** -/
theorem exists_argumentLists (deeper : Deeper) (active : List String) (hs : s.contents.Sound)
    {arguments : List TypeNode} (h : arePlain s.contents [] arguments) :
    ∃ types, argumentLists s deeper active [] arguments = .ok types ∧
      types.length = arguments.length ∧ ∀ (names : List String) (name : String) (node : TypeNode),
        (names.zip arguments).lookup name = some node →
          node.AvoidsAliases s.contents [] ∧ ∃ xs, collect s deeper active [] node = .ok xs ∧
            (∀ t ∈ xs, TellsNullish t) ∧
              (names.zip types).lookup name = some (s.normalForm xs) := by
  induction arguments with
  | nil => exact ⟨[], by rw [argumentLists], rfl, by simp⟩
  | cons a arguments ih =>
    rw [arePlain, Bool.and_eq_true] at h
    have hnone : Binds s deeper active [] [] [] := ⟨by simp, by simp⟩
    obtain ⟨xs, ys, hxs, -, halike⟩ : ∃ xs ys, collect s deeper active [] a = .ok xs ∧
        collect s deeper active [] (a.substitute []) = .ok ys ∧ Alike s.strictNullChecks xs ys :=
      collect_substitute hs hnone h.1
    obtain ⟨types, htypes, hlength, hlookup⟩ := ih h.2
    refine ⟨s.normalForm xs :: types, by rw [argumentLists, hxs, htypes]; rfl, by simp [hlength],
      fun names name node hnode => ?_⟩
    cases names with
    | nil => simp at hnode
    | cons n names =>
      rw [List.zip_cons_cons, List.lookup_cons] at hnode ⊢
      split at hnode
      · cases hnode
        exact ⟨avoidsAliases_of_isPlain h.1, xs, hxs, halike.left, rfl⟩
      · exact hlookup names name node hnode

/-- **A generic alias with arguments binds** its parameters to them. -/
theorem exists_expands (deeper : Deeper) (hs : s.contents.Sound) {d : AliasDeclaration}
    {arguments : List TypeNode} (hd : d ∈ s.contents.aliases)
    (hplain : ResolvedType.intrinsics.lookup d.name = none)
    (hnodup : (d.parameters.map (·.name)).Nodup) (hunnamed : namedBodyKind? d.body = none)
    (hlength : arguments.length = d.parameters.length)
    (harguments : arePlain s.contents [] arguments) :
    ∃ bound, Expands s deeper [] [] d.name arguments d bound ∧
      Binds s deeper [] (d.parameters.map (·.name)) bound
        ((d.parameters.map (·.name)).zip arguments) := by
  obtain ⟨types, htypes, htypesLength, hlookup⟩ := exists_argumentLists deeper [] hs harguments
  obtain ⟨bound, hbound, hboundLookup⟩ :=
    exists_bind deeper [] [] hnodup (htypesLength.trans hlength)
  refine ⟨bound, ?_, ?_, fun name hname => ?_⟩
  · exact
      { free := fun _ => rfl
        plain := hplain
        found := by rw [(hs.aliases d hd).plain]; exact hs.find? hd
        whole := by rw [(hs.aliases d hd).plain]
        new := List.not_mem_nil
        unnamed := hunnamed
        binds := ⟨types, htypes, hbound⟩ }
  · intro name hname
    rw [hboundLookup, lookup_zip_eq_none hname, lookup_zip_eq_none hname]
    exact ⟨rfl, rfl⟩
  · obtain ⟨node, hnode⟩ : ∃ node, ((d.parameters.map (·.name)).zip arguments).lookup name =
        some node := exists_lookup_zip hname (by simpa using hlength)
    obtain ⟨havoids, xs, hxs, htells, htypes⟩ := hlookup _ _ _ hnode
    refine ⟨node, xs, hnode, havoids, hxs, htells, ?_⟩
    rw [hboundLookup, htypes, Option.some_or]

/-- **Instantiating a generic alias is substitution.**  An alias whose body is not shown by the
alias's name, with as many arguments as it has parameters, all plain, has the constituents of its
body with the arguments in the place of the parameters. -/
theorem describe_instance (text modulePath : String) (path : Option Path) (strict : Bool)
    {d : AliasDeclaration} {arguments : List TypeNode} :
    let s := Scope.ofFile (readSource text modulePath path strict).value
    let names := d.parameters.map (·.name)
    d ∈ s.contents.aliases → ResolvedType.intrinsics.lookup d.name = none → names.Nodup →
      namedBodyKind? d.body = none → d.body.isPlain s.contents names →
      arguments.length = d.parameters.length → arePlain s.contents [] arguments →
        ∃ types, s.describe [] (.reference d.name arguments) = .ok types ∧
          s.describe [] (d.body.substitute (names.zip arguments)) = .ok types := by
  intro s names hd hplain hnodup hunnamed hbody hlength harguments
  have hs : s.contents.Sound := sound_readContents _ _
  obtain ⟨bound, hexpands, hbinds⟩ :=
    exists_expands s.steps hs hd hplain hnodup hunnamed hlength harguments
  obtain ⟨xs, ys, hxs, hys, halike⟩ : ∃ xs ys,
      collect s s.steps [d.name] bound d.body = .ok xs ∧
        collect s s.steps [] [] (d.body.substitute (names.zip arguments)) = .ok ys ∧
          Alike s.strictNullChecks xs ys := collect_substitute hs hbinds hbody
  refine ⟨s.normalForm xs, ?_, ?_⟩
  · rw [Scope.describe, collect_of_expands hexpands, hxs]
    rfl
  · rw [Scope.describe, hys]
    exact congrArg Except.ok halike.normalize_eq.symm

/-- An alias of a parameter, an array of it, and `null`. -/
def boxAlias : AliasDeclaration where
  name := "Box"
  body := .union [.reference "T" [], .array (.reference "T" []), .reference "null" []]
  parameters := [⟨"T", none, none⟩]
  exported := false
  line := 1

/-- A type to be put into it. -/
def maybeString : TypeNode := .union [.reference "string" [], .reference "null" []]

theorem describe_instance_box :
    let s := Scope.ofFile (readSource "type Box<T> = T | T[] | null" "/m" none false).value
    boxAlias ∈ s.contents.aliases ∧ boxAlias.body.isPlain s.contents ["T"] ∧
      arePlain s.contents [] [maybeString] ∧
        ∃ types, s.describe [] (.reference "Box" [maybeString]) = .ok types ∧
          s.describe [] (boxAlias.body.substitute [("T", maybeString)]) = .ok types := by
  intro s
  have hd : boxAlias ∈ s.contents.aliases := by decide +kernel
  have hbody : boxAlias.body.isPlain s.contents ["T"] := by decide +kernel
  have hargument : arePlain s.contents [] [maybeString] := by decide +kernel
  exact ⟨hd, hbody, hargument, describe_instance _ "/m" none false hd (by decide) (by decide) rfl
    hbody rfl hargument⟩

end FluentBuilders
