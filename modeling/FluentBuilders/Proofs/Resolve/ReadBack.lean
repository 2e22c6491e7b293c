import FluentBuilders.Proofs.Resolve.Extent
import FluentBuilders.Proofs.Resolve.Legible

/-!
# Proofs/Resolve/ReadBack — a resolved type read again

Resolution changes nothing in what it has shown: a legible type that can be shown comes to the
constituents it is written with (`TypeNode.Settled.isFixed`), and is shown with the same text and of
the same kind (`TypeNode.IsFixed.rendered_shown`).  So a resolved text that is read and resolved
again is the text that it was (`resolveType_readBack`).
-/

namespace FluentBuilders

open Grammar

/-- **A type that comes to what it is written as.** -/
structure TypeNode.IsFixed (s : Scope) (t : TypeNode) : Prop where
  constituents : (t.meaning s).constituents.map TypeNode.rendered = t.leafTypes
  properties : t.hasProperties = false → (t.meaning s).properties = none

variable {s : Scope} {t u : TypeNode}

theorem TypeNode.IsFixed.rendered_shown (h : t.IsFixed s) (hnormal : t.IsNormal s) :
    (t.shown s).rendered = t.rendered := by
  rw [TypeNode.shown, FluentBuilders.rendered_shown, h.constituents]
  exact hnormal

/-- A type that comes to one constituent, written as the type is. -/
theorem isFixed_single {m : Meaning} (hm : t.meaning s = m) (hu : m.constituents = [u])
    (hrendered : u.rendered = t.rendered) (hleaf : t.leafTypes = [t.rendered])
    (hproperties : t.hasProperties = false → m.properties = none) : t.IsFixed s := by
  subst hm
  refine ⟨?_, hproperties⟩
  rw [hu, hleaf, ← hrendered]
  rfl

/-- **A type that is shown as it is written.** -/
def TypeNode.ShownAsIs (s : Scope) (t : TypeNode) : Prop := (t.shown s).rendered = t.rendered

theorem map_rendered_shown {ts : List TypeNode} (h : ∀ t ∈ ts, t.ShownAsIs s) :
    (ts.map (·.shown s)).map TypeNode.rendered = ts.map TypeNode.rendered := by
  rw [List.map_map]
  exact List.map_congr_left h

theorem namedType_of_length {name : String} {ts : List TypeNode}
    (h : name = "Array" ∨ name = "ReadonlyArray" → ts.length ≠ 1) :
    namedType name ts = .reference name ts := by
  unfold namedType
  split
  · next element hts =>
    split at hts
    · next harray => exact absurd (congrArg List.length hts) (h harray)
    · cases hts
  · rfl

theorem rendered_shownParameters {ps : List Parameter} (h : ∀ p ∈ ps, p.type.ShownAsIs s) :
    renderedParameters (shownParameters s ps) = renderedParameters ps := by
  simp only [renderedParameters_eq, shownParameters_eq, List.map_map]
  refine List.map_congr_left fun p hp => ?_
  obtain ⟨name, optional, spread, t⟩ := p
  exact congrArg (fun r : ResolvedType => parameterText name optional spread r.text) (h _ hp)

theorem TupleElement.rendered_shown {e : TupleElement} (h : e.type.ShownAsIs s) :
    (e.shown s).rendered = e.rendered := by
  cases e with
  | plain t => exact congrArg ResolvedType.text h
  | named name optional t =>
    exact congrArg (fun r : ResolvedType => name ++ optionalSuffix optional ++ ": " ++ r.text) h
  | rest t => exact congrArg (fun r : ResolvedType => "..." ++ r.text) h

theorem Member.rendered_shown {m : Member} (hsettled : m.IsSettled s)
    (h : ∀ t ∈ m.types, t.IsFixed s ∧ t.ShownAsIs s) : (m.shown s).rendered = m.rendered := by
  cases m with
  | property name optional readonly type =>
    obtain ⟨t, rfl, hnormal⟩ := hsettled
    have hfixed := (h t (by simp [Member.types])).1
    have htype :
        (oneType (s.memberConstituents optional (constituentsOfOptional s (some t)))).rendered =
          t.rendered := by
      rw [rendered_oneType, map_rendered_memberConstituents, constituentsOfOptional,
        hfixed.constituents, hnormal]
    exact congrArg (fun r : ResolvedType => readonlyWord readonly ++ propertyKey name ++
      optionalSuffix optional ++ ": " ++ r.text ++ ";") htype
  | method name optional parameters returns =>
    obtain ⟨t, rfl⟩ := Option.isSome_iff_exists.1 hsettled
    have hparameters := @rendered_shownParameters s parameters
      fun p hp => (h p.type (by simp [Member.types, List.mem_map_of_mem hp])).2
    have hreturns : (t.shown s).rendered = t.rendered := (h t (by simp [Member.types])).2
    rw [Member.shown, Member.rendered, Member.rendered, hparameters]
    exact congrArg (fun r : ResolvedType => propertyKey name ++ optionalSuffix optional ++
      signatureText (renderedParameters parameters) ++ ": " ++ r.text ++ ";") hreturns
  | index key readonly keyType valueType =>
    have hkey : (keyType.shown s).rendered = keyType.rendered := (h _ (by simp [Member.types])).2
    have hvalue : (valueType.shown s).rendered = valueType.rendered :=
      (h _ (by simp [Member.types])).2
    change readonlyWord readonly ++ "[" ++ key ++ ": " ++ (keyType.shown s).rendered.text ++ "]: " ++
      (valueType.shown s).rendered.text ++ ";" = _
    rw [hkey, hvalue]
    rfl

/-- **No property is found** where none is named. -/
theorem property?_eq_none {o i : TypeNode} (hlevel : o.level = .bracketed)
    (hnames : namesMember o i = false) (hfixed : o.IsFixed s) :
    (o.meaning s).property? i = none := by
  by_cases ho : o.hasProperties = false
  · unfold Meaning.property?
    rw [hfixed.properties ho]
    split
    · split <;> rfl
    · rfl
  · cases o with
    | object members =>
      unfold Meaning.property?
      split
      · next kind text =>
        split
        · rfl
        · next hkind =>
          have hnone : ∀ m ∈ members, m.name? ≠ some text := by
            simpa [namesMember, hkind] using hnames
          rw [TypeNode.meaning, Option.getD_some, memberMeanings_eq, Option.map_eq_none_iff,
            List.find?_eq_none]
          intro p hp
          obtain ⟨m, hm, hp⟩ := List.mem_filterMap.1 hp
          obtain ⟨name, hname, rfl⟩ := Option.map_eq_some_iff.1 hp
          simpa using fun heq : name = text => hnone m hm (heq ▸ hname)
      · rfl
    | intersection members => cases hlevel
    | _ => exact absurd rfl ho

/-- **A legible type that can be shown comes to what it is written as.** -/
theorem TypeNode.Settled.isFixed (h : t.Settled s) (hlegible : ∀ u ∈ t.subterms, u.IsLegible s) :
    t.IsFixed s := by
  induction h with
  | @intro t hself hparts ih =>
  obtain ⟨hspelled, hsettled, -⟩ := hself
  have hself := hlegible t t.self_mem_subterms
  have hfixed (hsame : t.typeParts = t.parts) : ∀ part ∈ t.parts, part.IsFixed s :=
    fun part hpart => ih part (hsame ▸ hpart) fun u hu =>
      hlegible u (TypeNode.subterms_subset hpart hu)
  have hshown (hsame : t.typeParts = t.parts) : ∀ part ∈ t.parts, part.ShownAsIs s :=
    fun part hpart => (hfixed hsame part hpart).rendered_shown
      (hparts part (hsame ▸ hpart)).self.2.2
  cases t with
  | reference name arguments =>
    cases hname : ResolvedType.intrinsics.lookup name with
    | some types =>
      refine ⟨?_, fun _ => ?_⟩
      · rw [meaning, hname]
        refine (rendered_intrinsic hname).trans ?_
        rw [leafTypes, TypeNode.unionMembers, List.flatMap_singleton, TypeNode.ownTypes, hname]
        · rfl
        · simp
      · rw [meaning, hname]
    | none =>
      have hleaf : (reference name arguments).leafTypes = [(reference name arguments).rendered] := by
        rw [leafTypes, TypeNode.unionMembers, List.flatMap_singleton, TypeNode.ownTypes, hname]
        · rfl
        · simp
      have hmeaning : (reference name arguments).meaning s =
          ⟨[.reference name (arguments.map (·.shown s))], none⟩ := by
        rw [meaning, hname, meanings_eq, List.map_map]
        exact congrArg (fun t => Meaning.mk [t] none) (namedType_of_length
          fun harray => by rw [List.length_map]; exact hsettled.2 harray)
      have harguments : (arguments.map (·.shown s)).map rendered = arguments.map rendered :=
        map_rendered_shown (hshown rfl)
      refine isFixed_single hmeaning rfl ?_ hleaf fun _ => rfl
      rw [rendered, rendered, hname, renderedTypes_eq, renderedTypes_eq, harguments]
  | imported module name arguments =>
    have harguments : (arguments.map (·.shown s)).map rendered = arguments.map rendered :=
      map_rendered_shown (hshown rfl)
    refine isFixed_single rfl rfl ?_ rfl fun _ => rfl
    rw [hself.2, meanings_eq, List.map_map, rendered, rendered, renderedTypes_eq, renderedTypes_eq,
      ← harguments]
    rfl
  | literal kind text => exact isFixed_single rfl rfl rfl rfl fun _ => rfl
  | union members =>
    refine ⟨?_, fun _ => rfl⟩
    have hne : members ≠ [] := by
      rintro rfl
      exact absurd hspelled (by simp [IsSpelled, IsGrammatical])
    rw [leafTypes_union hne, meaning, meanings_eq]
    simp only [List.flatMap_map, List.map_flatMap]
    refine List.flatMap_congr fun m hm => ?_
    rw [(hfixed rfl m hm).constituents, leafTypes, hsettled m hm, List.flatMap_singleton]
  | intersection members =>
    have hmembers : (members.map (·.shown s)).map rendered = members.map rendered :=
      map_rendered_shown (hshown rfl)
    refine isFixed_single rfl rfl ?_ rfl fun hproperties => by cases hproperties
    rw [meanings_eq, List.map_map, rendered, rendered, renderedTypes_eq, renderedTypes_eq,
      ← hmembers]
    rfl
  | array element =>
    refine isFixed_single rfl rfl ?_ rfl fun _ => rfl
    exact congrArg ResolvedType.array (hshown rfl element (List.mem_singleton_self _))
  | indexed o i =>
    have ho := hshown rfl o (by simp [parts])
    have hi := hshown rfl i (by simp [parts])
    have hnone := property?_eq_none hself.1 hself.2 (hfixed rfl o (by simp [parts]))
    have hmeaning : (indexed o i).meaning s = ⟨[.indexed (o.shown s) (i.shown s)], none⟩ := by
      rw [meaning, hnone]
      rfl
    refine isFixed_single hmeaning rfl ?_ rfl fun _ => rfl
    rw [rendered, rendered, show (o.shown s).rendered = _ from ho,
      show (i.shown s).rendered = _ from hi]
  | tuple elements =>
    refine isFixed_single rfl rfl ?_ rfl fun _ => rfl
    rw [shownElements_eq, rendered, rendered, renderedElements_eq, renderedElements_eq, List.map_map]
    have helements : elements.map (TupleElement.rendered ∘ (·.shown s)) =
        elements.map TupleElement.rendered :=
      List.map_congr_left fun e he => TupleElement.rendered_shown
        (hshown rfl e.type (List.mem_map_of_mem he))
    rw [helements]
  | function parameters returns =>
    have hreturns : (returns.shown s).rendered = _ := hshown rfl returns (by simp [parts])
    refine isFixed_single rfl rfl ?_ rfl fun _ => rfl
    change (function (shownParameters s parameters) (returns.shown s)).rendered = _
    rw [rendered, rendered, hreturns, rendered_shownParameters fun p hp =>
      hshown rfl p.type (List.mem_append_left _ (List.mem_map_of_mem hp))]
  | operator op operand =>
    cases op with
    | keyof =>
      have hoperand : (operand.shown s).rendered = _ :=
        hshown rfl operand (List.mem_singleton_self _)
      have hnone := (hfixed rfl operand (List.mem_singleton_self _)).properties hself
      have hmeaning : (operator .keyof operand).meaning s =
          ⟨[.operator .keyof (operand.shown s)], none⟩ := by
        rw [meaning, hnone]
        rfl
      refine isFixed_single hmeaning rfl ?_ rfl fun _ => rfl
      rw [rendered, rendered, hoperand]
    | readonly =>
      have hoperand : (operand.shown s).rendered = _ :=
        hshown rfl operand (List.mem_singleton_self _)
      refine isFixed_single rfl rfl ?_ rfl fun _ => rfl
      change (readonlyOf (operand.shown s)).rendered = _
      rw [rendered_readonlyOf, hoperand, rendered]
      exact if_pos hsettled
    | unique =>
      obtain rfl : operand = .reference "symbol" [] := hsettled
      exact isFixed_single rfl rfl rfl rfl fun _ => rfl
  | query name => exact isFixed_single rfl rfl rfl rfl fun _ => rfl
  | object members =>
    refine isFixed_single rfl rfl ?_ rfl fun hproperties => by cases hproperties
    rw [shownMembers_eq, rendered, rendered, renderedMembers_eq, renderedMembers_eq, List.map_map]
    have hmembers : members.map (Member.rendered ∘ (·.shown s)) = members.map Member.rendered := by
      refine List.map_congr_left fun m hm => Member.rendered_shown (hsettled m hm) fun t ht => ?_
      have hpart : t ∈ (object members).parts := List.mem_flatMap.2 ⟨m, hm, ht⟩
      exact ⟨hfixed rfl t hpart, hshown rfl t hpart⟩
    rw [hmembers]
  | raw text => exact hspelled.elim

/-! ## Resolved, read and resolved again -/

/-- What holds throughout a type and of every type inside it. -/
theorem TypeNode.Throughout.and {P Q : TypeNode → Prop} (h : t.Throughout P)
    (hall : ∀ u ∈ t.subterms, Q u) : t.Throughout fun u => P u ∧ Q u := by
  induction h with
  | @intro t hself _ ih =>
    refine .intro ⟨hself, hall t t.self_mem_subterms⟩ fun part hpart => ?_
    have hpart' : part ∈ t.parts := by
      unfold typeParts at hpart
      split at hpart
      · cases hpart
      · exact hpart
    exact ih part hpart fun u hu => hall u (TypeNode.subterms_subset hpart' hu)

theorem grammatical_of_isRaw {text : List Char}
    (hraw : ∀ u ∈ (parseType text).subterms, u.isRaw = false) : (parseType text).Grammatical := by
  refine (grammatical_parseType text).resolve_right ?_
  rintro ⟨x, hx⟩
  have := hraw _ (parseType text).self_mem_subterms
  rw [hx] at this
  cases this

/-- **A resolved type is read as the type that it shows, and resolved again it is the same.**  This
takes a file that declares and imports nothing, a type that is read as a whole, in which `readonly`
stands before no union, and a type to be shown that is legible. -/
theorem resolveType_readBack (hbare : s.contents = {}) {text : List Char}
    (hraw : ∀ u ∈ (parseType text).subterms, u.isRaw = false)
    (hkeeps : ∀ u ∈ (parseType text).subterms, u.KeepsPieces s)
    (hlegible : ∀ u ∈ ((parseType text).shown s).subterms, u.IsLegible s)
    (hsize : 4 * (parseType text).size ≤ nestingLimit) :
    ∃ r, s.resolveType [] (parseType text) = .ok r ∧
      parseType r.text.toList = (parseType text).shown s ∧
      (∀ u ∈ (parseType r.text.toList).subterms, u.isRaw = false) ∧
      s.resolveType [] (parseType r.text.toList) = .ok r := by
  have hgrammatical := grammatical_of_isRaw hraw
  have hsettled : ((parseType text).shown s).Settled s := settled_shown (hgrammatical.and hkeeps)
  have hread := parseType_rendered hsettled hlegible
  have hsize' := (size_shown_le s (parseType text)).trans hsize
  refine ⟨_, resolveType_eq_rendered_shown hbare (by omega), hread, ?_, ?_⟩
  · rw [hread]
    intro u hu
    have hshown : ((parseType text).shown s).Grammatical := by
      have := grammatical_parseType ((parseType text).shown s).rendered.text.toList
      rw [hread] at this
      refine this.resolve_right ?_
      rintro ⟨x, hx⟩
      rw [hx] at hsettled
      exact hsettled.self.1
    cases u with
    | raw x => exact absurd rfl (hshown.ne_raw _ hu x)
    | _ => rfl
  · rw [hread, resolveType_eq_rendered_shown hbare hsize']
    exact congrArg Except.ok ((hsettled.isFixed hlegible).rendered_shown hsettled.self.2.2)

/-- A union, an intersection, a signature and a property that is looked up, inside one another. -/
def interwovenText : List Char :=
  ("Array<\x7b readonly \"a-b\"?: T[]; m(x: N | null): \x7b k: 1 \x7d[\"k\"] \x7d & U>" ++
    " | boolean").toList

theorem resolveType_readBack_mixed :
    let s : Scope := ⟨{}, "/m", true⟩
    s.contents = {} ∧
    (∀ u ∈ (parseType interwovenText).subterms, u.isRaw = false) ∧
    (∀ u ∈ (parseType interwovenText).subterms, u.KeepsPieces s) ∧
    (∀ u ∈ ((parseType interwovenText).shown s).subterms, u.IsLegible s) ∧
    4 * (parseType interwovenText).size ≤ nestingLimit ∧
    ∃ r, s.resolveType [] (parseType interwovenText) = .ok r ∧
      parseType r.text.toList = (parseType interwovenText).shown s ∧
      (∀ u ∈ (parseType r.text.toList).subterms, u.isRaw = false) ∧
      s.resolveType [] (parseType r.text.toList) = .ok r := by
  intro s
  have hraw : ∀ u ∈ (parseType interwovenText).subterms, u.isRaw = false := by decide +kernel
  have hkeeps : ∀ u ∈ (parseType interwovenText).subterms, u.KeepsPieces s := by decide +kernel
  have hlegible : ∀ u ∈ ((parseType interwovenText).shown s).subterms, u.IsLegible s := by
    decide +kernel
  have hsize : 4 * (parseType interwovenText).size ≤ nestingLimit := by decide +kernel
  exact ⟨rfl, hraw, hkeeps, hlegible, hsize, resolveType_readBack rfl hraw hkeeps hlegible hsize⟩

/-- **A function in a union is written without parentheses**, and what is written cannot be read. -/
theorem resolveType_not_readBack_function :
    let s : Scope := ⟨{}, "/m", true⟩
    let t := parseType "(() => void) | string".toList
    (∀ u ∈ t.subterms, u.isRaw = false) ∧
    s.resolveType [] t = .ok (.plain "string | () => void" .union) ∧
    parseType "string | () => void".toList = .raw "string | () => void" := by
  intro s t
  have hraw : ∀ u ∈ t.subterms, u.isRaw = false := by decide +kernel
  have hsize : t.size ≤ nestingLimit := by decide +kernel
  have hrendered : (t.shown s).rendered = .plain "string | () => void" .union := by decide +kernel
  refine ⟨hraw, ?_, by decide +kernel⟩
  rw [resolveType_eq_rendered_shown rfl hsize, hrendered]

end FluentBuilders
