import FluentBuilders.Proofs.Resolve.Composition
import FluentBuilders.Proofs.Resolve.Meaning

/-!
# Proofs/Resolve/Constituents — the constituents of a type as it is written

A type that is written as a union can be taken apart again: its constituents are those of its members
(`TypeNode.leafTypes`).  One type that is made of constituents in normal form is taken apart into the
same constituents, but for the place of `false` and `true` among them, so it is in normal form itself
(`isNormal_oneType`).
-/

namespace FluentBuilders

/-- What a member of a union adds to it. -/
def TypeNode.ownTypes : TypeNode → List ResolvedType
  | .reference name arguments =>
    (ResolvedType.intrinsics.lookup name).getD [(TypeNode.reference name arguments).rendered]
  | t => [t.rendered]

/-- **The constituents of a type as it is written.** -/
def TypeNode.leafTypes (t : TypeNode) : List ResolvedType := t.unionMembers.flatMap TypeNode.ownTypes

/-- **A type that is written in normal form.** -/
def TypeNode.IsNormal (s : Scope) (t : TypeNode) : Prop :=
  single (s.normalForm t.leafTypes) = t.rendered

/-- **A type in one piece**: no union, and so at most one constituent of a union. -/
def TypeNode.IsOnePiece (t : TypeNode) : Prop :=
  t.rendered.kind ≠ .union ∧ t.rendered.kind ≠ .boolean

/-- A type whose text tells whether it is one of the two values of `boolean`. -/
def TellsBoolean (r : ResolvedType) : Prop := ∀ b ∈ ResolvedType.booleans, r.text = b.text → r = b

variable {s : Scope} {strict : Bool} {r : ResolvedType} {t u : TypeNode} {ts : List TypeNode}

/-! ## Kinds -/

/-- The kinds that only intrinsic types have. -/
def plainKinds : List TypeKind := [.any, .unknown, .undefined, .null, .never, .boolean]

/-- Nothing but a name is of one of these kinds. -/
theorem TypeNode.kind_rendered (h : ∀ name arguments, t ≠ .reference name arguments) :
    t.rendered.kind ∉ plainKinds := by
  cases t with
  | reference name arguments => exact absurd rfl (h name arguments)
  | literal kind text => cases kind <;> simp [rendered, Literal.type, ResolvedType.kind, plainKinds,
      ResolvedType.stringLiteral]
  | operator op operand => cases op <;> simp [rendered, ResolvedType.kind, plainKinds]
  | _ => simp [rendered, ResolvedType.kind, ResolvedType.array, plainKinds]

/-- **A name of one of these kinds** is written as its intrinsic type. -/
theorem TypeNode.exists_intrinsic (h : t.rendered.kind ∈ plainKinds) :
    ∃ name arguments types, t = .reference name arguments ∧ (name, types) ∈ ResolvedType.intrinsics ∧
      t.ownTypes = types ∧ t.rendered = single types := by
  cases t with
  | reference name arguments =>
    rw [rendered] at h
    cases hname : ResolvedType.intrinsics.lookup name with
    | none =>
      rw [hname] at h
      exact absurd h (by simp [ResolvedType.kind, plainKinds])
    | some types =>
      exact ⟨name, arguments, types, rfl, mem_of_lookup hname, by rw [ownTypes, hname]; rfl,
        by rw [rendered, hname]⟩
  | _ => exact absurd h (kind_rendered (by simp))

/-! ## One piece -/

theorem TypeNode.IsOnePiece.unionMembers (h : t.IsOnePiece) : t.unionMembers = [t] := by
  unfold TypeNode.unionMembers
  split
  · exact absurd rfl h.1
  · rfl

/-- **A type in one piece is one constituent**, unless it is `never`. -/
theorem TypeNode.IsOnePiece.ownTypes (h : t.IsOnePiece) (hnever : t.rendered.kind ≠ .never) :
    t.ownTypes = [t.rendered] := by
  have hall : ∀ p ∈ ResolvedType.intrinsics, (single p.2).kind ≠ .boolean →
      (single p.2).kind ≠ .never → p.2 = [single p.2] := by decide
  cases t with
  | reference name arguments =>
    have hkind := h.2
    rw [TypeNode.ownTypes]
    rw [TypeNode.rendered] at *
    cases hname : ResolvedType.intrinsics.lookup name with
    | none => rfl
    | some types =>
      rw [hname] at hkind hnever
      exact hall _ (mem_of_lookup hname) hkind hnever
  | _ => rfl

theorem normalize_singleton (hnever : r.kind ≠ .never) (hany : r.kind = .any → r = .any)
    (hunknown : r.kind = .unknown → r = .unknown) : normalize strict [r] = [r] := by
  by_cases hr : r.kind = .any
  · rw [normalize_of_any ⟨r, List.mem_singleton_self r, hr⟩, hany hr]
  by_cases hr' : r.kind = .unknown
  · rw [normalize_of_unknown (by simpa using hr) ⟨r, List.mem_singleton_self r, hr'⟩, hunknown hr']
  have hdropped : dropRepeats [] [r] = [r] := by simp [dropRepeats, hnever]
  have hcounted : counted strict [r] = [r] := by
    unfold counted
    rw [hdropped]
    cases hnullish : isNullish r <;> cases strict <;> simp [dropNullish, hnullish]
  rw [normalize_of_plain (by simpa using hr) (by simpa using hr'), hcounted]
  exact List.perm_singleton.1 (intrinsicsFirst_perm [r])

/-- **A type in one piece is in normal form.** -/
theorem TypeNode.IsOnePiece.isNormal (h : t.IsOnePiece) : t.IsNormal s := by
  rw [IsNormal, leafTypes, h.unionMembers, List.flatMap_singleton, Scope.normalForm]
  by_cases hnever : t.rendered.kind = .never
  · have hall : ∀ p ∈ ResolvedType.intrinsics, (single p.2).kind = .never →
        p.2 = [] ∧ single p.2 = .never := by decide
    have hplain : t.rendered.kind ∈ plainKinds := by rw [hnever]; decide
    obtain ⟨name, -, types, -, hmem, htypes, hrendered⟩ := TypeNode.exists_intrinsic hplain
    rw [hrendered] at hnever
    obtain ⟨rfl, -⟩ := hall _ hmem hnever
    rw [htypes, hrendered]
    cases s.strictNullChecks <;> rfl
  · rw [h.ownTypes hnever,
      normalize_singleton hnever t.rendered_of_absorbing.1 t.rendered_of_absorbing.2]
    rfl

/-! ## Taken apart again -/

theorem TypeNode.leafTypes_union (hts : ts ≠ []) :
    (TypeNode.union ts).leafTypes = ts.flatMap TypeNode.ownTypes := by
  obtain ⟨t, ts, rfl⟩ := List.exists_cons_of_ne_nil hts
  rfl

/-- Of texts that differ there is one that is `x`. -/
theorem exists_filter_eq_singleton {rs : List ResolvedType} {x : String}
    (hdistinct : (rs.map (·.text)).Nodup) (hx : x ∈ rs.map (·.text)) :
    ∃ r ∈ rs, r.text = x ∧ rs.filter (·.text == x) = [r] := by
  have hmap : (rs.filter (·.text == x)).map (·.text) = [x] := by
    have hfilter := List.filter_map (f := (·.text)) (p := (· == x)) (l := rs)
    rw [Function.comp_def] at hfilter
    rw [← hfilter, List.filter_beq, List.count_eq_one_of_mem hdistinct hx]
    rfl
  obtain ⟨r, hr, htext⟩ := List.map_eq_singleton_iff.1 hmap
  exact ⟨r, (List.mem_filter.1 (hr ▸ List.mem_singleton_self r)).1, htext, hr⟩

/-- What a constituent leaves of itself where `false` and `true` are written as `boolean`. -/
def joinedTypes (r : ResolvedType) : List ResolvedType :=
  if r.text = "true" then [] else if r.text = "false" then ResolvedType.booleans else [r]

theorem flatMap_ownTypes_joinedBooleans (hpieces : ∀ t ∈ ts, t.IsOnePiece)
    (hnever : ∀ t ∈ ts, t.rendered.kind ≠ .never) :
    (joinedBooleans ts).flatMap TypeNode.ownTypes = (ts.map TypeNode.rendered).flatMap joinedTypes := by
  induction ts with
  | nil => rfl
  | cons t ts ih =>
    obtain ⟨ht, hpieces⟩ := List.forall_mem_cons.1 hpieces
    obtain ⟨hne, hnever⟩ := List.forall_mem_cons.1 hnever
    rw [List.map_cons, List.flatMap_cons, ← ih hpieces hnever, joinedTypes]
    by_cases htrue : t.rendered.text = "true"
    · simp [joinedBooleans, htrue]
    by_cases hfalse : t.rendered.text = "false"
    · simp [joinedBooleans, hfalse]
      rfl
    · simp [joinedBooleans, htrue, hfalse, ht.ownTypes hne]

section

variable {rs : List ResolvedType}

/-- Only `false` leaves `true` of itself. -/
theorem filter_joinedTypes_true :
    (rs.flatMap joinedTypes).filter (·.text == "true") =
      (rs.filter (·.text == "false")).map fun _ => .plain "true" .literal := by
  induction rs with
  | nil => rfl
  | cons r rs ih =>
    rw [List.flatMap_cons, List.filter_append, ih, joinedTypes]
    by_cases htrue : r.text = "true"
    · simp [htrue]
    by_cases hfalse : r.text = "false"
    · simp [hfalse]
      rfl
    · simp [htrue, hfalse]

/-- **A union written with `boolean`** has the same constituents in every slot. -/
theorem sameSlots_joinedTypes (htells : ∀ r ∈ rs, TellsBoolean r)
    (hdistinct : (rs.map (·.text)).Nodup) (hfalse : "false" ∈ rs.map (·.text))
    (htrue : "true" ∈ rs.map (·.text)) : SameSlots (rs.flatMap joinedTypes) rs := by
  -- no text but `true` moves
  have hslot (p : String → Bool) (hp : p "true" = false) :
      (rs.flatMap joinedTypes).filter (p ·.text) = rs.filter (p ·.text) := by
    have hp' : p (ResolvedType.plain "true" .literal).text = false := hp
    have hsingle : rs = rs.flatMap fun r => [r] := (List.flatMap_singleton' rs).symm
    conv_rhs => rw [hsingle]
    rw [List.filter_flatMap, List.filter_flatMap]
    refine List.flatMap_congr fun r hr => ?_
    unfold joinedTypes
    split
    · next h => simp [h, hp]
    split
    · next h =>
      rw [htells r hr (.plain "false" .literal) (by decide) h]
      simp only [ResolvedType.booleans, List.filter_cons, hp', Bool.false_eq_true, if_false,
        List.filter_nil]
    · rfl
  refine ⟨fun name _ => ?_, hslot (fun x => !intrinsicOrder.contains x) (by decide)⟩
  by_cases hname : name = "true"
  · obtain ⟨r, hr, htext, hone⟩ := exists_filter_eq_singleton hdistinct htrue
    obtain ⟨_, -, -, hone'⟩ := exists_filter_eq_singleton hdistinct hfalse
    rw [hname, filter_joinedTypes_true, hone, hone',
      htells r hr (.plain "true" .literal) (by decide) htext]
    rfl
  · exact hslot (· == name) (by simpa using Ne.symm hname)

end

/-- **One type of constituents is taken apart into them.** -/
theorem sameSlots_leafTypes_oneType (hpieces : ∀ t ∈ ts, t.IsOnePiece)
    (hnever : ∀ t ∈ ts, t.rendered.kind ≠ .never) (htells : ∀ t ∈ ts, TellsBoolean t.rendered)
    (hdistinct : ((ts.map TypeNode.rendered).map (·.text)).Nodup) :
    SameSlots (oneType ts).leafTypes (ts.map TypeNode.rendered) := by
  have hown : ts.flatMap TypeNode.ownTypes = ts.map TypeNode.rendered := by
    rw [List.map_eq_flatMap]
    exact List.flatMap_congr fun t ht => (hpieces t ht).ownTypes (hnever t ht)
  have hmembers {us : List TypeNode} (hus : ∀ t ∈ us, t.unionMembers = [t]) :
      us.flatMap TypeNode.unionMembers = us := by
    rw [List.flatMap_congr hus, List.flatMap_singleton']
  match ts with
  | [] => exact .refl _
  | [t] =>
    rw [oneType, TypeNode.leafTypes, (hpieces t List.mem_cons_self).unionMembers, ← hown]
    exact .refl _
  | t :: u :: ts =>
    rw [oneType]
    · split
      · next hboth =>
        rw [Bool.and_eq_true, List.contains_iff_mem, List.contains_iff_mem] at hboth
        have hslots := sameSlots_joinedTypes (List.forall_mem_map.2 htells) hdistinct
          (by rw [List.map_map]; exact hboth.1) (by rw [List.map_map]; exact hboth.2)
        split
        · next hlen =>
          obtain rfl : ts = [] := by simpa using hlen
          have hjoined :
              ([t, u].map TypeNode.rendered).flatMap joinedTypes = ResolvedType.booleans := by
            simp only [List.map_cons, List.map_nil, List.mem_cons, List.not_mem_nil,
              or_false] at hboth
            rcases hboth with ⟨ht | hu, ht' | hu'⟩
            · exact absurd (ht.trans ht'.symm) (by decide)
            · simp [joinedTypes, ← ht, ← hu']
            · simp [joinedTypes, ← hu, ← ht']
            · exact absurd (hu.trans hu'.symm) (by decide)
          rw [hjoined] at hslots
          exact hslots
        · have hjoined : ∀ v ∈ joinedBooleans (t :: u :: ts), v.unionMembers = [v] := by
            intro v hv
            obtain ⟨w, hw, rfl⟩ := List.mem_map.1 hv
            split
            · rfl
            · exact (hpieces w (List.mem_filter.1 hw).1).unionMembers
          rw [hmembers hjoined, TypeNode.leafTypes_union,
            flatMap_ownTypes_joinedBooleans hpieces hnever]
          · exact hslots
          · obtain ⟨w, hw, hfalse⟩ := List.mem_map.1 hboth.1
            refine List.ne_nil_of_mem (List.mem_map_of_mem (List.mem_filter.2 ⟨hw, ?_⟩))
            simp [hfalse]
      · rw [hmembers fun v hv => (hpieces v hv).unionMembers, TypeNode.leafTypes_union (by simp),
          hown]
        exact .refl _
    all_goals simp

/-! ## In normal form -/

/-- What holds of every constituent that a type comes to. -/
structure TypeNode.IsConstituent (t : TypeNode) : Prop where
  piece : t.IsOnePiece
  nullish : TellsNullish t.rendered
  boolean : TellsBoolean t.rendered

theorem isConstituent_intrinsic (h : r ∈ intrinsicTypes) :
    (TypeNode.reference r.text []).IsConstituent := by
  have hall : ∀ r ∈ intrinsicTypes, ((TypeNode.reference r.text []).rendered.kind ≠ .union ∧
      (TypeNode.reference r.text []).rendered.kind ≠ .boolean) ∧
      TellsNullish (TypeNode.reference r.text []).rendered ∧
      ∀ b ∈ ResolvedType.booleans, (TypeNode.reference r.text []).rendered.text = b.text →
        (TypeNode.reference r.text []).rendered = b := by decide
  obtain ⟨hpiece, hnullish, hboolean⟩ := hall r h
  exact ⟨hpiece, hnullish, hboolean⟩

theorem SameSlots.normalize {xs ys : List ResolvedType} (h : SameSlots xs ys) :
    normalize strict xs = normalize strict ys := by
  have hexists (k : TypeKind) : (∃ t ∈ xs, t.kind = k) ↔ ∃ t ∈ ys, t.kind = k :=
    exists_congr fun t => and_congr_left fun _ => h.mem_iff
  by_cases hany : ∃ t ∈ xs, t.kind = .any
  · rw [normalize_of_any hany, normalize_of_any ((hexists _).1 hany)]
  have hany' : ¬ ∃ t ∈ ys, t.kind = .any := fun h => hany ((hexists _).2 h)
  by_cases hunknown : ∃ t ∈ xs, t.kind = .unknown
  · rw [normalize_of_unknown hany hunknown, normalize_of_unknown hany' ((hexists _).1 hunknown)]
  have hunknown' : ¬ ∃ t ∈ ys, t.kind = .unknown := fun h => hunknown ((hexists _).2 h)
  rw [normalize_of_plain hany hunknown, normalize_of_plain hany' hunknown']
  unfold counted
  cases strict with
  | true => exact h.dropRepeats.intrinsicsFirst
  | false => exact h.dropRepeats.dropNullish.intrinsicsFirst

theorem distinct_normalTypes (s : Scope) (ts : List TypeNode) :
    ((s.normalTypes ts).map (·.rendered.text)).Nodup := by
  have := (normalFormOf_normalize s.strictNullChecks (ts.map TypeNode.rendered)).distinct
  rwa [← Function.comp_def ResolvedType.text, ← List.map_map, map_rendered_normalTypes]

/-- **The constituents of one type in normal form.** -/
theorem sameSlots_normalTypes (h : ∀ t ∈ ts, t.IsConstituent) :
    SameSlots (oneType (s.normalTypes ts)).leafTypes (s.normalForm (ts.map TypeNode.rendered)) := by
  have hnormal := normalFormOf_normalize s.strictNullChecks (ts.map TypeNode.rendered)
  have hmap := map_rendered_normalTypes s ts
  have hmem : ∀ t ∈ s.normalTypes ts, t.rendered ∈ s.normalForm (ts.map TypeNode.rendered) :=
    fun t ht => hmap ▸ List.mem_map_of_mem ht
  rw [← hmap]
  refine sameSlots_leafTypes_oneType (fun t ht => (h t (mem_of_mem_normalTypes ht)).piece)
    (fun t ht => hnormal.inhabited _ (hmem t ht))
    (fun t ht => (h t (mem_of_mem_normalTypes ht)).boolean) ?_
  rw [List.map_map]
  exact distinct_normalTypes s ts

/-- What stands in front of the constituents may be written in front of their one type again. -/
theorem normalForm_append_leafTypes (h : ∀ t ∈ ts, t.IsConstituent)
    (before : List ResolvedType) {after : List ResolvedType}
    (hbefore : ts.map TypeNode.rendered = before ++ after) :
    s.normalForm (before ++ (oneType (s.normalTypes ts)).leafTypes) =
      s.normalForm (ts.map TypeNode.rendered) := by
  have htells : ∀ r ∈ ts.map TypeNode.rendered, TellsNullish r :=
    List.forall_mem_map.2 fun t ht => (h t ht).nullish
  have halike := (@alike_normalize s.strictNullChecks _ htells).normalize_append before []
    fun r hr => htells r (by rw [hbefore]; simp_all)
  simp only [List.append_nil] at halike
  have hrepeat : normalize s.strictNullChecks (before ++ before ++ after) =
      normalize s.strictNullChecks (before ++ after) :=
    normalize_append_of_subset (List.Subset.refl _)
  calc s.normalForm (before ++ (oneType (s.normalTypes ts)).leafTypes)
      = s.normalForm (before ++ s.normalForm (ts.map TypeNode.rendered)) :=
        ((SameSlots.refl before).append (sameSlots_normalTypes h)).normalize
    _ = s.normalForm (before ++ ts.map TypeNode.rendered) := halike
    _ = s.normalForm (ts.map TypeNode.rendered) := by
        rw [hbefore, ← List.append_assoc]
        exact hrepeat

theorem isConstituent_undefined : (TypeNode.reference "undefined" []).IsConstituent :=
  isConstituent_intrinsic (by decide : ResolvedType.undefined ∈ intrinsicTypes)

/-- **The type of a member is written in normal form**, with `undefined` where it is optional. -/
theorem single_memberForm_oneType (h : ∀ t ∈ ts, t.IsConstituent) (optional : Bool) :
    single (s.memberForm optional (oneType (s.memberConstituents optional ts)).leafTypes) =
      (oneType (s.memberConstituents optional ts)).rendered := by
  rw [rendered_oneType, map_rendered_memberConstituents, Scope.memberConstituents, Scope.memberForm,
    Scope.memberForm]
  refine congrArg single ?_
  split
  · exact normalForm_append_leafTypes (List.forall_mem_cons.2 ⟨isConstituent_undefined, h⟩)
      [.undefined] rfl
  · exact normalForm_append_leafTypes h [] rfl

/-- **One type in normal form is written in normal form.** -/
theorem isNormal_oneType (h : ∀ t ∈ ts, t.IsConstituent) : (oneType (s.normalTypes ts)).IsNormal s :=
  single_memberForm_oneType h false

end FluentBuilders
