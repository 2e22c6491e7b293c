import FluentBuilders.Proofs.Resolve.Constituents
import FluentBuilders.Proofs.Syntax.Size
import Mathlib.Data.List.Perm.Subperm

/-!
# Proofs/Resolve/Extent — how large a type is that is shown

Where nothing is declared a type is shown as one that is at most four times as large
(`size_shown_le`): the normal form only leaves constituents out, a union adds one for itself, and an
optional property one for `undefined`.
-/

namespace FluentBuilders

/-- The sizes of types together. -/
def weight (ts : List TypeNode) : Nat := (ts.map TypeNode.size).sum

variable {s : Scope} {t : TypeNode} {ts us : List TypeNode}

@[simp] theorem weight_nil : weight [] = 0 := rfl

@[simp] theorem weight_cons (t : TypeNode) (ts : List TypeNode) :
    weight (t :: ts) = t.size + weight ts := rfl

theorem weight_append (ts us : List TypeNode) : weight (ts ++ us) = weight ts + weight us := by
  simp [weight]

theorem TypeNode.size_pos (t : TypeNode) : 0 < t.size := by
  cases t <;> simp only [TypeNode.size] <;> omega

theorem Member.size_pos (m : Member) : 0 < m.size := by
  cases m <;> simp only [Member.size, sizeOfMembers] <;> omega

theorem weight_flatMap {α : Type} (f : α → List TypeNode) (xs : List α) :
    weight (xs.flatMap f) = (xs.map fun x => weight (f x)).sum := by
  induction xs with
  | nil => rfl
  | cons x xs ih => rw [List.flatMap_cons, weight_append, ih, List.map_cons, List.sum_cons]

theorem weight_of_size_one {α : Type} {f : α → TypeNode} (h : ∀ x, (f x).size = 1) (xs : List α) :
    weight (xs.map f) = xs.length := by
  induction xs with
  | nil => rfl
  | cons x xs ih => rw [List.map_cons, weight_cons, h, ih, List.length_cons, Nat.add_comm]

/-- **Leaving types out** leaves no more. -/
theorem weight_le_of_subset (hdistinct : ts.Nodup) (h : ts ⊆ us) : weight ts ≤ weight us := by
  obtain ⟨vs, hperm, hsub⟩ := hdistinct.subperm h
  calc weight ts = weight vs := ((hperm.map TypeNode.size).sum_eq).symm
    _ ≤ weight us := (hsub.map TypeNode.size).sum_le_sum fun _ _ => Nat.zero_le _

theorem weight_normalTypes_le (s : Scope) (ts : List TypeNode) :
    weight (s.normalTypes ts) ≤ weight ts := by
  have hdistinct := List.Nodup.of_map _ (distinct_normalTypes s ts)
  exact weight_le_of_subset hdistinct fun t => mem_of_mem_normalTypes

theorem weight_unionMembers_le (t : TypeNode) : weight t.unionMembers ≤ t.size := by
  unfold TypeNode.unionMembers
  split
  · rw [TypeNode.size, sizeOfTypes_eq]
    exact Nat.le_succ _
  · exact Nat.le_refl _

theorem weight_flatMap_unionMembers_le (ts : List TypeNode) :
    weight (ts.flatMap TypeNode.unionMembers) ≤ weight ts := by
  rw [weight_flatMap]
  exact List.sum_le_sum fun t _ => weight_unionMembers_le t

theorem weight_joinedBooleans_le (ts : List TypeNode) : weight (joinedBooleans ts) ≤ weight ts := by
  induction ts with
  | nil => exact Nat.le_refl _
  | cons t ts ih =>
    unfold joinedBooleans at ih ⊢
    rw [List.filter_cons]
    have hpos := t.size_pos
    split
    · rw [List.map_cons, weight_cons, weight_cons]
      refine Nat.add_le_add ?_ ih
      split
      · exact hpos
      · exact Nat.le_refl _
    · rw [weight_cons]
      omega

/-- **One type is at most one larger than its constituents.** -/
theorem size_oneType_le (ts : List TypeNode) : (oneType ts).size ≤ weight ts + 1 := by
  match ts with
  | [] => exact Nat.le_refl _
  | [t] => exact Nat.le_succ_of_le (Nat.le_refl _)
  | t :: u :: ts =>
    rw [oneType]
    · split
      · split
        · exact Nat.le_add_left _ _
        · rw [TypeNode.size, sizeOfTypes_eq]
          exact Nat.succ_le_succ
            ((weight_flatMap_unionMembers_le _).trans (weight_joinedBooleans_le _))
      · rw [TypeNode.size, sizeOfTypes_eq]
        exact Nat.succ_le_succ (weight_flatMap_unionMembers_le _)
    all_goals simp

/-! ## What is shown -/

/-- **All that a type comes to stays within `n` parts**: its constituents, and those of each of its
properties. -/
inductive Meaning.Within (n : Nat) : Meaning → Prop
  | intro {m : Meaning} (constituents : weight m.constituents < 4 * n)
      (names : ∀ listed ∈ m.properties, listed.length ≤ n)
      (properties : ∀ listed ∈ m.properties, ∀ p ∈ listed, Within n p.2) : Within n m

namespace Meaning.Within

variable {n k : Nat} {m : Meaning}

theorem mono (h : m.Within n) (hle : n ≤ k) : m.Within k := by
  induction h with
  | intro constituents names _ ih =>
    exact .intro (by omega) (fun listed h => (names listed h).trans hle) ih

theorem constituents (h : m.Within n) : weight m.constituents < 4 * n := by
  cases h
  assumption

theorem names (h : m.Within n) : (m.properties.getD []).length ≤ n := by
  cases h with
  | intro _ hnames =>
    cases hm : m.properties with
    | none => exact Nat.zero_le _
    | some listed => exact hnames listed hm

theorem properties (h : m.Within n) : ∀ p ∈ m.properties.getD [], p.2.Within n := by
  cases h with
  | intro _ _ hproperties =>
    cases hm : m.properties with
    | none => exact List.forall_mem_nil _
    | some listed => exact hproperties listed hm

theorem size_shown_le (h : m.Within n) : (m.shown s).size ≤ 4 * n :=
  (size_oneType_le _).trans (Nat.succ_le_of_lt
    ((weight_normalTypes_le s m.constituents).trans_lt h.constituents))

theorem of_constituents (h : weight ts < 4 * n) : (Meaning.mk ts none).Within n :=
  .intro h nofun nofun

end Meaning.Within

theorem sum_map_le {α : Type} {f g : α → Nat} {xs : List α} (h : ∀ x ∈ xs, f x ≤ 4 * g x) :
    (xs.map f).sum ≤ 4 * (xs.map g).sum := by
  induction xs with
  | nil => exact Nat.le_refl _
  | cons x xs ih =>
    obtain ⟨hx, hxs⟩ := List.forall_mem_cons.1 h
    rw [List.map_cons, List.map_cons, List.sum_cons, List.sum_cons]
    have := ih hxs
    omega

/-- **A type comes to no more than its size allows.** -/
def TypeNode.StaysWithin (s : Scope) (t : TypeNode) : Prop := (t.meaning s).Within t.size

theorem TypeNode.StaysWithin.size_shown_le (h : t.StaysWithin s) : (t.shown s).size ≤ 4 * t.size :=
  Meaning.Within.size_shown_le h

theorem weight_shown_le (h : ∀ t ∈ ts, t.StaysWithin s) :
    weight (ts.map (·.shown s)) ≤ 4 * weight ts := by
  rw [weight, List.map_map]
  exact sum_map_le fun t ht => (h t ht).size_shown_le

theorem sizeOfElements_shown_le {es : List TupleElement} (h : ∀ e ∈ es, e.type.StaysWithin s) :
    sizeOfElements (shownElements s es) ≤ 4 * sizeOfElements es := by
  rw [shownElements_eq, sizeOfElements_eq, sizeOfElements_eq, List.map_map]
  refine sum_map_le fun e he => ?_
  have := (h e he).size_shown_le
  cases e <;> exact this

theorem sizeOfParameters_shown_le {ps : List Parameter} (h : ∀ p ∈ ps, p.type.StaysWithin s) :
    sizeOfParameters (shownParameters s ps) ≤ 4 * sizeOfParameters ps := by
  rw [shownParameters_eq, sizeOfParameters_eq, sizeOfParameters_eq, List.map_map]
  refine sum_map_le fun p hp => ?_
  have := (h p hp).size_shown_le
  cases p
  exact this

theorem size_shownOptional_le {type : Option TypeNode} (h : ∀ t ∈ type, t.StaysWithin s) :
    (shownOptional s type).size ≤ 4 * sizeOfOptional type + 1 := by
  cases type with
  | none => exact Nat.le_refl _
  | some t => exact Nat.le_succ_of_le (h t rfl).size_shown_le

theorem weight_constituentsOfOptional_le {type : Option TypeNode} (h : ∀ t ∈ type, t.StaysWithin s) :
    weight (constituentsOfOptional s type) ≤ 4 * sizeOfOptional type + 1 := by
  cases type with
  | none => exact Nat.le_refl _
  | some t => exact Nat.le_succ_of_le (h t rfl).constituents.le

theorem weight_memberConstituents_le (optional : Bool) (ts : List TypeNode) :
    weight (s.memberConstituents optional ts) ≤ weight ts + 1 := by
  refine (weight_normalTypes_le s _).trans ?_
  split
  · rw [weight_cons]
    exact (Nat.add_comm _ _).le
  · exact Nat.le_succ _

namespace Member

variable {m : Member}

theorem size_shown_le (h : ∀ t ∈ m.types, t.StaysWithin s) : (m.shown s).size ≤ 4 * m.size := by
  cases m with
  | property name optional readonly type =>
    simp only [types, Option.mem_toList] at h
    have hconstituents := weight_constituentsOfOptional_le h
    have hmember := @weight_memberConstituents_le s optional (constituentsOfOptional s type)
    have hone := size_oneType_le (s.memberConstituents optional (constituentsOfOptional s type))
    simp only [shown, size, sizeOfMembers, sizeOfOptional]
    omega
  | method name optional parameters returns =>
    simp only [types, List.mem_append, or_imp, forall_and, List.forall_mem_map,
      Option.mem_toList] at h
    have hparameters := sizeOfParameters_shown_le h.1
    have hreturns := size_shownOptional_le h.2
    simp only [shown, size, sizeOfMembers]
    rw [sizeOfOptional]
    omega
  | index key readonly keyType valueType =>
    simp only [types, List.forall_mem_cons] at h
    have hkey := h.1.size_shown_le
    have hvalue := h.2.1.size_shown_le
    unfold TypeNode.shown at hkey hvalue
    simp only [shown, size, sizeOfMembers]
    omega

/-- **A member comes to no more than its size allows.** -/
theorem within_meaning (h : ∀ t ∈ m.types, t.StaysWithin s) : (m.meaning s).Within m.size := by
  cases m with
  | property name optional readonly type =>
    simp only [types, Option.mem_toList] at h
    have hconstituents := weight_constituentsOfOptional_le h
    have hmember := @weight_memberConstituents_le s optional (constituentsOfOptional s type)
    simp only [size, sizeOfMembers]
    refine .intro (by change weight (s.memberConstituents _ _) < _; omega) ?_ ?_
    · intro listed hlisted
      cases type with
      | none => cases hlisted
      | some t =>
        have := (h t rfl).names
        rw [show (t.meaning s).properties = some listed from hlisted] at this
        exact this.trans (Nat.le_succ _)
    · intro listed hlisted p hp
      cases type with
      | none => cases hlisted
      | some t =>
        refine ((h t rfl).properties p ?_).mono (Nat.le_succ _)
        rw [show (t.meaning s).properties = some listed from hlisted]
        exact hp
  | method name optional parameters returns =>
    simp only [types, List.mem_append, or_imp, forall_and, List.forall_mem_map,
      Option.mem_toList] at h
    have hparameters := sizeOfParameters_shown_le h.1
    have hreturns := size_shownOptional_le h.2
    have hmember := @weight_memberConstituents_le s optional
      [.function (shownParameters s parameters) (shownOptional s returns)]
    refine .of_constituents ?_
    simp only [weight_cons, weight_nil, TypeNode.size] at hmember
    simp only [size, sizeOfMembers]
    omega
  | index => exact .of_constituents (by simp [size, sizeOfMembers])

end Member

theorem size_namedType_le (name : String) (ts : List TypeNode) :
    (namedType name ts).size ≤ weight ts + 2 := by
  have hreference : (TypeNode.reference name ts).size ≤ weight ts + 2 := by
    rw [TypeNode.size, sizeOfTypes_eq]
    exact Nat.le_succ _
  unfold namedType
  split
  · next element hts =>
    split at hts
    · rw [hts]
      split <;> simp [TypeNode.size]
    · cases hts
  · exact hreference

theorem size_readonlyOf_le (t : TypeNode) : (readonlyOf t).size ≤ t.size + 1 := by
  unfold readonlyOf
  split
  · exact Nat.le_refl _
  · exact Nat.le_succ _

/-- **What a type comes to stays within four times its size.** -/
theorem staysWithin (s : Scope) (t : TypeNode) : t.StaysWithin s := by
  induction t using TypeNode.induction_parts with
  | h t ih =>
  unfold TypeNode.StaysWithin
  cases t with
  | reference name arguments =>
    rw [TypeNode.meaning, TypeNode.size, sizeOfTypes_eq]
    cases hname : ResolvedType.intrinsics.lookup name with
    | some types =>
      have hall : ∀ p ∈ ResolvedType.intrinsics, p.2.length < 4 := by decide
      have hfew : types.length < 4 := hall _ (mem_of_lookup hname)
      have hweight : weight (types.map fun r => .reference r.text []) = types.length :=
        weight_of_size_one (fun _ => rfl) types
      refine .of_constituents ?_
      rw [hweight]
      omega
    | none =>
      have harguments : weight (arguments.map (·.shown s)) ≤ 4 * weight arguments :=
        weight_shown_le ih
      have hsize := size_namedType_le name (arguments.map (·.shown s))
      rw [meanings_eq, List.map_map]
      refine .of_constituents ?_
      change (namedType name (arguments.map (·.shown s))).size + 0 < 4 * (weight arguments + 1)
      omega
  | imported module name arguments =>
    have harguments : weight (arguments.map (·.shown s)) ≤ 4 * weight arguments := weight_shown_le ih
    rw [TypeNode.meaning, meanings_eq, List.map_map]
    refine .of_constituents ?_
    rw [TypeNode.size, weight_cons, TypeNode.size, sizeOfTypes_eq, sizeOfTypes_eq]
    change weight (arguments.map (·.shown s)) + 1 + 0 < 4 * (weight arguments + 1)
    omega
  | literal kind text => exact .of_constituents (by simp [TypeNode.size])
  | union members =>
    rw [TypeNode.meaning, meanings_eq, List.flatMap_map]
    refine .of_constituents ?_
    rw [TypeNode.size, sizeOfTypes_eq, weight_flatMap]
    have : (members.map fun t => weight (t.meaning s).constituents).sum ≤
        4 * (members.map TypeNode.size).sum := sum_map_le fun t ht => (ih t ht).constituents.le
    omega
  | intersection members =>
    have hmembers : weight (members.map (·.shown s)) ≤ 4 * weight members := weight_shown_le ih
    rw [TypeNode.meaning, meanings_eq, List.map_map, TypeNode.size, sizeOfTypes_eq]
    refine .intro ?_ ?_ ?_
    · rw [weight_cons, TypeNode.size, sizeOfTypes_eq]
      change weight (members.map (·.shown s)) + 1 + 0 < 4 * (weight members + 1)
      omega
    · rintro listed ⟨⟩
      refine Meaning.length_mergeAll_le.trans ?_
      rw [List.map_map, List.length_nil, Nat.zero_add]
      refine (List.sum_le_sum fun t ht => ?_).trans (Nat.le_succ _)
      exact Meaning.Within.names (ih t ht)
    · rintro listed ⟨⟩ p hp
      obtain hp | ⟨m, hm, hp⟩ := Meaning.mem_of_mem_mergeAll hp
      · cases hp
      · obtain ⟨t, ht, rfl⟩ := List.mem_map.1 hm
        refine (Meaning.Within.properties (ih t ht) p hp).mono ?_
        exact Nat.le_succ_of_le (size_mem_le ht)
  | array element =>
    have helement := (ih element (List.mem_singleton_self _)).size_shown_le
    refine .of_constituents ?_
    change (element.shown s).size + 1 + 0 < 4 * (element.size + 1)
    omega
  | indexed o i =>
    have ho := ih o (by simp [TypeNode.parts])
    have hi := (ih i (by simp [TypeNode.parts])).size_shown_le
    rw [TypeNode.meaning, TypeNode.size]
    cases hfound : (o.meaning s).property? i with
    | some found =>
      obtain ⟨p, hp, rfl⟩ := Meaning.exists_of_property? hfound
      exact (Meaning.Within.properties ho p hp).mono (by omega)
    | none =>
      have := ho.size_shown_le
      refine .of_constituents ?_
      change (o.shown s).size + (i.shown s).size + 1 + 0 < _
      omega
  | tuple elements =>
    have helements := @sizeOfElements_shown_le s elements fun e he => ih _ (List.mem_map_of_mem he)
    refine .of_constituents ?_
    change sizeOfElements (shownElements s elements) + 1 + 0 < 4 * (sizeOfElements elements + 1)
    omega
  | function parameters returns =>
    have hparameters := @sizeOfParameters_shown_le s parameters fun p hp =>
      ih _ (List.mem_append_left _ (List.mem_map_of_mem hp))
    have hreturns := (ih returns (by simp [TypeNode.parts])).size_shown_le
    refine .of_constituents ?_
    change sizeOfParameters (shownParameters s parameters) + (returns.shown s).size + 1 + 0 <
      4 * (sizeOfParameters parameters + returns.size + 1)
    omega
  | operator op operand =>
    have hoperand := ih operand (List.mem_singleton_self _)
    have hshown := hoperand.size_shown_le
    cases op with
    | keyof =>
      rw [TypeNode.meaning, TypeNode.size]
      split
      · next properties hproperties =>
        have hnames := Meaning.Within.names hoperand
        rw [hproperties, Option.getD_some] at hnames
        have hweight : weight (properties.map fun p => .literal .string p.1) = properties.length :=
          weight_of_size_one (fun _ => rfl) properties
        refine .of_constituents ?_
        rw [hweight]
        omega
      · refine .of_constituents ?_
        change (operand.shown s).size + 1 + 0 < _
        omega
    | readonly =>
      have hreadonly := size_readonlyOf_le (operand.shown s)
      refine .of_constituents ?_
      change (readonlyOf (operand.shown s)).size + 0 < 4 * (operand.size + 1)
      omega
    | unique =>
      refine .of_constituents ?_
      change 2 + 0 < 4 * (operand.size + 1)
      omega
  | query name => exact .of_constituents (by simp [TypeNode.size])
  | object members =>
    have hmember : ∀ m ∈ members, ∀ t ∈ m.types, t.StaysWithin s :=
      fun m hm t ht => ih t (List.mem_flatMap.2 ⟨m, hm, ht⟩)
    have hshown :
        ((members.map (·.shown s)).map Member.size).sum ≤ 4 * (members.map Member.size).sum := by
      rw [List.map_map]
      exact sum_map_le fun m hm => Member.size_shown_le (hmember m hm)
    rw [TypeNode.meaning, shownMembers_eq, memberMeanings_eq, TypeNode.size, sizeOfMembers_eq]
    refine .intro ?_ ?_ ?_
    · rw [weight_cons, TypeNode.size, sizeOfMembers_eq]
      change ((members.map (·.shown s)).map Member.size).sum + 1 + 0 < _
      omega
    · rintro listed ⟨⟩
      refine (List.length_filterMap_le _ _).trans ?_
      have hcount := (members.map Member.size).length_le_sum_of_one_le
        (List.forall_mem_map.2 fun m _ => m.size_pos)
      rw [List.length_map] at hcount
      exact hcount.trans (Nat.le_succ _)
    · rintro listed ⟨⟩ p hp
      obtain ⟨m, hm, hp⟩ := List.mem_filterMap.1 hp
      obtain ⟨name, -, rfl⟩ := Option.map_eq_some_iff.1 hp
      refine (Member.within_meaning (hmember m hm)).mono ?_
      exact Nat.le_succ_of_le (size_mem_le hm)
  | raw text => exact .of_constituents (by simp [TypeNode.size])

/-- **A type is shown as one at most four times as large.** -/
theorem size_shown_le (s : Scope) (t : TypeNode) : (t.shown s).size ≤ 4 * t.size :=
  (staysWithin s t).size_shown_le

end FluentBuilders
