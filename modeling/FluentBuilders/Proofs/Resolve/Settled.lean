import FluentBuilders.Proofs.Resolve.Bare
import FluentBuilders.Proofs.Resolve.Constituents
import FluentBuilders.Proofs.Syntax.Grammatical

/-!
# Proofs/Resolve/Settled — what a type that is shown looks like

A type that is shown has names and literals that can be written, as the type it comes from has, and
nothing in it is left for resolution to change: no intrinsic type has arguments, arrays are written
with brackets, a union has no union in it, and all that is written as a union is in normal form
(`settled_shown`).
-/

namespace FluentBuilders

open Grammar

/-- **A type with names and literals that can be written**, apart from the types that it is made
of.  How a parameter list opens is left open. -/
def TypeNode.IsSpelled : TypeNode → Prop
  | .function parameters _ => ∀ p ∈ parameters, isAsciiName p.name = true
  | t => t.IsGrammatical

/-- A member whose type is written, in normal form and with `undefined` where it is optional. -/
def Member.IsSettled (s : Scope) : Member → Prop
  | .property _ optional _ type =>
    ∃ t ∈ type, single (s.memberForm optional t.leafTypes) = t.rendered
  | .method _ _ _ returns => returns.isSome
  | .index .. => True

/-- **A type in which resolution changes nothing**, apart from the types that it is made of. -/
def TypeNode.IsSettled (s : Scope) : TypeNode → Prop
  | .reference name arguments =>
    ((ResolvedType.intrinsics.lookup name).isSome → arguments = []) ∧
      (name = "Array" ∨ name = "ReadonlyArray" → arguments.length ≠ 1)
  | .union members => ∀ m ∈ members, m.unionMembers = [m]
  | .operator .readonly operand => operand.rendered.kind = .array ∨ operand.rendered.kind = .tuple
  | .operator .unique operand => operand = .reference "symbol" []
  | .object members => ∀ m ∈ members, m.IsSettled s
  | _ => True

/-- **A type that can be shown**: it and every type inside it is spelled, settled and in normal
form. -/
def TypeNode.Settled (s : Scope) (t : TypeNode) : Prop :=
  t.Throughout fun u => u.IsSpelled ∧ u.IsSettled s ∧ u.IsNormal s

/-- **A constituent that can be shown.** -/
def TypeNode.IsPiece (s : Scope) (t : TypeNode) : Prop := t.Settled s ∧ t.IsOnePiece

/-- **A type before which `readonly` stands is no union**, so it stays one piece. -/
def TypeNode.KeepsPieces (s : Scope) : TypeNode → Prop
  | .operator .readonly operand => (operand.shown s).IsOnePiece
  | _ => True

variable {s : Scope} {t u : TypeNode} {ts : List TypeNode}

instance : DecidablePred (TypeNode.KeepsPieces s)
  | .operator .readonly _ => inferInstanceAs (Decidable (_ ∧ _))
  | .operator .keyof _ | .operator .unique _ | .reference .. | .imported .. | .literal .. | .union _
  | .intersection _ | .array _ | .indexed .. | .tuple _ | .function .. | .query _ | .object _
  | .raw _ => .isTrue trivial

theorem isPiece_intro (hkind : (t.rendered.kind != .union && t.rendered.kind != .boolean) = true)
    (hspelled : t.IsSpelled) (hsettled : t.IsSettled s)
    (hparts : ∀ part ∈ t.typeParts, part.Settled s) : t.IsPiece s := by
  have hpiece : t.IsOnePiece := by simpa [TypeNode.IsOnePiece] using hkind
  exact ⟨.intro ⟨hspelled, hsettled, hpiece.isNormal⟩ hparts, hpiece⟩

/-! ## Names -/

/-- The names of the intrinsic types. -/
def intrinsicNames : List String := ResolvedType.intrinsics.map (·.1)

theorem text_mem_intrinsicNames {r : ResolvedType} (h : r ∈ intrinsicTypes) :
    r.text ∈ intrinsicNames := by
  have hall : ∀ r ∈ intrinsicTypes, r.text ∈ intrinsicNames := by decide
  exact hall r h

theorem settled_intrinsic {name : String} (h : name ∈ intrinsicNames) :
    (TypeNode.reference name []).Settled s := by
  have hdotted : ∀ n ∈ intrinsicNames, (∀ part ∈ nameParts n, isAsciiName part = true) ∧
      ∀ first ∈ (nameParts n).head?, isNameAtType first = true := by decide +kernel
  have hlists : ∀ n ∈ intrinsicNames, ¬(n = "Array" ∨ n = "ReadonlyArray") := by decide
  have hnormal : ∀ n ∈ intrinsicNames, ∀ strict : Bool,
      single (normalize strict (TypeNode.reference n []).leafTypes) =
        (TypeNode.reference n []).rendered := by decide +kernel
  refine .intro ⟨hdotted name h, ⟨fun _ => rfl, fun hname => absurd hname (hlists name h)⟩, ?_⟩
    (List.forall_mem_nil _)
  exact hnormal name h s.strictNullChecks

/-- A text that holds anything but letters and digits is no name. -/
theorem isAsciiName_eq_false {x : String} {c : Char} (h : c ∈ x.toList)
    (hc : Text.isIdentifierPart c = false) : isAsciiName x = false := by
  refine Bool.eq_false_iff.2 fun hname => ?_
  unfold isAsciiName at hname
  cases hx : x.toList with
  | nil =>
    rw [hx] at h
    cases h
  | cons d ds =>
    rw [hx, Text.isNameOver, Bool.and_eq_true, List.all_eq_true] at hname
    rw [hx] at h
    obtain rfl | hmem := List.mem_cons.1 h
    · rw [Text.isIdentifierPart, hname.1] at hc
      cases hc
    · rw [hname.2 c hmem] at hc
      cases hc

theorem isAsciiName_of_head? {x : String}
    (h : ∀ c ∈ x.toList.head?, Text.isIdentifierStart c = false) : isAsciiName x = false := by
  unfold isAsciiName
  cases hx : x.toList with
  | nil => rfl
  | cons c cs =>
    rw [hx] at h
    rw [Text.isNameOver, h c rfl, Bool.false_and]

theorem exists_cons_cons {α : Type} {xs : List α} (h : 2 ≤ xs.length) :
    ∃ x y ys, xs = x :: y :: ys := by
  obtain ⟨x, xs, rfl⟩ := List.exists_cons_of_length_pos (by omega : 0 < xs.length)
  obtain ⟨y, ys, rfl⟩ := List.exists_cons_of_length_pos (Nat.lt_of_succ_lt_succ h)
  exact ⟨x, y, ys, rfl⟩

theorem isAsciiName_intercalate {separator : String} {xs : List String} {c : Char}
    (hxs : 2 ≤ xs.length) (h : c ∈ separator.toList) (hc : Text.isIdentifierPart c = false) :
    isAsciiName (String.intercalate separator xs) = false := by
  obtain ⟨x, y, xs, rfl⟩ := exists_cons_cons hxs
  refine isAsciiName_eq_false (c := c) ?_ hc
  rw [String.intercalate_cons_cons]
  simp [h]

/-- What is no name is not written as one. -/
theorem TypeNode.IsSpelled.isAsciiName_rendered (h : t.IsSpelled)
    (hname : ∀ name arguments, t ≠ .reference name arguments) :
    isAsciiName t.rendered.text = false := by
  cases t with
  | reference name arguments => exact absurd rfl (hname name arguments)
  | imported module name arguments =>
    exact isAsciiName_eq_false (c := '(') (by simp [rendered, ResolvedType.text]) (by decide)
  | literal kind text =>
    cases kind with
    | string =>
      exact isAsciiName_eq_false (c := '"')
        (by simp [rendered, Literal.type, ResolvedType.stringLiteral, ResolvedType.text,
          Text.typeLiteral]) (by decide)
    | number =>
      refine isAsciiName_of_head? (x := text) ?_
      rcases h with h | h
      · simpa [Token.text] using Token.isIdentifierStart_head? h (by simp)
      · simpa [Token.text] using Token.isIdentifierStart_head? h (by simp)
    | template =>
      refine isAsciiName_of_head? (x := text) ?_
      simpa [Token.text] using Token.isIdentifierStart_head? h (by simp)
  | union members =>
    rw [rendered, renderedTypes_eq]
    exact isAsciiName_intercalate (c := ' ') (by rw [List.length_map, List.length_map]; exact h)
      (by decide) (by decide)
  | intersection members =>
    rw [rendered, renderedTypes_eq]
    exact isAsciiName_intercalate (c := ' ') (by rw [List.length_map, List.length_map]; exact h)
      (by decide) (by decide)
  | array element =>
    exact isAsciiName_eq_false (c := '[')
      (by simp [rendered, ResolvedType.array, ResolvedType.text]) (by decide)
  | indexed o i =>
    exact isAsciiName_eq_false (c := '[') (by simp [rendered, ResolvedType.text]) (by decide)
  | tuple elements =>
    exact isAsciiName_eq_false (c := '[') (by simp [rendered, ResolvedType.text]) (by decide)
  | function parameters returns =>
    exact isAsciiName_eq_false (c := '=') (by simp [rendered, ResolvedType.text]) (by decide)
  | operator op operand =>
    refine isAsciiName_eq_false (c := ' ') ?_ (by decide)
    cases op <;> simp [rendered, ResolvedType.text]
  | query name =>
    exact isAsciiName_eq_false (c := ' ') (by simp [rendered, ResolvedType.text]) (by decide)
  | object members =>
    refine isAsciiName_eq_false (c := '\x7b') ?_ (by decide)
    rw [rendered, ResolvedType.text, bodyText]
    split <;> simp
  | raw text => exact h.elim

/-- **Only a name is written as one.** -/
theorem TypeNode.Settled.eq_reference (h : t.Settled s)
    (hname : isAsciiName t.rendered.text = true) : t = .reference t.rendered.text [] := by
  obtain ⟨hspelled, hsettled, -⟩ := h.self
  by_cases hreference : ∃ name arguments, t = .reference name arguments
  · obtain ⟨name, arguments, rfl⟩ := hreference
    rw [TypeNode.rendered] at hname ⊢
    cases hlookup : ResolvedType.intrinsics.lookup name with
    | some types =>
      have hargs : arguments = [] := hsettled.1 (by rw [hlookup]; rfl)
      rw [hargs]
      exact congrArg (TypeNode.reference · []) (text_single_of_lookup hlookup).symm
    | none =>
      rw [hlookup] at hname
      cases arguments with
      | nil => exact congrArg (TypeNode.reference · []) String.append_empty.symm
      | cons t ts =>
        rw [isAsciiName_eq_false (c := '<') (by simp [ResolvedType.text, argumentsText])
          (by decide)] at hname
        cases hname
  · rw [hspelled.isAsciiName_rendered fun name arguments heq => hreference ⟨name, arguments, heq⟩]
      at hname
    cases hname

/-- **A constituent that can be shown tells by its text** what it is. -/
theorem TypeNode.IsPiece.isConstituent (hpiece : t.IsPiece s) : t.IsConstituent := by
  have h := hpiece.1
  refine ⟨hpiece.2, ?_, fun b hb htext => ?_⟩
  · by_cases hkind : t.rendered.kind ∈ plainKinds
    · have hall : ∀ p ∈ ResolvedType.intrinsics, TellsNullish (single p.2) := by decide
      obtain ⟨name, -, types, -, hmem, -, hrendered⟩ := TypeNode.exists_intrinsic hkind
      rw [hrendered]
      exact hall _ hmem
    · have hkinds : TypeKind.null ∈ plainKinds ∧ TypeKind.undefined ∈ plainKinds := by decide
      have hnullish : isNullish t.rendered = false := by
        simp [isNullish, (ne_of_mem_of_not_mem hkinds.1 hkind).symm,
          (ne_of_mem_of_not_mem hkinds.2 hkind).symm]
      have hnames : ∀ x ∈ ["null", "undefined"], isAsciiName x = true ∧
          (TypeNode.reference x []).rendered.kind ∈ plainKinds := by decide
      have htext : t.rendered.text ∉ ["null", "undefined"] := by
        intro hmem
        obtain ⟨hname, hplain⟩ := hnames _ hmem
        rw [← h.eq_reference hname] at hplain
        exact hkind hplain
      simp only [List.mem_cons, List.not_mem_nil, or_false, not_or] at htext
      rw [TellsNullish, hnullish]
      simp [isNullishText, htext]
  · have hnames : ∀ b ∈ ResolvedType.booleans, isAsciiName b.text = true ∧
        (TypeNode.reference b.text []).rendered = b := by decide
    obtain ⟨hname, hrendered⟩ := hnames b hb
    rw [h.eq_reference (htext ▸ hname), htext, hrendered]

theorem isPiece_intrinsic {r : ResolvedType} (h : r ∈ intrinsicTypes) :
    (TypeNode.reference r.text []).IsPiece s :=
  ⟨settled_intrinsic (text_mem_intrinsicNames h), (isConstituent_intrinsic h).piece⟩

/-! ## One type -/

/-- The members of a union that is settled are no unions. -/
theorem TypeNode.Settled.unionMembers (h : t.Settled s) :
    ∀ m ∈ t.unionMembers, m.Settled s ∧ m.unionMembers = [m] := by
  intro m hm
  by_cases hself : t.unionMembers = [t]
  · rw [hself, List.mem_singleton] at hm
    rw [hm]
    exact ⟨h, hself⟩
  · match t, hself with
    | .union (n :: ns), _ => exact ⟨h.part hm, h.self.2.1 m hm⟩

theorem TypeNode.length_le_flatMap_unionMembers (ts : List TypeNode) :
    ts.length ≤ (ts.flatMap TypeNode.unionMembers).length := by
  induction ts with
  | nil => exact Nat.le_refl _
  | cons t ts ih =>
    have := List.length_pos_iff.2 t.unionMembers_ne_nil
    rw [List.flatMap_cons, List.length_append, List.length_cons]
    omega

theorem settled_union (hlen : 2 ≤ ts.length) (h : ∀ t ∈ ts, t.Settled s)
    (hnormal : (TypeNode.union (ts.flatMap TypeNode.unionMembers)).IsNormal s) :
    (TypeNode.union (ts.flatMap TypeNode.unionMembers)).Settled s := by
  have hmembers : ∀ m ∈ ts.flatMap TypeNode.unionMembers, m.Settled s ∧ m.unionMembers = [m] := by
    intro m hm
    obtain ⟨t, ht, hm⟩ := List.mem_flatMap.1 hm
    exact (h t ht).unionMembers m hm
  exact .intro ⟨hlen.trans (TypeNode.length_le_flatMap_unionMembers ts),
    fun m hm => (hmembers m hm).2, hnormal⟩ fun m hm => (hmembers m hm).1

theorem settled_joinedBooleans (h : ∀ t ∈ ts, t.Settled s) :
    ∀ t ∈ joinedBooleans ts, t.Settled s := by
  intro t ht
  obtain ⟨u, hu, rfl⟩ := List.mem_map.1 ht
  split
  · exact settled_intrinsic (by decide)
  · exact h u (List.mem_filter.1 hu).1

/-- Only `true` is left out. -/
theorem length_joinedBooleans (hdistinct : (ts.map (·.rendered.text)).Nodup)
    (htrue : "true" ∈ ts.map (·.rendered.text)) : (joinedBooleans ts).length + 1 = ts.length := by
  have hfilter : (joinedBooleans ts).length = ((ts.map (·.rendered.text)).erase "true").length := by
    rw [hdistinct.erase_eq_filter, List.filter_map, List.length_map, joinedBooleans, List.length_map]
    congr 1
    refine List.filter_congr fun t _ => ?_
    simp only [Function.comp_apply, bne, decide_not, Bool.not_inj_iff]
    rfl
  rw [hfilter, List.length_erase_of_mem htrue, List.length_map]
  have := List.length_pos_of_mem htrue
  rw [List.length_map] at this
  omega

/-- **One type of settled constituents is settled.** -/
theorem settled_oneType (hdistinct : (ts.map (·.rendered.text)).Nodup) (h : ∀ t ∈ ts, t.Settled s)
    (hnormal : (oneType ts).IsNormal s) : (oneType ts).Settled s := by
  revert hnormal
  match ts with
  | [] => exact fun _ => settled_intrinsic (by decide)
  | [t] => exact fun _ => h t (List.mem_singleton_self t)
  | t :: u :: ts =>
    rw [oneType]
    · split
      · next hboth =>
        split
        · exact fun _ => settled_intrinsic (by decide)
        · next hlen =>
          rw [Bool.and_eq_true, List.contains_iff_mem, List.contains_iff_mem] at hboth
          have := length_joinedBooleans hdistinct hboth.2
          simp only [List.length_map, List.length_cons] at hlen this
          exact settled_union (by omega) (settled_joinedBooleans h)
      · exact settled_union (by simp) h
    all_goals simp

theorem settled_normal (h : ∀ t ∈ ts, t.IsPiece s) : (oneType (s.normalTypes ts)).Settled s :=
  settled_oneType (distinct_normalTypes s ts) (fun t ht => (h t (mem_of_mem_normalTypes ht)).1)
    (isNormal_oneType fun t ht => (h t ht).isConstituent)

/-! ## What is shown -/

/-- **It holds of all that a type comes to**: of its constituents, and of those of its properties. -/
inductive Meaning.All (P : TypeNode → Prop) : Meaning → Prop
  | intro {m : Meaning} (constituents : ∀ t ∈ m.constituents, P t)
      (properties : ∀ listed ∈ m.properties, ∀ p ∈ listed, All P p.2) : All P m

namespace Meaning

variable {P : TypeNode → Prop} {m : Meaning}

theorem All.constituents (h : m.All P) : ∀ t ∈ m.constituents, P t := by
  cases h
  assumption

theorem All.properties (h : m.All P) : ∀ p ∈ m.properties.getD [], p.2.All P := by
  cases h with
  | intro _ hproperties =>
    cases hm : m.properties with
    | none => exact List.forall_mem_nil _
    | some listed => exact hproperties listed hm

/-- A type without properties. -/
theorem all_of_constituents {ts : List TypeNode} (h : ∀ t ∈ ts, P t) : (Meaning.mk ts none).All P :=
  .intro h nofun

theorem all_single (h : P t) : (Meaning.mk [t] none).All P :=
  all_of_constituents (List.forall_mem_singleton.2 h)

theorem all_mergeAll {ms : List Meaning} (hms : ∀ m ∈ ms, m.All P) :
    ∀ p ∈ mergeAll [] ms, p.2.All P := by
  intro p hp
  obtain hp | ⟨m, hm, hp⟩ := mem_of_mem_mergeAll hp
  · cases hp
  · exact (hms m hm).properties p hp

/-- What an index names is all that the type comes to have. -/
theorem All.property? (h : m.All P) {index : TypeNode} {found : Meaning}
    (hfound : m.property? index = some found) : found.All P := by
  obtain ⟨p, hp, rfl⟩ := exists_of_property? hfound
  exact h.properties p hp

end Meaning

/-- What a type comes to is settled, and then what it is shown as is. -/
theorem settled_shown_of_all {m : Meaning} (h : m.All (TypeNode.IsPiece s)) :
    (m.shown s).Settled s := settled_normal h.constituents

/-- **What the type of a part comes to is settled.** -/
def TypeNode.ComesSettled (s : Scope) (t : TypeNode) : Prop := (t.meaning s).All (TypeNode.IsPiece s)

theorem TypeNode.ComesSettled.shown (h : t.ComesSettled s) : (t.shown s).Settled s :=
  settled_shown_of_all h

theorem settled_shownOptional {type : Option TypeNode} (h : ∀ t ∈ type, t.ComesSettled s) :
    (shownOptional s type).Settled s := by
  cases type with
  | none => exact settled_intrinsic (by decide)
  | some t => exact (h t rfl).shown

theorem isPiece_constituentsOfOptional {type : Option TypeNode}
    (h : ∀ t ∈ type, t.ComesSettled s) : ∀ t ∈ constituentsOfOptional s type, t.IsPiece s := by
  cases type with
  | none => exact List.forall_mem_singleton.2 (isPiece_intrinsic (by decide : .any ∈ intrinsicTypes))
  | some t => exact (h t rfl).constituents

theorem isPiece_memberConstituents (optional : Bool) (h : ∀ t ∈ ts, t.IsPiece s) :
    ∀ t ∈ s.memberConstituents optional ts, t.IsPiece s := by
  intro t ht
  have hmem := mem_of_mem_normalTypes ht
  split at hmem
  · obtain rfl | hmem := List.mem_cons.1 hmem
    · exact isPiece_intrinsic (by decide : .undefined ∈ intrinsicTypes)
    · exact h t hmem
  · exact h t hmem

theorem settled_oneType_memberConstituents (optional : Bool) (h : ∀ t ∈ ts, t.IsPiece s) :
    (oneType (s.memberConstituents optional ts)).Settled s := by
  unfold Scope.memberConstituents
  split
  · exact settled_normal (List.forall_mem_cons.2
      ⟨isPiece_intrinsic (by decide : .undefined ∈ intrinsicTypes), h⟩)
  · exact settled_normal h

/-- A signature that is shown. -/
theorem isPiece_function {parameters : List Parameter} {returns : TypeNode}
    (hnames : ∀ p ∈ parameters, isAsciiName p.name = true)
    (h : ∀ p ∈ parameters, p.type.ComesSettled s) (hr : returns.Settled s) :
    (TypeNode.function (parameters.map (·.shown s)) returns).IsPiece s := by
  refine isPiece_intro rfl ?_ trivial ?_
  · refine List.forall_mem_map.2 fun p hp => ?_
    have := hnames p hp
    cases p
    exact this
  · refine List.forall_mem_append.2 ⟨?_, List.forall_mem_singleton.2 hr⟩
    rw [List.map_map]
    refine List.forall_mem_map.2 fun p hp => ?_
    cases p
    exact (h _ hp).shown

namespace Member

variable {m : Member}

theorem words_shown (m : Member) : (m.shown s).words = m.words := by
  cases m with
  | method name optional parameters returns =>
    simp only [Member.shown, Member.words, shownParameters_eq, List.map_map]
    refine List.map_congr_left fun p _ => ?_
    cases p
    rfl
  | _ => rfl

/-- **A member as it is shown** is settled, and so are its types. -/
theorem settled_shown (h : ∀ t ∈ m.types, t.ComesSettled s) :
    (m.shown s).IsSettled s ∧ ∀ t ∈ (m.shown s).types, t.Settled s := by
  cases m with
  | property name optional readonly type =>
    simp only [Member.types, Option.mem_toList] at h
    have hpieces := isPiece_constituentsOfOptional h
    refine ⟨⟨_, rfl, ?_⟩,
      List.forall_mem_singleton.2 (settled_oneType_memberConstituents optional hpieces)⟩
    exact single_memberForm_oneType (fun t ht => (hpieces t ht).isConstituent) optional
  | method name optional parameters returns =>
    simp only [Member.types, List.mem_append, or_imp, forall_and, List.forall_mem_map,
      Option.mem_toList] at h
    refine ⟨rfl, ?_⟩
    simp only [Member.shown, Member.types, shownParameters_eq, List.map_map]
    refine List.forall_mem_append.2 ⟨List.forall_mem_map.2 fun p hp => ?_,
      List.forall_mem_singleton.2 (settled_shownOptional h.2)⟩
    cases p
    exact (h.1 _ hp).shown
  | index key readonly keyType valueType =>
    refine ⟨trivial, ?_⟩
    simp only [Member.types, List.forall_mem_cons] at h
    exact List.forall_mem_cons.2 ⟨h.1.shown, List.forall_mem_singleton.2 h.2.1.shown⟩

/-- **What a member comes to** is settled. -/
theorem all_meaning (hwords : ∀ w ∈ m.words, isAsciiName w = true)
    (h : ∀ t ∈ m.types, t.ComesSettled s) : (m.meaning s).All (TypeNode.IsPiece s) := by
  cases m with
  | property name optional readonly type =>
    simp only [Member.types, Option.mem_toList] at h
    refine .intro (isPiece_memberConstituents optional (isPiece_constituentsOfOptional h)) ?_
    intro listed hlisted p hp
    cases type with
    | none => cases hlisted
    | some t =>
      refine (h t rfl).properties p ?_
      rw [show (t.meaning s).properties = some listed from hlisted]
      exact hp
  | method name optional parameters returns =>
    simp only [Member.types, List.mem_append, or_imp, forall_and, List.forall_mem_map,
      Option.mem_toList] at h
    refine Meaning.all_of_constituents (isPiece_memberConstituents optional ?_)
    rw [shownParameters_eq]
    exact List.forall_mem_singleton.2
      (isPiece_function (List.forall_mem_map.1 hwords) h.1 (settled_shownOptional h.2))
  | index => exact Meaning.all_of_constituents (List.forall_mem_nil _)

end Member

/-- A name with settled arguments. -/
theorem isPiece_namedType {name : String} (hdotted : DottedBy (isAsciiName ·) name)
    (hfirst : ∀ first ∈ (nameParts name).head?, isNameAtType first = true)
    (hname : ResolvedType.intrinsics.lookup name = none) (h : ∀ t ∈ ts, t.Settled s) :
    (namedType name ts).IsPiece s := by
  have hplain (harray : name = "Array" ∨ name = "ReadonlyArray" → ts.length ≠ 1) :
      (TypeNode.reference name ts).IsPiece s :=
    isPiece_intro (by rw [TypeNode.rendered, hname]; rfl) ⟨hdotted, hfirst⟩
      ⟨fun hsome => by simp [hname] at hsome, harray⟩ h
  unfold namedType
  by_cases harray : name = "Array" ∨ name = "ReadonlyArray"
  · rw [if_pos harray]
    rcases ts with _ | ⟨t, _ | ⟨u, ts⟩⟩
    · exact hplain fun _ => by simp
    · have helement : (TypeNode.array t).IsPiece s :=
        isPiece_intro rfl trivial trivial h
      dsimp only
      split
      · exact helement
      · exact isPiece_intro rfl trivial (.inl rfl) (List.forall_mem_singleton.2 helement.1)
    · exact hplain fun _ => by simp
  · rw [if_neg harray]
    exact hplain fun hname => absurd hname harray

/-- **What a type that can be written comes to is settled.** -/
theorem comesSettled (h : t.Throughout fun u => u.IsGrammatical ∧ u.KeepsPieces s) :
    t.ComesSettled s := by
  induction h with
  | @intro t hself _ ih =>
  obtain ⟨hself, hkeeps⟩ := hself
  unfold TypeNode.ComesSettled
  cases t with
  | reference name arguments =>
    have harguments : ∀ t ∈ arguments, t.ComesSettled s := ih
    rw [TypeNode.meaning]
    cases hname : ResolvedType.intrinsics.lookup name with
    | some types =>
      refine Meaning.all_of_constituents (List.forall_mem_map.2 fun r hr => ?_)
      exact isPiece_intrinsic (mem_intrinsicTypes hname hr)
    | none =>
      rw [meanings_eq, List.map_map]
      exact Meaning.all_single (isPiece_namedType hself.1 hself.2 hname
        (List.forall_mem_map.2 fun t ht => (harguments t ht).shown))
  | imported module name arguments =>
    have harguments : ∀ t ∈ arguments, t.ComesSettled s := ih
    rw [TypeNode.meaning, meanings_eq, List.map_map]
    exact Meaning.all_single (isPiece_intro rfl hself trivial
      (List.forall_mem_map.2 fun t ht => (harguments t ht).shown))
  | literal kind text =>
    exact Meaning.all_single
      (isPiece_intro (by cases kind <;> rfl) hself trivial (List.forall_mem_nil _))
  | union members =>
    have hmembers : ∀ t ∈ members, t.ComesSettled s := ih
    rw [TypeNode.meaning, meanings_eq, List.flatMap_map]
    exact Meaning.all_of_constituents (List.forall_mem_flatMap.2 fun t ht =>
      (hmembers t ht).constituents)
  | intersection members =>
    have hmembers : ∀ t ∈ members, t.ComesSettled s := ih
    rw [TypeNode.meaning, meanings_eq, List.map_map]
    refine .intro (List.forall_mem_singleton.2 ?_) ?_
    · refine isPiece_intro rfl ?_ trivial
        (List.forall_mem_map.2 fun t ht => (hmembers t ht).shown)
      change 2 ≤ (members.map _).length
      rw [List.length_map]
      exact hself
    · rintro listed ⟨⟩
      exact Meaning.all_mergeAll (List.forall_mem_map.2 hmembers)
  | array element =>
    have helement : element.ComesSettled s := ih element (List.mem_singleton_self _)
    exact Meaning.all_single (isPiece_intro rfl trivial trivial
      (List.forall_mem_singleton.2 helement.shown))
  | indexed o i =>
    have ho : o.ComesSettled s := ih o (by simp [TypeNode.typeParts, TypeNode.parts])
    have hi : i.ComesSettled s := ih i (by simp [TypeNode.typeParts, TypeNode.parts])
    rw [TypeNode.meaning]
    cases hfound : (o.meaning s).property? i with
    | some found => exact ho.property? hfound
    | none =>
      exact Meaning.all_single (isPiece_intro rfl trivial trivial
        (List.forall_mem_cons.2 ⟨ho.shown, List.forall_mem_singleton.2 hi.shown⟩))
  | tuple elements =>
    have helements : ∀ e ∈ elements, e.type.ComesSettled s :=
      fun e he => ih _ (List.mem_map_of_mem he)
    rw [TypeNode.meaning, shownElements_eq]
    refine Meaning.all_single (isPiece_intro rfl
      (List.forall_mem_map.2 fun e he => ?_) trivial ?_)
    · have := hself e he
      cases e <;> exact this
    · refine List.forall_mem_map.2 (List.forall_mem_map.2 fun e he => ?_)
      have := (helements e he).shown
      cases e <;> exact this
  | function parameters returns =>
    have hparameters : ∀ p ∈ parameters, p.type.ComesSettled s :=
      fun p hp => ih _ (List.mem_append_left _ (List.mem_map_of_mem hp))
    have hreturns : returns.ComesSettled s :=
      ih _ (List.mem_append_right _ (List.mem_singleton_self _))
    rw [TypeNode.meaning, shownParameters_eq]
    exact Meaning.all_single (isPiece_function hself.2 hparameters hreturns.shown)
  | operator op operand =>
    cases op with
    | keyof =>
      have hoperand : operand.ComesSettled s := ih operand (List.mem_singleton_self _)
      rw [TypeNode.meaning]
      split
      · refine Meaning.all_of_constituents (List.forall_mem_map.2 fun p _ => ?_)
        exact isPiece_intro rfl trivial trivial (List.forall_mem_nil _)
      · exact Meaning.all_single (isPiece_intro rfl trivial trivial
          (List.forall_mem_singleton.2 hoperand.shown))
    | readonly =>
      have hoperand : operand.ComesSettled s := ih operand (List.mem_singleton_self _)
      refine Meaning.all_single ?_
      unfold readonlyOf
      split
      · next hkind =>
        exact isPiece_intro rfl trivial hkind (List.forall_mem_singleton.2 hoperand.shown)
      · exact ⟨hoperand.shown, hkeeps⟩
    | unique =>
      exact Meaning.all_single (isPiece_intro rfl ⟨_, rfl⟩ rfl (List.forall_mem_nil _))
  | query name =>
    exact Meaning.all_single (isPiece_intro rfl hself trivial (List.forall_mem_nil _))
  | object members =>
    have hmembers : ∀ m ∈ members, ∀ t ∈ m.types, t.ComesSettled s :=
      fun m hm t ht => ih t (List.mem_flatMap.2 ⟨m, hm, ht⟩)
    have hshown : ∀ m ∈ members, (m.shown s).IsSettled s ∧ ∀ t ∈ (m.shown s).types, t.Settled s :=
      fun m hm => Member.settled_shown (hmembers m hm)
    rw [TypeNode.meaning, shownMembers_eq, memberMeanings_eq]
    refine .intro (List.forall_mem_singleton.2 (isPiece_intro rfl ?_ ?_ ?_)) ?_
    · refine List.forall_mem_map.2 fun m hm => ?_
      rw [Member.words_shown]
      exact hself m hm
    · exact List.forall_mem_map.2 fun m hm => (hshown m hm).1
    · refine List.forall_mem_flatMap.2 (List.forall_mem_map.2 fun m hm => (hshown m hm).2)
    · rintro listed ⟨⟩ p hp
      obtain ⟨m, hm, hname⟩ := List.mem_filterMap.1 hp
      obtain ⟨name, -, rfl⟩ := Option.map_eq_some_iff.1 hname
      exact Member.all_meaning (hself m hm) (hmembers m hm)
  | raw text => exact hself.elim

/-- **What a type that can be written is shown as is settled.** -/
theorem settled_shown (h : t.Throughout fun u => u.IsGrammatical ∧ u.KeepsPieces s) :
    (t.shown s).Settled s := (comesSettled h).shown

end FluentBuilders
