import FluentBuilders.Proofs.Resolve.Leaves
import FluentBuilders.Proofs.Resolve.NormalForm
import Mathlib.Logic.Relation

/-!
# Proofs/Resolve/Reachability — aliases that only name each other

A file is **flat** when the bodies of its aliases hold nothing but references to one another,
intrinsic types and literals.  Expansion then walks the graph of the references and stops where it
comes to an alias that is being expanded.  Nothing is lost by stopping there: what it gathers is
what is written in the aliases that can be reached, and it stops somewhere exactly when a cycle can
be reached (`describe_flat`).
-/

namespace FluentBuilders

/-! ## Flat types -/

mutual

/-- **A flat type**: a literal, an intrinsic type, one of the names, or a union of flat types. -/
def TypeNode.isFlat (names : List String) : TypeNode → Bool
  | .literal _ _ => true
  | .reference name [] => (ResolvedType.intrinsics.lookup name).isSome || names.contains name
  | .union members => areFlat names members
  | _ => false

/-- All of several types are flat. -/
def areFlat (names : List String) : List TypeNode → Bool
  | [] => true
  | node :: nodes => node.isFlat names && areFlat names nodes

end

mutual

/-- **What the intrinsic types and literals of a flat type stand for.** -/
def TypeNode.leaves : TypeNode → List ResolvedType
  | .literal kind text => [Literal.type (kind, text)]
  | .reference name _ => (ResolvedType.intrinsics.lookup name).getD []
  | .union members => leavesOf members
  | _ => []

/-- What those of several types stand for. -/
def leavesOf : List TypeNode → List ResolvedType
  | [] => []
  | node :: nodes => node.leaves ++ leavesOf nodes

end

mutual

/-- **The aliases that a flat type refers to.** -/
def TypeNode.mentions : TypeNode → List String
  | .reference name _ => if (ResolvedType.intrinsics.lookup name).isSome then [] else [name]
  | .union members => mentionsOf members
  | _ => []

/-- The aliases that several types refer to. -/
def mentionsOf : List TypeNode → List String
  | [] => []
  | node :: nodes => node.mentions ++ mentionsOf nodes

end

namespace Contents

/-- **A flat file**: its aliases have no parameters, no intrinsic type's name, and flat bodies. -/
def isFlat (c : Contents) : Bool :=
  c.aliases.all fun d => d.parameters.isEmpty && (ResolvedType.intrinsics.lookup d.name).isNone &&
    d.body.isFlat c.aliasNames

/-- **One alias refers to another.** -/
def Refers (c : Contents) (a b : String) : Prop :=
  ∃ d ∈ c.aliases, d.name = a ∧ b ∈ d.body.mentions

/-- An alias is reached from another by references. -/
abbrev Reaches (c : Contents) : String → String → Prop := Relation.ReflTransGen c.Refers

/-- An alias refers to itself, by way of others or at once. -/
def OnCycle (c : Contents) (a : String) : Prop := Relation.TransGen c.Refers a a

open Classical in
/-- **What is written in the aliases that can be reached** from an alias, itself among them. -/
noncomputable def writtenFrom (c : Contents) (a : String) : List ResolvedType :=
  (c.aliases.filter fun d => c.Reaches a d.name).flatMap (·.body.leaves)

theorem mem_writtenFrom {c : Contents} {a : String} {t : ResolvedType} :
    t ∈ c.writtenFrom a ↔ ∃ d ∈ c.aliases, c.Reaches a d.name ∧ t ∈ d.body.leaves := by
  simp [writtenFrom, and_assoc]

end Contents

theorem leavesOf_eq_flatMap (nodes : List TypeNode) :
    leavesOf nodes = nodes.flatMap TypeNode.leaves := by
  induction nodes with
  | nil => rfl
  | cons m nodes ih => rw [leavesOf, ih, List.flatMap_cons]

theorem mentionsOf_eq_flatMap (nodes : List TypeNode) :
    mentionsOf nodes = nodes.flatMap TypeNode.mentions := by
  induction nodes with
  | nil => rfl
  | cons m nodes ih => rw [mentionsOf, ih, List.flatMap_cons]

/-! ## What expansion gathers -/

/-- **A constituent that expansion gathers** while some aliases are being expanded: a leaf, the mark
of an alias that is being expanded, or a constituent of the body of another. -/
inductive Gathers (s : Scope) : List String → TypeNode → ResolvedType → Prop
  | leaf {active node t} (h : t ∈ node.leaves) : Gathers s active node t
  | cut {active node a} (h : a ∈ node.mentions) (ha : a ∈ active) :
      Gathers s active node (.plain (s.ownName a) .raw)
  | expand {active node d t} (h : d.name ∈ node.mentions) (hd : d ∈ s.contents.aliases)
      (hnew : d.name ∉ active) (hbody : Gathers s (d.name :: active) d.body t) :
      Gathers s active node t

variable {s : Scope} {deeper : Deeper} {active : List String} {node : TypeNode}
  {d : AliasDeclaration} {t : ResolvedType} {a b : String}

theorem gathers_union {members : List TypeNode} :
    Gathers s active (.union members) t ↔ ∃ m ∈ members, Gathers s active m t := by
  constructor
  · intro h
    cases h with
    | leaf h =>
      rw [TypeNode.leaves, leavesOf_eq_flatMap] at h
      obtain ⟨m, hm, ht⟩ := List.mem_flatMap.1 h
      exact ⟨m, hm, .leaf ht⟩
    | cut h ha =>
      rw [TypeNode.mentions, mentionsOf_eq_flatMap] at h
      obtain ⟨m, hm, ht⟩ := List.mem_flatMap.1 h
      exact ⟨m, hm, .cut ht ha⟩
    | expand h hd hnew hbody =>
      rw [TypeNode.mentions, mentionsOf_eq_flatMap] at h
      obtain ⟨m, hm, ht⟩ := List.mem_flatMap.1 h
      exact ⟨m, hm, .expand ht hd hnew hbody⟩
  · rintro ⟨m, hm, h⟩
    have hmentions : ∀ a ∈ m.mentions, a ∈ (TypeNode.union members).mentions := by
      intro a ha
      rw [TypeNode.mentions, mentionsOf_eq_flatMap]
      exact List.mem_flatMap.2 ⟨m, hm, ha⟩
    cases h with
    | leaf h =>
      refine .leaf ?_
      rw [TypeNode.leaves, leavesOf_eq_flatMap]
      exact List.mem_flatMap.2 ⟨m, hm, h⟩
    | cut h ha => exact .cut (hmentions _ h) ha
    | expand h hd hnew hbody => exact .expand (hmentions _ h) hd hnew hbody

theorem gathers_of_mentions_eq_nil (h : node.mentions = []) :
    Gathers s active node t ↔ t ∈ node.leaves := by
  refine ⟨fun hg => ?_, .leaf⟩
  cases hg with
  | leaf ht => exact ht
  | cut ha => rw [h] at ha; cases ha
  | expand ha => rw [h] at ha; cases ha

/-- A reference to an alias has no leaf of its own. -/
theorem gathers_reference (hplain : ResolvedType.intrinsics.lookup a = none) :
    Gathers s active (.reference a []) t ↔
      (a ∈ active ∧ t = .plain (s.ownName a) .raw) ∨
        ∃ d ∈ s.contents.aliases, d.name = a ∧ a ∉ active ∧ Gathers s (a :: active) d.body t := by
  have hmentions : (TypeNode.reference a []).mentions = [a] := by simp [TypeNode.mentions, hplain]
  constructor
  · intro h
    cases h with
    | leaf h => simp [TypeNode.leaves, hplain] at h
    | cut h ha =>
      rw [hmentions, List.mem_singleton] at h
      subst h
      exact .inl ⟨ha, rfl⟩
    | expand h hd hnew hbody =>
      rw [hmentions, List.mem_singleton] at h
      subst h
      exact .inr ⟨_, hd, rfl, hnew, hbody⟩
  · rintro (⟨ha, rfl⟩ | ⟨d, hd, rfl, hnew, hbody⟩)
    · exact .cut (by rw [hmentions]; exact List.mem_singleton_self a) ha
    · exact .expand (by rw [hmentions]; exact List.mem_singleton_self _) hd hnew hbody

namespace Contents

variable {c : Contents}

theorem mem_aliasNames (hd : d ∈ c.aliases) : d.name ∈ c.aliasNames := List.mem_map_of_mem hd

theorem parameters_of_isFlat (h : c.isFlat) (hd : d ∈ c.aliases) : d.parameters = [] := by
  have := List.all_eq_true.1 h d hd
  simp only [Bool.and_eq_true, List.isEmpty_iff] at this
  exact this.1.1

theorem lookup_of_isFlat (h : c.isFlat) (hd : d ∈ c.aliases) :
    ResolvedType.intrinsics.lookup d.name = none := by
  have := List.all_eq_true.1 h d hd
  simp only [Bool.and_eq_true, Option.isNone_iff_eq_none] at this
  exact this.1.2

theorem body_of_isFlat (h : c.isFlat) (hd : d ∈ c.aliases) : d.body.isFlat c.aliasNames := by
  have := List.all_eq_true.1 h d hd
  simp only [Bool.and_eq_true] at this
  exact this.2

end Contents

theorem namedBodyKind?_of_isFlat {names : List String} (h : node.isFlat names) :
    namedBodyKind? node = none := by
  cases node with
  | object | intersection | function => exact absurd h (by simp [TypeNode.isFlat])
  | _ => rfl

/-- An alias of a flat file that is not being expanded is. -/
theorem expands_of_isFlat (hs : s.contents.Sound) (hflat : s.contents.isFlat)
    (hd : d ∈ s.contents.aliases) (hnew : d.name ∉ active) :
    Expands s deeper active [] d.name [] d [] where
  free _ := rfl
  plain := Contents.lookup_of_isFlat hflat hd
  found := by rw [(hs.aliases d hd).plain]; exact hs.find? hd
  whole := by rw [(hs.aliases d hd).plain]
  new := hnew
  unnamed := namedBodyKind?_of_isFlat (Contents.body_of_isFlat hflat hd)
  binds := ⟨[], by rw [argumentLists], by rw [Contents.parameters_of_isFlat hflat hd]; rfl⟩

/-- **An alias that is being expanded** is one constituent of its own. -/
theorem collect_of_active (hs : s.contents.Sound) (hd : d ∈ s.contents.aliases)
    (hplain : ResolvedType.intrinsics.lookup d.name = none) (hactive : d.name ∈ active) :
    collect s deeper active [] (.reference d.name []) =
      .ok [.plain (s.ownName d.name) .raw] := by
  have hfound := hs.find? hd
  have hhead := (hs.aliases d hd).plain
  have hdeclared : (s.contents.find? (splitHead d.name).1) = some (.alias d) := by rwa [hhead]
  rw [collect]
  simp only [List.isEmpty_nil, if_true, List.lookup_nil, hplain, argumentLists, hfound,
    Option.isNone_some, Bool.false_eq_true, and_false, if_false]
  simp only [Bind.bind, Except.bind, pure, Except.pure]
  split
  · next heq => rw [hdeclared] at heq; cases heq
  · next heq => rw [hdeclared] at heq; cases heq
  · next d' heq =>
    rw [hdeclared] at heq
    cases heq
    simp [hhead, hactive]
  · next heq => rw [hdeclared] at heq; cases heq

mutual

/-- **Expansion of a flat type ends**, with the constituents it gathers. -/
theorem collect_flat (hs : s.contents.Sound) (hflat : s.contents.isFlat) (active : List String)
    {node : TypeNode} (hnode : node.isFlat s.contents.aliasNames) :
    ∃ types, collect s deeper active [] node = .ok types ∧
      ∀ t, t ∈ types ↔ Gathers s active node t := by
  match node with
  | .literal kind text =>
    refine ⟨(TypeNode.literal kind text).leaves, ?_, fun t => ?_⟩
    · exact collect_literal
    · rw [gathers_of_mentions_eq_nil rfl]
  | .union members =>
    obtain ⟨types, htypes, hmem⟩ := collectAll_flat hs hflat active
      (show areFlat s.contents.aliasNames members by rwa [TypeNode.isFlat] at hnode)
    refine ⟨types, by rw [collect, htypes], fun t => ?_⟩
    rw [hmem, gathers_union]
  | .reference name [] =>
    cases hplain : ResolvedType.intrinsics.lookup name with
    | some types =>
      refine ⟨types, by rw [collect]; simp [hplain], fun t => ?_⟩
      rw [gathers_of_mentions_eq_nil (by simp [TypeNode.mentions, hplain])]
      simp [TypeNode.leaves, hplain]
    | none =>
      obtain ⟨d, hd, rfl⟩ : ∃ d ∈ s.contents.aliases, d.name = name := by
        simpa [TypeNode.isFlat, hplain, Contents.aliasNames] using hnode
      by_cases hactive : d.name ∈ active
      · refine ⟨_, collect_of_active hs hd hplain hactive, fun t => ?_⟩
        simp [gathers_reference hplain, hactive]
      have := unvisited_cons_lt (Contents.mem_aliasNames hd) hactive
      obtain ⟨types, htypes, hmem⟩ := collect_flat hs hflat (d.name :: active)
        (Contents.body_of_isFlat hflat hd)
      refine ⟨types, ?_, fun t => ?_⟩
      · rw [collect_of_expands (expands_of_isFlat hs hflat hd hactive), htypes]
      · have hunique : ∀ e ∈ s.contents.aliases, e.name = d.name → e = d := by
          intro e he heq
          have hfind := hs.find? he
          rw [heq, hs.find? hd] at hfind
          cases hfind
          rfl
        rw [hmem, gathers_reference hplain]
        constructor
        · exact fun h => .inr ⟨d, hd, rfl, hactive, h⟩
        · rintro (⟨h, -⟩ | ⟨e, he, heq, -, h⟩)
          · exact absurd h hactive
          · rwa [hunique e he heq] at h
  | .reference _ (_ :: _) | .imported .. | .intersection .. | .array .. | .indexed .. | .tuple ..
  | .function .. | .operator .. | .query .. | .object .. | .raw .. =>
    exact absurd hnode (by simp [TypeNode.isFlat])
termination_by (unvisited s.contents.aliasNames active, sizeOf node)
decreasing_by all_goals simp_wf; simp only [Prod.lex_def, true_and]; omega

/-- So does that of several flat types in a row. -/
theorem collectAll_flat (hs : s.contents.Sound) (hflat : s.contents.isFlat) (active : List String)
    {nodes : List TypeNode} (hnodes : areFlat s.contents.aliasNames nodes) :
    ∃ types, collectAll s deeper active [] nodes = .ok types ∧
      ∀ t, t ∈ types ↔ ∃ m ∈ nodes, Gathers s active m t := by
  match nodes with
  | [] => exact ⟨[], by rw [collectAll], by simp⟩
  | node :: nodes =>
    rw [areFlat, Bool.and_eq_true] at hnodes
    obtain ⟨first, hfirst, hmem⟩ := collect_flat hs hflat active hnodes.1
    obtain ⟨others, hothers, hmems⟩ := collectAll_flat hs hflat active hnodes.2
    refine ⟨first ++ others, ?_, fun t => ?_⟩
    · rw [collectAll, hfirst, hothers]
      rfl
    · simp only [List.mem_append, List.mem_cons, exists_eq_or_imp, hmem, hmems]
termination_by (unvisited s.contents.aliasNames active, sizeOf nodes)
decreasing_by all_goals simp_wf; simp only [Prod.lex_def, true_and]; omega

end

/-! ## Leaves -/

mutual

/-- A leaf is an intrinsic type or a literal. -/
theorem leaf_cases {node : TypeNode} {t : ResolvedType} (h : t ∈ node.leaves) :
    t ∈ intrinsicTypes ∨ ∃ p ∈ node.literals, t = p.type := by
  match node with
  | .literal kind text =>
    exact .inr ⟨(kind, text), by simp [TypeNode.literals], List.mem_singleton.1 h⟩
  | .reference name arguments =>
    refine .inl ?_
    rw [TypeNode.leaves] at h
    cases hlookup : ResolvedType.intrinsics.lookup name with
    | none => rw [hlookup] at h; cases h
    | some types =>
      rw [hlookup] at h
      exact mem_intrinsicTypes hlookup h
  | .union members =>
    rw [TypeNode.leaves] at h
    rw [TypeNode.literals]
    exact leavesOf_cases h
  | .imported .. | .intersection .. | .array .. | .indexed .. | .tuple .. | .function ..
  | .operator .. | .query .. | .object .. | .raw .. => exact absurd h (by simp [TypeNode.leaves])

/-- So is a leaf of several types. -/
theorem leavesOf_cases {nodes : List TypeNode} {t : ResolvedType} (h : t ∈ leavesOf nodes) :
    t ∈ intrinsicTypes ∨ ∃ p ∈ literalsOfTypes nodes, t = p.type := by
  match nodes with
  | [] => cases h
  | node :: nodes =>
    rw [leavesOf, List.mem_append] at h
    rw [literalsOfTypes]
    simp only [List.mem_append]
    rcases h with h | h
    · exact (leaf_cases h).imp_right fun ⟨p, hp, ht⟩ => ⟨p, .inl hp, ht⟩
    · exact (leavesOf_cases h).imp_right fun ⟨p, hp, ht⟩ => ⟨p, .inr hp, ht⟩

end

theorem kind_of_mem_leaves (h : t ∈ node.leaves) : t.kind ≠ .raw ∧ t.kind ≠ .never := by
  have hintrinsic : ∀ t ∈ intrinsicTypes, t.kind ≠ .raw ∧ t.kind ≠ .never := by decide
  obtain ht | ⟨⟨kind, text⟩, -, rfl⟩ := leaf_cases h
  · exact hintrinsic t ht
  · cases kind <;> exact ⟨nofun, nofun⟩

/-! ## Texts -/

/-- The letters that intrinsic types begin with. -/
def intrinsicInitials : List Char := ['f', 't', 's', 'n', 'b', 'a', 'u', 'v', 'o']

/-- The kind of a constituent that is no intrinsic type, by its first character. -/
def initialKind : Char → TypeKind
  | '`' => .template
  | 'i' => .raw
  | _ => .literal

/-- **The constituent of a text.** -/
def typeOfText (text : String) : ResolvedType :=
  match intrinsicTypes.find? (·.text == text) with
  | some t => t
  | none => .plain text ((text.toList.head?.map initialKind).getD .literal)

theorem typeOfText_of_head {text : String} {c : Char} (hhead : text.toList.head? = some c)
    (hc : c ∉ intrinsicInitials) : typeOfText text = .plain text (initialKind c) := by
  have hinitials : ∀ t ∈ intrinsicTypes, ∃ c ∈ intrinsicInitials, t.text.toList.head? = some c := by
    decide +kernel
  have hnone : intrinsicTypes.find? (·.text == text) = none := by
    rw [List.find?_eq_none]
    rintro t ht heq
    obtain ⟨d, hd, htext⟩ := hinitials t ht
    rw [beq_iff_eq.1 heq, hhead] at htext
    cases htext
    exact hc hd
  rw [typeOfText, hnone, hhead]
  rfl

theorem typeOfText_of_isWritten {p : Literal} (h : p.IsWritten) :
    typeOfText p.type.text = p.type := by
  obtain ⟨kind, text⟩ := p
  cases kind with
  | string =>
    have hhead : (Text.typeLiteral text).toList.head? = some '"' := by
      rw [Text.toList_typeLiteral]; rfl
    exact typeOfText_of_head hhead (by decide)
  | template => exact typeOfText_of_head h (by decide)
  | number =>
    obtain ⟨c, hc, hdigit⟩ := h
    have hletters : ∀ d ∈ 'i' :: '`' :: intrinsicInitials,
        ¬ (Text.isDecimalDigit d = true ∨ d = '-') := by decide
    have hnot : c ∉ 'i' :: '`' :: intrinsicInitials := fun hmem => hletters c hmem hdigit
    have hkind : initialKind c = .literal := by
      unfold initialKind
      split
      · simp at hnot
      · simp at hnot
      · rfl
    have := typeOfText_of_head hc (c := c) fun hmem => hnot (by simp [hmem])
    rwa [hkind] at this

theorem typeOfText_ownName (s : Scope) (a : String) :
    typeOfText (s.ownName a) = .plain (s.ownName a) .raw := by
  have hhead : (s.ownName a).toList.head? = some 'i' := by
    simp [Scope.ownName, Scope.qualify]
  exact typeOfText_of_head hhead (by decide)

/-- **Types of one text that are gathered are one type.** -/
theorem Gathers.typeOfText (hs : s.contents.Sound) (h : Gathers s active node t)
    (hwritten : ∀ p ∈ node.literals, p.IsWritten) : typeOfText t.text = t := by
  induction h with
  | leaf h =>
    have hintrinsic : ∀ t ∈ intrinsicTypes, FluentBuilders.typeOfText t.text = t := by
      decide +kernel
    obtain ht | ⟨p, hp, rfl⟩ := leaf_cases h
    · exact hintrinsic _ ht
    · exact typeOfText_of_isWritten (hwritten p hp)
  | cut => exact typeOfText_ownName s _
  | expand h hd hnew hbody ih => exact ih (hs.aliases _ hd).written

theorem Gathers.kind_ne_never (h : Gathers s active node t) : t.kind ≠ .never := by
  induction h with
  | leaf h => exact (kind_of_mem_leaves h).2
  | cut => nofun
  | expand _ _ _ _ ih => exact ih

/-! ## Paths -/

namespace Contents

variable {c : Contents} {next : String}

/-- **A path that stays clear of some aliases** all along. -/
def ReachesClear (c : Contents) (active : List String) (a b : String) : Prop :=
  a ∉ active ∧ Relation.ReflTransGen (fun x y => c.Refers x y ∧ y ∉ active) a b

theorem reachesClear_nil : c.ReachesClear [] a b ↔ c.Reaches a b := by
  simp [ReachesClear]

/-- **The last visit to the start splits a path**: what comes after it stays clear of the start as
well. -/
theorem ReachesClear.split (h : c.ReachesClear active a b) :
    b = a ∨ ∃ next, c.Refers a next ∧ c.ReachesClear (a :: active) next b := by
  obtain ⟨-, hpath⟩ := h
  induction hpath with
  | refl => exact .inl rfl
  | @tail e e' _ hstep ih =>
    by_cases he' : e' = a
    · exact .inl he'
    have hclear : e' ∉ a :: active := by simp [he', hstep.2]
    obtain rfl | ⟨next, hnext, hfree, hpath⟩ := ih
    · exact .inr ⟨e', hstep.1, hclear, .refl⟩
    · exact .inr ⟨next, hnext, hfree, hpath.tail ⟨hstep.1, hclear⟩⟩

/-- What a cycle can be reached from refers to something that a cycle can be reached from. -/
theorem exists_refers_of_onCycle (hreach : c.Reaches a b) (hcycle : c.OnCycle b) :
    ∃ next, c.Refers a next ∧ c.Reaches next b := by
  obtain ⟨next, hnext, hback⟩ := Relation.TransGen.head'_iff.1 hcycle
  obtain rfl | ⟨next', hnext', hrest⟩ := hreach.cases_head
  · exact ⟨next, hnext, hback⟩
  · exact ⟨next', hnext', hrest⟩

end Contents

/-- **No leaf is lost** where expansion stops: another path leads to it. -/
theorem gathers_of_reachesClear (hd : d ∈ s.contents.aliases) (ht : t ∈ d.body.leaves)
    {active : List String} {node : TypeNode} {a : String} (ha : a ∈ node.mentions)
    (h : s.contents.ReachesClear active a d.name) : Gathers s active node t := by
  obtain heq | ⟨next, ⟨e, he, rfl, hnext⟩, hrest⟩ := h.split
  · subst heq
    exact .expand ha hd h.1 (.leaf ht)
  · have := unvisited_cons_lt (Contents.mem_aliasNames he) h.1
    exact .expand ha he h.1 (gathers_of_reachesClear hd ht hnext hrest)
termination_by unvisited s.contents.aliasNames active

/-- Every leaf that is gathered can be reached. -/
theorem Gathers.reaches (h : Gathers s active node t) (hkind : t.kind ≠ .raw) :
    t ∈ node.leaves ∨ ∃ a ∈ node.mentions, ∃ d ∈ s.contents.aliases,
      s.contents.Reaches a d.name ∧ t ∈ d.body.leaves := by
  induction h with
  | leaf h => exact .inl h
  | cut => exact absurd rfl hkind
  | @expand active node d t h hd hnew hbody ih =>
    refine .inr ⟨d.name, h, ?_⟩
    obtain ht | ⟨b, hb, e, he, hreach, ht⟩ := ih hkind
    · exact ⟨d, hd, .refl, ht⟩
    · exact ⟨e, he, hreach.head ⟨d, hd, rfl, hb⟩, ht⟩

/-- **Expansion stops on the way round a cycle**, wherever it sets out. -/
theorem exists_gathers_raw (active : List String) {node : TypeNode} {a : String}
    (ha : a ∈ node.mentions) (hreach : s.contents.Reaches a b) (hcycle : s.contents.OnCycle b) :
    ∃ t, Gathers s active node t ∧ t.kind = .raw := by
  by_cases hactive : a ∈ active
  · exact ⟨_, .cut ha hactive, rfl⟩
  obtain ⟨next, ⟨d, hd, rfl, hnext⟩, hrest⟩ := Contents.exists_refers_of_onCycle hreach hcycle
  have := unvisited_cons_lt (Contents.mem_aliasNames hd) hactive
  obtain ⟨t, ht, hkind⟩ := exists_gathers_raw (d.name :: active) hnext hrest hcycle
  exact ⟨t, .expand ha hd hactive ht, hkind⟩
termination_by unvisited s.contents.aliasNames active

/-- **It stops nowhere else**: what is being expanded leads to every alias that is met. -/
theorem Gathers.onCycle (h : Gathers s active node t) (hkind : t.kind = .raw)
    (hactive : ∀ a ∈ active, ∀ b ∈ node.mentions, Relation.TransGen s.contents.Refers a b) :
    ∃ a ∈ node.mentions, ∃ b, s.contents.Reaches a b ∧ s.contents.OnCycle b := by
  induction h with
  | leaf h => exact absurd hkind (kind_of_mem_leaves h).1
  | cut h ha => exact ⟨_, h, _, .refl, hactive _ ha _ h⟩
  | @expand active node d t h hd hnew hbody ih =>
    have hstep : ∀ b ∈ d.body.mentions, s.contents.Refers d.name b :=
      fun b hb => ⟨d, hd, rfl, hb⟩
    obtain ⟨a, ha, b, hreach, hcycle⟩ := ih hkind fun a ha b hb => by
      obtain rfl | ha := List.mem_cons.1 ha
      · exact .single (hstep b hb)
      · exact (hactive a ha d.name h).tail (hstep b hb)
    exact ⟨d.name, h, b, hreach.head (hstep a ha), hcycle⟩

/-! ## The constituents of an alias -/

/-- What is gathered from a reference to an alias, the marks of cycles apart, is what is written in
the aliases that can be reached. -/
theorem gathers_iff_mem_writtenFrom
    (hplain : ResolvedType.intrinsics.lookup d.name = none) :
    Gathers s [] (.reference d.name []) t ∧ t.kind ≠ .raw ↔ t ∈ s.contents.writtenFrom d.name := by
  have hmentions : (TypeNode.reference d.name []).mentions = [d.name] := by
    simp [TypeNode.mentions, hplain]
  have hleaves : (TypeNode.reference d.name []).leaves = [] := by simp [TypeNode.leaves, hplain]
  rw [Contents.mem_writtenFrom]
  constructor
  · rintro ⟨h, hkind⟩
    obtain ht | ⟨a, ha, e, he, hreach, ht⟩ := h.reaches hkind
    · rw [hleaves] at ht; cases ht
    · rw [hmentions, List.mem_singleton] at ha
      subst ha
      exact ⟨e, he, hreach, ht⟩
  · rintro ⟨e, he, hreach, ht⟩
    refine ⟨?_, (kind_of_mem_leaves ht).1⟩
    exact gathers_of_reachesClear he ht (by simp [hmentions]) (Contents.reachesClear_nil.2 hreach)

/-- A mark is among it exactly when a cycle can be reached. -/
theorem exists_gathers_raw_iff (hplain : ResolvedType.intrinsics.lookup a = none) :
    (∃ t, Gathers s [] (.reference a []) t ∧ t.kind = .raw) ↔
      ∃ b, s.contents.Reaches a b ∧ s.contents.OnCycle b := by
  have hmentions : (TypeNode.reference a []).mentions = [a] := by simp [TypeNode.mentions, hplain]
  constructor
  · rintro ⟨t, h, hkind⟩
    obtain ⟨a', ha', b, hreach, hcycle⟩ := h.onCycle hkind (by simp)
    rw [hmentions, List.mem_singleton] at ha'
    subst ha'
    exact ⟨b, hreach, hcycle⟩
  · rintro ⟨b, hreach, hcycle⟩
    exact exists_gathers_raw [] (by simp [hmentions]) hreach hcycle

/-- **Alias expansion computes reachability.**  In every flat file, read with null checks on, the
expansion of an alias ends; its constituents are the normal form of what is written in the aliases
that can be reached, and one more for every place where a cycle is cut: there is one exactly when a
cycle can be reached, unless `any` or `unknown` absorbs it. -/
theorem describe_flat (text modulePath : String) (path : Option Path) {d : AliasDeclaration} :
    let s := Scope.ofFile (readSource text modulePath path true).value
    s.contents.isFlat → d ∈ s.contents.aliases →
      ∃ types, s.describe [] (.reference d.name []) = .ok types ∧
        (∀ t, t ∈ types ∧ t.kind ≠ .raw ↔ t ∈ s.normalForm (s.contents.writtenFrom d.name)) ∧
        ((∀ t ∈ s.contents.writtenFrom d.name, t.kind ≠ .any ∧ t.kind ≠ .unknown) →
          ((∃ t ∈ types, t.kind = .raw) ↔
            ∃ b, s.contents.Reaches d.name b ∧ s.contents.OnCycle b)) := by
  intro s hflat hd
  have hs : s.contents.Sound := sound_readContents _ _
  have hplain := Contents.lookup_of_isFlat hflat hd
  have hnode : (TypeNode.reference d.name []).isFlat s.contents.aliasNames := by
    simp [TypeNode.isFlat, Contents.mem_aliasNames hd]
  obtain ⟨types, htypes, hmem⟩ : ∃ types,
      collect s s.steps [] [] (.reference d.name []) = .ok types ∧
        ∀ t, t ∈ types ↔ Gathers s [] (.reference d.name []) t :=
    collect_flat hs hflat [] hnode
  have htext : ∀ t ∈ types, typeOfText t.text = t := fun t ht =>
    ((hmem t).1 ht).typeOfText hs (by simp [TypeNode.literals, literalsOfTypes])
  have hnever : ∀ t ∈ types, t.kind ≠ .never := fun t ht => ((hmem t).1 ht).kind_ne_never
  have hwritten : ∀ t, t ∈ s.contents.writtenFrom d.name ↔ t ∈ types ∧ t.kind ≠ .raw := fun t => by
    rw [hmem, gathers_iff_mem_writtenFrom hplain]
  have habsorb : ∀ k : TypeKind, k ≠ .raw →
      ((∃ t ∈ s.contents.writtenFrom d.name, t.kind = k) ↔ ∃ t ∈ types, t.kind = k) := by
    intro k hk
    refine exists_congr fun t => ⟨?_, ?_⟩
    · rintro ⟨ht, heq⟩
      exact ⟨((hwritten t).1 ht).1, heq⟩
    · rintro ⟨ht, rfl⟩
      exact ⟨(hwritten t).2 ⟨ht, hk⟩, rfl⟩
  have hany := habsorb .any (by decide)
  have hunknown := habsorb .unknown (by decide)
  have hnormal : ∀ t, t ∈ s.normalForm types ↔ _ := fun t => mem_normalize_iff htext hnever
  refine ⟨s.normalForm types, by rw [Scope.describe, htypes]; rfl, fun t => ?_, fun hfree => ?_⟩
  · have hreached : t ∈ s.normalForm (s.contents.writtenFrom d.name) ↔ _ :=
      mem_normalize_iff (fun u hu => htext u ((hwritten u).1 hu).1)
        fun u hu => hnever u ((hwritten u).1 hu).1
    simp only [hreached, hnormal, hany, hunknown]
    split
    · exact ⟨And.left, fun h => ⟨h, by rw [h]; decide⟩⟩
    split
    · exact ⟨And.left, fun h => ⟨h, by rw [h]; decide⟩⟩
    · exact (hwritten t).symm
  · rw [← exists_gathers_raw_iff hplain]
    refine exists_congr fun t => and_congr_left fun _ => ?_
    simp only [hnormal, ← hany, ← hunknown]
    have hnoAny : ¬ ∃ u ∈ s.contents.writtenFrom d.name, u.kind = .any := by
      rintro ⟨u, hu, hk⟩
      exact (hfree u hu).1 hk
    have hnoUnknown : ¬ ∃ u ∈ s.contents.writtenFrom d.name, u.kind = .unknown := by
      rintro ⟨u, hu, hk⟩
      exact (hfree u hu).2 hk
    rw [if_neg hnoAny, if_neg hnoUnknown, hmem]

/-- Two aliases that name each other. -/
def circleText : String := "type A = B | 'x'\ntype B = A | number"

/-- The first of them. -/
def circleAlias : AliasDeclaration where
  name := "A"
  body := .union [.reference "B" [], .literal .string "x"]
  parameters := []
  exported := false
  line := 1

/-- The expansion of one of them ends, and a cycle is cut on the way. -/
theorem describe_flat_circle :
    let s := Scope.ofFile (readSource circleText "/m" none true).value
    s.contents.isFlat ∧ circleAlias ∈ s.contents.aliases ∧
      ∃ types, s.describe [] (.reference "A" []) = .ok types ∧ ∃ t ∈ types, t.kind = .raw := by
  intro s
  have hflat : s.contents.isFlat := by decide +kernel
  have hd : circleAlias ∈ s.contents.aliases := by decide +kernel
  obtain ⟨types, htypes, -, hcut⟩ := describe_flat circleText "/m" none hflat hd
  have hthere : s.contents.Refers "A" "B" := by unfold Contents.Refers; decide +kernel
  have hback : s.contents.Refers "B" "A" := by unfold Contents.Refers; decide +kernel
  have hplain : ∀ d ∈ s.contents.aliases, ∀ t ∈ d.body.leaves,
      t.kind ≠ .any ∧ t.kind ≠ .unknown := by
    decide +kernel
  refine ⟨hflat, hd, types, htypes, (hcut fun t ht => ?_).2 ⟨"A", .refl, ?_⟩⟩
  · obtain ⟨d, hd, -, ht⟩ := Contents.mem_writtenFrom.1 ht
    exact hplain d hd t ht
  · exact (Relation.TransGen.single hthere).tail hback

end FluentBuilders
