import FluentBuilders.Proofs.Resolve.Ending
import FluentBuilders.Proofs.Syntax.Equality
import Mathlib.Data.List.Perm.Subperm
import Mathlib.Logic.Relation

/-!
# Proofs/Resolve/Termination — files whose extraction ends

Each restart is one level deeper, inside the steps of a **trail**.  Between two steps with the same
aliases being expanded there is a way of walks and restarts, so no step comes again when no restart
comes back to itself; and an alias that is expanded leaves fewer to expand.  So there are never more
levels than there are restarts for each set of aliases, and the limit is not reached.
-/

namespace FluentBuilders

open Resolution (Ends EndsIn)

/-! ## Restarts that come back -/

namespace Contents

/-- **One visit leads to another.** -/
def Leads (c : Contents) (v v' : Visit) : Prop := v' ∈ c.walks v ∨ v' ∈ c.restarts v

/-- **No restart comes back to itself.** -/
def NoReturn (c : Contents) : Prop :=
  ∀ r ∈ c.restartPoints, ∀ v, Relation.ReflTransGen c.Leads r v → r ∉ c.restarts v

/-- What is closed under walks and restarts holds all that its visits lead to. -/
theorem mem_of_reflTransGen {c : Contents} {visits : List Visit} {r v : Visit}
    (hclosed : ∀ v ∈ visits, ∀ v' ∈ c.walks v ++ c.restarts v, v' ∈ visits) (hr : r ∈ visits)
    (h : Relation.ReflTransGen c.Leads r v) : v ∈ visits := by
  induction h with
  | refl => exact hr
  | tail _ hstep ih => exact hclosed _ ih _ (List.mem_append.2 hstep)

end Contents

/-! ## Trails -/

/-- The visit of a step. -/
def Descent.visit (d : Descent) : Visit :=
  match d.kind with
  | .shape => .shape d.node
  | .constituents | .memberTypes => .collect d.node

theorem Descent.eq_of_same {a b : Descent} (h : a.same b) :
    a.visit = b.visit ∧ a.active = b.active := by
  simp only [Descent.same, Bool.and_eq_true, beq_iff_eq] at h
  obtain ⟨⟨⟨⟨⟨hkind, -⟩, hactive⟩, -⟩, -⟩, hnode⟩ := h
  exact ⟨by rw [Descent.visit, Descent.visit, hkind, (TypeNode.same_iff _ _).1 hnode], hactive⟩

/-- The steps of a trail that were taken while the same aliases were being expanded. -/
def taken (trail : List Descent) (active : List String) : List Visit :=
  (trail.filter (·.active = active)).map Descent.visit

/-- **A visit inside the steps of a trail**: each of them leads to it, unless an alias has been
expanded since, and the levels are enough for all restarts that are left. -/
structure Inside (c : Contents) (trail : List Descent) (level : Nat) (active : List String)
    (v : Visit) : Prop where
  covers : c.Covers v.node
  leads : ∀ e ∈ trail, e.active.length < active.length ∨
    e.active = active ∧ Relation.ReflTransGen c.Leads e.visit v
  nodup : (taken trail active).Nodup
  known : taken trail active ⊆ c.restartPoints
  room : unvisited c.aliasNames active * c.restartPoints.length +
    (c.restartPoints.length - (taken trail active).length) ≤ level

namespace Inside

variable {c : Contents} {trail : List Descent} {level : Nat} {active : List String} {v v' : Visit}

theorem walk (hc : c.Unindexed) (h : Inside c trail level active v) (hv : v' ∈ c.walks v) :
    Inside c trail level active v' where
  covers := h.covers.walk hc hv
  leads e he := (h.leads e he).imp_right fun ⟨hactive, hleads⟩ => ⟨hactive, hleads.tail (.inl hv)⟩
  nodup := h.nodup
  known := h.known
  room := h.room

/-- Nothing has been taken yet with an alias that is new. -/
theorem taken_cons (h : Inside c trail level active v) (name : String) :
    taken trail (name :: active) = [] := by
  rw [taken, List.map_eq_nil_iff, List.filter_eq_nil_iff]
  intro e he
  have hlength : e.active.length ≤ active.length := by
    rcases h.leads e he with hlt | ⟨heq, -⟩
    · exact hlt.le
    · rw [heq]
  intro heq
  rw [of_decide_eq_true heq, List.length_cons] at hlength
  omega

theorem expand (hc : c.Unindexed) {name : String} {arguments : List TypeNode}
    {d : AliasDeclaration} (h : Inside c trail level active (.collect (.reference name arguments)))
    (hfound : c.find? (splitHead name).1 = some (.alias d)) (hnew : d.name ∉ active) :
    Inside c trail level (d.name :: active) (.collect d.body) where
  covers :=
    Contents.covers_of_mem_types hc (Contents.body_mem_types (Contents.mem_aliases_of_find? hfound).1)
  leads e he := .inl <| by
    rw [List.length_cons]
    rcases h.leads e he with hlt | ⟨heq, -⟩
    · omega
    · rw [heq]; exact Nat.lt_succ_self _
  nodup := by rw [h.taken_cons]; exact List.nodup_nil
  known := by rw [h.taken_cons]; exact List.nil_subset _
  room := by
    have hfewer := unvisited_cons_lt (Contents.mem_aliasNames_of_find? hfound) hnew
    have hmul := Nat.mul_le_mul_right c.restartPoints.length (Nat.succ_le_of_lt hfewer)
    rw [Nat.succ_mul] at hmul
    have := h.room
    rw [h.taken_cons, List.length_nil]
    omega

/-- A restart has not been taken with the same aliases being expanded. -/
theorem notMem_taken (hret : c.NoReturn) (h : Inside c trail level active v)
    (hv : v' ∈ c.restarts v) : v' ∉ taken trail active := by
  intro hmem
  have hpoint := h.known hmem
  obtain ⟨e, he, rfl⟩ := List.mem_map.1 hmem
  obtain ⟨htrail, heq⟩ := List.mem_filter.1 he
  rcases h.leads e htrail with hlt | ⟨-, hleads⟩
  · rw [of_decide_eq_true heq] at hlt
    exact hlt.false
  · exact hret _ hpoint v hleads hv

theorem not_same (hret : c.NoReturn) (h : Inside c trail level active v)
    (hv : v' ∈ c.restarts v) {d : Descent} (hd : d.visit = v') (hactive : d.active = active) :
    ¬ trail.any (·.same d) = true := by
  intro hany
  obtain ⟨e, he, hsame⟩ := List.any_eq_true.1 hany
  obtain ⟨hvisit, heq⟩ := Descent.eq_of_same hsame
  refine h.notMem_taken hret hv (List.mem_map.2 ⟨e, List.mem_filter.2 ⟨he, ?_⟩, hvisit.trans hd⟩)
  exact decide_eq_true (heq.trans hactive)

theorem restart (hc : c.Unindexed) (hret : c.NoReturn) (h : Inside c trail (level + 1) active v)
    (hv : v' ∈ c.restarts v) {d : Descent} (hd : d.visit = v') (hactive : d.active = active) :
    Inside c (d :: trail) level active v' := by
  obtain ⟨hcovers, hpoint⟩ := h.covers.restart hc hv
  have hnew := h.notMem_taken hret hv
  have htaken : taken (d :: trail) active = v' :: taken trail active := by
    simp [taken, hactive, hd]
  have hnodup : (taken (d :: trail) active).Nodup := by
    rw [htaken]
    exact List.nodup_cons.2 ⟨hnew, h.nodup⟩
  have hknown : taken (d :: trail) active ⊆ c.restartPoints := by
    rw [htaken]
    exact List.cons_subset.2 ⟨hpoint, h.known⟩
  refine ⟨hcovers, fun e he => ?_, hnodup, hknown, ?_⟩
  · rcases List.mem_cons.1 he with rfl | he
    · exact .inr ⟨hactive, hd ▸ .refl⟩
    · exact (h.leads e he).imp_right fun ⟨heq, hleads⟩ => ⟨heq, hleads.tail (.inr hv)⟩
  · have hlength := (List.subperm_of_subset hnodup hknown).length_le
    have := h.room
    rw [htaken, List.length_cons] at hlength ⊢
    omega

/-- A restart has a level to go to. -/
theorem level_ne_zero (hc : c.Unindexed) (hret : c.NoReturn) (h : Inside c trail level active v)
    (hv : v' ∈ c.restarts v) : level ≠ 0 := by
  have hnodup : (v' :: taken trail active).Nodup :=
    List.nodup_cons.2 ⟨h.notMem_taken hret hv, h.nodup⟩
  have hknown := List.cons_subset.2 ⟨(h.covers.restart hc hv).2, h.known⟩
  have hlength := (List.subperm_of_subset hnodup hknown).length_le
  have := h.room
  rw [List.length_cons] at hlength
  omega

end Inside

/-! ## Levels that suffice -/

variable {s : Scope}

/-- **Every level answers the restarts inside it.** -/
theorem ending_deeperSteps (hc : s.contents.Unindexed) (hret : s.contents.NoReturn) (level : Nat)
    (trail : List Descent) :
    Ending s (deeperSteps s trail level) (Inside s.contents trail level) := by
  induction level generalizing trail with
  | zero =>
    exact {
      walk := fun h hv => h.walk hc hv
      expand := fun h hfound hnew => h.expand hc hfound hnew
      restart := fun h hv => absurd rfl (h.level_ne_zero hc hret hv)
      covers := fun h => h.covers }
  | succ level ih =>
    refine {
      walk := fun h hv => h.walk hc hv
      expand := fun h hfound hnew => h.expand hc hfound hnew
      restart := fun {active v v'} h hv => ?_
      covers := fun h => h.covers }
    cases v' with
    | collect node =>
      intro env
      have hd : (Descent.into .constituents active [] env node).visit = .collect node := rfl
      have hinside := h.restart hc hret hv hd rfl
      simp only [deeperSteps, Descent.enter]
      rw [if_neg (h.not_same hret hv hd rfl)]
      exact (collect_ends (ih _) hinside).map
    | shape node =>
      intro env
      have hd : (Descent.into .shape active [] env node).visit = .shape node := rfl
      have hinside := h.restart hc hret hv hd rfl
      simp only [deeperSteps, Descent.enter]
      rw [if_neg (h.not_same hret hv hd rfl)]
      exact (shape_ends (ih _) hc hinside).ends

/-! ## Declarations -/

variable {deeper : Deeper} {P : List String → Visit → Prop}

mutual

/-- **Taking a union apart ends**, with parts that are covered. -/
theorem unionParts_ends (h : Ending s deeper P) (hc : s.contents.Unindexed)
    (hstart : ∀ v, s.contents.Covers v.node → P [] v) {seen : List String} {env : Env}
    {node : TypeNode} (hnode : s.contents.Covers node) :
    (unionParts s deeper seen env node).EndsIn fun parts =>
      ∀ p ∈ parts, s.contents.Covers p.1 := by
  match node with
  | .union members =>
    rw [unionParts]
    exact unionPartsAll_ends h hc hstart fun m (hm : m ∈ members) => hnode.part hm
  | .reference name arguments =>
    have hself : ∀ p ∈ [(TypeNode.reference name arguments, env)], s.contents.Covers p.1 :=
      List.forall_mem_singleton.2 hnode
    have hlists : Ends (argumentLists s deeper [] env arguments) :=
      argumentLists_ends h fun m hm => hstart (.collect m) (hnode.part hm)
    rw [unionParts]
    split
    · refine .ok (List.forall_mem_cons.2 ⟨?_, List.forall_mem_singleton.2 ?_⟩) <;>
        exact Contents.covers_of_parts_eq_nil rfl
    split
    · split
      · refine .ok fun p hp => ?_
        obtain ⟨t, -, rfl⟩ := List.mem_map.1 hp
        exact Contents.covers_of_parts_eq_nil rfl
      · exact .ok hself
    split
    · next d hfound =>
      split
      · exact .ok hself
      next hnew =>
      have := unvisited_cons_lt (Contents.mem_structuralNames_of_find?_alias hfound) hnew
      have hd := (Contents.mem_aliases_of_find? hfound).1
      split
      · refine hlists.bindIn fun types htypes => ?_
        refine (bind_ends fun v hv => ?_).bindIn fun bound _ => ?_
        · rw [length_argumentLists htypes] at hv
          exact h.restart (hstart (.shape (.reference name arguments)) hnode)
            (mem_restarts_list (.inl ⟨d, hfound, rfl⟩) hv)
        · exact unionParts_ends h hc hstart
            (Contents.covers_of_mem_types hc (Contents.body_mem_types hd))
      · exact .ok hself
    · exact .ok hself
  | .imported .. | .literal .. | .intersection .. | .array .. | .indexed .. | .tuple ..
  | .function .. | .operator .. | .query .. | .object .. | .raw .. =>
    rw [unionParts]
    · exact .ok (List.forall_mem_singleton.2 hnode)
    all_goals simp
termination_by (unvisited s.contents.structuralNames seen, sizeOf node)
decreasing_by all_goals simp_wf; simp only [Prod.lex_def, true_and]; omega

/-- Taking several types apart ends. -/
theorem unionPartsAll_ends (h : Ending s deeper P) (hc : s.contents.Unindexed)
    (hstart : ∀ v, s.contents.Covers v.node → P [] v) {seen : List String} {env : Env}
    {nodes : List TypeNode} (hnodes : ∀ m ∈ nodes, s.contents.Covers m) :
    (unionPartsAll s deeper seen env nodes).EndsIn fun parts =>
      ∀ p ∈ parts, s.contents.Covers p.1 := by
  match nodes with
  | [] => rw [unionPartsAll]; exact .ok (List.forall_mem_nil _)
  | node :: nodes =>
    obtain ⟨hnode, hnodes⟩ := List.forall_mem_cons.1 hnodes
    rw [unionPartsAll]
    refine (unionParts_ends h hc hstart hnode).bind fun parts hparts => ?_
    exact (unionPartsAll_ends h hc hstart hnodes).bind fun others hothers =>
      .pure (List.forall_mem_append.2 ⟨hparts, hothers⟩)
termination_by (unvisited s.contents.structuralNames seen, sizeOf nodes)
decreasing_by all_goals simp_wf; simp only [Prod.lex_def, true_and]; omega

end

theorem partShapes_ends (h : Ending s deeper P) (hc : s.contents.Unindexed)
    (hstart : ∀ v, s.contents.Covers v.node → P [] v) {seen : List String}
    {parts : List (TypeNode × Env)} (hparts : ∀ p ∈ parts, s.contents.Covers p.1) :
    (partShapes s deeper seen parts).EndsIn fun shapes =>
      ∀ r ∈ shapes, ∀ properties ∈ r, s.contents.CoversAll properties := by
  induction parts with
  | nil => rw [partShapes]; exact .ok (List.forall_mem_nil _)
  | cons p parts ih =>
    obtain ⟨hp, hparts⟩ := List.forall_mem_cons.1 hparts
    rw [partShapes]
    refine (shape_ends h hc (hstart (.shape p.1) hp)).bind fun r hr => ?_
    exact (ih hparts).bind fun shapes hshapes => .pure (List.forall_mem_cons.2 ⟨hr, hshapes⟩)

theorem coversAll_commonShape {c : Contents} {shapes : List (Option (List Property))}
    (h : ∀ r ∈ shapes, ∀ properties ∈ r, c.CoversAll properties) :
    c.CoversAll (commonShape shapes) := by
  unfold commonShape
  split
  · exact List.forall_mem_nil _
  split
  · next first others _ =>
    intro p hp
    exact h _ List.mem_cons_self first rfl p (List.mem_of_mem_filter hp)
  · exact List.forall_mem_nil _

/-- **Listing an alias's properties ends.** -/
theorem aliasProperties_ends (h : Ending s deeper P) (hc : s.contents.Unindexed)
    (hstart : ∀ v, s.contents.Covers v.node → P [] v) {d : AliasDeclaration}
    (hd : d ∈ s.contents.aliases) :
    (aliasProperties s deeper d).EndsIn fun r => s.contents.CoversAll r.1 := by
  have hbody := Contents.covers_of_mem_types hc (Contents.body_mem_types hd)
  refine (unionParts_ends h hc hstart hbody).bind fun parts hparts => ?_
  split
  · refine (partShapes_ends h hc hstart hparts).bind fun shapes hshapes => ?_
    exact .pure (coversAll_commonShape hshapes)
  · refine (shape_ends h hc (hstart (.shape d.body) hbody)).bind fun r hr => .pure ?_
    cases r with
    | none => exact List.forall_mem_nil _
    | some properties => exact hr properties rfl

theorem fieldsOf_ends (h : Ending s deeper P)
    (hstart : ∀ v, s.contents.Covers v.node → P [] v) {properties : List Property}
    (hproperties : s.contents.CoversAll properties) : Ends (fieldsOf s deeper properties) := by
  induction properties with
  | nil => rw [fieldsOf]; exact .ok _
  | cons p properties ih =>
    obtain ⟨hp, hproperties⟩ := List.forall_mem_cons.1 hproperties
    have htypes : Ends (memberTypes s deeper [] p.env p.member) :=
      memberTypes_ends h fun t ht => hstart (.collect t) (hp t ht)
    have hfield : Ends (fieldOf s deeper p) := htypes.bind fun types _ => .pure _
    rw [fieldsOf]
    exact hfield.bind fun _ _ => (ih hproperties).bind fun _ _ => .pure _

theorem mapM_ends {α β : Type} {f : α → Resolution β} {xs : List α}
    (h : ∀ x ∈ xs, Ends (f x)) : Ends (xs.mapM f) := by
  induction xs with
  | nil => exact .pure _
  | cons x xs ih =>
    obtain ⟨hx, hxs⟩ := List.forall_mem_cons.1 h
    rw [List.mapM_cons]
    exact hx.bind fun _ _ => (ih hxs).bind fun _ _ => .pure _

/-! ## Files -/

theorem inside_nil {level : Nat}
    (hroom : (s.contents.aliases.length + 1) * s.contents.restartPoints.length ≤ level)
    {v : Visit} (hv : s.contents.Covers v.node) : Inside s.contents [] level [] v where
  covers := hv
  leads := List.forall_mem_nil _
  nodup := List.nodup_nil
  known := List.nil_subset _
  room := by
    have hnames : unvisited s.contents.aliasNames [] ≤ s.contents.aliases.length :=
      (List.length_filter_le _ _).trans (List.length_map _).le
    have hmul := Nat.mul_le_mul_right s.contents.restartPoints.length hnames
    rw [Nat.succ_mul] at hroom
    exact (Nat.add_le_add hmul (Nat.sub_le _ _)).trans hroom

/-- **Where nothing restarts**, resolution ends. -/
theorem ending_of_no_restarts (hc : s.contents.Unindexed) (hnone : s.contents.restartPoints = []) :
    ∃ P, Ending s s.steps P ∧ ∀ v : Visit, s.contents.Covers v.node → P [] v := by
  have hret : s.contents.NoReturn := by
    intro r hr
    rw [hnone] at hr
    cases hr
  refine ⟨_, ending_deeperSteps hc hret nestingLimit [], fun v hv => inside_nil ?_ hv⟩
  rw [hnone]
  exact Nat.zero_le _

/-- **Extracting an alias ends**, and so does extracting an interface. -/
theorem extractAlias_ends (h : Ending s s.steps P) (hc : s.contents.Unindexed)
    (hstart : ∀ v, s.contents.Covers v.node → P [] v) {d : AliasDeclaration}
    (hd : d ∈ s.contents.aliases) : Ends (extractAlias s d) := by
  have hbody := Contents.covers_of_mem_types hc (Contents.body_mem_types hd)
  have hmembers : Ends (s.describe (parameterEnv d.parameters) d.body) :=
    (collect_ends h (hstart (.collect d.body) hbody)).map
  obtain ⟨⟨properties, isUnion⟩, hlisted, hproperties⟩ := aliasProperties_ends h hc hstart hd
  rw [extractAlias, hlisted]
  refine (fieldsOf_ends h hstart hproperties).bind fun fields _ => ?_
  cases isUnion with
  | true => exact hmembers.bind fun _ _ => .pure _
  | false => exact .pure _

theorem extractInterface_ends (h : Ending s s.steps P) (hc : s.contents.Unindexed)
    (hstart : ∀ v, s.contents.Covers v.node → P [] v) {d : InterfaceDeclaration}
    (hd : d ∈ s.contents.interfaces) : Ends (extractInterface s d) := by
  have htypes {t : TypeNode} (ht : t ∈ s.contents.types) := Contents.covers_of_mem_types hc ht
  have hown : s.contents.CoversAll (Property.ofMembers (parameterEnv d.parameters) d.members) :=
    coversAll_ofMembers fun m hm t ht => htypes (Contents.member_mem_types hd hm ht)
  obtain ⟨properties, hlisted, hproperties⟩ := mergedShapes_ends h hc hown fun m hm =>
    hstart (.shape m) (htypes (Contents.heritage_mem_types hd hm))
  rw [extractInterface, interfaceShape, hlisted]
  exact (fieldsOf_ends h hstart hproperties).bind fun _ _ => .pure _

/-- **Where nothing restarts, extraction ends.** -/
theorem exists_extract (hc : s.contents.Unindexed) (hnone : s.contents.restartPoints = []) :
    ∃ declarations, extract s = .ok declarations := by
  obtain ⟨P, h, hstart⟩ := ending_of_no_restarts hc hnone
  have haliases : Ends (s.contents.aliases.mapM (extractAlias s)) :=
    mapM_ends fun d hd => extractAlias_ends h hc hstart hd
  have hinterfaces : Ends (s.contents.interfaces.mapM (extractInterface s)) :=
    mapM_ends fun d hd => extractInterface_ends h hc hstart hd
  exact haliases.bind fun _ _ => hinterfaces.bind fun _ _ => .pure _

/-- **Extraction ends** for every source text in which no property is looked up and no restart comes
back to itself. -/
theorem extract_ends (text modulePath : String) (path : Option Path) (strict : Bool) :
    let s := Scope.ofFile (readSource text modulePath path strict).value
    s.contents.Unindexed → s.contents.NoReturn →
      (s.contents.aliases.length + 1) * s.contents.restartPoints.length ≤ nestingLimit →
        ∃ declarations, extract s = .ok declarations := by
  intro s hc hret hroom
  have h : Ending s s.steps (Inside s.contents [] nestingLimit) :=
    ending_deeperSteps hc hret nestingLimit []
  have hstart : ∀ v : Visit, s.contents.Covers v.node → Inside s.contents [] nestingLimit [] v :=
    fun v hv => inside_nil hroom hv
  have haliases : Ends (s.contents.aliases.mapM (extractAlias s)) :=
    mapM_ends fun d hd => extractAlias_ends h hc hstart hd
  have hinterfaces : Ends (s.contents.interfaces.mapM (extractInterface s)) :=
    mapM_ends fun d hd => extractInterface_ends h hc hstart hd
  exact haliases.bind fun _ _ => hinterfaces.bind fun _ _ => .pure _

/-- Aliases and interfaces that name each other, a default and an operand of `keyof`. -/
def wheelText : String :=
  "type A<T = 'x'> = T | B\ntype B = A<B> | keyof C\n" ++
    "interface C extends D \x7b a: A \x7d\ninterface D extends C \x7b b: B \x7d"

/-- All that a restart leads to there. -/
def wheelVisits : List Visit :=
  [.collect (.literal .string "x"), .shape (.reference "C" []), .shape (.reference "D" [])]

/-- Extraction ends there. -/
theorem extract_ends_wheel :
    let s := Scope.ofFile (readSource wheelText "/m" none true).value
    s.contents.Unindexed ∧ s.contents.NoReturn ∧ s.contents.restartPoints ≠ [] ∧
      ∃ declarations, extract s = .ok declarations := by
  intro s
  have hc : s.contents.Unindexed := by unfold Contents.Unindexed; decide +kernel
  have hpoints : ∀ r ∈ s.contents.restartPoints, r ∈ wheelVisits := by decide +kernel
  have hclosed : ∀ v ∈ wheelVisits, ∀ v' ∈ s.contents.walks v ++ s.contents.restarts v,
      v' ∈ wheelVisits := by
    decide +kernel
  have hnone : ∀ v ∈ wheelVisits, s.contents.restarts v = [] := by decide +kernel
  have hret : s.contents.NoReturn := fun r hr v hv => by
    rw [hnone v (Contents.mem_of_reflTransGen hclosed (hpoints r hr) hv)]
    exact List.not_mem_nil
  exact ⟨hc, hret, by decide +kernel,
    extract_ends wheelText "/m" none true hc hret (by decide +kernel)⟩

/-! ## Restarts that do come back -/

/-- An alias whose parameter is the alias itself by default. -/
def selfDefaultText : String := "type A<T = A> = T[]\ninterface B \x7b x: A \x7d"

/-- This alias. -/
def selfDefault : AliasDeclaration where
  name := "A"
  body := .array (.reference "T" [])
  parameters := [⟨"T", none, some (.reference "A" [])⟩]
  exported := false
  line := 1

/-- The interface that needs it. -/
def selfDefaultUser : InterfaceDeclaration where
  name := "B"
  heritage := []
  members := [.property "x" false false (some (.reference "A" []))]
  parameters := []
  exported := false
  line := 2

theorem collect_selfDefault (hfound : s.contents.find? "A" = some (.alias selfDefault))
    (h : deeper.constituents [] [] (.reference "A" []) = .error .endless) :
    collect s deeper [] [] (.reference "A" []) = .error .endless := by
  have hbind : bind deeper [] [] selfDefault.parameters [] = .error .endless := by
    simp only [selfDefault, bind, h]
    rfl
  have hhead : splitHead "A" = ("A", "") := by decide
  have hplain : ResolvedType.intrinsics.lookup "A" = none := by decide
  have harray : ¬ (("A" = "Array" ∨ "A" = "ReadonlyArray") ∧
      (s.contents.find? "A").isNone = true) := fun hforeign => absurd hforeign.1 (by decide)
  rw [collect, hplain, argumentLists]
  simp only [List.isEmpty_nil, if_true, List.lookup_nil, harray, if_false, Resolution.ok_bind,
    pure_bind]
  split
  · next e heq => rw [hhead, hfound] at heq; cases heq
  · next i heq => rw [hhead, hfound] at heq; cases heq
  · next d heq =>
    rw [hhead, hfound] at heq
    cases heq
    simp only [hhead, ne_eq, not_true_eq_false, if_false, List.not_mem_nil, not_false_eq_true,
      dif_neg]
    rw [show namedBodyKind? selfDefault.body = none from rfl]
    simp only [hbind]
    rfl
  · next heq => rw [hhead, hfound] at heq; cases heq

theorem constituents_selfDefault (hfound : s.contents.find? "A" = some (.alias selfDefault))
    (level : Nat) : (deeperSteps s [] (level + 2)).constituents [] [] (.reference "A" []) =
      .error .endless := by
  simp only [deeperSteps, Descent.enter, List.any_nil, Bool.false_eq_true, if_false]
  rw [collect_selfDefault hfound]
  · rfl
  · simp only
    rw [if_pos (by decide +kernel)]

/-- **Extraction does not always end**: it does not when the default of a parameter comes back to
itself. -/
theorem extract_endless :
    ¬ ∀ (text modulePath : String) (path : Option Path) (strict : Bool),
      let s := Scope.ofFile (readSource text modulePath path strict).value
      s.contents.Unindexed → ∃ declarations, extract s = .ok declarations := by
  intro h
  obtain ⟨declarations, hds⟩ := h selfDefaultText "/m" none true
    (by unfold Contents.Unindexed; decide +kernel)
  generalize hs : Scope.ofFile (readSource selfDefaultText "/m" none true).value = s at hds
  have hfound : s.contents.find? "A" = some (.alias selfDefault) := by
    have haliases : s.contents.aliases = [selfDefault] := by rw [← hs]; decide +kernel
    simp [Contents.find?, haliases, selfDefault]
  have hinterfaces : s.contents.interfaces = [selfDefaultUser] := by rw [← hs]; decide +kernel
  have hcollect : collect s s.steps [] [] (.reference "A" []) = .error .endless :=
    collect_selfDefault hfound (constituents_selfDefault hfound (nestingLimit - 2))
  obtain ⟨aliases, -, hds⟩ := Resolution.bind_eq_ok.1 hds
  obtain ⟨interfaces, huser, -⟩ := Resolution.bind_eq_ok.1 hds
  rw [hinterfaces, List.mapM_cons] at huser
  obtain ⟨user, huser, -⟩ := Resolution.bind_eq_ok.1 huser
  obtain ⟨properties, hproperties, huser⟩ := Resolution.bind_eq_ok.1 huser
  obtain ⟨fields, hfields, -⟩ := Resolution.bind_eq_ok.1 huser
  rw [interfaceShape, selfDefaultUser, mergedShapes] at hproperties
  cases hproperties
  obtain ⟨field, hfield, -⟩ := Resolution.bind_eq_ok.1 hfields
  obtain ⟨types, htypes, -⟩ := Resolution.bind_eq_ok.1 hfield
  rw [memberTypes] at htypes
  obtain ⟨types, htypes, -⟩ := Resolution.bind_eq_ok.1 htypes
  cases hcollect.symm.trans htypes

end FluentBuilders
