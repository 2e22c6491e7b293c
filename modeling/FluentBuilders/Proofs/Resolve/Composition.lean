import FluentBuilders.Proofs.Resolve.Invariant
import FluentBuilders.Proofs.Source.Formed
import FluentBuilders.Proofs.Syntax.Parentheses

/-!
# Proofs/Resolve/Composition — a union is described by what its members are described by

Describing a union brings the constituents of all its members to normal form at once; bringing those
of each member to normal form first changes nothing (`describe_union`), since in a source text every
constituent tells by its text whether it is `null` or `undefined`.  What comes out is in normal form
(`NormalFormOf`), so it matters neither how a union is grouped nor how often a member is repeated.
-/

namespace FluentBuilders

variable {strict : Bool} {seen : List String} {xs types : List ResolvedType} {t : ResolvedType}

/-! ## The normal form -/

/-- The place of a text among the intrinsic types; all others come after them. -/
def rank (text : String) : Nat := intrinsicOrder.idxOf text

/-- A text that is none of an intrinsic type. -/
def isUnranked (text : String) : Bool := !intrinsicOrder.contains text

/-- The texts of a list, each once and in the order in which they come first, without `never`. -/
def firstTexts (xs : List ResolvedType) : List String :=
  ((xs.filter (·.kind ≠ .never)).map (·.text)).eraseDups

/-- **What the normal form of a list is like**: texts differ, `any` and `unknown` are alone, `never` is
not there, the intrinsic types come first and in their order, the others after them in the order in
which they come first in the list; with null checks off `null` and `undefined` have only each other
beside them. -/
structure NormalFormOf (strict : Bool) (xs types : List ResolvedType) : Prop where
  distinct : (types.map (·.text)).Nodup
  alone : ∀ t ∈ types, t.kind = .any ∨ t.kind = .unknown → types = [t]
  inhabited : ∀ t ∈ types, t.kind ≠ .never
  ranked : (types.map fun t => rank t.text).Pairwise (· ≤ ·)
  others : ((types.map (·.text)).filter isUnranked).Sublist (firstTexts xs)
  nullish : strict = false → (∃ t ∈ types, isNullish t = true) → ∀ t ∈ types, isNullish t = true

theorem map_text_dropRepeats : (dropRepeats seen xs).map (·.text) =
    (((xs.filter (·.kind ≠ .never)).map (·.text)).filter (!seen.contains ·)).eraseDups := by
  induction xs generalizing seen with
  | nil => rfl
  | cons u xs ih =>
    rw [dropRepeats]
    by_cases hnever : u.kind = .never
    · rw [if_pos (.inl hnever), List.filter_cons_of_neg (by simpa using hnever), ih]
    rw [List.filter_cons_of_pos (by simpa using hnever), List.map_cons]
    by_cases hseen : u.text ∈ seen
    · rw [if_pos (.inr hseen), List.filter_cons_of_neg (by simpa using hseen), ih]
    · rw [if_neg (by simp [hnever, hseen]), List.filter_cons_of_pos (by simpa using hseen),
        List.eraseDups_cons, List.map_cons, ih, List.filter_filter]
      congr 2
      refine List.filter_congr fun x _ => ?_
      by_cases hx : x = u.text <;> simp [hx]

theorem rank_le (text : String) : rank text ≤ intrinsicOrder.length := List.idxOf_le_length

theorem rank_of_unranked {text : String} (h : isUnranked text = true) :
    rank text = intrinsicOrder.length := by
  rw [rank, List.idxOf_eq_length_iff]
  simpa [isUnranked] using h

/-- **The intrinsic types come first**, in their order. -/
theorem pairwise_rank_intrinsicsFirst (xs : List ResolvedType) :
    (intrinsicsFirst xs).Pairwise fun t u => rank t.text ≤ rank u.text := by
  have hranked : intrinsicOrder.Pairwise fun a b => rank a ≤ rank b := by decide
  rw [intrinsicsFirst, List.pairwise_append]
  refine ⟨?_, ?_, ?_⟩
  · rw [List.pairwise_flatMap]
    constructor
    · intro name _
      refine List.pairwise_iff_forall_sublist.2 fun {t u} hsub => ?_
      have ht := (List.mem_filter.1 (hsub.subset (.head _))).2
      have hu := (List.mem_filter.1 (hsub.subset (.tail _ (.head _)))).2
      rw [beq_iff_eq.1 ht, beq_iff_eq.1 hu]
    · refine hranked.imp fun h t ht u hu => ?_
      simp only [List.mem_filter, beq_iff_eq] at ht hu
      rwa [ht.2, hu.2]
  · refine List.pairwise_iff_forall_sublist.2 fun {t u} hsub => ?_
    rw [rank_of_unranked (List.mem_filter.1 (hsub.subset (.tail _ (.head _)))).2]
    exact rank_le _
  · intro t _ u hu
    rw [rank_of_unranked (List.mem_filter.1 hu).2]
    exact rank_le _

theorem counted_sublist : (counted strict xs).Sublist (dropRepeats [] xs) := by
  unfold counted
  split
  · exact List.Sublist.refl _
  · exact dropNullish_sublist

/-- One of `any` and `unknown` by itself is in normal form. -/
theorem normalFormOf_singleton (hinhabited : t.kind ≠ .never) (hranked : isUnranked t.text = false) :
    NormalFormOf strict xs [t] where
  distinct := List.nodup_singleton _
  alone u hu _ := by rw [List.mem_singleton.1 hu]
  inhabited := List.forall_mem_singleton.2 hinhabited
  ranked := List.pairwise_singleton _ _
  others := by simp [hranked]
  nullish _ h := by simpa using h

/-- **The normal form is in normal form.** -/
theorem normalFormOf_normalize (strict : Bool) (xs : List ResolvedType) :
    NormalFormOf strict xs (normalize strict xs) := by
  by_cases hany : ∃ t ∈ xs, t.kind = .any
  · rw [normalize_of_any hany]
    exact normalFormOf_singleton (by decide) (by decide)
  by_cases hunknown : ∃ t ∈ xs, t.kind = .unknown
  · rw [normalize_of_unknown hany hunknown]
    exact normalFormOf_singleton (by decide) (by decide)
  rw [normalize_of_plain hany hunknown]
  have hperm := intrinsicsFirst_perm (counted strict xs)
  have hmem : ∀ t ∈ intrinsicsFirst (counted strict xs), t ∈ xs ∧ t.kind ≠ .never := by
    intro t ht
    obtain ⟨hxs, hkind, -⟩ := of_mem_dropRepeats (counted_sublist.subset (hperm.subset ht))
    exact ⟨hxs, hkind⟩
  constructor
  · have hnodup : ((counted strict xs).map (·.text)).Nodup := List.pairwise_map.2 pairwise_counted
    exact (hperm.map _).nodup_iff.2 hnodup
  · rintro t ht (hkind | hkind)
    · exact absurd ⟨t, (hmem t ht).1, hkind⟩ hany
    · exact absurd ⟨t, (hmem t ht).1, hkind⟩ hunknown
  · exact fun t ht => (hmem t ht).2
  · exact List.pairwise_map.2 (pairwise_rank_intrinsicsFirst _)
  · have hfirst : firstTexts xs = (dropRepeats [] xs).map (·.text) := by
      rw [map_text_dropRepeats, firstTexts]
      simp
    have hother : (intrinsicsFirst (counted strict xs)).filter (isUnranked ·.text) =
        (counted strict xs).filter (isUnranked ·.text) := (sameSlots_intrinsicsFirst _).other
    rw [hfirst, List.filter_map]
    refine List.Sublist.map _ ?_
    exact hother ▸ List.filter_sublist.trans counted_sublist
  · rintro rfl ⟨t, ht, hnullish⟩ u hu
    have ht' := (mem_counted_iff.1 (hperm.subset ht)).2
    have hall : ∀ u ∈ dropRepeats [] xs, isNullish u = true :=
      (ht'.resolve_left (by decide)).resolve_left (by simp [hnullish])
    exact hall u (counted_sublist.subset (hperm.subset hu))

/-! ## Repeats -/

/-- Texts that came before are dropped. -/
theorem dropRepeats_append_of_forall {ys zs : List ResolvedType}
    (h : ∀ t ∈ ys, t.kind = .never ∨ t.text ∈ seen) :
    dropRepeats seen (ys ++ zs) = dropRepeats seen zs := by
  induction ys with
  | nil => rfl
  | cons u ys ih =>
    obtain ⟨hu, hys⟩ := List.forall_mem_cons.1 h
    rw [List.cons_append, dropRepeats, if_pos hu, ih hys]

/-- So are those that came in a list before them. -/
theorem dropRepeats_append_of_subset {ys zs : List ResolvedType}
    (h : ∀ t ∈ ys, t ∈ xs ∨ t.kind = .never ∨ t.text ∈ seen) :
    dropRepeats seen (xs ++ ys ++ zs) = dropRepeats seen (xs ++ zs) := by
  induction xs generalizing seen with
  | nil => exact dropRepeats_append_of_forall fun t ht => (h t ht).resolve_left List.not_mem_nil
  | cons u xs ih =>
    simp only [List.cons_append, dropRepeats]
    split
    · next hu =>
      refine ih fun t ht => (h t ht).elim (fun hmem => ?_) .inr
      exact (List.mem_cons.1 hmem).elim (fun heq => .inr (heq ▸ hu)) .inl
    · refine congrArg _ (ih fun t ht => (h t ht).elim (fun hmem => ?_) fun hdropped => ?_)
      · refine (List.mem_cons.1 hmem).elim (fun heq => .inr (.inr ?_)) .inl
        exact heq ▸ List.mem_cons_self
      · exact .inr (hdropped.imp_right (List.mem_cons_of_mem _))

/-- **Constituents that came before** change no normal form. -/
theorem normalize_append_of_subset {ys zs : List ResolvedType} (h : ys ⊆ xs) :
    normalize strict (xs ++ ys ++ zs) = normalize strict (xs ++ zs) := by
  have hany : ∀ p : ResolvedType → Bool, (xs ++ ys ++ zs).any p = (xs ++ zs).any p := by
    intro p
    rw [Bool.eq_iff_iff, List.any_eq_true, List.any_eq_true]
    simp only [List.mem_append]
    exact exists_congr fun t => and_congr_left fun _ =>
      ⟨fun ht => ht.imp_left (Or.rec id (h ·)), fun ht => ht.imp_left .inl⟩
  have hdrop : dropRepeats [] (xs ++ ys ++ zs) = dropRepeats [] (xs ++ zs) :=
    dropRepeats_append_of_subset fun t ht => .inl (h ht)
  rw [normalize, normalize, hany, hany, hdrop]

/-! ## Constituents of a source text -/

theorem tellsNullish_of_readable {text : String} {kind : TypeKind}
    (hkind : isNullish (.plain text kind) = false)
    (h : (Token.scan? text.toList).bind typeOfTokens? = none) :
    TellsNullish (.plain text kind) := by
  have hnull : text ≠ "null" := by rintro rfl; exact absurd h (by decide +kernel)
  have hundefined : text ≠ "undefined" := by rintro rfl; exact absurd h (by decide +kernel)
  rw [TellsNullish, hkind]
  simp [isNullishText, ResolvedType.text, hnull, hundefined]

/-- **A qualified name** is neither `null` nor `undefined`. -/
theorem tellsNullish_qualified (s : Scope) (name module arguments : String) {kind : TypeKind}
    (hkind : kind ∈ ownKinds) :
    TellsNullish (.plain (s.qualify name module ++ arguments) kind) := by
  have hall : ∀ kind ∈ ownKinds, (kind == .null || kind == .undefined) = false := by decide
  exact tellsNullish_of_mem (c := 'm') (by simp [ResolvedType.text, Scope.qualify]) (by decide)
    (hall kind hkind)

/-- A name the file does not declare is qualified or left as it is. -/
theorem foreignName_cases (s : Scope) (name : String) :
    (∃ rest module, s.foreignName name = s.qualify rest module) ∨ s.foreignName name = name := by
  unfold Scope.foreignName
  dsimp only
  split
  · exact .inl ⟨_, _, rfl⟩
  · split
    · exact .inl ⟨_, _, rfl⟩
    · exact .inr rfl

/-- **In a source text every constituent tells** whether it is `null` or `undefined`. -/
def nullishInvariant {s : Scope} (hs : s.contents.Formed) : Invariant s where
  Node := TypeNode.Formed
  Word _ := True
  Name _ := True
  Shown := TellsNullish
  ElementText _ := True
  ParameterText _ := True
  MemberText _ := True
  node_part hnode hpart := (TypeNode.formed_iff.1 hnode).2 _ hpart
  node_word _ _ := trivial
  node_name _ := trivial
  node_member hnode hm := TypeNode.formed_object_iff.2
    (List.forall_mem_singleton.2 (TypeNode.formed_object_iff.1 hnode _ hm))
  node_types := hs.types
  node_members _ hd := TypeNode.formed_object_iff.2 (hs.of_interface hd).2.2
  node_values := formed_values
  name_alias _ _ := trivial
  intrinsic := by decide
  literal hnode := tellsNullish_literal (TypeNode.formed_iff.1 hnode).1.isWritten_literal
  key name := tellsNullish_literal (p := (.string, name)) trivial
  raw hnode := tellsNullish_of_readable rfl (TypeNode.formed_iff.1 hnode).1
  query _ := tellsNullish_of_mem (c := 't') (by simp [ResolvedType.text]) (by decide) rfl
  unique := by decide
  own {name kind} _ hkind := by
    rw [← String.append_empty (s := s.ownName name)]
    exact tellsNullish_qualified s _ _ _ hkind
  named _ _ hkind := tellsNullish_qualified s _ _ _ (by revert hkind; decide +revert)
  foreign {name nodes arguments} _ hplain _ := by
    obtain ⟨rest, module, heq⟩ | heq := foreignName_cases s name
    · rw [heq]
      exact tellsNullish_qualified s _ _ _ (by decide)
    · rw [heq, ← @foreignType_of_ne_singleton _ _ [] nofun]
      exact tellsNullish_foreignType hplain
  imported _ _ := tellsNullish_qualified s _ _ _ (by decide)
  single := tellsNullish_single
  array _ := tellsNullish_array _
  readonlyArray _ := tellsNullish_of_mem (c := ']')
    (by simp [ResolvedType.readonlyArray, ResolvedType.text]) (by decide) rfl
  readonly := tellsNullish_readonlyType
  keyof _ := tellsNullish_of_mem (c := 'k') (by simp [ResolvedType.text]) (by decide) rfl
  indexed _ _ _ := tellsNullish_of_mem (c := '[') (by simp [ResolvedType.text]) (by decide) rfl
  intersection {members types} hnode hlength _ := by
    have hmany : 2 ≤ types.length := hlength ▸ (TypeNode.formed_iff.1 hnode).1
    match types, hmany with
    | _ :: _ :: _, _ =>
      exact tellsNullish_of_mem (c := '&')
        (mem_toList_intercalate_separator (by decide)) (by decide) rfl
  tuple _ := tellsNullish_of_mem (c := '[') (by simp [ResolvedType.text]) (by decide) rfl
  function _ _ := tellsNullish_of_mem (c := '=') (by simp [ResolvedType.text]) (by decide) rfl
  object _ := tellsNullish_bodyText _
  element _ := trivial
  namedElement _ _ _ := trivial
  restElement _ := trivial
  parameter _ _ _ _ := trivial
  index _ _ _ _ := trivial
  method _ _ _ _ := trivial
  property _ _ _ _ := trivial

theorem binds_parameterEnv {s : Scope} (hs : s.contents.Formed) {parameters : List TypeParameter}
    (hnames : ∀ p ∈ parameters, isNullishText p.name = false) :
    (nullishInvariant hs).Binds (parameterEnv parameters) :=
  Invariant.binds_parameterEnv fun p hp => (hnames p hp).symm

/-! ## Unions -/

section Unions

variable {s : Scope} {env : Env} {nodes before after : List TypeNode}

/-- The constituents of several types are, for a union, those of their descriptions. -/
theorem describe_union_aux (hs : s.contents.Formed) (henv : (nullishInvariant hs).Binds env)
    (hnodes : ∀ node ∈ nodes, node.Formed) :
    (∃ xs lists, collectAll s s.steps [] env nodes = .ok xs ∧
        nodes.mapM (s.describe env) = .ok lists ∧ Alike s.strictNullChecks lists.flatten xs) ∨
      collectAll s s.steps [] env nodes = .error .endless ∧
        nodes.mapM (s.describe env) = .error .endless := by
  induction nodes with
  | nil =>
    refine .inl ⟨[], [], by rw [collectAll], rfl, ?_⟩
    exact .refl (List.forall_mem_nil _)
  | cons node nodes ih =>
    obtain ⟨hnode, hnodes⟩ := List.forall_mem_cons.1 hnodes
    rw [collectAll, List.mapM_cons, Scope.describe]
    cases hfirst : collect s s.steps [] env node with
    | error e => cases e; exact .inr ⟨rfl, rfl⟩
    | ok types =>
      have htells : ∀ t ∈ types, TellsNullish t :=
        Invariant.shown_collect (I := nullishInvariant hs) Invariant.keeps_steps hnode henv hfirst
      obtain ⟨xs, lists, hxs, hlists, halike⟩ | ⟨hxs, hlists⟩ := ih hnodes
      · rw [hxs, hlists]
        exact .inl ⟨types ++ xs, s.normalForm types :: lists, rfl, rfl,
          (alike_normalize htells).append halike⟩
      · rw [hxs, hlists]
        exact .inr ⟨rfl, rfl⟩

/-- **A union is described by what its members are described by.** -/
theorem describe_union (hs : s.contents.Formed) (henv : (nullishInvariant hs).Binds env)
    (hnodes : ∀ node ∈ nodes, node.Formed) :
    s.describe env (.union nodes) =
      (fun lists => s.normalForm lists.flatten) <$> nodes.mapM (s.describe env) := by
  rw [Scope.describe, collect]
  obtain ⟨xs, lists, hxs, hlists, halike⟩ | ⟨hxs, hlists⟩ := describe_union_aux hs henv hnodes
  · rw [hxs, hlists]
    exact congrArg Except.ok halike.normalize_eq.symm
  · rw [hxs, hlists]
    rfl

/-- Unions of members with constituents in common order are described alike. -/
theorem describe_union_congr {nodes' : List TypeNode}
    (h : collectAll s s.steps [] env nodes = collectAll s s.steps [] env nodes') :
    s.describe env (.union nodes) = s.describe env (.union nodes') := by
  rw [Scope.describe, Scope.describe, collect, collect, h]

theorem collectAll_append : collectAll s s.steps [] env (before ++ after) = do
    let xs ← collectAll s s.steps [] env before
    let ys ← collectAll s s.steps [] env after
    return xs ++ ys := by
  induction before with
  | nil =>
    rw [collectAll, List.nil_append]
    cases collectAll s s.steps [] env after <;> rfl
  | cons node before ih =>
    rw [List.cons_append, collectAll, collectAll, ih]
    cases collect s s.steps [] env node with
    | error e => rfl
    | ok types =>
      cases collectAll s s.steps [] env before with
      | error e => rfl
      | ok xs =>
        cases collectAll s s.steps [] env after with
        | error e => rfl
        | ok ys => exact congrArg Except.ok (List.append_assoc types xs ys).symm

/-- **How a union is grouped** makes no difference. -/
theorem describe_union_regroup :
    s.describe env (.union (before ++ .union nodes :: after)) =
      s.describe env (.union (before ++ nodes ++ after)) := by
  refine describe_union_congr ?_
  rw [List.append_assoc, collectAll_append, @collectAll_append s env before,
    @collectAll_append s env nodes, collectAll, collect]

/-- What was collected holds what a member stands for. -/
theorem exists_collect_of_mem {node : TypeNode} {xs : List ResolvedType}
    (h : collectAll s s.steps [] env nodes = .ok xs) (hnode : node ∈ nodes) :
    ∃ types, collect s s.steps [] env node = .ok types ∧ types ⊆ xs := by
  induction nodes generalizing xs with
  | nil => cases hnode
  | cons first nodes ih =>
    rw [collectAll] at h
    obtain ⟨types, hfirst, h⟩ := Resolution.bind_eq_ok.1 h
    obtain ⟨others, hothers, h⟩ := Resolution.bind_eq_ok.1 h
    cases h
    obtain rfl | hnode := List.mem_cons.1 hnode
    · exact ⟨types, hfirst, List.subset_append_left _ _⟩
    · obtain ⟨found, hfound, hsub⟩ := ih hothers hnode
      exact ⟨found, hfound, List.subset_append_of_subset_right _ hsub⟩

/-- **A member that is repeated** makes no difference. -/
theorem describe_union_repeat {node : TypeNode} (hnode : node ∈ before) :
    s.describe env (.union (before ++ node :: after)) = s.describe env (.union (before ++ after)) := by
  rw [Scope.describe, Scope.describe, collect, collect, collectAll_append, collectAll_append,
    collectAll]
  cases hbefore : collectAll s s.steps [] env before with
  | error e => rfl
  | ok xs =>
    obtain ⟨types, htypes, hsub⟩ := exists_collect_of_mem hbefore hnode
    rw [htypes]
    cases collectAll s s.steps [] env after with
    | error e => rfl
    | ok ys =>
      refine congrArg Except.ok ?_
      rw [← List.append_assoc]
      exact normalize_append_of_subset hsub

theorem describe_union_singleton (node : TypeNode) :
    s.describe env (.union [node]) = s.describe env node := by
  rw [Scope.describe, collect, collectAll, collectAll, Scope.describe]
  cases collect s s.steps [] env node with
  | error e => rfl
  | ok types =>
    refine congrArg Except.ok ?_
    rw [List.append_nil]

theorem describe_groupOf (hne : nodes ≠ []) :
    s.describe env (Grammar.groupOf .union nodes) = s.describe env (.union nodes) := by
  match nodes with
  | [] => exact absurd rfl hne
  | [node] => exact (describe_union_singleton node).symm
  | _ :: _ :: _ => rfl

/-- **So do parentheses around some of its members.** -/
theorem describe_unionTokens {left middle right : List (List Token)} {ls ms rs : List TypeNode}
    (hleft : List.Forall₂ (typeOfTokens? · = some ·) left ls)
    (hmiddle : List.Forall₂ (typeOfTokens? · = some ·) middle ms)
    (hright : List.Forall₂ (typeOfTokens? · = some ·) right rs) (hne : middle ≠ []) :
    ∃ t t', typeOfTokens? (Grammar.unionTokens (left ++ Grammar.unionTokens middle :: right)) =
        some t ∧
      typeOfTokens? (Grammar.unionTokens (left ++ middle ++ right)) = some t' ∧
      s.describe env t = s.describe env t' := by
  have hms : ms ≠ [] := by
    rintro rfl
    cases hmiddle
    exact hne rfl
  have hgrouped := Grammar.typeOfTokens?_unionTokens hmiddle hms
  refine ⟨Grammar.groupOf .union (ls ++ Grammar.groupOf .union ms :: rs),
    Grammar.groupOf .union (ls ++ ms ++ rs),
    Grammar.typeOfTokens?_unionTokens (List.rel_append hleft (.cons hgrouped hright)) (by simp),
    Grammar.typeOfTokens?_unionTokens
      (List.rel_append (List.rel_append hleft hmiddle) hright) (by simp [hms]), ?_⟩
  rw [describe_groupOf (by simp), describe_groupOf (by simp [hms])]
  match ms, hms with
  | [node], _ => rw [Grammar.groupOf, List.append_assoc, List.singleton_append]
  | node :: next :: ms, _ => exact describe_union_regroup

end Unions

/-- **Unions are described compositionally.**  In every source text, under the environment of any
declaration with no parameter called `null` or `undefined`: a union is described by the normal form of
the descriptions of its members, every description is in normal form, and neither grouping, nor
repeating a member, nor parentheses make a difference. -/
theorem unions_compose (text modulePath : String) (path : Option Path) (strict : Bool)
    {parameters : List TypeParameter}
    (hnames : ∀ p ∈ parameters, p.name ≠ "null" ∧ p.name ≠ "undefined") :
    let s := Scope.ofFile (readSource text modulePath path strict).value
    let describe := s.describe (parameterEnv parameters)
    (∀ texts : List String,
      let nodes := texts.map (parseType ·.toList)
      describe (.union nodes) =
        (fun lists => normalize strict lists.flatten) <$> nodes.mapM describe) ∧
    (∀ node types, describe node = .ok types →
      ∃ xs, collect s s.steps [] (parameterEnv parameters) node = .ok xs ∧
        types = normalize strict xs ∧ NormalFormOf strict xs types) ∧
    (∀ before nodes after, describe (.union (before ++ .union nodes :: after)) =
      describe (.union (before ++ nodes ++ after))) ∧
    (∀ before node after, node ∈ before →
      describe (.union (before ++ node :: after)) = describe (.union (before ++ after))) ∧
    (∀ node, describe (.union [node]) = describe node) ∧
    (∀ ts t, typeOfTokens? ts = some t → typeOfTokens? (parenthesized ts) = some t) ∧
    ∀ left middle right : List (List Token),
      (∀ ts ∈ left ++ middle ++ right, (typeOfTokens? ts).isSome) → middle ≠ [] →
      ∃ t t', typeOfTokens? (Grammar.unionTokens (left ++ Grammar.unionTokens middle :: right)) =
          some t ∧
        typeOfTokens? (Grammar.unionTokens (left ++ middle ++ right)) = some t' ∧
        describe t = describe t' := by
  intro s describe
  have hs : s.contents.Formed := formed_readContents _ _
  have hnullish : ∀ p ∈ parameters, isNullishText p.name = false := by
    intro p hp
    simp [isNullishText, hnames p hp]
  refine ⟨fun texts => ?_, fun node types h => ?_, fun _ _ _ => describe_union_regroup,
    fun _ _ _ => describe_union_repeat, describe_union_singleton,
    fun _ _ => Grammar.typeOfTokens?_parenthesized, fun left middle right hread hne => ?_⟩
  · exact describe_union hs (binds_parameterEnv hs hnullish)
      (List.forall_mem_map.2 fun text _ => formed_parseType text.toList)
  · obtain ⟨xs, hxs, rfl⟩ := Scope.describe_eq_ok h
    exact ⟨xs, hxs, rfl, normalFormOf_normalize strict xs⟩
  · have hphrases : ∀ phrases : List (List Token), (∀ ts ∈ phrases, (typeOfTokens? ts).isSome) →
        ∃ trees, List.Forall₂ (typeOfTokens? · = some ·) phrases trees := by
      intro phrases h
      induction phrases with
      | nil => exact ⟨[], .nil⟩
      | cons ts phrases ih =>
        obtain ⟨hts, hrest⟩ := List.forall_mem_cons.1 h
        obtain ⟨t, ht⟩ := Option.isSome_iff_exists.1 hts
        obtain ⟨trees, htrees⟩ := ih hrest
        exact ⟨t :: trees, .cons ht htrees⟩
    rw [List.forall_mem_append, List.forall_mem_append] at hread
    obtain ⟨⟨hleft, hmiddle⟩, hright⟩ := hread
    obtain ⟨ls, hls⟩ := hphrases left hleft
    obtain ⟨ms, hms⟩ := hphrases middle hmiddle
    obtain ⟨rs, hrs⟩ := hphrases right hright
    exact describe_unionTokens hls hms hrs hne

theorem unions_compose_nullable :
    let s := Scope.ofFile (readSource "" "/m" none false).value
    let env := parameterEnv [⟨"T", none, none⟩]
    s.describe env (.union (["T | null", "string", "null"].map (parseType ·.toList))) =
      .ok [.plain "string" .string, .plain "T" .typeParameter] := by
  intro s env
  have hread : ["T | null", "string", "null"].map (parseType ·.toList) =
      [.union [.reference "T" [], .reference "null" []], .reference "string" [],
        .reference "null" []] := by decide +kernel
  have hT : collect s s.steps [] env (.reference "T" []) = .ok [.plain "T" .typeParameter] :=
    collect_of_lookup rfl
  have hnull : collect s s.steps [] env (.reference "null" []) = .ok [.plain "null" .null] :=
    collect_of_intrinsic (fun _ => rfl) rfl
  have hstring : collect s s.steps [] env (.reference "string" []) =
      .ok [.plain "string" .string] := collect_of_intrinsic (fun _ => rfl) rfl
  have hunion : collect s s.steps [] env (.union [.reference "T" [], .reference "null" []]) =
      .ok [.plain "T" .typeParameter, .plain "null" .null] := by
    simp only [collect, collectAll, hT, hnull, Resolution.ok_bind]
    rfl
  have hlists : [TypeNode.union [.reference "T" [], .reference "null" []],
      .reference "string" [], .reference "null" []].mapM (s.describe env) =
      .ok [normalize false [.plain "T" .typeParameter, .plain "null" .null],
        normalize false [.plain "string" .string], normalize false [.plain "null" .null]] := by
    simp only [List.mapM_cons, List.mapM_nil, Scope.describe, hunion, hstring, hnull]
    rfl
  have hcompose := (@unions_compose "" "/m" none false [⟨"T", none, none⟩] (by simp)).1
    ["T | null", "string", "null"]
  rw [hread] at hcompose
  rw [hread, hcompose, hlists]
  exact congrArg Except.ok (by decide +kernel)

end FluentBuilders
