import FluentBuilders.Proofs.Builder.Operands
import FluentBuilders.Proofs.Resolve.Used

/-!
# Proofs/Builder/Alternatives — an accepted type keeps its alternatives apart

What a setter takes is a union of what is taken for each constituent.  Composite types stand in angle
brackets there, and primitive ones have no blanks outside literals, so the union can be cut into its
alternatives again (`acceptedType_alternatives`), if the texts that are kept as they are do not hold
a separator themselves.
-/

namespace FluentBuilders

/-! ## What is taken for a constituent -/

/-- **The type that is shown in an accepted type**: the element of an array. -/
def ResolvedType.shown (t : ResolvedType) : ResolvedType := t.element?.getD t

section

variable {quiet : Char → Bool} {x y : String} {emit : EmitConfig} {t : ResolvedType}

/-- **A partial type** has no blanks outside its brackets. -/
theorem closes_partialOf {any : Char → Bool} (hpartial : isAsciiName emit.partialType = true)
    (h : Closes any x) : Closes isNoBlank (partialOf emit x) := by
  have hname : Closes isNoBlank emit.partialType := by
    refine .name (isNameText_of_isAsciiName hpartial) fun c hc => bne_iff_ne.2 ?_
    rintro rfl
    cases hc
  have hangles : Closes isNoBlank (String.ofList ['<'] ++ x ++ String.ofList ['>']) :=
    h.enclosed rfl rfl (by simp [IsInert, Piece.isQuote]) (by simp [IsInert, Piece.isQuote]) rfl
  simpa only [partialOf, String.append_assoc] using hname.append hangles

theorem closes_brackets : Closes isNoBlank "[]" :=
  @Closes.enclosed _ "" isNoBlank '[' ']' ⟨[], fun _ => rfl, .nil _ _⟩ rfl rfl
    (by simp [IsInert, Piece.isQuote]) (by simp [IsInert, Piece.isQuote]) rfl

theorem closes_any (h : t.IsSpelled) (hplain : LooksPlain t.text)
    (hns : isAsciiName emit.namespaceAlias = true) :
    Closes (fun _ => true) (rewriteReferences t.text emit.namespaceAlias) :=
  closes_rewritten h.spelled hplain hns rfl fun _ _ _ _ _ => rfl

/-- **What is taken for a constituent** has no blanks outside brackets and literals, unless it is text
that is kept as it is; then it closes its brackets at least. -/
theorem closes_acceptedConstituent (ht : t.AreSpelled) (hplain : LooksPlain t.shown.text)
    (hns : isAsciiName emit.namespaceAlias = true) (hpartial : isAsciiName emit.partialType = true) :
    Closes isNoBlank (acceptedConstituent emit t) ∨
      t.kind = .raw ∧ Closes (fun _ => true) (acceptedConstituent emit t) := by
  cases t with
  | plain text kind =>
    have hany := @closes_any emit _ ht.1 hplain hns
    rw [acceptedConstituent]
    split
    · next hprimitive =>
      by_cases hraw : kind = .raw
      · exact .inr ⟨hraw, hany⟩
      · exact .inl (closes_rewritten_of_solid (ht.1.solid hprimitive hraw).1 hplain hns)
    · exact .inl (closes_partialOf hpartial hany)
  | arrayOf text element =>
    have helement : element.IsSpelled := ht.2 element rfl
    have hany := @closes_any emit _ helement hplain hns
    refine .inl (Closes.append ?_ closes_brackets)
    split
    · exact closes_partialOf hpartial hany
    next hprimitive =>
    split
    · exact @Closes.enclosed _ _ _ '(' ')' hany rfl rfl (by simp [IsInert, Piece.isQuote])
        (by simp [IsInert, Piece.isQuote]) rfl
    next hblank =>
    by_cases hraw : element.kind = .raw
    · have hnone : ' ' ∉ (rewriteReferences element.text emit.namespaceAlias).toList :=
        fun hmem => hblank ⟨hraw, List.contains_iff_mem.2 hmem⟩
      exact closes_rewritten_of_notMem helement.spelled hplain hns hnone
    · have hsolid := helement.solid (by simpa using hprimitive) hraw
      exact closes_rewritten_of_solid hsolid.1 hplain hns

/-- Only text that is kept as it is can be empty. -/
theorem acceptedConstituent_ne_empty (ht : t.AreSpelled) (hplain : LooksPlain t.shown.text)
    (hns : isAsciiName emit.namespaceAlias = true) (hraw : t.kind ≠ .raw) :
    acceptedConstituent emit t ≠ "" := by
  have happend : ∀ {x y : String}, y ≠ "" → x ++ y ≠ "" := fun hy hempty =>
    hy (String.append_eq_empty_iff.1 hempty).2
  cases t with
  | plain text kind =>
    rw [acceptedConstituent]
    split
    · next hprimitive =>
      obtain ⟨hsolid, hne⟩ := ht.1.solid hprimitive hraw
      exact rewriteReferences_ne_empty hsolid hplain hns hne
    · exact happend (by decide)
  | arrayOf text element => exact happend (by decide)

end

/-! ## Alternatives -/

/-- The texts that stand for accepted types: not `false`, and `boolean` for `true`. -/
def keptTexts (texts : List String) : List String :=
  (texts.filter (· ≠ "false")).map fun text => if text = "true" then "boolean" else text

/-- **The alternatives of an accepted type**: what is taken for each constituent, in order, without
`false`, with `boolean` for `true`, each once, and `boolean` if none is left. -/
def alternatives (emit : EmitConfig) (types : List ResolvedType) : List String :=
  let kept := keptTexts (types.map (acceptedConstituent emit))
  if kept.isEmpty then ["boolean"] else kept.eraseDups

theorem distinctAlternatives_eq (before texts : List String) :
    distinctAlternatives before texts =
      before ++ ((keptTexts texts).filter (!before.contains ·)).eraseDups := by
  induction texts generalizing before with
  | nil => simp [distinctAlternatives, keptTexts]
  | cons text texts ih =>
    rw [distinctAlternatives]
    by_cases hfalse : text = "false"
    · rw [if_pos hfalse, ih]
      simp [keptTexts, hfalse]
    · have hkept : keptTexts (text :: texts) =
          (if text = "true" then "boolean" else text) :: keptTexts texts := by
        simp [keptTexts, hfalse]
      rw [if_neg hfalse, hkept]
      generalize (if text = "true" then "boolean" else text) = shown
      dsimp only
      split
      · next hseen => rw [ih, List.filter_cons_of_neg (by simpa using hseen)]
      · next hnew =>
        rw [ih, List.filter_cons_of_pos (by simpa using hnew), List.eraseDups_cons, List.filter_filter,
          List.append_assoc, List.singleton_append]
        congr 4
        funext x
        simp [List.contains_eq_mem, Bool.and_comm, Bool.beq_eq_decide_eq]

theorem intercalate_ne_empty {x separator : String} {texts : List String} (h : x ≠ "") :
    String.intercalate separator (x :: texts) ≠ "" := by
  intro hempty
  refine h (String.toList_injective ?_)
  cases texts with
  | nil => simpa using congrArg String.toList hempty
  | cons y texts =>
    have hnil := congrArg String.toList hempty
    rw [String.intercalate_cons_cons, String.toList_append, String.toList_append] at hnil
    exact (List.append_eq_nil_iff.1 (List.append_eq_nil_iff.1 hnil).1).1

/-- **An accepted type is its alternatives**, joined by bars. -/
theorem acceptedType_eq {emit : EmitConfig} {types : List ResolvedType} (hne : types ≠ [])
    (htexts : ∀ t ∈ types, acceptedConstituent emit t ≠ "") :
    acceptedType emit types = String.intercalate " | " (alternatives emit types) := by
  have hdistinct : distinctAlternatives [] (types.map (acceptedConstituent emit)) =
      (keptTexts (types.map (acceptedConstituent emit))).eraseDups := by
    rw [distinctAlternatives_eq, List.nil_append]
    simp
  have hkept : ∀ x ∈ keptTexts (types.map (acceptedConstituent emit)), x ≠ "" := by
    intro x hx
    obtain ⟨text, htext, rfl⟩ := List.mem_map.1 hx
    split
    · decide
    · obtain ⟨t, ht, rfl⟩ := List.mem_map.1 (List.mem_filter.1 htext).1
      exact htexts t ht
  rw [acceptedType, if_neg (by simpa using hne), hdistinct, alternatives]
  cases hcases : keptTexts (types.map (acceptedConstituent emit)) with
  | nil => rfl
  | cons x texts =>
    have hx : x ≠ "" := hkept x (by rw [hcases]; exact List.mem_cons_self)
    have hjoined : String.intercalate " | " (x :: texts).eraseDups ≠ "" := by
      rw [List.eraseDups_cons]
      exact intercalate_ne_empty hx
    dsimp only
    rw [if_neg hjoined]
    rfl

/-- What alternatives are: accepted types, and `boolean`. -/
theorem mem_alternatives {emit : EmitConfig} {types : List ResolvedType} {x : String}
    (h : x ∈ alternatives emit types) :
    x = "boolean" ∨ ∃ t ∈ types, acceptedConstituent emit t = x := by
  unfold alternatives at h
  dsimp only at h
  split at h
  · exact .inl (List.mem_singleton.1 h)
  · rw [List.mem_eraseDups] at h
    obtain ⟨text, htext, rfl⟩ := List.mem_map.1 h
    split
    · exact .inl rfl
    · obtain ⟨t, ht, rfl⟩ := List.mem_map.1 (List.mem_filter.1 htext).1
      exact .inr ⟨t, ht, rfl⟩

/-- What captures its neighbours when it stands in a union without brackets. -/
def captures : List String := [" ? ", " extends ", " => "]

theorem closes_boolean : Closes isNoBlank "boolean" :=
  .name (show Token.IsRun _ by decide) fun c hc => bne_iff_ne.2 (by rintro rfl; cases hc)

theorem alternatives_ne_nil (emit : EmitConfig) (types : List ResolvedType) :
    alternatives emit types ≠ [] := by
  rw [alternatives]
  cases keptTexts (types.map (acceptedConstituent emit)) with
  | nil => exact List.cons_ne_nil _ _
  | cons x texts =>
    change (x :: texts).eraseDups ≠ []
    rw [List.eraseDups_cons]
    exact List.cons_ne_nil _ _

/-- **An operand is taken as it is**: it is not empty, and no separator stands in it. -/
theorem ResolvedType.StandsAlone.uncut {emit : EmitConfig} {t : ResolvedType} (h : t.StandsAlone)
    (hkind : t.kind = .raw) (hplain : LooksPlain t.shown.text)
    (hns : isAsciiName emit.namespaceAlias = true) :
    acceptedConstituent emit t ≠ "" ∧
      cutAt " | " (acceptedConstituent emit t ++ " ") = [acceptedConstituent emit t ++ " "] ∧
      ∀ capture ∈ captures,
        cutAt capture (acceptedConstituent emit t) = [acceptedConstituent emit t] := by
  cases t with
  | arrayOf text element => cases hkind
  | plain text kind =>
    obtain rfl : kind = .raw := hkind
    have hoperand : IsOperand text := h.operand rfl
    have hseparators : ∀ capture ∈ captures, ∃ w, capture.toList = ' ' :: (w ++ [' ']) ∧
        isFlat false w = true ∧ w ∉ Segment.operators.map String.toList ∧ ' ' ∉ w := by
      intro capture hcapture
      simp only [captures, List.mem_cons, List.not_mem_nil, or_false] at hcapture
      rcases hcapture with rfl | rfl | rfl
      · exact ⟨['?'], by decide⟩
      · exact ⟨"extends".toList, by decide⟩
      · exact ⟨['=', '>'], by decide⟩
    refine ⟨rewriteReferences_ne_empty h.areSpelled.1.spelled hplain hns (h.nonempty rfl),
      hoperand.cutAt_bar hplain hns, fun capture hcapture => ?_⟩
    obtain ⟨w, hw, hflat, hword, hblank⟩ := hseparators capture hcapture
    exact hoperand.cutAt_eq hplain hns hw hflat hword hblank

/-! ## What a declaration uses -/

/-- **What a name uses is spelled by segments.** -/
structure Scope.TameFrom (s : Scope) (name : String) : Prop where
  modulePath : Segment.IsModuleText s.modulePath
  types : ∀ t, s.contents.UsesType name t → t.Tame s

/-- **A name that uses no text that is kept as it is.** -/
def Contents.Composes (c : Contents) (name : String) : Prop := ∀ t, c.UsesType name t → t.IsComposed

theorem Scope.Tame.tameFrom {s : Scope} (h : s.Tame) (name : String) : s.TameFrom name :=
  ⟨h.modulePath, fun t ht => h.types t ht.mem_types⟩

section

variable {s : Scope} {declarations : List StructuralDeclaration} {d : StructuralDeclaration}

/-- Type parameters that were read are names. -/
theorem isNameText_of_areFormed {parameters : List TypeParameter} (h : AreFormed parameters) :
    ∀ p ∈ parameters, IsNameText p.name := by
  intro p hp
  have hname : IsNameText (String.ofList p.name.toList) := isNameText_of_isNameOver (h.1 p hp)
  rwa [String.ofList_toList] at hname

/-- **The constituents of a declaration's fields are spelled by segments**, if what it uses is; and
they stand alone, if it uses no text that is kept as it is. -/
theorem areSpelled_of_extract (hnames : s.contents.names.Nodup) (hformed : s.contents.Formed)
    (haliases : ∀ d ∈ s.contents.aliases, IsReadName d.name) (h : extract s = .ok declarations)
    (hd : d ∈ declarations) (hs : s.TameFrom d.name) :
    (∀ f ∈ d.fields, ∀ t ∈ f.types, t.AreSpelled) ∧
      (s.contents.Composes d.name → ∀ f ∈ d.fields, ∀ t ∈ f.types, t.StandsAlone) := by
  have hused : (s.withContents (s.contents.usedBy d.name)).Tame :=
    ⟨hs.modulePath, fun t ht => hs.types t (Contents.usesType_of_mem_usedBy hnames ht)⟩
  have hformed' : (s.contents.usedBy d.name).Formed := fun st hst =>
    hformed st (Contents.statements_only _ _ hst)
  have haliases' : ∀ a ∈ (s.contents.usedBy d.name).aliases, IsReadName a.name := fun a ha =>
    haliases a (List.mem_of_mem_filter ha)
  have hparameters : ∀ {parameters : List TypeParameter}, AreFormed parameters →
      ∀ p ∈ parameters, (ResolvedType.plain p.name .typeParameter).StandsAlone := by
    intro parameters hparameters p hp
    have hname := isNameText_of_areFormed hparameters p hp
    exact .of_operand (Spelled.areSpelled (spelled_word hname) (.inl rfl)) (isOperand_word hname) nofun
  constructor
  · exact Invariant.shown_of_usedBy hnames h hd (I := segmentInvariant hused hformed' haliases')
      (fun a ha => Invariant.binds_parameterEnv fun p hp =>
        (hparameters (hformed'.of_alias ha).1 p hp).areSpelled)
      (fun i hi => Invariant.binds_parameterEnv fun p hp =>
        (hparameters (hformed'.of_interface hi).1 p hp).areSpelled)
  · intro hcomposes
    have hcomposed : ∀ t ∈ (s.contents.usedBy d.name).types, t.IsComposed := fun t ht =>
      hcomposes t (Contents.usesType_of_mem_usedBy hnames ht)
    exact Invariant.shown_of_usedBy hnames h hd
      (I := operandInvariant hused hformed' haliases' hcomposed)
      (fun a ha => Invariant.binds_parameterEnv (hparameters (hformed'.of_alias ha).1))
      (fun i hi => Invariant.binds_parameterEnv (hparameters (hformed'.of_interface hi).1))

end

/-! ## Files of one field -/

/-- An interface with one field. -/
def fieldInterface (type : TypeNode) : InterfaceDeclaration where
  name := "A"
  heritage := []
  members := [.property "x" false false (some type)]
  parameters := []
  exported := false
  line := 1

section

variable {s : Scope} {deeper : Deeper} {active : List String} {env : Env} {types : List ResolvedType}
  {node : TypeNode}

/-- What a file with such an interface declares. -/
theorem extract_fieldInterface (hs : s.contents = { interfaces := [fieldInterface node] })
    (htypes : collect s s.steps [] [] node = .ok types) :
    extract s = .ok [⟨"A", .interface, [⟨"x", s.memberForm false types, false, false⟩], false, [],
      [], 1⟩] := by
  have hshape : interfaceShape s s.steps [] ["A"] [] (fieldInterface node) =
      .ok [⟨"x", .property "x" false false (some node), []⟩] := by
    rw [interfaceShape, show (fieldInterface node).heritage = [] from rfl, mergedShapes]
    rfl
  have hfields : fieldsOf s s.steps [⟨"x", .property "x" false false (some node), []⟩] =
      .ok [⟨"x", s.memberForm false types, false, false⟩] := by
    rw [fieldsOf, fieldsOf, fieldOf]
    simp only [memberTypes, htypes, Resolution.ok_bind]
    rfl
  rw [extract, hs]
  simp only [List.mapM_nil, List.mapM_cons, extractInterface,
    show (fieldInterface node).name = "A" from rfl,
    show parameterEnv (fieldInterface node).parameters = [] from rfl, hshape, hfields,
    Resolution.ok_bind]
  rfl

/-- Only the name of a union is shown in its place. -/
theorem resolve_of_nameless (htypes : collect s deeper active env node = .ok types)
    (hname : (single (s.normalForm types)).kind = .union → ∀ name arguments,
      node ≠ .reference name arguments) :
    resolve s deeper active env node = .ok (single (s.normalForm types)) := by
  rw [resolve, htypes, Resolution.ok_bind]
  dsimp only
  split
  · next hunion =>
    rw [aliasText?]
    · rfl
    · exact fun name arguments => hname hunion name arguments
  · rfl

/-- A union is resolved to what its constituents are as one type. -/
theorem resolve_union {members : List TypeNode}
    (htypes : collect s deeper active env (.union members) = .ok types) :
    resolve s deeper active env (.union members) = .ok (single (s.normalForm types)) := by
  refine resolve_of_nameless htypes fun _ name arguments hname => ?_
  cases hname

/-- A type of one constituent is resolved to it. -/
theorem resolve_leaf {t : ResolvedType} (ht : collect s deeper active env node = .ok [t])
    (hform : normalize s.strictNullChecks [t] = [t]) (hkind : t.kind ≠ .union) :
    resolve s deeper active env node = .ok t := by
  have hsingle : single (s.normalForm [t]) = t := by
    rw [Scope.normalForm, hform]
    rfl
  rw [resolve_of_nameless ht fun hunion => absurd (hsingle ▸ hunion) hkind, hsingle]

end

/-- A union lists no properties. -/
theorem shape_steps_union {s : Scope} {members : List TypeNode} :
    s.steps.shape [] [] [] (.union members) = .ok none := by
  have hlimit : nestingLimit = (nestingLimit - 1) + 1 := rfl
  rw [Scope.steps, hlimit, deeperSteps]
  simp only [Descent.enter, List.any_nil, Bool.false_eq_true, if_false]
  rw [shape]
  all_goals simp

/-- No property is looked up in a union. -/
theorem indexedProperty?_union {s : Scope} {members : List TypeNode} {index : TypeNode} :
    indexedProperty? s.steps [] [] (.union members) index = .ok none := by
  unfold indexedProperty?
  split
  · next kind text =>
    split
    · rfl
    · rw [shape_steps_union]
      rfl
  · rfl

/-- A name that the only interface of a file does not declare stands for itself. -/
theorem collect_undeclared {s : Scope} {name : String}
    (hs : s.contents = { interfaces := [fieldInterface node] }) (hname : name ∈ ["Date", "Map"]) :
    collect s s.steps [] [] (.reference name []) = .ok [.plain name .object] := by
  have hforeign : ResolvedType.intrinsics.lookup name = none ∧ s.contents.isForeign name ∧
      foreignType name [] [] = .plain name .object := by
    rw [hs]
    simp only [List.mem_cons, List.not_mem_nil, or_false] at hname
    rcases hname with rfl | rfl <;> exact ⟨rfl, rfl, rfl⟩
  obtain ⟨hintrinsic, hother, htype⟩ := hforeign
  rw [← htype]
  exact collect_of_foreign (fun _ => rfl) hintrinsic hother (by rw [argumentLists])
    (by rw [resolveEach])

/-- A union of a literal that holds a bar, an array, text that is kept as it is, and `true`. -/
def mixedUnion : TypeNode :=
  .union [.literal .string "a | b", .array (.reference "Date" []),
    .indexed (.reference "string" []) (.reference "number" []), .reference "true" []]

theorem collect_mixedUnion {s : Scope} (hs : s.contents = { interfaces := [fieldInterface mixedUnion] })
    (hstrict : s.strictNullChecks = true) :
    collect s s.steps [] [] mixedUnion = .ok [.stringLiteral "a | b",
      .arrayOf "Date[]" (.plain "Date" .object), .plain "string[number]" .raw,
      .plain "true" .literal] := by
  have hdate : collect s s.steps [] [] (.reference "Date" []) = .ok [.plain "Date" .object] :=
    collect_undeclared hs (by decide)
  have hstring : collect s s.steps [] [] (.reference "string" []) = .ok [.plain "string" .string] :=
    collect_of_intrinsic (fun _ => rfl) rfl
  have hnumber : collect s s.steps [] [] (.reference "number" []) = .ok [.plain "number" .number] :=
    collect_of_intrinsic (fun _ => rfl) rfl
  have htrue : collect s s.steps [] [] (.reference "true" []) = .ok [.plain "true" .literal] :=
    collect_of_intrinsic (fun _ => rfl) rfl
  have harray : collect s s.steps [] [] (.array (.reference "Date" [])) =
      .ok [.arrayOf "Date[]" (.plain "Date" .object)] := by
    rw [collect, resolve_leaf hdate (by rw [hstrict]; decide +kernel) (by decide)]
    exact congrArg Except.ok (by decide +kernel)
  have hindexed : collect s s.steps [] [] (.indexed (.reference "string" []) (.reference "number" [])) =
      .ok [.plain "string[number]" .raw] := by
    rw [collect, resolve_leaf hstring (by rw [hstrict]; decide +kernel) (by decide),
      resolve_leaf hnumber (by rw [hstrict]; decide +kernel) (by decide)]
    exact congrArg Except.ok (by decide +kernel)
  rw [mixedUnion, collect]
  simp only [collectAll, collect_literal, harray, hindexed, htrue]
  rfl

/-- The keys of a union, what a value is of, and `string`. -/
def composedUnion : TypeNode :=
  .union [.operator .keyof (.union [.reference "Date" [], .reference "Map" []]), .query "a.b",
    .reference "string" []]

theorem collect_composedUnion {s : Scope}
    (hs : s.contents = { interfaces := [fieldInterface composedUnion] })
    (hstrict : s.strictNullChecks = true) :
    collect s s.steps [] [] composedUnion = .ok [.plain "keyof (Date | Map)" .raw,
      .plain "typeof a.b" .raw, .plain "string" .string] := by
  have hstring : collect s s.steps [] [] (.reference "string" []) = .ok [.plain "string" .string] :=
    collect_of_intrinsic (fun _ => rfl) rfl
  have hunion : collect s s.steps [] [] (.union [.reference "Date" [], .reference "Map" []]) =
      .ok [.plain "Date" .object, .plain "Map" .object] := by
    rw [collect]
    simp only [collectAll, collect_undeclared hs (show "Date" ∈ ["Date", "Map"] by decide),
      collect_undeclared hs (show "Map" ∈ ["Date", "Map"] by decide)]
    rfl
  have hresolve : resolve s s.steps [] [] (.union [.reference "Date" [], .reference "Map" []]) =
      .ok (.plain "Date | Map" .union) := by
    have hform : s.normalForm [.plain "Date" .object, .plain "Map" .object] =
        [.plain "Date" .object, .plain "Map" .object] := by
      rw [Scope.normalForm, hstrict]
      decide +kernel
    rw [resolve_union hunion, hform]
    exact congrArg Except.ok (by decide +kernel)
  have hkeyof : collect s s.steps [] []
      (.operator .keyof (.union [.reference "Date" [], .reference "Map" []])) =
        .ok [.plain "keyof (Date | Map)" .raw] := by
    rw [collect, shape_steps_union]
    simp only [Resolution.ok_bind, hresolve]
    exact congrArg Except.ok (by decide +kernel)
  have hquery : collect s s.steps [] [] (.query "a.b") = .ok [.plain "typeof a.b" .raw] := by
    rw [collect]
    exact congrArg Except.ok (by decide +kernel)
  rw [composedUnion, collect]
  simp only [collectAll, hkeyof, hquery, hstring]
  rfl

/-! ## Accepted types of a file -/

/-- **An accepted type keeps its alternatives apart**, if no literal of its constituents looks like a
qualifier.  Cut at the bars, it gives the alternatives back; and when there are several, none of them
holds what captures its neighbours.  Text that is kept as it is may hold both: so the declaration uses
no such text, or the constituents that are text hold no bar, or no capture, outside brackets and
literals. -/
theorem acceptedType_alternatives (source modulePath : String) (path : Option Path) (strict : Bool)
    {emit : EmitConfig} (hns : isAsciiName emit.namespaceAlias = true)
    (hpartial : isAsciiName emit.partialType = true) :
    let s := Scope.ofFile (readSource source modulePath path strict).value
    ∀ {declarations : List StructuralDeclaration}, extract s = .ok declarations →
      ∀ d ∈ declarations, s.TameFrom d.name → ∀ f ∈ d.fields, f.types ≠ [] →
        (∀ t ∈ f.types, LooksPlain t.shown.text) →
        (s.contents.Composes d.name ∨ ∀ t ∈ f.types, t.kind = .raw →
          acceptedConstituent emit t ≠ "" ∧
            cutAt " | " (acceptedConstituent emit t ++ " ") = [acceptedConstituent emit t ++ " "]) →
        cutAt " | " (acceptedType emit f.types) = alternatives emit f.types ∧
          ((s.contents.Composes d.name ∨ ∀ t ∈ f.types, t.kind = .raw → ∀ capture ∈ captures,
              cutAt capture (acceptedConstituent emit t) = [acceptedConstituent emit t]) →
            ∀ x ∈ alternatives emit f.types, ∀ capture ∈ captures, cutAt capture x = [x]) := by
  intro s declarations hextract d hd hs f hf hne hplain hraw
  obtain ⟨hspelled, halone⟩ := areSpelled_of_extract
    (nodup_names_readSource source modulePath path strict) (formed_readContents _ _)
    isReadName_of_mem_aliases hextract hd hs
  -- what the resolver writes itself is an operand
  have huncut : s.contents.Composes d.name → ∀ t ∈ f.types, t.kind = .raw → _ :=
    fun hcomposes t ht hkind => (halone hcomposes f hf t ht).uncut hkind (hplain t ht) hns
  have hcloses : ∀ t ∈ f.types, Closes isNoBlank (acceptedConstituent emit t) ∨
      t.kind = .raw ∧ Closes (fun _ => true) (acceptedConstituent emit t) := fun t ht =>
    closes_acceptedConstituent (hspelled f hf t ht) (hplain t ht) hns hpartial
  have hbars : ∀ t ∈ f.types, t.kind = .raw → acceptedConstituent emit t ≠ "" ∧
      cutAt " | " (acceptedConstituent emit t ++ " ") = [acceptedConstituent emit t ++ " "] :=
    hraw.elim (fun hcomposes t ht hkind =>
      ⟨(huncut hcomposes t ht hkind).1, (huncut hcomposes t ht hkind).2.1⟩) id
  have htexts : ∀ t ∈ f.types, acceptedConstituent emit t ≠ "" := by
    intro t ht
    by_cases hkind : t.kind = .raw
    · exact (hbars t ht hkind).1
    · exact acceptedConstituent_ne_empty (hspelled f hf t ht) (hplain t ht) hns hkind
  constructor
  · rw [acceptedType_eq hne htexts]
    refine cutAt_intercalate (alternatives_ne_nil emit f.types) fun x hx => ?_
    rcases mem_alternatives hx with rfl | ⟨t, ht, rfl⟩
    · exact closes_boolean.staysWhole
    · rcases hcloses t ht with hquiet | ⟨hkind, hany⟩
      · exact hquiet.staysWhole
      · exact hany.staysWhole_of_uncut (hbars t ht hkind).2
  · intro hcaptures x hx capture hcapture
    have hblank : ∃ cs, capture.toList = ' ' :: cs := by
      have hall : ∀ capture ∈ captures, capture.toList.head? = some ' ' := by decide
      exact List.head?_eq_some_iff.1 (hall capture hcapture)
    obtain ⟨cs, hcs⟩ := hblank
    rcases mem_alternatives hx with rfl | ⟨t, ht, rfl⟩
    · exact closes_boolean.cutAt_eq hcs
    · rcases hcloses t ht with hquiet | ⟨hkind, -⟩
      · exact hquiet.cutAt_eq hcs
      · exact hcaptures.elim (fun hcomposes => (huncut hcomposes t ht hkind).2.2 capture hcapture)
          fun hcaptures => hcaptures t ht hkind capture hcapture

theorem acceptedType_alternatives_mixed :
    (let text := "interface A \x7b x: 'a | b' | Date[] | string[number] | true \x7d"
      let s := Scope.ofFile (readSource text "/m" none true).value
      ∃ field : Field, extract s = .ok [⟨"A", .interface, [field], false, [], [], 1⟩] ∧
        cutAt " | " (acceptedType {} field.types) =
          ["boolean", "\"a | b\"", "DeepPartial<Date>[]", "string[number]"] ∧
        ∀ x ∈ alternatives {} field.types, ∀ capture ∈ captures, cutAt capture x = [x]) ∧
    (let text := "interface A \x7b x: keyof (Date | Map) | typeof a.b | string \x7d"
      let s := Scope.ofFile (readSource text "/m" none true).value
      ∃ field : Field, extract s = .ok [⟨"A", .interface, [field], false, [], [], 1⟩] ∧
        cutAt " | " (acceptedType {} field.types) =
          ["string", "keyof (Date | Map)", "typeof a.b"] ∧
        ∀ x ∈ alternatives {} field.types, ∀ capture ∈ captures, cutAt capture x = [x]) := by
  constructor
  · intro text s
    have hcontents : s.contents = { interfaces := [fieldInterface mixedUnion] } := by decide +kernel
    have hextract := extract_fieldInterface hcontents (collect_mixedUnion hcontents rfl)
    have htame : s.Tame := Scope.tame_of_modules (by rw [hcontents]; decide) (List.Subset.refl _)
      (by rw [Scope.modules, hcontents]; decide +kernel)
    have htypes : s.memberForm false [.stringLiteral "a | b",
        .arrayOf "Date[]" (.plain "Date" .object), .plain "string[number]" .raw,
        .plain "true" .literal] = [.plain "true" .literal, .plain "\"a | b\"" .literal,
        .arrayOf "Date[]" (.plain "Date" .object), .plain "string[number]" .raw] := by
      rw [Scope.memberForm, Scope.normalForm, show s.strictNullChecks = true from rfl]
      decide +kernel
    rw [htypes] at hextract
    refine ⟨_, hextract, ?_⟩
    obtain ⟨hcut, hcaptures⟩ := @acceptedType_alternatives text "/m" none true {} rfl rfl _ hextract _
      (List.mem_singleton_self _) (htame.tameFrom _) _ (List.mem_singleton_self _) (by decide)
      (by decide +kernel) (.inr (by decide +kernel))
    exact ⟨hcut.trans (by decide +kernel), hcaptures (.inr (by decide +kernel))⟩
  · intro text s
    have hcontents : s.contents = { interfaces := [fieldInterface composedUnion] } := by
      decide +kernel
    have hextract := extract_fieldInterface hcontents (collect_composedUnion hcontents rfl)
    have htame : s.Tame := Scope.tame_of_modules (by rw [hcontents]; decide) (List.Subset.refl _)
      (by rw [Scope.modules, hcontents]; decide +kernel)
    have hcomposed : ∀ t ∈ s.contents.types, ∀ u ∈ t.subterms,
        u.isRaw = false ∧ u.isIndexed = false := by
      rw [hcontents]
      decide
    have hcomposes : s.contents.Composes "A" := fun t ht => hcomposed t ht.mem_types
    have htypes : s.memberForm false [.plain "keyof (Date | Map)" .raw, .plain "typeof a.b" .raw,
        .plain "string" .string] = [.plain "string" .string, .plain "keyof (Date | Map)" .raw,
        .plain "typeof a.b" .raw] := by
      rw [Scope.memberForm, Scope.normalForm, show s.strictNullChecks = true from rfl]
      decide +kernel
    rw [htypes] at hextract
    refine ⟨_, hextract, ?_⟩
    obtain ⟨hcut, hcaptures⟩ := @acceptedType_alternatives text "/m" none true {} rfl rfl _ hextract _
      (List.mem_singleton_self _) (htame.tameFrom _) _ (List.mem_singleton_self _) (by decide)
      (by decide +kernel) (.inl hcomposes)
    exact ⟨hcut.trans (by decide +kernel), hcaptures (.inl hcomposes)⟩

/-- **A union whose property is looked up stands without parentheses**, so that its bar is taken for
one of the accepted type. -/
theorem acceptedType_not_alternatives_indexed :
    let text := "interface A \x7b x: (string | string[])['length'] \x7d"
    let s := Scope.ofFile (readSource text "/m" none true).value
    let type : ResolvedType := .plain "string | string[][\"length\"]" .raw
    s.Tame ∧
      extract s = .ok [⟨"A", .interface, [⟨"x", [type], false, false⟩], false, [], [], 1⟩] ∧
      LooksPlain type.text ∧ alternatives {} [type] = ["string | string[][\"length\"]"] ∧
      cutAt " | " (acceptedType {} [type]) = ["string", "string[][\"length\"]"] := by
  intro text s type
  let operand : TypeNode := .union [.reference "string" [], .array (.reference "string" [])]
  let node : TypeNode := .indexed operand (.literal .string "length")
  have hcontents : s.contents = { interfaces := [fieldInterface node] } := by decide +kernel
  have hstrict : s.strictNullChecks = true := rfl
  have htame : s.Tame := Scope.tame_of_modules (by rw [hcontents]; decide) (List.Subset.refl _)
    (by rw [Scope.modules, hcontents]; decide +kernel)
  have hstring : collect s s.steps [] [] (.reference "string" []) = .ok [.plain "string" .string] :=
    collect_of_intrinsic (fun _ => rfl) rfl
  have hunion : collect s s.steps [] [] operand =
      .ok [.plain "string" .string, .arrayOf "string[]" (.plain "string" .string)] := by
    have harray : collect s s.steps [] [] (.array (.reference "string" [])) =
        .ok [.arrayOf "string[]" (.plain "string" .string)] := by
      rw [collect, resolve_leaf hstring (by rw [hstrict]; decide +kernel) (by decide)]
      exact congrArg Except.ok (by decide +kernel)
    rw [collect]
    simp only [collectAll, hstring, harray]
    rfl
  have hresolve : resolve s s.steps [] [] operand = .ok (.plain "string | string[]" .union) := by
    have hform : s.normalForm [.plain "string" .string, .arrayOf "string[]" (.plain "string" .string)] =
        [.plain "string" .string, .arrayOf "string[]" (.plain "string" .string)] := by
      rw [Scope.normalForm, hstrict]
      decide +kernel
    rw [resolve_union hunion, hform]
    exact congrArg Except.ok (by decide +kernel)
  have hlength : resolve s s.steps [] [] (.literal .string "length") =
      .ok (.stringLiteral "length") :=
    resolve_leaf collect_literal (by rw [hstrict]; decide +kernel) (by decide)
  have hnode : collect s s.steps [] [] node = .ok [type] := by
    rw [collect, indexedProperty?_union]
    simp only [Resolution.ok_bind, hresolve, hlength]
    exact congrArg Except.ok (by decide +kernel)
  refine ⟨htame, ?_, by decide +kernel, by decide +kernel, by decide +kernel⟩
  have htypes : s.memberForm false [type] = [type] := by
    rw [Scope.memberForm, Scope.normalForm, hstrict]
    decide +kernel
  rw [extract_fieldInterface hcontents hnode, htypes]

end FluentBuilders
