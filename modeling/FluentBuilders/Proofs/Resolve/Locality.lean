import FluentBuilders.Builder.Synthesis
import FluentBuilders.Proofs.Resolve.Dependence
import FluentBuilders.Proofs.Resolve.Leaves
import FluentBuilders.Proofs.Resolve.Termination
import FluentBuilders.Proofs.Source.Names
import Mathlib.Logic.Relation

/-!
# Proofs/Resolve/Locality — the result for a declaration depends only on what it refers to

A name **uses** the names its declaration refers to, and theirs, and so on; `boolean` uses the names
of its two values, under which a file can declare something, too.  Where two files declare the same
under all that a name uses, the declaration of the name has the same result in both, line aside —
whatever else the files declare, and in whatever order.
-/

namespace FluentBuilders

/-! ## Use -/

namespace Contents

/-- **A name mentions another** in its declaration. -/
def Mentions (c : Contents) (name other : String) : Prop :=
  ∃ d, c.find? name = some d ∧ other ∈ d.references

/-- **A name uses another**: it refers to it, or it is `boolean` and the other one of its values. -/
def Uses (c : Contents) (name other : String) : Prop :=
  c.Mentions name other ∨ name = "boolean" ∧ (other = "false" ∨ other = "true")

/-- Files with the same imports that declare the same under all that a name uses agree on it. -/
theorem agree_of_uses {c c' : Contents} {name : String} (himports : c'.imports = c.imports)
    (hsame : ∀ n, Relation.ReflTransGen c.Uses name n →
      (c'.find? n).map Declaration.unplaced = (c.find? n).map Declaration.unplaced) :
    c.Agree c' (Relation.ReflTransGen c.Uses name) :=
  ⟨himports, hsame, fun _ d hn hfound _ hm => hn.tail (.inl ⟨d, hfound, hm⟩)⟩

/-- What a name uses are names that its declaration, and theirs, keep to. -/
theorem mem_of_uses {c : Contents} {names : List String} {name n : String}
    (hclosed : ∀ n ∈ names, ∀ d ∈ c.find? n, ∀ m ∈ d.references, m ∈ names)
    (hboolean : "boolean" ∉ names) (hname : name ∈ names)
    (h : Relation.ReflTransGen c.Uses name n) : n ∈ names := by
  induction h with
  | refl => exact hname
  | tail _ hstep ih =>
    rcases hstep with ⟨d, hfound, hm⟩ | ⟨rfl, -⟩
    · exact hclosed _ ih d hfound _ hm
    · exact absurd ih hboolean

end Contents

/-- A structural declaration wherever it stands: its line is left out. -/
def StructuralDeclaration.unplaced (d : StructuralDeclaration) : StructuralDeclaration :=
  { d with line := 0 }

/-- **The result for the declaration of a name**; enums and names that nothing declares have none. -/
def Scope.extracted (s : Scope) (name : String) : Resolution (Option StructuralDeclaration) :=
  match s.contents.find? name with
  | some (.alias d) => some <$> extractAlias s d
  | some (.interface d) => some <$> extractInterface s d
  | _ => .ok none

/-! ## Results that agree -/

variable {s : Scope} {c : Contents} {P : String → Prop}

/-- The types that a closed kind of names leads to, the values of `boolean` with it. -/
theorem unionParts_refersTo (h : s.contents.Agree c P)
    (hboolean : P "boolean" → P "false" ∧ P "true") {deeper : Deeper} {seen : List String}
    {env : Env} {node : TypeNode} {parts : List (TypeNode × Env)} (hnode : node.RefersTo P)
    (hparts : unionParts s deeper seen env node = .ok parts) : ∀ p ∈ parts, p.1.RefersTo P := by
  refine unionParts_keeps (closed_refersTo h) (fun text => List.forall_mem_nil _) ?_ hnode hparts
  intro arguments harguments
  obtain ⟨hfalse, htrue⟩ := hboolean harguments.names.1
  exact ⟨List.forall_mem_cons.2 ⟨hfalse, List.forall_mem_singleton.2 hfalse⟩,
    List.forall_mem_cons.2 ⟨htrue, List.forall_mem_singleton.2 htrue⟩⟩

theorem within_commonShape {Q : TypeNode → Prop} {shapes : List (Option (List Property))}
    (h : ∀ properties, some properties ∈ shapes → Within Q properties) :
    Within Q (commonShape shapes) := by
  unfold commonShape
  split
  · exact List.forall_mem_nil _
  split
  · next first others _ =>
    exact fun p hp => h first List.mem_cons_self p (List.mem_of_mem_filter hp)
  · exact List.forall_mem_nil _

theorem within_partShapes {Q : TypeNode → Prop} {deeper : Deeper} (hc : s.Closed Q)
    (hk : deeper.Keeps Q) {seen : List String} {parts : List (TypeNode × Env)}
    {shapes : List (Option (List Property))} (hparts : ∀ p ∈ parts, Q p.1)
    (h : partShapes s deeper seen parts = .ok shapes) :
    ∀ properties, some properties ∈ shapes → Within Q properties := by
  intro properties hmem
  obtain ⟨p, hp, hshape⟩ := exists_of_mem_partShapes h hmem
  exact shape_within hc hk (hparts p hp) hshape

/-- **The properties of an alias** are the same in files that agree, and have types of the kind. -/
theorem aliasProperties_agree (h : s.contents.Agree c P)
    (hboolean : P "boolean" → P "false" ∧ P "true") {d : AliasDeclaration} (hd : d.body.RefersTo P) :
    aliasProperties (s.withContents c) (s.withContents c).steps d = aliasProperties s s.steps d ∧
      ∀ listed, aliasProperties s s.steps d = .ok listed → Within (TypeNode.RefersTo P) listed.1 := by
  have hsteps : s.steps.Agree (s.withContents c).steps (TypeNode.RefersTo P) :=
    deeperSteps_agree h [] nestingLimit
  constructor
  · rw [aliasProperties, aliasProperties, unionParts_agree h hsteps hd]
    refine Resolution.bind_congr_of_ok fun parts hparts => ?_
    rw [partShapes_agree h hsteps (unionParts_refersTo h hboolean hd hparts),
      shape_agree h hsteps hd]
  · intro listed hlisted
    obtain ⟨parts, hparts, hlisted⟩ := Resolution.bind_eq_ok.1 hlisted
    split at hlisted
    · obtain ⟨shapes, hshapes, hlisted⟩ := Resolution.bind_eq_ok.1 hlisted
      cases hlisted
      exact within_commonShape (within_partShapes (closed_refersTo h) hsteps.keeps
        (unionParts_refersTo h hboolean hd hparts) hshapes)
    · obtain ⟨properties, hproperties, hlisted⟩ := Resolution.bind_eq_ok.1 hlisted
      cases hlisted
      cases properties with
      | none => exact List.forall_mem_nil _
      | some properties => exact shape_within (closed_refersTo h) hsteps.keeps hd hproperties

/-- **The result for an alias** is the same in files that agree, line aside. -/
theorem extractAlias_agree (h : s.contents.Agree c P)
    (hboolean : P "boolean" → P "false" ∧ P "true") {d : AliasDeclaration} (hd : d.body.RefersTo P)
    (line : Nat) :
    StructuralDeclaration.unplaced <$> extractAlias (s.withContents c) { d with line } =
      StructuralDeclaration.unplaced <$> extractAlias s d := by
  have hsteps : s.steps.Agree (s.withContents c).steps (TypeNode.RefersTo P) :=
    deeperSteps_agree h [] nestingLimit
  obtain ⟨hsame, hwithin⟩ := aliasProperties_agree h hboolean hd
  have hdescribe : (s.withContents c).describe (parameterEnv d.parameters) d.body =
      s.describe (parameterEnv d.parameters) d.body := by
    rw [Scope.describe, Scope.describe, collect_agree h hsteps hd]
    rfl
  have hlisted : aliasProperties (s.withContents c) (s.withContents c).steps { d with line } =
      aliasProperties s s.steps d := hsame
  rw [extractAlias, extractAlias, hlisted, map_bind, map_bind]
  refine Resolution.bind_congr_of_ok fun listed hok => ?_
  obtain ⟨properties, isUnion⟩ := listed
  dsimp only
  rw [fieldsOf_agree h hsteps (hwithin _ hok), map_bind, map_bind]
  refine bind_congr fun fields => ?_
  cases isUnion with
  | false => rfl
  | true =>
    simp only [if_true, hdescribe, map_bind]
    rfl

/-- **The result for an interface** is the same in files that agree, line aside. -/
theorem extractInterface_agree (h : s.contents.Agree c P) {d : InterfaceDeclaration}
    (hd : ∀ node ∈ (Declaration.interface d).types, node.RefersTo P) (line : Nat) :
    StructuralDeclaration.unplaced <$> extractInterface (s.withContents c) { d with line } =
      StructuralDeclaration.unplaced <$> extractInterface s d := by
  have hsteps : s.steps.Agree (s.withContents c).steps (TypeNode.RefersTo P) :=
    deeperSteps_agree h [] nestingLimit
  have hheritage : ∀ base ∈ d.heritage, base.RefersTo P := fun base hbase =>
    hd base (List.mem_append_left _ (List.mem_append_right _ hbase))
  have hown : Within (TypeNode.RefersTo P)
      (Property.ofMembers (parameterEnv d.parameters) d.members) :=
    within_ofMembers fun m hm type htype =>
      hd type (List.mem_append_right _ (List.mem_flatMap.2 ⟨m, hm, htype⟩))
  have hlisted : interfaceShape (s.withContents c) (s.withContents c).steps [] [d.name]
      (parameterEnv d.parameters) { d with line } =
        interfaceShape s s.steps [] [d.name] (parameterEnv d.parameters) d :=
    mergedShapes_agree h hsteps hheritage
  rw [extractInterface, extractInterface, hlisted, map_bind, map_bind]
  refine Resolution.bind_congr_of_ok fun properties hok => ?_
  have hwithin : Within (TypeNode.RefersTo P) properties :=
    mergedShapes_within (closed_refersTo h) hsteps.keeps hown hheritage hok
  rw [fieldsOf_agree h hsteps hwithin, map_bind, map_bind]
  rfl

/-! ## Runs over a whole file -/

theorem name_of_extractAlias {d : AliasDeclaration} {r : StructuralDeclaration}
    (h : extractAlias s d = .ok r) : r.name = d.name := by
  obtain ⟨⟨properties, isUnion⟩, -, h⟩ := Resolution.bind_eq_ok.1 h
  obtain ⟨fields, -, h⟩ := Resolution.bind_eq_ok.1 h
  split at h <;> obtain ⟨members, -, h⟩ := Resolution.bind_eq_ok.1 h <;> cases h <;> rfl

theorem name_of_extractInterface {d : InterfaceDeclaration} {r : StructuralDeclaration}
    (h : extractInterface s d = .ok r) : r.name = d.name := by
  obtain ⟨properties, -, h⟩ := Resolution.bind_eq_ok.1 h
  obtain ⟨fields, -, h⟩ := Resolution.bind_eq_ok.1 h
  cases h
  rfl

/-- **Results stand in the order of what they are the results of**, so the first of a name is the
result of the first of that name. -/
theorem find?_of_mapM {α : Type} {f : α → Resolution StructuralDeclaration} {key : α → String}
    (hkey : ∀ x r, f x = .ok r → r.name = key x) (name : String) {xs : List α}
    {rs : List StructuralDeclaration} (h : xs.mapM f = .ok rs) :
    (xs.find? (key · == name) = none ∧ rs.find? (·.name == name) = none) ∨
      ∃ x r, xs.find? (key · == name) = some x ∧ rs.find? (·.name == name) = some r ∧
        f x = .ok r := by
  induction xs generalizing rs with
  | nil =>
    cases h
    exact .inl ⟨rfl, rfl⟩
  | cons x xs ih =>
    rw [List.mapM_cons] at h
    obtain ⟨r, hr, h⟩ := Resolution.bind_eq_ok.1 h
    obtain ⟨others, hothers, h⟩ := Resolution.bind_eq_ok.1 h
    cases h
    have hname := hkey x r hr
    by_cases hx : key x = name
    · have hr' : r.name = name := hname.trans hx
      exact .inr ⟨x, r, by simp [hx], by simp [hr'], hr⟩
    · have hr' : r.name ≠ name := fun heq => hx (hname.symm.trans heq)
      rw [List.find?_cons_of_neg (by simpa using hx), List.find?_cons_of_neg (by simpa using hr')]
      exact ih hothers

/-- **What a run lists under a name** is the result for its declaration. -/
theorem extracted_of_extract {ds : List StructuralDeclaration} (h : extract s = .ok ds)
    (name : String) : s.extracted name = .ok (ds.find? (·.name == name)) := by
  obtain ⟨aliases, haliases, h⟩ := Resolution.bind_eq_ok.1 h
  obtain ⟨interfaces, hinterfaces, h⟩ := Resolution.bind_eq_ok.1 h
  cases h
  rw [List.find?_append, Scope.extracted, Contents.find?]
  rcases find?_of_mapM (fun _ _ => name_of_extractAlias) name haliases with
    ⟨hnone, hnone'⟩ | ⟨d, r, hd, hr, hok⟩
  · rw [hnone, hnone']
    rcases find?_of_mapM (fun _ _ => name_of_extractInterface) name hinterfaces with
      ⟨hnone, hnone'⟩ | ⟨d, r, hd, hr, hok⟩
    · rw [hnone, hnone']
      cases s.contents.enums.find? (·.name == name) <;> rfl
    · rw [hd, hr]
      simp [hok]
  · rw [hd, hr]
    simp [hok]

/-- **The result for a declaration depends only on what it uses.**  Let two files have one module
path, the same null checks and the same imports, and declare the same, lines aside, or nothing, under
every name that a name uses.  Then its declaration has the same result in both, or resolution goes on
for ever in both; and where both runs end, they list the same under the name and make the same
builder, or skip, of it. -/
theorem extracted_depends_on_uses {f f' : SourceFile} {name : String}
    (hmodule : f'.modulePath = f.modulePath) (hchecks : f'.strictNullChecks = f.strictNullChecks)
    (himports : f'.contents.imports = f.contents.imports)
    (hsame : ∀ n, Relation.ReflTransGen f.contents.Uses name n →
      (f'.contents.find? n).map Declaration.unplaced =
        (f.contents.find? n).map Declaration.unplaced) :
    let s := Scope.ofFile f
    let s' := Scope.ofFile f'
    Option.map StructuralDeclaration.unplaced <$> s'.extracted name =
        Option.map StructuralDeclaration.unplaced <$> s.extracted name ∧
      ∀ ds ds', extract s = .ok ds → extract s' = .ok ds' →
        s.extracted name = .ok (ds.find? (·.name == name)) ∧
          s'.extracted name = .ok (ds'.find? (·.name == name)) ∧
          ∀ config, (ds'.find? (·.name == name)).map (synthesize config) =
            (ds.find? (·.name == name)).map (synthesize config) := by
  intro s s'
  have hscope : s' = s.withContents f'.contents := by
    simp only [s, s', Scope.ofFile, Scope.withContents, hmodule, hchecks]
  have h : s.contents.Agree f'.contents (Relation.ReflTransGen s.contents.Uses name) :=
    Contents.agree_of_uses himports hsame
  have hboolean : Relation.ReflTransGen s.contents.Uses name "boolean" →
      Relation.ReflTransGen s.contents.Uses name "false" ∧
        Relation.ReflTransGen s.contents.Uses name "true" := fun hb =>
    ⟨hb.tail (.inr ⟨rfl, .inl rfl⟩), hb.tail (.inr ⟨rfl, .inr rfl⟩)⟩
  have hresult : Option.map StructuralDeclaration.unplaced <$> s'.extracted name =
      Option.map StructuralDeclaration.unplaced <$> s.extracted name := by
    have hlift : ∀ x : Resolution StructuralDeclaration,
        Option.map StructuralDeclaration.unplaced <$> some <$> x =
          some <$> StructuralDeclaration.unplaced <$> x := fun x => by cases x <;> rfl
    rw [hscope, Scope.extracted, Scope.extracted]
    rcases h.find?_cases .refl with ⟨h₁, h₂⟩ | ⟨_, _, h₁, h₂⟩ | ⟨d, line, h₁, h₂⟩ | ⟨d, line, h₁, h₂⟩
    · simp only [Scope.contents_withContents, h₁, h₂]
    · simp only [Scope.contents_withContents, h₁, h₂]
    · simp only [Scope.contents_withContents, h₁, h₂, hlift]
      rw [extractInterface_agree h fun node hnode => h.refersTo .refl h₁ hnode]
    · simp only [Scope.contents_withContents, h₁, h₂, hlift]
      rw [extractAlias_agree h hboolean (h.refersTo .refl h₁ List.mem_cons_self)]
  refine ⟨hresult, fun ds ds' hds hds' => ?_⟩
  have hfound := extracted_of_extract hds name
  have hfound' := extracted_of_extract hds' name
  refine ⟨hfound, hfound', fun config => ?_⟩
  rw [hfound, hfound', Resolution.map_ok, Resolution.map_ok, Except.ok.injEq] at hresult
  have hbuilder : ∀ r : Option StructuralDeclaration, r.map (synthesize config) =
      (r.map StructuralDeclaration.unplaced).map (synthesize config) := fun r => by
    cases r <;> rfl
  rw [hbuilder, hresult, ← hbuilder]

/-- Two declarations, the second one made from the first. -/
def crateText : String := "interface P \x7b x: 'x' \x7d\ninterface Box extends P \x7b p?: P \x7d"

/-- The same two the other way round, after another one. -/
def shuffledText : String :=
  "type Q = Box\ninterface Box extends P \x7b p?: P \x7d\ninterface P \x7b x: 'x' \x7d"

/-- The interface that is made from the other. -/
def crate : InterfaceDeclaration where
  name := "Box"
  heritage := [.reference "P" []]
  members := [.property "p" true false (some (.reference "P" []))]
  parameters := []
  exported := false
  line := 2

/-- The one that it is made from, on a line. -/
def pointBase (line : Nat) : InterfaceDeclaration where
  name := "P"
  heritage := []
  members := [.property "x" false false (some (.literal .string "x"))]
  parameters := []
  exported := false
  line := line

/-- The other declaration of the second text. -/
def otherAlias : AliasDeclaration where
  name := "Q"
  body := .reference "Box" []
  parameters := []
  exported := false
  line := 1

/-- The same builder is made of it in both texts. -/
theorem extracted_depends_on_uses_shuffled :
    let f := (readSource crateText "/m" none true).value
    let f' := (readSource shuffledText "/m" none true).value
    (∀ n, Relation.ReflTransGen f.contents.Uses "Box" n →
      (f'.contents.find? n).map Declaration.unplaced =
        (f.contents.find? n).map Declaration.unplaced) ∧
      ∃ ds ds', extract (Scope.ofFile f) = .ok ds ∧ extract (Scope.ofFile f') = .ok ds' ∧
        ∀ config, (ds'.find? (·.name == "Box")).map (synthesize config) =
          (ds.find? (·.name == "Box")).map (synthesize config) := by
  intro f f'
  have hcontents : f.contents = { interfaces := [pointBase 1, crate] } := by decide +kernel
  have hcontents' : f'.contents = { aliases := [otherAlias], interfaces := [crate, pointBase 3] } := by
    decide +kernel
  have hsame : ∀ n, Relation.ReflTransGen f.contents.Uses "Box" n →
      (f'.contents.find? n).map Declaration.unplaced =
        (f.contents.find? n).map Declaration.unplaced := by
    rw [hcontents, hcontents']
    intro n hn
    have hmem : n ∈ ["Box", "P"] := Contents.mem_of_uses (by decide) (by decide) (.head _) hn
    obtain rfl | rfl : n = "Box" ∨ n = "P" := by simpa using hmem
    all_goals rfl
  obtain ⟨ds, hds⟩ : ∃ ds, extract (Scope.ofFile f) = .ok ds :=
    exists_extract (by rw [Scope.ofFile, hcontents, Contents.Unindexed]; decide)
      (by rw [Scope.ofFile, hcontents]; rfl)
  obtain ⟨ds', hds'⟩ : ∃ ds, extract (Scope.ofFile f') = .ok ds :=
    exists_extract (by rw [Scope.ofFile, hcontents', Contents.Unindexed]; decide)
      (by rw [Scope.ofFile, hcontents']; rfl)
  have hmodule : f'.modulePath = f.modulePath := rfl
  have hchecks : f'.strictNullChecks = f.strictNullChecks := rfl
  have himports : f'.contents.imports = f.contents.imports := by rw [hcontents, hcontents']
  have hlocal := (extracted_depends_on_uses hmodule hchecks himports hsame).2
  exact ⟨hsame, ds, ds', hds, hds', (hlocal ds ds' hds hds').2.2⟩

/-! ## The values of `boolean` -/

/-- An alias of `boolean`. -/
def flagText : String := "type D = boolean"

/-- The same, and declarations under the names of its two values. -/
def namedValuesText : String :=
  flagText ++ "\ninterface false \x7b a: 'x' \x7d\ninterface true \x7b a: 'x' \x7d"

/-- This alias. -/
def flagAlias : AliasDeclaration where
  name := "D"
  body := .reference "boolean" []
  parameters := []
  exported := false
  line := 1

/-- An interface under the name of a value. -/
def namedValue (name : String) (line : Nat) : InterfaceDeclaration where
  name := name
  heritage := []
  members := [.property "a" false false (some (.literal .string "x"))]
  parameters := []
  exported := false
  line := line

/-- What is declared under the names of the values is what the alias lists. -/
theorem extracted_flagAlias {s : Scope} {shapes : List (Option (List Property))}
    {fields : List Field} (hfound : s.contents.find? "D" = some (.alias flagAlias))
    (hshapes : partShapes s s.steps ["D"] [(.reference "false" [], []), (.reference "true" [], [])] =
      .ok shapes)
    (hfields : fieldsOf s s.steps (commonShape shapes) = .ok fields) :
    ∃ r, s.extracted "D" = .ok (some r) ∧ r.fields = fields := by
  have hparts : unionParts s s.steps ["D"] [] flagAlias.body =
      .ok [(.reference "false" [], []), (.reference "true" [], [])] := by
    rw [flagAlias, unionParts_reference]
    rfl
  have hlisted : aliasProperties s s.steps flagAlias = .ok (commonShape shapes, true) := by
    rw [aliasProperties]
    simp only [show flagAlias.name = "D" from rfl, show parameterEnv flagAlias.parameters = [] from rfl,
      hparts, Resolution.ok_bind, hshapes]
    rfl
  have hdescribe : s.describe [] flagAlias.body = .ok (s.normalForm ResolvedType.booleans) := by
    rw [Scope.describe, flagAlias, collect_of_intrinsic (fun _ => rfl) rfl]
    rfl
  rw [Scope.extracted, hfound]
  dsimp only
  rw [extractAlias, hlisted]
  simp only [Resolution.ok_bind, hfields, if_true, show parameterEnv flagAlias.parameters = [] from rfl,
    hdescribe]
  exact ⟨_, rfl, rfl⟩

/-- The property of these interfaces. -/
def namedValueProperty : Property :=
  ⟨"a", .property "a" false false (some (.literal .string "x")), []⟩

theorem shape_namedValue {s : Scope} {deeper : Deeper} {name : String} {line : Nat}
    (hfound : s.contents.find? name = some (.interface (namedValue name line)))
    (hname : name ≠ "D") :
    shape s deeper [] ["D"] [] (.reference name []) = .ok (some [namedValueProperty]) := by
  have hnew : (namedValue name line).name ∉ ["D"] := by simpa [namedValue] using hname
  rw [shape_reference, hfound]
  simp only [List.lookup_nil, Option.isSome_none, Bool.false_eq_true, if_false, hnew, argumentLists,
    Resolution.ok_bind, show (namedValue name line).parameters = [] from rfl, bind, interfaceShape,
    show (namedValue name line).heritage = [] from rfl, mergedShapes]
  rfl

theorem fieldsOf_namedValueProperty {s : Scope} {deeper : Deeper} :
    ∃ field, fieldsOf s deeper [namedValueProperty] = .ok [field] := by
  rw [fieldsOf, fieldsOf, fieldOf, namedValueProperty]
  simp only [memberTypes, collect_literal, Resolution.ok_bind]
  exact ⟨_, rfl⟩

/-- **Names that are referred to are not enough**: what a file declares under the names of the values
of `boolean` changes the fields of an alias that refers to `boolean` only. -/
theorem extracted_not_by_references :
    ¬ ∀ (text text' modulePath : String) (path : Option Path) (strict : Bool) (name : String),
      let f := (readSource text modulePath path strict).value
      let f' := (readSource text' modulePath path strict).value
      f.contents.names.Nodup → f'.contents.names.Nodup →
      f'.contents.imports = f.contents.imports →
      (∀ n, Relation.ReflTransGen f.contents.Mentions name n →
        (f'.contents.find? n).map Declaration.unplaced =
          (f.contents.find? n).map Declaration.unplaced) →
      Option.map StructuralDeclaration.unplaced <$> (Scope.ofFile f').extracted name =
        Option.map StructuralDeclaration.unplaced <$> (Scope.ofFile f).extracted name := by
  intro hall
  have hsame := hall flagText namedValuesText "/m" none true "D"
  generalize hf : (readSource flagText "/m" none true).value = f at hsame
  generalize hf' : (readSource namedValuesText "/m" none true).value = f' at hsame
  have hcontents : f.contents = { aliases := [flagAlias] } := by
    rw [← hf]
    decide +kernel
  have hcontents' : f'.contents =
      { aliases := [flagAlias], interfaces := [namedValue "false" 2, namedValue "true" 3] } := by
    rw [← hf']
    decide +kernel
  have hrefers : ∀ n, Relation.ReflTransGen f.contents.Mentions "D" n → n = "D" ∨ n = "boolean" := by
    intro n hn
    induction hn with
    | refl => exact .inl rfl
    | tail _ hstep ih =>
      obtain ⟨d, hfound, hm⟩ := hstep
      rw [hcontents] at hfound
      obtain rfl | rfl := ih
      · cases hfound
        revert hm
        decide +revert
      · cases hfound
  have hagree : ∀ n, Relation.ReflTransGen f.contents.Mentions "D" n →
      (f'.contents.find? n).map Declaration.unplaced =
        (f.contents.find? n).map Declaration.unplaced := by
    intro n hn
    rw [hcontents, hcontents']
    obtain rfl | rfl := hrefers n hn <;> rfl
  have hequal := hsame (by rw [hcontents]; decide) (by rw [hcontents']; decide)
    (by rw [hcontents, hcontents']) hagree
  have hnone : partShapes (Scope.ofFile f) (Scope.ofFile f).steps ["D"]
      [(.reference "false" [], []), (.reference "true" [], [])] = .ok [none, none] := by
    simp only [partShapes, shape_reference, Scope.ofFile, hcontents]
    rfl
  obtain ⟨r, hr, hfields⟩ := extracted_flagAlias (by rw [Scope.ofFile, hcontents]; rfl) hnone rfl
  have hlisted : partShapes (Scope.ofFile f') (Scope.ofFile f').steps ["D"]
      [(.reference "false" [], []), (.reference "true" [], [])] =
        .ok [some [namedValueProperty], some [namedValueProperty]] := by
    rw [partShapes, partShapes, partShapes,
      shape_namedValue (by rw [Scope.ofFile, hcontents']; rfl) (by decide),
      shape_namedValue (by rw [Scope.ofFile, hcontents']; rfl) (by decide)]
    rfl
  obtain ⟨field, hfield⟩ := fieldsOf_namedValueProperty
  obtain ⟨r', hr', hfields'⟩ :=
    extracted_flagAlias (by rw [Scope.ofFile, hcontents']; rfl) hlisted hfield
  rw [hr, hr'] at hequal
  have hunplaced : r'.unplaced = r.unplaced := by simpa using hequal
  have hlists : r'.unplaced.fields = r.unplaced.fields := by rw [hunplaced]
  cases (hfields'.symm.trans hlists).trans hfields

end FluentBuilders
