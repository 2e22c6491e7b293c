import FluentBuilders.Proofs.Resolve.Fields
import FluentBuilders.Proofs.Resolve.Locality
import FluentBuilders.Proofs.Source.Formed

/-!
# Proofs/Resolve/Used — what holds of a declaration by the types it uses

A declaration has the same fields in the file that keeps nothing but what the declaration uses.  So an
invariant of resolution holds of its fields when it is one of that file
(`Invariant.shown_of_usedBy`): it asks something of the types that the declaration uses, and of no
others.
-/

namespace FluentBuilders

namespace Contents

variable {c : Contents} {name : String} {keep : String → Bool}

/-- **What is declared under names of a kind**, and all imports. -/
def only (keep : String → Bool) (c : Contents) : Contents where
  aliases := c.aliases.filter (keep ·.name)
  interfaces := c.interfaces.filter (keep ·.name)
  enums := c.enums.filter (keep ·.name)
  imports := c.imports

theorem find?_only (h : keep name = true) : (c.only keep).find? name = c.find? name := by
  have hkeep : ∀ n : String, (keep n && n == name) = (n == name) := by
    intro n
    by_cases hn : n = name
    · rw [hn, h, Bool.true_and]
    · rw [beq_eq_false_iff_ne.2 hn, Bool.and_false]
  simp only [find?, only, List.find?_filter, Bool.decide_and, Bool.decide_eq_true, hkeep]

theorem statements_only (keep : String → Bool) (c : Contents) :
    (c.only keep).statements ⊆ c.statements := by
  intro st hst
  simp only [statements, only, List.mem_append, List.mem_map, List.mem_filter] at hst ⊢
  grind

theorem mem_declarations_only {d : Declaration} :
    d ∈ (c.only keep).declarations ↔ d ∈ c.declarations ∧ keep d.name = true := by
  simp only [declarations, only, List.mem_append, List.mem_map, List.mem_filter]
  grind [Declaration.name]

/-- The types of a file are those that its declarations are written with. -/
theorem exists_declaration_of_mem_types {t : TypeNode} (h : t ∈ c.types) :
    ∃ d ∈ c.declarations, t ∈ d.types := by
  rcases List.mem_append.1 h with h | h
  · obtain ⟨d, hd, ht⟩ := List.mem_flatMap.1 h
    exact ⟨.alias d, List.mem_append_left _ (List.mem_append_left _ (List.mem_map_of_mem hd)), ht⟩
  · obtain ⟨d, hd, ht⟩ := List.mem_flatMap.1 h
    exact ⟨.interface d, List.mem_append_left _ (List.mem_append_right _ (List.mem_map_of_mem hd)), ht⟩

/-- **A type that a name uses**: its declaration is written with it, or that of a name it uses. -/
def UsesType (c : Contents) (name : String) (t : TypeNode) : Prop :=
  ∃ n d, Relation.ReflTransGen c.Uses name n ∧ c.find? n = some d ∧ t ∈ d.types

/-- Types that are used are types of the file. -/
theorem UsesType.mem_types {t : TypeNode} (h : c.UsesType name t) : t ∈ c.types := by
  obtain ⟨n, d, -, hfound, ht⟩ := h
  obtain d | d | d := d
  · exact List.mem_append_left _ (List.mem_flatMap.2 ⟨d, (mem_aliases_of_find? hfound).1, ht⟩)
  · exact List.mem_append_right _ (List.mem_flatMap.2 ⟨d, mem_interfaces_of_find? hfound, ht⟩)
  · cases ht

open Classical in
/-- Whether a name is used by another. -/
noncomputable def isUsed (c : Contents) (name other : String) : Bool :=
  decide (Relation.ReflTransGen c.Uses name other)

theorem isUsed_iff {other : String} :
    c.isUsed name other = true ↔ Relation.ReflTransGen c.Uses name other := by
  classical exact decide_eq_true_iff

/-- **What a name uses**, and all imports. -/
noncomputable def usedBy (c : Contents) (name : String) : Contents := c.only (c.isUsed name)

theorem agree_usedBy (c : Contents) (name : String) :
    c.Agree (c.usedBy name) (Relation.ReflTransGen c.Uses name) :=
  agree_of_uses rfl fun n hn => by rw [usedBy, find?_only (isUsed_iff.2 hn)]

theorem usesType_of_mem_usedBy (hnames : c.names.Nodup) {t : TypeNode}
    (h : t ∈ (c.usedBy name).types) : c.UsesType name t := by
  obtain ⟨d, hd, ht⟩ := exists_declaration_of_mem_types h
  obtain ⟨hd, hused⟩ := mem_declarations_only.1 hd
  exact ⟨d.name, d, isUsed_iff.1 hused, find?_of_mem hnames hd, ht⟩

end Contents

namespace Invariant

variable {s : Scope}

/-- **The constituents of a declaration's fields are shown** by an invariant of what the declaration
uses. -/
theorem shown_of_usedBy (hnames : s.contents.names.Nodup)
    {declarations : List StructuralDeclaration} (h : extract s = .ok declarations)
    {d : StructuralDeclaration} (hd : d ∈ declarations)
    {I : Invariant (s.withContents (s.contents.usedBy d.name))}
    (haliases : ∀ a ∈ (s.contents.usedBy d.name).aliases, I.Binds (parameterEnv a.parameters))
    (hinterfaces : ∀ i ∈ (s.contents.usedBy d.name).interfaces,
      I.Binds (parameterEnv i.parameters)) :
    ∀ f ∈ d.fields, I.AllShown f.types := by
  have hagree := s.contents.agree_usedBy d.name
  have hself : Relation.ReflTransGen s.contents.Uses d.name d.name := .refl
  -- both runs end in one result, up to its line
  have hfields : ∀ {x : Resolution StructuralDeclaration},
      StructuralDeclaration.unplaced <$> x = StructuralDeclaration.unplaced <$> .ok d →
        ∃ d', x = .ok d' ∧ d'.fields = d.fields := by
    intro x hx
    obtain ⟨d', rfl, heq⟩ := Resolution.map_eq_ok.1 hx
    have hfields := congrArg StructuralDeclaration.fields heq
    exact ⟨d', rfl, hfields⟩
  obtain ⟨aliases, halias, h⟩ := Resolution.bind_eq_ok.1 h
  obtain ⟨interfaces, hinterface, h⟩ := Resolution.bind_eq_ok.1 h
  cases h
  rcases List.mem_append.1 hd with hd | hd
  · obtain ⟨a, ha, hok⟩ := Resolution.exists_of_mem_mapM halias d hd
    have hname := name_of_extractAlias hok
    have hfound : s.contents.find? d.name = some (.alias a) := hname ▸ Contents.find?_of_mem hnames
      (List.mem_append_left _ (List.mem_append_left _ (List.mem_map_of_mem ha)))
    have hsame := extractAlias_agree hagree
      (fun hboolean => ⟨hboolean.tail (.inr ⟨rfl, .inl rfl⟩), hboolean.tail (.inr ⟨rfl, .inr rfl⟩)⟩)
      (hagree.refersTo hself hfound List.mem_cons_self) a.line
    obtain ⟨d', hok', heq⟩ := hfields (hsame.trans (congrArg _ hok))
    have hkept : a ∈ (s.contents.usedBy d.name).aliases :=
      List.mem_filter.2 ⟨ha, Contents.isUsed_iff.2 (hname ▸ hself)⟩
    rw [← heq]
    exact shown_extractAlias hkept (haliases a hkept) hok'
  · obtain ⟨i, hi, hok⟩ := Resolution.exists_of_mem_mapM hinterface d hd
    have hname := name_of_extractInterface hok
    have hfound : s.contents.find? d.name = some (.interface i) := hname ▸ Contents.find?_of_mem hnames
      (List.mem_append_left _ (List.mem_append_right _ (List.mem_map_of_mem hi)))
    have hsame := extractInterface_agree hagree
      (fun node hnode => hagree.refersTo hself hfound hnode) i.line
    obtain ⟨d', hok', heq⟩ := hfields (hsame.trans (congrArg _ hok))
    have hkept : i ∈ (s.contents.usedBy d.name).interfaces :=
      List.mem_filter.2 ⟨hi, Contents.isUsed_iff.2 (hname ▸ hself)⟩
    rw [← heq]
    exact shown_extractInterface hkept (hinterfaces i hkept) hok'

end Invariant

end FluentBuilders
