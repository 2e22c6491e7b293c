import FluentBuilders.Proofs.Resolve.Visits
import FluentBuilders.Proofs.Source.Names
import FluentBuilders.Proofs.Syntax.Formed

/-!
# Proofs/Source/Formed — the types of a source file

Every declaration of a file was read by itself somewhere in the file (`exists_read_of_mem_statements`),
so the types it is written with are as types are read (`formed_readContents`).
-/

namespace FluentBuilders

/-! ## Statements -/

namespace Contents

/-- **The declarations and imports**, kind by kind. -/
def statements (c : Contents) : List Statement :=
  c.aliases.map .alias ++ c.interfaces.map .interface ++ c.enums.map .enum ++
    c.imports.map .imported

variable {c : Contents} {st new : Statement}

theorem mem_statements_append (h : st ∈ (c.append new).statements) :
    st ∈ c.statements ∨ st = new := by
  cases new <;> simp [statements, append] at h ⊢ <;> grind

theorem mem_statements_add (h : st ∈ (c.add new).value.statements) :
    st ∈ c.statements ∨ st = new := by
  unfold add at h
  split at h
  · exact mem_statements_append h
  · split at h
    · exact .inl h
    · exact mem_statements_append h

end Contents

/-- **Every statement was read** somewhere in the file. -/
theorem exists_read_of_mem_statements {directory text : String} :
    ∀ st ∈ (readContents directory text).value.statements, ∃ line cs read,
      readStatement? directory line cs = some read ∧ read.statement.value = some st :=
  scanStatements_keeps
    (P := fun _ c => ∀ st ∈ c.statements, ∃ line cs read,
      readStatement? directory line cs = some read ∧ read.statement.value = some st)
    (fun _ h => h)
    (fun hread hst h st hmem => (Contents.mem_statements_add hmem).elim (h st) fun heq =>
      ⟨_, _, _, hread, heq ▸ hst⟩)
    (List.forall_mem_nil _)

/-- A head is read off the front of a declaration. -/
theorem readStatement?_cases {directory : String} {line : Nat} {cs : List Char}
    {read : ReadStatement} (h : readStatement? directory line cs = some read) :
    (∃ d rest, readImport? directory cs = some (d, rest) ∧
        read.statement.value = some (.imported d)) ∨
      ∃ head rest, readHead? cs = some (head, rest) ∧
        (read = readAlias head line rest ∨ read = readInterface head line rest ∨
          ∃ constant, read = readEnum head constant line rest) := by
  unfold readStatement? at h
  split at h
  · obtain ⟨⟨d, rest⟩, hread, rfl⟩ := Option.map_eq_some_iff.1 h
    exact .inl ⟨d, rest, hread, rfl⟩
  · obtain ⟨⟨head, rest⟩, hread, rfl⟩ := Option.map_eq_some_iff.1 h
    refine .inr ⟨head, rest, hread, ?_⟩
    dsimp only
    split
    · exact .inl rfl
    · exact .inr (.inl rfl)
    · exact .inr (.inr ⟨_, rfl⟩)

/-! ## Types -/

/-- A name as it is read in a statement. -/
def IsReadName (name : String) : Prop := Text.isNameOver Text.isNamePart name.toList = true

theorem isReadName_of_readName? {cs name rest : List Char}
    (h : Text.readName? cs = some (name, rest)) : IsReadName (String.ofList name) := by
  rw [IsReadName, String.toList_ofList]
  exact isNameOver_of_readName? h

theorem isReadName_of_boundedName? {cs : List Char} {name : String} {bound : Option (List Char)}
    (h : boundedName? cs = some (name, bound)) : IsReadName name := by
  unfold boundedName? at h
  obtain ⟨⟨read, rest⟩, hread, h⟩ := Option.bind_eq_some_iff.1 h
  dsimp only at h
  split at h
  · cases h
    exact isReadName_of_readName? hread
  · obtain ⟨found, -, h⟩ := Option.bind_eq_some_iff.1 h
    split at h
    · cases h
    · cases h
      exact isReadName_of_readName? hread

theorem isReadName_of_modifiedName? {fuel : Nat} {cs : List Char} {name : String}
    {bound : Option (List Char)} (h : modifiedName? fuel cs = some (name, bound)) :
    IsReadName name := by
  induction fuel generalizing cs with
  | zero => exact isReadName_of_boundedName? h
  | succ fuel ih =>
    rw [modifiedName?] at h
    split at h
    · next read hread =>
      cases h
      obtain ⟨rest, -, hread⟩ := Option.bind_eq_some_iff.1 hread
      exact ih hread
    · exact isReadName_of_boundedName? h

/-- Parameters with names and defaults as they are read. -/
def AreFormed (parameters : List TypeParameter) : Prop :=
  (∀ p ∈ parameters, IsReadName p.name) ∧ ∀ t ∈ defaults parameters, t.Formed

/-- **Declarations written with types and names as they are read.** -/
def Statement.Formed : Statement → Prop
  | .alias d => AreFormed d.parameters ∧ d.body.Formed
  | .interface d =>
    AreFormed d.parameters ∧ (∀ t ∈ d.heritage, t.Formed) ∧ ∀ m ∈ d.members, m.Formed
  | .enum _ => True
  | .imported d => ∀ p ∈ d.names, IsReadName p.2

theorem areFormed_readTypeParameter (item : List Char) :
    AreFormed (readTypeParameter item).value := by
  unfold readTypeParameter
  generalize splitDefault item = halves
  obtain ⟨head, default⟩ := halves
  dsimp only
  split
  · exact ⟨List.forall_mem_nil _, List.forall_mem_nil _⟩
  · next name bound hname =>
    refine ⟨List.forall_mem_singleton.2 (isReadName_of_modifiedName? hname), fun t ht => ?_⟩
    cases hdefault : default.filter (!·.isEmpty) with
    | none =>
      rw [hdefault] at ht
      cases ht
    | some text =>
      rw [hdefault] at ht
      obtain rfl := List.mem_singleton.1 ht
      exact formed_readType text

theorem areFormed_readTypeParameterItems (items : List (List Char)) :
    AreFormed (readTypeParameterItems items).value := by
  induction items with
  | nil => exact ⟨List.forall_mem_nil _, List.forall_mem_nil _⟩
  | cons item items ih =>
    obtain ⟨hname, htypes⟩ := areFormed_readTypeParameter item
    change AreFormed ((readTypeParameter item).value ++ (readTypeParameterItems items).value)
    refine ⟨List.forall_mem_append.2 ⟨hname, ih.1⟩, ?_⟩
    rw [defaults, List.filterMap_append]
    exact List.forall_mem_append.2 ⟨htypes, ih.2⟩

theorem areFormed_readTypeParameters (cs : List Char) : AreFormed (readTypeParameters cs).1.value := by
  unfold readTypeParameters
  dsimp only
  split
  · exact areFormed_readTypeParameterItems _
  · exact ⟨List.forall_mem_nil _, List.forall_mem_nil _⟩

theorem formed_readHeritageItems (items : List (List Char)) :
    ∀ t ∈ (readHeritageItems items).value, t.Formed := by
  induction items with
  | nil => exact List.forall_mem_nil _
  | cons item items ih =>
    rw [readHeritageItems]
    split
    · exact ih
    · exact List.forall_mem_cons.2 ⟨formed_readType item, ih⟩

theorem formed_readHeritage (header : List Char) : ∀ t ∈ (readHeritage header).value, t.Formed := by
  unfold readHeritage
  split
  · exact List.forall_mem_nil _
  · exact formed_readHeritageItems _

theorem isReadName_of_namedBinding? {cs : List Char} {binding : String × String}
    (h : namedBinding? cs = some binding) : IsReadName binding.2 := by
  unfold namedBinding? at h
  obtain ⟨⟨name, rest⟩, hread, h⟩ := Option.bind_eq_some_iff.1 h
  dsimp only at h
  split at h
  · cases h
    exact isReadName_of_readName? hread
  · obtain ⟨after, -, h⟩ := Option.bind_eq_some_iff.1 h
    obtain ⟨⟨localName, left⟩, -, h⟩ := Option.bind_eq_some_iff.1 h
    dsimp only at h
    split at h
    · cases h
      exact isReadName_of_readName? hread
    · cases h

theorem isReadName_of_importSpecifier? {cs : List Char} {binding : String × String}
    (h : importSpecifier? cs = some binding) : IsReadName binding.2 := by
  rw [importSpecifier?, Option.orElse_eq_or, Option.or_eq_some_iff] at h
  rcases h with htype | ⟨-, hplain⟩
  · obtain ⟨rest, -, hbinding⟩ := Option.bind_eq_some_iff.1 htype
    exact isReadName_of_namedBinding? hbinding
  · exact isReadName_of_namedBinding? hplain

theorem isReadName_importedNames (clause : List Char) :
    ∀ p ∈ importedNames clause, IsReadName p.2 := by
  have hfold : ∀ bindings names : List (String × String), (∀ p ∈ bindings, IsReadName p.2) →
      (∀ p ∈ names, IsReadName p.2) → ∀ p ∈ bindings.foldl bindName names, IsReadName p.2 := by
    intro bindings
    induction bindings with
    | nil => exact fun names _ hnames => hnames
    | cons binding bindings ih =>
      intro names hbindings hnames
      obtain ⟨hbinding, hrest⟩ := List.forall_mem_cons.1 hbindings
      refine ih _ hrest (List.forall_mem_append.2
        ⟨fun p hp => hnames p (List.mem_filter.1 hp).1, List.forall_mem_singleton.2 hbinding⟩)
  unfold importedNames
  split
  · exact List.forall_mem_nil _
  · refine hfold _ _ (fun p hp => ?_) (List.forall_mem_nil _)
    obtain ⟨item, -, hitem⟩ := List.mem_filterMap.1 hp
    exact isReadName_of_importSpecifier? hitem

theorem formed_readStatement? {directory : String} {line : Nat} {cs : List Char}
    {read : ReadStatement} {st : Statement} (h : readStatement? directory line cs = some read)
    (hst : read.statement.value = some st) : st.Formed := by
  obtain ⟨d, rest, hread, himport⟩ | ⟨head, rest, -, rfl | rfl | ⟨constant, rfl⟩⟩ :=
    readStatement?_cases h
  · rw [himport] at hst
    cases hst
    obtain ⟨_, -, hread⟩ := Option.bind_eq_some_iff.1 hread
    obtain ⟨⟨clause, module, _⟩, -, hread⟩ := Option.bind_eq_some_iff.1 hread
    cases hread
    exact isReadName_importedNames _
  · unfold readAlias at hst
    dsimp only at hst
    split at hst
    · cases hst
      exact ⟨areFormed_readTypeParameters rest, formed_readType _⟩
    · cases hst
  · unfold readInterface at hst
    dsimp only at hst
    split at hst
    · cases hst
      exact ⟨areFormed_readTypeParameters rest, formed_readHeritage _, formed_readObjectBody _⟩
    · cases hst
  · unfold readEnum at hst
    split at hst <;> cases hst
    trivial

/-- **Contents written with types as they are read.** -/
def Contents.Formed (c : Contents) : Prop := ∀ st ∈ c.statements, st.Formed

/-- **The types of every source text are as types are read.** -/
theorem formed_readContents (directory text : String) : (readContents directory text).value.Formed := by
  intro st hst
  obtain ⟨line, cs, read, hread, hvalue⟩ := exists_read_of_mem_statements st hst
  exact formed_readStatement? hread hvalue

namespace Contents.Formed

variable {c : Contents}

theorem of_alias {d : AliasDeclaration} (h : c.Formed) (hd : d ∈ c.aliases) :
    (Statement.alias d).Formed :=
  h _ (by simp [statements, hd])

theorem of_interface {d : InterfaceDeclaration} (h : c.Formed) (hd : d ∈ c.interfaces) :
    (Statement.interface d).Formed :=
  h _ (by simp [statements, hd])

/-- Each type that resolution reads is formed. -/
theorem types (h : c.Formed) : ∀ t ∈ c.types, t.Formed := by
  refine List.forall_mem_append.2 ⟨List.forall_mem_flatMap.2 fun d hd => ?_,
    List.forall_mem_flatMap.2 fun d hd => ?_⟩
  · obtain ⟨hparameters, hbody⟩ := h.of_alias hd
    exact List.forall_mem_cons.2 ⟨hbody, hparameters.2⟩
  · obtain ⟨hparameters, hheritage, hmembers⟩ := h.of_interface hd
    exact List.forall_mem_append.2 ⟨List.forall_mem_append.2 ⟨hparameters.2, hheritage⟩,
      List.forall_mem_flatMap.2 fun m hm => (hmembers m hm).2⟩

/-- What a name was exported as is a name. -/
theorem isReadName_of_imported? (h : c.Formed) {name module exported : String}
    (hfound : c.imported? name = some (module, exported)) : IsReadName exported := by
  obtain ⟨d, hd, hfound⟩ := List.exists_of_findSome?_eq_some hfound
  have hnames : ∀ p ∈ d.names, IsReadName p.2 := h (.imported d) (by simp [statements, hd])
  split at hfound
  · next hlookup =>
    cases hfound
    exact hnames _ (mem_of_lookup hlookup)
  · split at hfound
    · cases hfound
      rfl
    · cases hfound

end Contents.Formed

end FluentBuilders
