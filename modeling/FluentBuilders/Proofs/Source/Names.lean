import FluentBuilders.Proofs.Source.Remainder
import Mathlib.Data.List.Nodup
import Mathlib.Data.List.TakeWhile

/-!
# Proofs/Source/Names — a file declares each name once, line by line

A statement is added to a file only when its name is not declared yet, so the names of all that a
file declares are distinct (`nodup_names_readSource`), and a name finds the declaration that has it.
The names are identifiers, and declarations of a kind are listed in the order of their lines
(`inOrder_readSource`).
-/

namespace FluentBuilders

namespace Contents

variable {c : Contents} {name : String}

/-- **All that a file declares**: its aliases, its interfaces, its enums. -/
def declarations (c : Contents) : List Declaration :=
  c.aliases.map .alias ++ c.interfaces.map .interface ++ c.enums.map .enum

/-- **The names that a file declares.** -/
def names (c : Contents) : List String := c.declarations.map Declaration.name

theorem find?_eq_find?_declarations :
    c.find? name = c.declarations.find? fun d => d.name == name := by
  simp only [Contents.find?, declarations, List.find?_append, List.find?_map, Function.comp_def,
    Declaration.name]
  cases c.aliases.find? (·.name == name) <;> cases c.interfaces.find? (·.name == name) <;> rfl

theorem find?_eq_none_iff : c.find? name = none ↔ name ∉ c.names := by
  rw [find?_eq_find?_declarations, List.find?_eq_none, names, List.mem_map]
  simp

theorem mem_of_find? {d : Declaration} (h : c.find? name = some d) :
    d ∈ c.declarations ∧ d.name = name := by
  rw [find?_eq_find?_declarations] at h
  exact ⟨List.mem_of_find?_eq_some h, by simpa using List.find?_some h⟩

/-- **A declaration is found by its name** where names are distinct. -/
theorem find?_of_mem (h : c.names.Nodup) {d : Declaration} (hd : d ∈ c.declarations) :
    c.find? d.name = some d := by
  cases hfound : c.find? d.name with
  | none => exact absurd (List.mem_map_of_mem hd) (find?_eq_none_iff.1 hfound)
  | some d' =>
    obtain ⟨hd', hname⟩ := mem_of_find? hfound
    rw [List.inj_on_of_nodup_map h hd' hd hname]

/-- A statement adds the name it declares. -/
theorem names_append (st : Statement) :
    (c.append st).names.Perm ((declared? st).toList.map Prod.fst ++ c.names) := by
  rw [List.perm_iff_count]
  intro name
  cases st <;>
    simp [names, declarations, append, declared?, Declaration.name, List.count_cons] <;> omega

/-- **Adding a statement keeps names distinct.** -/
theorem nodup_names_add (h : c.names.Nodup) (st : Statement) : (c.add st).value.names.Nodup := by
  have hperm := names_append (c := c) st
  unfold Contents.add
  split
  · next hnone =>
    rw [hnone] at hperm
    exact hperm.nodup_iff.2 h
  · next name line hname =>
    split
    · exact h
    · next hfind =>
      rw [hname] at hperm
      have hnew : name ∉ c.names := find?_eq_none_iff.1 (by simpa using hfind)
      exact hperm.nodup_iff.2 (List.nodup_cons.2 ⟨hnew, h⟩)

end Contents

/-- **The names of a file are distinct.** -/
theorem nodup_names_readSource (text modulePath : String) (path : Option Path) (strict : Bool) :
    (readSource text modulePath path strict).value.contents.names.Nodup :=
  scanStatements_keeps (P := fun _ c => c.names.Nodup) (fun _ h => h)
    (fun _ _ h => Contents.nodup_names_add h _) List.nodup_nil

/-! ## What a statement declares -/

theorem isNameOver_of_readName? {cs name rest : List Char}
    (h : Text.readName? cs = some (name, rest)) : Text.isNameOver Text.isNamePart name = true := by
  unfold Text.readName? at h
  split at h
  · cases h
  · split at h
    · next hstart =>
      rw [List.span_eq_takeWhile_dropWhile] at h
      cases h
      rw [Text.isNameOver, hstart, Bool.true_and, List.all_eq_true]
      exact fun c hc => List.mem_takeWhile_imp hc
    · cases h

theorem isNameOver_of_readHead? {cs rest : List Char} {head : Head}
    (h : readHead? cs = some (head, rest)) :
    Text.isNameOver Text.isNamePart head.name.toList = true := by
  obtain ⟨⟨kind, afterKind⟩, -, h⟩ := Option.bind_eq_some_iff.1 h
  obtain ⟨⟨name, afterName⟩, hname, heq⟩ := Option.bind_eq_some_iff.1 h
  cases heq
  rw [String.toList_ofList]
  exact isNameOver_of_readName? hname

/-- **A declaration is on the line it was found on, and named by an identifier.** -/
theorem declared?_of_readStatement? {directory : String} {line : Nat} {cs : List Char}
    {read : ReadStatement} {st : Statement} (h : readStatement? directory line cs = some read)
    (hst : read.statement.value = some st) {name : String} {foundOn : Nat}
    (hd : Contents.declared? st = some (name, foundOn)) :
    foundOn = line ∧ Text.isNameOver Text.isNamePart name.toList = true := by
  unfold readStatement? at h
  split at h
  · obtain ⟨⟨d, rest⟩, -, rfl⟩ := Option.map_eq_some_iff.1 h
    cases hst
    cases hd
  · obtain ⟨⟨head, rest⟩, hhead, rfl⟩ := Option.map_eq_some_iff.1 h
    have hname := isNameOver_of_readHead? hhead
    dsimp only at hst
    split at hst
    · unfold readAlias at hst
      dsimp only at hst
      split at hst <;> cases hst
      cases hd
      exact ⟨rfl, hname⟩
    · unfold readInterface at hst
      dsimp only at hst
      split at hst <;> cases hst
      cases hd
      exact ⟨rfl, hname⟩
    · unfold readEnum at hst
      split at hst <;> cases hst
      cases hd
      exact ⟨rfl, hname⟩

/-! ## The order of lines -/

/-- **Declarations in the order of their lines**, kind by kind, and none after the given line. -/
structure Contents.InOrder (c : Contents) (line : Nat) : Prop where
  aliases : (c.aliases.map (·.line)).Pairwise (· ≤ ·)
  interfaces : (c.interfaces.map (·.line)).Pairwise (· ≤ ·)
  enums : (c.enums.map (·.line)).Pairwise (· ≤ ·)
  upTo : ∀ d ∈ c.declarations, d.line ≤ line

namespace Contents

variable {c : Contents} {line later : Nat}

theorem InOrder.mono (h : c.InOrder line) (hle : line ≤ later) : c.InOrder later :=
  { h with upTo := fun d hd => (h.upTo d hd).trans hle }

theorem pairwise_map_concat {α : Type} {f : α → Nat} {xs : List α} {x : α}
    (h : (xs.map f).Pairwise (· ≤ ·)) (hx : f x = line) (hle : ∀ y ∈ xs, f y ≤ line) :
    ((xs ++ [x]).map f).Pairwise (· ≤ ·) := by
  rw [List.map_append, List.map_singleton, hx]
  refine List.pairwise_append.2 ⟨h, List.pairwise_singleton _ _, fun l hl last hlast => ?_⟩
  obtain ⟨y, hy, rfl⟩ := List.mem_map.1 hl
  rw [List.mem_singleton.1 hlast]
  exact hle y hy

theorem mem_declarations_append {st : Statement} {d : Declaration}
    (hd : d ∈ (c.append st).declarations) :
    d ∈ c.declarations ∨ declared? st = some (d.name, d.line) := by
  cases st <;>
    grind [append, declarations, declared?, Declaration.name, Declaration.line]

/-- A declaration on the last line is added in order. -/
theorem InOrder.append (h : c.InOrder line) {st : Statement}
    (hst : ∀ name found, declared? st = some (name, found) → found = line) :
    (c.append st).InOrder line := by
  have hbounds := h.upTo
  simp only [declarations, List.forall_mem_append, List.forall_mem_map] at hbounds
  obtain ⟨⟨haliases, hinterfaces⟩, henums⟩ := hbounds
  have hupTo : ∀ d ∈ (c.append st).declarations, d.line ≤ line := fun d hd =>
    (mem_declarations_append hd).elim (h.upTo d) fun hnew => (hst _ _ hnew).le
  obtain d | d | d | d := st
  · exact { h with aliases := pairwise_map_concat h.aliases (hst _ _ rfl) haliases, upTo := hupTo }
  · exact { h with
      interfaces := pairwise_map_concat h.interfaces (hst _ _ rfl) hinterfaces, upTo := hupTo }
  · exact { h with enums := pairwise_map_concat h.enums (hst _ _ rfl) henums, upTo := hupTo }
  · exact { h with upTo := hupTo }

theorem add_eq (c : Contents) (st : Statement) :
    (c.add st).value = c ∨ (c.add st).value = c.append st := by
  unfold Contents.add
  split
  · exact .inr rfl
  · split
    · exact .inl rfl
    · exact .inr rfl

end Contents

theorem lineBreaks_le_of_suffix {cs rest : List Char} (h : rest <:+ cs) :
    lineBreaks rest ≤ lineBreaks cs := h.sublist.count_le _

/-- **Declarations of a kind are listed in the order of their lines.** -/
theorem inOrder_readSource (text modulePath : String) (path : Option Path) (strict : Bool) :
    ∃ line, (readSource text modulePath path strict).value.contents.InOrder line := by
  let cs := stripComments text.toList
  refine ⟨lineBreaks cs - lineBreaks [] + 1, scanStatements_keeps
    (P := fun rest c => c.InOrder (lineBreaks cs - lineBreaks rest + 1)) (fun hrest h => ?_)
    (@fun rest c read st hread hst h => ?_) ⟨.nil, .nil, .nil, List.forall_mem_nil _⟩⟩
  · have := lineBreaks_le_of_suffix hrest
    exact h.mono (by omega)
  · have := lineBreaks_le_of_suffix (suffix_of_readStatement? hread)
    have hadded : (c.add st).value.InOrder (lineBreaks cs - lineBreaks rest + 1) := by
      rcases Contents.add_eq c st with heq | heq
      · rw [heq]
        exact h
      · rw [heq]
        exact h.append fun _ _ hd => (declared?_of_readStatement? hread hst hd).1
    exact hadded.mono (by omega)

/-- **Every name that is declared is an identifier.** -/
theorem isNameOver_of_mem_declarations (text modulePath : String) (path : Option Path)
    (strict : Bool) :
    ∀ d ∈ (readSource text modulePath path strict).value.contents.declarations,
      Text.isNameOver Text.isNamePart d.name.toList = true := by
  refine scanStatements_keeps (P := fun _ c => ∀ d ∈ c.declarations,
    Text.isNameOver Text.isNamePart d.name.toList = true) (fun _ h => h)
    (@fun rest c read st hread hst h => ?_) (List.forall_mem_nil _)
  rcases Contents.add_eq c st with heq | heq
  · rw [heq]
    exact h
  · rw [heq]
    intro d hd
    exact (Contents.mem_declarations_append hd).elim (h d) fun hnew =>
      (declared?_of_readStatement? hread hst hnew).2

end FluentBuilders
