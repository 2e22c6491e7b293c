import FluentBuilders.Proofs.Source.Remainder
import FluentBuilders.Proofs.Syntax.Literals
import FluentBuilders.Proofs.Syntax.Unions
import FluentBuilders.Resolve.Scope
import FluentBuilders.Resolve.Expansion
import Mathlib.Data.List.TakeDrop
import Mathlib.Data.List.TakeWhile

/-!
# Proofs/Source/Contents — what holds of every file that has been read

The aliases of a file have names without dots and bodies whose unions join two or more types and
whose literals look like literals, and each of them is the declaration that its name finds
(`sound_readContents`).
-/

namespace FluentBuilders

/-- **An alias as it is read**: a name without dots, and a body in which every union is one and
every literal is written as one. -/
structure AliasDeclaration.Sound (d : AliasDeclaration) : Prop where
  plain : splitHead d.name = (d.name, "")
  joins : d.body.joins
  written : ∀ p ∈ d.body.literals, p.IsWritten

/-- **Contents as they are read**: sound aliases, each found by its name. -/
structure Contents.Sound (c : Contents) : Prop where
  aliases : ∀ d ∈ c.aliases, d.Sound
  found : ∀ d ∈ c.aliases, c.aliases.find? (·.name == d.name) = some d

namespace Contents

variable {c : Contents}

theorem Sound.find? {d : AliasDeclaration} (h : c.Sound) (hd : d ∈ c.aliases) :
    c.find? d.name = some (.alias d) := by
  simp [Contents.find?, h.found d hd]

theorem mem_aliases_of_find? {name : String} {d : AliasDeclaration}
    (h : c.find? name = some (.alias d)) : d ∈ c.aliases ∧ d.name = name := by
  unfold Contents.find? at h
  cases ha : c.aliases.find? (·.name == name) with
  | some d' =>
    simp only [ha, Option.map_some, Option.orElse_some, Option.some.injEq,
      Declaration.alias.injEq] at h
    subst h
    exact ⟨List.mem_of_find?_eq_some ha, by simpa using List.find?_some ha⟩
  | none =>
    cases hi : c.interfaces.find? (·.name == name) <;> simp [ha, hi] at h

/-! ## Adding statements -/

theorem Sound.append {st : Statement} (h : c.Sound)
    (hst : ∀ d, st = .alias d → d.Sound ∧ c.find? d.name = none) : (c.append st).Sound := by
  obtain d | d | d | d := st
  · obtain ⟨hd, hnone⟩ := hst d rfl
    have hnew : c.aliases.find? (·.name == d.name) = none := by
      unfold Contents.find? at hnone
      cases ha : c.aliases.find? (·.name == d.name) with
      | none => rfl
      | some d' => simp [ha] at hnone
    constructor
    · intro e he
      rcases List.mem_append.1 he with he | he
      · exact h.aliases e he
      · rw [List.mem_singleton.1 he]; exact hd
    · intro e he
      change (c.aliases ++ [d]).find? _ = _
      rw [List.find?_append]
      rcases List.mem_append.1 he with he | he
      · rw [h.found e he, Option.some_or]
      · rw [List.mem_singleton.1 he, hnew]
        simp
  · exact ⟨h.aliases, h.found⟩
  · exact ⟨h.aliases, h.found⟩
  · exact ⟨h.aliases, h.found⟩

theorem Sound.add {st : Statement} (h : c.Sound) (hst : ∀ d, st = .alias d → d.Sound) :
    (c.add st).value.Sound := by
  unfold Contents.add
  split
  · next hnone =>
    refine h.append fun d hd => ?_
    subst hd
    cases hnone
  · next name line hname =>
    split
    · exact h
    · next hfind =>
      refine h.append fun d hd => ⟨hst d hd, ?_⟩
      subst hd
      cases hname
      simpa using hfind

end Contents

/-! ## Statements -/

theorem splitHead_of_all {cs : List Char} (h : ∀ c ∈ cs, c ≠ '.') :
    splitHead (String.ofList cs) = (String.ofList cs, "") := by
  have hall : ∀ c ∈ cs, (decide (c ≠ '.')) = true := fun c hc => by simpa using h c hc
  unfold splitHead
  rw [String.toList_ofList, List.span_eq_takeWhile_dropWhile, List.takeWhile_eq_self_iff.2 hall,
    List.dropWhile_eq_nil_iff.2 hall]
  rfl

theorem ne_dot_of_readName? {cs name rest : List Char}
    (h : Text.readName? cs = some (name, rest)) : ∀ c ∈ name, c ≠ '.' := by
  unfold Text.readName? at h
  split at h
  · cases h
  next c tail =>
  split at h
  · next hstart =>
    rw [List.span_eq_takeWhile_dropWhile] at h
    cases h
    intro d hd
    rcases List.mem_cons.1 hd with rfl | hd
    · rintro rfl; exact absurd hstart (by decide)
    · rintro rfl; exact absurd (List.mem_takeWhile_imp hd) (by decide)
  · cases h

theorem splitHead_of_readHead? {cs rest : List Char} {head : Head}
    (h : readHead? cs = some (head, rest)) : splitHead head.name = (head.name, "") := by
  unfold readHead? at h
  simp only [Option.bind_eq_bind, Option.bind_eq_some_iff, Prod.exists] at h
  obtain ⟨kind, after, -, name, rest', hname, h⟩ := h
  cases h
  exact splitHead_of_all (ne_dot_of_readName? hname)

theorem sound_of_readAlias {head : Head} {line : Nat} {cs : List Char} {d : AliasDeclaration}
    (hname : splitHead head.name = (head.name, ""))
    (h : (readAlias head line cs).statement.value = some (.alias d)) : d.Sound := by
  unfold readAlias at h
  dsimp only at h
  split at h
  · cases h
    exact ⟨hname, joins_readType _, isWritten_readType _⟩
  · cases h

theorem sound_of_readStatement? {directory : String} {line : Nat} {cs : List Char}
    {read : ReadStatement} {d : AliasDeclaration}
    (h : readStatement? directory line cs = some read)
    (hd : read.statement.value = some (.alias d)) : d.Sound := by
  unfold readStatement? at h
  split at h
  · simp only [Option.map_eq_some_iff, Prod.exists] at h
    obtain ⟨i, rest, -, rfl⟩ := h
    cases hd
  · simp only [Option.map_eq_some_iff, Prod.exists] at h
    obtain ⟨head, rest, hhead, rfl⟩ := h
    split at hd
    · exact sound_of_readAlias (splitHead_of_readHead? hhead) hd
    · unfold readInterface at hd
      dsimp only at hd
      split at hd <;> cases hd
    · unfold readEnum at hd
      split at hd <;> cases hd

/-! ## Files -/

/-- **The contents of every source text are sound.** -/
theorem sound_readContents (directory text : String) :
    (readContents directory text).value.Sound :=
  scanStatements_keeps (P := fun _ c => c.Sound) (fun _ h => h)
    (fun hread hst h => h.add fun _ hd => sound_of_readStatement? hread (hd ▸ hst))
    ⟨fun _ h => (nomatch h), fun _ h => (nomatch h)⟩

end FluentBuilders
