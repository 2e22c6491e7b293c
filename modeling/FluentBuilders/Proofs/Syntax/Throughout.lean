import FluentBuilders.Proofs.Syntax.Subterms

/-!
# Proofs/Syntax/Throughout — what holds of all types inside a type that is read

What the grammar asks of each form of type by itself (`Forms`) holds of every type inside a phrase,
at any depth (`Derives.throughout`).  The word after `unique` is no type of its own.
-/

namespace FluentBuilders

open Grammar

/-- The types that a type is made of, but for the word after `unique`. -/
def TypeNode.typeParts : TypeNode → List TypeNode
  | .operator .unique _ => []
  | t => t.parts

/-- **It holds throughout a type**: of the type, and of every type inside it. -/
inductive TypeNode.Throughout (P : TypeNode → Prop) : TypeNode → Prop
  | intro {t : TypeNode} (self : P t) (parts : ∀ part ∈ t.typeParts, Throughout P part) :
      Throughout P t

section

variable {P : TypeNode → Prop} {t u : TypeNode}

theorem TypeNode.Throughout.self (h : t.Throughout P) : P t := by
  cases h
  assumption

theorem TypeNode.Throughout.part (h : t.Throughout P) (hu : u ∈ t.typeParts) : u.Throughout P := by
  cases h with
  | intro _ hparts => exact hparts u hu

end

namespace Grammar

/-- **Parameters that open a parameter list**: the first has dots before it, or is no operator word. -/
def OpensParameters : List Parameter → Prop
  | [] => True
  | .mk name _ spread _ :: _ => spread = true ∨ isNameAtType name = true

/-- **What the grammar asks of each form of type by itself**, read from tokens of the kind `W`. -/
structure Forms (W : Token → Prop) (P : TypeNode → Prop) : Prop where
  reference : ∀ {name parts} (as), isNameAtType name = true → W (.word name) →
    (∀ t ∈ dottedTokens parts, W t) → P (.reference (dotted name parts) as)
  imported : ∀ (module) {name parts} (as), W (.word name) → (∀ t ∈ dottedTokens parts, W t) →
    P (.imported module (dotted name parts) as)
  query : ∀ {name parts}, W (.word name) → (∀ t ∈ dottedTokens parts, W t) →
    P (.query (dotted name parts))
  unique : ∀ {name}, W (.word name) → P (.operator .unique (.reference name []))
  string : ∀ text, P (.literal .string text)
  number : ∀ {text}, W (.number text) ∨ W (.negative text) → P (.literal .number text)
  template : ∀ {text}, W (.template text) → P (.literal .template text)
  union : ∀ {members : List TypeNode}, 2 ≤ members.length → P (.union members)
  intersection : ∀ {members : List TypeNode}, 2 ≤ members.length → P (.intersection members)
  array : ∀ element, P (.array element)
  indexed : ∀ object index, P (.indexed object index)
  operator : ∀ (op) (operand : TypeNode), op ≠ .unique → P (.operator op operand)
  tuple : ∀ {elements : List TupleElement},
    (∀ e ∈ elements, ∀ w ∈ e.name?, W (.word w) ∧ isNameAtType w = true) → P (.tuple elements)
  function : ∀ {parameters} (returns), OpensParameters parameters →
    (∀ p ∈ parameters, W (.word p.name)) → P (.function parameters returns)
  object : ∀ {members : List Member}, (∀ m ∈ members, ∀ w ∈ m.words, W (.word w)) →
    P (.object members)

/-- Throughout what a phrase is read as. -/
def Category.Throughout (W : Token → Prop) (P : TypeNode → Prop) : (c : Category) → c.Tree → Prop
  | .type, t | .union, t | .intersection, t | .operand, t | .primary, t => t.Throughout P
  | .function, f => ∃ ps r, f = .function ps r ∧
      (∀ p ∈ ps, W (.word p.name) ∧ p.type.Throughout P) ∧ r.Throughout P
  | .brackets base, t => base.Throughout P → t.Throughout P
  | .unionTail, ts | .intersectionTail, ts | .arguments, ts | .argumentList, ts =>
    ∀ t ∈ ts, t.Throughout P
  | .parameters, ps => ∀ p ∈ ps, W (.word p.name) ∧ p.type.Throughout P
  | .parameter, p => W (.word p.name) ∧ p.type.Throughout P
  | .elements, es =>
    ∀ e ∈ es, (∀ w ∈ e.name?, W (.word w) ∧ isNameAtType w = true) ∧ e.type.Throughout P
  | .element, e => (∀ w ∈ e.name?, W (.word w) ∧ isNameAtType w = true) ∧ e.type.Throughout P
  | .members, ms => ∀ m ∈ ms, (∀ w ∈ m.words, W (.word w)) ∧ ∀ t ∈ m.types, t.Throughout P
  | .member, m => (∀ w ∈ m.words, W (.word w)) ∧ ∀ t ∈ m.types, t.Throughout P
  | .ascription, t => ∀ u ∈ t, u.Throughout P

section

variable {W : Token → Prop} {P : TypeNode → Prop}

/-- **A parameter list opens** where the tokens say that one begins. -/
theorem Derives.opensParameters {xs rest ps next} (h : Derives .parameters xs ps next)
    (hstarts : startsParameters (xs ++ rest) = true) : OpensParameters ps := by
  have hfirst : ∀ {ys p after next}, Derives .parameter ys p next →
      startsParameters (ys ++ after) = true → OpensParameters [p] := by
    intro ys p after next hp hstarts
    cases hp with
    | parameter name optional spread =>
      cases spread with
      | true => exact .inl rfl
      | false => cases optional <;> exact .inr hstarts
  cases h with
  | noParameters => trivial
  | lastParameter hp =>
    rw [List.append_assoc] at hstarts
    exact hfirst hp hstarts
  | @moreParameters _ p _ _ _ hp _ =>
    rw [List.append_assoc] at hstarts
    obtain ⟨name, optional, spread, t⟩ := p
    exact hfirst hp hstarts

theorem throughout_groupOf (make : List TypeNode → TypeNode)
    (hmake : ∀ {ts : List TypeNode}, 2 ≤ ts.length → P (make ts)) (hparts : ∀ ts, (make ts).typeParts = ts)
    {t : TypeNode} {ts : List TypeNode} (ht : t.Throughout P) (hts : ∀ u ∈ ts, u.Throughout P) :
    (groupOf make (t :: ts)).Throughout P := by
  cases ts with
  | nil => exact ht
  | cons u ts =>
    rw [groupOf]
    · refine .intro (hmake (by simp)) ?_
      rw [hparts]
      exact List.forall_mem_cons.2 ⟨ht, hts⟩
    · simp

/-- **What the grammar asks of each form holds throughout** what a phrase is read as. -/
theorem Derives.throughout (hforms : Forms W P) {c : Category} {ts : List Token} {v : c.Tree}
    {next : Option Token} (h : Derives c ts v next) (hts : ∀ t ∈ ts, W t) : c.Throughout W P v := by
  induction h with
  | ofFunction starts hf ih =>
    obtain ⟨ps, r, rfl, hps, hr⟩ := ih (List.forall_mem_cons.1 hts).2
    have hopens : OpensParameters ps := by
      cases hf with
      | arrow hp _ => exact hp.opensParameters starts
    refine .intro (hforms.function r hopens fun p hp => (hps p hp).1) ?_
    exact List.forall_mem_append.2 ⟨List.forall_mem_map.2 fun p hp => (hps p hp).2,
      List.forall_mem_singleton.2 hr⟩
  | ofUnion _ ih => exact ih hts
  | arrow _ _ ihp ihr =>
    simp only [List.forall_mem_append, List.forall_mem_cons] at hts
    exact ⟨_, _, rfl, ihp hts.1, ihr hts.2.2⟩
  | noParameters => exact List.forall_mem_nil _
  | lastParameter _ ih => exact List.forall_mem_singleton.2 (ih (List.forall_mem_append.1 hts).1)
  | moreParameters _ _ ih ihs =>
    simp only [List.forall_mem_append, List.forall_mem_cons] at hts
    exact List.forall_mem_cons.2 ⟨ih hts.1, ihs hts.2.2⟩
  | parameter name optional spread _ ih =>
    simp only [List.forall_mem_append, List.forall_mem_cons] at hts
    exact ⟨hts.2.1, ih hts.2.2.2.2⟩
  | unionOf front _ _ ih ihs =>
    simp only [List.forall_mem_append] at hts
    exact throughout_groupOf .union hforms.union (fun _ => rfl) (ih hts.2.1) (ihs hts.2.2)
  | intersectionOf front _ _ ih ihs =>
    simp only [List.forall_mem_append] at hts
    exact throughout_groupOf .intersection hforms.intersection (fun _ => rfl) (ih hts.2.1)
      (ihs hts.2.2)
  | unionEnd | intersectionEnd | noArguments => exact List.forall_mem_nil _
  | unionMore _ _ ih ihs | intersectionMore _ _ ih ihs =>
    simp only [List.forall_mem_append, List.forall_mem_cons] at hts
    exact List.forall_mem_cons.2 ⟨ih hts.2.1, ihs hts.2.2⟩
  | keyofOf _ ih | readonlyOf _ ih =>
    exact .intro (hforms.operator _ _ (by decide))
      (List.forall_mem_singleton.2 (ih (List.forall_mem_cons.1 hts).2))
  | uniqueOf name =>
    simp only [List.forall_mem_cons] at hts
    exact .intro (hforms.unique hts.2.1) (List.forall_mem_nil _)
  | bracketed _ _ ih ihs =>
    exact ihs (List.forall_mem_append.1 hts).2 (ih (List.forall_mem_append.1 hts).1)
  | bracketsEnd => exact id
  | arrayOf _ ih =>
    simp only [List.forall_mem_cons] at hts
    exact fun hbase => ih hts.2.2 (.intro (hforms.array _) (List.forall_mem_singleton.2 hbase))
  | indexedBy _ _ ih ihs =>
    simp only [List.forall_mem_append, List.forall_mem_cons] at hts
    exact fun hbase => ihs hts.2.2.2 (.intro (hforms.indexed _ _)
      (List.forall_mem_cons.2 ⟨hbase, List.forall_mem_singleton.2 (ih hts.2.1)⟩))
  | parens _ ih =>
    simp only [List.forall_mem_append, List.forall_mem_cons] at hts
    exact ih hts.2.1
  | object _ ih =>
    have hm := ih (List.forall_mem_cons.1 hts).2
    exact .intro (hforms.object fun m h => (hm m h).1)
      (List.forall_mem_flatMap.2 fun m h => (hm m h).2)
  | tuple _ ih =>
    have he := ih (List.forall_mem_cons.1 hts).2
    exact .intro (hforms.tuple fun e h => (he e h).1) (List.forall_mem_map.2 fun e h => (he e h).2)
  | string => exact .intro (hforms.string _) (List.forall_mem_nil _)
  | number => exact .intro (hforms.number (.inl (hts _ List.mem_cons_self))) (List.forall_mem_nil _)
  | negative => exact .intro (hforms.number (.inr (hts _ List.mem_cons_self))) (List.forall_mem_nil _)
  | template => exact .intro (hforms.template (hts _ List.mem_cons_self)) (List.forall_mem_nil _)
  | query =>
    simp only [List.forall_mem_cons] at hts
    exact .intro (hforms.query hts.2.1 hts.2.2) (List.forall_mem_nil _)
  | imported _ _ _ _ _ ih =>
    simp only [List.forall_mem_append, List.forall_mem_cons] at hts
    obtain ⟨-, -, -, -, -, hname, hparts, has⟩ := hts
    exact .intro (hforms.imported _ _ hname hparts) (ih has)
  | reference _ _ hn _ _ ih =>
    simp only [List.forall_mem_append, List.forall_mem_cons] at hts
    exact .intro (hforms.reference _ hn hts.1 hts.2.1) (ih hts.2.2)
  | someArguments _ ih => exact ih (List.forall_mem_cons.1 hts).2
  | lastArgument _ ih => exact List.forall_mem_singleton.2 (ih (List.forall_mem_append.1 hts).1)
  | moreArguments _ _ ih ihs =>
    simp only [List.forall_mem_append, List.forall_mem_cons] at hts
    exact List.forall_mem_cons.2 ⟨ih hts.1, ihs hts.2.2⟩
  | noElements => exact List.forall_mem_nil _
  | lastElement _ ih => exact List.forall_mem_singleton.2 (ih (List.forall_mem_append.1 hts).1)
  | moreElements _ _ ih ihs =>
    simp only [List.forall_mem_append, List.forall_mem_cons] at hts
    exact List.forall_mem_cons.2 ⟨ih hts.1, ihs hts.2.2⟩
  | restElement _ ih => exact ⟨nofun, ih (List.forall_mem_cons.1 hts).2⟩
  | namedElement name optional hn _ ih =>
    simp only [List.forall_mem_append, List.forall_mem_cons] at hts
    refine ⟨?_, ih hts.2.2.2⟩
    rintro w ⟨⟩
    exact ⟨hts.1, hn⟩
  | plainElement _ _ ih => exact ⟨nofun, ih hts⟩
  | noMembers => exact List.forall_mem_nil _
  | moreMembers sep _ _ _ ih ihs =>
    simp only [List.forall_mem_append] at hts
    exact List.forall_mem_cons.2 ⟨ih hts.1, ihs hts.2.2⟩
  | index key readonly _ _ ihk ihv =>
    simp only [List.forall_mem_append, List.forall_mem_cons] at hts
    obtain ⟨-, -, hkey, -, hk, -, -, hv⟩ := hts
    exact ⟨List.forall_mem_singleton.2 hkey,
      List.forall_mem_cons.2 ⟨ihk hk, List.forall_mem_singleton.2 (ihv hv)⟩⟩
  | method name optional _ _ _ _ ihp ihr =>
    simp only [List.forall_mem_append, List.forall_mem_cons] at hts
    obtain ⟨-, -, -, hps, hr⟩ := hts
    have hp := ihp hps
    exact ⟨List.forall_mem_map.2 fun p h => (hp p h).1,
      List.forall_mem_append.2 ⟨List.forall_mem_map.2 fun p h => (hp p h).2,
        fun t ht => ihr hr t (Option.mem_toList.1 ht)⟩⟩
  | property name optional readonly _ _ _ _ _ ih =>
    simp only [List.forall_mem_append] at hts
    exact ⟨List.forall_mem_nil _, fun t ht => ih hts.2.2.2 t (Option.mem_toList.1 ht)⟩
  | noAscription => exact fun _ => nofun
  | someAscription _ ih =>
    rintro t ⟨⟩
    exact ih (List.forall_mem_cons.1 hts).2

end

end Grammar

end FluentBuilders
