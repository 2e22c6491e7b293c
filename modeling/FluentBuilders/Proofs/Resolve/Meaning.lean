import FluentBuilders.Proofs.Resolve.Plain
import FluentBuilders.Proofs.Resolve.Rendering
import Mathlib.Algebra.Ring.Nat

/-!
# Proofs/Resolve/Meaning — what a type comes to where nothing is declared

In a file that declares and imports nothing, resolution is a recursion over the type: no step leads
anywhere but into a part of it.  `TypeNode.meaning` is this recursion, with type expressions in the
place of texts, so what a type is shown as is a type expression again (`TypeNode.shown`).
-/

namespace FluentBuilders

/-- **What a type comes to**: the types it is a union of, and its properties when it is an object
type. -/
structure Meaning where
  constituents : List TypeNode
  properties : Option (List (String × Meaning))

namespace Meaning

/-- **The one type** that a type is shown as. -/
def shown (s : Scope) (m : Meaning) : TypeNode := oneType (s.normalTypes m.constituents)

/-- The property that an index names. -/
def property? (m : Meaning) : TypeNode → Option Meaning
  | .literal kind text =>
    if kind = .template then none
    else ((m.properties.getD []).find? (·.1 == text)).map (·.2)
  | _ => none

/-- The properties of `more` whose names are not in `properties`, added at its end one by one. -/
def merge (properties : List (String × Meaning)) :
    List (String × Meaning) → List (String × Meaning)
  | [] => properties
  | p :: more =>
    if properties.any (·.1 == p.1) then merge properties more else merge (properties ++ [p]) more

/-- The properties of several types, added to those before them. -/
def mergeAll (properties : List (String × Meaning)) : List Meaning → List (String × Meaning)
  | [] => properties
  | m :: ms => mergeAll (merge properties (m.properties.getD [])) ms

end Meaning

/-- The module that is shown for a module as it is written. -/
def Scope.moduleShown (s : Scope) (module : String) : String :=
  if resolveModule module s.directory = "" then s.modulePath else resolveModule module s.directory

/-- What a name with arguments is shown as when nothing is declared. -/
def namedType (name : String) (arguments : List TypeNode) : TypeNode :=
  match if name = "Array" ∨ name = "ReadonlyArray" then arguments else [] with
  | [element] => if name = "Array" then .array element else .operator .readonly (.array element)
  | _ => .reference name arguments

/-- A read-only array or tuple; `readonly` says nothing of any other type. -/
def readonlyOf (t : TypeNode) : TypeNode :=
  if t.rendered.kind = .array ∨ t.rendered.kind = .tuple then .operator .readonly t else t

/-- The constituents of a member; an optional one can be `undefined` as well. -/
def Scope.memberConstituents (s : Scope) (optional : Bool) (ts : List TypeNode) : List TypeNode :=
  s.normalTypes (if optional && s.strictNullChecks then .reference "undefined" [] :: ts else ts)

mutual

/-- **What a type comes to** where nothing is declared. -/
def TypeNode.meaning (s : Scope) : TypeNode → Meaning
  | .reference name arguments =>
    match ResolvedType.intrinsics.lookup name with
    | some types => ⟨types.map fun t => .reference t.text [], none⟩
    | none => ⟨[namedType name ((meanings s arguments).map (·.shown s))], none⟩
  | .imported module name arguments =>
    ⟨[.imported (s.moduleShown module) name ((meanings s arguments).map (·.shown s))], none⟩
  | .literal kind text => ⟨[.literal kind text], none⟩
  | .union members => ⟨(meanings s members).flatMap (·.constituents), none⟩
  | .intersection members =>
    ⟨[.intersection ((meanings s members).map (·.shown s))],
      some (Meaning.mergeAll [] (meanings s members))⟩
  | .array element => ⟨[.array ((element.meaning s).shown s)], none⟩
  | .indexed object index =>
    ((object.meaning s).property? index).getD
      ⟨[.indexed ((object.meaning s).shown s) ((index.meaning s).shown s)], none⟩
  | .tuple elements => ⟨[.tuple (shownElements s elements)], none⟩
  | .function parameters returns =>
    ⟨[.function (shownParameters s parameters) ((returns.meaning s).shown s)], none⟩
  | .operator .keyof operand =>
    match (operand.meaning s).properties with
    | some properties => ⟨properties.map fun p => .literal .string p.1, none⟩
    | none => ⟨[.operator .keyof ((operand.meaning s).shown s)], none⟩
  | .operator .unique _ => ⟨[.operator .unique (.reference "symbol" [])], none⟩
  | .operator .readonly operand => ⟨[readonlyOf ((operand.meaning s).shown s)], none⟩
  | .query name => ⟨[.query name], none⟩
  | .object members => ⟨[.object (shownMembers s members)], some (memberMeanings s members)⟩
  | .raw text => ⟨[.raw text], none⟩

/-- What types in a row come to. -/
def meanings (s : Scope) : List TypeNode → List Meaning
  | [] => []
  | t :: ts => t.meaning s :: meanings s ts

/-- A type that may be missing, as it is shown; a missing one is `any`. -/
def shownOptional (s : Scope) : Option TypeNode → TypeNode
  | none => .reference "any" []
  | some t => (t.meaning s).shown s

/-- Tuple elements as they are shown. -/
def shownElements (s : Scope) : List TupleElement → List TupleElement
  | [] => []
  | e :: es => e.shown s :: shownElements s es

/-- A tuple element as it is shown. -/
def TupleElement.shown (s : Scope) : TupleElement → TupleElement
  | .plain t => .plain ((t.meaning s).shown s)
  | .named name optional t => .named name optional ((t.meaning s).shown s)
  | .rest t => .rest ((t.meaning s).shown s)

/-- Parameters as they are shown. -/
def shownParameters (s : Scope) : List Parameter → List Parameter
  | [] => []
  | p :: ps => p.shown s :: shownParameters s ps

/-- A parameter as it is shown. -/
def Parameter.shown (s : Scope) : Parameter → Parameter
  | .mk name optional rest t => .mk name optional rest ((t.meaning s).shown s)

/-- Members as they are shown. -/
def shownMembers (s : Scope) : List Member → List Member
  | [] => []
  | m :: ms => m.shown s :: shownMembers s ms

/-- A member as it is shown. -/
def Member.shown (s : Scope) : Member → Member
  | .property name optional readonly type =>
    .property name optional readonly
      (some (oneType (s.memberConstituents optional (constituentsOfOptional s type))))
  | .method name optional parameters returns =>
    .method name optional (shownParameters s parameters) (some (shownOptional s returns))
  | .index key readonly keyType valueType =>
    .index key readonly ((keyType.meaning s).shown s) ((valueType.meaning s).shown s)

/-- What the type of a member comes to. -/
def Member.meaning (s : Scope) : Member → Meaning
  | .property _ optional _ type =>
    ⟨s.memberConstituents optional (constituentsOfOptional s type), propertiesOfOptional s type⟩
  | .method _ optional parameters returns =>
    ⟨s.memberConstituents optional
      [.function (shownParameters s parameters) (shownOptional s returns)], none⟩
  | .index .. => ⟨[], none⟩

/-- The constituents of a type that may be missing. -/
def constituentsOfOptional (s : Scope) : Option TypeNode → List TypeNode
  | none => [.reference "any" []]
  | some t => (t.meaning s).constituents

/-- The properties of a type that may be missing. -/
def propertiesOfOptional (s : Scope) : Option TypeNode → Option (List (String × Meaning))
  | none => none
  | some t => (t.meaning s).properties

/-- What the members with names come to. -/
def memberMeanings (s : Scope) : List Member → List (String × Meaning)
  | [] => []
  | m :: ms =>
    match m.name? with
    | some name => (name, m.meaning s) :: memberMeanings s ms
    | none => memberMeanings s ms

end

/-- **What a type is shown as** where nothing is declared. -/
def TypeNode.shown (s : Scope) (t : TypeNode) : TypeNode := (t.meaning s).shown s

section

variable (s : Scope)

@[simp] theorem meanings_eq (ts : List TypeNode) : meanings s ts = ts.map (·.meaning s) := by
  induction ts with
  | nil => rfl
  | cons t ts ih => rw [meanings, ih, List.map_cons]

@[simp] theorem shownElements_eq (es : List TupleElement) :
    shownElements s es = es.map (·.shown s) := by
  induction es with
  | nil => rfl
  | cons e es ih => rw [shownElements, ih, List.map_cons]

@[simp] theorem shownParameters_eq (ps : List Parameter) :
    shownParameters s ps = ps.map (·.shown s) := by
  induction ps with
  | nil => rfl
  | cons p ps ih => rw [shownParameters, ih, List.map_cons]

@[simp] theorem shownMembers_eq (ms : List Member) : shownMembers s ms = ms.map (·.shown s) := by
  induction ms with
  | nil => rfl
  | cons m ms ih => rw [shownMembers, ih, List.map_cons]

@[simp] theorem memberMeanings_eq (ms : List Member) :
    memberMeanings s ms = ms.filterMap fun m => m.name?.map fun name => (name, m.meaning s) := by
  induction ms with
  | nil => rfl
  | cons m ms ih =>
    rw [memberMeanings, ih, List.filterMap_cons]
    cases m.name? <;> rfl

end

/-! ## Texts of meanings -/

section

variable {s : Scope}

theorem rendered_shown (m : Meaning) :
    (m.shown s).rendered = single (s.normalForm (m.constituents.map TypeNode.rendered)) := by
  rw [Meaning.shown, rendered_oneType, map_rendered_normalTypes]

theorem map_rendered_memberConstituents (optional : Bool) (ts : List TypeNode) :
    (s.memberConstituents optional ts).map TypeNode.rendered =
      s.memberForm optional (ts.map TypeNode.rendered) := by
  rw [Scope.memberConstituents, map_rendered_normalTypes, Scope.memberForm]
  split <;> rfl

theorem argumentsText_congr {xs ys : List (List ResolvedType)}
    (h : xs.map (fun types => (single types).text) = ys.map fun types => (single types).text) :
    argumentsText xs = argumentsText ys := by
  unfold argumentsText
  cases xs with
  | nil =>
    rw [List.map_nil, eq_comm, List.map_eq_nil_iff] at h
    rw [h]
  | cons x xs =>
    cases ys with
    | nil => cases h
    | cons y ys => simp only [h]

/-- Arguments are written as they are shown. -/
theorem argumentsText_shown (ts : List TypeNode) :
    argumentsText (ts.map fun t => s.normalForm ((t.meaning s).constituents.map TypeNode.rendered)) =
      argumentsText ((ts.map (·.shown s)).map ([·.rendered])) := by
  refine argumentsText_congr ?_
  simp only [List.map_map]
  refine List.map_congr_left fun t _ => ?_
  exact congrArg ResolvedType.text (rendered_shown _).symm

theorem rendered_readonlyOf (t : TypeNode) : (readonlyOf t).rendered = readonlyType t.rendered := by
  unfold readonlyOf readonlyType
  split <;> rfl

theorem rendered_namedType {name : String} (hname : ResolvedType.intrinsics.lookup name = none)
    (ts : List TypeNode) :
    (namedType name ts).rendered =
      foreignType name (ts.map ([·.rendered])) (ts.map TypeNode.rendered) := by
  have hself : (TypeNode.reference name ts).rendered =
      .plain (name ++ argumentsText (ts.map ([·.rendered]))) .object := by
    rw [TypeNode.rendered, hname, renderedTypes_eq, List.map_map]
    rfl
  unfold namedType foreignType
  by_cases harray : name = "Array" ∨ name = "ReadonlyArray"
  · simp only [if_pos harray]
    rcases ts with _ | ⟨t, _ | ⟨u, ts⟩⟩
    · exact hself
    · simp only [List.map_cons, List.map_nil]
      split
      · rfl
      · rw [TypeNode.rendered, TypeNode.rendered, ResolvedType.readonlyArray, ResolvedType.array,
          ResolvedType.text, String.append_assoc]
    · exact hself
  · simpa only [if_neg harray] using hself

theorem rendered_intrinsic {name : String} {types : List ResolvedType}
    (h : ResolvedType.intrinsics.lookup name = some types) :
    (types.map fun t => TypeNode.reference t.text []).map TypeNode.rendered = types := by
  have hall : ∀ p ∈ ResolvedType.intrinsics,
      (p.2.map fun t => TypeNode.reference t.text []).map TypeNode.rendered = p.2 := by decide
  exact hall _ (mem_of_lookup h)

end

/-! ## Properties put together -/

namespace Meaning

variable {properties more : List (String × Meaning)} {ms : List Meaning} {p : String × Meaning}

theorem mem_of_mem_merge (h : p ∈ merge properties more) : p ∈ properties ∨ p ∈ more := by
  induction more generalizing properties with
  | nil => exact .inl h
  | cons q more ih =>
    rw [merge] at h
    split at h
    · exact (ih h).imp_right (List.mem_cons_of_mem q)
    · obtain h | h := ih h
      · obtain h | h := List.mem_append.1 h
        · exact .inl h
        · exact .inr (List.mem_singleton.1 h ▸ List.mem_cons_self)
      · exact .inr (List.mem_cons_of_mem q h)

/-- **Putting properties together makes none.** -/
theorem mem_of_mem_mergeAll (h : p ∈ mergeAll properties ms) :
    p ∈ properties ∨ ∃ m ∈ ms, p ∈ m.properties.getD [] := by
  induction ms generalizing properties with
  | nil => exact .inl h
  | cons m ms ih =>
    obtain h | ⟨n, hn, h⟩ := ih h
    · exact (mem_of_mem_merge h).imp_right fun h => ⟨m, List.mem_cons_self, h⟩
    · exact .inr ⟨n, List.mem_cons_of_mem m hn, h⟩

theorem length_merge_le : (merge properties more).length ≤ properties.length + more.length := by
  induction more generalizing properties with
  | nil => exact Nat.le_refl _
  | cons q more ih =>
    rw [merge]
    split
    · exact ih.trans (Nat.add_le_add_left (Nat.le_succ _) _)
    · refine ih.trans ?_
      rw [List.length_append, List.length_singleton, List.length_cons]
      omega

theorem length_mergeAll_le : (mergeAll properties ms).length ≤
    properties.length + (ms.map fun m => (m.properties.getD []).length).sum := by
  induction ms generalizing properties with
  | nil => exact Nat.le_refl _
  | cons m ms ih =>
    have := @length_merge_le properties (m.properties.getD [])
    rw [mergeAll, List.map_cons, List.sum_cons]
    exact ih.trans (by omega)

/-- What an index names is one of the properties. -/
theorem exists_of_property? {m found : Meaning} {index : TypeNode}
    (h : m.property? index = some found) : ∃ p ∈ m.properties.getD [], p.2 = found := by
  unfold property? at h
  split at h
  · split at h
    · cases h
    · obtain ⟨p, hp, hfound⟩ := Option.map_eq_some_iff.1 h
      exact ⟨p, List.mem_of_find?_eq_some hp, hfound⟩
  · cases h

end Meaning

end FluentBuilders
