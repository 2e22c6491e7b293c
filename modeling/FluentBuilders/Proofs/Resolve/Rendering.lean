import FluentBuilders.Proofs.Resolve.Alike
import FluentBuilders.Proofs.Resolve.Leaves
import FluentBuilders.Proofs.Syntax.Equality

/-!
# Proofs/Resolve/Rendering — the text and the kind of a type that has nothing left to look up

`TypeNode.rendered` writes a type out as it stands: no name is followed, no property is looked up,
no union is put in order.  So rendering is what resolution does once it has done everything else,
and the type to be written is itself a type expression.
-/

namespace FluentBuilders

mutual

/-- **A type written out as it stands**: its text and its kind. -/
def TypeNode.rendered : TypeNode → ResolvedType
  | .reference name arguments =>
    match ResolvedType.intrinsics.lookup name with
    | some types => single types
    | none => .plain (name ++ argumentsText ((renderedTypes arguments).map ([·]))) .object
  | .imported module name arguments =>
    .plain ("import(\"" ++ module ++ "\")." ++ name ++
      argumentsText ((renderedTypes arguments).map ([·]))) .object
  | .literal kind text => Literal.type (kind, text)
  | .union members =>
    .plain (String.intercalate " | " ((renderedTypes members).map (·.text))) .union
  | .intersection members =>
    .plain (String.intercalate " & " ((renderedTypes members).map (·.operandText))) .intersection
  | .array element => .array element.rendered
  | .indexed object index =>
    .plain (object.rendered.text ++ "[" ++ index.rendered.text ++ "]") .raw
  | .tuple elements =>
    .plain ("[" ++ String.intercalate ", " (renderedElements elements) ++ "]") .tuple
  | .function parameters returns =>
    .plain (signatureText (renderedParameters parameters) ++ " => " ++ returns.rendered.text)
      .function
  | .operator .keyof operand => .plain ("keyof " ++ operand.rendered.operandText) .raw
  | .operator .unique _ => .plain "unique symbol" .symbol
  | .operator .readonly operand => .plain ("readonly " ++ operand.rendered.text) .object
  | .query name => .plain ("typeof " ++ name) .raw
  | .object members => .plain (bodyText (renderedMembers members)) .object
  | .raw text => .plain text .raw

/-- Types in a row, written out. -/
def renderedTypes : List TypeNode → List ResolvedType
  | [] => []
  | t :: ts => t.rendered :: renderedTypes ts

/-- The text of a type that may be missing; a missing one is `any`. -/
def renderedOptional : Option TypeNode → String
  | none => "any"
  | some t => t.rendered.text

/-- Tuple elements, written out. -/
def renderedElements : List TupleElement → List String
  | [] => []
  | e :: es => e.rendered :: renderedElements es

/-- A tuple element, written out. -/
def TupleElement.rendered : TupleElement → String
  | .plain t => t.rendered.text
  | .named name optional t => name ++ optionalSuffix optional ++ ": " ++ t.rendered.text
  | .rest t => "..." ++ t.rendered.text

/-- Parameters, written out. -/
def renderedParameters : List Parameter → List String
  | [] => []
  | p :: ps => p.rendered :: renderedParameters ps

/-- A parameter, written out. -/
def Parameter.rendered : Parameter → String
  | .mk name optional rest t => parameterText name optional rest t.rendered.text

/-- Members, written out. -/
def renderedMembers : List Member → List String
  | [] => []
  | m :: ms => m.rendered :: renderedMembers ms

/-- A member, written out with its semicolon. -/
def Member.rendered : Member → String
  | .property name optional readonly t =>
    readonlyWord readonly ++ propertyKey name ++ optionalSuffix optional ++ ": " ++
      renderedOptional t ++ ";"
  | .method name optional parameters returns =>
    propertyKey name ++ optionalSuffix optional ++ signatureText (renderedParameters parameters) ++
      ": " ++ renderedOptional returns ++ ";"
  | .index key readonly keyType valueType =>
    readonlyWord readonly ++ "[" ++ key ++ ": " ++ keyType.rendered.text ++ "]: " ++
      valueType.rendered.text ++ ";"

end

@[simp] theorem renderedTypes_eq (ts : List TypeNode) :
    renderedTypes ts = ts.map TypeNode.rendered := by
  induction ts with
  | nil => rfl
  | cons t ts ih => rw [renderedTypes, ih, List.map_cons]

@[simp] theorem renderedElements_eq (es : List TupleElement) :
    renderedElements es = es.map TupleElement.rendered := by
  induction es with
  | nil => rfl
  | cons e es ih => rw [renderedElements, ih, List.map_cons]

@[simp] theorem renderedParameters_eq (ps : List Parameter) :
    renderedParameters ps = ps.map Parameter.rendered := by
  induction ps with
  | nil => rfl
  | cons p ps ih => rw [renderedParameters, ih, List.map_cons]

@[simp] theorem renderedMembers_eq (ms : List Member) :
    renderedMembers ms = ms.map Member.rendered := by
  induction ms with
  | nil => rfl
  | cons m ms ih => rw [renderedMembers, ih, List.map_cons]

/-- An intrinsic type is written with its name. -/
theorem text_single_of_lookup {name : String} {types : List ResolvedType}
    (h : ResolvedType.intrinsics.lookup name = some types) : (single types).text = name := by
  have hall : ∀ p ∈ ResolvedType.intrinsics, (single p.2).text = p.1 := by decide
  exact hall _ (mem_of_lookup h)

/-- **The kinds that absorb a union** are those of two types only. -/
theorem TypeNode.rendered_of_absorbing {t : TypeNode} :
    (t.rendered.kind = .any → t.rendered = .any) ∧
      (t.rendered.kind = .unknown → t.rendered = .unknown) := by
  have hall : ∀ p ∈ ResolvedType.intrinsics, ((single p.2).kind = .any → single p.2 = .any) ∧
      ((single p.2).kind = .unknown → single p.2 = .unknown) := by decide
  cases t with
  | reference name arguments =>
    rw [TypeNode.rendered]
    split
    · next types h =>
      exact hall _ (mem_of_lookup h)
    · exact ⟨nofun, nofun⟩
  | literal kind text => cases kind <;> exact ⟨nofun, nofun⟩
  | operator op operand => cases op <;> exact ⟨nofun, nofun⟩
  | _ => exact ⟨nofun, nofun⟩

/-! ## Unions -/

/-- The types that a type is written as a union of. -/
def TypeNode.unionMembers : TypeNode → List TypeNode
  | .union (m :: ms) => m :: ms
  | t => [t]

/-- The types with `boolean` in the place of `false`, and without `true`. -/
def joinedBooleans (ts : List TypeNode) : List TypeNode :=
  (ts.filter (·.rendered.text ≠ "true")).map fun t =>
    if t.rendered.text = "false" then .reference "boolean" [] else t

/-- **One type** made of constituents. -/
def oneType (ts : List TypeNode) : TypeNode :=
  match ts with
  | [] => .reference "never" []
  | [t] => t
  | ts =>
    let texts := ts.map (·.rendered.text)
    if texts.contains "false" && texts.contains "true" then
      if texts.length = 2 then .reference "boolean" []
      else .union ((joinedBooleans ts).flatMap TypeNode.unionMembers)
    else .union (ts.flatMap TypeNode.unionMembers)

/-- **The normal form of constituents**: those whose texts and kinds are in the normal form. -/
def Scope.normalTypes (s : Scope) (ts : List TypeNode) : List TypeNode :=
  (s.normalForm (ts.map TypeNode.rendered)).filterMap fun t => ts.find? (·.rendered = t)

theorem intercalate_append {separator : String} {xs ys : List String} (hxs : xs ≠ [])
    (hys : ys ≠ []) : String.intercalate separator (xs ++ ys) =
      String.intercalate separator xs ++ separator ++ String.intercalate separator ys := by
  induction xs with
  | nil => exact absurd rfl hxs
  | cons x xs ih =>
    cases xs with
    | nil =>
      obtain ⟨y, ys, rfl⟩ := List.exists_cons_of_ne_nil hys
      rw [List.singleton_append, String.intercalate_cons_cons]
      simp
    | cons z xs =>
      rw [List.cons_append, List.cons_append, String.intercalate_cons_cons, ← List.cons_append,
        ih (by simp), String.intercalate_cons_cons]
      simp only [String.append_assoc]

theorem TypeNode.unionMembers_ne_nil (t : TypeNode) : t.unionMembers ≠ [] := by
  unfold unionMembers
  split <;> simp

/-- The members of a union are written as the union is. -/
theorem TypeNode.intercalate_unionMembers (t : TypeNode) :
    String.intercalate " | " (t.unionMembers.map (·.rendered.text)) = t.rendered.text := by
  unfold unionMembers
  split
  · rw [TypeNode.rendered, renderedTypes_eq, List.map_map]
    rfl
  · exact String.intercalate_singleton

/-- **A union inside a union** is written without parentheses. -/
theorem intercalate_flatMap_unionMembers (ts : List TypeNode) :
    String.intercalate " | " ((ts.flatMap TypeNode.unionMembers).map (·.rendered.text)) =
      String.intercalate " | " (ts.map (·.rendered.text)) := by
  induction ts with
  | nil => rfl
  | cons t ts ih =>
    rw [List.flatMap_cons, List.map_append, List.map_cons]
    cases ts with
    | nil => simp [t.intercalate_unionMembers]
    | cons u ts =>
      have hrest : ((u :: ts).flatMap TypeNode.unionMembers).map (·.rendered.text) ≠ [] := by
        simp [u.unionMembers_ne_nil]
      rw [intercalate_append (by simpa using t.unionMembers_ne_nil) hrest, ih,
        t.intercalate_unionMembers, List.map_cons, String.intercalate_cons_cons]

theorem texts_joinedBooleans (ts : List TypeNode) :
    (joinedBooleans ts).map (·.rendered.text) = joinBooleans (ts.map (·.rendered.text)) := by
  unfold joinedBooleans joinBooleans
  rw [List.map_map, List.filter_map, List.map_map]
  refine List.map_congr_left fun t _ => ?_
  simp only [Function.comp_apply]
  split
  · rfl
  · rfl

/-- **One type is written as the one type of what its constituents are written as.** -/
theorem rendered_oneType (ts : List TypeNode) :
    (oneType ts).rendered = single (ts.map TypeNode.rendered) := by
  match ts with
  | [] => rfl
  | [t] => rfl
  | t :: u :: ts =>
    rw [oneType, single]
    · simp only [List.map_map, Function.comp_def, List.length_map]
      split
      · split
        · rfl
        · rw [TypeNode.rendered, renderedTypes_eq, List.map_map]
          simp only [Function.comp_def]
          rw [intercalate_flatMap_unionMembers, texts_joinedBooleans]
      · rw [TypeNode.rendered, renderedTypes_eq, List.map_map]
        simp only [Function.comp_def]
        rw [intercalate_flatMap_unionMembers]
    all_goals simp

theorem mem_of_mem_normalTypes {s : Scope} {ts : List TypeNode} {t : TypeNode}
    (h : t ∈ s.normalTypes ts) : t ∈ ts := by
  obtain ⟨u, -, hfound⟩ := List.mem_filterMap.1 h
  exact List.mem_of_find?_eq_some hfound

theorem map_filterMap_find? {α β : Type} [DecidableEq β] {f : α → β} {xs : List α} {ys : List β}
    (h : ∀ y ∈ ys, y ∈ xs.map f) : (ys.filterMap fun y => xs.find? (f · = y)).map f = ys := by
  induction ys with
  | nil => rfl
  | cons y ys ih =>
    obtain ⟨hy, hys⟩ := List.forall_mem_cons.1 h
    obtain ⟨x, hx, hfx⟩ := List.mem_map.1 hy
    cases hfound : xs.find? (f · = y) with
    | none => exact absurd hfx (by simpa using List.find?_eq_none.1 hfound x hx)
    | some z =>
      have hz : f z = y := by simpa using List.find?_some hfound
      rw [List.filterMap_cons, hfound, List.map_cons, ih hys, hz]

/-- **The normal form commutes with writing types out.** -/
theorem map_rendered_normalTypes (s : Scope) (ts : List TypeNode) :
    (s.normalTypes ts).map TypeNode.rendered = s.normalForm (ts.map TypeNode.rendered) := by
  refine map_filterMap_find? fun t ht => ?_
  obtain ht | ⟨rfl, u, hu, hkind⟩ | ⟨rfl, u, hu, hkind⟩ := mem_of_mem_normalize ht
  · exact ht
  · obtain ⟨v, -, rfl⟩ := List.mem_map.1 hu
    rwa [TypeNode.rendered_of_absorbing.1 hkind] at hu
  · obtain ⟨v, -, rfl⟩ := List.mem_map.1 hu
    rwa [TypeNode.rendered_of_absorbing.2 hkind] at hu

end FluentBuilders
