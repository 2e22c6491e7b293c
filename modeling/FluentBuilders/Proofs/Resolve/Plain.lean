import FluentBuilders.Proofs.Resolve.Alike
import FluentBuilders.Proofs.Resolve.Leaves

/-!
# Proofs/Resolve/Plain — types that lead to no declaration

A **plain** type is built from literals, intrinsic types, bound parameters and names that the file
does not know.  Its constituents tell by their text whether they are `null` or `undefined`, and as
one type it is what its constituents make (`resolve_of_collect`).
-/

namespace FluentBuilders

/-! ## Plain types -/

instance : DecidablePred Literal.IsWritten := fun (kind, text) =>
  match kind with
  | .string => isTrue trivial
  | .number =>
    match h : text.toList.head? with
    | none => isFalse fun ⟨c, hc, _⟩ => by rw [h] at hc; cases hc
    | some c =>
      if hc : Text.isDecimalDigit c = true ∨ c = '-' then isTrue ⟨c, h, hc⟩
      else isFalse fun ⟨d, hd, hw⟩ => by rw [h] at hd; cases hd; exact hc hw
  | .template => inferInstanceAs (Decidable (_ = _))

/-- **A name that the file neither declares nor imports**, nor the name before its first dot. -/
def Contents.isForeign (c : Contents) (name : String) : Bool :=
  (c.find? (splitHead name).1).isNone && (c.imported? (splitHead name).1).isNone &&
    (c.namespaceModule? (splitHead name).1).isNone

mutual

/-- **A plain type**: built from literals, intrinsic types, parameters that take no arguments, and
names the file does not know, by everything but the operators that look properties up. -/
def TypeNode.isPlain (c : Contents) (parameters : List String) : TypeNode → Bool
  | .reference name arguments =>
    if name ∈ parameters then arguments.isEmpty
    else ((ResolvedType.intrinsics.lookup name).isSome || c.isForeign name) &&
      arePlain c parameters arguments
  | .literal kind text => decide (Literal.IsWritten (kind, text))
  | .union members => arePlain c parameters members
  | .intersection members => 2 ≤ members.length && arePlain c parameters members
  | .array element => element.isPlain c parameters
  | .tuple elements => elementsArePlain c parameters elements
  | .function ps returns => parametersArePlain c parameters ps && returns.isPlain c parameters
  | .operator .readonly operand => operand.isPlain c parameters
  | .object members => membersArePlain c parameters members
  | _ => false

/-- All of several types are plain. -/
def arePlain (c : Contents) (parameters : List String) : List TypeNode → Bool
  | [] => true
  | node :: nodes => node.isPlain c parameters && arePlain c parameters nodes

/-- A type that may be missing is plain. -/
def optionalIsPlain (c : Contents) (parameters : List String) : Option TypeNode → Bool
  | none => true
  | some node => node.isPlain c parameters

/-- The types of tuple elements are plain. -/
def elementsArePlain (c : Contents) (parameters : List String) : List TupleElement → Bool
  | [] => true
  | .plain node :: elements => node.isPlain c parameters && elementsArePlain c parameters elements
  | .named _ _ node :: elements =>
    node.isPlain c parameters && elementsArePlain c parameters elements
  | .rest node :: elements => node.isPlain c parameters && elementsArePlain c parameters elements

/-- The types of a function's parameters are plain. -/
def parametersArePlain (c : Contents) (parameters : List String) : List Parameter → Bool
  | [] => true
  | .mk _ _ _ node :: ps => node.isPlain c parameters && parametersArePlain c parameters ps

/-- The types of members are plain. -/
def membersArePlain (c : Contents) (parameters : List String) : List Member → Bool
  | [] => true
  | .property _ _ _ type :: members =>
    optionalIsPlain c parameters type && membersArePlain c parameters members
  | .method _ _ ps returns :: members =>
    parametersArePlain c parameters ps && optionalIsPlain c parameters returns &&
      membersArePlain c parameters members
  | .index _ _ keyType valueType :: members =>
    keyType.isPlain c parameters && valueType.isPlain c parameters &&
      membersArePlain c parameters members

end

variable {s : Scope} {deeper : Deeper} {active : List String} {env : Env}
  {parameters : List String} {node : TypeNode} {name : String} {t : ResolvedType}

/-! ## Texts of one type -/

theorem mem_toList_intercalate {separator x : String} {texts : List String} {c : Char}
    (hx : x ∈ texts) (hc : c ∈ x.toList) : c ∈ (String.intercalate separator texts).toList := by
  induction texts with
  | nil => cases hx
  | cons y texts ih =>
    cases texts with
    | nil =>
      rw [List.mem_singleton] at hx
      simpa [← hx] using hc
    | cons z texts =>
      rw [String.intercalate_cons_cons, String.toList_append, String.toList_append]
      obtain rfl | hx := List.mem_cons.1 hx
      · simp [hc]
      · simp [ih hx, -String.toList_intercalate]

theorem mem_toList_intercalate_separator {separator x y : String} {texts : List String} {c : Char}
    (hc : c ∈ separator.toList) :
    c ∈ (String.intercalate separator (x :: y :: texts)).toList := by
  rw [String.intercalate_cons_cons, String.toList_append, String.toList_append]
  simp [hc]

/-- The letters of `null` and `undefined`. -/
def nullishLetters : List Char := ['n', 'u', 'l', 'd', 'e', 'f', 'i']

/-- **A text with another character in it** is neither of them. -/
theorem tellsNullish_of_mem {c : Char} (hc : c ∈ t.text.toList) (hletter : c ∉ nullishLetters)
    (hkind : isNullish t = false) : TellsNullish t := by
  have hletters : ∀ text ∈ ["null", "undefined"], ∀ c ∈ text.toList, c ∈ nullishLetters := by
    decide
  have htext : isNullishText t.text = false := by
    simp only [isNullishText, Bool.or_eq_false_iff, beq_eq_false_iff_ne]
    constructor
    · intro heq
      rw [heq] at hc
      exact hletter (hletters _ (.head _) c hc)
    · intro heq
      rw [heq] at hc
      exact hletter (hletters _ (.tail _ (.head _)) c hc)
  rw [TellsNullish, hkind, htext]

theorem boolean_mem_joinBooleans {texts : List String} (h : "false" ∈ texts) :
    "boolean" ∈ joinBooleans texts := by
  refine List.mem_map.2 ⟨"false", ?_, by simp⟩
  simp [h]

theorem tellsNullish_single {xs : List ResolvedType} (h : ∀ t ∈ xs, TellsNullish t) :
    TellsNullish (single xs) := by
  unfold single
  split
  · rfl
  · exact h _ (List.mem_singleton_self _)
  · next hnil hone =>
    obtain ⟨x, y, rest, rfl⟩ : ∃ x y rest, xs = x :: y :: rest := by
      match xs with
      | [] => exact absurd rfl hnil
      | [x] => exact absurd rfl (hone x)
      | x :: y :: rest => exact ⟨x, y, rest, rfl⟩
    dsimp only
    split
    · next hboolean =>
      split
      · rfl
      · simp only [Bool.and_eq_true, List.contains_iff_mem] at hboolean
        exact tellsNullish_of_mem (c := 'b')
          (mem_toList_intercalate (boolean_mem_joinBooleans hboolean.1) (by decide)) (by decide) rfl
    · exact tellsNullish_of_mem (c := '|')
        (mem_toList_intercalate_separator (by decide)) (by decide) rfl

/-! ## Names -/

namespace Contents

variable {c : Contents}

theorem isForeign_iff : c.isForeign name ↔ c.find? (splitHead name).1 = none ∧
    c.imported? (splitHead name).1 = none ∧ c.namespaceModule? (splitHead name).1 = none := by
  simp [isForeign, and_assoc]

/-- No alias is found by a foreign name, whole or not. -/
theorem find?_ne_alias_of_isForeign (hs : c.Sound) (h : c.isForeign name) (d : AliasDeclaration) :
    c.find? name ≠ some (.alias d) := by
  intro hfound
  obtain ⟨hmem, rfl⟩ := mem_aliases_of_find? hfound
  have := (isForeign_iff.1 h).1
  rw [(hs.aliases d hmem).plain, hfound] at this
  cases this

end Contents

theorem foreignName_of_isForeign (h : s.contents.isForeign name) : s.foreignName name = name := by
  obtain ⟨-, himported, hnamespace⟩ := Contents.isForeign_iff.1 h
  have hnone : (if (splitHead name).2 = "" then none
      else s.contents.namespaceModule? (splitHead name).1) = none := by
    split
    · rfl
    · exact hnamespace
  unfold Scope.foreignName
  simp only [hnone, himported]

/-- **What a foreign name with arguments is**: an array, or itself. -/
def foreignType (name : String) (argumentTypes : List (List ResolvedType))
    (elements : List ResolvedType) : ResolvedType :=
  match if name = "Array" ∨ name = "ReadonlyArray" then elements else [] with
  | [element] => if name = "Array" then .array element else .readonlyArray element
  | _ => .plain (name ++ argumentsText argumentTypes) .object

theorem foreignType_of_ne_singleton {argumentTypes : List (List ResolvedType)}
    {elements : List ResolvedType} (h : ∀ element, elements ≠ [element]) :
    foreignType name argumentTypes elements =
      .plain (name ++ argumentsText argumentTypes) .object := by
  unfold foreignType
  split
  · next element heq =>
    split at heq
    · exact absurd heq (h element)
    · cases heq
  · rfl

theorem collect_of_foreign {arguments : List TypeNode} {argumentTypes : List (List ResolvedType)}
    {elements : List ResolvedType} (hfree : arguments = [] → env.lookup name = none)
    (hplain : ResolvedType.intrinsics.lookup name = none) (h : s.contents.isForeign name)
    (htypes : argumentLists s deeper active env arguments = .ok argumentTypes)
    (helements : resolveEach s deeper active env arguments = .ok elements) :
    collect s deeper active env (.reference name arguments) =
      .ok [foreignType name argumentTypes elements] := by
  have hunknown := (Contents.isForeign_iff.1 h).1
  have harray (hname : name = "Array" ∨ name = "ReadonlyArray") :
      (s.contents.find? name).isNone = true := by
    have hwhole : (splitHead name).1 = name := by rcases hname with rfl | rfl <;> decide
    rw [← hwhole, hunknown]
    rfl
  rw [collect, free_of_lookup_eq_none hfree, hplain]
  simp only [htypes, helements, and_iff_left_of_imp harray]
  simp only [Bind.bind, Except.bind, pure, Except.pure]
  split
  · next hname =>
    split
    · rw [foreignType, if_pos hname]
    next hmany =>
    split
    · next heq => rw [hunknown] at heq; cases heq
    · next heq => rw [hunknown] at heq; cases heq
    · next heq => rw [hunknown] at heq; cases heq
    · rw [foreignName_of_isForeign h, foreignType_of_ne_singleton fun element => hmany element]
  · next hname =>
    split
    · next heq => rw [hunknown] at heq; cases heq
    · next heq => rw [hunknown] at heq; cases heq
    · next heq => rw [hunknown] at heq; cases heq
    · rw [foreignName_of_isForeign h, foreignType, if_neg hname]

theorem tellsNullish_array (element : ResolvedType) : TellsNullish (.array element) :=
  tellsNullish_of_mem (c := ']') (by simp [ResolvedType.array, ResolvedType.text]) (by decide) rfl

theorem tellsNullish_foreignType {argumentTypes : List (List ResolvedType)}
    {elements : List ResolvedType} (hplain : ResolvedType.intrinsics.lookup name = none) :
    TellsNullish (foreignType name argumentTypes elements) := by
  have hreadonly : ∀ element : ResolvedType, TellsNullish (.readonlyArray element) := fun element =>
    tellsNullish_of_mem (c := ']') (by simp [ResolvedType.readonlyArray, ResolvedType.text])
      (by decide) rfl
  have hnamed : TellsNullish (.plain (name ++ argumentsText argumentTypes) .object) := by
    cases argumentTypes with
    | nil =>
      have hnull : name ≠ "null" := by rintro rfl; exact absurd hplain (by decide)
      have hundefined : name ≠ "undefined" := by rintro rfl; exact absurd hplain (by decide)
      have htext : isNullishText name = false := by simp [isNullishText, hnull, hundefined]
      rw [TellsNullish, argumentsText, String.append_empty]
      exact htext.symm
    | cons types argumentTypes =>
      exact tellsNullish_of_mem (c := '<') (by simp [argumentsText, ResolvedType.text])
        (by decide) rfl
  unfold foreignType
  split
  · split
    · exact tellsNullish_array _
    · exact hreadonly _
  · exact hnamed

instance : DecidablePred TellsNullish := fun _ => inferInstanceAs (Decidable (_ = _))

theorem tellsNullish_of_intrinsic {types : List ResolvedType}
    (h : ResolvedType.intrinsics.lookup name = some types) : ∀ t ∈ types, TellsNullish t := by
  have hall : ∀ t ∈ intrinsicTypes, TellsNullish t := by decide
  exact fun t ht => hall t (mem_intrinsicTypes h ht)

theorem tellsNullish_literal {p : Literal} (h : p.IsWritten) : TellsNullish p.type := by
  obtain ⟨kind, text⟩ := p
  cases kind with
  | string =>
    refine tellsNullish_of_mem (c := '"') ?_ (by decide) rfl
    rw [Literal.type, ResolvedType.stringLiteral, ResolvedType.text, Text.toList_typeLiteral]
    exact List.mem_cons_self
  | number =>
    obtain ⟨c, hc, hdigit⟩ := h
    have hletters : ∀ d ∈ nullishLetters, ¬ (Text.isDecimalDigit d = true ∨ d = '-') := by decide
    exact tellsNullish_of_mem (List.mem_of_mem_head? hc) (fun hmem => hletters c hmem hdigit) rfl
  | template => exact tellsNullish_of_mem (c := '`') (List.mem_of_mem_head? h) (by decide) rfl

/-- What `readonly` makes of a type. -/
def readonlyType (t : ResolvedType) : ResolvedType :=
  if t.kind = .array ∨ t.kind = .tuple then .plain ("readonly " ++ t.text) .object else t

theorem tellsNullish_readonlyType (h : TellsNullish t) : TellsNullish (readonlyType t) := by
  unfold readonlyType
  split
  · exact tellsNullish_of_mem (c := 'r') (by simp [ResolvedType.text]) (by decide) rfl
  · exact h

theorem tellsNullish_bodyText (members : List String) :
    TellsNullish (.plain (bodyText members) .object) := by
  refine tellsNullish_of_mem (c := '\x7b') ?_ (by decide) rfl
  rw [ResolvedType.text, bodyText]
  split
  · decide
  · simp

theorem memberForm_congr {xs ys : List ResolvedType} (optional : Bool)
    (h : Alike s.strictNullChecks xs ys) : s.memberForm optional xs = s.memberForm optional ys := by
  unfold Scope.memberForm Scope.normalForm
  split
  · have hundefined : ∀ t ∈ [ResolvedType.undefined] ++ [], TellsNullish t := by decide
    simpa using h.normalize_append [.undefined] [] hundefined
  · exact h.normalize_eq

/-- The name of a plain reference is no alias's. -/
def TypeNode.AvoidsAliases (c : Contents) (parameters : List String) : TypeNode → Prop
  | .reference name arguments => (name ∈ parameters ∧ arguments = []) ∨
      (ResolvedType.intrinsics.lookup name).isSome ∨ c.isForeign name
  | _ => True

theorem avoidsAliases_of_isPlain (h : node.isPlain s.contents parameters) :
    node.AvoidsAliases s.contents parameters := by
  cases node with
  | reference name arguments =>
    by_cases hname : name ∈ parameters
    · rw [TypeNode.isPlain, if_pos hname, List.isEmpty_iff] at h
      exact .inl ⟨hname, h⟩
    · rw [TypeNode.isPlain, if_neg hname, Bool.and_eq_true, Bool.or_eq_true] at h
      exact .inr h.1
  | _ => trivial

theorem kind_single_of_intrinsic {types : List ResolvedType} (strict : Bool)
    (h : ResolvedType.intrinsics.lookup name = some types) :
    (single (normalize strict types)).kind ≠ .union := by
  have hall : ∀ strict, ∀ p ∈ ResolvedType.intrinsics,
      (single (normalize strict p.2)).kind ≠ .union := by decide
  exact hall strict _ (mem_of_lookup h)

/-- **A plain type as one type** is what its constituents make: no alias lends it a name. -/
theorem resolve_of_collect (hs : s.contents.Sound) {types : List ResolvedType}
    (hnode : node.AvoidsAliases s.contents parameters)
    (hbound : ∀ name ∈ parameters, env.lookup name ≠ none)
    (h : collect s deeper active env node = .ok types) :
    resolve s deeper active env node = .ok (single (s.normalForm types)) := by
  have hnone : (single (s.normalForm types)).kind = .union →
      aliasText? s deeper active env node = .ok none := by
    intro hunion
    cases node with
    | reference name arguments =>
      rw [aliasText?]
      split
      · next d hlookup hfound =>
        obtain ⟨hname, -⟩ | hintrinsic | hforeign := hnode
        · exact absurd hlookup (hbound name hname)
        · obtain ⟨types', htypes'⟩ := Option.isSome_iff_exists.1 hintrinsic
          rw [collect_of_intrinsic (fun _ => hlookup) htypes'] at h
          cases h
          exact absurd hunion (kind_single_of_intrinsic _ htypes')
        · exact absurd hfound (Contents.find?_ne_alias_of_isForeign hs hforeign d)
      · rfl
    | _ => rw [aliasText?]; simp
  rw [resolve, h]
  simp only [Resolution.ok_bind]
  split
  · next hunion => rw [hnone hunion]; rfl
  · rfl

end FluentBuilders
