import FluentBuilders.Builder.Render
import FluentBuilders.Proofs.Builder.LastWrite
import FluentBuilders.Proofs.Syntax.TypeText
import FluentBuilders.Proofs.Text.Quoted
import FluentBuilders.Proofs.Text.Words

/-!
# Proofs/Builder/FieldAccess — a setter hits the field it was made for

Field names are arbitrary texts.  A setter's name is made from its field's by changing and dropping
characters, and the property it writes is named after a dot or by a literal in brackets; reading the
access back (`accessedKey?`) gives the field, which is the key that the live builder writes.  Only a
line break is in the way: a name keeps it at its end, and a literal cannot hold it.
-/

namespace FluentBuilders

open Text

/-! ## Names made from field names -/

theorem isIdentifierPart_upper {c : Char} (h : isIdentifierPart c = true) :
    IsWordText (upper c) := by
  have hall : ∀ n < 128, isIdentifierPart (Char.ofNat n) = true →
      (upper (Char.ofNat n)).all isIdentifierPart = true := by
    decide +kernel
  have hc := hall c.toNat (toNat_lt_of_isIdentifierPart h)
  rw [Char.ofNat_toNat] at hc
  exact List.all_eq_true.1 (hc h)

theorem IsWordText.append {cs ds : List Char} (hcs : IsWordText cs) (hds : IsWordText ds) :
    IsWordText (cs ++ ds) := List.forall_mem_append.2 ⟨hcs, hds⟩

theorem IsWordText.reverse {cs : List Char} (h : IsWordText cs) : IsWordText cs.reverse :=
  fun c hc => h c (List.mem_reverse.1 hc)

theorem IsWordText.capitalize {cs : List Char} (h : IsWordText cs) : IsWordText (capitalize cs) := by
  cases cs with
  | nil => exact h
  | cons c cs =>
    obtain ⟨hc, hcs⟩ := List.forall_mem_cons.1 h
    exact (isIdentifierPart_upper hc).append hcs

theorem isWordText_asciiWords {word : List Char} (hword : IsWordText word) (cs : List Char) :
    ∀ w ∈ asciiWords word cs, IsWordText w := by
  induction cs generalizing word with
  | nil =>
    rw [asciiWords]
    split
    · exact List.forall_mem_nil _
    · exact List.forall_mem_singleton.2 hword.reverse
  | cons c cs ih =>
    rw [asciiWords]
    split
    · next hc =>
      refine ih (List.forall_mem_cons.2 ⟨?_, hword⟩)
      rw [Bool.or_eq_true] at hc
      rcases hc with hletter | hdigit
      · simp [isIdentifierPart, isIdentifierStart, hletter]
      · simp [isIdentifierPart, hdigit]
    · have hnil : IsWordText [] := List.forall_mem_nil _
      split
      · exact ih hnil
      · exact List.forall_mem_cons.2 ⟨hword.reverse, ih hnil⟩

theorem dropFinalBreak_of_notMem {cs : List Char} (h : '\n' ∉ cs) : dropFinalBreak cs = cs :=
  if_neg fun hlast => h (List.mem_of_getLast? hlast)

/-- **A name in Pascal case holds only what identifiers hold**, unless a line break was kept. -/
theorem isWordText_pascalCase {name : String} (h : '\n' ∉ name.toList) :
    IsWordText (pascalCase name).toList := by
  rw [pascalCase]
  split
  · next hidentifier =>
    rw [isIdentifier, dropFinalBreak_of_notMem h] at hidentifier
    rw [String.toList_ofList]
    exact (isWordText_of_isNameOver hidentifier).capitalize
  · have hwords : IsWordText ((asciiWords [] name.toList).flatMap capitalize) := by
      intro c hc
      obtain ⟨w, hw, hc⟩ := List.mem_flatMap.1 hc
      exact (isWordText_asciiWords (List.forall_mem_nil _) _ w hw).capitalize c hc
    split
    · simp [IsWordText, isIdentifierPart, isIdentifierStart]
    · next c cs hcs =>
      rw [hcs] at hwords
      rw [String.toList_ofList]
      split
      · exact List.forall_mem_cons.2 ⟨rfl, hwords⟩
      · exact hwords

theorem isWordText_toString (n : Nat) : IsWordText (toString n).toList := by
  intro c hc
  have hdigit : c.isDigit = true :=
    @Nat.isDigit_of_mem_toDigits 10 n c (by decide) (by decide) (by simpa using hc)
  have harabic : isArabicDigit c = true := hdigit
  simp [isIdentifierPart, harabic]

theorem isWordText_freeName {name : String} (h : IsWordText name.toList) (taken : List String) :
    IsWordText (freeName name taken).toList := by
  have hnumber : ∀ n : Nat, IsWordText (name ++ toString n).toList := by
    intro n
    rw [String.toList_append]
    exact h.append (isWordText_toString n)
  have hnumbered : ∀ fuel n, IsWordText (numberedName name taken fuel n).toList := by
    intro fuel
    induction fuel with
    | zero => exact hnumber
    | succ fuel ih =>
      intro n
      rw [numberedName]
      split
      · exact ih (n + 1)
      · exact hnumber n
  rw [freeName]
  split
  · exact hnumbered _ _
  · exact h

/-- **A setter's name is an identifier** under the default prefix. -/
theorem isAsciiName_setterName {field : String} (h : '\n' ∉ field.toList) (taken : List String) :
    isAsciiName (freeName (setterName {} field) taken) := by
  have hprefix : IsWordText "with".toList := List.all_eq_true.1 rfl
  have hword : IsWordText (freeName (setterName {} field) taken).toList := by
    refine isWordText_freeName ?_ taken
    rw [setterName, String.toList_append]
    exact hprefix.append (isWordText_pascalCase h)
  obtain ⟨rest, hrest⟩ := prefix_freeName (setterName {} field) taken
  have hcons : (freeName (setterName {} field) taken).toList =
      'w' :: ("ith".toList ++ (pascalCase field).toList ++ rest) := by
    rw [← hrest, setterName, String.toList_append]
    rfl
  rw [hcons] at hword
  rw [isAsciiName, hcons, isNameOver, Bool.and_eq_true, List.all_eq_true]
  exact ⟨rfl, (List.forall_mem_cons.1 hword).2⟩

/-! ## Reading an access back -/

/-- **The key that a property access names**: an identifier after a dot, or the text of one string
literal in brackets. -/
def accessedKey? : List Char → Option String
  | '.' :: name => if isNameOver isIdentifierPart name then some (String.ofList name) else none
  | '[' :: cs =>
    match Token.read? cs with
    | some (.string literal, [']']) => some (unquoteString literal)
    | _ => none
  | _ => none

theorem quotedTail?_escapeFor (mark : QuoteMark) (cs rest : List Char) :
    Token.quotedTail? mark.char false (cs.flatMap (escapeFor mark) ++ mark.char :: rest) =
      if '\n' ∈ cs then none
      else some (cs.flatMap (escapeFor mark) ++ [mark.char], rest) := by
  induction cs with
  | nil =>
    rw [if_neg List.not_mem_nil, List.flatMap_nil, List.nil_append, Token.quotedTail?]
    · rw [if_pos rfl, List.nil_append]
    · exact fun _ _ h => absurd h mark.char_ne_backslash
  | cons c cs ih =>
    by_cases hescaped : c = '\\' ∨ c = mark.char
    · have hbreak : c ≠ '\n' := by
        rintro rfl
        exact hescaped.elim (by decide) fun h => mark.char_ne_lineBreak h.symm
      simp only [List.flatMap_cons, escapeFor, if_pos hescaped, List.cons_append, List.nil_append,
        Token.quotedTail?, if_neg hbreak, ih, List.mem_cons, Ne.symm hbreak, false_or]
      split <;> rfl
    · have hplain : c ≠ '\\' := fun h => hescaped (.inl h)
      have hmark : c ≠ mark.char := fun h => hescaped (.inr h)
      rw [List.flatMap_cons, escapeFor, if_neg hescaped, List.cons_append, List.nil_append,
        List.cons_append, Token.quotedTail?.eq_3 _ _ _ _ fun _ _ h => absurd h hplain, if_neg hmark]
      by_cases hbreak : c = '\n'
      · subst hbreak
        simp
      · rw [if_neg (by simp [hplain, hbreak]), ih]
        simp only [List.mem_cons, Ne.symm hbreak, false_or]
        split <;> rfl

/-- A literal of generated code is one token, unless a line break stands in it. -/
theorem read?_quoted (mark : QuoteMark) (text : String) (rest : List Char) :
    Token.read? ((quoted mark text).toList ++ rest) =
      if '\n' ∈ text.toList then none else some (.string (quoted mark text), rest) := by
  have hstart : isIdentifierStart mark.char = false := by cases mark <;> decide
  have hquote : mark.char = '"' ∨ mark.char = '\'' := by cases mark <;> decide
  rw [toList_quoted, List.cons_append, List.append_assoc, Token.read?, if_neg (by simp [hstart]),
    if_pos hquote, List.singleton_append, quotedTail?_escapeFor]
  split
  · rfl
  · rfl

/-- **An access names its field**, unless the field's name holds a line break. -/
theorem accessedKey?_memberAccess (mark : QuoteMark) (field : String) :
    accessedKey? (memberAccess mark field).toList =
      if '\n' ∈ field.toList then none else some field := by
  rw [memberAccess, memberAccessWith]
  split
  · next hidentifier =>
    rw [String.toList_append]
    change (if isNameOver isIdentifierPart field.toList then _ else _) = _
    split_ifs with hname hbreak hbreak
    · exact absurd (isWordText_of_isNameOver hname _ hbreak) (by decide)
    · exact congrArg some String.ofList_toList
    · rfl
    · rw [isIdentifier, dropFinalBreak_of_notMem hbreak] at hidentifier
      exact absurd hidentifier hname
  · rw [String.toList_append, String.toList_append]
    change (match Token.read? ((quoted mark field).toList ++ [']']) with
      | some (.string literal, [']']) => some (unquoteString literal)
      | _ => none) = _
    rw [read?_quoted]
    split_ifs
    · rfl
    · exact congrArg some (unquoteString_quoted mark field)

/-! ## Setters -/

/-- **A setter that hits its field**: it has an identifier for a name, and the one line of its body that
assigns does so to a property whose access names the field. -/
structure MethodSpec.Hits (m : MethodSpec) (mark : QuoteMark) (accumulator field : String) : Prop where
  name : isAsciiName m.name
  target : ∃ access, accessedKey? access.toList = some field ∧
    methodBody mark accumulator m =
      .ok ["this." ++ accumulator ++ access ++ " = val;", "return this;"]

theorem methodBody_setterSpec (mark : QuoteMark) (accumulator : String) (emit : EmitConfig)
    (className name : String) (field : Field) :
    methodBody mark accumulator (setterSpec emit className name field) =
      .ok ["this." ++ accumulator ++ memberAccess mark field.name ++ " = val;", "return this;"] := by
  have hline : " = val;" = " = " ++ ("val" ++ ";") := by decide
  rw [hline, ← String.append_assoc, ← String.append_assoc]
  rfl

/-- A body's line tells its access. -/
theorem hits_setterSpec_iff {mark : QuoteMark} {accumulator : String} {emit : EmitConfig}
    {className name : String} {field : Field} :
    (setterSpec emit className name field).Hits mark accumulator field.name ↔
      isAsciiName name ∧ '\n' ∉ field.name.toList := by
  constructor
  · rintro ⟨hname, access, hkey, hbody⟩
    refine ⟨hname, fun hbreak => ?_⟩
    rw [methodBody_setterSpec, Except.ok.injEq, List.cons.injEq, String.append_left_inj,
      String.append_right_inj] at hbody
    rw [← hbody.1, accessedKey?_memberAccess, if_pos hbreak] at hkey
    cases hkey
  · rintro ⟨hname, hbreak⟩
    exact ⟨hname, _, by rw [accessedKey?_memberAccess, if_neg hbreak],
      methodBody_setterSpec _ _ _ _ _ _⟩

/-- Every setter of a builder is the setter of a field, under a free name. -/
theorem exists_field_of_mem_setterSpecs {config : Config} {className : String}
    {taken : List String} {fields : List Field} :
    ∀ m ∈ setterSpecs config className taken fields, ∃ field ∈ fields, ∃ before,
      m = setterSpec config.emit className
        (freeName (setterName config.naming field.name) before) field := by
  induction fields generalizing taken with
  | nil => exact List.forall_mem_nil _
  | cons field fields ih =>
    have hrest : ∀ names, ∀ m ∈ setterSpecs config className names fields,
        ∃ other ∈ field :: fields, ∃ before, m = setterSpec config.emit className
          (freeName (setterName config.naming other.name) before) other := by
      intro names m hm
      obtain ⟨other, hother, hspec⟩ := ih m hm
      exact ⟨other, List.mem_cons_of_mem _ hother, hspec⟩
    rw [setterSpecs]
    split
    · exact hrest taken
    · exact List.forall_mem_cons.2 ⟨⟨field, List.mem_cons_self, taken, rfl⟩, hrest _⟩

/-- **Setters hit their fields.**  Under the default names every setter of a builder is there for one
field: its name is an identifier and, with either quote mark, its assignment goes to the property of
just that field's name, unless there is a line break in it; and the live builder's method of the
setter's name writes the same key. -/
theorem setters_hit_fields {config : Config} {d : StructuralDeclaration} {b : BuilderSpec}
    (hnaming : config.naming = {}) (hok : synthesize config d = .ok b) :
    ∀ m ∈ b.setters, ∃ field ∈ d.fieldNames, m.fieldName = some field ∧
      (∀ mark, m.Hits mark b.builderClass.accumulatorName field ↔ '\n' ∉ field.toList) ∧
        ∀ id store value, (LiveBuilder.mk b (.object id)).call m.name [value] store =
          .ok (.builder, ⟨b, .object id⟩, store.write id field value) := by
  obtain rfl := synthesize_eq_ok hok
  intro m hm
  have hlive := fun value => @call_eq _ _ hnaming (.set m value) hm
  rw [setters_builderSpec] at hm
  obtain ⟨field, hfield, before, rfl⟩ := exists_field_of_mem_setterSpecs m hm
  refine ⟨field.name, List.mem_map_of_mem hfield, rfl, fun mark => ?_, fun id store value =>
    hlive value id store⟩
  rw [hits_setterSpec_iff, and_iff_right_iff_imp, hnaming]
  exact fun hbreak => isAsciiName_setterName hbreak before

/-- A declaration with field names that are hard to write. -/
def oddlyNamed : StructuralDeclaration where
  name := "A"
  kind := .interface
  fields := ["it's", "a\"b\\", "été", "9 lives", "a\n", "a\rb"].map fun name =>
    { name, types := [.plain "string" .string], optional := false, readonly := false }
  isUnion := false
  members := []
  typeParameters := []
  line := 1

theorem setters_hit_fields_oddlyNamed :
    synthesize {} oddlyNamed = .ok (builderSpec {} oddlyNamed) ∧
      (builderSpec {} oddlyNamed).setters.map (·.name) =
        ["withItS", "withAB", "withT", "with_9Lives", "withA\n", "withAB2"] ∧
      ∀ m ∈ (builderSpec {} oddlyNamed).setters, ∃ field ∈ oddlyNamed.fieldNames,
        ∀ mark, m.Hits mark "obj" field ↔ '\n' ∉ field.toList := by
  have hok : synthesize {} oddlyNamed = .ok (builderSpec {} oddlyNamed) := by decide +kernel
  refine ⟨hok, by decide +kernel, fun m hm => ?_⟩
  obtain ⟨field, hfield, -, hhits, -⟩ := setters_hit_fields rfl hok m hm
  exact ⟨field, hfield, hhits⟩

/-- A declaration with a line break in a field's name. -/
def brokenName : StructuralDeclaration where
  name := "A"
  kind := .interface
  fields := [⟨"a\nb", [.plain "string" .string], false, false⟩]
  isUnion := false
  members := []
  typeParameters := []
  line := 1

/-- **A line break goes into the literal as it is**, which then is no token. -/
theorem setter_misses_brokenName :
    ¬ ∀ (d : StructuralDeclaration) (b : BuilderSpec), synthesize {} d = .ok b →
      ∀ m ∈ b.setters, ∃ field, m.fieldName = some field ∧
        ∀ mark, m.Hits mark b.builderClass.accumulatorName field := by
  intro hall
  obtain ⟨field, hfield, hhits⟩ := hall brokenName (builderSpec {} brokenName) rfl
    (setterSpec {} "ABuilder" (freeName (setterName {} "a\nb") [])
      ⟨"a\nb", [.plain "string" .string], false, false⟩)
    (by rw [setters_builderSpec]; exact List.mem_cons_self)
  obtain rfl : "a\nb" = field := Option.some.inj hfield
  exact absurd (hits_setterSpec_iff.1 (hhits .single)).2 (by decide)

end FluentBuilders
