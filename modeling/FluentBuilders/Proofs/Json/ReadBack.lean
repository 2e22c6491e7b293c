import FluentBuilders.Json.Printer
import FluentBuilders.Json.Reader
import FluentBuilders.Proofs.Json.Pairs
import Mathlib.Data.List.DropRight

/-!
# Proofs/Json/ReadBack — a JSON value is read back from its indented text

Every escape is undone (`stringBody?_escapeChar`), so a string of any characters is read back from
between its quotes.  A value without numbers, no key twice in an object and not nested too deep, is
read back from the text over several lines (`ofText?_indented`): the induction is on the value, and
each reader stops where the text of its value ends, whatever comes after.
-/

namespace FluentBuilders.Json

/-! ## Strings -/

theorem hexUnit?_hexChar : ∀ n < 0x20,
    hexUnit? '0' '0' (hexChar (n / 16)) (hexChar (n % 16)) = some n := by
  decide

theorem bind_some_eq_map {α β : Type} (x : Option α) (f : α → β) :
    (x.bind fun a => some (f a)) = x.map f := by
  cases x <;> rfl

/-- **An escape of four digits**, of a character that is no half of a pair. -/
theorem stringBody?_unit {a b c d : Char} {unit : Nat} (h : hexUnit? a b c d = some unit)
    (hhigh : isHighSurrogate unit = false) (hlow : isLowSurrogate unit = false) (xs : List Char) :
    stringBody? ('\\' :: 'u' :: a :: b :: c :: d :: xs) =
      (stringBody? xs).map fun p => (Char.ofNat unit :: p.1, p.2) := by
  rw [stringBody?.eq_def]
  split
  case h_3 =>
    simp_all [bind_some_eq_map]
  case h_4 =>
    simp_all [bind_some_eq_map]
  all_goals grind

/-- **A character of a string is read back**, escaped or not. -/
theorem stringBody?_escapeChar (c : Char) (xs : List Char) :
    stringBody? (escapeChar c ++ xs) = (stringBody? xs).map fun p => (c :: p.1, p.2) := by
  unfold escapeChar
  split
  case h_8 =>
    split
    · next hlow =>
      have hunit := hexUnit?_hexChar c.toNat hlow
      have hhigh : isHighSurrogate c.toNat = false := by simp [isHighSurrogate]; omega
      have hpair : isLowSurrogate c.toNat = false := by simp [isLowSurrogate]; omega
      rw [List.cons_append, List.cons_append, List.cons_append, List.cons_append, List.cons_append,
        List.cons_append, List.nil_append, stringBody?_unit hunit hhigh hpair, Char.ofNat_toNat]
    · rw [List.singleton_append, stringBody?.eq_def]
      have hplain : (decide (c.toNat < 0x20) || c == '\\') = false := by simp_all
      split
      case h_6 heq =>
        obtain ⟨rfl, rfl⟩ := List.cons.inj heq
        simp [hplain, bind_some_eq_map]
      all_goals simp_all
  all_goals
    rw [List.cons_append, List.singleton_append, stringBody?.eq_def]
    simp [simpleEscape?, bind_some_eq_map]

theorem stringBody?_flatMap_escapeChar (cs rest : List Char) :
    stringBody? (cs.flatMap escapeChar ++ '"' :: rest) = some (cs, rest) := by
  induction cs with
  | nil => simp [stringBody?]
  | cons c cs ih => rw [List.flatMap_cons, List.append_assoc, stringBody?_escapeChar, ih]; rfl

/-- **A string is read back** from behind its opening quote. -/
theorem exists_quote (s : String) (rest : List Char) :
    ∃ inside, (quote s).toList ++ rest = '"' :: inside ∧
      stringBody? inside = some (s.toList, rest) := by
  refine ⟨s.toList.flatMap escapeChar ++ '"' :: rest, ?_, stringBody?_flatMap_escapeChar ..⟩
  simp [quote]

/-! ## Blanks -/

/-- **Nothing but blanks.** -/
def IsBlank (cs : List Char) : Prop := ∀ c ∈ cs, c = ' '

variable {gap cs rest : List Char} {indent : String} {fuel depth : Nat} {json : Json}

theorem skipSpace_of_isBlank (h : IsBlank gap) : skipSpace (gap ++ cs) = skipSpace cs := by
  induction gap with
  | nil => rfl
  | cons c gap ih =>
    obtain ⟨rfl, hgap⟩ := List.forall_mem_cons.1 h
    exact ih hgap

theorem skipSpace_newline (h : IsBlank gap) : skipSpace ('\n' :: (gap ++ cs)) = skipSpace cs :=
  skipSpace_of_isBlank h

theorem skipSpace_comma (cs : List Char) : skipSpace (',' :: cs) = ',' :: cs := rfl

theorem skipSpace_bracket (cs : List Char) : skipSpace ('[' :: cs) = '[' :: cs := rfl

theorem skipSpace_brace (cs : List Char) : skipSpace ('\x7b' :: cs) = '\x7b' :: cs := rfl

theorem skipSpace_skipSpace (cs : List Char) : skipSpace (skipSpace cs) = skipSpace cs :=
  List.dropWhile_idempotent ..

theorem skipSpace_colon (cs : List Char) : skipSpace (':' :: cs) = ':' :: cs := rfl

theorem skipSpace_quote (cs : List Char) : skipSpace ('"' :: cs) = '"' :: cs := rfl

theorem isBlank_deeper (h : IsBlank indent.toList) : IsBlank (indent ++ "  ").toList := by
  have hspaces : IsBlank [' ', ' '] := by simp [IsBlank]
  rw [String.toList_append]
  exact List.forall_mem_append.2 ⟨h, hspaces⟩

/-- Of blanks in front a value takes no notice. -/
theorem value?_of_skipSpace {cs' : List Char} (h : skipSpace cs = skipSpace cs') :
    value? fuel depth cs = value? fuel depth cs' := by
  cases fuel with
  | zero => rfl
  | succ fuel => rw [value?, h, value?]

theorem value?_blank (cs : List Char) : value? fuel depth (' ' :: cs) = value? fuel depth cs :=
  value?_of_skipSpace rfl

/-! ## Lines of an array or object -/

theorem toList_entries_singleton (indent text : String) :
    (entries indent [text]).toList =
      (indent ++ "  ").toList ++ (text.toList ++ '\n' :: indent.toList) := by
  simp [entries]

theorem toList_entries_cons (indent text next : String) (texts : List String) :
    (entries indent (text :: next :: texts)).toList =
      (indent ++ "  ").toList ++
        (text.toList ++ ',' :: '\n' :: (entries indent (next :: texts)).toList) := by
  simp [entries, String.intercalate_cons_cons]

theorem indentedItems_eq_map (indent : String) (items : List Json) :
    indentedItems indent items = items.map (indented indent) := by
  induction items with
  | nil => rfl
  | cons item items ih => rw [indentedItems, ih, List.map_cons]

theorem indentedPairs_eq_map (indent : String) (pairs : List (String × Json)) :
    indentedPairs indent pairs = pairs.map fun p => quote p.1 ++ ": " ++ indented indent p.2 := by
  induction pairs with
  | nil => rfl
  | cons p pairs ih => rw [indentedPairs, ih, List.map_cons]

theorem exists_entries (indent text : String) (texts : List String) :
    ∃ more, (entries indent (text :: texts)).toList =
      (indent ++ "  ").toList ++ (text.toList ++ more) := by
  cases texts with
  | nil => exact ⟨_, toList_entries_singleton ..⟩
  | cons next texts => exact ⟨_, toList_entries_cons ..⟩

theorem toList_pair (key text : String) :
    (quote key ++ ": " ++ text).toList = (quote key).toList ++ ':' :: ' ' :: text.toList := by
  simp

/-! ## Values -/

/-- **A value that is read back** where `depth` arrays and objects that are not empty can be nested:
without numbers, and with no key twice in an object. -/
inductive IsPlain : Nat → Json → Prop
  | null {depth : Nat} : IsPlain depth .null
  | bool {depth : Nat} (b : Bool) : IsPlain depth (.bool b)
  | string {depth : Nat} (s : String) : IsPlain depth (.string s)
  | emptyArray {depth : Nat} : IsPlain depth (.array [])
  | emptyObject {depth : Nat} : IsPlain depth (.object [])
  | array {depth : Nat} {items : List Json} (hitems : ∀ item ∈ items, IsPlain depth item) :
    IsPlain (depth + 1) (.array items)
  | object {depth : Nat} {pairs : List (String × Json)} (hkeys : (pairs.map Prod.fst).Nodup)
    (hvalues : ∀ p ∈ pairs, IsPlain depth p.2) : IsPlain (depth + 1) (.object pairs)

/-- **The value is read from its text**, whatever comes after. -/
def ReadsBack (depth : Nat) (json : Json) : Prop :=
  ∀ indent : String, IsBlank indent.toList → ∀ fuel rest,
    (indented indent json).toList.length < fuel →
      value? fuel depth ((indented indent json).toList ++ rest) = some (json, rest)

/-- **What the text of a value begins with**: no blank, and no closing bracket. -/
theorem exists_indented (h : IsPlain depth json) (indent : String) :
    ∃ c cs, (indented indent json).toList = c :: cs ∧ c ∈ ['n', 't', 'f', '"', '[', '\x7b'] := by
  cases h with
  | null => exact ⟨'n', _, by simp [indented, scalar]; rfl, by decide⟩
  | bool b =>
    cases b with
    | true => exact ⟨'t', _, by simp [indented, scalar]; rfl, by decide⟩
    | false => exact ⟨'f', _, by simp [indented, scalar]; rfl, by decide⟩
  | string s => exact ⟨'"', _, by simp [indented, scalar, quote]; rfl, by decide⟩
  | emptyArray => exact ⟨'[', _, by simp [indented]; rfl, by decide⟩
  | emptyObject => exact ⟨'\x7b', _, by simp [indented]; rfl, by decide⟩
  | @array _ items hitems =>
    cases items with
    | nil => exact ⟨'[', _, by simp [indented]; rfl, by decide⟩
    | cons item items => exact ⟨'[', _, by simp [indented]; rfl, by decide⟩
  | @object _ pairs hkeys hvalues =>
    cases pairs with
    | nil => exact ⟨'\x7b', _, by simp [indented]; rfl, by decide⟩
    | cons p pairs => exact ⟨'\x7b', _, by simp [indented]; rfl, by decide⟩

/-! ### Scalars -/

theorem readsBack_string (s : String) : ReadsBack depth (.string s) := by
  intro indent _ fuel rest hfuel
  cases fuel with
  | zero => exact absurd hfuel (Nat.not_lt_zero _)
  | succ fuel =>
    change value? (fuel + 1) depth ((quote s).toList ++ rest) = _
    obtain ⟨inside, htext, hbody⟩ := exists_quote s rest
    rw [htext, value?]
    simp [skipSpace, hbody]

theorem value?_word {word : String} (h : (word, json) ∈ words.take 3) (fuel : Nat)
    (rest : List Char) : value? (fuel + 1) depth (word.toList ++ rest) = some (json, rest) := by
  have hdrop : (word.toList ++ rest).drop word.length = rest := by
    rw [← String.length_toList, List.drop_left]
  simp only [words, List.take, List.mem_cons, Prod.mk.injEq, List.not_mem_nil, or_false] at h
  obtain ⟨rfl, rfl⟩ | ⟨rfl, rfl⟩ | ⟨rfl, rfl⟩ := h <;>
    simpa [value?, skipSpace, word?, words] using hdrop

theorem readsBack_word {word : String} (h : (word, json) ∈ words.take 3)
    (htext : ∀ indent, indented indent json = word) : ReadsBack depth json := by
  intro indent _ fuel rest hfuel
  cases fuel with
  | zero => exact absurd hfuel (Nat.not_lt_zero _)
  | succ fuel => rw [htext, value?_word h]

/-! ### Arrays and objects -/

theorem items?_of_skipSpace {cs' : List Char} (h : skipSpace cs = skipSpace cs') :
    items? fuel depth cs = items? fuel depth cs' := by
  cases fuel with
  | zero => rfl
  | succ fuel => rw [items?, value?_of_skipSpace h, items?]

theorem items?_newline (cs : List Char) :
    items? fuel depth ('\n' :: cs) = items? fuel depth cs := items?_of_skipSpace rfl

/-- **The items of an array are read back**, each from its line. -/
theorem items?_entries {items : List Json} (hne : items ≠ [])
    (hitems : ∀ item ∈ items, ReadsBack depth item) (hindent : IsBlank indent.toList)
    (fuel : Nat) (rest : List Char)
    (hfuel : (entries indent (indentedItems (indent ++ "  ") items)).toList.length < fuel) :
    items? fuel depth ((entries indent (indentedItems (indent ++ "  ") items)).toList ++ ']' :: rest)
      = some (items, rest) := by
  have hgap := isBlank_deeper hindent
  induction items generalizing fuel with
  | nil => exact absurd rfl hne
  | cons item items ih =>
    obtain ⟨hitem, hrest⟩ := List.forall_mem_cons.1 hitems
    obtain ⟨fuel, rfl⟩ := Nat.exists_eq_succ_of_ne_zero (Nat.ne_zero_of_lt hfuel)
    cases items with
    | nil =>
      simp only [indentedItems, toList_entries_singleton, List.append_assoc,
        List.length_append, List.cons_append, List.length_cons] at hfuel ⊢
      rw [items?, value?_of_skipSpace (skipSpace_of_isBlank hgap), hitem _ hgap _ _ (by omega)]
      simp only [Option.bind_eq_bind, Option.bind_some, skipSpace_newline hindent]
      rfl
    | cons next items =>
      have hlater := ih (List.cons_ne_nil _ _) hrest fuel
      simp only [indentedItems, toList_entries_cons, List.append_assoc,
        List.length_append, List.cons_append, List.length_cons] at hfuel hlater ⊢
      rw [items?, value?_of_skipSpace (skipSpace_of_isBlank hgap), hitem _ hgap _ _ (by omega)]
      simp only [Option.bind_eq_bind, Option.bind_some, skipSpace_comma]
      rw [items?_newline, hlater (by omega)]
      rfl

theorem pairs?_of_skipSpace {before : List (String × Json)} {cs' : List Char}
    (h : skipSpace cs = skipSpace cs') :
    pairs? fuel depth before cs = pairs? fuel depth before cs' := by
  cases fuel with
  | zero => rfl
  | succ fuel => rw [pairs?, h, pairs?]

theorem pairs?_newline {before : List (String × Json)} (cs : List Char) :
    pairs? fuel depth before ('\n' :: cs) = pairs? fuel depth before cs := pairs?_of_skipSpace rfl

/-- **A pair is read back**, and what comes after it says whether there are others. -/
theorem pairs?_quote {before : List (String × Json)} {key : String} (hjson : ReadsBack depth json)
    (hindent : IsBlank indent.toList) (fuel : Nat)
    (hfuel : (indented indent json).toList.length < fuel) (rest : List Char) :
    pairs? (fuel + 1) depth before
        ((quote key).toList ++ (':' :: ' ' :: ((indented indent json).toList ++ rest))) =
      match skipSpace rest with
      | ',' :: rest => pairs? fuel depth (Pairs.put key json before) rest
      | '\x7d' :: rest => some (Pairs.put key json before, rest)
      | _ => none := by
  obtain ⟨inside, htext, hbody⟩ := exists_quote key
    (':' :: ' ' :: ((indented indent json).toList ++ rest))
  have hvalue : value? fuel depth (' ' :: ((indented indent json).toList ++ rest)) =
      some (json, rest) :=
    (value?_blank _).trans (hjson indent hindent fuel rest hfuel)
  rw [htext, pairs?]
  simp only [skipSpace_quote, skipSpace_colon, hbody, hvalue, Option.bind_eq_bind,
    Option.bind_some, String.ofList_toList]
  rfl

/-- **The pairs of an object are read back**, each from its line, and added to those before. -/
theorem pairs?_entries {pairs : List (String × Json)} (hne : pairs ≠ [])
    (hvalues : ∀ p ∈ pairs, ReadsBack depth p.2) (hindent : IsBlank indent.toList)
    (fuel : Nat) (before : List (String × Json)) (rest : List Char)
    (hfuel : (entries indent (indentedPairs (indent ++ "  ") pairs)).toList.length < fuel) :
    pairs? fuel depth before
        ((entries indent (indentedPairs (indent ++ "  ") pairs)).toList ++ '\x7d' :: rest) =
      some (Pairs.putAll pairs before, rest) := by
  have hgap := isBlank_deeper hindent
  induction pairs generalizing fuel before with
  | nil => exact absurd rfl hne
  | cons p pairs ih =>
    obtain ⟨key, value⟩ := p
    obtain ⟨hvalue, hrest⟩ := List.forall_mem_cons.1 hvalues
    change ReadsBack depth value at hvalue
    obtain ⟨fuel, rfl⟩ := Nat.exists_eq_succ_of_ne_zero (Nat.ne_zero_of_lt hfuel)
    cases pairs with
    | nil =>
      simp only [indentedPairs, toList_entries_singleton, toList_pair, List.append_assoc,
        List.length_append, List.cons_append, List.length_cons] at hfuel ⊢
      rw [pairs?_of_skipSpace (skipSpace_of_isBlank hgap), pairs?_quote hvalue hgap _ (by omega),
        skipSpace_newline hindent]
      rfl
    | cons next pairs =>
      have hlater := ih (List.cons_ne_nil _ _) hrest fuel (Pairs.put key value before)
      simp only [indentedPairs, toList_entries_cons, toList_pair, List.append_assoc,
        List.length_append, List.cons_append, List.length_cons] at hfuel hlater ⊢
      rw [pairs?_of_skipSpace (skipSpace_of_isBlank hgap), pairs?_quote hvalue hgap _ (by omega),
        skipSpace_comma]
      exact (pairs?_newline _).trans (hlater (by omega))

theorem value?_bracket (h : ∀ cs', skipSpace cs ≠ ']' :: cs') (fuel : Nat) :
    value? (fuel + 1) (depth + 1) ('[' :: cs) =
      (items? fuel depth cs).map fun p => (.array p.1, p.2) := by
  simp only [value?, skipSpace_bracket]
  simp [below?, items?_of_skipSpace (skipSpace_skipSpace cs), bind_some_eq_map]

theorem value?_brace (h : ∀ cs', skipSpace cs ≠ '\x7d' :: cs') (fuel : Nat) :
    value? (fuel + 1) (depth + 1) ('\x7b' :: cs) =
      (pairs? fuel depth [] cs).map fun p => (.object p.1, p.2) := by
  simp only [value?, skipSpace_brace]
  simp [below?, pairs?_of_skipSpace (skipSpace_skipSpace cs), bind_some_eq_map]

theorem readsBack_emptyArray : ReadsBack depth (.array []) := by
  intro indent _ fuel rest hfuel
  obtain ⟨fuel, rfl⟩ := Nat.exists_eq_succ_of_ne_zero (Nat.ne_zero_of_lt hfuel)
  simp [indented, value?, skipSpace]

theorem readsBack_emptyObject : ReadsBack depth (.object []) := by
  intro indent _ fuel rest hfuel
  obtain ⟨fuel, rfl⟩ := Nat.exists_eq_succ_of_ne_zero (Nat.ne_zero_of_lt hfuel)
  simp [indented, value?, skipSpace]

theorem readsBack_array {items : List Json} (hne : items ≠ [])
    (hplain : ∀ item ∈ items, IsPlain depth item) (hitems : ∀ item ∈ items, ReadsBack depth item) :
    ReadsBack (depth + 1) (.array items) := by
  intro indent hindent fuel rest hfuel
  obtain ⟨item, later, rfl⟩ := List.exists_cons_of_ne_nil hne
  obtain ⟨fuel, rfl⟩ := Nat.exists_eq_succ_of_ne_zero (Nat.ne_zero_of_lt hfuel)
  obtain ⟨more, hmore⟩ := exists_entries indent (indented (indent ++ "  ") item)
    (indentedItems (indent ++ "  ") later)
  obtain ⟨c, cs, hitem, hc⟩ := exists_indented (hplain item List.mem_cons_self) (indent ++ "  ")
  have htext : (indented indent (.array (item :: later))).toList =
      '[' :: '\n' ::
        ((entries indent (indentedItems (indent ++ "  ") (item :: later))).toList ++ [']']) := by
    simp [indented]
  rw [htext, List.length_cons, List.length_cons, List.length_append] at hfuel
  rw [htext, List.cons_append, List.cons_append, List.append_assoc, List.singleton_append,
    value?_bracket, items?_newline, items?_entries hne hitems hindent _ _ (by omega)]
  · rfl
  · intro cs' hcs
    have hgap := isBlank_deeper hindent
    rw [indentedItems, hmore, hitem, List.append_assoc, skipSpace_newline hgap] at hcs
    simp only [List.mem_cons, List.not_mem_nil, or_false] at hc
    obtain rfl | rfl | rfl | rfl | rfl | rfl := hc <;> exact absurd hcs (by simp [skipSpace])

theorem readsBack_object {pairs : List (String × Json)} (hne : pairs ≠ [])
    (hkeys : (pairs.map Prod.fst).Nodup) (hvalues : ∀ p ∈ pairs, ReadsBack depth p.2) :
    ReadsBack (depth + 1) (.object pairs) := by
  intro indent hindent fuel rest hfuel
  obtain ⟨⟨key, value⟩, later, rfl⟩ := List.exists_cons_of_ne_nil hne
  obtain ⟨fuel, rfl⟩ := Nat.exists_eq_succ_of_ne_zero (Nat.ne_zero_of_lt hfuel)
  obtain ⟨more, hmore⟩ := exists_entries indent
    (quote key ++ ": " ++ indented (indent ++ "  ") value) (indentedPairs (indent ++ "  ") later)
  have htext : (indented indent (.object ((key, value) :: later))).toList =
      '\x7b' :: '\n' ::
        ((entries indent (indentedPairs (indent ++ "  ") ((key, value) :: later))).toList ++
          ['\x7d']) := by
    simp [indented]
  rw [htext, List.length_cons, List.length_cons, List.length_append] at hfuel
  rw [htext, List.cons_append, List.cons_append, List.append_assoc, List.singleton_append,
    value?_brace, pairs?_newline, pairs?_entries hne hvalues hindent _ _ _ (by omega),
    Pairs.putAll_of_nodup (by simpa using hkeys)]
  · rfl
  · intro cs' hcs
    have hgap := isBlank_deeper hindent
    rw [indentedPairs, hmore, toList_pair, List.append_assoc, skipSpace_newline hgap] at hcs
    exact absurd hcs (by simp [quote, skipSpace])

/-- **A value is read back from its text**, whatever comes after. -/
theorem readsBack_of_isPlain (h : IsPlain depth json) : ReadsBack depth json := by
  induction h with
  | null =>
    have hword : ("null", Json.null) ∈ words.take 3 := by simp [words]
    exact readsBack_word hword fun _ => by simp [indented, scalar]
  | bool b =>
    have htrue : ("true", Json.bool true) ∈ words.take 3 := by simp [words]
    have hfalse : ("false", Json.bool false) ∈ words.take 3 := by simp [words]
    cases b with
    | true => exact readsBack_word htrue fun _ => by simp [indented, scalar]
    | false => exact readsBack_word hfalse fun _ => by simp [indented, scalar]
  | string s => exact readsBack_string s
  | emptyArray => exact readsBack_emptyArray
  | emptyObject => exact readsBack_emptyObject
  | @array _ items hitems ih =>
    cases items with
    | nil => exact readsBack_emptyArray
    | cons item items => exact readsBack_array (List.cons_ne_nil _ _) hitems ih
  | @object _ pairs hkeys hvalues ih =>
    cases pairs with
    | nil => exact readsBack_emptyObject
    | cons p pairs => exact readsBack_object (List.cons_ne_nil _ _) hkeys ih

/-- **A value is read back from its text over several lines.** -/
theorem ofText?_indented (h : IsPlain nestingLimit json) : ofText? (indented "" json) = some json := by
  have hread := readsBack_of_isPlain h "" (by simp [IsBlank]) _ [] (Nat.lt_succ_self _)
  rw [List.append_nil] at hread
  rw [ofText?, ofTextWithin?]
  simp only [hread]
  rfl

/-! ## Carriage returns -/

theorem notMem_quote (s : String) : '\r' ∉ (quote s).toList := by
  have hchar : ∀ c, '\r' ∉ escapeChar c := by
    intro c
    unfold escapeChar
    split
    case h_8 =>
      split
      · next hlow =>
        have hdigit : ∀ n < 16, hexChar n ≠ '\r' := by decide
        simp [(hdigit (c.toNat / 16) (by omega)).symm, (hdigit (c.toNat % 16) (by omega)).symm]
      · next hreturn _ _ => simpa using Ne.symm hreturn
    all_goals decide
  simp [quote, hchar]

theorem notMem_entries {texts : List String} (hindent : '\r' ∉ indent.toList)
    (htexts : ∀ text ∈ texts, '\r' ∉ text.toList) : '\r' ∉ (entries indent texts).toList := by
  induction texts with
  | nil => simpa [entries] using hindent
  | cons text texts ih =>
    obtain ⟨htext, hrest⟩ := List.forall_mem_cons.1 htexts
    cases texts with
    | nil => simp [toList_entries_singleton, hindent, htext]
    | cons next texts =>
      have hlater := ih hrest
      simp [toList_entries_cons, hindent, htext, hlater]

/-- **No carriage return is in the text of a value**: in strings it is written as an escape. -/
theorem notMem_indented (h : IsPlain depth json) (hindent : '\r' ∉ indent.toList) :
    '\r' ∉ (indented indent json).toList := by
  induction h generalizing indent with
  | null => simp [indented, scalar]
  | bool b => cases b <;> simp [indented, scalar]
  | string s => exact notMem_quote s
  | emptyArray => simp [indented]
  | emptyObject => simp [indented]
  | @array _ items hitems ih =>
    cases items with
    | nil => simp [indented]
    | cons item items =>
      have htexts : ∀ text ∈ (item :: items).map (indented (indent ++ "  ")), '\r' ∉ text.toList :=
        List.forall_mem_map.2 fun item hitem => ih item hitem (by simpa using hindent)
      have hentries := notMem_entries hindent htexts
      simpa [indented, indentedItems_eq_map] using hentries
  | @object _ pairs hkeys hvalues ih =>
    cases pairs with
    | nil => simp [indented]
    | cons p pairs =>
      have htexts : ∀ text ∈ (p :: pairs).map fun p =>
          quote p.1 ++ ": " ++ indented (indent ++ "  ") p.2, '\r' ∉ text.toList :=
        List.forall_mem_map.2 fun p hp => by
          simpa [notMem_quote] using ih p hp (by simpa using hindent)
      have hentries := notMem_entries hindent htexts
      simpa [indented, indentedPairs_eq_map] using hentries

end FluentBuilders.Json
