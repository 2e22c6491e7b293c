import FluentBuilders.Proofs.Resolve.NormalForm
import Mathlib.Data.List.Basic

/-!
# Proofs/Resolve/Alike — constituents that no union tells apart

Two lists of constituents are **alike** when a union has the same normal form with the one as with
the other in it, whatever stands before and after.  The normal form of a list is alike to the list
(`alike_normalize`): bringing a part of a union to normal form first changes nothing.

With null checks off this takes constituents whose text says whether they are `null` or `undefined`
(`TellsNullish`): of two that share a text, only the first is looked at.
-/

namespace FluentBuilders

variable {strict : Bool} {seen : List String} {xs ys zs : List ResolvedType} {t : ResolvedType}

/-! ## Repeats -/

theorem dropRepeats_congr {seen seen' : List String} (h : ∀ x, x ∈ seen ↔ x ∈ seen') :
    dropRepeats seen xs = dropRepeats seen' xs := by
  induction xs generalizing seen seen' with
  | nil => rfl
  | cons u xs ih =>
    have hcons : ∀ x, x ∈ u.text :: seen ↔ x ∈ u.text :: seen' := fun x => by simp [h x]
    rw [dropRepeats, dropRepeats, ih h, ih hcons]
    simp [h]

/-- A text that does not occur need not be remembered. -/
theorem dropRepeats_cons_of_forall_ne {x : String} (h : ∀ t ∈ xs, t.text ≠ x) :
    dropRepeats (x :: seen) xs = dropRepeats seen xs := by
  induction xs generalizing seen with
  | nil => rfl
  | cons u xs ih =>
    obtain ⟨hu, hxs⟩ := List.forall_mem_cons.1 h
    have hswap : dropRepeats (u.text :: x :: seen) xs = dropRepeats (x :: u.text :: seen) xs :=
      dropRepeats_congr fun y => by simp only [List.mem_cons, or_left_comm]
    rw [dropRepeats, dropRepeats, hswap, ih hxs, ih hxs]
    simp [hu]

/-- **Repeats that are dropped already** need not be dropped again. -/
theorem dropRepeats_dropRepeats_append {seen seen' : List String} (h : ∀ x ∈ seen', x ∈ seen) :
    dropRepeats seen (dropRepeats seen' xs ++ ys) = dropRepeats seen (xs ++ ys) := by
  induction xs generalizing seen seen' with
  | nil => rfl
  | cons u xs ih =>
    rw [dropRepeats, List.cons_append, dropRepeats]
    by_cases hu' : u.kind = .never ∨ u.text ∈ seen'
    · rw [if_pos hu', if_pos (hu'.imp_right (h _)), ih h]
    rw [if_neg hu', List.cons_append, dropRepeats]
    split
    · next hu =>
      have hsub : ∀ x ∈ u.text :: seen', x ∈ seen :=
        List.forall_mem_cons.2 ⟨hu.resolve_left fun hk => hu' (.inl hk), h⟩
      exact ih hsub
    · have hsub : ∀ x ∈ u.text :: seen', x ∈ u.text :: seen :=
        fun x hx => List.mem_cons.2 ((List.mem_cons.1 hx).imp_right (h x))
      rw [ih hsub]

theorem dropRepeats_append_dropRepeats :
    dropRepeats seen (xs ++ dropRepeats [] ys ++ zs) = dropRepeats seen (xs ++ ys ++ zs) := by
  induction xs generalizing seen with
  | nil => exact dropRepeats_dropRepeats_append (by simp)
  | cons u xs ih =>
    simp only [List.cons_append, dropRepeats, ih]

/-- What is dropped is decided text by text. -/
theorem filter_dropRepeats (p : String → Bool) :
    (dropRepeats seen xs).filter (p ·.text) = dropRepeats seen (xs.filter (p ·.text)) := by
  induction xs generalizing seen with
  | nil => rfl
  | cons u xs ih =>
    rw [dropRepeats]
    by_cases hp : p u.text
    · rw [List.filter_cons_of_pos (p := fun t : ResolvedType => p t.text) hp, dropRepeats]
      split
      · exact ih
      · rw [List.filter_cons_of_pos (p := fun t : ResolvedType => p t.text) hp, ih]
    · rw [List.filter_cons_of_neg (p := fun t : ResolvedType => p t.text) hp]
      split
      · exact ih
      · rw [List.filter_cons_of_neg (p := fun t : ResolvedType => p t.text) hp, ih,
          dropRepeats_cons_of_forall_ne]
        intro t ht heq
        exact hp (heq ▸ (List.mem_filter.1 ht).2)

/-! ## Slots -/

/-- **The same in every slot** of the normal form: the constituents with the text of each intrinsic
type, and those with no such text, come in the same order. -/
structure SameSlots (xs ys : List ResolvedType) : Prop where
  intrinsic : ∀ name ∈ intrinsicOrder, xs.filter (·.text == name) = ys.filter (·.text == name)
  other : xs.filter (!intrinsicOrder.contains ·.text) = ys.filter (!intrinsicOrder.contains ·.text)

namespace SameSlots

theorem refl (xs : List ResolvedType) : SameSlots xs xs := ⟨fun _ _ => rfl, rfl⟩

theorem append {xs' ys' : List ResolvedType} (h : SameSlots xs ys) (h' : SameSlots xs' ys') :
    SameSlots (xs ++ xs') (ys ++ ys') where
  intrinsic name hname := by
    rw [List.filter_append, List.filter_append, h.intrinsic name hname, h'.intrinsic name hname]
  other := by rw [List.filter_append, List.filter_append, h.other, h'.other]

theorem dropRepeats (h : SameSlots xs ys) :
    SameSlots (dropRepeats [] xs) (dropRepeats [] ys) where
  intrinsic name hname := by
    rw [filter_dropRepeats (· == name), filter_dropRepeats (· == name), h.intrinsic name hname]
  other := by
    rw [filter_dropRepeats (!intrinsicOrder.contains ·),
      filter_dropRepeats (!intrinsicOrder.contains ·), h.other]

theorem filter (h : SameSlots xs ys) (p : ResolvedType → Bool) :
    SameSlots (xs.filter p) (ys.filter p) where
  intrinsic name hname := by
    simp only [List.filter_filter, Bool.and_comm _ (p _)]
    simp only [← List.filter_filter, h.intrinsic name hname]
  other := by
    simp only [List.filter_filter, Bool.and_comm _ (p _)]
    simp only [← List.filter_filter, h.other]

theorem intrinsicsFirst (h : SameSlots xs ys) : intrinsicsFirst xs = intrinsicsFirst ys := by
  unfold FluentBuilders.intrinsicsFirst
  rw [h.other]
  congr 1
  exact List.flatMap_congr h.intrinsic

theorem mem_iff (h : SameSlots xs ys) : t ∈ xs ↔ t ∈ ys := by
  by_cases ht : t.text ∈ intrinsicOrder
  · have := h.intrinsic _ ht
    have hmem : ∀ zs : List ResolvedType, t ∈ zs ↔ t ∈ zs.filter (·.text == t.text) := by simp
    rw [hmem xs, hmem ys, this]
  · have hmem : ∀ zs : List ResolvedType,
        t ∈ zs ↔ t ∈ zs.filter (!intrinsicOrder.contains ·.text) := by simp [ht]
    rw [hmem xs, hmem ys, h.other]

theorem dropNullish (h : SameSlots xs ys) : SameSlots (dropNullish xs) (dropNullish ys) := by
  unfold FluentBuilders.dropNullish
  have hfilter := h.filter (!isNullish ·)
  cases hxs : xs.filter (!isNullish ·) with
  | nil =>
    have hys : ys.filter (!isNullish ·) = [] := by
      rw [List.eq_nil_iff_forall_not_mem] at hxs ⊢
      exact fun t ht => hxs t (hfilter.mem_iff.2 ht)
    rw [hys]
    exact h
  | cons u others =>
    cases hys : ys.filter (!isNullish ·) with
    | nil =>
      have hu : u ∈ ys.filter (!isNullish ·) := hfilter.mem_iff.1 (hxs ▸ List.mem_cons_self)
      rw [hys] at hu
      cases hu
    | cons v others' => rwa [hxs, hys] at hfilter

end SameSlots

/-- Among the constituents that have a text of a list, those of one text. -/
theorem filter_flatMap_filter (names : List String) (hnames : names.Nodup) {name : String}
    (hname : name ∈ names) (xs : List ResolvedType) :
    (names.flatMap fun n => xs.filter (·.text == n)).filter (·.text == name) =
      xs.filter (·.text == name) := by
  induction names with
  | nil => cases hname
  | cons n names ih =>
    obtain ⟨hn, hnames⟩ := List.nodup_cons.1 hnames
    rw [List.flatMap_cons, List.filter_append, List.filter_filter]
    obtain rfl | hmem := List.mem_cons.1 hname
    · have hrest :
          (names.flatMap fun n => xs.filter (·.text == n)).filter (·.text == name) = [] := by
        simp only [List.filter_eq_nil_iff, List.mem_flatMap, List.mem_filter, beq_iff_eq]
        rintro t ⟨n, hn', -, rfl⟩ rfl
        exact hn hn'
      rw [hrest]
      simp
    · have hfirst : xs.filter (fun t => t.text == name && t.text == n) = [] := by
        simp only [List.filter_eq_nil_iff, Bool.and_eq_true, beq_iff_eq]
        rintro t - ⟨rfl, rfl⟩
        exact hn hmem
      rw [hfirst, ih hnames hmem, List.nil_append]

/-- **The order changes no slot.** -/
theorem sameSlots_intrinsicsFirst (xs : List ResolvedType) :
    SameSlots (intrinsicsFirst xs) xs where
  intrinsic name hname := by
    have hother : (xs.filter (!intrinsicOrder.contains ·.text)).filter (·.text == name) = [] := by
      simp only [List.filter_eq_nil_iff, List.mem_filter, beq_iff_eq]
      rintro t ⟨-, ht⟩ rfl
      simp [hname] at ht
    rw [intrinsicsFirst, List.filter_append, filter_flatMap_filter _ (by decide) hname, hother,
      List.append_nil]
  other := by
    have hnone : (intrinsicOrder.flatMap fun name => xs.filter (·.text == name)).filter
        (!intrinsicOrder.contains ·.text) = [] := by
      simp only [List.filter_eq_nil_iff, List.mem_flatMap, List.mem_filter, beq_iff_eq]
      rintro t ⟨name, hname, -, rfl⟩
      simp [hname]
    rw [intrinsicsFirst, List.filter_append, hnone, List.nil_append, List.filter_filter]
    simp

/-! ## Absorption -/

/-- The texts of `null` and `undefined`. -/
def isNullishText (text : String) : Bool := text == "null" || text == "undefined"

/-- **A constituent whose text says whether it is `null` or `undefined`.** -/
def TellsNullish (t : ResolvedType) : Prop := isNullish t = isNullishText t.text

theorem dropNullish_of_forall (h : ∀ t ∈ xs, isNullish t = true) : dropNullish xs = xs := by
  have hnone : xs.filter (!isNullish ·) = [] := by simpa [List.filter_eq_nil_iff] using h
  rw [dropNullish, hnone]

theorem dropNullish_of_exists (htells : ∀ t ∈ xs, TellsNullish t)
    (h : ∃ t ∈ xs, isNullish t = false) :
    dropNullish xs = xs.filter (!isNullishText ·.text) := by
  have hfilter : xs.filter (!isNullish ·) = xs.filter (!isNullishText ·.text) :=
    List.filter_congr fun t ht => by rw [htells t ht]
  obtain ⟨t, ht, hkind⟩ := h
  have hmem : t ∈ xs.filter (!isNullish ·) := by simp [ht, hkind]
  unfold dropNullish
  split
  · next hnone => rw [hnone] at hmem; cases hmem
  · exact hfilter

theorem exists_isNullish_dropRepeats (htells : ∀ t ∈ xs, TellsNullish t) (ht : t ∈ xs)
    (hnever : t.kind ≠ .never) (hkind : isNullish t = false) :
    ∃ u ∈ dropRepeats [] xs, isNullish u = false := by
  obtain ⟨u, hu, heq⟩ := exists_mem_dropRepeats ht hnever List.not_mem_nil
  refine ⟨u, hu, ?_⟩
  rw [htells u (of_mem_dropRepeats hu).1, heq, ← htells t ht, hkind]

theorem tellsNullish_of_mem_dropRepeats (h : ∀ t ∈ xs, TellsNullish t) :
    ∀ t ∈ dropRepeats seen xs, TellsNullish t :=
  fun t ht => h t (of_mem_dropRepeats ht).1

/-- **Dropping `null` and `undefined` early** changes nothing in the end. -/
theorem dropNullish_append_dropNullish (h : ∀ t ∈ xs ++ ys ++ zs, TellsNullish t) :
    dropNullish (dropRepeats [] (xs ++ dropNullish (dropRepeats [] ys) ++ zs)) =
      dropNullish (dropRepeats [] (xs ++ ys ++ zs)) := by
  have hys : ∀ t ∈ ys, TellsNullish t := fun t ht => h t (by simp [ht])
  by_cases hall : ∀ t ∈ dropRepeats [] ys, isNullish t = true
  · rw [dropNullish_of_forall hall, dropRepeats_append_dropRepeats]
  obtain ⟨u, hu, hkind⟩ : ∃ u ∈ dropRepeats [] ys, isNullish u = false := by simpa using hall
  obtain ⟨huys, hnever, -⟩ := of_mem_dropRepeats hu
  have hless : ∀ t ∈ xs ++ ys.filter (!isNullishText ·.text) ++ zs, TellsNullish t :=
    fun t ht => h t (by
      simp only [List.mem_append, List.mem_filter] at ht ⊢
      exact ht.imp_left (Or.imp_right And.left))
  have hkept : u ∈ ys.filter (!isNullishText ·.text) := by
    have htext : isNullishText u.text = false := (hys u huys).symm.trans hkind
    simp [huys, htext]
  rw [dropNullish_of_exists (tellsNullish_of_mem_dropRepeats hys) ⟨u, hu, hkind⟩,
    filter_dropRepeats (!isNullishText ·), dropRepeats_append_dropRepeats,
    dropNullish_of_exists (tellsNullish_of_mem_dropRepeats hless)
      (exists_isNullish_dropRepeats hless (by simp [hkept]) hnever hkind),
    dropNullish_of_exists (tellsNullish_of_mem_dropRepeats h)
      (exists_isNullish_dropRepeats h (by simp [huys]) hnever hkind),
    filter_dropRepeats (!isNullishText ·), filter_dropRepeats (!isNullishText ·)]
  simp [List.filter_append]

theorem normalize_of_any (h : ∃ t ∈ xs, t.kind = .any) : normalize strict xs = [.any] := by
  have hany : xs.any (·.kind == .any) = true := by simpa using h
  rw [normalize, if_pos hany]

theorem normalize_of_unknown (hany : ¬ ∃ t ∈ xs, t.kind = .any) (h : ∃ t ∈ xs, t.kind = .unknown) :
    normalize strict xs = [.unknown] := by
  have hany' : ¬ xs.any (·.kind == .any) = true := by simpa using hany
  have hunknown : xs.any (·.kind == .unknown) = true := by simpa using h
  rw [normalize, if_neg hany', if_pos hunknown]

theorem normalize_of_plain (hany : ¬ ∃ t ∈ xs, t.kind = .any)
    (hunknown : ¬ ∃ t ∈ xs, t.kind = .unknown) :
    normalize strict xs = intrinsicsFirst (counted strict xs) := by
  have hany' : ¬ xs.any (·.kind == .any) = true := by simpa using hany
  have hunknown' : ¬ xs.any (·.kind == .unknown) = true := by simpa using hunknown
  rw [normalize, if_neg hany', if_neg hunknown', counted]

/-- The normal form makes no constituents. -/
theorem mem_of_mem_normalize (h : t ∈ normalize strict xs) :
    t ∈ xs ∨ (t = .any ∧ ∃ u ∈ xs, u.kind = .any) ∨
      (t = .unknown ∧ ∃ u ∈ xs, u.kind = .unknown) := by
  by_cases hany : ∃ t ∈ xs, t.kind = .any
  · rw [normalize_of_any hany, List.mem_singleton] at h
    exact .inr (.inl ⟨h, hany⟩)
  by_cases hunknown : ∃ t ∈ xs, t.kind = .unknown
  · rw [normalize_of_unknown hany hunknown, List.mem_singleton] at h
    exact .inr (.inr ⟨h, hunknown⟩)
  · rw [normalize_of_plain hany hunknown, (intrinsicsFirst_perm _).mem_iff] at h
    exact .inl (of_mem_dropRepeats (mem_counted_iff.1 h).1).1

/-- What absorbs a list absorbs its normal form. -/
theorem exists_absorbing_normalize :
    ((∃ t ∈ normalize strict xs, t.kind = .any) ↔ ∃ t ∈ xs, t.kind = .any) ∧
      ((¬ ∃ t ∈ xs, t.kind = .any) →
        ((∃ t ∈ normalize strict xs, t.kind = .unknown) ↔ ∃ t ∈ xs, t.kind = .unknown)) := by
  refine ⟨⟨?_, fun h => ?_⟩, fun hany => ⟨?_, fun h => ?_⟩⟩
  · rintro ⟨t, ht, hk⟩
    obtain ht | ⟨-, h⟩ | ⟨rfl, -⟩ := mem_of_mem_normalize ht
    · exact ⟨t, ht, hk⟩
    · exact h
    · cases hk
  · exact ⟨.any, by rw [normalize_of_any h]; exact List.mem_singleton_self _, rfl⟩
  · rintro ⟨t, ht, hk⟩
    obtain ht | ⟨rfl, -⟩ | ⟨-, h⟩ := mem_of_mem_normalize ht
    · exact ⟨t, ht, hk⟩
    · cases hk
    · exact h
  · refine ⟨.unknown, ?_, rfl⟩
    rw [normalize_of_unknown hany h]
    exact List.mem_singleton_self _

/-- **Normal form absorbs normal form.** -/
theorem normalize_append_normalize (h : ∀ t ∈ xs ++ ys ++ zs, TellsNullish t) :
    normalize strict (xs ++ normalize strict ys ++ zs) = normalize strict (xs ++ ys ++ zs) := by
  obtain ⟨hiffAny, hiffUnknown⟩ := @exists_absorbing_normalize strict ys
  have hexists : ∀ (k : TypeKind) (ws : List ResolvedType), (∃ t ∈ xs ++ ws ++ zs, t.kind = k) ↔
      (∃ t ∈ xs, t.kind = k) ∨ (∃ t ∈ ws, t.kind = k) ∨ ∃ t ∈ zs, t.kind = k := by
    intro k ws
    simp only [List.mem_append, or_and_right, exists_or, or_assoc]
  by_cases hany : ∃ t ∈ xs ++ ys ++ zs, t.kind = .any
  · have hany' : ∃ t ∈ xs ++ normalize strict ys ++ zs, t.kind = .any := by
      rw [hexists] at hany ⊢
      rwa [hiffAny]
    rw [normalize_of_any hany, normalize_of_any hany']
  have hany' : ¬ ∃ t ∈ xs ++ normalize strict ys ++ zs, t.kind = .any := by
    rw [hexists] at hany ⊢
    rwa [hiffAny]
  have hys : ¬ ∃ t ∈ ys, t.kind = .any := fun hmem => hany ((hexists _ _).2 (.inr (.inl hmem)))
  by_cases hunknown : ∃ t ∈ xs ++ ys ++ zs, t.kind = .unknown
  · have hunknown' : ∃ t ∈ xs ++ normalize strict ys ++ zs, t.kind = .unknown := by
      rw [hexists] at hunknown ⊢
      rwa [hiffUnknown hys]
    rw [normalize_of_unknown hany hunknown, normalize_of_unknown hany' hunknown']
  have hunknown' : ¬ ∃ t ∈ xs ++ normalize strict ys ++ zs, t.kind = .unknown := by
    rw [hexists] at hunknown ⊢
    rwa [hiffUnknown hys]
  have hysUnknown : ¬ ∃ t ∈ ys, t.kind = .unknown :=
    fun hmem => hunknown ((hexists _ _).2 (.inr (.inl hmem)))
  rw [normalize_of_plain hany hunknown, normalize_of_plain hany' hunknown',
    normalize_of_plain hys hysUnknown]
  have hslots : SameSlots (xs ++ intrinsicsFirst (counted strict ys) ++ zs)
      (xs ++ counted strict ys ++ zs) :=
    ((SameSlots.refl xs).append (sameSlots_intrinsicsFirst _)).append (.refl zs)
  cases strict with
  | true =>
    rw [counted, if_pos rfl, hslots.dropRepeats.intrinsicsFirst, counted, if_pos rfl,
      dropRepeats_append_dropRepeats, counted, if_pos rfl]
  | false =>
    simp only [counted, Bool.false_eq_true, if_false] at hslots ⊢
    rw [hslots.dropRepeats.dropNullish.intrinsicsFirst, dropNullish_append_dropNullish h]

/-! ## Alike -/

/-- **Lists of constituents that no union tells apart.** -/
structure Alike (strict : Bool) (xs ys : List ResolvedType) : Prop where
  left : ∀ t ∈ xs, TellsNullish t
  right : ∀ t ∈ ys, TellsNullish t
  normalize_append : ∀ before after : List ResolvedType, (∀ t ∈ before ++ after, TellsNullish t) →
    normalize strict (before ++ xs ++ after) = normalize strict (before ++ ys ++ after)

namespace Alike

theorem refl (h : ∀ t ∈ xs, TellsNullish t) : Alike strict xs xs := ⟨h, h, fun _ _ _ => rfl⟩

theorem normalize_eq (h : Alike strict xs ys) : normalize strict xs = normalize strict ys := by
  simpa using h.normalize_append [] [] (by simp)

theorem append {xs' ys' : List ResolvedType} (h : Alike strict xs ys)
    (h' : Alike strict xs' ys') : Alike strict (xs ++ xs') (ys ++ ys') where
  left := List.forall_mem_append.2 ⟨h.left, h'.left⟩
  right := List.forall_mem_append.2 ⟨h.right, h'.right⟩
  normalize_append before after hctx := by
    obtain ⟨hbefore, hafter⟩ := List.forall_mem_append.1 hctx
    have hfirst := h.normalize_append before (xs' ++ after)
      (List.forall_mem_append.2 ⟨hbefore, List.forall_mem_append.2 ⟨h'.left, hafter⟩⟩)
    have hsecond := h'.normalize_append (before ++ ys) after
      (List.forall_mem_append.2 ⟨List.forall_mem_append.2 ⟨hbefore, h.right⟩, hafter⟩)
    simp only [List.append_assoc] at hfirst hsecond ⊢
    rw [hfirst, hsecond]

end Alike

/-- **A list is alike to its normal form.** -/
theorem alike_normalize (h : ∀ t ∈ xs, TellsNullish t) : Alike strict (normalize strict xs) xs where
  left t ht := by
    obtain ht | ⟨rfl, -⟩ | ⟨rfl, -⟩ := mem_of_mem_normalize ht
    · exact h t ht
    · rfl
    · rfl
  right := h
  normalize_append before after hctx := by
    refine normalize_append_normalize ?_
    obtain ⟨hbefore, hafter⟩ := List.forall_mem_append.1 hctx
    exact List.forall_mem_append.2 ⟨List.forall_mem_append.2 ⟨hbefore, h⟩, hafter⟩

end FluentBuilders
