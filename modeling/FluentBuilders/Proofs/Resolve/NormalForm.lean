import FluentBuilders.Resolve.NormalForm

/-!
# Proofs/Resolve/NormalForm — how many constituents the normal form leaves

The normal form drops repeats and `never`, is `any` or `unknown` when one of them is there, and with
null checks off has no `null` or `undefined` beside anything else.  So it has several constituents
exactly when two that **count** are written differently and nothing absorbs them
(`one_lt_length_normalize_iff`).
-/

namespace FluentBuilders

variable {strict : Bool} {seen : List String} {types : List ResolvedType} {t : ResolvedType}

/-! ## Repeats -/

theorem of_mem_dropRepeats (h : t ∈ dropRepeats seen types) :
    t ∈ types ∧ t.kind ≠ .never ∧ t.text ∉ seen := by
  induction types generalizing seen with
  | nil => simp [dropRepeats] at h
  | cons u types ih =>
    rw [dropRepeats] at h
    split at h
    · obtain ⟨hmem, hrest⟩ := ih h
      exact ⟨List.mem_cons_of_mem u hmem, hrest⟩
    · next hu =>
      rcases List.mem_cons.1 h with rfl | h
      · exact ⟨List.mem_cons_self, fun hk => hu (.inl hk), fun hs => hu (.inr hs)⟩
      · obtain ⟨hmem, hkind, hseen⟩ := ih h
        exact ⟨List.mem_cons_of_mem u hmem, hkind, fun hs => hseen (List.mem_cons_of_mem _ hs)⟩

/-- Every text of a type that is not `never` is kept, with the first type of that text. -/
theorem exists_mem_dropRepeats (h : t ∈ types) (hkind : t.kind ≠ .never) (hseen : t.text ∉ seen) :
    ∃ u ∈ dropRepeats seen types, u.text = t.text := by
  induction types generalizing seen with
  | nil => simp at h
  | cons u types ih =>
    rw [dropRepeats]
    split
    · next hu =>
      rcases List.mem_cons.1 h with rfl | h
      · exact absurd hu (not_or.2 ⟨hkind, hseen⟩)
      · exact ih h hseen
    · by_cases htext : t.text = u.text
      · exact ⟨u, List.mem_cons_self, htext.symm⟩
      · rcases List.mem_cons.1 h with rfl | h
        · exact absurd rfl htext
        · have hnew : t.text ∉ u.text :: seen := by
            rw [List.mem_cons, not_or]
            exact ⟨htext, hseen⟩
          obtain ⟨v, hv, hvt⟩ := ih h hnew
          exact ⟨v, List.mem_cons_of_mem u hv, hvt⟩

theorem pairwise_dropRepeats :
    (dropRepeats seen types).Pairwise fun t u => t.text ≠ u.text := by
  induction types generalizing seen with
  | nil => exact List.Pairwise.nil
  | cons u types ih =>
    rw [dropRepeats]
    split
    · exact ih
    · refine List.Pairwise.cons (fun v hv heq => ?_) ih
      exact (of_mem_dropRepeats hv).2.2 (heq ▸ List.mem_cons_self)

/-! ## Order -/

theorem flatMap_filter_perm (names : List String) (hnames : names.Nodup)
    (types : List ResolvedType) :
    (names.flatMap (fun name => types.filter (·.text == name)) ++
      types.filter (!names.contains ·.text)).Perm types := by
  induction names with
  | nil =>
    have hall : types.filter (!([] : List String).contains ·.text) = types := by simp
    rw [List.flatMap_nil, List.nil_append, hall]
  | cons name names ih =>
    obtain ⟨hname, hnames⟩ := List.nodup_cons.1 hnames
    have hout : types.filter (!(name :: names).contains ·.text) =
        (types.filter (!names.contains ·.text)).filter (fun t => !(t.text == name)) := by
      rw [List.filter_filter]
      refine List.filter_congr fun t _ => ?_
      by_cases ht : t.text = name <;> simp [ht]
    have hin : types.filter (·.text == name) =
        (types.filter (!names.contains ·.text)).filter (·.text == name) := by
      rw [List.filter_filter]
      refine List.filter_congr fun t _ => ?_
      by_cases ht : t.text = name
      · simp [ht, hname]
      · simp [ht]
    refine List.Perm.trans ?_ (ih hnames)
    rw [List.flatMap_cons, List.append_assoc, hout, hin, ← List.append_assoc]
    refine (List.perm_append_comm.append_right _).trans ?_
    rw [List.append_assoc]
    exact (List.filter_append_perm _ _).append_left _

theorem intrinsicsFirst_perm (types : List ResolvedType) : (intrinsicsFirst types).Perm types :=
  flatMap_filter_perm intrinsicOrder (by decide) types

/-! ## Constituents that count -/

/-- **A constituent that counts**: the first of its text, not `never`, and with null checks off not
`null` or `undefined` unless there is nothing else. -/
def Counts (strict : Bool) (types : List ResolvedType) (t : ResolvedType) : Prop :=
  t ∈ dropRepeats [] types ∧
    (strict = true ∨ isNullish t = false ∨ ∀ u ∈ dropRepeats [] types, isNullish u = true)

/-- **A union of its constituents**: none of them absorbs the others, and two that count are written
differently. -/
def IsUnion (strict : Bool) (types : List ResolvedType) : Prop :=
  (∀ t ∈ types, t.kind ≠ .any ∧ t.kind ≠ .unknown) ∧
    ∃ t u, Counts strict types t ∧ Counts strict types u ∧ t.text ≠ u.text

/-- The constituents that count, in the order they come first. -/
def counted (strict : Bool) (types : List ResolvedType) : List ResolvedType :=
  if strict then dropRepeats [] types else dropNullish (dropRepeats [] types)

theorem mem_dropNullish_iff :
    t ∈ dropNullish types ↔ t ∈ types ∧ (isNullish t = false ∨ ∀ u ∈ types, isNullish u = true) := by
  unfold dropNullish
  cases hothers : types.filter (!isNullish ·) with
  | nil =>
    have hall : ∀ u ∈ types, isNullish u = true := by
      simpa [List.filter_eq_nil_iff] using hothers
    exact ⟨fun h => ⟨h, .inr hall⟩, And.left⟩
  | cons u others =>
    have hu : u ∈ types ∧ isNullish u = false := by
      have : u ∈ types.filter (!isNullish ·) := hothers ▸ List.mem_cons_self
      simpa using this
    have hnot : ¬ ∀ v ∈ types, isNullish v = true := fun h => by simpa [hu.2] using h u hu.1
    simp only [hnot, or_false]
    rw [← hothers]
    simp

theorem mem_counted_iff : t ∈ counted strict types ↔ Counts strict types t := by
  cases strict with
  | true => simp [counted, Counts]
  | false => simp [counted, Counts, mem_dropNullish_iff]

theorem dropNullish_sublist : (dropNullish types).Sublist types := by
  unfold dropNullish
  split
  · exact List.Sublist.refl types
  · exact List.filter_sublist

theorem pairwise_counted : (counted strict types).Pairwise fun t u => t.text ≠ u.text := by
  unfold counted
  split
  · exact pairwise_dropRepeats
  · exact pairwise_dropRepeats.sublist dropNullish_sublist

/-- Types that neither absorb nor vanish make a union as soon as two are written differently. -/
theorem isUnion_of_plain {u : ResolvedType}
    (hplain : ∀ t ∈ types, t.kind ∉ [TypeKind.any, .unknown, .never, .null, .undefined])
    (ht : t ∈ types) (hu : u ∈ types) (hne : t.text ≠ u.text) : IsUnion strict types := by
  have hcounts : ∀ v ∈ types, ∃ w, Counts strict types w ∧ w.text = v.text := by
    intro v hv
    obtain ⟨w, hw, hwv⟩ := @exists_mem_dropRepeats [] types v hv
      (fun hk => by simpa [hk] using hplain v hv) List.not_mem_nil
    refine ⟨w, ⟨hw, .inr (.inl ?_)⟩, hwv⟩
    have := hplain w (of_mem_dropRepeats hw).1
    cases hk : w.kind <;> simp_all [isNullish]
  obtain ⟨t', ht', htt⟩ := hcounts t ht
  obtain ⟨u', hu', huu⟩ := hcounts u hu
  refine ⟨fun v hv => ?_, t', u', ht', hu', by rwa [htt, huu]⟩
  have := hplain v hv
  constructor <;> rintro hk <;> simp [hk] at this

/-! ## Types told by their text -/

/-- **What is in the normal form** with null checks on, when types of one text are the same type: the
type that absorbs the others, or every one of them. -/
theorem mem_normalize_iff {typeOf : String → ResolvedType}
    (htext : ∀ u ∈ types, typeOf u.text = u) (hnever : ∀ u ∈ types, u.kind ≠ .never) :
    t ∈ normalize true types ↔
      if ∃ u ∈ types, u.kind = .any then t = .any
      else if ∃ u ∈ types, u.kind = .unknown then t = .unknown
      else t ∈ types := by
  have hdistinct : t ∈ dropRepeats [] types ↔ t ∈ types := by
    refine ⟨fun h => (of_mem_dropRepeats h).1, fun h => ?_⟩
    obtain ⟨u, hu, heq⟩ := exists_mem_dropRepeats h (hnever t h) List.not_mem_nil
    have hsame := htext u (of_mem_dropRepeats hu).1
    rw [heq, htext t h] at hsame
    rwa [hsame]
  have hany : ∀ k : TypeKind, types.any (·.kind == k) = true ↔ ∃ u ∈ types, u.kind = k := by
    simp
  unfold normalize
  simp only [hany, if_true]
  split
  · exact List.mem_singleton
  split
  · exact List.mem_singleton
  · rw [(intrinsicsFirst_perm _).mem_iff, hdistinct]

end FluentBuilders
