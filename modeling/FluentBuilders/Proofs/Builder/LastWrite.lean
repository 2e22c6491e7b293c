import FluentBuilders.Builder.Live
import FluentBuilders.Proofs.Builder.Methods
import FluentBuilders.Proofs.Json.Pairs

/-!
# Proofs/Builder/LastWrite — builders at work leave the last value written to each key

Builders of one class are called in any order, several of them possibly around one object.  A call
writes at most one pair, and only to the object that its builder holds (`call_eq`); so in the end
every object has its first content overwritten by what was written through any builder around it
(`callAll_eq`), key by key the last value (`last_write_wins`).
-/

namespace FluentBuilders

namespace ObjectStore

variable {s : ObjectStore} {id other : ObjectId} {key : String} {value : Json}

@[simp] theorem length_write : (s.write id key value).length = s.length :=
  List.length_modify ..

theorem content_write (hid : id < s.length) :
    (s.write id key value).content other =
      if other = id then Pairs.put key value (s.content id) else s.content other := by
  simp only [content, write, List.getD_eq_getElem?_getD, List.getElem?_modify]
  by_cases h : other = id
  · subst h
    simp [hid]
  · simp [h, Ne.symm h]

end ObjectStore

/-! ## Calls -/

/-- **A call as a builder expects it**: a setter with one value, or one of the two other methods with
nothing. -/
inductive BuilderCall where
  | set (setter : MethodSpec) (value : Json)
  | stamp
  | get

namespace BuilderCall

/-- The name that is called. -/
def name (naming : NamingConfig) : BuilderCall → String
  | .set setter _ => setter.name
  | .stamp => naming.typenameMethod
  | .get => naming.accessorMethod

/-- What it is called with. -/
def arguments : BuilderCall → List Json
  | .set _ value => [value]
  | .stamp | .get => []

/-- What a call should give back: the accessor the object that is held, any other its builder. -/
def result : BuilderCall → CallResult
  | .set _ _ | .stamp => .builder
  | .get => .held

/-- **What a call should write**: a setter its value to its field, the method that stamps the type's
name that name. -/
def written? (naming : NamingConfig) (declaration : String) :
    BuilderCall → Option (String × Json)
  | .set setter value => setter.fieldName.map (·, value)
  | .stamp => some (naming.typenameField, .string declaration)
  | .get => none

/-- The setter that is called, if one is, is one of the builder's. -/
def IsOf (b : BuilderSpec) : BuilderCall → Prop
  | .set setter _ => setter ∈ b.setters
  | .stamp | .get => True

end BuilderCall

/-- **Builders of one class**, each around a seed or around an object of its own. -/
def makeAll (spec : BuilderSpec) :
    List (Option ObjectId) → ObjectStore → Except CallError (List LiveBuilder × ObjectStore)
  | [], store => .ok ([], store)
  | seed :: seeds, store => do
    let (builder, store) ← LiveBuilder.make spec seed store
    let (builders, store) ← makeAll spec seeds store
    return (builder :: builders, store)

/-- **Calls made one after the other**, each of the builder with the given number: what they give
back, and the builders and objects after them. -/
def callAll (naming : NamingConfig) : List (Nat × BuilderCall) → List LiveBuilder → ObjectStore →
    Except CallError (List CallResult × List LiveBuilder × ObjectStore)
  | [], builders, store => .ok ([], builders, store)
  | (n, c) :: calls, builders, store =>
    match builders[n]? with
    | none => callAll naming calls builders store
    | some b => do
      let (result, b, store) ← b.call (c.name naming) c.arguments store
      let (results, builders, store) ← callAll naming calls (builders.set n b) store
      return (result :: results, builders, store)

/-- The objects that builders hold: their seeds, or the next objects from `next` on. -/
def heldObjects : ObjectId → List (Option ObjectId) → List ObjectId
  | _, [] => []
  | next, some seed :: seeds => seed :: heldObjects next seeds
  | next, none :: seeds => next :: heldObjects (next + 1) seeds

/-- **What calls write to an object**, in order, when the builders hold the given objects. -/
def writesTo (naming : NamingConfig) (declaration : String) (held : List ObjectId) (id : ObjectId)
    (calls : List (Nat × BuilderCall)) : List (String × Json) :=
  calls.filterMap fun c => if held[c.1]? = some id then c.2.written? naming declaration else none

/-! ## Making builders -/

section
variable {spec : BuilderSpec} {seeds : List (Option ObjectId)} {store store' : ObjectStore}
  {builders : List LiveBuilder}

theorem makeAll_eq_ok (h : makeAll spec seeds store = .ok (builders, store')) :
    builders = (heldObjects store.length seeds).map (fun id => ⟨spec, .object id⟩) ∧
      store' = store ++ List.replicate (seeds.count none) [] := by
  induction seeds generalizing store builders with
  | nil =>
    cases h
    simp [heldObjects]
  | cons seed seeds ih =>
    unfold makeAll LiveBuilder.make at h
    cases hmaking : LiveBuilder.makingError? spec with
    | some e =>
      rw [hmaking] at h
      cases h
    | none =>
      rw [hmaking] at h
      cases seed with
      | some id =>
        change (makeAll spec seeds store >>= fun made =>
          pure (⟨spec, .object id⟩ :: made.1, made.2)) = _ at h
        cases hmade : makeAll spec seeds store with
        | error e => rw [hmade] at h; cases h
        | ok made =>
          rw [hmade] at h
          cases h
          obtain ⟨hbuilders, hstore⟩ := ih hmade
          exact ⟨by rw [hbuilders]; rfl, by simpa using hstore⟩
      | none =>
        change (makeAll spec seeds (store ++ [[]]) >>= fun made =>
          pure (⟨spec, .object store.length⟩ :: made.1, made.2)) = _ at h
        cases hmade : makeAll spec seeds (store ++ [[]]) with
        | error e => rw [hmade] at h; cases h
        | ok made =>
          rw [hmade] at h
          cases h
          obtain ⟨hbuilders, hstore⟩ := ih hmade
          rw [List.length_append] at hbuilders
          refine ⟨by rw [hbuilders]; rfl, ?_⟩
          rw [hstore, List.append_assoc, List.count_cons_self, List.replicate_succ]
          rfl

/-- Builders are made if one can be. -/
theorem exists_makeAll (h : LiveBuilder.makingError? spec = none) (seeds : List (Option ObjectId))
    (store : ObjectStore) : ∃ made, makeAll spec seeds store = .ok made := by
  induction seeds generalizing store with
  | nil => exact ⟨_, rfl⟩
  | cons seed seeds ih =>
    unfold makeAll LiveBuilder.make
    rw [h]
    cases seed with
    | some id =>
      obtain ⟨made, hmade⟩ := ih store
      change ∃ all, (makeAll spec seeds store >>= fun made =>
        pure (⟨spec, .object id⟩ :: made.1, made.2)) = .ok all
      rw [hmade]
      exact ⟨_, rfl⟩
    | none =>
      obtain ⟨made, hmade⟩ := ih (store ++ [[]])
      change ∃ all, (makeAll spec seeds (store ++ [[]]) >>= fun made =>
        pure (⟨spec, .object store.length⟩ :: made.1, made.2)) = .ok all
      rw [hmade]
      exact ⟨_, rfl⟩

/-- An object that is held is a seed, or one of those that were made. -/
theorem mem_heldObjects {next id : Nat} (h : id ∈ heldObjects next seeds) :
    some id ∈ seeds ∨ id < next + seeds.count none := by
  induction seeds generalizing next with
  | nil => cases h
  | cons seed seeds ih =>
    cases seed with
    | some seed =>
      rw [heldObjects, List.mem_cons] at h
      rw [List.count_cons_of_ne (by simp), List.mem_cons, Option.some.injEq, or_assoc]
      exact h.imp (fun heq => heq) ih
    | none =>
      rw [heldObjects, List.mem_cons] at h
      rw [List.count_cons_self, List.mem_cons]
      rcases h with rfl | h
      · exact .inr (by omega)
      · exact (ih h).imp .inr (by omega)

/-- A builder without a seed holds one of the objects that were made. -/
theorem getElem?_heldObjects {next n : Nat} (h : seeds[n]? = some none) :
    ∃ id : Nat, (heldObjects next seeds)[n]? = some id ∧ next ≤ id := by
  induction seeds generalizing next n with
  | nil => cases h
  | cons seed seeds ih =>
    cases n with
    | zero =>
      cases h
      exact ⟨next, rfl, Nat.le_refl next⟩
    | succ n =>
      cases seed with
      | some seed => exact ih h
      | none =>
        obtain ⟨id, hid, hle⟩ := @ih (next + 1) n h
        exact ⟨id, hid, by omega⟩

end

/-! ## Finding methods -/

section
variable {b : BuilderSpec} {m : MethodSpec} {name : String}

theorem filter_name_eq_singleton {ms : List MethodSpec} (h : (ms.map (·.name)).Nodup)
    (hm : m ∈ ms) : ms.filter (·.name == m.name) = [m] := by
  induction ms with
  | nil => cases hm
  | cons x ms ih =>
    obtain ⟨hnew, hrest⟩ := List.nodup_cons.1 h
    cases hm with
    | head =>
      rw [List.filter_cons_of_pos (by simp), List.filter_eq_nil_iff.2]
      intro y hy heq
      exact hnew (List.mem_map.2 ⟨y, hy, eq_of_beq heq⟩)
    | tail _ hm =>
      have hne : x.name ≠ m.name := fun heq => hnew (List.mem_map.2 ⟨m, hm, heq.symm⟩)
      rw [List.filter_cons_of_neg (by simpa using hne), ih hrest hm]

/-- **A method is found by its name** where names differ. -/
theorem method?_of_mem (h : (b.builderClass.methods.map (·.name)).Nodup)
    (hm : m ∈ b.builderClass.methods) : b.method? m.name = some m := by
  rw [BuilderSpec.method?, filter_name_eq_singleton h hm]
  rfl

theorem method?_eq_none (h : name ∉ b.builderClass.methods.map (·.name)) :
    b.method? name = none := by
  rw [BuilderSpec.method?, List.filter_eq_nil_iff.2]
  · rfl
  · intro m hm heq
    exact h (List.mem_map.2 ⟨m, hm, eq_of_beq heq⟩)

end

/-- A builder whose class has a method calls it. -/
theorem LiveBuilder.call_method {b : LiveBuilder} {m : MethodSpec} (hname : m.name ≠ heldName)
    (hm : b.spec.method? m.name = some m) (arguments : List Json) (store : ObjectStore) :
    b.call m.name arguments store =
      (b.callMethod m arguments store).map fun (result, store) => (result, b, store) := by
  have hattribute : b.attribute? m.name = some (.method m) := by
    rw [LiveBuilder.attribute?, if_neg hname, hm]
  unfold LiveBuilder.call
  rw [hattribute]
  dsimp only
  cases b.callMethod m arguments store <;> rfl

/-- A setter writes its value to its field. -/
theorem LiveBuilder.callMethod_setter {spec : BuilderSpec} {m : MethodSpec} {key : String}
    (hkind : m.kind = .setter) (hkey : m.fieldName = some key) (id : ObjectId) (value : Json)
    (store : ObjectStore) :
    (LiveBuilder.mk spec (.object id)).callMethod m [value] store =
      .ok (.builder, store.write id key value) := by
  unfold LiveBuilder.callMethod
  rw [hkind, hkey]
  rfl

section
variable {config : Config} {d : StructuralDeclaration} (hnaming : config.naming = {})
include hnaming

theorem head?_setters_of_default {name : String}
    (hname : name ∈ (builderSpec config d).setters.map (·.name)) :
    name.toList.head? = some 'w' := by
  obtain ⟨m, hm, rfl⟩ := List.mem_map.1 hname
  rw [setters_builderSpec] at hm
  obtain ⟨rest, hrest⟩ := prefix_setterSpecs m hm
  rw [hnaming] at hrest
  rw [← hrest]
  simp

theorem nodup_methods_of_default :
    ((builderSpec config d).builderClass.methods.map (·.name)).Nodup := by
  rw [nodup_methods_builderSpec_iff (by rw [hnaming]; decide), hnaming]
  constructor <;> exact fun h => absurd (head?_setters_of_default hnaming h) (by decide)

/-- Under the default names no method's name begins with an underscore, as the names do that
builders and classes keep for themselves. -/
theorem method?_of_underscore {name : String} (hname : name.toList.head? = some '_') :
    (builderSpec config d).method? name = none := by
  refine method?_eq_none fun hmem => ?_
  rw [names_methods_builderSpec, hnaming, List.mem_append] at hmem
  rcases hmem with hsetter | hfixed
  · rw [head?_setters_of_default hnaming hsetter] at hname
    exact absurd hname (by decide)
  · simp only [List.mem_cons, List.not_mem_nil, or_false] at hfixed
    rcases hfixed with rfl | rfl <;> exact absurd hname (by decide)

/-- **A builder can be made** unless the declaration's name is not one that a class can have. -/
theorem makingError?_of_default :
    LiveBuilder.makingError? (builderSpec config d) =
      if d.name.toList.contains '\x00' then some .invalidClassName else none := by
  have hkept : ∀ name ∈ settingName :: (reservedNames ++ beginningNames),
      (builderSpec config d).method? name = none := by
    have hunderscore : ∀ name ∈ settingName :: (reservedNames ++ beginningNames),
        name.toList.head? = some '_' := by decide
    exact fun name hname => method?_of_underscore hnaming (hunderscore name hname)
  simp only [reservedNames, beginningNames, List.cons_append, List.nil_append,
    List.forall_mem_cons] at hkept
  obtain ⟨hsetting, hslots, hqualified, hcell, hnew, hinit, -⟩ := hkept
  have hclass : (builderSpec config d).className.toList.contains '\x00' =
      d.name.toList.contains '\x00' := by
    simp [BuilderSpec.className, builderSpec, hnaming]
  rw [LiveBuilder.makingError?, BuilderSpec.classError?, hslots, hclass]
  cases d.name.toList.contains '\x00' with
  | true => rfl
  | false => simp [reservedNames, beginningNames, hslots, hqualified, hcell, hnew, hinit, hsetting]

/-! ## What a call does -/

/-- **A call does what it should**: it gives back the builder or the object that is held, writes its
pair to that object, and leaves the builder as it is. -/
theorem call_eq {c : BuilderCall} (hc : c.IsOf (builderSpec config d)) (id : ObjectId)
    (store : ObjectStore) :
    (LiveBuilder.mk (builderSpec config d) (.object id)).call (c.name config.naming) c.arguments
        store =
      .ok (c.result, ⟨builderSpec config d, .object id⟩,
        match c.written? config.naming d.name with
        | some (key, value) => store.write id key value
        | none => store) := by
  have hfound : ∀ m ∈ (builderSpec config d).builderClass.methods,
      m.name ≠ heldName ∧ (builderSpec config d).method? m.name = some m := by
    refine fun m hm => ⟨fun hheld => ?_, method?_of_mem (nodup_methods_of_default hnaming) hm⟩
    have hunderscore : m.name.toList.head? = some '_' := by
      rw [hheld]
      decide
    have hnone := method?_of_underscore (d := d) hnaming hunderscore
    rw [method?_of_mem (nodup_methods_of_default hnaming) hm] at hnone
    cases hnone
  rw [methods_builderSpec] at hfound
  cases c with
  | set setter value =>
    obtain ⟨hname, hm⟩ := hfound setter (List.mem_append_left _ hc)
    rw [BuilderCall.IsOf, setters_builderSpec] at hc
    obtain ⟨hkind, key, hkey⟩ := exists_fieldName_of_mem_setterSpecs setter hc
    rw [BuilderCall.name, BuilderCall.arguments, LiveBuilder.call_method hname hm,
      LiveBuilder.callMethod_setter hkind hkey, BuilderCall.written?, hkey]
    rfl
  | stamp =>
    obtain ⟨hname, hm⟩ := hfound _ (List.mem_append_right _ List.mem_cons_self)
    exact LiveBuilder.call_method hname hm [] store
  | get =>
    obtain ⟨hname, hm⟩ := hfound _
      (List.mem_append_right _ (List.mem_cons_of_mem _ List.mem_cons_self))
    exact LiveBuilder.call_method hname hm [] store

end

/-! ## What calls do -/

section
variable {config : Config} {d : StructuralDeclaration} {held : List ObjectId}

theorem writesTo_cons (naming : NamingConfig) (declaration : String) (id : ObjectId)
    (c : Nat × BuilderCall) (calls : List (Nat × BuilderCall)) :
    writesTo naming declaration held id (c :: calls) =
      (if held[c.1]? = some id then (c.2.written? naming declaration).toList else []) ++
        writesTo naming declaration held id calls := by
  rw [writesTo, List.filterMap_cons]
  split
  · next h => split_ifs at h with hheld <;> simp [hheld, h, writesTo]
  · next h => split_ifs at h with hheld; simp [hheld, h, writesTo]

/-- **Calls in any order** leave the builders as they are, and every object overwritten by what they
write to it. -/
theorem callAll_eq (hnaming : config.naming = {}) {calls : List (Nat × BuilderCall)}
    {store : ObjectStore} (hheld : ∀ id ∈ held, id < store.length)
    (hcalls : ∀ c ∈ calls, c.1 < held.length ∧ c.2.IsOf (builderSpec config d)) :
    ∃ after : ObjectStore,
      callAll config.naming calls
          (held.map fun id => ⟨builderSpec config d, .object id⟩) store =
        .ok (calls.map (·.2.result), held.map fun id => ⟨builderSpec config d, .object id⟩, after) ∧
      ∀ id, after.content id =
        Pairs.putAll (writesTo config.naming d.name held id calls) (store.content id) := by
  induction calls generalizing store with
  | nil => exact ⟨store, rfl, fun id => rfl⟩
  | cons call calls ih =>
    obtain ⟨n, c⟩ := call
    obtain ⟨⟨hn, hc⟩, hrest⟩ := List.forall_mem_cons.1 hcalls
    have hid : held[n]? = some held[n] := List.getElem?_eq_getElem hn
    have hbound : held[n] < store.length := hheld _ (List.getElem_mem hn)
    let written := match c.written? config.naming d.name with
      | some (key, value) => store.write held[n] key value
      | none => store
    have hlength : written.length = store.length := by
      cases hw : c.written? config.naming d.name <;> simp [written, hw]
    obtain ⟨after, hrun, hcontent⟩ := @ih written (by rwa [hlength]) hrest
    refine ⟨after, ?_, fun id => ?_⟩
    · rw [callAll, List.getElem?_map, hid]
      change (LiveBuilder.call _ (c.name config.naming) c.arguments store >>= _) = _
      rw [call_eq hnaming hc]
      change (callAll config.naming calls (List.set _ n _) written >>= _) = _
      have hsame : (held.map fun id => LiveBuilder.mk (builderSpec config d) (.object id)).set n
          ⟨builderSpec config d, .object held[n]⟩ =
            held.map fun id => ⟨builderSpec config d, .object id⟩ := by
        rw [← List.map_set, List.set_getElem_self]
      rw [hsame, hrun]
      rfl
    · rw [hcontent, writesTo_cons]
      cases hw : c.written? config.naming d.name with
      | none => simp [written, hw]
      | some w =>
        simp only [written, hw, ObjectStore.content_write hbound, hid, Option.some.injEq,
          Option.toList_some]
        by_cases h : id = held[n]
        · simp [h]
        · simp [h, Ne.symm h]

/-- The keys that setters write, each called once. -/
theorem map_fst_supplied {supplied : List (MethodSpec × Json)}
    (hperm : (supplied.map Prod.fst).Perm (builderSpec config d).setters) :
    ((supplied.filterMap fun s => s.1.fieldName.map (·, s.2)).map Prod.fst).Perm
      (d.fieldNames.filter (· ≠ config.naming.typenameField)) := by
  have hkeys : (supplied.filterMap fun s => s.1.fieldName.map (·, s.2)).map Prod.fst =
      (supplied.map Prod.fst).filterMap (·.fieldName) := by
    rw [List.map_filterMap, List.filterMap_map]
    congr 1
    funext s
    simp [Function.comp_def]
  rw [hkeys, StructuralDeclaration.fieldNames, ← filterMap_fieldName_setterSpecs]
  rw [setters_builderSpec] at hperm
  exact hperm.filterMap _

/-- **The last write to a key wins**, through whichever builder it comes.  Builders can be made, for a
name that a class can have, around seeds or around new and empty objects, and they can be called in
any order: every call gives back its builder, or the object itself for the accessor, and in the end
each object has for a key the last value that was written to it, and its first one where none was.
An object around which no builder is called stays as it is; and a new object, after every setter was
called once, is the map of the fields to the values that were supplied. -/
theorem last_write_wins {config : Config} {d : StructuralDeclaration} {b : BuilderSpec}
    (hnaming : config.naming = {}) (hnodup : d.fieldNames.Nodup)
    (hok : synthesize config d = .ok b) {seeds : List (Option ObjectId)} {objects : ObjectStore}
    (hseeds : ∀ id, some id ∈ seeds → id < objects.length) :
    ('\x00' ∉ d.name.toList → ∃ made, makeAll b seeds objects = .ok made) ∧
    ∀ builders before, makeAll b seeds objects = .ok (builders, before) →
      (builders.map (·.held) = (heldObjects objects.length seeds).map .object ∧
        before = objects ++ List.replicate (seeds.count none) []) ∧
      (∀ calls : List (Nat × BuilderCall), (∀ c ∈ calls, c.1 < builders.length ∧ c.2.IsOf b) →
        ∃ after, callAll config.naming calls builders before =
            .ok (calls.map (·.2.result), builders, after) ∧
          ∀ id,
            (∀ key, (after.content id).lookup key =
              ((writesTo config.naming d.name (heldObjects objects.length seeds) id
                calls).reverse.lookup key).or ((before.content id).lookup key)) ∧
            ((∀ c ∈ calls, (heldObjects objects.length seeds)[c.1]? ≠ some id) →
              after.content id = before.content id)) ∧
      (∀ n, seeds[n]? = some none → ∀ supplied : List (MethodSpec × Json),
        (supplied.map Prod.fst).Perm b.setters →
        ∃ after id,
          callAll config.naming (supplied.map fun s => (n, .set s.1 s.2)) builders before =
            .ok (supplied.map fun _ => .builder, builders, after) ∧
          (heldObjects objects.length seeds)[n]? = some id ∧
          after.content id = supplied.filterMap (fun s => s.1.fieldName.map (·, s.2)) ∧
          ((after.content id).map Prod.fst).Perm
            (d.fieldNames.filter (· ≠ config.naming.typenameField))) := by
  obtain rfl := synthesize_eq_ok hok
  refine ⟨fun hname => exists_makeAll ?_ _ _, fun builders before hmade => ?_⟩
  · rw [makingError?_of_default hnaming, if_neg (by simpa using hname)]
  obtain ⟨rfl, rfl⟩ := makeAll_eq_ok hmade
  set held := heldObjects objects.length seeds
  set before := objects ++ List.replicate (seeds.count none) ([] : Fields)
  have hheld : ∀ id ∈ held, id < before.length := by
    intro id hid
    rw [List.length_append, List.length_replicate]
    rcases mem_heldObjects hid with hseed | hnew
    · exact Nat.lt_add_right _ (hseeds id hseed)
    · exact hnew
  refine ⟨⟨by rw [List.map_map]; rfl, rfl⟩, fun calls hcalls => ?_, fun n hn supplied hperm => ?_⟩
  · rw [List.length_map] at hcalls
    obtain ⟨after, hrun, hcontent⟩ := callAll_eq hnaming hheld hcalls
    refine ⟨after, hrun, fun id => ⟨fun key => ?_, fun hcalled => ?_⟩⟩
    · rw [hcontent, Pairs.lookup_putAll]
    · have hnothing : writesTo config.naming d.name held id calls = [] :=
        List.filterMap_eq_nil_iff.2 fun c hc => if_neg (hcalled c hc)
      rw [hcontent, hnothing]
      rfl
  · obtain ⟨id, hid, hle⟩ := @getElem?_heldObjects seeds objects.length n hn
    have hlone : ∀ c ∈ supplied.map fun s => (n, BuilderCall.set s.1 s.2),
        c.1 < held.length ∧ c.2.IsOf (builderSpec config d) := by
      intro c hc
      obtain ⟨s, hs, rfl⟩ := List.mem_map.1 hc
      exact ⟨(List.getElem?_eq_some_iff.1 hid).1, hperm.subset (List.mem_map_of_mem hs)⟩
    obtain ⟨after, hrun, hcontent⟩ := callAll_eq hnaming hheld hlone
    have hwrites : writesTo config.naming d.name held id
        (supplied.map fun s => (n, BuilderCall.set s.1 s.2)) =
          supplied.filterMap fun s => s.1.fieldName.map (·, s.2) := by
      rw [writesTo, List.filterMap_map]
      refine List.filterMap_congr fun s _ => ?_
      rw [Function.comp_apply, if_pos hid]
      rfl
    have hempty : before.content id = [] := by
      rw [ObjectStore.content, List.getD_eq_getElem?_getD, List.getElem?_append_right hle,
        List.getElem?_replicate]
      split <;> rfl
    have hkeys := map_fst_supplied hperm
    have hafter : after.content id = supplied.filterMap fun s => s.1.fieldName.map (·, s.2) := by
      rw [hcontent, hwrites, hempty, Pairs.putAll_of_nodup, List.nil_append]
      exact hkeys.nodup_iff.2 (hnodup.filter _)
    refine ⟨after, id, ?_, hid, hafter, hafter ▸ hkeys⟩
    rw [hrun, List.map_map]
    rfl

/-- Two builders around one seed, and one around an object of its own. -/
theorem last_write_wins_shared :
    synthesize {} crowded = .ok (builderSpec {} crowded) ∧ crowded.fieldNames.Nodup ∧
      ∃ setter ∈ (builderSpec {} crowded).setters, ∃ builders before after,
        setter.fieldName = some "a-b" ∧
        makeAll (builderSpec {} crowded) [some 0, none, some 0] [[("aB", .int 1)]] =
          .ok (builders, before) ∧
        callAll {} [(0, .set setter (.int 2)), (2, .set setter (.int 3)), (1, .stamp), (0, .get)]
            builders before =
          .ok ([.builder, .builder, .builder, .held], builders, after) ∧
        (after.content 0).lookup "a-b" = some (.int 3) ∧
        (after.content 0).lookup "aB" = some (.int 1) ∧
        (after.content 1).lookup "__typename" = some (.string "A") := by
  have hok : synthesize {} crowded = .ok (builderSpec {} crowded) := by decide +kernel
  have hnodup : crowded.fieldNames.Nodup := by decide +kernel
  have hseeds : ∀ id, some id ∈ [some 0, none, some 0] →
      id < [[("aB", Json.int 1)]].length := by
    intro id hid
    obtain rfl : id = 0 := by simpa using hid
    exact Nat.zero_lt_one
  obtain ⟨hmakes, hruns⟩ := last_write_wins rfl hnodup hok hseeds
  obtain ⟨⟨builders, before⟩, hmade⟩ := hmakes (by decide +kernel)
  obtain ⟨⟨hheld, rfl⟩, hcalls, -⟩ := hruns builders before hmade
  have hlength : builders.length = 3 := by simpa [heldObjects] using congrArg List.length hheld
  let setter := setterSpec {} "ABuilder" "withAB"
    ⟨"a-b", [.plain "string" .string], false, false⟩
  have hsetter : setter ∈ (builderSpec {} crowded).setters := by decide +kernel
  obtain ⟨after, hrun, hafter⟩ := hcalls
    [(0, .set setter (.int 2)), (2, .set setter (.int 3)), (1, .stamp), (0, .get)]
    (by simp [hlength, BuilderCall.IsOf, hsetter])
  exact ⟨hok, hnodup, setter, hsetter, builders, _, after, rfl, hmade, hrun, (hafter 0).1 "a-b",
    (hafter 0).1 "aB", (hafter 1).1 "__typename"⟩

end

end FluentBuilders
