import Mathlib.Data.List.Nodup
import Mathlib.Logic.Relation
import VectorMemory.Registry.Blend
import VectorMemory.Proofs.AddressIndex

/-! The invariant of a registry, and how it changes when consumers of objects change
and when an object is placed or blended. -/
namespace VectorMemory

def Object.entries (o : Object) : List Entry :=
  Entry.listing o.id 0 o.span.runs

namespace Registry

/-! ### Objects after each operation -/

theorem object?_eq_some {r : Registry} {i : ObjectId} {o : Object} :
    r.object? i = some o ↔ r.slots[i]? = some (some o) := by
  simp [object?, Option.join_eq_some_iff]

theorem lt_of_object? {r : Registry} {i : ObjectId} {o : Object} (found : r.object? i = some o) :
    i < r.nextId := by
  obtain ⟨bound, -⟩ := List.getElem?_eq_some_iff.mp (object?_eq_some.mp found)
  exact bound

theorem mem_objects {r : Registry} {o : Object} : o ∈ r.objects ↔ ∃ i, r.object? i = some o := by
  rw [objects, List.mem_filterMap]
  simp only [id_eq, exists_eq_right, object?_eq_some, List.mem_iff_getElem?]

@[simp] theorem object?_register (r : Registry) (o : Object) (i : ObjectId) :
    (r.register o).object? i = if i = r.nextId then some o else r.object? i := by
  unfold register object? nextId
  rcases Nat.lt_trichotomy i r.slots.length with before | rfl | after
  · rw [List.getElem?_append_left before, if_neg (Nat.ne_of_lt before)]
  · simp
  · rw [if_neg (Nat.ne_of_gt after), List.getElem?_eq_none (by rw [List.length_append]; exact after),
      List.getElem?_eq_none (Nat.le_of_lt after)]

@[simp] theorem object?_index (r : Registry) (index : AddressIndex) (i : ObjectId) :
    object? { r with index } i = r.object? i := rfl

@[simp] theorem object?_update (r : Registry) (id i : ObjectId) (f : Object → Object) :
    (r.update id f).object? i = if i = id then (r.object? i).map f else r.object? i := by
  unfold update object?
  rw [List.getElem?_modify]
  by_cases same : i = id
  · subst same
    cases r.slots[i]? with
    | none => simp
    | some slot => cases slot <;> simp
  · simp [same, Ne.symm same]

@[simp] theorem object?_updateAll (r : Registry) (i : ObjectId) (f : Object → Object) :
    (r.updateAll f).object? i = (r.object? i).map f := by
  unfold updateAll object?
  rw [List.getElem?_map]
  cases r.slots[i]? with
  | none => rfl
  | some slot => cases slot <;> rfl

def superseded (id : ObjectId) (o : Object) : Object :=
  { o with owned := .empty, supersededBy := some id }

theorem supersede_cons (r : Registry) (i id : ObjectId) (ids : List ObjectId) :
    r.supersede (i :: ids) id = (r.update i (superseded id)).supersede ids id := rfl

@[simp] theorem object?_supersede (r : Registry) (ids : List ObjectId) (id i : ObjectId) :
    (r.supersede ids id).object? i =
      if i ∈ ids then (r.object? i).map (superseded id) else r.object? i := by
  induction ids generalizing r with
  | nil => simp [supersede]
  | cons first rest ih =>
    rw [supersede_cons, ih, object?_update]
    by_cases same : i = first
    · subst same
      cases r.object? i <;> simp [superseded]
    · simp [same]

theorem supersede_names (r : Registry) (ids : List ObjectId) (id : ObjectId) :
    (r.supersede ids id).names = r.names := by
  induction ids generalizing r with
  | nil => rfl
  | cons first rest ih => rw [supersede_cons, ih, update]

theorem supersede_index (r : Registry) (ids : List ObjectId) (id : ObjectId) :
    (r.supersede ids id).index = r.index := by
  induction ids generalizing r with
  | nil => rfl
  | cons first rest ih => rw [supersede_cons, ih, update]

theorem supersede_nextId (r : Registry) (ids : List ObjectId) (id : ObjectId) :
    (r.supersede ids id).nextId = r.nextId := by
  induction ids generalizing r with
  | nil => rfl
  | cons first rest ih => rw [supersede_cons, ih, update, nextId, List.length_modify, nextId]

theorem lookup_eq_some {names : List (String × ObjectId)} (distinct : (names.map Prod.fst).Nodup)
    {n : String} {i : ObjectId} : names.lookup n = some i ↔ (n, i) ∈ names := by
  induction names with
  | nil => simp
  | cons head rest ih =>
    obtain ⟨m, j⟩ := head
    rw [List.map_cons, List.nodup_cons] at distinct
    rw [List.lookup_cons, List.mem_cons, Prod.mk.injEq]
    by_cases same : n = m
    · subst same
      have absent : (n, i) ∉ rest := fun inside => distinct.1 (List.mem_map.mpr ⟨_, inside, rfl⟩)
      simp [absent, eq_comm]
    · simp [same, beq_false_of_ne same, ih distinct.2]

/-! ### Representatives -/

/-- Follow supersession from an object for at most `fuel` steps. -/
def climb (r : Registry) : Nat → ObjectId → ObjectId
  | 0, id => id
  | fuel + 1, id =>
      match (r.object? id).bind Object.supersededBy with
      | some next => r.climb fuel next
      | none => id

/-- The object that an object was finally taken over by, itself if by none. A
blend is younger than its blendees, so the number of slots bounds the way. -/
def representative (r : Registry) (id : ObjectId) : ObjectId :=
  r.climb r.slots.length id

/-! ### The invariant -/

/-- Slots, names, supersession and index describe the same objects. -/
structure Coherent (r : Registry) : Prop where
  ids : ∀ i o, r.object? i = some o → o.id = i
  distinct : (r.names.map Prod.fst).Nodup
  named : ∀ n i, (n, i) ∈ r.names ↔ ∃ o, r.object? i = some o ∧ o.name = n
  superseder : ∀ i o s, r.object? i = some o → o.supersededBy = some s →
    i < s ∧ ∃ t, r.object? s = some t ∧ i ∈ t.blendees
  proper : ∀ i o, r.object? i = some o → o.span.Proper
  index : r.index.Sound
  entries : ∀ e, e ∈ r.index.entries ↔
    ∃ o, r.object? e.owner = some o ∧ o.isLive ∧ e ∈ o.entries

theorem coherent_empty : empty.Coherent := by
  constructor
  · simp [empty, object?]
  · simp [empty]
  · simp [empty, object?]
  · simp [empty, object?]
  · simp [empty, object?]
  · exact AddressIndex.sound_empty
  · simp [empty, object?, AddressIndex.empty]

namespace Coherent

variable {r : Registry}

theorem mem_objects (coherent : r.Coherent) {o : Object} :
    o ∈ r.objects ↔ r.object? o.id = some o := by
  rw [Registry.mem_objects]
  constructor
  · intro ⟨i, found⟩
    rwa [coherent.ids i o found]
  · intro found
    exact ⟨o.id, found⟩

theorem idOf?_eq_some (coherent : r.Coherent) {n : String} {i : ObjectId} :
    r.idOf? n = some i ↔ ∃ o, r.object? i = some o ∧ o.name = n := by
  rw [← coherent.named, idOf?, lookup_eq_some coherent.distinct]

theorem has_eq_false (coherent : r.Coherent) {n : String} :
    r.has n = false ↔ ∀ i o, r.object? i = some o → o.name ≠ n := by
  unfold has
  rw [Option.isSome_eq_false_iff, Option.isNone_iff_eq_none]
  constructor
  · intro none i o found same
    have := coherent.idOf?_eq_some.mpr ⟨o, found, same⟩
    rw [none] at this
    cases this
  · intro absent
    cases found : r.idOf? n with
    | none => rfl
    | some i =>
      obtain ⟨o, registered, same⟩ := coherent.idOf?_eq_some.mp found
      exact absurd same (absent i o registered)

theorem get_eq_ok (coherent : r.Coherent) {n : String} {o : Object} :
    r.get n = .ok o ↔ r.object? o.id = some o ∧ o.name = n := by
  unfold get
  constructor
  · intro got
    split at got
    · next o' found =>
      cases got
      obtain ⟨i, named, registered⟩ := Option.bind_eq_some_iff.mp found
      obtain ⟨o', registered', same⟩ := coherent.idOf?_eq_some.mp named
      rw [registered] at registered'
      cases registered'
      rw [coherent.ids i o registered]
      exact ⟨registered, same⟩
    · cases got
  · intro ⟨registered, same⟩
    have named := coherent.idOf?_eq_some.mpr ⟨o, registered, same⟩
    simp [named, registered]

theorem name_inj (coherent : r.Coherent) {a b : Object} (first : a ∈ r.objects)
    (second : b ∈ r.objects) (same : a.name = b.name) : a = b := by
  have here := coherent.mem_objects.mp first
  have there := coherent.mem_objects.mp second
  have named := coherent.idOf?_eq_some.mpr ⟨a, here, same⟩
  rw [coherent.idOf?_eq_some.mpr ⟨b, there, rfl⟩] at named
  rw [Option.some.inj named, here] at there
  exact Option.some.inj there

theorem climb_eq (coherent : r.Coherent) {n m i : Nat} (first : r.slots.length ≤ i + n)
    (second : r.slots.length ≤ i + m) : r.climb n i = r.climb m i := by
  induction n generalizing m i with
  | zero =>
    cases m with
    | zero => rfl
    | succ m =>
      have none : r.object? i = none := by
        rw [object?, List.getElem?_eq_none (show r.slots.length ≤ i from first)]
        rfl
      simp [climb, none]
  | succ n ih =>
    cases found : r.object? i with
    | none => cases m <;> simp [climb, found]
    | some o =>
      have bound : i < r.slots.length := lt_of_object? found
      cases next : o.supersededBy with
      | none => cases m <;> simp [climb, found, next]
      | some s =>
        have later : i < s := (coherent.superseder i o s found next).1
        cases m with
        | zero => omega
        | succ m =>
          simp only [climb, found, next, Option.bind_some]
          apply ih <;> omega

/-- An object is represented by what represents its superseder. -/
theorem representative_of_superseded (coherent : r.Coherent) {o : Object} {i s : Nat}
    (found : r.object? i = some o) (next : o.supersededBy = some s) :
    r.representative i = r.representative s := by
  have later : i < s := (coherent.superseder i o s found next).1
  have bound : i < r.slots.length := lt_of_object? found
  unfold representative
  cases count : r.slots.length with
  | zero => omega
  | succ n =>
    have step : r.climb (n + 1) i = r.climb n s := by simp [climb, found, next]
    rw [step]
    apply coherent.climb_eq <;> omega

end Coherent

theorem representative_of_live {r : Registry} {o : Object} {i : ObjectId}
    (found : r.object? i = some o) (live : o.isLive = true) : r.representative i = i := by
  have next : o.supersededBy = none := by simpa [Object.isLive] using live
  unfold representative
  cases r.slots.length <;> simp [climb, found, next]

def TakesOver (r : Registry) (i j : ObjectId) : Prop :=
  ∃ o, r.object? i = some o ∧ o.supersededBy = some j

theorem takesOver_representative (r : Registry) (i : ObjectId) :
    Relation.ReflTransGen r.TakesOver i (r.representative i) := by
  unfold representative
  generalize r.slots.length = n
  induction n generalizing i with
  | zero => exact .refl
  | succ n ih =>
    rw [climb]
    split
    · next j next =>
      obtain ⟨o, found, superseded⟩ := Option.bind_eq_some_iff.mp next
      exact .head ⟨o, found, superseded⟩ (ih j)
    · exact .refl

/-! ### Changes of consumers -/

/-- Only consumers differ, and no sentinel is lost. -/
structure Touched (consumers : ObjectId → Object → NameSet) (r r' : Registry) : Prop where
  nextId : r'.nextId = r.nextId
  names : r'.names = r.names
  index : r'.index = r.index
  object : ∀ i, r'.object? i = (r.object? i).map fun o => { o with consumers := consumers i o }
  sentinels : ∀ i o s, isSentinel s → s ∈ o.consumers → s ∈ consumers i o

theorem Touched.object?_eq_some {consumers : ObjectId → Object → NameSet} {r r' : Registry}
    (touched : Touched consumers r r') {i : ObjectId} {o : Object} (found : r'.object? i = some o) :
    ∃ b, r.object? i = some b ∧ o = { b with consumers := consumers i b } := by
  rw [touched.object] at found
  obtain ⟨b, before, rfl⟩ := Option.map_eq_some_iff.mp found
  exact ⟨b, before, rfl⟩

theorem Touched.coherent {consumers : ObjectId → Object → NameSet} {r r' : Registry}
    (touched : Touched consumers r r') (coherent : r.Coherent) : r'.Coherent := by
  have object := touched.object
  constructor
  · intro i o found
    obtain ⟨o, before, rfl⟩ := touched.object?_eq_some found
    exact coherent.ids i o before
  · rw [touched.names]
    exact coherent.distinct
  · intro n i
    rw [touched.names, coherent.named, object]
    simp
  · intro i o s found next
    obtain ⟨o, before, rfl⟩ := touched.object?_eq_some found
    obtain ⟨later, t, superseder, blended⟩ := coherent.superseder i o s before next
    refine ⟨later, { t with consumers := consumers s t }, ?_, blended⟩
    rw [object, superseder, Option.map_some]
  · intro i o found
    obtain ⟨o, before, rfl⟩ := touched.object?_eq_some found
    exact coherent.proper i o before
  · rw [touched.index]
    exact coherent.index
  · intro e
    rw [touched.index, coherent.entries, object]
    simp [Object.isLive, Object.entries]

/-- Consumers have been retired: none but a sentinel is new. -/
structure Retired (consumers : ObjectId → Object → NameSet) (r r' : Registry) : Prop
    extends Touched consumers r r' where
  others : ∀ i o s, s ∈ consumers i o → isSentinel s = false → s ∈ o.consumers

/-! ### A new object -/

/-- An object has been entered in the place of blendees; a newly placed object
has none. -/
structure Enters (r : Registry) (ids : List ObjectId) (o : Object) (r' : Registry) : Prop where
  fresh : r.has o.name = false
  id : o.id = r.nextId
  live : o.isLive = true
  blendees : o.blendees = ids
  registered : ∀ i ∈ ids, ∃ b, r.object? i = some b
  proper : o.span.Proper
  result : ∃ index, (r.withdraw (r.displaced ids)).index.insert o.id o.span = .ok (.ok index) ∧
    r' = (supersede { r with index } ids o.id).register o

theorem Enters.object?_new {r r' : Registry} {ids : List ObjectId} {o : Object}
    (enters : Enters r ids o r') : r'.object? r.nextId = some o := by
  obtain ⟨index, -, rfl⟩ := enters.result
  rw [object?_register, supersede_nextId]
  exact if_pos rfl

theorem Enters.object?_old {r r' : Registry} {ids : List ObjectId} {o : Object}
    (enters : Enters r ids o r') {i : ObjectId} (old : i ≠ r.nextId) :
    r'.object? i = (r.object? i).map fun b => if i ∈ ids then superseded o.id b else b := by
  obtain ⟨index, -, rfl⟩ := enters.result
  rw [object?_register, supersede_nextId, object?_supersede]
  split
  · next same => exact absurd same old
  · split <;> simp

theorem Enters.supersededBy {r r' : Registry} {ids : List ObjectId} {o : Object}
    (enters : Enters r ids o r') : o.supersededBy = none := by
  simpa [Object.isLive] using enters.live

theorem object?_ne_nextId {r : Registry} {i : ObjectId} {o : Object} (found : r.object? i = some o) :
    i ≠ r.nextId :=
  Nat.ne_of_lt (lt_of_object? found)

theorem Coherent.mem_displaced {r : Registry} (coherent : r.Coherent) {ids : List ObjectId}
    {o : Object} :
    o ∈ r.displaced ids ↔ o.id ∈ ids ∧ r.object? o.id = some o ∧ o.isLive = true := by
  unfold displaced
  rw [List.mem_filter, List.mem_filterMap, ← and_assoc]
  apply and_congr_left
  intro live
  constructor
  · intro ⟨i, member, found⟩
    rw [coherent.ids i o found]
    exact ⟨member, found⟩
  · intro ⟨member, found⟩
    exact ⟨o.id, member, found⟩

theorem mem_withdraw {r : Registry} {objects : List Object} {e : Entry} :
    e ∈ (r.withdraw objects).index.entries ↔ e ∈ r.index.entries ∧
      ∀ o ∈ objects, ¬(e.owner = o.id ∧ ∃ x ∈ o.span.runs, x.region = e.region ∧ x.start = e.start) := by
  unfold withdraw
  generalize r.index = index
  induction objects generalizing index with
  | nil => simp
  | cons o rest ih =>
    rw [List.foldl_cons, ih, AddressIndex.mem_erase, List.forall_mem_cons, and_assoc]

theorem sound_withdraw {r : Registry} (sound : r.index.Sound) (objects : List Object) :
    (r.withdraw objects).index.Sound := by
  unfold withdraw
  generalize r.index = index at sound
  induction objects generalizing index with
  | nil => exact sound
  | cons o rest ih => exact ih _ (sound.erase o.id o.span)

/-- The index without the displaced objects leads to none of the blendees. -/
theorem Coherent.mem_withdraw_displaced {r : Registry} (coherent : r.Coherent)
    {ids : List ObjectId} {e : Entry} :
    e ∈ (r.withdraw (r.displaced ids)).index.entries ↔ e ∈ r.index.entries ∧ e.owner ∉ ids := by
  rw [mem_withdraw]
  apply and_congr_right
  intro member
  obtain ⟨o, found, live, listed⟩ := (coherent.entries e).mp member
  have same : o.id = e.owner := coherent.ids _ _ found
  constructor
  · intro kept inside
    obtain ⟨x, run, region, start, -⟩ := Entry.run_of_mem_listing listed
    rw [← same] at inside found
    exact kept o (coherent.mem_displaced.mpr ⟨inside, found, live⟩) ⟨same.symm, x, run, region, start⟩
  · intro outside o' displaced ⟨owner, _⟩
    rw [owner] at outside
    exact outside (coherent.mem_displaced.mp displaced).1

namespace Enters

variable {r r' : Registry} {ids : List ObjectId} {o : Object}

theorem object?_cases (enters : Enters r ids o r') {i : ObjectId} {x : Object}
    (found : r'.object? i = some x) :
    (i = r.nextId ∧ x = o) ∨ (∃ b, r.object? i = some b ∧
      ((i ∈ ids ∧ x = superseded o.id b) ∨ (i ∉ ids ∧ x = b))) := by
  by_cases new : i = r.nextId
  · rw [new, enters.object?_new] at found
    cases found
    exact .inl ⟨new, rfl⟩
  · rw [enters.object?_old new] at found
    obtain ⟨b, before, rfl⟩ := Option.map_eq_some_iff.mp found
    refine .inr ⟨b, before, ?_⟩
    by_cases inside : i ∈ ids <;> simp [inside]

theorem mem_index (enters : Enters r ids o r') (coherent : r.Coherent) :
    r'.index.Sound ∧ ∀ e, e ∈ r'.index.entries ↔
      e ∈ o.entries ∨ (e ∈ r.index.entries ∧ e.owner ∉ ids) := by
  obtain ⟨index, entered, rfl⟩ := enters.result
  obtain ⟨sound, members⟩ :=
    AddressIndex.insert_eq_ok (sound_withdraw coherent.index _) enters.proper entered
  have same : ((supersede { r with index } ids o.id).register o).index = index :=
    supersede_index { r with index } ids o.id
  rw [same]
  refine ⟨sound, fun e => ?_⟩
  rw [members, coherent.mem_withdraw_displaced]
  rfl

theorem names (enters : Enters r ids o r') : r'.names = (o.name, o.id) :: r.names := by
  obtain ⟨index, -, rfl⟩ := enters.result
  exact congrArg _ (supersede_names { r with index } ids o.id)

theorem nextId (enters : Enters r ids o r') : r'.nextId = r.nextId + 1 := by
  obtain ⟨index, -, rfl⟩ := enters.result
  have same := supersede_nextId { r with index } ids o.id
  simp only [Registry.nextId] at same ⊢
  simp [register, same]

theorem coherent (enters : Enters r ids o r') (coherent : r.Coherent) : r'.Coherent := by
  obtain ⟨sound, members⟩ := enters.mem_index coherent
  have unnamed (n : String) : (n, r.nextId) ∉ r.names := by
    intro inside
    obtain ⟨b, found, -⟩ := (coherent.named n r.nextId).mp inside
    exact object?_ne_nextId found rfl
  constructor
  · intro i x found
    rcases enters.object?_cases found with ⟨rfl, rfl⟩ | ⟨b, before, ⟨-, rfl⟩ | ⟨-, rfl⟩⟩
    · exact enters.id
    · exact coherent.ids i b before
    · exact coherent.ids i x before
  · rw [enters.names, List.map_cons, List.nodup_cons]
    refine ⟨?_, coherent.distinct⟩
    intro inside
    obtain ⟨⟨n, i⟩, member, same⟩ := List.mem_map.mp inside
    obtain ⟨b, found, name⟩ := (coherent.named n i).mp member
    exact coherent.has_eq_false.mp enters.fresh i b found (name.trans same)
  · intro n i
    rw [enters.names, List.mem_cons, Prod.mk.injEq, enters.id]
    by_cases new : i = r.nextId
    · subst new
      simp [enters.object?_new, unnamed, eq_comm]
    · rw [enters.object?_old new, coherent.named]
      by_cases inside : i ∈ ids <;> simp [new, inside, superseded]
  · intro i x s found next
    rcases enters.object?_cases found with ⟨rfl, rfl⟩ | ⟨b, before, ⟨inside, rfl⟩ | ⟨-, rfl⟩⟩
    · have := enters.live
      simp [Object.isLive, next] at this
    · cases next
      refine ⟨?_, o, ?_, enters.blendees ▸ inside⟩
      · rw [enters.id]
        exact lt_of_object? before
      · rw [enters.id]
        exact enters.object?_new
    · obtain ⟨later, t, superseder, blended⟩ := coherent.superseder i x s before next
      refine ⟨later, if s ∈ ids then superseded o.id t else t, ?_, ?_⟩
      · rw [enters.object?_old (object?_ne_nextId superseder), superseder, Option.map_some]
      · split <;> exact blended
  · intro i x found
    rcases enters.object?_cases found with ⟨rfl, rfl⟩ | ⟨b, before, ⟨-, rfl⟩ | ⟨-, rfl⟩⟩
    · exact enters.proper
    · exact coherent.proper i b before
    · exact coherent.proper i x before
  · exact sound
  · intro e
    rw [members]
    by_cases new : e.owner = r.nextId
    · have absent : e ∉ r.index.entries := by
        intro member
        obtain ⟨b, found, -⟩ := (coherent.entries e).mp member
        exact object?_ne_nextId found new
      rw [new, enters.object?_new]
      simp [absent, enters.live]
    · have absent : e ∉ o.entries := by
        intro listed
        exact new ((Entry.owner_of_mem_listing listed).trans enters.id)
      rw [enters.object?_old new, coherent.entries]
      by_cases inside : e.owner ∈ ids
      · simp [absent, inside, superseded, Object.isLive]
      · simp [absent, inside]

end Enters

end Registry

end VectorMemory
