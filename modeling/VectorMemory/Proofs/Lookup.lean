import VectorMemory.Proofs.Operations

/-! Looking up a location in the index gives what a scan of all live objects
gives, after any operations of a registry, failed ones included. The spaces that
objects are placed in and freed to are arbitrary. -/
namespace VectorMemory.Registry

/-- What operations can leave of an empty registry. -/
inductive Reached : Registry → Prop where
  | empty : Reached .empty
  | allocate (name : String) (extent : Extent) (consumers : List String) (s t : Space) :
      Reached r → (allocate name extent consumers (s, r)).state? = some (t, r') → Reached r'
  | consume (name : String) (consumers : List String) :
      Reached r → (consume name consumers r).state? = some r' → Reached r'
  | consumeAll (consumers : List String) : Reached r → Reached (r.consumeAll consumers)
  | pin (name sentinel : String) :
      Reached r → (pin name sentinel r).state? = some r' → Reached r'
  | blend (name : String) (extent : Extent) (consumers blendees : List String)
      (locations : List Location) :
      Reached r → (blend name extent consumers blendees locations r).state? = some r' → Reached r'
  | sweep (spaces spaces' : List Space) :
      Reached r → (sweep (spaces, r)).state? = some (spaces', r') → Reached r'

/-- One object at the first three of four vectors, and the space it lies in. -/
def lone : Registry :=
  ⟨[some ⟨0, "a", ⟨12, 3⟩, .dram0, ⟨[⟨.dram0, 0, 3⟩]⟩, ∅, ⟨[⟨.dram0, 0, 3⟩]⟩, none, []⟩],
    [("a", 0)], ⟨[⟨.dram0, 0, 3, 0, 0⟩]⟩⟩

def loneSpace : Space :=
  ⟨.dram0, 4, .heap ⟨[⟨3, 1⟩], 1⟩, ⟨.dram0, 4, 3, 3, 3, 1⟩⟩

theorem reached_lone : Reached lone :=
  .allocate "a" ⟨12, 3⟩ [] (.heap .dram0 4) loneSpace .empty (by decide +kernel)

def Waiting (ids : List ObjectId) (state : List Space × Registry) : Prop :=
  ∃ objects : List Object, ids = objects.map Object.id ∧ Queued state.2 objects

theorem Waiting.first {id : ObjectId} {rest : List ObjectId} {state : List Space × Registry}
    (waiting : Waiting (id :: rest) state) :
    ∃ o objects, o.id = id ∧ rest = objects.map Object.id ∧ Queued state.2 (o :: objects) := by
  obtain ⟨objects, same, queued⟩ := waiting
  cases objects with
  | nil => cases same
  | cons o objects =>
    obtain ⟨rfl, rfl⟩ := List.cons.inj same
    exact ⟨o, objects, rfl, rfl, queued⟩

namespace Coherent

variable {r r' : Registry}

theorem allocate (coherent : r.Coherent) {name : String} {extent : Extent}
    {consumers : List String} {s t : Space}
    (left : (Registry.allocate name extent consumers (s, r)).state? = some (t, r')) :
    r'.Coherent := by
  rcases Outcome.state?_eq_some.mp left with ⟨o, done⟩ | ⟨cause, failed⟩
  · obtain ⟨-, places, -⟩ := allocate_eq_done done
    exact places.coherent coherent
  · obtain ⟨rfl, -⟩ := allocate_eq_failed failed
    exact coherent

theorem change (coherent : r.Coherent) {name : String} {f : Object → Object}
    (retouches : Retouches f) (left : (Registry.change name f r).state? = some r') :
    r'.Coherent := by
  rcases Outcome.state?_eq_some.mp left with ⟨o, done⟩ | ⟨cause, failed⟩
  · obtain ⟨before, -, -, rfl⟩ := change_eq_done.mp done
    exact (retouches.update r before.id).coherent coherent
  · obtain ⟨rfl, -⟩ := change_eq_failed.mp failed
    exact coherent

theorem blend (coherent : r.Coherent) {name : String} {extent : Extent}
    {consumers blendees : List String} {locations : List Location}
    (left : (Registry.blend name extent consumers blendees locations r).state? = some r') :
    r'.Coherent := by
  rcases Outcome.state?_eq_some.mp left with ⟨o, done⟩ | ⟨cause, failed⟩
  · obtain ⟨ids, -, blends, -⟩ := coherent.blend_eq_done done
    exact blends.coherent coherent
  · rw [coherent.blend_eq_failed failed]
    exact coherent

theorem sweep (coherent : r.Coherent) {spaces spaces' : List Space}
    (left : (Registry.sweep (spaces, r)).state? = some (spaces', r')) : r'.Coherent := by
  have start : Waiting _ (spaces, r) :=
    ⟨_, rfl, coherent.queued_garbage (spaces.map Space.region)⟩
  have step : ∀ id rest s t, Waiting (id :: rest) s →
      reclaim (spaces.map Space.region) id s = .done () t → Waiting rest t := by
    intro id rest s t waiting done
    obtain ⟨o, objects, rfl, same, queued⟩ := waiting.first
    obtain ⟨found, live⟩ := queued.live o List.mem_cons_self
    obtain ⟨-, -, dropped⟩ := (reclaim_eq_done found).mp done
    rw [queued.coherent.unregister_eq found live] at dropped
    exact ⟨objects, same, dropped ▸ queued.drop⟩
  rcases Outcome.state?_eq_some.mp left with ⟨count, done⟩ | ⟨cause, failed⟩
  · obtain ⟨_, -, queued⟩ := Action.each_done Waiting step start (sweep_eq_done.mp done).1
    exact queued.coherent
  · obtain ⟨id, rest, middle, waiting, stopped⟩ :=
      Action.each_failed Waiting step start (sweep_eq_failed.mp failed)
    obtain ⟨o, objects, rfl, -, queued⟩ := waiting.first
    obtain ⟨rfl, -⟩ := reclaim_eq_failed (queued.live o List.mem_cons_self).1 stopped
    exact queued.coherent

end Coherent

theorem Reached.coherent {r : Registry} (reached : Reached r) : r.Coherent := by
  induction reached with
  | empty => exact coherent_empty
  | allocate _ _ _ _ _ _ left ih => exact ih.allocate left
  | consume _ consumers _ left ih => exact ih.change (retouches_retire consumers) left
  | consumeAll consumers _ ih => exact ((retouches_retire consumers).updateAll _).coherent ih
  | pin _ sentinel _ left ih => exact ih.change (retouches_pin sentinel) left
  | blend _ _ _ _ _ _ left ih => exact ih.blend left
  | sweep _ _ _ left ih => exact ih.sweep left

/-- A live object shows a location at a position. -/
def Shows (r : Registry) (o : Object) (k : Nat) (l : Location) : Prop :=
  o ∈ r.objects ∧ o.supersededBy = none ∧ o.span.toList[k]? = some l

theorem Coherent.shows_iff {r : Registry} (coherent : r.Coherent) {o : Object} {k : Nat}
    {l : Location} :
    r.Shows o k l ↔ r.object? o.id = some o ∧ ∃ e ∈ r.index.entries, e.Holds l ∧ e.owner = o.id ∧
      e.offset + (l.address - e.start) = k := by
  unfold Shows
  rw [coherent.mem_objects]
  apply and_congr_right
  intro found
  have scan : o.span.toList[k]? = some l ↔
      ∃ e ∈ o.entries, e.Holds l ∧ e.offset + (l.address - e.start) = k := by
    rw [Object.entries, Entry.exists_listing_holds]
    simp [Span.toList]
  rw [scan]
  constructor
  · rintro ⟨live, e, listed, holds, position⟩
    have live : o.isLive = true := by simp [Object.isLive, live]
    obtain ⟨member, owner⟩ := (coherent.mem_entries found live).mp listed
    exact ⟨e, member, holds, owner, position⟩
  · rintro ⟨e, member, holds, owner, position⟩
    obtain ⟨x, registered, live, listed⟩ := (coherent.entries e).mp member
    rw [owner, found] at registered
    cases registered
    exact ⟨by simpa [Object.isLive] using live, e, listed, holds, position⟩

theorem Coherent.resolve_eq_some {r : Registry} (coherent : r.Coherent) {o : Object} {k : Nat}
    {l : Location} : r.resolve l = some (o, k) ↔ r.Shows o k l := by
  rw [coherent.shows_iff]
  unfold resolve
  simp only [Option.bind_eq_bind, Option.bind_eq_some_iff, Prod.exists, Option.pure_def,
    Option.some.injEq, Prod.mk.injEq, AddressIndex.find?_eq_some coherent.index]
  constructor
  · intro ⟨id, offset, ⟨e, member, holds, owner, position⟩, x, found, same, offset'⟩
    subst same offset'
    have here := coherent.ids id x found
    exact ⟨here ▸ found, e, member, holds, owner.trans here.symm, position⟩
  · intro ⟨found, e, member, holds, owner, position⟩
    exact ⟨o.id, k, ⟨e, member, holds, owner, position⟩, o, found, rfl, rfl⟩

theorem resolve_eq_scan {r : Registry} (reached : Reached r) (l : Location) :
    (∀ o k, r.resolve l = some (o, k) ↔ r.Shows o k l) ∧
      (∀ o k o' k', r.Shows o k l → r.Shows o' k' l → o = o' ∧ k = k') ∧
      (r.resolve l = none ↔ ∀ o k, ¬r.Shows o k l) := by
  have found : ∀ o k, r.resolve l = some (o, k) ↔ r.Shows o k l := fun o k =>
    reached.coherent.resolve_eq_some
  refine ⟨found, ?_, ?_⟩
  · intro o k o' k' first second
    have same := ((found o k).mpr first).symm.trans ((found o' k').mpr second)
    simpa using same
  · simp only [Option.eq_none_iff_forall_ne_some, Prod.forall, ← found, ne_eq]

theorem resolve_eq_scan_reordered :
    ∃ r, Reached r ∧
      (∃ o, r.resolve ⟨.dram0, 0⟩ = some (o, 1) ∧ r.Shows o 1 ⟨.dram0, 0⟩ ∧ o.name = "b") ∧
      r.resolve ⟨.dram0, 1⟩ = none ∧ ∀ o k, ¬r.Shows o k ⟨.dram0, 1⟩ := by
  have blended : Reached ⟨[some ⟨0, "a", ⟨12, 3⟩, .dram0, ⟨[⟨.dram0, 0, 3⟩]⟩, ∅, ⟨[]⟩, some 1, []⟩,
      some ⟨1, "b", ⟨8, 2⟩, .dram0, ⟨[⟨.dram0, 2, 1⟩, ⟨.dram0, 0, 1⟩]⟩, ∅, ⟨[⟨.dram0, 0, 3⟩]⟩,
        none, [0]⟩], [("b", 1), ("a", 0)], ⟨[⟨.dram0, 0, 1, 1, 1⟩, ⟨.dram0, 2, 3, 1, 0⟩]⟩⟩ :=
    .blend "b" ⟨8, 2⟩ [] ["a"] [⟨.dram0, 2⟩, ⟨.dram0, 0⟩] reached_lone (by decide +kernel)
  have hidden := (resolve_eq_scan blended ⟨.dram0, 1⟩).2.2
  have shown := (resolve_eq_scan blended ⟨.dram0, 0⟩).1
  refine ⟨_, blended, ⟨_, rfl, (shown _ 1).mp rfl, rfl⟩, rfl, hidden.mp rfl⟩

end VectorMemory.Registry
