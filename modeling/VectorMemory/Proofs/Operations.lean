import VectorMemory.Proofs.Outcome
import VectorMemory.Proofs.Space
import VectorMemory.Proofs.Dropping

/-! What the operations of a registry do: each is one of the changes that keep a
registry coherent, or leaves it as it was. -/
namespace VectorMemory

namespace Registry

/-! ### Consumers -/

/-- A change of consumers that loses no sentinel. -/
structure Retouches (f : Object → Object) : Prop where
  only : ∀ o, f o = { o with consumers := (f o).consumers }
  kept : ∀ o s, isSentinel s → s ∈ o.consumers → s ∈ (f o).consumers

theorem retouches_retire (consumers : List String) : Retouches (Object.retire consumers) := by
  refine ⟨fun o => rfl, fun o s sentinel member => ?_⟩
  simp [Object.retire, NameSet.mem_filter, member, sentinel]

theorem retouches_pin (sentinel : String) : Retouches (Object.pin sentinel) := by
  refine ⟨fun o => rfl, fun o s _ member => ?_⟩
  simp [Object.pin, NameSet.mem_insert, member]

theorem Retouches.update {f : Object → Object} (retouches : Retouches f) (r : Registry)
    (id : ObjectId) :
    Touched (fun i o => if i = id then (f o).consumers else o.consumers) r (r.update id f) := by
  refine ⟨List.length_modify .., rfl, rfl, fun i => ?_, fun i o s sentinel member => ?_⟩
  · rw [object?_update]
    by_cases same : i = id
    · simp only [if_pos same]
      congr 1
      exact funext retouches.only
    · simp [if_neg same]
  · split
    · exact retouches.kept o s sentinel member
    · exact member

theorem Retouches.updateAll {f : Object → Object} (retouches : Retouches f) (r : Registry) :
    Touched (fun _ o => (f o).consumers) r (r.updateAll f) := by
  refine ⟨List.length_map _, rfl, rfl, fun i => ?_, fun i => retouches.kept⟩
  rw [object?_updateAll]
  congr 1
  exact funext retouches.only

/-- A change that adds no consumer but sentinels. -/
structure Retires (f : Object → Object) : Prop extends Retouches f where
  others : ∀ o s, s ∈ (f o).consumers → isSentinel s = false → s ∈ o.consumers

theorem retires_retire (consumers : List String) : Retires (Object.retire consumers) := by
  refine ⟨retouches_retire consumers, fun o s member _ => ?_⟩
  exact (NameSet.mem_filter.mp member).1

theorem retires_pin {sentinel : String} (io : isSentinel sentinel = true) :
    Retires (Object.pin sentinel) := by
  refine ⟨retouches_pin sentinel, fun o s member other => ?_⟩
  rcases NameSet.mem_insert.mp member with rfl | old
  · rw [io] at other
    cases other
  · exact old

theorem Retires.update {f : Object → Object} (retires : Retires f) (r : Registry)
    (id : ObjectId) :
    Retired (fun i o => if i = id then (f o).consumers else o.consumers) r (r.update id f) := by
  refine ⟨retires.toRetouches.update r id, fun i o s member other => ?_⟩
  split at member
  · exact retires.others o s member other
  · exact member

theorem Retires.updateAll {f : Object → Object} (retires : Retires f) (r : Registry) :
    Retired (fun _ o => (f o).consumers) r (r.updateAll f) :=
  ⟨retires.toRetouches.updateAll r, fun _ => retires.others⟩

theorem change_eq_done {name : String} {f : Object → Object} {r r' : Registry} {o : Object} :
    change name f r = .done o r' ↔
      ∃ before, r.get name = .ok before ∧ f before = o ∧ r.update before.id f = r' := by
  simp [change, Action.bind_eq_done, Action.ofResult_eq_done]

theorem change_eq_failed {name : String} {f : Object → Object} {r r' : Registry}
    {cause : MemoryError} :
    change name f r = .failed cause r' ↔ r = r' ∧ r.get name = .error cause := by
  simp [change, Action.bind_eq_failed, Action.ofResult_eq_failed, Action.ofResult_eq_done]

/-! ### Placing an object -/

theorem ensureNew_eq_done {name : String} {r r' : Registry} {u : Unit} :
    ensureNew name r = .done u r' ↔ r.has name = false ∧ r = r' := by
  unfold ensureNew
  rw [Action.bind_eq_done]
  by_cases taken : r.has name <;> simp [taken]

theorem ensureNew_eq_failed {name : String} {r r' : Registry} {cause : MemoryError} :
    ensureNew name r = .failed cause r' ↔
      r.has name = true ∧ .duplicateName name = cause ∧ r = r' := by
  unfold ensureNew
  rw [Action.bind_eq_failed]
  by_cases taken : r.has name <;> simp [taken]

theorem claim_eq_done {id : ObjectId} {span : Span} {r r' : Registry} {u : Unit} :
    claim id span r = .done u r' ↔
      ∃ index, r.index.insert id span = .ok (.ok index) ∧ { r with index } = r' := by
  simp [claim, Action.bind_eq_done, Action.ofResult_eq_done, Action.ofExcept_eq_done]

theorem claim_eq_failed {id : ObjectId} {span : Span} {r r' : Registry} {cause : MemoryError} :
    claim id span r = .failed cause r' ↔
      r = r' ∧ r.index.insert id span = .ok (.error cause) := by
  simp [claim, Action.bind_eq_failed, Action.ofResult_eq_failed, Action.ofResult_eq_done,
    Action.ofExcept_eq_done]

/-- An object whose vectors are all its own has been entered. -/
structure Places (r : Registry) (o : Object) (r' : Registry) : Prop extends Enters r [] o r' where
  owned : o.owned = o.span

theorem Places.origin {r r' : Registry} {o : Object} (places : Places r o r') {i : ObjectId}
    {x : Object} (found : r'.object? i = some x) : (i = r.nextId ∧ x = o) ∨ r.object? i = some x := by
  rcases places.object?_cases found with new | ⟨b, before, ⟨inside, -⟩ | ⟨-, rfl⟩⟩
  · exact .inl new
  · cases inside
  · exact .inr before

theorem allocate_eq_done_iff {name : String} {extent : Extent} {consumers : List String}
    {s t : Space} {r r' : Registry} {o : Object} :
    allocate name extent consumers (s, r) = .done o (t, r') ↔ r.has name = false ∧
      ∃ span, Space.allocate extent.vectors s = .done span t ∧
      ∃ index, r.index.insert r.nextId span = .ok (.ok index) ∧
        register { r with index } ⟨r.nextId, name, extent, t.region, span,
          NameSet.ofList consumers, span, none, []⟩ = r' ∧
        ⟨r.nextId, name, extent, t.region, span, NameSet.ofList consumers, span, none, []⟩ = o := by
  simp [allocate, Action.bind_eq_done, Action.second_eq_done, Action.first_eq_done,
    ensureNew_eq_done, claim_eq_done]

theorem allocate_eq_failed_iff {name : String} {extent : Extent} {consumers : List String}
    {s t : Space} {r r' : Registry} {cause : MemoryError} :
    allocate name extent consumers (s, r) = .failed cause (t, r') ↔
      (s = t ∧ r.has name = true ∧ .duplicateName name = cause ∧ r = r') ∨
      (r.has name = false ∧
        ((Space.allocate extent.vectors s = .failed cause t ∧ r = r') ∨
          ∃ span, (Space.allocate extent.vectors s = .done span t ∧ r = r') ∧
            r'.index.insert r'.nextId span = .ok (.error cause))) := by
  simp [allocate, Action.bind_eq_failed, Action.second_eq_done, Action.first_eq_done,
    Action.second_eq_failed, Action.first_eq_failed, ensureNew_eq_done, ensureNew_eq_failed,
    claim_eq_failed]

theorem allocate_eq_done {name : String} {extent : Extent} {consumers : List String}
    {s t : Space} {r r' : Registry} {o : Object}
    (done : allocate name extent consumers (s, r) = .done o (t, r')) :
    Space.allocate extent.vectors s = .done o.span t ∧ Places r o r' ∧ o.name = name ∧
      o.region = t.region ∧ o.consumers = NameSet.ofList consumers ∧ o.extent = extent := by
  obtain ⟨unnamed, span, granted, index, entered, registered, same⟩ := allocate_eq_done_iff.mp done
  subst same registered
  have proper := Space.proper_of_allocate granted
  refine ⟨granted, ⟨?_, rfl⟩, rfl, rfl, rfl, rfl⟩
  exact ⟨unnamed, rfl, rfl, rfl, by simp, proper, index, entered, rfl⟩

/-- A failed placement may leave vectors taken without an owner. -/
theorem allocate_eq_failed {name : String} {extent : Extent} {consumers : List String}
    {s t : Space} {r r' : Registry} {cause : MemoryError}
    (failed : allocate name extent consumers (s, r) = .failed cause (t, r')) :
    r' = r ∧ ((t = s ∧ cause.errorClass ≠ .invariant) ∨
      ∃ span l, Space.allocate extent.vectors s = .done span t ∧
        r.index.insert r.nextId span = .ok (.error (.claimed l)) ∧ cause = .claimed l) := by
  rcases allocate_eq_failed_iff.mp failed with
    ⟨rfl, -, rfl, rfl⟩ | ⟨-, ⟨refused, rfl⟩ | ⟨span, ⟨granted, rfl⟩, met⟩⟩
  · exact ⟨rfl, .inl ⟨rfl, nofun⟩⟩
  · obtain ⟨full, rfl⟩ := Space.allocate_eq_failed refused
    rw [(Space.place_eq_error.mp full).2]
    exact ⟨rfl, .inl ⟨rfl, nofun⟩⟩
  · rcases AddressIndex.insert_cases met with ⟨l, -, same⟩ | ⟨-, impossible⟩
    · cases same
      exact ⟨rfl, .inr ⟨span, l, granted, met, rfl⟩⟩
    · cases impossible

/-! ### Blending objects -/

theorem idOf_eq_ok {r : Registry} {name : String} {id : ObjectId} :
    r.idOf name = .ok id ↔ r.idOf? name = some id := by
  unfold idOf
  cases r.idOf? name <;> simp

theorem blendeeIds_eq_ok {r : Registry} {names : List String} {ids : List ObjectId}
    (found : r.blendeeIds names = .ok ids) :
    ids.Nodup ∧ ∀ i, i ∈ ids ↔ ∃ n ∈ names, r.idOf? n = some i := by
  -- the ids gathered so far are distinct, whatever names they came from
  suffices gathered : ∀ before : List ObjectId, before.Nodup →
      names.foldlM (fun ids name => do
        let id ← r.idOf name
        return if ids.contains id then ids else ids ++ [id]) before = .ok ids →
      ids.Nodup ∧ ∀ i, i ∈ ids ↔ i ∈ before ∨ ∃ n ∈ names, r.idOf? n = some i by
    simpa using gathered [] List.nodup_nil found
  clear found
  induction names with
  | nil =>
    intro before distinct found
    cases found
    simpa using distinct
  | cons name rest ih =>
    intro before distinct found
    rw [List.foldlM_cons] at found
    obtain ⟨next, step, found⟩ := bind_eq_ok.mp found
    obtain ⟨id, resolved, same⟩ := bind_eq_ok.mp step
    cases same
    have named := idOf_eq_ok.mp resolved
    by_cases known : id ∈ before
    · rw [if_pos (List.contains_iff_mem.mpr known)] at found
      obtain ⟨distinct, members⟩ := ih before distinct found
      refine ⟨distinct, fun i => ?_⟩
      rw [members, List.exists_mem_cons_iff, named, Option.some.injEq]
      constructor
      · exact fun member => member.imp_right .inr
      · intro member
        rcases member with inside | rfl | later
        · exact .inl inside
        · exact .inl known
        · exact .inr later
    · rw [if_neg (fun inside => known (List.contains_iff_mem.mp inside))] at found
      have extended : (before ++ [id]).Nodup := by
        rw [List.nodup_append]
        refine ⟨distinct, List.nodup_singleton id, ?_⟩
        intro a inside b last same
        rw [List.mem_singleton.mp last] at same
        exact known (same ▸ inside)
      obtain ⟨distinct, members⟩ := ih _ extended found
      refine ⟨distinct, fun i => ?_⟩
      rw [members, List.exists_mem_cons_iff, named, Option.some.injEq, List.mem_append,
        List.mem_singleton, or_assoc, eq_comm]

theorem gatherOwned_eq_ok {r : Registry} {ids : List ObjectId} {owned : Span}
    (gathered : r.gatherOwned ids = .ok owned) :
    owned.toList = (ids.filterMap r.object?).flatMap (·.owned.toList) := by
  unfold gatherOwned at gathered
  generalize ids.filterMap r.object? = objects at gathered
  suffices extended : ∀ before : Span,
      objects.foldlM (fun owned o => owned.tryExtend o.owned.runs) before = .ok owned →
      owned.toList = before.toList ++ objects.flatMap (·.owned.toList) by
    simpa using extended .empty gathered
  clear gathered
  induction objects with
  | nil =>
    intro before gathered
    cases gathered
    simp
  | cons o rest ih =>
    intro before gathered
    rw [List.foldlM_cons] at gathered
    obtain ⟨next, first, gathered⟩ := bind_eq_ok.mp gathered
    rw [ih next gathered, Span.toList_tryExtend first, List.flatMap_cons, List.append_assoc]
    rfl

theorem proper_gatherOwned {r : Registry} {ids : List ObjectId} {owned : Span}
    (gathered : r.gatherOwned ids = .ok owned) : owned.Proper := by
  unfold gatherOwned at gathered
  generalize ids.filterMap r.object? = objects at gathered
  suffices extended : ∀ before : Span, before.Proper →
      objects.foldlM (fun owned o => owned.tryExtend o.owned.runs) before = .ok owned →
      owned.Proper from
    extended .empty Span.proper_empty gathered
  clear gathered
  induction objects with
  | nil =>
    intro before proper gathered
    cases gathered
    exact proper
  | cons o rest ih =>
    intro before proper gathered
    rw [List.foldlM_cons] at gathered
    obtain ⟨next, first, gathered⟩ := bind_eq_ok.mp gathered
    refine ih next ?_ gathered
    rw [Span.tryExtend_eq_ok first]
    exact proper.foldl_push _

theorem Coherent.displaced_distinct {r : Registry} (coherent : r.Coherent) {ids : List ObjectId}
    (distinct : ids.Nodup) : (r.displaced ids).Pairwise (·.id ≠ ·.id) := by
  unfold displaced
  apply List.Pairwise.filter
  rw [List.pairwise_filterMap]
  apply distinct.imp
  intro i j other a first b second
  rw [coherent.ids i a first, coherent.ids j b second]
  exact other

structure Lacks (r : Registry) (objects : List Object) (r' : Registry) : Prop where
  rest : r' = { r with index := r'.index }
  sound : r'.index.Sound
  entries : ∀ e, e ∈ r'.index.entries ↔ e ∈ r.index.entries ∧ ∀ o ∈ objects, e.owner ≠ o.id
  distinct : objects.Pairwise (·.id ≠ ·.id)
  live : ∀ o ∈ objects, r.object? o.id = some o ∧ o.isLive = true

theorem Coherent.lacks_withdraw {r : Registry} (coherent : r.Coherent) {ids : List ObjectId}
    (distinct : ids.Nodup) : Lacks r (r.displaced ids) (r.withdraw (r.displaced ids)) := by
  refine ⟨rfl, sound_withdraw coherent.index _, fun e => ?_, coherent.displaced_distinct distinct,
    fun o member => (coherent.mem_displaced.mp member).2⟩
  rw [coherent.mem_withdraw_displaced]
  apply and_congr_right
  intro member
  obtain ⟨o, found, live, -⟩ := (coherent.entries e).mp member
  have same : o.id = e.owner := coherent.ids _ _ found
  constructor
  · intro outside o' displaced owner
    rw [owner] at outside
    exact outside (coherent.mem_displaced.mp displaced).1
  · intro others inside
    rw [← same] at inside found
    exact others o (coherent.mem_displaced.mpr ⟨inside, found, live⟩) same.symm

theorem Coherent.mem_entries {r : Registry} (coherent : r.Coherent) {o : Object}
    (found : r.object? o.id = some o) (live : o.isLive = true) {e : Entry} :
    e ∈ o.entries ↔ e ∈ r.index.entries ∧ e.owner = o.id := by
  constructor
  · intro listed
    have owner : e.owner = o.id := Entry.owner_of_mem_listing listed
    exact ⟨(coherent.entries e).mpr ⟨o, owner ▸ found, live, listed⟩, owner⟩
  · intro ⟨member, owner⟩
    obtain ⟨x, registered, -, listed⟩ := (coherent.entries e).mp member
    rw [owner, found] at registered
    cases registered
    exact listed

theorem Lacks.claim_done {r r₁ r₂ : Registry} {o : Object} {rest : List Object}
    (lacks : Lacks r (o :: rest) r₁) (coherent : r.Coherent)
    (claimed : claim o.id o.span r₁ = .done () r₂) : Lacks r rest r₂ := by
  obtain ⟨index, entered, rfl⟩ := claim_eq_done.mp claimed
  obtain ⟨found, live⟩ := lacks.live o List.mem_cons_self
  obtain ⟨others, distinct⟩ := List.pairwise_cons.mp lacks.distinct
  obtain ⟨sound, members⟩ :=
    AddressIndex.insert_eq_ok lacks.sound (coherent.proper _ _ found) entered
  refine ⟨?_, sound, fun e => ?_, distinct, fun x member => lacks.live x (.tail _ member)⟩
  · rw [lacks.rest]
  · have listed := coherent.mem_entries found live (e := e)
    rw [members, lacks.entries, List.forall_mem_cons]
    change e ∈ o.entries ∨ _ ↔ _
    rw [listed]
    by_cases owner : e.owner = o.id
    · simp only [owner, and_true, ne_eq, not_true_eq_false, false_and, and_false, or_false]
      exact ⟨fun member => ⟨member, others⟩, fun both => both.1⟩
    · simp [owner]

theorem Lacks.claim_ne_failed {r r₁ r₂ : Registry} {o : Object} {rest : List Object}
    {cause : MemoryError} (lacks : Lacks r (o :: rest) r₁) (coherent : r.Coherent) :
    claim o.id o.span r₁ ≠ .failed cause r₂ := by
  intro failed
  obtain ⟨-, refused⟩ := claim_eq_failed.mp failed
  obtain ⟨found, live⟩ := lacks.live o List.mem_cons_self
  have proper := coherent.proper _ _ found
  have inside : ∀ e ∈ o.entries, e ∈ r.index.entries := fun e listed =>
    ((coherent.mem_entries found live).mp listed).1
  apply AddressIndex.insert_ne_error lacks.sound proper _ _ refused
  · apply (Entry.listing_nodup proper).pairwise_of_forall_ne
    intro a first b second other
    exact coherent.index.apart (inside a first) (inside b second) other
  · intro e listed x member
    obtain ⟨before, others⟩ := (lacks.entries x).mp member
    apply coherent.index.apart before (inside e listed)
    intro same
    apply others o List.mem_cons_self
    rw [same]
    exact Entry.owner_of_mem_listing listed

theorem Lacks.eq {r r' : Registry} (lacks : Lacks r [] r') (coherent : r.Coherent) : r' = r := by
  rw [lacks.rest, lacks.sound.ext coherent.index (by simp [lacks.entries])]

/-- Displaced objects can be entered again, which gives back the registry. -/
theorem Coherent.restore_eq_failed {r r' : Registry} (coherent : r.Coherent) {ids : List ObjectId}
    (distinct : ids.Nodup) {cause given : MemoryError}
    (restored : restore (r.displaced ids) given (r.withdraw (r.displaced ids)) = .failed cause r') :
    cause = given ∧ r' = r := by
  have start := coherent.lacks_withdraw distinct
  have step : ∀ o rest r₁ r₂, Lacks r (o :: rest) r₁ → claim o.id o.span r₁ = .done () r₂ →
      Lacks r rest r₂ := fun _ _ _ _ lacks claimed => lacks.claim_done coherent claimed
  rcases Action.bind_eq_failed.mp restored with failed | ⟨_, r₁, entered, failed⟩
  · obtain ⟨o, rest, r₁, lacks, failed⟩ := Action.each_failed (Lacks r) step start failed
    exact absurd failed (lacks.claim_ne_failed coherent)
  · cases failed
    exact ⟨rfl, (Action.each_done (Lacks r) step start entered).eq coherent⟩

theorem exchange_eq_done {r r' : Registry} {objects : List Object} {id : ObjectId} {span : Span}
    {u : Unit} (exchanged : exchange objects id span r = .done u r') :
    ∃ index, (r.withdraw objects).index.insert id span = .ok (.ok index) ∧
      r' = { r with index } := by
  unfold exchange at exchanged
  split at exchanged
  · next cause r₁ failed =>
    -- entering the displaced objects again ends in a failure, never in a success
    obtain ⟨_, _, _, impossible⟩ := Action.bind_eq_done.mp exchanged
    cases impossible
  · obtain ⟨index, entered, rfl⟩ := claim_eq_done.mp exchanged
    exact ⟨index, entered, rfl⟩

theorem Coherent.exchange_eq_failed {r r' : Registry} (coherent : r.Coherent)
    {ids : List ObjectId} (distinct : ids.Nodup) {id : ObjectId} {span : Span}
    {cause : MemoryError} (failed : exchange (r.displaced ids) id span r = .failed cause r') :
    r' = r ∧ (r.withdraw (r.displaced ids)).index.insert id span = .ok (.error cause) := by
  unfold exchange at failed
  split at failed
  · next given r₁ met =>
    obtain ⟨rfl, refused⟩ := claim_eq_failed.mp met
    obtain ⟨rfl, same⟩ := coherent.restore_eq_failed distinct failed
    exact ⟨same, refused⟩
  · next other => exact absurd failed (other _ _)

theorem blend_done_cases {r r' : Registry} {name : String} {extent : Extent}
    {consumers blendees : List String} {locations : List Location} {o : Object}
    (done : blend name extent consumers blendees locations r = .done o r') :
    r.has name = false ∧ locations.length = extent.vectors ∧
      ∃ ids, r.blendeeIds blendees = .ok ids ∧
      ∃ region, r.blendRegion? ids locations = some region ∧
      ∃ span, Span.tryOfLocations locations = .ok span ∧
      ∃ index, (r.withdraw (r.displaced ids)).index.insert r.nextId span = .ok (.ok index) ∧
      ∃ owned, r.gatherOwned ids = .ok owned ∧
        register (supersede { r with index } ids r.nextId) ⟨r.nextId, name, extent, region, span,
          r.blendConsumers ids consumers, owned, none, ids⟩ = r' ∧
        ⟨r.nextId, name, extent, region, span, r.blendConsumers ids consumers, owned, none, ids⟩ = o := by
  unfold blend at done
  obtain ⟨_, _, checked, done⟩ := Action.bind_eq_done.mp done
  obtain ⟨unnamed, rfl⟩ := ensureNew_eq_done.mp checked
  split at done
  · cases done
  next counted =>
  obtain ⟨_, _, got, done⟩ := Action.bind_eq_done.mp done
  cases got
  obtain ⟨ids, _, resolved, done⟩ := Action.bind_eq_done.mp done
  obtain ⟨named, rfl⟩ := Action.ofResult_eq_done.mp resolved
  refine ⟨unnamed, not_not.mp counted, ids, named, ?_⟩
  cases home : r.blendRegion? ids locations with
  | none =>
    rw [home] at done
    cases done
  | some region =>
    rw [home] at done
    obtain ⟨span, _, spanned, done⟩ := Action.bind_eq_done.mp done
    obtain ⟨built, rfl⟩ := Action.ofExcept_eq_done.mp spanned
    obtain ⟨_, _, swapped, done⟩ := Action.bind_eq_done.mp done
    obtain ⟨index, entered, rfl⟩ := exchange_eq_done swapped
    obtain ⟨owned, _, collected, done⟩ := Action.bind_eq_done.mp done
    obtain ⟨gathered, rfl⟩ := Action.ofExcept_eq_done.mp collected
    cases done
    exact ⟨region, rfl, span, built, index, entered, owned, gathered, rfl, rfl⟩

/-- Why a blend is refused, in the order of the checks. -/
theorem blend_failed_cases {r r' : Registry} {name : String} {extent : Extent}
    {consumers blendees : List String} {locations : List Location} {cause : MemoryError}
    (failed : blend name extent consumers blendees locations r = .failed cause r') :
    (r.has name = true ∧ .duplicateName name = cause ∧ r = r') ∨
    (locations.length ≠ extent.vectors ∧
      .sizeMismatch name extent.vectors locations.length = cause ∧ r = r') ∨
    (r.blendeeIds blendees = .error cause ∧ r = r') ∨
    ∃ ids, r.blendeeIds blendees = .ok ids ∧
      ((r.blendRegion? ids locations = none ∧ .nothingToBlend name = cause ∧ r = r') ∨
        ∃ span, Span.tryOfLocations locations = .ok span ∧
          exchange (r.displaced ids) r.nextId span r = .failed cause r') := by
  unfold blend at failed
  rcases Action.bind_eq_failed.mp failed with known | ⟨_, _, checked, failed⟩
  · exact .inl (ensureNew_eq_failed.mp known)
  obtain ⟨-, rfl⟩ := ensureNew_eq_done.mp checked
  split at failed
  · next other =>
    cases failed
    exact .inr (.inl ⟨other, rfl, rfl⟩)
  rcases Action.bind_eq_failed.mp failed with got | ⟨_, _, got, failed⟩
  · cases got
  cases got
  rcases Action.bind_eq_failed.mp failed with unknown | ⟨ids, _, resolved, failed⟩
  · exact .inr (.inr (.inl (Action.ofResult_eq_failed.mp unknown)))
  obtain ⟨named, rfl⟩ := Action.ofResult_eq_done.mp resolved
  refine .inr (.inr (.inr ⟨ids, named, ?_⟩))
  cases home : r.blendRegion? ids locations with
  | none =>
    rw [home] at failed
    cases failed
    exact .inl ⟨rfl, rfl, rfl⟩
  | some region =>
    rw [home] at failed
    rcases Action.bind_eq_failed.mp failed with spanned | ⟨span, _, spanned, failed⟩
    · exact absurd spanned Action.ofExcept_ne_failed
    obtain ⟨built, rfl⟩ := Action.ofExcept_eq_done.mp spanned
    rcases Action.bind_eq_failed.mp failed with met | ⟨_, _, -, failed⟩
    · exact .inr ⟨span, built, met⟩
    -- nothing fails once the blend is entered
    rcases Action.bind_eq_failed.mp failed with collected | ⟨owned, _, -, failed⟩
    · exact absurd collected Action.ofExcept_ne_failed
    · cases failed

/-- A blend has been entered; it owns what its blendees owned and is pinned if
one of them is. -/
structure Blends (r : Registry) (ids : List ObjectId) (o : Object) (r' : Registry) : Prop
    extends Enters r ids o r' where
  distinct : ids.Nodup
  region : r.blendRegion? ids o.span.toList = some o.region
  owned : o.owned.toList = (ids.filterMap r.object?).flatMap (·.owned.toList)
  whole : o.owned.Proper
  pinned : ∀ i ∈ ids, ∀ b, r.object? i = some b → b.isPinned = true → o.isPinned = true

theorem Blends.mem_owned {r r' : Registry} {ids : List ObjectId} {o : Object}
    (blends : Blends r ids o r') {l : Location} :
    l ∈ o.owned.toList ↔ ∃ i ∈ ids, ∃ b, r.object? i = some b ∧ l ∈ b.owned.toList := by
  rw [blends.owned]
  simp only [List.mem_flatMap, List.mem_filterMap]
  constructor
  · intro ⟨b, ⟨i, member, found⟩, inside⟩
    exact ⟨i, member, b, found, inside⟩
  · intro ⟨i, member, b, found, inside⟩
    exact ⟨b, ⟨i, member, found⟩, inside⟩

theorem isPinned_blendConsumers {r : Registry} {ids : List ObjectId} {consumers : List String}
    {i : ObjectId} {b : Object} (member : i ∈ ids) (found : r.object? i = some b)
    (pinned : b.isPinned = true) : (r.blendConsumers ids consumers).any isSentinel = true := by
  obtain ⟨s, inside, sentinel⟩ := NameSet.any_eq_true.mp pinned
  refine NameSet.any_eq_true.mpr ⟨s, ?_, sentinel⟩
  unfold blendConsumers
  rw [NameSet.mem_ofList, List.mem_append, List.mem_flatMap]
  right
  exact ⟨b, List.mem_filterMap.mpr ⟨i, member, found⟩, List.mem_filter.mpr ⟨inside, sentinel⟩⟩

theorem Coherent.blend_eq_done {r r' : Registry} (coherent : r.Coherent) {name : String}
    {extent : Extent} {consumers blendees : List String} {locations : List Location} {o : Object}
    (done : blend name extent consumers blendees locations r = .done o r') :
    ∃ ids, r.blendeeIds blendees = .ok ids ∧ Blends r ids o r' ∧ o.span.toList = locations := by
  obtain ⟨unnamed, -, ids, named, region, home, span, built, index, entered, owned, gathered,
    rfl, rfl⟩ := blend_done_cases done
  obtain ⟨distinct, members⟩ := blendeeIds_eq_ok named
  have registered : ∀ i ∈ ids, ∃ b, r.object? i = some b := by
    intro i inside
    obtain ⟨n, -, known⟩ := (members i).mp inside
    obtain ⟨b, found, -⟩ := coherent.idOf?_eq_some.mp known
    exact ⟨b, found⟩
  have view := Span.toList_tryOfLocations built
  refine ⟨ids, named, ⟨?_, distinct, view ▸ home, gatherOwned_eq_ok gathered,
    proper_gatherOwned gathered, ?_⟩, view⟩
  · exact ⟨unnamed, rfl, rfl, rfl, registered, Span.proper_tryOfLocations built,
      index, entered, rfl⟩
  · intro i inside b found pinned
    exact isPinned_blendConsumers inside found pinned

theorem Coherent.blend_eq_failed {r r' : Registry} (coherent : r.Coherent) {name : String}
    {extent : Extent} {consumers blendees : List String} {locations : List Location}
    {cause : MemoryError}
    (failed : blend name extent consumers blendees locations r = .failed cause r') : r' = r := by
  rcases blend_failed_cases failed with
    ⟨-, -, rfl⟩ | ⟨-, -, rfl⟩ | ⟨-, rfl⟩ | ⟨ids, named, ⟨-, -, rfl⟩ | ⟨span, -, met⟩⟩
  · rfl
  · rfl
  · rfl
  · rfl
  · exact (coherent.exchange_eq_failed (blendeeIds_eq_ok named).1 met).1

/-! ### Sweeping -/

theorem mem_within {owned : Span} {region : Region} {a : Nat} :
    ⟨region, a⟩ ∈ (owned.within region).toList ↔ ⟨region, a⟩ ∈ owned.toList := by
  simp [Span.toList_within]

theorem freeOwned_eq_done {o : Object} {spaces spaces' : List Space}
    (sound : ∀ s ∈ spaces, s.Sound) (freed : freeOwned o spaces = .done () spaces') :
    List.Forall₂ (fun s t => Space.Returns s o.owned.toList t) spaces spaces' := by
  induction spaces generalizing spaces' with
  | nil =>
    cases freed
    exact .nil
  | cons s rest ih =>
    rw [List.forall_mem_cons] at sound
    unfold freeOwned at freed
    split at freed
    · cases freed
    · cases freed
    · next t here =>
      split at freed
      · cases freed
      · cases freed
      · next rest' there =>
        cases freed
        have returns := (Space.free_eq_done sound.1 here).congr fun _ => mem_within
        exact .cons returns (ih sound.2 there)

theorem freeOwned_ne_failed {o : Object} {spaces spaces' : List Space} {cause : MemoryError}
    (sound : ∀ s ∈ spaces, s.Sound) (nodup : o.owned.toList.Nodup)
    (taken : ∀ s ∈ spaces, ∀ l ∈ o.owned.toList, l.region = s.region → s.Taken l.address) :
    freeOwned o spaces ≠ .failed cause spaces' := by
  induction spaces generalizing spaces' cause with
  | nil => exact nofun
  | cons s rest ih =>
    rw [List.forall_mem_cons] at sound taken
    intro failed
    unfold freeOwned at failed
    split at failed
    · cases failed
    · next stopped =>
      apply Space.free_ne_failed sound.1 (fun r => Span.region_of_mem_within) _ _ stopped
      · rw [Span.toList_within]
        exact nodup.filter _
      · intro l inside
        rw [Span.toList_within, List.mem_filter, decide_eq_true_eq] at inside
        exact taken.1 l inside.1 inside.2
    · split at failed
      · cases failed
      · next stopped => exact ih sound.2 taken.2 stopped
      · cases failed

theorem reclaim_of_gone {regions : List Region} {spaces : List Space} {r : Registry} {id : ObjectId}
    (gone : r.object? id = none) : reclaim regions id (spaces, r) = .done () (spaces, r) := by
  simp [reclaim, Action.bind_apply, gone]

theorem reclaim_of_found {regions : List Region} {o : Object} {spaces : List Space} {r : Registry}
    {id : ObjectId} (found : r.object? id = some o) :
    reclaim regions id (spaces, r) = discard regions id o (spaces, r) := by
  simp [reclaim, Action.bind_apply, found]

theorem reclaim_eq_done {regions : List Region} {o : Object} {spaces spaces' : List Space}
    {r r' : Registry} {id : ObjectId} {u : Unit} (found : r.object? id = some o) :
    reclaim regions id (spaces, r) = .done u (spaces', r') ↔
      (∀ run ∈ o.owned.runs, run.region ∈ regions) ∧ freeOwned o spaces = .done () spaces' ∧
        r' = r.unregister id := by
  rw [reclaim_of_found found, discard]
  cases stray : o.owned.runs.find? fun run => !regions.contains run.region with
  | some run =>
    have outside : run.region ∉ regions := by simpa using List.find?_some stray
    refine iff_of_false nofun fun ⟨inside, _⟩ => ?_
    exact outside (inside run (List.mem_of_find?_eq_some stray))
  | none =>
    have inside : ∀ run ∈ o.owned.runs, run.region ∈ regions := by
      simpa using List.find?_eq_none.mp stray
    constructor
    · intro done
      obtain ⟨_, ⟨middle, r₁⟩, freed, dropped⟩ := Action.bind_eq_done.mp done
      obtain ⟨returned, rfl⟩ := Action.first_eq_done.mp freed
      obtain ⟨rfl, unregistered⟩ := Action.second_eq_done.mp dropped
      cases unregistered
      exact ⟨inside, returned, rfl⟩
    · rintro ⟨-, returned, rfl⟩
      refine Action.bind_eq_done.mpr ⟨(), (spaces', r), Action.first_eq_done.mpr ⟨returned, rfl⟩, ?_⟩
      exact Action.second_eq_done.mpr ⟨rfl, rfl⟩

theorem reclaim_eq_failed {regions : List Region} {o : Object} {spaces spaces' : List Space}
    {r r' : Registry} {id : ObjectId} {cause : MemoryError} (found : r.object? id = some o)
    (failed : reclaim regions id (spaces, r) = .failed cause (spaces', r')) :
    r' = r ∧ ((spaces' = spaces ∧ ∃ region, cause = .strayVectors o.name region) ∨
      freeOwned o spaces = .failed cause spaces') := by
  rw [reclaim_of_found found, discard] at failed
  cases stray : o.owned.runs.find? fun run => !regions.contains run.region with
  | some run =>
    rw [stray] at failed
    cases failed
    exact ⟨rfl, .inl ⟨rfl, run.region, rfl⟩⟩
  | none =>
    rw [stray] at failed
    rcases Action.bind_eq_failed.mp failed with refused | ⟨_, ⟨middle, r₁⟩, freed, dropped⟩
    · obtain ⟨stopped, rfl⟩ := Action.first_eq_failed.mp refused
      exact ⟨rfl, .inr stopped⟩
    · obtain ⟨-, impossible⟩ := Action.second_eq_failed.mp dropped
      cases impossible

def garbage (regions : List Region) (r : Registry) : List Object :=
  r.objects.filter (isGarbage regions)

theorem consumed_of_garbage {regions : List Region} {r : Registry} {o : Object}
    (member : o ∈ r.garbage regions) : o.isConsumed = true := by
  obtain ⟨-, freed⟩ := List.mem_filter.mp member
  simp only [isGarbage, Bool.and_eq_true] at freed
  exact freed.1.2

theorem sweep_eq_done {spaces : List Space} {r : Registry} {state : List Space × Registry}
    {count : Nat} :
    sweep (spaces, r) = .done count state ↔
      Action.each (reclaim (spaces.map Space.region))
          ((garbage (spaces.map Space.region) r).map Object.id) (spaces, r) = .done () state ∧
        count = (garbage (spaces.map Space.region) r).length := by
  constructor
  · intro done
    obtain ⟨_, _, got, afterGet⟩ := Action.bind_eq_done.mp done
    cases got
    obtain ⟨_, _, freed, final⟩ := Action.bind_eq_done.mp afterGet
    cases final
    exact ⟨freed, List.length_map _⟩
  · rintro ⟨freed, rfl⟩
    refine Action.bind_eq_done.mpr ⟨(spaces, r), (spaces, r), rfl, ?_⟩
    refine Action.bind_eq_done.mpr ⟨(), state, freed, ?_⟩
    rw [List.length_map]
    rfl

theorem sweep_eq_failed {spaces : List Space} {r : Registry} {state : List Space × Registry}
    {cause : MemoryError} :
    sweep (spaces, r) = .failed cause state ↔
      Action.each (reclaim (spaces.map Space.region))
          ((garbage (spaces.map Space.region) r).map Object.id) (spaces, r) = .failed cause state := by
  constructor
  · intro failed
    rcases Action.bind_eq_failed.mp failed with got | ⟨_, _, got, afterGet⟩
    · cases got
    cases got
    rcases Action.bind_eq_failed.mp afterGet with stopped | ⟨_, _, _, final⟩
    · exact stopped
    · cases final
  · intro stopped
    refine Action.bind_eq_failed.mpr (.inr ⟨(spaces, r), (spaces, r), rfl, ?_⟩)
    exact Action.bind_eq_failed.mpr (.inl stopped)

structure Queued (r : Registry) (objects : List Object) : Prop where
  coherent : r.Coherent
  distinct : objects.Pairwise (·.id ≠ ·.id)
  live : ∀ o ∈ objects, r.object? o.id = some o ∧ o.isLive = true

theorem Coherent.objects_ordered {r : Registry} (coherent : r.Coherent) :
    r.objects.Pairwise (·.id < ·.id) := by
  unfold objects
  rw [List.pairwise_filterMap, List.pairwise_iff_getElem]
  intro i j first second before a found b found'
  have here := coherent.ids i a (object?_eq_some.mpr (List.getElem?_eq_some_iff.mpr ⟨first, found⟩))
  have there :=
    coherent.ids j b (object?_eq_some.mpr (List.getElem?_eq_some_iff.mpr ⟨second, found'⟩))
  rw [here, there]
  exact before

theorem Coherent.objects_distinct {r : Registry} (coherent : r.Coherent) :
    r.objects.Pairwise (·.id ≠ ·.id) :=
  coherent.objects_ordered.imp Nat.ne_of_lt

theorem Coherent.queued_garbage {r : Registry} (coherent : r.Coherent) (regions : List Region) :
    Queued r (r.garbage regions) := by
  refine ⟨coherent, coherent.objects_distinct.filter _, fun o member => ?_⟩
  obtain ⟨registered, freed⟩ := List.mem_filter.mp member
  simp only [isGarbage, Bool.and_eq_true] at freed
  exact ⟨coherent.mem_objects.mp registered, freed.1.1⟩

theorem Queued.front {r : Registry} {front rest : List Object} (queued : Queued r (front ++ rest)) :
    Queued r front :=
  ⟨queued.coherent, (List.pairwise_append.mp queued.distinct).1,
    fun o member => queued.live o (List.mem_append_left _ member)⟩

theorem Queued.drop {r : Registry} {o : Object} {rest : List Object} (queued : Queued r (o :: rest)) :
    Queued (r.without o) rest := by
  obtain ⟨others, distinct⟩ := List.pairwise_cons.mp queued.distinct
  refine ⟨queued.coherent.without (queued.live o List.mem_cons_self).1, distinct, ?_⟩
  intro x member
  obtain ⟨found, live⟩ := queued.live x (.tail _ member)
  refine ⟨object?_without_eq_some.mpr ⟨?_, found⟩, live⟩
  rw [representative_of_live found live]
  exact (others x member).symm

end Registry

end VectorMemory
