import VectorMemory.Proofs.Lookup

/-! Which blends a registry accepts, and what a refused one leaves. No object shows or owns the
last address of a region, so the runs that are gathered and entered all end at a word: a blend
over such vectors is either registered or refused, and the objects it displaced can be entered
again. -/
namespace VectorMemory

theorem Run.stop_lt_limit {r : Run} (filled : 0 < r.length)
    (below : ∀ l ∈ r.toList, l.address < Word.max) : r.stop < Word.limit := by
  have inside : r.start ≤ r.stop - 1 ∧ r.stop - 1 < r.stop := by
    simp only [stop]
    omega
  have last : r.stop - 1 < Word.max := below ⟨r.region, r.stop - 1⟩ (mem_toList.mpr ⟨rfl, inside⟩)
  simp only [Word.max] at last
  omega

namespace Span

variable {s : Span} {r : Run} {runs : List Run}

def Bounded (s : Span) : Prop :=
  ∀ l ∈ s.toList, l.address < Word.max

theorem Bounded.stop_lt_limit (bounded : s.Bounded) (proper : s.Proper) (member : r ∈ s.runs) :
    r.stop < Word.limit :=
  Run.stop_lt_limit (proper r member) fun l inside => bounded l (mem_toList.mpr ⟨r, member, inside⟩)

theorem bounded_of_stop (stops : ∀ r ∈ s.runs, r.stop < Word.limit) : s.Bounded := by
  intro l member
  obtain ⟨r, run, inside⟩ := mem_toList.mp member
  have stop := stops r run
  have upper := (Run.mem_toList.mp inside).2.2
  simp only [Word.max]
  omega

theorem Bounded.push (bounded : s.Bounded) (below : ∀ l ∈ r.toList, l.address < Word.max) :
    (s.push r).Bounded := by
  intro l member
  rw [toList_push, List.mem_append] at member
  exact member.elim (bounded l) (below l)

theorem tryPush_of_bounded (proper : s.Proper) (bounded : s.Bounded)
    (below : ∀ l ∈ r.toList, l.address < Word.max) : s.tryPush r = .ok (s.push r) := by
  unfold tryPush
  split
  · next empty => simp [push, empty, pure, Except.pure]
  · next filled =>
    split
    · rfl
    · next last ending =>
      have member := List.mem_of_getLast? ending
      have stop : last.tryStop = .ok last.stop := Word.add_eq_ok (bounded.stop_lt_limit proper member)
      split
      · refine bind_eq_ok.mpr ⟨last.stop, stop, ?_⟩
        split
        · next continues =>
          -- the merged run ends where the new one does
          have whole := Run.stop_lt_limit (Nat.pos_of_ne_zero filled) below
          have sum : last.length + r.length < Word.limit := by
            simp only [Run.stop] at whole continues
            omega
          exact bind_eq_ok.mpr ⟨_, Word.add_eq_ok sum, rfl⟩
        · rfl
      · rfl

theorem tryExtend_of_bounded (proper : s.Proper) (bounded : s.Bounded)
    (below : ∀ l ∈ runs.flatMap Run.toList, l.address < Word.max) :
    ∃ t, s.tryExtend runs = .ok t ∧ t.Proper ∧ t.Bounded := by
  unfold tryExtend
  induction runs generalizing s with
  | nil => exact ⟨s, rfl, proper, bounded⟩
  | cons r rest ih =>
    simp only [List.flatMap_cons, List.mem_append] at below
    have here : ∀ l ∈ r.toList, l.address < Word.max := fun l member => below l (.inl member)
    obtain ⟨t, extended, both⟩ :=
      ih (proper.push r) (bounded.push here) fun l member => below l (.inr member)
    rw [List.foldlM_cons]
    exact ⟨t, bind_eq_ok.mpr ⟨_, tryPush_of_bounded proper bounded here, extended⟩, both⟩

theorem bounded_empty : empty.Bounded := nofun

theorem tryOfLocations_of_bounded {locations : List Location}
    (below : ∀ l ∈ locations, l.address < Word.max) : ∃ s, tryOfLocations locations = .ok s := by
  have single (l : Location) : (Run.mk l.region l.address 1).toList = [l] := rfl
  obtain ⟨s, built, -⟩ := @tryExtend_of_bounded empty
    (locations.map fun l => ⟨l.region, l.address, 1⟩) proper_empty bounded_empty
    (by simpa [List.flatMap_map, single] using below)
  exact ⟨s, built⟩

theorem tryToList_of_bounded (proper : s.Proper) (bounded : s.Bounded) :
    s.tryToList = .ok s.toList := by
  suffices walked : ∀ runs before, (∀ r ∈ runs, r.stop < Word.limit) →
      List.foldlM (fun seen r => do let _ ← Run.tryStop r; return seen ++ r.toList) before runs =
        Except.ok (before ++ runs.flatMap Run.toList) by
    exact walked s.runs [] fun r member => bounded.stop_lt_limit proper member
  intro runs
  induction runs with
  | nil => simp [pure, Except.pure]
  | cons r rest ih =>
    intro before stops
    rw [List.forall_mem_cons] at stops
    have stop : r.tryStop = .ok r.stop := Word.add_eq_ok stops.1
    rw [List.foldlM_cons, List.flatMap_cons, ← List.append_assoc]
    exact bind_eq_ok.mpr ⟨_, bind_eq_ok.mpr ⟨_, stop, rfl⟩, ih _ stops.2⟩

structure Indexable (s : Span) : Prop where
  bounded : s.Bounded
  room : s.toList.length < Word.limit

end Span

namespace Entry

theorem Apart.not_holds {a b : Entry} (apart : a.Apart b) {l : Location} (holds : a.Holds l) :
    ¬b.Holds l := by
  intro other
  have ends := apart (holds.1.trans other.1.symm)
  have := holds.2
  have := other.2
  omega

theorem holds_of_mem {owner : ObjectId} {offset : Nat} {runs : List Run} {l : Location}
    (member : l ∈ runs.flatMap Run.toList) : ∃ e ∈ listing owner offset runs, e.Holds l := by
  obtain ⟨k, found⟩ := List.mem_iff_getElem?.mp member
  obtain ⟨e, listed, holds, -⟩ := exists_listing_holds.mpr
    ⟨Nat.le_add_right offset k, by rwa [Nat.add_sub_cancel_left]⟩
  exact ⟨e, listed, holds⟩

theorem nodup_of_listing_apart {owner : ObjectId} {offset : Nat} {runs : List Run}
    (apart : (listing owner offset runs).Pairwise Apart) : (runs.flatMap Run.toList).Nodup := by
  induction runs generalizing offset with
  | nil => exact List.nodup_nil
  | cons r rest ih =>
    obtain ⟨first, later⟩ := List.pairwise_cons.mp apart
    rw [List.flatMap_cons, List.nodup_append']
    refine ⟨r.toList_nodup, ih later, ?_⟩
    intro l here there
    obtain ⟨e, listed, holds⟩ := holds_of_mem there
    obtain ⟨region, lower, upper⟩ := Run.mem_toList.mp here
    exact (first e listed).not_holds ⟨region.symm, lower, upper⟩ holds

theorem words_of_ofRuns {owner : ObjectId} {offset : Nat} {runs : List Run} {entries : List Entry}
    (start : offset < Word.limit) (built : ofRuns owner offset runs = .ok entries) :
    (∀ r ∈ runs, r.stop < Word.limit) ∧
      offset + (runs.flatMap Run.toList).length < Word.limit := by
  induction runs generalizing offset entries with
  | nil => simpa using start
  | cons r rest ih =>
    rw [ofRuns] at built
    obtain ⟨stop, ended, built⟩ := bind_eq_ok.mp built
    obtain ⟨word, -⟩ := Word.add_eq_ok_iff.mp ended
    obtain ⟨next, added, built⟩ := bind_eq_ok.mp built
    obtain ⟨start, rfl⟩ := Word.add_eq_ok_iff.mp added
    obtain ⟨later, built, -⟩ := bind_eq_ok.mp built
    obtain ⟨stops, room⟩ := ih start built
    refine ⟨List.forall_mem_cons.mpr ⟨word, stops⟩, ?_⟩
    rwa [List.flatMap_cons, List.length_append, Run.length_toList, ← Nat.add_assoc]

end Entry

namespace AddressIndex

variable {index : AddressIndex} {owner : ObjectId} {span : Span}

theorem indexable_of_insert {result : Except MemoryError AddressIndex}
    (entered : index.insert owner span = .ok result) : span.Indexable := by
  obtain ⟨entries, built, -⟩ := bind_eq_ok.mp entered
  obtain ⟨stops, room⟩ := Entry.words_of_ofRuns (by decide) built
  exact ⟨Span.bounded_of_stop stops, by rwa [Nat.zero_add] at room⟩

theorem insert_of_indexable (indexable : span.Indexable) (proper : span.Proper) :
    ∃ result, index.insert owner span = .ok result := by
  have built : Entry.ofRuns owner 0 span.runs = .ok (Entry.listing owner 0 span.runs) := by
    apply Entry.ofRuns_of_bounded fun r member => indexable.bounded.stop_lt_limit proper member
    rw [Nat.zero_add]
    exact indexable.room
  rw [insert, built]
  dsimp only [bind, Except.bind]
  split <;> exact ⟨_, rfl⟩

theorem insert_accepts_iff (sound : index.Sound) (proper : span.Proper)
    (indexable : span.Indexable) :
    (∃ next, index.insert owner span = .ok (.ok next)) ↔
      span.toList.Nodup ∧ ∀ l ∈ span.toList, ∀ e ∈ index.entries, ¬e.Holds l := by
  constructor
  · rintro ⟨next, entered⟩
    rcases insert_cases entered with ⟨l, -, impossible⟩ | ⟨accepted, -⟩
    · cases impossible
    · obtain ⟨ordered, apart⟩ := (firstCollision_eq_none sound (ordering_sorted owner span)
        (ordering_filled proper)).mp accepted
      constructor
      · apply @Entry.nodup_of_listing_apart owner 0
        exact (perm_ordering owner span).pairwise (ordered.imp Entry.Ahead.apart) Entry.Apart.symm
      · intro l member e old holds
        obtain ⟨new, listed, inside⟩ := Entry.holds_of_mem member
        exact (apart new (mem_ordering.mpr listed) e old).not_holds holds inside
  · intro ⟨nodup, fresh⟩
    exact insert_of_fresh sound proper nodup fresh
      (fun r member => indexable.bounded.stop_lt_limit proper member) indexable.room

end AddressIndex

/-- What the object shows can be entered, and what it owns can be gathered. -/
structure Object.Bounded (o : Object) : Prop where
  shown : o.span.Indexable
  owned : o.owned.Bounded

namespace Registry

variable {r r' : Registry} {name : String} {extent : Extent} {consumers blendees : List String}
  {locations : List Location} {ids : List ObjectId} {o : Object}

/-! ### Vectors with an address after them -/

def Bounded (r : Registry) : Prop :=
  ∀ i o, r.object? i = some o → o.Bounded

theorem bounded_empty : empty.Bounded := by
  simp [Bounded, empty, object?]

theorem Touched.bounded {users : ObjectId → Object → NameSet} (touched : Touched users r r')
    (bounded : r.Bounded) : r'.Bounded := by
  intro i x found
  obtain ⟨b, before, rfl⟩ := touched.object?_eq_some found
  have kept := bounded i b before
  exact ⟨kept.shown, kept.owned⟩

theorem Enters.bounded (enters : Enters r ids o r') (bounded : r.Bounded)
    (owned : o.owned.Bounded) : r'.Bounded := by
  intro i x found
  rcases enters.object?_cases found with ⟨-, rfl⟩ | ⟨b, before, ⟨-, rfl⟩ | ⟨-, rfl⟩⟩
  · obtain ⟨index, entered, -⟩ := enters.result
    exact ⟨AddressIndex.indexable_of_insert entered, owned⟩
  · exact ⟨(bounded i b before).shown, Span.bounded_empty⟩
  · exact bounded i x before

theorem Places.bounded (places : Places r o r') (bounded : r.Bounded) : r'.Bounded := by
  obtain ⟨index, entered, -⟩ := places.result
  refine places.toEnters.bounded bounded ?_
  rw [places.owned]
  exact (AddressIndex.indexable_of_insert entered).bounded

theorem Blends.bounded (blends : Blends r ids o r') (bounded : r.Bounded) : r'.Bounded := by
  refine blends.toEnters.bounded bounded fun l owned => ?_
  obtain ⟨i, -, b, before, inside⟩ := blends.mem_owned.mp owned
  exact (bounded i b before).owned l inside

namespace Bounded

theorem change {f : Object → Object} (bounded : r.Bounded) (retouches : Retouches f)
    (left : (Registry.change name f r).state? = some r') : r'.Bounded := by
  rcases Outcome.state?_eq_some.mp left with ⟨o, done⟩ | ⟨cause, failed⟩
  · obtain ⟨before, -, -, rfl⟩ := change_eq_done.mp done
    exact (retouches.update r before.id).bounded bounded
  · obtain ⟨rfl, -⟩ := change_eq_failed.mp failed
    exact bounded

theorem unregister (bounded : r.Bounded) (id : ObjectId) : (r.unregister id).Bounded :=
  fun i x kept => bounded i x (object?_of_dropAll kept)

theorem reclaim {regions : List Region} {id : ObjectId} {spaces : List Space}
    {state : List Space × Registry} (bounded : r.Bounded)
    (left : (Registry.reclaim regions id (spaces, r)).state? = some state) : state.2.Bounded := by
  cases found : r.object? id with
  | none =>
    rw [reclaim_of_gone found] at left
    cases left
    exact bounded
  | some o =>
    rcases Outcome.state?_eq_some.mp left with ⟨_, done⟩ | ⟨cause, failed⟩
    · obtain ⟨-, -, dropped⟩ := (reclaim_eq_done found).mp done
      rw [dropped]
      exact bounded.unregister id
    · rw [(reclaim_eq_failed found failed).1]
      exact bounded

theorem sweep {spaces spaces' : List Space} (bounded : r.Bounded)
    (left : (Registry.sweep (spaces, r)).state? = some (spaces', r')) : r'.Bounded := by
  have step : ∀ (id : ObjectId) (_ : List ObjectId) (s t : List Space × Registry), s.2.Bounded →
      Registry.reclaim (spaces.map Space.region) id s = .done () t → t.2.Bounded :=
    fun _ _ _ _ kept done => kept.reclaim (Outcome.state?_eq_some.mpr (.inl ⟨(), done⟩))
  rcases Outcome.state?_eq_some.mp left with ⟨count, done⟩ | ⟨cause, failed⟩
  · exact Action.each_done (fun _ s => s.2.Bounded) step bounded (sweep_eq_done.mp done).1
  · obtain ⟨id, rest, middle, kept, stopped⟩ :=
      Action.each_failed (fun _ s => s.2.Bounded) step bounded (sweep_eq_failed.mp failed)
    exact kept.reclaim (Outcome.state?_eq_some.mpr (.inr ⟨cause, stopped⟩))

end Bounded

theorem Reached.bounded (reached : Reached r) : r.Bounded := by
  induction reached with
  | empty => exact bounded_empty
  | allocate _ _ _ _ _ _ left ih =>
    rcases Outcome.state?_eq_some.mp left with ⟨o, done⟩ | ⟨cause, failed⟩
    · obtain ⟨-, places, -⟩ := allocate_eq_done done
      exact places.bounded ih
    · obtain ⟨rfl, -⟩ := allocate_eq_failed failed
      exact ih
  | consume _ consumers _ left ih => exact ih.change (retouches_retire consumers) left
  | consumeAll consumers _ ih => exact ((retouches_retire consumers).updateAll _).bounded ih
  | pin _ sentinel _ left ih => exact ih.change (retouches_pin sentinel) left
  | blend _ _ _ _ _ before left ih =>
    rcases Outcome.state?_eq_some.mp left with ⟨o, done⟩ | ⟨cause, failed⟩
    · obtain ⟨ids, -, blends, -⟩ := before.coherent.blend_eq_done done
      exact blends.bounded ih
    · rw [before.coherent.blend_eq_failed failed]
      exact ih
  | sweep _ _ _ left ih => exact ih.sweep left

/-! ### Blendees -/

theorem blendeeIds_cases (r : Registry) (names : List String) :
    (∃ ids, r.blendeeIds names = .ok ids ∧ ∀ n ∈ names, ∃ i, r.idOf? n = some i) ∨
      ∃ n ∈ names, r.idOf? n = none ∧ r.blendeeIds names = .error (.notFound n) := by
  suffices gathered : ∀ before : List ObjectId,
      let found := names.foldlM (fun ids name => do
        let id ← r.idOf name
        return if ids.contains id then ids else ids ++ [id]) before
      (∃ ids, found = .ok ids ∧ ∀ n ∈ names, ∃ i, r.idOf? n = some i) ∨
        ∃ n ∈ names, r.idOf? n = none ∧ found = .error (.notFound n) from gathered []
  induction names with
  | nil => exact fun before => .inl ⟨before, rfl, nofun⟩
  | cons name rest ih =>
    intro before
    cases known : r.idOf? name with
    | none =>
      refine .inr ⟨name, List.mem_cons_self, known, ?_⟩
      simp [List.foldlM_cons, idOf, known, bind, Except.bind]
    | some id =>
      rw [List.foldlM_cons, idOf_eq_ok.mpr known]
      rcases ih (if before.contains id then before else before ++ [id]) with
        ⟨ids, gathered, found⟩ | ⟨n, member, missing, refused⟩
      · exact .inl ⟨ids, gathered, List.forall_mem_cons.mpr ⟨⟨id, known⟩, found⟩⟩
      · exact .inr ⟨n, List.mem_cons_of_mem _ member, missing, refused⟩

theorem has_eq_false_iff {n : String} : r.has n = false ↔ r.idOf? n = none := by
  simp [has]

theorem Coherent.idOf?_eq_none (coherent : r.Coherent) {n : String} :
    r.idOf? n = none ↔ ∀ o ∈ r.objects, o.name ≠ n := by
  rw [← has_eq_false_iff]
  refine coherent.has_eq_false.trans ⟨fun absent o member => ?_, fun absent i o found => ?_⟩
  · exact absent o.id o (coherent.mem_objects.mp member)
  · exact absent o (Registry.mem_objects.mpr ⟨i, found⟩)

theorem Coherent.mem_blendeeIds (coherent : r.Coherent) (named : r.blendeeIds blendees = .ok ids)
    (registered : o ∈ r.objects) : o.id ∈ ids ↔ o.name ∈ blendees := by
  have found := coherent.mem_objects.mp registered
  rw [(blendeeIds_eq_ok named).2]
  constructor
  · rintro ⟨n, member, known⟩
    obtain ⟨x, same, rfl⟩ := coherent.idOf?_eq_some.mp known
    rw [found] at same
    cases same
    exact member
  · exact fun member => ⟨o.name, member, coherent.idOf?_eq_some.mpr ⟨o, found, rfl⟩⟩

theorem Coherent.registered_of_blendeeIds (coherent : r.Coherent)
    (named : r.blendeeIds blendees = .ok ids) : ∀ n ∈ blendees, ∃ o ∈ r.objects, o.name = n := by
  rcases blendeeIds_cases r blendees with ⟨-, -, known⟩ | ⟨n, -, -, refused⟩
  · intro n member
    obtain ⟨i, known⟩ := known n member
    obtain ⟨o, found, same⟩ := coherent.idOf?_eq_some.mp known
    exact ⟨o, Registry.mem_objects.mpr ⟨i, found⟩, same⟩
  · rw [refused] at named
    cases named

theorem Coherent.blendRegion?_eq_none (coherent : r.Coherent)
    (named : r.blendeeIds blendees = .ok ids) :
    r.blendRegion? ids locations = none ↔ blendees = [] ∧ locations = [] := by
  cases blendees with
  | nil =>
    cases named
    cases locations <;> simp [blendRegion?]
  | cons n rest =>
    obtain ⟨o, registered, same⟩ := coherent.registered_of_blendeeIds named n List.mem_cons_self
    have member := (coherent.mem_blendeeIds named registered).mpr (same ▸ List.mem_cons_self)
    cases ids with
    | nil => cases member
    | cons i others =>
      obtain ⟨m, -, known⟩ := ((blendeeIds_eq_ok named).2 i).mp List.mem_cons_self
      obtain ⟨b, found, -⟩ := coherent.idOf?_eq_some.mp known
      simp [blendRegion?, found]

/-! ### What a blend needs -/

/-- What a blend needs: a new name, as many vectors as its extent has, registered blendees,
something to view, and vectors that do not repeat and that no other live object shows. -/
@[mk_iff]
structure Blendable (r : Registry) (name : String) (extent : Extent) (blendees : List String)
    (locations : List Location) : Prop where
  unnamed : ∀ o ∈ r.objects, o.name ≠ name
  counted : locations.length = extent.vectors
  registered : ∀ n ∈ blendees, ∃ o ∈ r.objects, o.name = n
  given : ¬(blendees = [] ∧ locations = [])
  nodup : locations.Nodup
  unshown : ∀ o ∈ r.objects, o.supersededBy = none → o.name ∉ blendees →
    ∀ l ∈ locations, l ∉ o.span.toList

instance : Decidable (Blendable r name extent blendees locations) :=
  decidable_of_iff' _ (blendable_iff r name extent blendees locations)

theorem Coherent.unshown_iff (coherent : r.Coherent) (named : r.blendeeIds blendees = .ok ids)
    {l : Location} :
    (∀ e ∈ (r.withdraw (r.displaced ids)).index.entries, ¬e.Holds l) ↔
      ∀ o ∈ r.objects, o.supersededBy = none → o.name ∉ blendees → l ∉ o.span.toList := by
  simp only [coherent.mem_withdraw_displaced]
  constructor
  · intro clear o registered live other shown
    have found := coherent.mem_objects.mp registered
    have live : o.isLive = true := by simp [Object.isLive, live]
    obtain ⟨e, listed, holds⟩ := @Entry.holds_of_mem o.id 0 _ _ shown
    obtain ⟨member, owner⟩ := (coherent.mem_entries found live).mp listed
    refine clear e ⟨member, ?_⟩ holds
    rw [owner, coherent.mem_blendeeIds named registered]
    exact other
  · intro unshown e other holds
    obtain ⟨member, outside⟩ := other
    obtain ⟨o, found, live, listed⟩ := (coherent.entries e).mp member
    have registered : o ∈ r.objects := Registry.mem_objects.mpr ⟨_, found⟩
    rw [← coherent.ids _ o found, coherent.mem_blendeeIds named registered] at outside
    have live : o.supersededBy = none := by simpa [Object.isLive] using live
    exact unshown o registered live outside (Entry.mem_of_listing_holds listed holds)

theorem Coherent.accepts_iff (coherent : r.Coherent) (named : r.blendeeIds blendees = .ok ids)
    {span : Span} (built : Span.tryOfLocations locations = .ok span) (indexable : span.Indexable) :
    (∃ index, (r.withdraw (r.displaced ids)).index.insert r.nextId span = .ok (.ok index)) ↔
      locations.Nodup ∧ ∀ o ∈ r.objects, o.supersededBy = none → o.name ∉ blendees →
        ∀ l ∈ locations, l ∉ o.span.toList := by
  rw [AddressIndex.insert_accepts_iff (sound_withdraw coherent.index _)
    (Span.proper_tryOfLocations built) indexable, Span.toList_tryOfLocations built]
  simp only [coherent.unshown_iff named]
  apply and_congr_right
  intro _
  constructor
  · intro unshown o registered live other l member
    exact unshown l member o registered live other
  · intro unshown l member o registered live other
    exact unshown o registered live other l member

theorem Coherent.blendable_of_done (coherent : r.Coherent) {r' : Registry}
    (done : Registry.blend name extent consumers blendees locations r = .done o r') :
    Blendable r name extent blendees locations := by
  obtain ⟨unnamed, counted, ids, named, region, home, span, built, index, entered, -⟩ :=
    blend_done_cases done
  have indexable := AddressIndex.indexable_of_insert entered
  obtain ⟨nodup, unshown⟩ := (coherent.accepts_iff named built indexable).mp ⟨index, entered⟩
  have absent := coherent.idOf?_eq_none.mp (has_eq_false_iff.mp unnamed)
  refine ⟨absent, counted, coherent.registered_of_blendeeIds named, ?_, nodup, unshown⟩
  rw [← coherent.blendRegion?_eq_none named, home]
  exact nofun

/-! ### Refusal -/

inductive Refusal (r : Registry) (name : String) (extent : Extent) (blendees : List String)
    (locations : List Location) : MemoryError → Prop where
  | registered {o : Object} (member : o ∈ r.objects) (same : o.name = name) :
      Refusal r name extent blendees locations (.duplicateName name)
  | miscounted (other : locations.length ≠ extent.vectors) :
      Refusal r name extent blendees locations
        (.sizeMismatch name extent.vectors locations.length)
  | unknown {n : String} (member : n ∈ blendees) (absent : ∀ o ∈ r.objects, o.name ≠ n) :
      Refusal r name extent blendees locations (.notFound n)
  | nothing (none : blendees = []) (empty : locations = []) :
      Refusal r name extent blendees locations (.nothingToBlend name)
  | repeated {l : Location} (twice : ¬locations.Nodup) :
      Refusal r name extent blendees locations (.claimed l)
  | shown {l m : Location} {o : Object} (member : o ∈ r.objects) (live : o.supersededBy = none)
      (other : o.name ∉ blendees) (given : m ∈ locations) (shows : m ∈ o.span.toList) :
      Refusal r name extent blendees locations (.claimed l)

theorem Refusal.not_blendable {cause : MemoryError}
    (refusal : Refusal r name extent blendees locations cause) :
    ¬Blendable r name extent blendees locations := by
  intro blendable
  cases refusal with
  | registered member same => exact blendable.unnamed _ member same
  | miscounted other => exact other blendable.counted
  | unknown member absent =>
    obtain ⟨o, registered, same⟩ := blendable.registered _ member
    exact absent o registered same
  | nothing none empty => exact blendable.given ⟨none, empty⟩
  | repeated twice => exact twice blendable.nodup
  | shown member live other given shows => exact blendable.unshown _ member live other _ given shows

theorem Coherent.refusal_of_failed (coherent : r.Coherent) {cause : MemoryError} {r' : Registry}
    (failed : Registry.blend name extent consumers blendees locations r = .failed cause r') :
    Refusal r name extent blendees locations cause := by
  rcases blend_failed_cases failed with
    ⟨known, rfl, -⟩ | ⟨other, rfl, -⟩ | ⟨unknown, -⟩ | ⟨ids, named, ⟨home, rfl, -⟩ | ⟨span, built, met⟩⟩
  · obtain ⟨i, named⟩ := Option.isSome_iff_exists.mp known
    obtain ⟨o, found, same⟩ := coherent.idOf?_eq_some.mp named
    exact .registered (Registry.mem_objects.mpr ⟨i, found⟩) same
  · exact .miscounted other
  · rcases blendeeIds_cases r blendees with ⟨ids, named, -⟩ | ⟨n, member, missing, refused⟩
    · rw [named] at unknown
      cases unknown
    · rw [refused] at unknown
      cases unknown
      exact .unknown member (coherent.idOf?_eq_none.mp missing)
  · obtain ⟨none, empty⟩ := (coherent.blendRegion?_eq_none named).mp home
    exact .nothing none empty
  · obtain ⟨-, refused⟩ := coherent.exchange_eq_failed (blendeeIds_eq_ok named).1 met
    rcases AddressIndex.insert_cases refused with ⟨l, -, same⟩ | ⟨-, impossible⟩
    · cases same
      have indexable := AddressIndex.indexable_of_insert refused
      have unaccepted := mt (coherent.accepts_iff named built indexable).mpr
      rw [refused] at unaccepted
      by_cases nodup : locations.Nodup
      · have shown := unaccepted nofun
        push Not at shown
        obtain ⟨o, registered, live, other, m, given, shows⟩ := shown nodup
        exact .shown registered live other given shows
      · exact .repeated nodup
    · cases impossible

theorem Coherent.reenter_displaced (coherent : r.Coherent) (bounded : r.Bounded)
    (distinct : ids.Nodup) :
    Action.each (fun o : Object => claim o.id o.span) (r.displaced ids)
      (r.withdraw (r.displaced ids)) = .done () r := by
  have step (o : Object) (rest : List Object) (r₁ : Registry) (lacks : Lacks r (o :: rest) r₁) :
      ∃ r₂, claim o.id o.span r₁ = .done () r₂ ∧ Lacks r rest r₂ := by
    obtain ⟨found, -⟩ := lacks.live o List.mem_cons_self
    obtain ⟨result, entered⟩ := @AddressIndex.insert_of_indexable r₁.index o.id o.span
      (bounded _ _ found).shown (coherent.proper _ _ found)
    cases result with
    | error cause =>
      have failed := claim_eq_failed.mpr ⟨rfl, entered⟩
      exact absurd failed (lacks.claim_ne_failed coherent)
    | ok index =>
      have claimed := @claim_eq_done _ _ _ _ () |>.mpr ⟨index, entered, rfl⟩
      exact ⟨_, claimed, lacks.claim_done coherent claimed⟩
  obtain ⟨r₁, entered, lacks⟩ :=
    Action.each_succeeds (Lacks r) step (coherent.lacks_withdraw distinct)
  rw [entered, lacks.eq coherent]

/-! ### Faults -/

theorem ensureNew_ne_fault {cause : Fault} : ensureNew name r ≠ .fault cause := by
  unfold ensureNew
  rw [ne_eq, Action.bind_eq_fault]
  by_cases taken : r.has name <;> simp [taken]

theorem Bounded.gatherOwned (bounded : r.Bounded) (ids : List ObjectId) :
    ∃ owned, r.gatherOwned ids = .ok owned := by
  have all : ∀ o ∈ ids.filterMap r.object?, o.owned.Bounded := by
    intro o member
    obtain ⟨i, -, found⟩ := List.mem_filterMap.mp member
    exact (bounded i o found).owned
  unfold Registry.gatherOwned
  suffices extended : ∀ (objects : List Object) (before : Span), before.Proper → before.Bounded →
      (∀ o ∈ objects, o.owned.Bounded) →
      ∃ owned, objects.foldlM (fun owned o => owned.tryExtend o.owned.runs) before = .ok owned from
    extended _ .empty Span.proper_empty Span.bounded_empty all
  intro objects
  induction objects with
  | nil => exact fun before _ _ _ => ⟨before, rfl⟩
  | cons o rest ih =>
    intro before proper bounded all
    rw [List.forall_mem_cons] at all
    obtain ⟨next, first, proper, bounded⟩ := Span.tryExtend_of_bounded proper bounded all.1
    obtain ⟨owned, later⟩ := ih next proper bounded all.2
    rw [List.foldlM_cons]
    exact ⟨owned, bind_eq_ok.mpr ⟨next, first, later⟩⟩

theorem indexable_tryOfLocations {span : Span} (word : locations.length < Word.limit)
    (below : ∀ l ∈ locations, l.address < Word.max)
    (built : Span.tryOfLocations locations = .ok span) : span.Indexable := by
  have view := Span.toList_tryOfLocations built
  refine ⟨fun l member => below l (view ▸ member), ?_⟩
  rwa [view]

theorem Coherent.exchange_ne_fault (coherent : r.Coherent) (bounded : r.Bounded)
    (distinct : ids.Nodup) {id : ObjectId} {span : Span} (proper : span.Proper)
    (indexable : span.Indexable) {cause : Fault} :
    exchange (r.displaced ids) id span r ≠ .fault cause := by
  obtain ⟨result, entered⟩ :=
    @AddressIndex.insert_of_indexable (r.withdraw (r.displaced ids)).index id span indexable proper
  unfold exchange
  cases result with
  | error refused =>
    rw [claim_eq_failed.mpr ⟨rfl, entered⟩]
    intro stopped
    rcases Action.bind_eq_fault.mp stopped with stopped | ⟨_, _, _, stopped⟩
    · rw [coherent.reenter_displaced bounded distinct] at stopped
      cases stopped
    · cases stopped
  | ok index =>
    rw [(@claim_eq_done _ _ _ _ ()).mpr ⟨index, entered, rfl⟩]
    exact nofun

theorem Coherent.blend_ne_fault (coherent : r.Coherent) (bounded : r.Bounded)
    (word : extent.vectors < Word.limit) (below : ∀ l ∈ locations, l.address < Word.max)
    {cause : Fault} :
    Registry.blend name extent consumers blendees locations r ≠ .fault cause := by
  intro stopped
  unfold Registry.blend at stopped
  rcases Action.bind_eq_fault.mp stopped with stopped | ⟨_, _, checked, stopped⟩
  · exact ensureNew_ne_fault stopped
  obtain ⟨-, rfl⟩ := ensureNew_eq_done.mp checked
  split at stopped
  · cases stopped
  next counted =>
  rcases Action.bind_eq_fault.mp stopped with got | ⟨_, _, got, stopped⟩
  · cases got
  cases got
  rcases Action.bind_eq_fault.mp stopped with unknown | ⟨ids, _, resolved, stopped⟩
  · cases found : r.blendeeIds blendees with
    | error | ok =>
      rw [found] at unknown
      cases unknown
  obtain ⟨named, rfl⟩ := Action.ofResult_eq_done.mp resolved
  cases home : r.blendRegion? ids locations with
  | none =>
    rw [home] at stopped
    cases stopped
  | some region =>
    obtain ⟨span, built⟩ := Span.tryOfLocations_of_bounded below
    obtain ⟨owned, gathered⟩ := bounded.gatherOwned ids
    have indexable := indexable_tryOfLocations (not_not.mp counted ▸ word) below built
    rw [home, built, gathered] at stopped
    rcases Action.bind_eq_fault.mp stopped with spanned | ⟨_, _, spanned, stopped⟩
    · cases spanned
    cases spanned
    rcases Action.bind_eq_fault.mp stopped with swapped | ⟨_, _, -, stopped⟩
    · exact coherent.exchange_ne_fault bounded (blendeeIds_eq_ok named).1
        (Span.proper_tryOfLocations built) indexable swapped
    · cases stopped

theorem Coherent.done_of_blendable (coherent : r.Coherent) (bounded : r.Bounded)
    (word : extent.vectors < Word.limit) (below : ∀ l ∈ locations, l.address < Word.max)
    (blendable : Blendable r name extent blendees locations) :
    ∃ o r', Registry.blend name extent consumers blendees locations r = .done o r' := by
  cases ended : Registry.blend name extent consumers blendees locations r with
  | done o r' => exact ⟨o, r', rfl⟩
  | failed cause r' => exact absurd blendable (coherent.refusal_of_failed ended).not_blendable
  | fault cause => exact absurd ended (coherent.blend_ne_fault bounded word below)

/-- A blend over vectors that have an address after them is registered exactly if it has what
a blend needs, and then shows these vectors in their order. -/
theorem blend_accepted_iff (reached : Reached r) (word : extent.vectors < Word.limit)
    (below : ∀ l ∈ locations, l.address < Word.max) :
    ((∃ o r', blend name extent consumers blendees locations r = .done o r') ↔
      Blendable r name extent blendees locations) ∧
    (∀ o r', blend name extent consumers blendees locations r = .done o r' →
      o.span.tryToList = .ok locations ∧ r'.get name = .ok o) ∧
    ∀ cause, blend name extent consumers blendees locations r ≠ .fault cause := by
  have coherent := reached.coherent
  refine ⟨⟨?_, coherent.done_of_blendable reached.bounded word below⟩, fun o r' done => ?_,
    fun cause => coherent.blend_ne_fault reached.bounded word below⟩
  · rintro ⟨o, r', done⟩
    exact coherent.blendable_of_done done
  · obtain ⟨ids, -, blends, view⟩ := coherent.blend_eq_done done
    have named : o.name = name := by
      obtain ⟨-, -, _, -, _, -, _, -, _, -, _, -, -, rfl⟩ := blend_done_cases done
      rfl
    have bounded : o.span.Bounded := fun l member => below l (view ▸ member)
    have found := blends.object?_new
    rw [← blends.id] at found
    rw [Span.tryToList_of_bounded blends.proper bounded, view]
    exact ⟨rfl, (blends.coherent coherent).get_eq_ok.mpr ⟨found, named⟩⟩

/-- Two vectors of an object in a blend, and an object beside them. -/
def overlaid : Registry :=
  ⟨[some ⟨0, "a", ⟨12, 3⟩, .dram0, ⟨[⟨.dram0, 0, 3⟩]⟩, ∅, ⟨[]⟩, some 2, []⟩,
    some ⟨1, "x", ⟨4, 1⟩, .dram0, ⟨[⟨.dram0, 3, 1⟩]⟩, ∅, ⟨[⟨.dram0, 3, 1⟩]⟩, none, []⟩,
    some ⟨2, "b", ⟨8, 2⟩, .dram0, ⟨[⟨.dram0, 2, 1⟩, ⟨.dram0, 0, 1⟩]⟩, ∅, ⟨[⟨.dram0, 0, 3⟩]⟩,
      none, [0]⟩], [("b", 2), ("x", 1), ("a", 0)],
    ⟨[⟨.dram0, 0, 1, 2, 1⟩, ⟨.dram0, 2, 3, 2, 0⟩, ⟨.dram0, 3, 4, 1, 0⟩]⟩⟩

theorem reached_overlaid : Reached overlaid := by
  have beside : Reached ⟨lone.slots ++ [some ⟨1, "x", ⟨4, 1⟩, .dram0, ⟨[⟨.dram0, 3, 1⟩]⟩, ∅,
      ⟨[⟨.dram0, 3, 1⟩]⟩, none, []⟩], [("x", 1), ("a", 0)],
      ⟨[⟨.dram0, 0, 3, 0, 0⟩, ⟨.dram0, 3, 4, 1, 0⟩]⟩⟩ :=
    .allocate "x" ⟨4, 1⟩ [] loneSpace ⟨.dram0, 4, .heap ⟨[], 0⟩, ⟨.dram0, 4, 4, 4, 4, 2⟩⟩
      reached_lone (by decide +kernel)
  exact .blend "b" ⟨8, 2⟩ [] ["a"] [⟨.dram0, 2⟩, ⟨.dram0, 0⟩] beside (by decide +kernel)

/-- A blend over a blend and over what that took over, and one that meets another object. -/
theorem blend_accepted_iff_overlaid :
    Reached overlaid ∧
      Blendable overlaid "c" ⟨12, 3⟩ ["b", "a", "b"] [⟨.dram0, 0⟩, ⟨.dram0, 1⟩, ⟨.dram0, 2⟩] ∧
      (∃ o r', blend "c" ⟨12, 3⟩ [] ["b", "a", "b"] [⟨.dram0, 0⟩, ⟨.dram0, 1⟩, ⟨.dram0, 2⟩]
        overlaid = .done o r' ∧
          o.span.tryToList = .ok [⟨.dram0, 0⟩, ⟨.dram0, 1⟩, ⟨.dram0, 2⟩]) ∧
      ¬∃ o r', blend "c" ⟨8, 2⟩ [] ["b"] [⟨.dram0, 0⟩, ⟨.dram0, 3⟩] overlaid = .done o r' := by
  have reached := reached_overlaid
  have blendable :
      Blendable overlaid "c" ⟨12, 3⟩ ["b", "a", "b"] [⟨.dram0, 0⟩, ⟨.dram0, 1⟩, ⟨.dram0, 2⟩] := by
    decide
  obtain ⟨accepted, spelled, -⟩ := @blend_accepted_iff _ "c" ⟨12, 3⟩ [] ["b", "a", "b"]
    [⟨.dram0, 0⟩, ⟨.dram0, 1⟩, ⟨.dram0, 2⟩] reached (by decide) (by decide)
  obtain ⟨o, r', done⟩ := accepted.mpr blendable
  obtain ⟨refused, -⟩ := @blend_accepted_iff _ "c" ⟨8, 2⟩ [] ["b"] [⟨.dram0, 0⟩, ⟨.dram0, 3⟩]
    reached (by decide) (by decide)
  exact ⟨reached, blendable, ⟨o, r', done, (spelled o r' done).1⟩, refused.not.mpr (by decide)⟩

/-- A refused blend leaves the slots, the names and the index as they were, whatever it is
refused for. The objects that it displaced are all entered again. -/
theorem blend_refused_traceless (reached : Reached r) :
    (∀ cause r', blend name extent consumers blendees locations r = .failed cause r' →
      r' = r ∧ Refusal r name extent blendees locations cause) ∧
    ∀ ids, r.blendeeIds blendees = .ok ids →
      Action.each (fun o : Object => claim o.id o.span) (r.displaced ids)
        (r.withdraw (r.displaced ids)) = .done () r := by
  have coherent := reached.coherent
  constructor
  · intro cause r' failed
    exact ⟨coherent.blend_eq_failed failed, coherent.refusal_of_failed failed⟩
  · intro ids named
    exact coherent.reenter_displaced reached.bounded (blendeeIds_eq_ok named).1

/-- Both blendees of a blend that meets another object are as they were; one of them is entered
again, in two runs. -/
theorem blend_refused_traceless_overlaid :
    Reached overlaid ∧
      (∃ cause, blend "c" ⟨8, 2⟩ [] ["b", "a"] [⟨.dram0, 0⟩, ⟨.dram0, 3⟩] overlaid =
        .failed cause overlaid) ∧
      Action.each (fun o : Object => claim o.id o.span) (overlaid.displaced [2, 0])
        (overlaid.withdraw (overlaid.displaced [2, 0])) = .done () overlaid := by
  obtain ⟨kept, again⟩ := @blend_refused_traceless _ "c" ⟨8, 2⟩ [] ["b", "a"]
    [⟨.dram0, 0⟩, ⟨.dram0, 3⟩] reached_overlaid
  have failed : ∃ r', blend "c" ⟨8, 2⟩ [] ["b", "a"] [⟨.dram0, 0⟩, ⟨.dram0, 3⟩] overlaid =
      .failed (.claimed ⟨.dram0, 3⟩) r' := ⟨overlaid, by decide +kernel⟩
  obtain ⟨r', failed⟩ := failed
  obtain ⟨rfl, -⟩ := kept _ r' failed
  exact ⟨reached_overlaid, ⟨_, failed⟩, again [2, 0] (by decide +kernel)⟩

end Registry

end VectorMemory
