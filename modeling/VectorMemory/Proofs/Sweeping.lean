import VectorMemory.Proofs.Conservation
import VectorMemory.Proofs.GivingBack
import VectorMemory.Proofs.IdleLayers
import VectorMemory.Proofs.Supersession

/-! What a sweep frees. It drops the garbage of the swept regions with all that this had
taken over, and stops before the first piece of garbage with vectors elsewhere. -/
namespace VectorMemory

open Relation

/-! ### Giving back what an object owns -/

namespace Registry

theorem free_within {s : Space} {o : Object} (sound : s.Sound) (heap : s.isHeap = true)
    (words : s.capacity < Word.limit) (nodup : o.owned.toList.Nodup)
    (taken : ∀ l ∈ o.owned.toList, l.region = s.region → s.Taken l.address) :
    ∃ t, Space.free (o.owned.within s.region) s = .done () t := by
  have given : ∀ l ∈ (o.owned.within s.region).toList, s.Taken l.address := by
    intro l inside
    rw [Span.toList_within, List.mem_filter, decide_eq_true_eq] at inside
    exact taken l inside.1 inside.2
  apply (Space.freeRuns_iff sound heap).mpr
  constructor
  · exact fun r => Span.region_of_mem_within
  · intro r member positive
    have bound : r.stop - 1 < s.capacity := (given _ ((Span.proper_ofRuns _).last_mem member)).1
    omega
  · change (o.owned.within s.region).toList.Nodup
    rw [Span.toList_within]
    exact nodup.filter _
  · exact given

theorem freeOwned_done {o : Object} {spaces : List Space} (nodup : o.owned.toList.Nodup)
    (ready : ∀ s ∈ spaces, s.Sound ∧ s.isHeap = true ∧ s.capacity < Word.limit ∧
      ∀ l ∈ o.owned.toList, l.region = s.region → s.Taken l.address) :
    ∃ spaces', freeOwned o spaces = .done () spaces' := by
  induction spaces with
  | nil => exact ⟨[], rfl⟩
  | cons s rest ih =>
    rw [List.forall_mem_cons] at ready
    obtain ⟨⟨sound, heap, words, taken⟩, ready⟩ := ready
    obtain ⟨t, freed⟩ := free_within sound heap words nodup taken
    obtain ⟨rest', later⟩ := ih ready
    exact ⟨t :: rest', by simp [freeOwned, freed, later]⟩

theorem reclaim_stray {regions : List Region} {o : Object} {run : Run} (member : run ∈ o.owned.runs)
    (stray : run.region ∉ regions) :
    ∃ run ∈ o.owned.runs, run.region ∉ regions ∧
      ∀ spaces r, r.object? o.id = some o → reclaim regions o.id (spaces, r) =
        .failed (.strayVectors o.name run.region) (spaces, r) := by
  cases found : o.owned.runs.find? fun run => !regions.contains run.region with
  | none =>
    have inside : run.region ∈ regions := by simpa using List.find?_eq_none.mp found run member
    exact absurd inside stray
  | some first =>
    have outside : first.region ∉ regions := by simpa using List.find?_some found
    refine ⟨first, List.mem_of_find?_eq_some found, outside, fun spaces r registered => ?_⟩
    rw [reclaim_of_found registered, discard, found]
    rfl

theorem Coherent.representative_eq_iff {r : Registry} (coherent : r.Coherent) {i : ObjectId}
    {o v : Object} (found : r.object? i = some o) (last : r.object? v.id = some v)
    (live : v.isLive = true) :
    r.representative i = v.id ↔ ReflTransGen r.TakesOver i v.id := by
  constructor
  · intro same
    exact same ▸ r.takesOver_representative i
  · intro path
    exact (coherent.found_of_path found path).1.trans (representative_of_live last live)

end Registry

/-! ### Memories that can be swept -/

/-- No object owns an empty run, and all addresses are words. -/
structure Memory.Sweepable (m : Memory) : Prop where
  sound : m.Sound
  whole : ∀ i o, m.registry.object? i = some o → o.owned.Proper
  words : ∀ region, (m.space region).capacity < Word.limit

theorem Memory.Sweepable.drop {m m' : Memory} {o : Object} (ready : m.Sweepable)
    (drop : Drop m o m') : m'.Sweepable where
  sound := ready.sound.drop drop
  whole := fun i x found => ready.whole i x (drop.found_iff.mp found).2
  words := fun region => (drop.returns region).shape.capacity ▸ ready.words region

theorem Memory.Step.whole {leaky : Bool} {m m' : Memory} (step : Step leaky m m')
    (whole : ∀ i o, m.registry.object? i = some o → o.owned.Proper) :
    ∀ i o, m'.registry.object? i = some o → o.owned.Proper := by
  intro i o found
  cases step with
  | grow grows =>
    cases grows with
    | touch touched =>
      obtain ⟨b, before, rfl⟩ := touched.object?_eq_some found
      exact whole i b before
    | take => exact whole i o found
    | place _ places =>
      rcases places.origin found with ⟨-, rfl⟩ | before
      · exact places.owned ▸ places.proper
      · exact whole i o before
  | blend blends =>
    rcases blends.object?_cases found with ⟨-, rfl⟩ | ⟨b, before, ⟨-, rfl⟩ | ⟨-, rfl⟩⟩
    · exact blends.whole
    · exact Span.proper_empty
    · exact whole i o before
  | drop _ drop => exact whole i o (drop.found_iff.mp found).2

namespace Planner

variable {p q : Planner}

theorem sweepable_of_follow {config : Config} {recorder : Recorder} {cs : List Command}
    (started : start config recorder = .ok p) (run : follow cs p = some q)
    (depths : ∀ region, config.arch.depth region < Word.limit) : q.memory.Sweepable := by
  have first := sound_start started
  have steps := steps_of_follow first run
  refine ⟨first.steps steps, ?_, fun region => ?_⟩
  · apply first.steps_induction
      (fun m => ∀ i o, m.registry.object? i = some o → o.owned.Proper) steps
    · intro i o found
      obtain ⟨_, -, made⟩ := bind_eq_ok.mp started
      cases made
      simp [memory, Registry.empty, Registry.object?] at found
    · exact fun _ _ _ whole step => step.whole whole
  · have capacity := (steps.capacity first region).trans (capacity_start started region)
    exact capacity ▸ depths region

def Confined (o : Object) : Prop :=
  ∀ l ∈ o.owned.toList, l.region ∈ sweptRegions

instance : DecidablePred Confined := fun o => inferInstanceAs (Decidable (∀ l ∈ o.owned.toList, _))

theorem reclaim_confined {o : Object} (ready : p.memory.Sweepable)
    (found : p.registry.object? o.id = some o) (confined : Confined o) :
    ∃ state, Registry.reclaim sweptRegions o.id p.swept = .done () state := by
  have sound := ready.sound
  have inside : ∀ run ∈ o.owned.runs, run.region ∈ sweptRegions := by
    intro run member
    exact confined _ ((ready.whole o.id o found).start_mem member)
  have serves (region : Region) (heap : region ≠ .temp) :
      (p.space region).Sound ∧ (p.space region).isHeap = true ∧
        (p.space region).capacity < Word.limit ∧
        ∀ l ∈ o.owned.toList, l.region = (p.space region).region → (p.space region).Taken l.address := by
    refine ⟨(sound.formed region).sound, (sound.formed region).heap heap, ready.words region, ?_⟩
    intro l member home
    have taken := sound.taken o.id o found l member
    have same : l.region = region := home.trans (sound.formed region).home
    rwa [Memory.Taken, same] at taken
  have freed : ∃ spaces, Registry.freeOwned o [p.dram0, p.scratch] = .done () spaces := by
    apply Registry.freeOwned_done (sound.distinct o.id o found)
    simp only [List.forall_mem_cons, List.not_mem_nil, false_implies, implies_true, and_true]
    exact ⟨serves .dram0 (by decide), serves .scratch (by decide)⟩
  obtain ⟨spaces, freed⟩ := freed
  exact ⟨_, (Registry.reclaim_eq_done found).mpr ⟨inside, freed, rfl⟩⟩

theorem each_confined {objects : List Object} (ready : p.memory.Sweepable)
    (queued : Registry.Queued p.registry objects) (confined : ∀ o ∈ objects, Confined o) :
    ∃ state, Action.each (Registry.reclaim sweptRegions) (objects.map Object.id) p.swept =
      .done () state := by
  induction objects generalizing p with
  | nil => exact ⟨p.swept, rfl⟩
  | cons o rest ih =>
    rw [List.forall_mem_cons] at confined
    obtain ⟨found, live⟩ := queued.live o List.mem_cons_self
    obtain ⟨middle, first⟩ := reclaim_confined ready found confined.1
    obtain ⟨drop, shape⟩ := drop_of_reclaim ready.sound found live first
    have remaining : Registry.Queued (setSwept middle p).registry rest := by
      have dropped : (setSwept middle p).registry = p.registry.without o := drop.registry
      rw [dropped]
      exact queued.drop
    obtain ⟨state, later⟩ := ih (ready.drop drop) remaining confined.2
    rw [shape] at later
    exact ⟨state, Action.bind_eq_done.mpr ⟨(), middle, first, later⟩⟩

theorem found_behind {front rest : List Object} {o : Object} {spaces : List Space} {r : Registry}
    (sound : p.memory.Sound) (queued : Registry.Queued p.registry (front ++ o :: rest))
    (freed : Action.each (Registry.reclaim sweptRegions) (front.map Object.id) p.swept =
      .done () (spaces, r)) : r.object? o.id = some o := by
  obtain ⟨found, live⟩ := queued.live o (List.mem_append_right _ List.mem_cons_self)
  obtain ⟨drops, shape⟩ := drops_of_each sound queued.front freed
  have registry : (setSwept (spaces, r) p).memory.registry = r := congrArg Prod.snd shape
  rw [← registry]
  refine (drops.found_iff sound).mpr ⟨found, fun v member same => ?_⟩
  have before := (List.pairwise_append.mp queued.distinct).2.2 v member o List.mem_cons_self
  exact before (same.symm.trans (Registry.representative_of_live found live))

theorem each_stray {front rest : List Object} {o : Object} {state : List Space × Registry}
    (sound : p.memory.Sound) (queued : Registry.Queued p.registry (front ++ o :: rest))
    (whole : o.owned.Proper) (stray : ¬Confined o)
    (freed : Action.each (Registry.reclaim sweptRegions) (front.map Object.id) p.swept =
      .done () state) :
    ∃ l ∈ o.owned.toList, l.region ∉ sweptRegions ∧
      Action.each (Registry.reclaim sweptRegions) ((front ++ o :: rest).map Object.id) p.swept =
        .failed (.strayVectors o.name l.region) state := by
  unfold Confined at stray
  push Not at stray
  obtain ⟨l, inside, outside⟩ := stray
  obtain ⟨run, member, here⟩ := Span.mem_toList.mp inside
  rw [(Run.mem_toList.mp here).1] at outside
  obtain ⟨first, listed, away, stopped⟩ := Registry.reclaim_stray member outside
  obtain ⟨spaces, r⟩ := state
  have waits := found_behind sound queued freed
  refine ⟨⟨first.region, first.start⟩, whole.start_mem listed, away, ?_⟩
  rw [List.map_append, Action.each_append]
  refine Action.bind_eq_failed.mpr (.inr ⟨(), (spaces, r), freed, ?_⟩)
  exact Action.bind_eq_failed.mpr (.inl (stopped spaces r waits))

/-! ### What is freed -/

/-- The given objects are gone with all that they had taken over, what they owned is free,
and nothing else has changed. -/
structure Frees (p : Planner) (victims : List Object) (q : Planner) : Prop where
  registered : ∀ i x, q.registry.object? i = some x ↔
    p.registry.object? i = some x ∧ ∀ v ∈ victims, ¬ReflTransGen p.registry.TakesOver i v.id
  named : ∀ name x, q.registry.get name = .ok x ↔
    p.registry.get name = .ok x ∧ ∀ v ∈ victims, ¬ReflTransGen p.registry.TakesOver x.id v.id
  free : ∀ l, q.memory.Free l ↔ p.memory.Free l ∨ ∃ v ∈ victims, l ∈ v.owned.toList
  rest : Agree [.space .dram0, .space .scratch, .registry] p q

theorem frees_of_each {victims : List Object} {state : List Space × Registry}
    (sound : p.memory.Sound) (queued : Registry.Queued p.registry victims)
    (freed : Action.each (Registry.reclaim sweptRegions) (victims.map Object.id) p.swept =
      .done () state) :
    Frees p victims (setSwept state p) := by
  have drops := (drops_of_each sound queued freed).1
  have registered : ∀ i x, (setSwept state p).registry.object? i = some x ↔
      p.registry.object? i = some x ∧ ∀ v ∈ victims, ¬ReflTransGen p.registry.TakesOver i v.id := by
    intro i x
    refine (drops.found_iff sound).trans (and_congr_right fun found => ?_)
    refine forall₂_congr fun v member => not_congr ?_
    obtain ⟨last, live⟩ := queued.live v member
    exact sound.coherent.representative_eq_iff found last live
  refine ⟨registered, fun name x => ?_, drops.free sound, agree_setSwept p state (List.Subset.refl _)⟩
  have after : (setSwept state p).registry.Coherent := (drops.sound sound).coherent
  have before : p.registry.Coherent := sound.coherent
  rw [after.get_eq_ok, before.get_eq_ok, registered, and_right_comm]

def victims (p : Planner) : List Object :=
  p.registry.objects.filter fun o =>
    o.supersededBy = none ∧ o.consumers = ∅ ∧ (o.region = .dram0 ∨ o.region = .scratch)

theorem garbage_eq_victims (p : Planner) : p.registry.garbage sweptRegions = p.victims := by
  apply List.filter_congr
  intro o _
  rw [Bool.eq_iff_iff]
  simp [Registry.isGarbage, Object.isLive, Object.isConsumed, NameSet.isEmpty_iff, sweptRegions,
    and_assoc]

theorem first_stray {objects : List Object} (stray : ¬∀ v ∈ objects, Confined v) :
    ∃ front v rest, objects = front ++ v :: rest ∧ (∀ o ∈ front, Confined o) ∧ ¬Confined v := by
  cases found : objects.find? fun o => ¬Confined o with
  | none =>
    have confined : ∀ v ∈ objects, Confined v := by simpa using found
    exact absurd confined stray
  | some v =>
    obtain ⟨away, front, rest, split, confined⟩ := List.find?_eq_some_iff_append.mp found
    exact ⟨front, v, rest, split, by simpa using confined, by simpa using away⟩

theorem sweep_of_confined (ready : p.memory.Sweepable) (confined : ∀ v ∈ p.victims, Confined v) :
    ∃ q, sweep p = .done p.victims.length q ∧ Frees p p.victims q := by
  rw [← garbage_eq_victims] at confined ⊢
  have queued := ready.sound.coherent.queued_garbage sweptRegions
  obtain ⟨state, freed⟩ := each_confined ready queued confined
  refine ⟨setSwept state p, ?_, frees_of_each ready.sound queued freed⟩
  have regions := swept_regions ready.sound.formed
  rw [← regions] at freed ⊢
  exact Action.zoom_eq_done.mpr ⟨state, Registry.sweep_eq_done.mpr ⟨freed, rfl⟩, rfl⟩

/-- A sweep that meets garbage with vectors elsewhere frees what stands before it. -/
theorem sweep_of_stray {front rest : List Object} {v : Object} (ready : p.memory.Sweepable)
    (split : p.victims = front ++ v :: rest) (confined : ∀ o ∈ front, Confined o)
    (stray : ¬Confined v) :
    ∃ l ∈ v.owned.toList, l.region ∉ sweptRegions ∧ ∃ q,
      sweep p = .failed (.strayVectors v.name l.region) q ∧ Frees p front q := by
  rw [← garbage_eq_victims] at split
  have queued : Registry.Queued p.registry (front ++ v :: rest) :=
    split ▸ ready.sound.coherent.queued_garbage sweptRegions
  have found := (queued.live v (List.mem_append_right _ List.mem_cons_self)).1
  obtain ⟨state, freed⟩ := each_confined ready queued.front confined
  obtain ⟨l, inside, outside, stopped⟩ :=
    each_stray ready.sound queued (ready.whole v.id v found) stray freed
  refine ⟨l, inside, outside, setSwept state p, ?_, frees_of_each ready.sound queued.front freed⟩
  rw [← split] at stopped
  have regions := swept_regions ready.sound.formed
  rw [← regions] at stopped
  exact Action.zoom_eq_failed.mpr ⟨state, Registry.sweep_eq_failed.mpr stopped, rfl⟩

/-- A sweep frees exactly the live objects without consumers that are tagged with a swept
region, together with all that they had taken over, and a second one finds nothing. It stops
exactly if one of them owns a vector elsewhere, with what stands before the first such object
freed. -/
theorem sweep_exact {config : Config} {recorder : Recorder} {cs : List Command}
    (started : start config recorder = .ok p) (run : follow cs p = some q)
    (depths : ∀ region, config.arch.depth region < Word.limit) :
    ((∀ v ∈ q.victims, Confined v) →
      ∃ q', sweep q = .done q.victims.length q' ∧ Frees q q.victims q' ∧
        sweep q' = .done 0 q') ∧
    (∀ v ∈ q.victims, ¬Confined v →
      ∃ cause q', sweep q = .failed cause q' ∧ cause.errorClass = .invariant) ∧
    (∀ cause q', sweep q = .failed cause q' →
      ∃ front v rest l, q.victims = front ++ v :: rest ∧
        (∀ o ∈ front, Confined o) ∧ l ∈ v.owned.toList ∧ l.region ∉ sweptRegions ∧
        cause = .strayVectors v.name l.region ∧ Frees q front q') ∧
    ∀ cause, sweep q ≠ .fault cause := by
  have ready := sweepable_of_follow started run depths
  by_cases confined : ∀ v ∈ q.victims, Confined v
  · obtain ⟨q', swept, frees⟩ := sweep_of_confined ready confined
    refine ⟨fun _ => ⟨q', swept, frees, sweep_again ready.sound swept⟩, ?_, ?_, ?_⟩
    · exact fun v member stray => absurd (confined v member) stray
    · exact fun cause q' failed => by simp [swept] at failed
    · exact fun cause fault => by simp [swept] at fault
  · obtain ⟨front, v, rest, split, before, stray⟩ := first_stray confined
    obtain ⟨l, inside, outside, q', stopped, frees⟩ := sweep_of_stray ready split before stray
    refine ⟨fun all => absurd all confined, fun _ _ _ => ⟨_, q', stopped, rfl⟩, ?_, ?_⟩
    · intro cause other failed
      obtain ⟨rfl, rfl⟩ := Outcome.failed.inj (stopped.symm.trans failed)
      exact ⟨front, v, rest, l, split, before, inside, outside, rfl, frees⟩
    · exact fun cause fault => by simp [stopped] at fault

/-- A blend over a blend over vectors of two regions, beside an object that is still used. -/
def layered : List Command :=
  [.activation "a" ⟨2, 2⟩ [], .scratch "s" ⟨1, 1⟩ [], .activation "k" ⟨1, 1⟩ ["later"],
    .blend "b" ⟨1, 1⟩ ["later"] ["a", "s"] [⟨.dram0, 1⟩], .blend "c" ⟨1, 1⟩ [] ["b"] [⟨.dram0, 1⟩]]

/-- Yet another blend, over a vector of a region that is not swept. -/
def entangled : List Command :=
  layered ++ [.temp "t" ⟨1, 1⟩ [], .blend "e" ⟨1, 1⟩ [] ["c", "t"] [⟨.dram0, 1⟩]]

/-- The one sweep frees a blend and what stands below it, the other cannot. -/
theorem sweep_exact_layered :
    ∃ p q r, start ⟨⟨.float32, 1, 4, 0, 2⟩, []⟩ .silent = .ok p ∧ follow layered p = some q ∧
      follow entangled p = some r ∧ q.victims.map Object.name = ["c"] ∧
      (∃ q', sweep q = .done 1 q' ∧ Frees q q.victims q' ∧ sweep q' = .done 0 q') ∧
      ∃ cause r', sweep r = .failed cause r' ∧ cause.errorClass = .invariant := by
  have computed : ((start ⟨⟨.float32, 1, 4, 0, 2⟩, []⟩ .silent).toOption.bind fun p =>
      (follow layered p).bind fun q => (follow entangled p).map fun r =>
        (q.victims.map Object.name, decide (∀ v ∈ q.victims, Confined v),
          decide (∃ v ∈ r.victims, ¬Confined v))) = some (["c"], true, true) := by decide +kernel
  obtain ⟨p, begun, left⟩ := Option.bind_eq_some_iff.mp computed
  obtain ⟨q, run, left⟩ := Option.bind_eq_some_iff.mp left
  obtain ⟨r, run', facts⟩ := Option.map_eq_some_iff.mp left
  obtain ⟨names, facts⟩ := Prod.mk.inj facts
  obtain ⟨confined, stray⟩ := Prod.mk.inj facts
  have started := toOption_eq_some.mp begun
  have depths : ∀ region, Architecture.depth ⟨.float32, 1, 4, 0, 2⟩ region < Word.limit := by
    intro region
    cases region <;> decide
  obtain ⟨q', swept, frees, again⟩ := (sweep_exact started run depths).1 (of_decide_eq_true confined)
  obtain ⟨v, member, away⟩ := of_decide_eq_true stray
  have stopped := (sweep_exact started run' depths).2.1 v member away
  have one : q.victims.length = 1 := by simpa using congrArg List.length names
  rw [one] at swept
  exact ⟨p, q, r, started, run, run', names, ⟨q', swept, frees, again⟩, stopped⟩

end Planner

end VectorMemory
