import Mathlib.Algebra.Ring.Nat
import VectorMemory.Proofs.Ownership

/-! No vector of a heap gets lost. As long as no invariant is broken, every
address is either free or owned by exactly one registered object, and the usage
of a heap counts the owned ones. -/
namespace VectorMemory

namespace Space

theorem SameShape.update {space : Region → Space} {region : Region} {t : Space}
    (shape : SameShape (space region) t) (other : Region) :
    SameShape (space other) (Function.update space region t other) := by
  by_cases same : other = region
  · subst same
    rwa [Function.update_self]
  · rw [Function.update_of_ne same]
    exact .refl _

end Space

namespace Memory

variable {leaky : Bool} {m m' : Memory}

theorem Step.shape (step : Step leaky m m') (formed : m.Formed) (region : Region) :
    Space.SameShape (m.space region) (m'.space region) := by
  cases step with
  | grow grows =>
    cases grows with
    | touch => exact .refl _
    | take _ allocated | place allocated =>
      exact (Space.allocate_grants (formed _).sound allocated).shape.update region
  | blend => exact .refl _
  | drop _ drop => exact (drop.returns region).shape

theorem Steps.capacity (steps : Steps leaky m m') (sound : m.Sound) (region : Region) :
    (m'.space region).capacity = (m.space region).capacity := by
  apply sound.steps_induction (fun a => (a.space region).capacity = (m.space region).capacity) steps rfl
  intro a b sound same step
  exact (step.shape sound.formed region).capacity.trans same

/-- Every vector of a heap that is taken has an owner. -/
def Attributed (m : Memory) : Prop :=
  ∀ l, l.region ≠ .temp → m.Taken l → ∃ i o, m.registry.object? i = some o ∧ l ∈ o.owned.toList

theorem Attributed.grow (attributed : m.Attributed) (formed : m.Formed)
    (grows : Grows false m m') : m'.Attributed := by
  intro l heap taken
  have kept : m.Taken l → ∃ i o, m'.registry.object? i = some o ∧ l ∈ o.owned.toList := by
    intro before
    obtain ⟨i, o, found, owned⟩ := attributed l heap before
    obtain ⟨consumers, after, -⟩ := grows.found found
    exact ⟨i, _, after, owned⟩
  cases grows with
  | touch => exact kept taken
  | take leaks => cases leaks
  | place allocated places =>
    rcases ((formed.takes allocated _).taken l).mp taken with before | given
    · exact kept before
    · rw [← places.owned] at given
      exact ⟨_, _, places.object?_new, given⟩

theorem Attributed.blend {ids : List ObjectId} {o : Object} {r : Registry}
    (attributed : m.Attributed) (blends : Registry.Blends m.registry ids o r) :
    Attributed ⟨m.space, r⟩ := by
  intro l heap taken
  obtain ⟨i, b, found, owned⟩ := attributed l heap taken
  by_cases inside : i ∈ ids
  · exact ⟨_, o, blends.object?_new, blends.mem_owned.mpr ⟨i, inside, b, found, owned⟩⟩
  · have after := found_of_blend blends found
    rw [if_neg inside] at after
    exact ⟨i, b, after, owned⟩

theorem Attributed.drop {o : Object} (attributed : m.Attributed) (sound : m.Sound)
    (drop : Drop m o m') : m'.Attributed := by
  intro l heap taken
  have returned := (drop.returns l.region).taken l.address
  rw [(sound.formed l.region).home] at returned
  obtain ⟨before, other⟩ := returned.mp taken
  have kept : l ∉ o.owned.toList := fun given =>
    other ⟨(sound.formed l.region).heap heap, given⟩
  obtain ⟨i, x, found, owned⟩ := attributed l heap before
  refine ⟨i, x, drop.found_iff.mpr ⟨?_, found⟩, owned⟩
  -- an owner is live, so it goes only if it is the dropped object itself
  have live : x.isLive = true := by
    by_contra dead
    rw [sound.superseded i x found (Bool.eq_false_iff.mpr dead)] at owned
    cases owned
  rw [Registry.representative_of_live found live]
  rintro rfl
  rw [drop.found] at found
  cases found
  exact kept owned

theorem Attributed.step (attributed : m.Attributed) (sound : m.Sound) (step : Step false m m') :
    m'.Attributed := by
  cases step with
  | grow grows => exact attributed.grow sound.formed grows
  | blend blends => exact attributed.blend blends
  | drop _ drop => exact attributed.drop sound drop

end Memory

namespace Planner

def ownedAddresses (p : Planner) (region : Region) : List Nat :=
  p.registry.objects.flatMap fun o => (o.owned.within region).toList.map Location.address

def ownedCount (p : Planner) (region : Region) : Nat :=
  (p.registry.objects.map fun o => (o.owned.within region).size).sum

theorem length_ownedAddresses (p : Planner) (region : Region) :
    (p.ownedAddresses region).length = p.ownedCount region := by
  simp [ownedAddresses, ownedCount, List.length_flatMap, Span.length_toList]

theorem mem_ownedAddresses {p : Planner} {region : Region} {a : Nat} :
    a ∈ p.ownedAddresses region ↔
      ∃ i o, p.registry.object? i = some o ∧ ⟨region, a⟩ ∈ o.owned.toList := by
  have within (o : Object) : a ∈ (o.owned.within region).toList.map Location.address ↔
      ⟨region, a⟩ ∈ o.owned.toList := by
    rw [List.mem_map, Span.toList_within]
    constructor
    · rintro ⟨l, member, rfl⟩
      obtain ⟨owned, here⟩ := List.mem_filter.mp member
      rwa [← of_decide_eq_true here]
    · intro owned
      exact ⟨⟨region, a⟩, List.mem_filter.mpr ⟨owned, decide_eq_true rfl⟩, rfl⟩
  rw [ownedAddresses, List.mem_flatMap]
  simp only [within, Registry.mem_objects]
  exact ⟨fun ⟨o, ⟨i, found⟩, owned⟩ => ⟨i, o, found, owned⟩,
    fun ⟨i, o, found, owned⟩ => ⟨o, ⟨i, found⟩, owned⟩⟩

theorem nodup_ownedAddresses {p : Planner} (sound : p.memory.Sound) (region : Region) :
    (p.ownedAddresses region).Nodup := by
  have here : p.ownedAddresses region =
      ((p.registry.objects.flatMap (·.owned.toList)).filter (·.region = region)).map
        Location.address := by
    simp only [ownedAddresses, Span.toList_within, List.filter_flatMap, List.map_flatMap]
  rw [here]
  apply ((owned_nodup sound).filter _).map_on
  intro l first l' second same
  have region := (List.mem_filter.mp first).2
  have region' := (List.mem_filter.mp second).2
  cases l
  cases l'
  simp_all

theorem capacity_start {config : Config} {recorder : Recorder} {p : Planner}
    (started : start config recorder = .ok p) (region : Region) :
    (p.space region).capacity = config.arch.depth region := by
  obtain ⟨_, -, made⟩ := bind_eq_ok.mp started
  cases made
  cases region <;> rfl

theorem attributed_start {config : Config} {recorder : Recorder} {p : Planner}
    (started : start config recorder = .ok p) : p.memory.Attributed := by
  obtain ⟨_, -, made⟩ := bind_eq_ok.mp started
  cases made
  intro ⟨region, a⟩ heap ⟨bound, taken⟩
  cases region with
  | temp => exact absurd rfl heap
  | dram0 | dram1 | scratch => exact absurd (FreePool.free_ofCapacity.mpr bound) taken

theorem perm_addresses {p : Planner} (sound : p.memory.Sound) (attributed : p.memory.Attributed)
    {region : Region} (heap : region ≠ .temp) :
    ∃ pool, (p.space region).pool? = some pool ∧ pool.Sound ∧
      (p.space region).usage.used + pool.total = (p.space region).capacity ∧
      (FreePool.addresses pool.gaps ++ p.ownedAddresses region).Perm
        (List.range (p.space region).capacity) := by
  have serves := sound.formed region
  obtain ⟨pool, held, poolSound, counted, all⟩ := serves.sound.pool (serves.heap heap)
  have free (a : Nat) : a ∈ FreePool.addresses pool.gaps ↔ pool.Free a := FreePool.mem_addresses
  have taken (a : Nat) : a ∈ p.ownedAddresses region ↔ p.memory.Taken ⟨region, a⟩ := by
    rw [mem_ownedAddresses]
    exact ⟨fun ⟨i, o, found, owned⟩ => sound.taken i o found _ owned,
      attributed ⟨region, a⟩ heap⟩
  refine ⟨pool, held, poolSound, counted, ?_⟩
  rw [List.perm_ext_iff_of_nodup _ List.nodup_range]
  · intro a
    rw [List.mem_append, List.mem_range, free, taken]
    exact (all a).symm
  · rw [List.nodup_append']
    refine ⟨FreePool.nodup_addresses poolSound.apart, nodup_ownedAddresses sound region, ?_⟩
    intro a isFree owned
    exact ((taken a).mp owned).not_free ⟨pool, held, (free a).mp isFree⟩

/-- After commands of which none reported a broken invariant, the free addresses
of a heap and those owned in it are all of its addresses, each once, and the
usage counts the owned ones. -/
theorem addresses_conserved {config : Config} {recorder : Recorder} {p q : Planner}
    {cs : List Command} {region : Region} (started : start config recorder = .ok p)
    (run : lawful cs p = some q) (heap : region ≠ .temp) :
    ∃ pool, (q.space region).pool? = some pool ∧
      (FreePool.addresses pool.gaps ++ q.ownedAddresses region).Perm
        (List.range (config.arch.depth region)) ∧
      pool.total + q.ownedCount region = config.arch.depth region ∧
      (q.space region).usage.used = q.ownedCount region := by
  have first := sound_start started
  have steps := steps_of_lawful first run
  have attributed : q.memory.Attributed :=
    first.steps_induction Memory.Attributed steps (attributed_start started)
      fun _ _ sound attributed step => attributed.step sound step
  have capacity : (q.space region).capacity = config.arch.depth region :=
    (steps.capacity first region).trans (capacity_start started region)
  obtain ⟨pool, held, poolSound, counted, perm⟩ :=
    perm_addresses (first.steps steps) attributed heap
  rw [capacity] at counted perm
  have total : pool.total + q.ownedCount region = config.arch.depth region := by
    have length := perm.length_eq
    rwa [List.length_append, FreePool.length_addresses, ← poolSound.total, length_ownedAddresses,
      List.length_range] at length
  exact ⟨pool, held, perm, total, by omega⟩

/-- The second request does not fit, and the sweep gives one object back. -/
theorem addresses_conserved_blended :
    ∃ p q pool, start ⟨⟨.float32, 1, 6, 0, 0⟩, []⟩ .silent = .ok p ∧
      lawful [.activation "a" ⟨3, 3⟩ [], .activation "b" ⟨9, 9⟩ [], .activation "d" ⟨2, 2⟩ [],
        .blend "c" ⟨1, 1⟩ ["later"] ["a"] [⟨.dram0, 2⟩], .sweep] p = some q ∧
      (q.space .dram0).pool? = some pool ∧ FreePool.addresses pool.gaps = [3, 4, 5] ∧
      q.ownedAddresses .dram0 = [0, 1, 2] ∧
      (FreePool.addresses pool.gaps ++ q.ownedAddresses .dram0).Perm (List.range 6) ∧
      pool.total + q.ownedCount .dram0 = 6 ∧ (q.space .dram0).usage.used = q.ownedCount .dram0 := by
  have computed : ((start ⟨⟨.float32, 1, 6, 0, 0⟩, []⟩ .silent).toOption.bind fun p =>
      (lawful [.activation "a" ⟨3, 3⟩ [], .activation "b" ⟨9, 9⟩ [], .activation "d" ⟨2, 2⟩ [],
          .blend "c" ⟨1, 1⟩ ["later"] ["a"] [⟨.dram0, 2⟩], .sweep] p).map fun q =>
        ((q.space .dram0).pool?.map fun pool => FreePool.addresses pool.gaps,
          q.ownedAddresses .dram0)) = some (some [3, 4, 5], [0, 1, 2]) := by decide +kernel
  obtain ⟨p, begun, left⟩ := Option.bind_eq_some_iff.mp computed
  obtain ⟨q, run, both⟩ := Option.map_eq_some_iff.mp left
  obtain ⟨free, owned⟩ := Prod.mk.inj both
  have started := toOption_eq_some.mp begun
  obtain ⟨pool, held, conserved⟩ := @addresses_conserved _ _ _ _ _ .dram0 started run (by decide)
  rw [held] at free
  exact ⟨p, q, pool, started, run, held, Option.some.inj free, owned, conserved⟩

end Planner

end VectorMemory
