import VectorMemory.Proofs.Steps

/-! Whether live objects show vectors that are free. A blend over an object that
was taken over before shows vectors that another blend owns, and these become
free with that other blend. Where every view is drawn from what its blendees
own, no live object ever shows a free vector. -/
namespace VectorMemory

namespace Memory

variable {leaky : Bool} {m m' : Memory}

/-- No live object shows a free vector. -/
def Guarded (m : Memory) : Prop :=
  ∀ i o, m.registry.object? i = some o → o.isLive = true → ∀ l ∈ o.span.toList, ¬m.Free l

/-- Every live object owns what it shows. -/
def Backed (m : Memory) : Prop :=
  ∀ i o, m.registry.object? i = some o → o.isLive = true → o.span.toList ⊆ o.owned.toList

theorem Backed.guarded (backed : m.Backed) (sound : m.Sound) : m.Guarded := by
  intro i o found live l inside
  exact (sound.taken i o found l (backed i o found live inside)).not_free

/-- No live object shows a free vector of the region. -/
def Reserved (m : Memory) (region : Region) : Prop :=
  ∀ i o, m.registry.object? i = some o → o.isLive = true → ∀ l ∈ o.span.toList,
    l.region = region → ¬m.Free l

/-! ### Growth -/

theorem Reserved.grow {region : Region} (reserved : m.Reserved region) (formed : m.Formed)
    (grows : Grows leaky m m') : m'.Reserved region := by
  intro i o found live l inside home free
  have before := grows.free formed free
  cases grows with
  | touch touched =>
    obtain ⟨b, earlier, rfl⟩ := touched.object?_eq_some found
    exact reserved i b earlier live l inside home before
  | take => exact reserved i o found live l inside home before
  | place allocated places =>
    rcases places.origin found with ⟨-, rfl⟩ | found
    · exact (((formed.takes allocated _).free l).mp free).2 inside
    · exact reserved i o found live l inside home before

theorem Guarded.grow (guarded : m.Guarded) (formed : m.Formed) (grows : Grows leaky m m') :
    m'.Guarded := by
  intro i o found live l inside
  have reserved : m.Reserved l.region := fun i o found live l inside _ =>
    guarded i o found live l inside
  exact reserved.grow formed grows i o found live l inside rfl

theorem Backed.grow (backed : m.Backed) (grows : Grows leaky m m') : m'.Backed := by
  intro i o found live
  cases grows with
  | touch touched =>
    obtain ⟨b, earlier, rfl⟩ := touched.object?_eq_some found
    exact backed i b earlier live
  | take => exact backed i o found live
  | place allocated places =>
    rcases places.origin found with ⟨-, rfl⟩ | found
    · rw [places.owned]
      exact List.Subset.refl _
    · exact backed i o found live

/-! ### Blends -/

section Blend

variable {ids : List ObjectId} {o : Object} {r : Registry}

theorem Guarded.blend_iff (guarded : m.Guarded) (blends : Registry.Blends m.registry ids o r) :
    Guarded ⟨m.space, r⟩ ↔ ∀ l ∈ o.span.toList, ¬m.Free l := by
  constructor
  · intro after
    exact after m.registry.nextId o blends.object?_new blends.live
  · intro taken i x found live
    rcases blends.object?_cases found with ⟨-, rfl⟩ | ⟨b, before, ⟨-, rfl⟩ | ⟨-, rfl⟩⟩
    · exact taken
    · cases live
    · exact guarded i x before live

theorem Reserved.blend {region : Region} (reserved : m.Reserved region)
    (blends : Registry.Blends m.registry ids o r)
    (taken : ∀ l ∈ o.span.toList, l.region = region → ¬m.Free l) :
    Reserved ⟨m.space, r⟩ region := by
  intro i x found live
  rcases blends.object?_cases found with ⟨-, rfl⟩ | ⟨b, before, ⟨-, rfl⟩ | ⟨-, rfl⟩⟩
  · exact taken
  · cases live
  · exact reserved i x before live

theorem Backed.blend (backed : m.Backed) (blends : Registry.Blends m.registry ids o r)
    (drawn : o.span.toList ⊆ o.owned.toList) : Backed ⟨m.space, r⟩ := by
  intro i x found live
  rcases blends.object?_cases found with ⟨-, rfl⟩ | ⟨b, before, ⟨-, rfl⟩ | ⟨-, rfl⟩⟩
  · exact drawn
  · cases live
  · exact backed i x before live

end Blend

/-! ### Sweeps -/

section Sweep

variable {regions : List Region}

theorem found_of_sweep (sound : m.Sound) (drops : Drops m (m.registry.garbage regions) m')
    {i : ObjectId} {x : Object} (live : x.isLive = true) :
    m'.registry.object? i = some x ↔
      m.registry.object? i = some x ∧ x ∉ m.registry.garbage regions := by
  have queued := sound.coherent.queued_garbage regions
  rw [drops.found_iff sound]
  apply and_congr_right
  intro found
  rw [Registry.representative_of_live found live]
  have here : x.id = i := sound.coherent.ids i x found
  constructor
  · intro others inside
    exact others x inside here.symm
  · intro outside g member same
    have registered := (queued.live g member).1
    rw [← same, found] at registered
    cases registered
    exact outside member

theorem Guarded.sweep_iff (guarded : m.Guarded) (sound : m.Sound)
    (drops : Drops m (m.registry.garbage regions) m') :
    m'.Guarded ↔ ∀ g ∈ m.registry.garbage regions, ∀ i x, m.registry.object? i = some x →
      x.isLive = true → x ∉ m.registry.garbage regions → ∀ l ∈ g.owned.toList, l ∉ x.span.toList := by
  constructor
  · intro after g member i x found live kept l owned shown
    have registered := (found_of_sweep sound drops live).mpr ⟨found, kept⟩
    exact after i x registered live l shown ((drops.free sound l).mpr (.inr ⟨g, member, owned⟩))
  · intro apart i x registered live l shown free
    obtain ⟨found, kept⟩ := (found_of_sweep sound drops live).mp registered
    rcases (drops.free sound l).mp free with before | ⟨g, member, owned⟩
    · exact guarded i x found live l shown before
    · exact apart g member i x found live kept l owned shown

theorem Backed.drops {objects : List Object} (backed : m.Backed) (sound : m.Sound)
    (drops : Drops m objects m') : m'.Backed := by
  intro i x registered live
  exact backed i x ((drops.found_iff sound).mp registered).1 live

end Sweep

end Memory

namespace Planner

def Guarded (p : Planner) : Prop :=
  ∀ o ∈ p.registry.objects, o.supersededBy = none →
    ∀ l ∈ o.span.toList, ¬(p.space l.region).Free l.address

instance (p : Planner) : Decidable p.Guarded :=
  inferInstanceAs (Decidable (∀ o ∈ p.registry.objects, o.supersededBy = none →
    ∀ l ∈ o.span.toList, ¬(p.space l.region).Free l.address))

def shown : Command → List Location
  | .blend _ _ _ _ locations => locations
  | _ => []

def blended : Command → List String
  | .blend _ _ _ blendees _ => blendees
  | _ => []

/-- A blend shows no free vector, and a sweep frees no vector that a live object
goes on showing. -/
def Safe (p : Planner) (c : Command) : Prop :=
  (∀ l ∈ shown c, ¬(p.space l.region).Free l.address) ∧
    (c = .sweep → ∀ g ∈ p.registry.garbage sweptRegions, ∀ o ∈ p.registry.objects,
      o.supersededBy = none → o ∉ p.registry.garbage sweptRegions →
        ∀ l ∈ g.owned.toList, l ∉ o.span.toList)

def Cites (p : Planner) (c : Command) : Prop :=
  ∀ l ∈ shown c, ∃ o ∈ p.registry.objects, o.name ∈ blended c ∧ l ∈ o.span.toList

instance (p : Planner) (c : Command) : Decidable (p.Cites c) :=
  inferInstanceAs (Decidable (∀ l ∈ shown c, ∃ o ∈ p.registry.objects,
    o.name ∈ blended c ∧ l ∈ o.span.toList))

/-- A blend shows vectors of its live blendees, or vectors that a blendee owns. -/
def Draws (p : Planner) (c : Command) : Prop :=
  ∀ l ∈ shown c, ∃ o ∈ p.registry.objects, o.name ∈ blended c ∧
    ((o.supersededBy = none ∧ l ∈ o.span.toList) ∨ l ∈ o.owned.toList)

instance (p : Planner) (c : Command) : Decidable (p.Draws c) :=
  inferInstanceAs (Decidable (∀ l ∈ shown c, ∃ o ∈ p.registry.objects, o.name ∈ blended c ∧
    ((o.supersededBy = none ∧ l ∈ o.span.toList) ∨ l ∈ o.owned.toList)))

theorem isLive_iff {o : Object} : o.isLive = true ↔ o.supersededBy = none := by
  simp [Object.isLive]

theorem guarded_iff {p : Planner} (coherent : p.registry.Coherent) :
    p.Guarded ↔ p.memory.Guarded := by
  constructor
  · intro guarded i o found live
    have here := coherent.ids i o found
    exact guarded o (coherent.mem_objects.mpr (here ▸ found)) (isLive_iff.mp live)
  · intro guarded o member live
    exact guarded o.id o (coherent.mem_objects.mp member) (isLive_iff.mpr live)

theorem guarded_step_iff {p q : Planner} {c : Command} {reply : Reply} (sound : p.memory.Sound)
    (guarded : p.Guarded) (done : perform c p = .done reply q) : q.Guarded ↔ p.Safe c := by
  have after : q.memory.Sound := sound_perform sound (by rw [done]; rfl)
  have before := (guarded_iff sound.coherent).mp guarded
  rw [guarded_iff after.coherent]
  cases effect_of_done sound done with
  | grow kind grows =>
    have safe : p.Safe c := by
      cases c with
      | blend | sweep => cases kind
      | _ => exact ⟨by simp [shown], nofun⟩
    refine ⟨fun _ => safe, fun _ => sound.grows_induction Memory.Guarded grows.1 before ?_⟩
    exact fun _ _ sound guarded step => guarded.grow sound.formed step
  | blend members blends view same =>
    rw [same, before.blend_iff blends, view]
    exact ⟨fun taken => ⟨taken, nofun⟩, fun safe => safe.1⟩
  | sweep drops =>
    rw [before.sweep_iff sound drops]
    constructor
    · intro apart
      refine ⟨by simp [shown], ?_⟩
      intro _ g member o registered live
      exact apart g member o.id o (sound.coherent.mem_objects.mp registered) (isLive_iff.mpr live)
    · intro safe g member i o found live
      have here := sound.coherent.ids i o found
      have registered := sound.coherent.mem_objects.mpr (here ▸ found)
      exact safe.2 rfl g member o registered (isLive_iff.mp live)

theorem backed_of_blend {p q : Planner} {name : String} {extent : Extent}
    {consumers blendees : List String} {locations : List Location} {reply : Reply}
    (sound : p.memory.Sound) (backed : p.memory.Backed)
    (draws : p.Draws (.blend name extent consumers blendees locations))
    (done : perform (.blend name extent consumers blendees locations) p = .done reply q) :
    q.memory.Backed := by
  obtain ⟨ids, o, named, blends, view, same, -⟩ := perform_blend_done sound.coherent done
  rw [same]
  apply backed.blend blends
  intro l inside
  rw [view] at inside
  obtain ⟨b, registered, listed, source⟩ := draws l inside
  have found := sound.coherent.mem_objects.mp registered
  have resolved := sound.coherent.idOf?_eq_some.mpr ⟨b, found, rfl⟩
  have member := ((Registry.blendeeIds_eq_ok named).2 b.id).mpr ⟨b.name, listed, resolved⟩
  refine blends.mem_owned.mpr ⟨b.id, member, b, found, ?_⟩
  rcases source with ⟨live, seen⟩ | owned
  · exact backed b.id b found (isLive_iff.mpr live) seen
  · exact owned

structure Covered (p : Planner) : Prop where
  sound : p.memory.Sound
  backed : p.memory.Backed

theorem Covered.guarded {p : Planner} (covered : p.Covered) : p.Guarded :=
  (guarded_iff covered.sound.coherent).mpr (covered.backed.guarded covered.sound)

/-- Failures included. -/
theorem Covered.perform {p q : Planner} {c : Command} (covered : p.Covered) (draws : p.Draws c)
    (left : (perform c p).state? = some q) : q.Covered := by
  have sound := covered.sound
  refine ⟨sound_perform sound left, ?_⟩
  cases leaves_of_state sound left with
  | grow _ grows =>
    exact sound.grows_induction Memory.Backed grows.1 covered.backed
      fun _ _ _ backed step => backed.grow step
  | blend done => exact backed_of_blend sound covered.backed draws done
  | refuse => exact covered.backed
  | sweep _ drops => exact covered.backed.drops sound drops

theorem covered_start {config : Config} {recorder : Recorder} {p : Planner}
    (started : start config recorder = .ok p) : p.Covered := by
  refine ⟨sound_start started, ?_⟩
  obtain ⟨_, -, made⟩ := bind_eq_ok.mp started
  cases made
  intro i o found
  simp [memory, Registry.empty, Registry.object?] at found

/-- All states of a run of successes are guarded exactly if no blend shows a
free vector and no sweep frees a vector that a live object goes on showing. This
is so if every blend draws on its blendees. -/
theorem guarded_iff_safe {config : Config} {recorder : Recorder} {p q : Planner}
    {cs : List Command} (started : start config recorder = .ok p) (run : succeed cs p = some q) :
    ((Throughout (fun m _ => m.Guarded) cs p ∧ q.Guarded) ↔ Throughout Safe cs p) ∧
      (Throughout Draws cs p → Throughout (fun m _ => m.Guarded) cs p ∧ q.Guarded) := by
  have covered := covered_start started
  refine ⟨throughout_iff_of_step ?_ covered.sound covered.guarded run, fun draws => ?_⟩
  · intro p c reply q sound guarded done
    exact guarded_step_iff sound guarded done
  · have step : ∀ p c reply q, p.memory.Sound → Covered p → p.Draws c →
        perform c p = .done reply q → Covered q := fun _ _ _ _ _ covered draws done =>
      covered.perform draws (by rw [done]; rfl)
    obtain ⟨states, last⟩ := throughout_of_step step covered.sound covered run draws
    exact ⟨states.imp fun _ _ covered => covered.guarded, last.guarded⟩

/-- Two blends on top of each other stay while another object is freed. -/
def stacked : List Command :=
  [.activation "a" ⟨3, 3⟩ [], .activation "d" ⟨1, 1⟩ [],
    .blend "b" ⟨2, 2⟩ [] ["a"] [⟨.dram0, 2⟩, ⟨.dram0, 0⟩],
    .blend "c" ⟨1, 1⟩ ["later"] ["b", "a"] [⟨.dram0, 2⟩], .sweep]

theorem guarded_iff_safe_stacked :
    ∃ p q, start ⟨⟨.float32, 1, 4, 0, 0⟩, []⟩ .silent = .ok p ∧ succeed stacked p = some q ∧
      (q.space .dram0).Free 3 ∧ q.Guarded := by
  have computed : ((start ⟨⟨.float32, 1, 4, 0, 0⟩, []⟩ .silent).toOption.bind fun p =>
      (succeed stacked p).map fun q =>
        (throughout (fun p c => decide (p.Draws c)) stacked p,
          decide ((q.space .dram0).Free 3))) = some (true, true) := by decide +kernel
  obtain ⟨p, begun, left⟩ := Option.bind_eq_some_iff.mp computed
  obtain ⟨q, run, both⟩ := Option.map_eq_some_iff.mp left
  obtain ⟨draws, free⟩ := Prod.mk.inj both
  have started := toOption_eq_some.mp begun
  have guarded := (guarded_iff_safe started run).2 (throughout_iff.mp draws)
  exact ⟨p, q, started, run, of_decide_eq_true free, guarded.2⟩

/-- Two blends over the same object, of which the first one goes. The second one
shows a vector that the first one owned. -/
def reblended : List Command :=
  [.activation "a" ⟨4, 4⟩ [], .blend "b" ⟨1, 1⟩ [] ["a"] [⟨.dram0, 0⟩],
    .blend "c" ⟨1, 1⟩ ["later"] ["a"] [⟨.dram0, 1⟩], .sweep]

theorem unguarded_over_superseded :
    ¬∀ (config : Config) (recorder : Recorder) (p q : Planner) (cs : List Command),
      start config recorder = .ok p → succeed cs p = some q → Throughout Cites cs p →
        q.Guarded := by
  intro guarded
  have computed : ((start ⟨⟨.float32, 1, 4, 0, 0⟩, []⟩ .silent).toOption.bind fun p =>
      (succeed reblended p).map fun q =>
        (throughout (fun p c => decide (p.Cites c)) reblended p, decide q.Guarded)) =
          some (true, false) := by decide +kernel
  obtain ⟨p, begun, left⟩ := Option.bind_eq_some_iff.mp computed
  obtain ⟨q, run, both⟩ := Option.map_eq_some_iff.mp left
  obtain ⟨cites, unguarded⟩ := Prod.mk.inj both
  exact of_decide_eq_false unguarded
    (guarded _ _ p q _ (toOption_eq_some.mp begun) run (throughout_iff.mp cites))

end Planner

end VectorMemory
