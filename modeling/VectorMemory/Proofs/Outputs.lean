import VectorMemory.Proofs.Commands

/-! What becomes of an output. Its row in the table of outputs names an object,
and goes with the blend that took this object over last; its vectors go with the
blend that owns them. An output that was taken over before it was pinned can lose
both. If the object and all blends over it are pinned, nothing is lost. -/
namespace VectorMemory

open Relation

namespace Memory

variable {leaky : Bool} {m m' : Memory}

/-- An object and all blends that it went into, one after another, are pinned. -/
def Secured (m : Memory) (i : ObjectId) : Prop :=
  ∀ j, ReflTransGen m.registry.TakesOver i j →
    ∃ o, m.registry.object? j = some o ∧ o.isPinned = true

def Anchored (m : Memory) (l : Location) : Prop :=
  ∃ i o, m.registry.object? i = some o ∧ o.isPinned = true ∧ l ∈ o.owned.toList

def Views (m : Memory) (i : ObjectId) (region : Region) (span : Span) : Prop :=
  ∃ o, m.registry.object? i = some o ∧ o.region = region ∧ o.span = span

theorem Secured.mono {i : ObjectId} (secured : m.Secured i)
    (fewer : ∀ i j, m'.registry.TakesOver i j → m.registry.TakesOver i j)
    (kept : ∀ j o, m.registry.object? j = some o → o.isPinned = true →
      ReflTransGen m.registry.TakesOver i j →
        ∃ x, m'.registry.object? j = some x ∧ x.isPinned = true) :
    m'.Secured i := by
  intro j path
  have before := ReflTransGen.mono fewer i j path
  obtain ⟨o, found, pinned⟩ := secured j before
  exact kept j o found pinned before

theorem secured_of_live {i : ObjectId} {o : Object} (found : m.registry.object? i = some o)
    (live : o.supersededBy = none) (pinned : o.isPinned = true) : m.Secured i := by
  intro j path
  rcases path.cases_head with rfl | ⟨k, ⟨x, found', superseded⟩, -⟩
  · exact ⟨o, found, pinned⟩
  · rw [found] at found'
    cases found'
    rw [live] at superseded
    cases superseded

theorem Anchored.not_free {l : Location} (anchored : m.Anchored l) (sound : m.Sound) :
    ¬m.Free l := by
  obtain ⟨i, o, found, -, owned⟩ := anchored
  exact (sound.taken i o found l owned).not_free

/-! ### Growth -/

theorem Grows.takesOver (grows : Grows leaky m m') {i j : ObjectId}
    (next : m'.registry.TakesOver i j) : m.registry.TakesOver i j := by
  obtain ⟨o, found, superseded⟩ := next
  cases grows with
  | touch touched =>
    obtain ⟨b, earlier, rfl⟩ := touched.object?_eq_some found
    exact ⟨b, earlier, superseded⟩
  | take => exact ⟨o, found, superseded⟩
  | place allocated places =>
    rcases places.origin found with ⟨-, rfl⟩ | earlier
    · have live := places.live
      simp [Object.isLive, superseded] at live
    · exact ⟨o, earlier, superseded⟩

theorem Secured.grow {i : ObjectId} (secured : m.Secured i) (grows : Grows leaky m m') :
    m'.Secured i := by
  apply secured.mono (fun _ _ => grows.takesOver)
  intro j o found pinned _
  obtain ⟨consumers, after, sentinel⟩ := grows.found found
  exact ⟨_, after, sentinel pinned⟩

theorem Anchored.grow {l : Location} (anchored : m.Anchored l) (grows : Grows leaky m m') :
    m'.Anchored l := by
  obtain ⟨i, o, found, pinned, owned⟩ := anchored
  obtain ⟨consumers, after, sentinel⟩ := grows.found found
  exact ⟨i, _, after, sentinel pinned, owned⟩

theorem Views.grow {i : ObjectId} {region : Region} {span : Span} (views : m.Views i region span)
    (grows : Grows leaky m m') : m'.Views i region span := by
  obtain ⟨o, found, same⟩ := views
  obtain ⟨consumers, after, -⟩ := grows.found found
  exact ⟨_, after, same⟩

/-! ### Blends -/

section Blend

variable {ids : List ObjectId} {o : Object} {r : Registry}

theorem Secured.blend {i : ObjectId} (secured : m.Secured i)
    (blends : Registry.Blends m.registry ids o r) : Secured ⟨m.space, r⟩ i := by
  have pinned : ∀ j, ReflTransGen m.registry.TakesOver i j →
      ∃ x, r.object? j = some x ∧ x.isPinned = true := by
    intro j path
    obtain ⟨b, found, pinned⟩ := secured j path
    refine ⟨_, found_of_blend blends found, ?_⟩
    split <;> exact pinned
  -- a path leads along the old one, or leaves it at a blendee to end at the blend
  have ends : ∀ j, ReflTransGen r.TakesOver i j →
      ReflTransGen m.registry.TakesOver i j ∨ (j = o.id ∧ o.isPinned = true) := by
    intro j path
    induction path with
    | refl => exact .inl .refl
    | tail _ step ih =>
      obtain ⟨x, found, superseded⟩ := step
      rcases blends.object?_cases found with ⟨-, rfl⟩ | ⟨b, before, ⟨inside, rfl⟩ | ⟨-, rfl⟩⟩
      · have live := blends.live
        simp [Object.isLive, superseded] at live
      · cases superseded
        rcases ih with path | ⟨rfl, pinned⟩
        · obtain ⟨c, found', pinned⟩ := secured _ path
          rw [before] at found'
          cases found'
          exact .inr ⟨rfl, blends.pinned _ inside b before pinned⟩
        · exact .inr ⟨rfl, pinned⟩
      · rcases ih with path | ⟨rfl, -⟩
        · exact .inl (path.tail ⟨x, before, superseded⟩)
        · rw [blends.id] at before
          exact absurd rfl (Registry.object?_ne_nextId before)
  intro j path
  rcases ends j path with path | ⟨rfl, sentinel⟩
  · exact pinned j path
  · rw [blends.id]
    exact ⟨o, blends.object?_new, sentinel⟩

theorem Anchored.blend {l : Location} (anchored : m.Anchored l)
    (blends : Registry.Blends m.registry ids o r) : Anchored ⟨m.space, r⟩ l := by
  obtain ⟨i, b, found, pinned, owned⟩ := anchored
  by_cases inside : i ∈ ids
  · exact ⟨_, o, blends.object?_new, blends.pinned i inside b found pinned,
      blends.mem_owned.mpr ⟨i, inside, b, found, owned⟩⟩
  · have after := found_of_blend blends found
    rw [if_neg inside] at after
    exact ⟨i, b, after, pinned, owned⟩

theorem Views.blend {i : ObjectId} {region : Region} {span : Span} (views : m.Views i region span)
    (blends : Registry.Blends m.registry ids o r) : Views ⟨m.space, r⟩ i region span := by
  obtain ⟨b, found, same⟩ := views
  refine ⟨_, found_of_blend blends found, ?_⟩
  split <;> exact same

end Blend

/-! ### Sweeps -/

section Sweep

variable {regions : List Region}

theorem ne_of_consumed {j : ObjectId} {o g : Object} (registered : m.registry.object? g.id = some g)
    (consumed : g.isConsumed = true) (found : m.registry.object? j = some o)
    (pinned : o.isPinned = true) : j ≠ g.id := by
  rintro rfl
  rw [registered] at found
  cases found
  unfold Object.isPinned at pinned
  rw [NameSet.isEmpty_iff.mp consumed] at pinned
  cases pinned

theorem Secured.drop {i : ObjectId} {g : Object} (secured : m.Secured i)
    (consumed : g.isConsumed = true) (drop : Drop m g m') : m'.Secured i := by
  apply secured.mono
  · intro i j ⟨o, found, superseded⟩
    exact ⟨o, (drop.found_iff.mp found).2, superseded⟩
  · intro j o found pinned path
    refine ⟨o, drop.found_iff.mpr ⟨?_, found⟩, pinned⟩
    obtain ⟨x, last, sentinel⟩ := secured _ (path.trans (m.registry.takesOver_representative j))
    exact ne_of_consumed drop.found consumed last sentinel

theorem Anchored.drop {l : Location} {g : Object} (anchored : m.Anchored l) (sound : m.Sound)
    (consumed : g.isConsumed = true) (drop : Drop m g m') : m'.Anchored l := by
  obtain ⟨i, o, found, pinned, owned⟩ := anchored
  have live : o.isLive = true := by
    by_contra dead
    rw [sound.superseded i o found (Bool.eq_false_iff.mpr dead)] at owned
    cases owned
  refine ⟨i, o, drop.found_iff.mpr ⟨?_, found⟩, pinned, owned⟩
  rw [Registry.representative_of_live found live]
  exact ne_of_consumed drop.found consumed found pinned

theorem Secured.step {i : ObjectId} (secured : m.Secured i) (step : Step leaky m m') :
    m'.Secured i := by
  cases step with
  | grow grows => exact secured.grow grows
  | blend blends => exact secured.blend blends
  | drop consumed drop => exact secured.drop consumed drop

theorem Anchored.step {l : Location} (anchored : m.Anchored l) (sound : m.Sound)
    (step : Step leaky m m') : m'.Anchored l := by
  cases step with
  | grow grows => exact anchored.grow grows
  | blend blends => exact anchored.blend blends
  | drop consumed drop => exact anchored.drop sound consumed drop

theorem Secured.steps {i : ObjectId} (secured : m.Secured i) (steps : Steps leaky m m') :
    m'.Secured i := by
  induction steps with
  | refl => exact secured
  | tail _ step ih => exact ih.step step

theorem Anchored.steps {l : Location} (anchored : m.Anchored l) (sound : m.Sound)
    (steps : Steps leaky m m') : m'.Anchored l :=
  sound.steps_induction (·.Anchored l) steps anchored fun _ _ sound anchored step =>
    anchored.step sound step

theorem Views.sweep_iff {i : ObjectId} {region : Region} {span : Span}
    (views : m.Views i region span) (sound : m.Sound)
    (drops : Drops m (m.registry.garbage regions) m') :
    m'.Views i region span ↔
      ∀ g ∈ m.registry.garbage regions, m.registry.representative i ≠ g.id := by
  obtain ⟨o, found, same⟩ := views
  constructor
  · intro ⟨x, kept, _⟩
    exact ((drops.found_iff sound).mp kept).2
  · intro others
    exact ⟨o, (drops.found_iff sound).mpr ⟨found, others⟩, same⟩

end Sweep

end Memory

namespace Planner

def Lists (p : Planner) (name : String) (id : ObjectId) (buffer : Buffer) : Prop :=
  (name, id) ∈ p.outputs ∧
    (p.registry.object? id).map (fun o => ⟨name, o.region, o.span⟩) = some buffer

def Doomed (p : Planner) (id : ObjectId) : Prop :=
  ∃ g ∈ p.registry.garbage sweptRegions, p.registry.representative id = g.id

/-- The object itself, or else the blend that took it over last, owns the vector. -/
def Stores (p : Planner) (id : ObjectId) (l : Location) : Prop :=
  ∃ o ∈ p.registry.object? (p.registry.representative id), l ∈ o.owned.toList

instance (p : Planner) (id : ObjectId) (l : Location) : Decidable (p.Stores id l) :=
  inferInstanceAs (Decidable (∃ o ∈ p.registry.object? (p.registry.representative id),
    l ∈ o.owned.toList))

theorem mem_outputBuffers {p : Planner} {buffer : Buffer} :
    buffer ∈ p.outputBuffers ↔ ∃ name id, p.Lists name id buffer := by
  unfold outputBuffers buffers Lists
  rw [List.mem_filterMap, Prod.exists]

theorem lists_iff {p : Planner} {name : String} {id : ObjectId} {region : Region} {span : Span} :
    p.Lists name id ⟨name, region, span⟩ ↔ (name, id) ∈ p.outputs ∧ p.memory.Views id region span := by
  unfold Lists Memory.Views
  simp [Option.map_eq_some_iff, memory]

theorem not_doomed {p : Planner} {id : ObjectId} (secured : p.memory.Secured id)
    (sound : p.memory.Sound) : ¬p.Doomed id := by
  intro ⟨g, member, represented⟩
  obtain ⟨o, found, pinned⟩ := secured _ (p.registry.takesOver_representative id)
  have registered := ((sound.coherent.queued_garbage sweptRegions).live g member).1
  exact Memory.ne_of_consumed registered (Registry.consumed_of_garbage member) found pinned represented

theorem Stores.anchored {p : Planner} {id : ObjectId} {l : Location} (stores : p.Stores id l)
    (secured : p.memory.Secured id) : p.memory.Anchored l := by
  obtain ⟨o, owner, owned⟩ := stores
  obtain ⟨x, found, pinned⟩ := secured _ (p.registry.takesOver_representative id)
  have same : x = o := Option.some.inj (found.symm.trans owner)
  subst same
  exact ⟨_, x, found, pinned, owned⟩

section Steps

variable {p q : Planner} {c : Command} {reply : Reply}

theorem lists_step_iff {name : String} {id : ObjectId} {region : Region} {span : Span}
    (sound : p.memory.Sound) (lists : p.Lists name id ⟨name, region, span⟩)
    (done : perform c p = .done reply q) :
    q.Lists name id ⟨name, region, span⟩ ↔ (c = .sweep → ¬p.Doomed id) := by
  rw [lists_iff] at lists ⊢
  obtain ⟨row, views⟩ := lists
  cases effect_of_done sound done with
  | grow kind grows =>
    have after : q.memory.Views id region span :=
      sound.grows_induction (·.Views id region span) grows.1 views fun _ _ _ views step =>
        views.grow step
    refine ⟨?_, fun _ => ⟨grows.2.subset row, after⟩⟩
    intro _ same
    exact absurd same (ne_sweep_of_growing kind)
  | blend members blends view same outputs =>
    refine ⟨fun _ => nofun, fun _ => ⟨outputs ▸ row, ?_⟩⟩
    rw [same]
    exact views.blend blends
  | sweep drops outputs =>
    rw [outputs, views.sweep_iff sound drops]
    constructor
    · intro ⟨_, others⟩ _ ⟨g, member, represented⟩
      exact others g member represented
    · intro spared
      exact ⟨row, fun g member represented => spared rfl ⟨g, member, represented⟩⟩

theorem taken_step_iff {l : Location} (sound : p.memory.Sound)
    (taken : ¬(p.space l.region).Free l.address) (done : perform c p = .done reply q) :
    ¬(q.space l.region).Free l.address ↔
      (c = .sweep → ∀ g ∈ p.registry.garbage sweptRegions, l ∉ g.owned.toList) := by
  change ¬q.memory.Free l ↔ _
  cases effect_of_done sound done with
  | grow kind grows =>
    have after : ¬q.memory.Free l :=
      sound.grows_induction (¬·.Free l) grows.1 taken fun _ _ sound taken step free =>
        taken (step.free sound.formed free)
    refine ⟨?_, fun _ => after⟩
    intro _ same
    exact absurd same (ne_sweep_of_growing kind)
  | blend members blends view same =>
    rw [same]
    exact ⟨fun _ => nofun, fun _ => taken⟩
  | sweep drops =>
    rw [drops.free sound]
    constructor
    · intro kept _ g member owned
      exact kept (.inr ⟨g, member, owned⟩)
    · intro spared freed
      rcases freed with before | ⟨g, member, owned⟩
      · exact taken before
      · exact spared rfl g member owned

end Steps

/-! ### Making an output -/

/-- An output is a pinned object in the first off-chip memory. -/
theorem output_eq_done {p q : Planner} {name : String} {placement : Placement}
    (sound : p.memory.Sound) (done : output name p = .done placement q) :
    (name, placement.object.id) ∈ q.outputs ∧
      q.registry.object? placement.object.id = some placement.object ∧
      placement.object.region = .dram0 ∧ placement.object.isPinned = true := by
  obtain ⟨produced, named, ⟨home, rfl, rfl⟩ | ⟨o, middle, -, rfl, placed, rfl, -, pinned⟩⟩ :=
    output_cases sound.formed done
  · have found := (sound.coherent.get_eq_ok.mp named).1
    refine ⟨List.mem_append_right _ List.mem_cons_self, ?_, home, isPinned_pin produced⟩
    change (p.registry.update produced.id _).object? produced.id = _
    rw [Registry.object?_update, if_pos rfl]
    exact congrArg (Option.map _) found
  · exact ⟨List.mem_append_right _ List.mem_cons_self, placed.found, placed.home, pinned⟩

theorem lists_of_output {p q : Planner} {name : String} {placement : Placement}
    (sound : p.memory.Sound) (done : output name p = .done placement q) :
    q.Lists name placement.object.id ⟨name, .dram0, placement.object.span⟩ := by
  obtain ⟨row, found, region, -⟩ := output_eq_done sound done
  exact lists_iff.mpr ⟨row, placement.object, found, region, rfl⟩

/-! ### Outputs in a run -/

section Runs

variable {p q : Planner} {cs : List Command}

theorem secured_succeed {id : ObjectId} (sound : p.memory.Sound) (secured : p.memory.Secured id)
    (run : succeed cs p = some q) : q.memory.Secured id :=
  secured.steps (steps_of_succeed sound run)

theorem lists_of_secured {name : String} {id : ObjectId} {region : Region} {span : Span}
    (sound : p.memory.Sound) (secured : p.memory.Secured id)
    (lists : p.Lists name id ⟨name, region, span⟩) (run : succeed cs p = some q) :
    q.Lists name id ⟨name, region, span⟩ := by
  apply (succeed_induction
    (fun s => s.memory.Secured id ∧ s.Lists name id ⟨name, region, span⟩) sound run
    ⟨secured, lists⟩ _).2
  intro p c reply q sound ⟨secured, lists⟩ done
  refine ⟨secured.steps (steps_of_done sound done), ?_⟩
  exact (lists_step_iff sound lists done).mpr fun _ => not_doomed secured sound

theorem taken_of_secured {id : ObjectId} {l : Location} (sound : p.memory.Sound)
    (secured : p.memory.Secured id) (stores : p.Stores id l) (run : succeed cs p = some q) :
    ¬(q.space l.region).Free l.address := by
  have anchored := (stores.anchored secured).steps sound (steps_of_succeed sound run)
  exact anchored.not_free (sound_succeed sound run)

end Runs

/-- The row of an output stays exactly while no sweep drops the blend that took
the output over last, and a vector that it owns stays taken exactly while no
sweep drops an owner of it. Both stay for ever if the output and all blends over
it are pinned when it is made an output; in particular if there are none. -/
theorem output_kept_iff {config : Config} {recorder : Recorder} {p₀ p q m q' : Planner}
    {before first rest : List Command} {name : String} {placement : Placement}
    (started : start config recorder = .ok p₀) (earlier : succeed before p₀ = some p)
    (placed : output name p = .done placement q) (run : succeed first q = some m)
    (later : succeed rest m = some q') :
    ((Throughout (fun s _ =>
          s.Lists name placement.object.id ⟨name, .dram0, placement.object.span⟩) first q ∧
        m.Lists name placement.object.id ⟨name, .dram0, placement.object.span⟩) ↔
      Throughout (fun s c => c = .sweep → ¬s.Doomed placement.object.id) first q) ∧
    (∀ l, m.Stores placement.object.id l →
      ((Throughout (fun s _ => ¬(s.space l.region).Free l.address) rest m ∧
          ¬(q'.space l.region).Free l.address) ↔
        Throughout (fun s c => c = .sweep →
          ∀ g ∈ s.registry.garbage sweptRegions, l ∉ g.owned.toList) rest m)) ∧
    (q.memory.Secured placement.object.id →
      ⟨name, .dram0, placement.object.span⟩ ∈ m.outputBuffers ∧
        ∀ l, m.Stores placement.object.id l → ¬(q'.space l.region).Free l.address) ∧
    (placement.object.supersededBy = none → q.memory.Secured placement.object.id) := by
  have sound := sound_succeed (sound_start started) earlier
  have done : perform (.output name) p = .done (.placement placement) q :=
    replying_eq_done.mpr ⟨placement, placed, rfl⟩
  have after : q.memory.Sound := sound_perform sound (by rw [done]; rfl)
  have reached := sound_succeed after run
  have lists := lists_of_output sound placed
  refine ⟨?_, ?_, ?_, ?_⟩
  · exact throughout_iff_of_step (fun _ _ _ _ => lists_step_iff) after lists run
  · intro l ⟨o, found, owned⟩
    have taken := (reached.taken _ o found l owned).not_free
    exact throughout_iff_of_step (fun _ _ _ _ => taken_step_iff) reached taken later
  · intro secured
    refine ⟨mem_outputBuffers.mpr ⟨_, _, lists_of_secured after secured lists run⟩, ?_⟩
    intro l stores
    exact taken_of_secured reached (secured_succeed after secured run) stores later
  · intro live
    obtain ⟨-, found, -, pinned⟩ := output_eq_done sound placed
    exact Memory.secured_of_live found live pinned

/-- An output that is blended afterwards keeps its row, and the blend its
vectors, while a sweep frees what is next to them. -/
theorem output_kept_iff_blended :
    ∃ p₀ p placement q m q', start ⟨⟨.float32, 1, 4, 0, 0⟩, []⟩ .silent = .ok p₀ ∧
      succeed [.activation "a" ⟨2, 2⟩ [], .activation "d" ⟨1, 1⟩ [], .activation "e" ⟨1, 1⟩ []] p₀ =
        some p ∧
      output "a" p = .done placement q ∧
      succeed [.blend "b" ⟨1, 1⟩ [] ["a", "d"] [⟨.dram0, 1⟩]] q = some m ∧
      succeed [.sweep] m = some q' ∧ placement.object.supersededBy = none ∧
      m.Stores placement.object.id ⟨.dram0, 2⟩ ∧ (q'.space .dram0).Free 3 ∧
      ⟨"a", .dram0, placement.object.span⟩ ∈ m.outputBuffers ∧ ¬(q'.space .dram0).Free 2 := by
  have computed : ((start ⟨⟨.float32, 1, 4, 0, 0⟩, []⟩ .silent).toOption.bind fun p₀ =>
      (succeed [.activation "a" ⟨2, 2⟩ [], .activation "d" ⟨1, 1⟩ [],
          .activation "e" ⟨1, 1⟩ []] p₀).bind fun p =>
        (output "a" p).result?.bind fun (placement, q) =>
          (succeed [.blend "b" ⟨1, 1⟩ [] ["a", "d"] [⟨.dram0, 1⟩]] q).bind fun m =>
            (succeed [.sweep] m).map fun q' => (placement.object.supersededBy,
              decide (m.Stores placement.object.id ⟨.dram0, 2⟩),
              decide ((q'.space .dram0).Free 3))) = some (none, true, true) := by decide +kernel
  obtain ⟨p₀, begun, left⟩ := Option.bind_eq_some_iff.mp computed
  obtain ⟨p, earlier, left⟩ := Option.bind_eq_some_iff.mp left
  obtain ⟨⟨placement, q⟩, result, left⟩ := Option.bind_eq_some_iff.mp left
  obtain ⟨m, run, left⟩ := Option.bind_eq_some_iff.mp left
  obtain ⟨q', later, facts⟩ := Option.map_eq_some_iff.mp left
  obtain ⟨live, rest⟩ := Prod.mk.inj facts
  obtain ⟨stored, free⟩ := Prod.mk.inj rest
  have started := toOption_eq_some.mp begun
  have placed := Outcome.result?_eq_some.mp result
  have stores := of_decide_eq_true stored
  obtain ⟨-, -, kept, secured⟩ := output_kept_iff started earlier placed run later
  obtain ⟨row, taken⟩ := kept (secured live)
  exact ⟨p₀, p, placement, q, m, q', started, earlier, placed, run, later, live, stores,
    of_decide_eq_true free, row, taken _ stores⟩

/-- An object that becomes an output only after a blend took it over. The blend
is not pinned, and goes with its vectors and the row of the output. -/
theorem output_lost_with_blend :
    ∃ p₀ p placement q q', start ⟨⟨.float32, 1, 4, 0, 0⟩, []⟩ .silent = .ok p₀ ∧
      succeed [.activation "a" ⟨1, 1⟩ [], .blend "b" ⟨1, 1⟩ [] ["a"] [⟨.dram0, 0⟩]] p₀ = some p ∧
      output "a" p = .done placement q ∧ succeed [.sweep] q = some q' ∧
      ⟨"a", .dram0, placement.object.span⟩ ∉ q'.outputBuffers ∧
      q.Stores placement.object.id ⟨.dram0, 0⟩ ∧ (q'.space .dram0).Free 0 := by
  have computed : ((start ⟨⟨.float32, 1, 4, 0, 0⟩, []⟩ .silent).toOption.bind fun p₀ =>
      (succeed [.activation "a" ⟨1, 1⟩ [], .blend "b" ⟨1, 1⟩ [] ["a"] [⟨.dram0, 0⟩]] p₀).bind fun p =>
        (output "a" p).result?.bind fun (placement, q) =>
          (succeed [.sweep] q).map fun q' => (q'.outputBuffers,
            decide (q.Stores placement.object.id ⟨.dram0, 0⟩),
            decide ((q'.space .dram0).Free 0))) = some ([], true, true) := by decide +kernel
  obtain ⟨p₀, begun, left⟩ := Option.bind_eq_some_iff.mp computed
  obtain ⟨p, earlier, left⟩ := Option.bind_eq_some_iff.mp left
  obtain ⟨⟨placement, q⟩, result, left⟩ := Option.bind_eq_some_iff.mp left
  obtain ⟨q', run, facts⟩ := Option.map_eq_some_iff.mp left
  obtain ⟨rows, rest⟩ := Prod.mk.inj facts
  obtain ⟨stored, free⟩ := Prod.mk.inj rest
  refine ⟨p₀, p, placement, q, q', toOption_eq_some.mp begun, earlier,
    Outcome.result?_eq_some.mp result, run, ?_, of_decide_eq_true stored, of_decide_eq_true free⟩
  rw [rows]
  exact List.not_mem_nil

end Planner

end VectorMemory
