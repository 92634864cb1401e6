import VectorMemory.Proofs.Outputs

/-! Objects that are pinned from the start. Nothing that commands do, failures
included, takes away their registration, their span or their vectors. -/
namespace VectorMemory

open Relation

/-- The same object; consumers, storage and supersession may have changed. -/
structure Object.Alike (o x : Object) : Prop where
  id : x.id = o.id
  name : x.name = o.name
  extent : x.extent = o.extent
  region : x.region = o.region
  span : x.span = o.span

namespace Memory

variable {leaky : Bool} {m m' : Memory} {o : Object}

def Hosts (m : Memory) (o : Object) : Prop :=
  ∃ x, m.registry.object? o.id = some x ∧ o.Alike x

/-- What pins its object and its vectors for good. -/
structure Retains (m : Memory) (o : Object) : Prop where
  hosts : m.Hosts o
  secured : m.Secured o.id
  anchored : ∀ l ∈ o.span.toList, m.Anchored l

theorem Hosts.step (hosts : m.Hosts o) (secured : m.Secured o.id) (step : Step leaky m m') :
    m'.Hosts o := by
  obtain ⟨x, found, alike⟩ := hosts
  cases step with
  | grow grows =>
    obtain ⟨consumers, after, -⟩ := grows.found found
    exact ⟨_, after, alike.id, alike.name, alike.extent, alike.region, alike.span⟩
  | blend blends =>
    refine ⟨_, found_of_blend blends found, ?_⟩
    split
    · exact ⟨alike.id, alike.name, alike.extent, alike.region, alike.span⟩
    · exact alike
  | drop consumed drop =>
    -- whatever took the object over last is pinned, and so not dropped
    refine ⟨x, drop.found_iff.mpr ⟨?_, found⟩, alike⟩
    obtain ⟨last, registered, pinned⟩ := secured _ (m.registry.takesOver_representative o.id)
    exact ne_of_consumed drop.found consumed registered pinned

theorem Hosts.steps (hosts : m.Hosts o) (secured : m.Secured o.id) (steps : Steps leaky m m') :
    m'.Hosts o := by
  induction steps with
  | refl => exact hosts
  | tail before step ih => exact ih.step (secured.steps before) step

theorem Retains.steps (retains : m.Retains o) (sound : m.Sound) (steps : Steps leaky m m') :
    m'.Retains o := by
  refine ⟨retains.hosts.steps retains.secured steps, retains.secured.steps steps, ?_⟩
  intro l inside
  exact (retains.anchored l inside).steps sound steps

theorem retains_of_live (found : m.registry.object? o.id = some o) (live : o.supersededBy = none)
    (owned : o.owned = o.span) (pinned : o.isPinned = true) : m.Retains o := by
  refine ⟨⟨o, found, rfl, rfl, rfl, rfl, rfl⟩, secured_of_live found live pinned, ?_⟩
  intro l inside
  exact ⟨o.id, o, found, pinned, owned ▸ inside⟩

theorem owned_of_grows (sound : m.Sound) (grows : ReflTransGen (Grows leaky) m m') {i : ObjectId}
    (absent : m.registry.object? i = none) (found : m'.registry.object? i = some o) :
    o.supersededBy = none ∧ o.owned = o.span := by
  suffices kept : ∀ x, m'.registry.object? i = some x →
      x.supersededBy = none ∧ x.owned = x.span from kept o found
  apply sound.grows_induction (fun a => ∀ x, a.registry.object? i = some x →
    x.supersededBy = none ∧ x.owned = x.span) grows
  · intro x impossible
    rw [absent] at impossible
    cases impossible
  · intro a b _ kept step x found
    cases step with
    | touch touched =>
      obtain ⟨y, before, rfl⟩ := touched.object?_eq_some found
      exact kept y before
    | take => exact kept x found
    | place _ places =>
      rcases places.origin found with ⟨-, rfl⟩ | before
      · exact ⟨places.supersededBy, places.owned⟩
      · exact kept x before

end Memory

namespace Planner

variable {p q : Planner} {c : Command} {o : Object}

def Creates (p : Planner) (o : Object) (q : Planner) : Prop :=
  p.registry.object? o.id = none ∧ q.registry.object? o.id = some o

def Retains (q : Planner) (o : Object) : Prop :=
  ∃ x, q.registry.get o.name = .ok x ∧ q.registry.object? o.id = some x ∧ x.id = o.id ∧
    x.name = o.name ∧ x.extent = o.extent ∧ x.span = o.span ∧
    ∀ l ∈ o.span.toList, ¬(q.space l.region).Free l.address

theorem retains_of_memory (sound : q.memory.Sound) (retains : q.memory.Retains o) :
    q.Retains o := by
  obtain ⟨x, found, alike⟩ := retains.hosts
  have named : q.registry.get o.name = .ok x :=
    sound.coherent.get_eq_ok.mpr ⟨alike.id ▸ found, alike.name⟩
  exact ⟨x, named, found, alike.id, alike.name, alike.extent, alike.span,
    fun l inside => (retains.anchored l inside).not_free sound⟩

theorem Creates.retains (creates : p.Creates o q) (sound : p.memory.Sound) (kind : growing c = true)
    (left : (perform c p).state? = some q) (pinned : o.isPinned = true) : q.memory.Retains o := by
  rw [Outcome.state?_eq_left?] at left
  have grows : Grows true p q := grows_of_perform kind left
  obtain ⟨live, owned⟩ := Memory.owned_of_grows sound grows.1 creates.1 creates.2
  exact Memory.retains_of_live creates.2 live owned pinned

theorem Placed.retains {region : Region} (placed : Placed p region o q)
    (pinned : o.isPinned = true) : q.memory.Retains o :=
  Memory.retains_of_live placed.found placed.places.supersededBy placed.places.owned pinned

/-! ### Commands that pin what they place -/

def pinning : Command → Bool
  | .input .. | .constant .. | .weights .. | .output .. => true
  | _ => false

/-- A sound memory stays so, and every object in it is one from before,
unchanged, or else pinned. -/
def Pins (p q : Planner) : Prop :=
  p.memory.Sound → q.memory.Sound ∧ ∀ i o, q.registry.object? i = some o →
    p.registry.object? i = some o ∨ o.isPinned = true

instance : Std.Refl Pins :=
  ⟨fun _ sound => ⟨sound, fun _ _ found => .inl found⟩⟩

instance : Trans Pins Pins Pins where
  trans first second sound := by
    obtain ⟨middle, before⟩ := first sound
    obtain ⟨last, after⟩ := second middle
    refine ⟨last, fun i o found => ?_⟩
    rcases after i o found with earlier | pinned
    · exact before i o earlier
    · exact .inr pinned

theorem pins_of_memory (same : q.memory = p.memory) : Pins p q := by
  intro sound
  refine ⟨same ▸ sound, fun i o found => .inl ?_⟩
  rwa [← show q.registry = p.registry from congrArg Memory.registry same]

theorem Placed.origin {region : Region} (placed : Placed p region o q) (pinned : o.isPinned = true)
    {i : ObjectId} {x : Object} (found : q.registry.object? i = some x) :
    p.registry.object? i = some x ∨ x.isPinned = true := by
  rcases placed.places.origin found with ⟨-, rfl⟩ | before
  · exact .inr pinned
  · exact .inl before

theorem Moves.sound {leaky : Bool} {touched : List Part} (moves : Moves leaky touched p q)
    (sound : p.memory.Sound) : q.memory.Sound :=
  sound.grows (Moves.grows moves).1

theorem pins_allocate {region : Region} {name : String} {extent : Extent} {consumers : List String}
    {sentinel : String} (pins : isSentinel sentinel = true) (member : sentinel ∈ consumers) :
    (allocate region name extent consumers).Keeps (admitted true) Pins := by
  have moves : (allocate region name extent consumers).Keeps (admitted true)
      (Moves true [.space region, .registry, .recorder]) :=
    moves_allocate name extent consumers (by simp) (by simp) (by simp)
  constructor
  intro p q left sound
  refine ⟨Moves.sound (moves.left p q left) sound, fun i x found => ?_⟩
  rcases Outcome.left?_eq_some.mp left with ⟨o, done⟩ | ⟨cause, failed, -⟩
  · obtain ⟨placed, -, -, users⟩ := allocate_eq_done sound.formed done
    exact placed.origin (isPinned_of_mem pins member users) found
  · rcases allocate_eq_failed failed with ⟨rfl, -⟩ | ⟨-, agree⟩
    · exact .inl found
    · have same : q.registry = p.registry := agree .registry (by simp)
      exact .inl (same ▸ found)

theorem pins_input (name : String) (extent : Extent) (consumers : List String) :
    (input name extent consumers).Keeps (admitted true) Pins := by
  apply Action.Keeps.bind (pins_allocate isSentinel_io (by simp))
  intro o
  apply Action.Keeps.bind _ fun _ => Action.keeps_pure o
  exact Action.keeps_modify fun p => pins_of_memory rfl

theorem pins_constant (name : String) (requested : Option Extent) :
    (constant name requested).Keeps (admitted true) Pins := by
  have moves : (constant name requested).Keeps (admitted true)
      (Moves true (touches (.constant name requested))) :=
    moves_constant name requested (List.Subset.refl _)
  constructor
  intro p q left sound
  refine ⟨Moves.sound (moves.left p q left) sound, fun i x found => ?_⟩
  rcases Outcome.left?_eq_some.mp left with ⟨o, done⟩ | ⟨cause, failed, -⟩
  · rcases constant_eq_done sound.formed done with ⟨-, rfl⟩ | ⟨tensor, bytes, emits⟩
    · exact .inl found
    · obtain ⟨middle, tally, placed, -, rfl⟩ := emits.result
      exact placed.origin emits.pinned found
  · rcases constant_eq_failed sound.formed failed with
      ⟨rfl, -⟩ | ⟨-, agree⟩ | ⟨o, placed, pinned, -⟩
    · exact .inl found
    · have same : q.registry = p.registry := agree .registry (by simp)
      exact .inl (same ▸ found)
    · exact placed.origin pinned found

theorem pins_weights (name : String) (bias : Option String) :
    (weights name bias).Keeps (admitted true) Pins := by
  apply (pins_constant name none).bind
  intro _
  cases bias with
  | none => exact Action.keeps_pure _
  | some bias => exact (pins_constant bias none).bind fun _ => Action.keeps_pure _

theorem pins_output (name : String) : (output name).Keeps (admitted true) Pins := by
  have row (o : Object) : (Action.modify (addOutput name o.id)).Keeps (admitted true) Pins :=
    Action.keeps_modify fun p => pins_of_memory rfl
  apply Action.keeps_get.bind
  intro _
  apply (Action.keeps_ofResult _).bind
  intro produced
  cases produced.region with
  | dram0 =>
    apply Action.Keeps.bind _ fun o => (row o).bind fun _ => Action.keeps_pure _
    apply Action.keeps_zoom
    intro p r left sound
    rcases Outcome.left?_eq_some.mp left with ⟨o, done⟩ | ⟨cause, failed, -⟩
    · obtain ⟨before, -, -, rfl⟩ := Registry.change_eq_done.mp done
      refine ⟨sound.touch ((Registry.retouches_pin ioSentinel).update p.registry before.id), ?_⟩
      intro i x found
      rw [Registry.object?_update] at found
      split at found
      · obtain ⟨y, -, rfl⟩ := Option.map_eq_some_iff.mp found
        exact .inr (isPinned_pin y)
      · exact .inl found
    · obtain ⟨rfl, -⟩ := Registry.change_eq_failed.mp failed
      exact ⟨sound, fun _ _ found => .inl found⟩
  | scratch =>
    apply (pins_allocate isSentinel_io (by simp)).bind
    intro o
    exact (row o).bind fun _ => Action.keeps_pure _
  | dram1 | temp => exact Action.keeps_fail _

theorem pins_perform (kind : pinning c = true) : (perform c).Keeps (admitted true) Pins := by
  cases c with
  | input name extent consumers =>
    exact (pins_input name extent consumers).bind fun _ => Action.keeps_pure _
  | constant name requested =>
    exact (pins_constant name requested).bind fun _ => Action.keeps_pure _
  | weights name bias => exact (pins_weights name bias).bind fun _ => Action.keeps_pure _
  | output name => exact (pins_output name).bind fun _ => Action.keeps_pure _
  | _ => cases kind

theorem Creates.pinned (creates : p.Creates o q) (sound : p.memory.Sound) (kind : pinning c = true)
    (left : (perform c p).state? = some q) : o.isPinned = true := by
  rw [Outcome.state?_eq_left?] at left
  rcases ((pins_perform kind).left p q left sound).2 o.id o creates.2 with before | pinned
  · rw [creates.1] at before
    cases before
  · exact pinned

def creation? (p : Planner) : Command → Reply → Option (String × Object)
  | .input name _ _, .object o => some (name, o)
  | .constant name _, .object o => if p.registry.has name then none else some (name, o)
  | .output name, .placement ⟨o, some _⟩ => some (name ++ ":output", o)
  | _, _ => none

theorem Placed.creates {region : Region} (placed : Placed p region o q) : p.Creates o q :=
  ⟨placed.fresh, placed.found⟩

theorem creates_of_reply {reply : Reply} {name : String} (sound : p.memory.Sound)
    (done : perform c p = .done reply q) (told : creation? p c reply = some (name, o)) :
    pinning c = true ∧ p.Creates o q ∧ o.name = name := by
  cases c with
  | input given extent consumers =>
    obtain ⟨x, entered, rfl⟩ := replying_eq_done.mp done
    cases told
    obtain ⟨middle, placed, rfl, named, -⟩ := input_eq_done sound.formed entered
    exact ⟨rfl, placed.creates, named⟩
  | constant given requested =>
    obtain ⟨x, emitted, rfl⟩ := replying_eq_done.mp done
    simp only [creation?, Option.ite_none_left_eq_some] at told
    obtain ⟨unplaced, same⟩ := told
    cases same
    rcases constant_eq_done sound.formed emitted with ⟨known, -⟩ | ⟨tensor, bytes, emits⟩
    · obtain ⟨found, named⟩ := sound.coherent.get_eq_ok.mp known
      have absent := sound.coherent.has_eq_false.mp (Bool.eq_false_iff.mpr unplaced)
      exact absurd named (absent _ _ found)
    · obtain ⟨middle, tally, placed, -, rfl⟩ := emits.result
      exact ⟨rfl, placed.creates, emits.named⟩
  | output given =>
    obtain ⟨placement, put, rfl⟩ := replying_eq_done.mp done
    obtain ⟨produced, -, ⟨-, rfl, -⟩ | ⟨x, middle, -, rfl, placed, rfl, named, -⟩⟩ :=
      output_cases sound.formed put
    · cases told
    · cases told
      exact ⟨rfl, placed.creates, named⟩
  | _ => cases told

/-! ### The table of inputs -/

def arrival : Command → Outcome Planner Reply → List Buffer
  | .input name _ _, .done (.object o) _ => [⟨name, o.region, o.span⟩]
  | _, _ => []

/-- What all commands add to it, failures being passed over. -/
def received : List Command → Planner → List Buffer
  | [], _ => []
  | c :: cs, p => arrival c (perform c p) ++ (perform c p).state?.elim [] (received cs)

/-- The objects that a table names, and all blends over them, are pinned. -/
def Holds (p : Planner) (table : List (String × ObjectId)) : Prop :=
  ∀ row ∈ table, p.memory.Secured row.2

theorem Holds.steps {leaky : Bool} {table : List (String × ObjectId)} (holds : p.Holds table)
    (steps : Memory.Steps leaky p.memory q.memory) : q.Holds table :=
  fun row member => (holds row member).steps steps

theorem Holds.buffers {leaky : Bool} {table : List (String × ObjectId)} (holds : p.Holds table)
    (sound : p.memory.Sound) (steps : Memory.Steps leaky p.memory q.memory) :
    q.buffers table = p.buffers table := by
  apply List.filterMap_congr
  intro row member
  obtain ⟨o, found, -⟩ := holds row member row.2 .refl
  have home : o.id = row.2 := sound.coherent.ids _ o found
  have hosts : p.memory.Hosts o := ⟨o, home ▸ found, rfl, rfl, rfl, rfl, rfl⟩
  obtain ⟨x, after, alike⟩ := hosts.steps (home ▸ holds row member) steps
  have before : p.registry.object? row.2 = some o := found
  rw [home] at after
  change (q.registry.object? row.2).map _ = (p.registry.object? row.2).map _
  rw [show q.registry.object? row.2 = some x from after, before, Option.map_some, Option.map_some,
    alike.region, alike.span]

theorem Holds.input {name : String} {extent : Extent} {consumers : List String}
    (holds : p.Holds p.inputs) (sound : p.memory.Sound)
    (steps : Memory.Steps true p.memory q.memory)
    (done : input name extent consumers p = .done o q) :
    q.Holds q.inputs ∧ q.inputBuffers = p.inputBuffers ++ [⟨name, o.region, o.span⟩] := by
  obtain ⟨middle, placed, rfl, -, pinned⟩ := input_eq_done sound.formed done
  constructor
  · intro row member
    rcases List.mem_append.mp member with old | new
    · exact holds.steps steps row old
    · rw [List.mem_singleton.mp new]
      exact (placed.retains pinned).secured
  · have found : middle.registry.object? o.id = some o := placed.found
    unfold inputBuffers Planner.buffers
    rw [List.filterMap_append]
    exact congrArg₂ _ (holds.buffers sound steps) (by simp [found])

theorem inputs_step (sound : p.memory.Sound) (holds : p.Holds p.inputs)
    (left : (perform c p).state? = some q) :
    q.Holds q.inputs ∧ q.inputBuffers = p.inputBuffers ++ arrival c (perform c p) := by
  have steps : Memory.Steps true p.memory q.memory :=
    steps_of_perform sound (by rwa [Outcome.state?_eq_left?] at left)
  have unchanged (same : q.inputs = p.inputs) :
      q.Holds q.inputs ∧ q.inputBuffers = p.inputBuffers := by
    unfold inputBuffers
    rw [same]
    exact ⟨holds.steps steps, holds.buffers sound steps⟩
  cases c with
  | input name extent consumers =>
    rcases Outcome.state?_eq_some.mp left with ⟨reply, done⟩ | ⟨cause, failed⟩
    · rw [done]
      obtain ⟨o, entered, rfl⟩ := replying_eq_done.mp done
      exact holds.input sound steps entered
    · rw [failed]
      simpa [arrival] using unchanged (inputs_of_failed (replying_eq_failed.mp failed))
  | _ =>
    have same : Part.Same .inputs p q := same_of_perform left (by simp [touches])
    simpa [arrival] using unchanged same

theorem inputs_follow {cs : List Command} (sound : p.memory.Sound) (holds : p.Holds p.inputs)
    (run : follow cs p = some q) : q.inputBuffers = p.inputBuffers ++ received cs p := by
  induction cs generalizing p with
  | nil =>
    cases run
    exact (List.append_nil _).symm
  | cons c rest ih =>
    obtain ⟨middle, left, later⟩ := follow_cons.mp run
    obtain ⟨held, listed⟩ := inputs_step sound holds left
    rw [ih (sound_perform sound left) held later, listed, received, left, Option.elim_some,
      List.append_assoc]

theorem start_inputs {config : Config} {recorder : Recorder}
    (started : start config recorder = .ok p) : p.inputs = [] := by
  obtain ⟨_, -, made⟩ := bind_eq_ok.mp started
  cases made
  rfl

/-- Inputs are listed as they came. What is pinned when it is placed stays
registered with its span, and its vectors stay taken, whatever follows. Inputs,
new constants and relocated outputs are placed pinned. -/
theorem pinned_storage_kept {config : Config} {recorder : Recorder} {p₀ p : Planner}
    {before : List Command} (started : start config recorder = .ok p₀)
    (run : follow before p₀ = some p) :
    p.inputBuffers = received before p₀ ∧
    (∀ c q o, growing c = true → (perform c p).state? = some q → p.Creates o q →
      (pinning c = true → o.isPinned = true) ∧
      (o.isPinned = true → ∀ later q', follow later q = some q' → q'.Retains o)) ∧
    (∀ c reply q name o, perform c p = .done reply q → creation? p c reply = some (name, o) →
      pinning c = true ∧ p.Creates o q ∧ o.name = name) := by
  have first := sound_start started
  have sound := sound_follow first run
  refine ⟨?_, ?_, ?_⟩
  · have none := start_inputs started
    have holds : p₀.Holds p₀.inputs := by
      rw [none]
      exact nofun
    rw [inputs_follow first holds run, inputBuffers, none]
    rfl
  · intro c q o kind left creates
    refine ⟨fun pinning => creates.pinned sound pinning left, ?_⟩
    intro pinned later q' run
    have after := sound_perform sound left
    have steps := steps_of_follow after run
    exact retains_of_memory (after.steps steps)
      ((creates.retains sound kind left pinned).steps after steps)
  · exact fun c reply q name o => creates_of_reply sound

/-- An input stays when a blend takes it over and all consumers are retired, the
sentinels among them, while a sweep frees what is next to it. -/
theorem pinned_storage_kept_blended :
    ∃ p₀ p o q q', start ⟨⟨.float32, 1, 5, 0, 0⟩, []⟩ .silent = .ok p₀ ∧
      follow [.input "a" ⟨1, 1⟩ [], .activation "d" ⟨1, 1⟩ []] p₀ = some p ∧
      perform (.input "b" ⟨2, 2⟩ []) p = .done (.object o) q ∧
      follow [.activation "e" ⟨1, 1⟩ [], .blend "v" ⟨1, 1⟩ [] ["b", "d"] [⟨.dram0, 2⟩],
        .consume "b" [ioSentinel], .input "b" ⟨1, 1⟩ [], .consumeAll [ioSentinel, constantSentinel],
        .sweep] q = some q' ∧
      p.inputBuffers = received [.input "a" ⟨1, 1⟩ [], .activation "d" ⟨1, 1⟩ []] p₀ ∧
      p.Creates o q ∧ q'.Retains o ∧ (q'.space .dram0).Free 4 := by
  have computed : ((start ⟨⟨.float32, 1, 5, 0, 0⟩, []⟩ .silent).toOption.bind fun p₀ =>
      (follow [.input "a" ⟨1, 1⟩ [], .activation "d" ⟨1, 1⟩ []] p₀).bind fun p =>
        (input "b" ⟨2, 2⟩ [] p).result?.bind fun (o, q) =>
          (follow [.activation "e" ⟨1, 1⟩ [], .blend "v" ⟨1, 1⟩ [] ["b", "d"] [⟨.dram0, 2⟩],
            .consume "b" [ioSentinel], .input "b" ⟨1, 1⟩ [],
            .consumeAll [ioSentinel, constantSentinel], .sweep] q).map fun q' =>
              decide ((q'.space .dram0).Free 4)) = some true := by decide +kernel
  obtain ⟨p₀, begun, left⟩ := Option.bind_eq_some_iff.mp computed
  obtain ⟨p, earlier, left⟩ := Option.bind_eq_some_iff.mp left
  obtain ⟨⟨o, q⟩, result, left⟩ := Option.bind_eq_some_iff.mp left
  obtain ⟨q', later, free⟩ := Option.map_eq_some_iff.mp left
  have started := toOption_eq_some.mp begun
  have done : perform (.input "b" ⟨2, 2⟩ []) p = .done (.object o) q :=
    replying_eq_done.mpr ⟨o, Outcome.result?_eq_some.mp result, rfl⟩
  obtain ⟨listed, kept, created⟩ := pinned_storage_kept started earlier
  obtain ⟨pins, creates, -⟩ := created _ _ q "b" o done rfl
  obtain ⟨pinned, retains⟩ := kept _ q o rfl (by rw [done]; rfl) creates
  exact ⟨p₀, p, o, q, q', started, earlier, done, later, listed, creates,
    retains (pinned pins) _ q' later, of_decide_eq_true free⟩

end Planner

end VectorMemory
