import VectorMemory.Proofs.Memory
import VectorMemory.Proofs.Moves

/-! What a command does to the memory of a planner. A blend enters a view, a
sweep drops garbage, and every other command takes vectors, places objects and
changes consumers. -/
namespace VectorMemory

open Relation

namespace Memory

/-- A change that gives nothing back and enters no view. Only a leaky one takes
vectors without an owner. -/
inductive Grows (leaky : Bool) : Memory → Memory → Prop where
  | touch {consumers : ObjectId → Object → NameSet} {r : Registry} :
      Registry.Retired consumers m.registry r → Grows leaky m ⟨m.space, r⟩
  | take {region : Region} {count : Nat} {span : Span} {t : Space} {l : Location} : leaky = true →
      Space.allocate count (m.space region) = .done span t →
      m.registry.index.insert m.registry.nextId span = .ok (.error (.claimed l)) →
      Grows leaky m ⟨Function.update m.space region t, m.registry⟩
  | place {region : Region} {count : Nat} {o : Object} {t : Space} {r : Registry} :
      Space.allocate count (m.space region) = .done o.span t →
      Registry.Places m.registry o r → o.region = t.region →
      Grows leaky m ⟨Function.update m.space region t, r⟩

/-- All that commands do to a memory. -/
inductive Step (leaky : Bool) : Memory → Memory → Prop where
  | grow : Grows leaky m m' → Step leaky m m'
  | blend {ids : List ObjectId} {o : Object} {r : Registry} :
      Registry.Blends m.registry ids o r → Step leaky m ⟨m.space, r⟩
  | drop {o : Object} : o.isConsumed = true → Drop m o m' → Step leaky m m'

abbrev Steps (leaky : Bool) : Memory → Memory → Prop :=
  ReflTransGen (Step leaky)

variable {leaky : Bool} {m m' : Memory}

theorem Sound.grow (sound : m.Sound) (grows : Grows leaky m m') : m'.Sound := by
  cases grows with
  | touch touched => exact sound.touch touched.toTouched
  | take _ allocated => exact sound.take (sound.formed.takes allocated _)
  | place allocated places => exact sound.place (sound.formed.takes allocated _) places

theorem Sound.grows (sound : m.Sound) (steps : ReflTransGen (Grows leaky) m m') : m'.Sound := by
  induction steps with
  | refl => exact sound
  | tail _ step ih => exact ih.grow step

theorem Sound.grows_induction (sound : m.Sound) (Inv : Memory → Prop)
    (steps : ReflTransGen (Grows leaky) m m') (first : Inv m)
    (step : ∀ a b, a.Sound → Inv a → Grows leaky a b → Inv b) : Inv m' := by
  induction steps with
  | refl => exact first
  | tail steps last ih => exact step _ _ (sound.grows steps) ih last

theorem Grows.free (grows : Grows leaky m m') (formed : m.Formed) {l : Location}
    (free : m'.Free l) : m.Free l := by
  cases grows with
  | touch => exact free
  | take _ allocated | place allocated => exact (((formed.takes allocated _).free l).mp free).1

theorem Grows.found (grows : Grows leaky m m') {i : ObjectId} {o : Object}
    (found : m.registry.object? i = some o) :
    ∃ consumers, m'.registry.object? i = some { o with consumers } ∧
      (o.isPinned = true → consumers.any isSentinel = true) := by
  cases grows with
  | touch touched =>
    refine ⟨_, by rw [touched.object, found, Option.map_some], fun pinned => ?_⟩
    obtain ⟨s, member, sentinel⟩ := NameSet.any_eq_true.mp pinned
    exact NameSet.any_eq_true.mpr ⟨s, touched.sentinels i o s sentinel member, sentinel⟩
  | take => exact ⟨o.consumers, found, id⟩
  | place allocated places =>
    have old := Registry.object?_ne_nextId found
    exact ⟨o.consumers, by simp [places.object?_old old, found], id⟩

/-- A blend changes of an object at most what it owns and what took it over. -/
theorem found_of_blend {ids : List ObjectId} {o : Object} {r : Registry}
    (blends : Registry.Blends m.registry ids o r) {i : ObjectId} {b : Object}
    (found : m.registry.object? i = some b) :
    r.object? i = some (if i ∈ ids then Registry.superseded o.id b else b) := by
  rw [blends.object?_old (Registry.object?_ne_nextId found), found, Option.map_some]

theorem Sound.step (sound : m.Sound) (step : Step leaky m m') : m'.Sound := by
  cases step with
  | grow grows => exact sound.grow grows
  | blend blends => exact sound.blend blends
  | drop _ drop => exact sound.drop drop

theorem Sound.steps (sound : m.Sound) (steps : Steps leaky m m') : m'.Sound := by
  induction steps with
  | refl => exact sound
  | tail _ step ih => exact ih.step step

/-- What every single step from a sound memory keeps. -/
theorem Sound.steps_induction (sound : m.Sound) (Inv : Memory → Prop)
    (steps : Steps leaky m m') (first : Inv m)
    (step : ∀ a b, a.Sound → Inv a → Step leaky a b → Inv b) : Inv m' := by
  induction steps with
  | refl => exact first
  | tail steps last ih => exact step _ _ (sound.steps steps) ih last

theorem Drops.steps {objects : List Object} (drops : Drops m objects m')
    (consumed : ∀ o ∈ objects, o.isConsumed = true) : Steps leaky m m' := by
  induction drops with
  | nil => exact .refl
  | cons drop _ ih =>
    rw [List.forall_mem_cons] at consumed
    exact .head (.drop consumed.1 drop) (ih consumed.2)

end Memory

namespace Planner

def memory (p : Planner) : Memory :=
  ⟨p.space, p.registry⟩

/-- Outputs are only ever added. -/
def Grows (leaky : Bool) (p q : Planner) : Prop :=
  ReflTransGen (Memory.Grows leaky) p.memory q.memory ∧ p.outputs <+: q.outputs

instance {leaky : Bool} : Std.Refl (Grows leaky) :=
  ⟨fun _ => ⟨.refl, List.prefix_rfl⟩⟩

instance {leaky : Bool} : Trans (Grows leaky) (Grows leaky) (Grows leaky) :=
  ⟨fun first second => ⟨first.1.trans second.1, first.2.trans second.2⟩⟩

theorem mark_memory (p : Planner) (o : Object) : (p.mark o).memory = p.memory := by
  unfold mark
  split <;> rfl

theorem memory_setSpace (p : Planner) (region : Region) (s : Space) (r : Registry) :
    memory { p.setSpace region s with registry := r } =
      ⟨Function.update p.space region s, r⟩ := by
  rw [← space_setSpace]
  cases region <;> rfl

theorem outputs_setSpace (p : Planner) (region : Region) (s : Space) :
    (p.setSpace region s).outputs = p.outputs := by
  cases region <;> rfl

theorem Move.grows {leaky : Bool} {touched : List Part} {p q : Planner}
    (move : Move leaky touched p q) : Grows leaky p q := by
  cases move with
  | staging | blob | tally | recorder | input => exact ⟨.refl, List.prefix_rfl⟩
  | output => exact ⟨.refl, List.prefix_append _ _⟩
  | touch _ touched => exact ⟨.single (.touch touched), List.prefix_rfl⟩
  | take leaks _ granted met =>
    refine ⟨.single ?_, outputs_setSpace p _ _ ▸ List.prefix_rfl⟩
    rw [← setSpace_registry, memory_setSpace]
    exact .take leaks granted met
  | place _ _ granted places home =>
    refine ⟨.single ?_, outputs_setSpace p _ _ ▸ List.prefix_rfl⟩
    rw [memory_setSpace]
    exact .place granted places home

theorem Moves.grows {leaky : Bool} {touched : List Part} {p q : Planner}
    (moves : Moves leaky touched p q) : Grows leaky p q := by
  induction moves with
  | refl => exact Std.Refl.refl p
  | tail _ move ih => exact Trans.trans ih move.grows

/-! ### Sweeping -/

def sweptRegions : List Region :=
  [.dram0, .scratch]

theorem swept_regions {p : Planner} (formed : p.memory.Formed) :
    p.swept.1.map Space.region = sweptRegions := by
  have first : p.dram0.region = .dram0 := (formed .dram0).home
  have second : p.scratch.region = .scratch := (formed .scratch).home
  simp [swept, sweptRegions, first, second]

theorem drop_of_reclaim {p : Planner} {o : Object} {state : List Space × Registry}
    (sound : p.memory.Sound) (found : p.registry.object? o.id = some o) (live : o.isLive = true)
    (done : Registry.reclaim sweptRegions o.id p.swept = .done () state) :
    Memory.Drop p.memory o (setSwept state p).memory ∧ (setSwept state p).swept = state := by
  obtain ⟨spaces, r⟩ := state
  obtain ⟨inside, freed, rfl⟩ := (Registry.reclaim_eq_done found).mp done
  have formed := sound.formed
  have swept : ∀ l ∈ o.owned.toList, l.region ∈ sweptRegions := by
    intro l member
    obtain ⟨run, listed, here⟩ := Span.mem_toList.mp member
    rw [(Run.mem_toList.mp here).1]
    exact inside run listed
  have spaced : ∀ s ∈ p.swept.1, s.Sound := by
    simp only [Planner.swept, List.forall_mem_cons]
    exact ⟨(formed .dram0).sound, (formed .scratch).sound, by simp⟩
  have idle (region : Region) (outside : region ∉ sweptRegions) :
      Space.Returns (p.space region) o.owned.toList (p.space region) := by
    apply (Space.Returns.nil (formed region).sound).congr
    intro a
    rw [(formed region).home]
    constructor
    · exact nofun
    · intro member
      exact absurd (swept _ member) outside
  cases Registry.freeOwned_eq_done spaced freed with
  | cons first rest =>
    cases rest with
    | cons second rest =>
      cases rest
      refine ⟨⟨found, live, ?_, sound.coherent.unregister_eq found live, ?_⟩, rfl⟩
      · intro l member same
        have := swept l member
        rw [same] at this
        simp [sweptRegions] at this
      · intro region
        cases region with
        | dram0 => exact first
        | scratch => exact second
        | dram1 => exact idle .dram1 (by decide)
        | temp => exact idle .temp (by decide)

theorem outputs_setSwept (state : List Space × Registry) (p : Planner) :
    (setSwept state p).outputs = p.outputs := by
  unfold setSwept
  split <;> rfl

theorem setSwept_setSwept {p : Planner} {first second : List Space × Registry}
    (one : (setSwept first p).swept = first)
    (two : (setSwept second (setSwept first p)).swept = second) :
    setSwept second (setSwept first p) = setSwept second p := by
  have pair (q : Planner) : ∃ a b r, q.swept = ([a, b], r) := ⟨_, _, _, rfl⟩
  obtain ⟨a, b, r, shape⟩ := pair (setSwept first p)
  obtain ⟨c, d, r', shape'⟩ := pair (setSwept second (setSwept first p))
  rw [one] at shape
  rw [two] at shape'
  subst shape shape'
  rfl

theorem drops_of_each {p : Planner} {objects : List Object} {state : List Space × Registry}
    (sound : p.memory.Sound) (queued : Registry.Queued p.registry objects)
    (done : Action.each (Registry.reclaim sweptRegions) (objects.map Object.id) p.swept = .done () state) :
    Memory.Drops p.memory objects (setSwept state p).memory ∧ (setSwept state p).swept = state := by
  induction objects generalizing p with
  | nil =>
    cases done
    exact ⟨.nil, rfl⟩
  | cons o rest ih =>
    obtain ⟨_, middle, first, done⟩ := Action.bind_eq_done.mp done
    obtain ⟨found, live⟩ := queued.live o List.mem_cons_self
    obtain ⟨drop, shape⟩ := drop_of_reclaim sound found live first
    rw [← shape] at done
    have queued' : Registry.Queued (setSwept middle p).memory.registry rest := by
      rw [drop.registry]
      exact queued.drop
    obtain ⟨drops, shape'⟩ := ih (sound.drop drop) queued' done
    rw [setSwept_setSwept shape shape'] at drops shape'
    exact ⟨.cons drop drops, shape'⟩

/-- A sweep fails only at an object with vectors beyond the swept regions. What
it dropped before stays dropped. -/
theorem drops_of_each_failed {p : Planner} {objects : List Object}
    {state : List Space × Registry} {cause : MemoryError} (sound : p.memory.Sound)
    (queued : Registry.Queued p.registry objects)
    (failed : Action.each (Registry.reclaim sweptRegions) (objects.map Object.id) p.swept = .failed cause state) :
    (∃ name region, cause = .strayVectors name region) ∧
      ∃ dropped, dropped <+: objects ∧ Memory.Drops p.memory dropped (setSwept state p).memory ∧
        (setSwept state p).swept = state := by
  induction objects generalizing p with
  | nil => cases failed
  | cons o rest ih =>
    obtain ⟨found, live⟩ := queued.live o List.mem_cons_self
    rcases Action.bind_eq_failed.mp failed with stopped | ⟨_, middle, first, failed⟩
    · obtain ⟨spaces, r⟩ := state
      obtain ⟨rfl, ⟨rfl, region, rfl⟩ | refused⟩ := Registry.reclaim_eq_failed found stopped
      · exact ⟨⟨o.name, region, rfl⟩, [], List.nil_prefix, .nil, rfl⟩
      · -- all that the object owns is taken, so it can be given back
        apply absurd refused (Registry.freeOwned_ne_failed _ (sound.distinct _ o found) _)
        · simp only [List.forall_mem_cons]
          exact ⟨(sound.formed .dram0).sound, (sound.formed .scratch).sound, by simp⟩
        · have taken : ∀ region, ∀ l ∈ o.owned.toList, l.region = (p.space region).region →
              (p.space region).Taken l.address := by
            intro region l inside here
            have home : (p.space region).region = region := (sound.formed region).home
            rw [home] at here
            subst here
            exact sound.taken _ o found l inside
          simp only [List.forall_mem_cons]
          exact ⟨taken .dram0, taken .scratch, by simp⟩
    · obtain ⟨drop, shape⟩ := drop_of_reclaim sound found live first
      rw [← shape] at failed
      have queued' : Registry.Queued (setSwept middle p).memory.registry rest := by
        rw [drop.registry]
        exact queued.drop
      obtain ⟨stray, dropped, front, drops, shape'⟩ := ih (sound.drop drop) queued' failed
      rw [setSwept_setSwept shape shape'] at drops shape'
      exact ⟨stray, o :: dropped, by simpa using front, .cons drop drops, shape'⟩

/-! ### Commands -/

theorem replying_eq_done {action : Action Planner α} {reply : α → Reply} {p q : Planner}
    {answer : Reply} :
    replying reply action p = .done answer q ↔ ∃ a, action p = .done a q ∧ reply a = answer := by
  simp [replying, Action.bind_eq_done, and_comm]

theorem replying_eq_failed {action : Action Planner α} {reply : α → Reply} {p q : Planner}
    {cause : MemoryError} :
    replying reply action p = .failed cause q ↔ action p = .failed cause q := by
  simp [replying, Action.bind_eq_failed]

theorem left?_replying {admits : MemoryError → Bool} {action : Action Planner α} {reply : α → Reply}
    {p : Planner} : (replying reply action p).left? admits = (action p).left? admits :=
  Action.left?_bind_pure

theorem state?_replying {action : Action Planner α} {reply : α → Reply} {p : Planner} :
    (replying reply action p).state? = (action p).state? := by
  rw [Outcome.state?_eq_left?, left?_replying, ← Outcome.state?_eq_left?]

theorem ne_sweep_of_growing {c : Command} (grows : growing c = true) : c ≠ .sweep := by
  intro same
  rw [same] at grows
  cases grows

theorem grows_of_perform {leaky : Bool} {c : Command} {p q : Planner} (kind : growing c = true)
    (left : (perform c p).left? (admitted leaky) = some q) : Grows leaky p q :=
  Moves.grows ((moves_perform leaky kind).left p q left)

section Effects

variable {p q : Planner} {reply : Reply} {cause : MemoryError}

theorem perform_blend_done {name : String} {extent : Extent} {consumers blendees : List String}
    {locations : List Location} (coherent : p.registry.Coherent)
    (done : perform (.blend name extent consumers blendees locations) p = .done reply q) :
    ∃ ids o, p.registry.blendeeIds blendees = .ok ids ∧
      Registry.Blends p.registry ids o q.registry ∧ o.span.toList = locations ∧
      q.memory = ⟨p.memory.space, q.registry⟩ ∧ q.outputs = p.outputs := by
  obtain ⟨o, blended, -⟩ := replying_eq_done.mp done
  obtain ⟨_, middle, entered, final⟩ := Action.bind_eq_done.mp blended
  obtain ⟨r, inner, rfl⟩ := Action.zoom_eq_done.mp entered
  cases final
  obtain ⟨ids, named, blends, view⟩ := coherent.blend_eq_done inner
  exact ⟨ids, o, named, blends, view, rfl, rfl⟩

theorem perform_blend_failed {name : String} {extent : Extent} {consumers blendees : List String}
    {locations : List Location} (coherent : p.registry.Coherent)
    (failed : perform (.blend name extent consumers blendees locations) p = .failed cause q) :
    q = p := by
  rcases Action.bind_eq_failed.mp (replying_eq_failed.mp failed) with refused | ⟨_, _, _, final⟩
  · obtain ⟨r, inner, rfl⟩ := Action.zoom_eq_failed.mp refused
    rw [coherent.blend_eq_failed inner]
  · cases final

theorem perform_sweep_done (sound : p.memory.Sound) (done : perform .sweep p = .done reply q) :
    Memory.Drops p.memory (p.registry.garbage sweptRegions) q.memory ∧ q.outputs = p.outputs := by
  obtain ⟨count, swept, -⟩ := replying_eq_done.mp done
  obtain ⟨state, inner, rfl⟩ := Action.zoom_eq_done.mp swept
  have freed : Action.each (Registry.reclaim (p.swept.1.map Space.region))
      ((p.registry.garbage (p.swept.1.map Space.region)).map Object.id) p.swept = .done () state :=
    (Registry.sweep_eq_done.mp inner).1
  rw [swept_regions sound.formed] at freed
  have queued := sound.coherent.queued_garbage sweptRegions
  exact ⟨(drops_of_each sound queued freed).1, outputs_setSwept state p⟩

theorem perform_sweep_failed (sound : p.memory.Sound)
    (failed : perform .sweep p = .failed cause q) :
    (∃ name region, cause = .strayVectors name region) ∧ q.outputs = p.outputs ∧
      ∃ dropped, dropped <+: p.registry.garbage sweptRegions ∧
        Memory.Drops p.memory dropped q.memory := by
  obtain ⟨state, inner, rfl⟩ := Action.zoom_eq_failed.mp (replying_eq_failed.mp failed)
  have stopped : Action.each (Registry.reclaim (p.swept.1.map Space.region))
      ((p.registry.garbage (p.swept.1.map Space.region)).map Object.id) p.swept = .failed cause state :=
    Registry.sweep_eq_failed.mp inner
  rw [swept_regions sound.formed] at stopped
  have queued := sound.coherent.queued_garbage sweptRegions
  obtain ⟨stray, dropped, front, drops, -⟩ := drops_of_each_failed sound queued stopped
  exact ⟨stray, outputs_setSwept state p, dropped, front, drops⟩

/-- What a command that succeeds has done. -/
inductive Effect (p : Planner) : Command → Planner → Prop where
  | grow {c : Command} {q : Planner} : growing c = true → Grows true p q → Effect p c q
  | blend {name : String} {extent : Extent} {consumers blendees : List String}
      {locations : List Location} {q : Planner} {ids : List ObjectId} {o : Object} :
      (∀ i, i ∈ ids ↔ ∃ n ∈ blendees, p.registry.idOf? n = some i) →
      Registry.Blends p.registry ids o q.registry → o.span.toList = locations →
      q.memory = ⟨p.memory.space, q.registry⟩ → q.outputs = p.outputs →
      p.registry.blendeeIds blendees = .ok ids →
      Effect p (.blend name extent consumers blendees locations) q
  | sweep {q : Planner} : Memory.Drops p.memory (p.registry.garbage sweptRegions) q.memory →
      q.outputs = p.outputs → Effect p .sweep q

theorem effect_of_done {c : Command} (sound : p.memory.Sound)
    (done : perform c p = .done reply q) : Effect p c q := by
  cases kind : growing c with
  | true => exact .grow kind (grows_of_perform kind (by rw [done]; rfl))
  | false =>
    cases c with
    | blend =>
      obtain ⟨ids, o, named, blends, view, same, outputs⟩ := perform_blend_done sound.coherent done
      exact .blend (Registry.blendeeIds_eq_ok named).2 blends view same outputs named
    | sweep =>
      obtain ⟨drops, outputs⟩ := perform_sweep_done sound done
      exact .sweep drops outputs
    | _ => cases kind

/-- What a command has done, whether it succeeds or fails. -/
inductive Leaves (leaky : Bool) (p : Planner) : Command → Planner → Prop where
  | grow {c : Command} {q : Planner} : growing c = true → Grows leaky p q → Leaves leaky p c q
  | blend {name : String} {extent : Extent} {consumers blendees : List String}
      {locations : List Location} {q : Planner} {reply : Reply} :
      perform (.blend name extent consumers blendees locations) p = .done reply q →
      Leaves leaky p (.blend name extent consumers blendees locations) q
  | refuse {name : String} {extent : Extent} {consumers blendees : List String}
      {locations : List Location} {cause : MemoryError} :
      perform (.blend name extent consumers blendees locations) p = .failed cause p →
      Leaves leaky p (.blend name extent consumers blendees locations) p
  | sweep {q : Planner} {dropped : List Object} : dropped <+: p.registry.garbage sweptRegions →
      Memory.Drops p.memory dropped q.memory → Leaves leaky p .sweep q

theorem leaves_of_perform {leaky : Bool} {c : Command} (sound : p.memory.Sound)
    (left : (perform c p).left? (admitted leaky) = some q) : Leaves leaky p c q := by
  cases kind : growing c with
  | true => exact .grow kind (grows_of_perform kind left)
  | false =>
    cases c with
    | blend =>
      rcases Outcome.left?_eq_some.mp left with ⟨reply, done⟩ | ⟨cause, failed, -⟩
      · exact .blend done
      · obtain rfl := perform_blend_failed sound.coherent failed
        exact .refuse failed
    | sweep =>
      rcases Outcome.left?_eq_some.mp left with ⟨reply, done⟩ | ⟨cause, failed, -⟩
      · exact .sweep List.prefix_rfl (perform_sweep_done sound done).1
      · obtain ⟨-, -, dropped, front, drops⟩ := perform_sweep_failed sound failed
        exact .sweep front drops
    | _ => cases kind

theorem leaves_of_state {c : Command} (sound : p.memory.Sound)
    (left : (perform c p).state? = some q) : Leaves true p c q := by
  rw [Outcome.state?_eq_left?] at left
  exact leaves_of_perform sound left

end Effects

theorem sound_start {config : Config} {recorder : Recorder} {p : Planner}
    (started : start config recorder = .ok p) : p.memory.Sound := by
  obtain ⟨_, -, made⟩ := bind_eq_ok.mp started
  cases made
  have none (i : ObjectId) (o : Object) : Registry.empty.object? i ≠ some o := by
    simp [Registry.empty, Registry.object?]
  refine ⟨?_, Registry.coherent_empty, ?_, ?_, ?_, ?_⟩
  · intro region
    cases region with
    | dram0 | dram1 | scratch => exact ⟨Space.sound_heap _ _, rfl, fun _ => rfl⟩
    | temp => exact ⟨Space.sound_arena _, rfl, fun other => absurd rfl other⟩
  · exact fun i o found => absurd found (none i o)
  · exact fun i o found => absurd found (none i o)
  · exact fun i o _ _ found => absurd found (none i o)
  · exact fun i o found => absurd found (none i o)

theorem steps_of_perform {leaky : Bool} {p q : Planner} {c : Command} (sound : p.memory.Sound)
    (left : (perform c p).left? (admitted leaky) = some q) :
    Memory.Steps leaky p.memory q.memory := by
  cases leaves_of_perform sound left with
  | grow _ grows => exact ReflTransGen.mono (fun _ _ => .grow) _ _ grows.1
  | blend done =>
    obtain ⟨ids, o, -, blends, -, same, -⟩ := perform_blend_done sound.coherent done
    rw [same]
    exact .single (.blend blends)
  | refuse => exact .refl
  | sweep front drops =>
    exact drops.steps fun _ member => Registry.consumed_of_garbage (front.subset member)

theorem steps_of_done {p q : Planner} {c : Command} {reply : Reply} (sound : p.memory.Sound)
    (done : perform c p = .done reply q) : Memory.Steps false p.memory q.memory :=
  steps_of_perform sound (by rw [done]; rfl)

theorem steps_of_state {p q : Planner} {c : Command} (sound : p.memory.Sound)
    (left : (perform c p).state? = some q) : Memory.Steps true p.memory q.memory := by
  rw [Outcome.state?_eq_left?] at left
  exact steps_of_perform sound left

theorem sound_perform {p q : Planner} {c : Command} (sound : p.memory.Sound)
    (left : (perform c p).state? = some q) : q.memory.Sound :=
  sound.steps (steps_of_state sound left)

/-! ### Runs -/

/-- What commands leave one after another, going on after failures. -/
def follow (cs : List Command) (p : Planner) : Option Planner :=
  cs.foldlM (fun p c => (perform c p).state?) p

/-- What commands leave one after another, going on after failures unless an
invariant is broken. -/
def lawful (cs : List Command) (p : Planner) : Option Planner :=
  cs.foldlM (fun p c => (perform c p).left? MemoryError.isLawful) p

def succeed (cs : List Command) (p : Planner) : Option Planner :=
  cs.foldlM (fun p c => (perform c p).success?) p

theorem steps_of_run {leaky : Bool} {next : Planner → Command → Option Planner}
    (leaves : ∀ p c q, next p c = some q → (perform c p).left? (admitted leaky) = some q)
    {cs : List Command} {p q : Planner} (sound : p.memory.Sound) (run : cs.foldlM next p = some q) :
    Memory.Steps leaky p.memory q.memory := by
  induction cs generalizing p with
  | nil =>
    cases run
    exact .refl
  | cons c rest ih =>
    rw [List.foldlM_cons] at run
    obtain ⟨middle, left, later⟩ := Option.bind_eq_some_iff.mp run
    have steps := steps_of_perform sound (leaves p c middle left)
    exact steps.trans (ih (sound.steps steps) later)

theorem steps_of_follow {cs : List Command} {p q : Planner} (sound : p.memory.Sound)
    (run : follow cs p = some q) : Memory.Steps true p.memory q.memory := by
  apply steps_of_run _ sound run
  intro p c q left
  rwa [Outcome.state?_eq_left?] at left

theorem steps_of_lawful {cs : List Command} {p q : Planner} (sound : p.memory.Sound)
    (run : lawful cs p = some q) : Memory.Steps false p.memory q.memory :=
  steps_of_run (fun _ _ _ left => left) sound run

theorem steps_of_succeed {cs : List Command} {p q : Planner} (sound : p.memory.Sound)
    (run : succeed cs p = some q) : Memory.Steps false p.memory q.memory := by
  apply steps_of_run _ sound run
  intro p c q left
  obtain ⟨reply, done⟩ := Outcome.success?_eq_some.mp left
  rw [done]
  rfl

theorem sound_follow {cs : List Command} {p q : Planner} (sound : p.memory.Sound)
    (run : follow cs p = some q) : q.memory.Sound :=
  sound.steps (steps_of_follow sound run)

theorem lawful_cons {c : Command} {cs : List Command} {p q : Planner} :
    lawful (c :: cs) p = some q ↔ ∃ middle,
      (perform c p).left? MemoryError.isLawful = some middle ∧ lawful cs middle = some q := by
  unfold lawful
  rw [List.foldlM_cons, Option.bind_eq_bind, Option.bind_eq_some_iff]

theorem follow_cons {c : Command} {cs : List Command} {p q : Planner} :
    follow (c :: cs) p = some q ↔
      ∃ middle, (perform c p).state? = some middle ∧ follow cs middle = some q := by
  unfold follow
  rw [List.foldlM_cons, Option.bind_eq_bind, Option.bind_eq_some_iff]

theorem succeed_cons {c : Command} {cs : List Command} {p q : Planner} :
    succeed (c :: cs) p = some q ↔
      ∃ middle reply, perform c p = .done reply middle ∧ succeed cs middle = some q := by
  unfold succeed
  rw [List.foldlM_cons, Option.bind_eq_bind, Option.bind_eq_some_iff]
  simp only [Outcome.success?_eq_some]
  constructor
  · intro ⟨middle, ⟨reply, done⟩, run⟩
    exact ⟨middle, reply, done, run⟩
  · intro ⟨middle, reply, done, run⟩
    exact ⟨middle, ⟨reply, done⟩, run⟩

theorem succeed_induction (Inv : Planner → Prop) {cs : List Command} {p q : Planner}
    (sound : p.memory.Sound) (run : succeed cs p = some q) (first : Inv p)
    (step : ∀ p c reply q, p.memory.Sound → Inv p → perform c p = .done reply q → Inv q) :
    Inv q := by
  induction cs generalizing p with
  | nil =>
    cases run
    exact first
  | cons c rest ih =>
    obtain ⟨middle, reply, done, later⟩ := succeed_cons.mp run
    have after : middle.memory.Sound := sound_perform sound (by rw [done]; rfl)
    exact ih after later (step p c reply middle sound first done)

theorem sound_succeed {cs : List Command} {p q : Planner} (sound : p.memory.Sound)
    (run : succeed cs p = some q) : q.memory.Sound :=
  sound.steps (steps_of_succeed sound run)

/-- A property of each command and the state that it meets in a run. -/
def Throughout (P : Planner → Command → Prop) : List Command → Planner → Prop
  | [], _ => True
  | c :: cs, p => P p c ∧ ∀ q ∈ (perform c p).success?, Throughout P cs q

def throughout (holds : Planner → Command → Bool) : List Command → Planner → Bool
  | [], _ => true
  | c :: cs, p => holds p c && (perform c p).success?.all (throughout holds cs)

theorem throughout_iff {P : Planner → Command → Prop} [∀ p c, Decidable (P p c)]
    {cs : List Command} {p : Planner} :
    throughout (fun p c => decide (P p c)) cs p = true ↔ Throughout P cs p := by
  induction cs generalizing p with
  | nil => simp [throughout, Throughout]
  | cons c rest ih => simp [throughout, Throughout, Option.all_eq_true, ih]

theorem throughout_cons {P : Planner → Command → Prop} {c : Command} {cs : List Command}
    {p q : Planner} {reply : Reply} (done : perform c p = .done reply q) :
    Throughout P (c :: cs) p ↔ P p c ∧ Throughout P cs q := by
  simp [Throughout, done, Outcome.success?]

theorem Throughout.imp {P Q : Planner → Command → Prop} (weaker : ∀ p c, P p c → Q p c)
    {cs : List Command} {p : Planner} (run : Throughout P cs p) : Throughout Q cs p := by
  induction cs generalizing p with
  | nil => trivial
  | cons c rest ih => exact ⟨weaker p c run.1, fun q next => ih (run.2 q next)⟩

/-- A property of each command and the state that it meets, in a run that goes on
after failures. -/
def Along (P : Planner → Command → Prop) : List Command → Planner → Prop
  | [], _ => True
  | c :: cs, p => P p c ∧ ∀ q ∈ (perform c p).state?, Along P cs q

def along (holds : Planner → Command → Bool) : List Command → Planner → Bool
  | [], _ => true
  | c :: cs, p => holds p c && (perform c p).state?.all (along holds cs)

theorem along_iff {P : Planner → Command → Prop} [∀ p c, Decidable (P p c)]
    {cs : List Command} {p : Planner} :
    along (fun p c => decide (P p c)) cs p = true ↔ Along P cs p := by
  induction cs generalizing p with
  | nil => simp [along, Along]
  | cons c rest ih => simp [along, Along, Option.all_eq_true, ih]

/-- What allowed commands keep, failing ones included, holds after a run. -/
theorem follow_induction (Inv : Planner → Prop) {Allowed : Planner → Command → Prop}
    {cs : List Command} {p q : Planner} (run : follow cs p = some q) (allowed : Along Allowed cs p)
    (first : Inv p)
    (step : ∀ p c q, Inv p → Allowed p c → (perform c p).state? = some q → Inv q) : Inv q := by
  induction cs generalizing p with
  | nil =>
    cases run
    exact first
  | cons c rest ih =>
    obtain ⟨middle, left, later⟩ := follow_cons.mp run
    exact ih later (allowed.2 middle left) (step p c middle first allowed.1 left)

section Invariants

variable {Base Inv : Planner → Prop} {Allowed : Planner → Command → Prop} {cs : List Command}
  {p q : Planner}

/-- What allowed commands keep holds in all states of a run, given what all
commands keep. -/
theorem throughout_of_invariant
    (base : ∀ p c reply q, Base p → perform c p = .done reply q → Base q)
    (step : ∀ p c reply q, Base p → Inv p → Allowed p c → perform c p = .done reply q → Inv q)
    (given : Base p) (first : Inv p) (run : succeed cs p = some q)
    (allowed : Throughout Allowed cs p) : Throughout (fun m _ => Inv m) cs p ∧ Inv q := by
  induction cs generalizing p with
  | nil =>
    cases run
    exact ⟨trivial, first⟩
  | cons c rest ih =>
    obtain ⟨middle, reply, done, later⟩ := succeed_cons.mp run
    rw [throughout_cons done] at allowed ⊢
    have next := step p c reply middle given first allowed.1 done
    obtain ⟨states, last⟩ := ih (base p c reply middle given done) next later allowed.2
    exact ⟨⟨first, states⟩, last⟩

/-- What exactly the allowed commands keep holds in all states of a run exactly
if all of its commands are allowed. -/
theorem throughout_iff_of_invariant
    (base : ∀ p c reply q, Base p → perform c p = .done reply q → Base q)
    (step : ∀ p c reply q, Base p → Inv p → perform c p = .done reply q → (Inv q ↔ Allowed p c))
    (given : Base p) (first : Inv p) (run : succeed cs p = some q) :
    (Throughout (fun m _ => Inv m) cs p ∧ Inv q) ↔ Throughout Allowed cs p := by
  constructor
  · intro ⟨states, last⟩
    induction cs generalizing p with
    | nil => trivial
    | cons c rest ih =>
      obtain ⟨middle, reply, done, later⟩ := succeed_cons.mp run
      rw [throughout_cons done] at states ⊢
      have next : Inv middle := by
        cases rest with
        | nil =>
          cases later
          exact last
        | cons => exact states.2.1
      have after := base p c reply middle given done
      exact ⟨(step p c reply middle given first done).mp next, ih after next later states.2⟩
  · apply throughout_of_invariant base _ given first run
    intro p c reply q given first allowed done
    exact (step p c reply q given first done).mpr allowed

theorem sound_of_done {c : Command} {reply : Reply} (sound : p.memory.Sound)
    (done : perform c p = .done reply q) : q.memory.Sound :=
  sound_perform sound (by rw [done]; rfl)

theorem throughout_of_step
    (step : ∀ p c reply q, p.memory.Sound → Inv p → Allowed p c → perform c p = .done reply q →
      Inv q)
    (sound : p.memory.Sound) (first : Inv p) (run : succeed cs p = some q)
    (allowed : Throughout Allowed cs p) : Throughout (fun m _ => Inv m) cs p ∧ Inv q :=
  throughout_of_invariant (fun _ _ _ _ => sound_of_done) step sound first run allowed

theorem throughout_iff_of_step
    (step : ∀ p c reply q, p.memory.Sound → Inv p → perform c p = .done reply q →
      (Inv q ↔ Allowed p c))
    (sound : p.memory.Sound) (first : Inv p) (run : succeed cs p = some q) :
    (Throughout (fun m _ => Inv m) cs p ∧ Inv q) ↔ Throughout Allowed cs p :=
  throughout_iff_of_invariant (fun _ _ _ _ => sound_of_done) step sound first run

end Invariants

end Planner

end VectorMemory
