import VectorMemory.Proofs.Buffers
import VectorMemory.Proofs.Pinned

/-! The life of an object. Its id is new when it is registered and does not come
back once it is gone. In between, its description stays the same, consumers go
and sentinels come, and its storage passes to a blend that takes it over. -/
namespace VectorMemory

open Relation

/-- What commands make of an object while it is registered. -/
structure Object.Endures (a b : Object) : Prop extends Object.Alike a b where
  blendees : b.blendees = a.blendees
  retired : ∀ s ∈ b.consumers, isSentinel s = false → s ∈ a.consumers
  pinned : ∀ s ∈ a.consumers, isSentinel s = true → s ∈ b.consumers

theorem Object.Endures.refl (o : Object) : o.Endures o :=
  ⟨⟨rfl, rfl, rfl, rfl, rfl⟩, rfl, fun _ member _ => member, fun _ member _ => member⟩

theorem Object.Endures.trans {a b c : Object} (first : a.Endures b) (second : b.Endures c) :
    a.Endures c := by
  refine ⟨⟨?_, ?_, ?_, ?_, ?_⟩, ?_, ?_, ?_⟩
  · rw [second.id, first.id]
  · rw [second.name, first.name]
  · rw [second.extent, first.extent]
  · rw [second.region, first.region]
  · rw [second.span, first.span]
  · rw [second.blendees, first.blendees]
  · intro s member other
    exact first.retired s (second.retired s member other) other
  · intro s member sentinel
    exact second.pinned s (first.pinned s member sentinel) sentinel

namespace Memory

variable {leaky : Bool} {m m' : Memory} {i : ObjectId} {a b : Object}

theorem Steps.gone (steps : Steps leaky m m') (old : i < m.registry.nextId)
    (empty : m.registry.object? i = none) : m'.registry.object? i = none := by
  cases found : m'.registry.object? i with
  | none => rfl
  | some b =>
    obtain ⟨a, before, -⟩ := steps.views_before old ⟨b, found, rfl, rfl⟩
    rw [empty] at before
    cases before

theorem Step.endures (step : Step leaky m m') (before : m.registry.object? i = some a)
    (after : m'.registry.object? i = some b) : a.Endures b := by
  have unchanged (found : m.registry.object? i = some b) : a.Endures b := by
    rw [before] at found
    cases found
    exact .refl a
  cases step with
  | grow grows =>
    cases grows with
    | touch retired =>
      rw [retired.object, before, Option.map_some] at after
      cases after
      exact ⟨⟨rfl, rfl, rfl, rfl, rfl⟩, rfl, retired.others i a,
        fun s member sentinel => retired.sentinels i a s sentinel member⟩
    | take => exact unchanged after
    | place _ places =>
      rcases places.origin after with ⟨new, -⟩ | found
      · exact absurd new (Registry.object?_ne_nextId before)
      · exact unchanged found
  | blend blends =>
    rw [found_of_blend blends before] at after
    cases after
    split
    · exact ⟨⟨rfl, rfl, rfl, rfl, rfl⟩, rfl, fun _ member _ => member, fun _ member _ => member⟩
    · exact .refl a
  | drop _ drop => exact unchanged (drop.found_iff.mp after).2

theorem Steps.endures (steps : Steps leaky m m') (before : m.registry.object? i = some a)
    (after : m'.registry.object? i = some b) : a.Endures b := by
  induction steps generalizing b with
  | refl =>
    rw [before] at after
    cases after
    exact .refl a
  | @tail middle last steps step ih =>
    have old := Nat.lt_of_lt_of_le (Registry.lt_of_object? before) (Steps.nextId_le steps)
    cases between : middle.registry.object? i with
    | none =>
      rw [Steps.gone (.single step) old between] at after
      cases after
    | some x => exact (ih between).trans (step.endures between after)

theorem owned_of_growth (sound : m.Sound) (grows : ReflTransGen (Grows leaky) m m')
    (before : m.registry.object? i = some a) (after : m'.registry.object? i = some b) :
    b.owned = a.owned := by
  obtain ⟨x, found, same⟩ : ∃ x, m'.registry.object? i = some x ∧ x.owned = a.owned := by
    apply sound.grows_induction (fun m => ∃ x, m.registry.object? i = some x ∧ x.owned = a.owned)
      grows ⟨a, before, rfl⟩
    intro _ _ _ ⟨x, found, same⟩ step
    obtain ⟨consumers, later, -⟩ := step.found found
    exact ⟨_, later, same⟩
  rw [after] at found
  cases found
  exact same

end Memory

namespace Planner

variable {p q : Planner} {c : Command} {i : ObjectId} {a b : Object}

/-! ### Storage -/

def Absorbs (p : Planner) (c : Command) (o : Object) : Prop :=
  o.name ∈ blended c ∧ ∃ reply q, perform c p = .done reply q

theorem owned_of_blend {name : String} {extent : Extent} {consumers blendees : List String}
    {locations : List Location} {reply : Reply} (sound : p.memory.Sound)
    (done : perform (.blend name extent consumers blendees locations) p = .done reply q)
    (before : p.registry.object? i = some a) (after : q.registry.object? i = some b) :
    b.owned = if a.name ∈ blendees then .empty else a.owned := by
  obtain ⟨ids, o, named, blends, -⟩ := perform_blend_done sound.coherent done
  have inside : i ∈ ids ↔ a.name ∈ blendees := by
    rw [(Registry.blendeeIds_eq_ok named).2]
    constructor
    · intro ⟨n, member, resolved⟩
      obtain ⟨x, found, rfl⟩ := sound.coherent.idOf?_eq_some.mp resolved
      have found : p.registry.object? i = some x := found
      rw [before] at found
      cases found
      exact member
    · intro member
      exact ⟨a.name, member, sound.coherent.idOf?_eq_some.mpr ⟨a, before, rfl⟩⟩
  have found : p.memory.registry.object? i = some a := before
  rw [Memory.found_of_blend blends found] at after
  cases after
  by_cases member : a.name ∈ blendees <;> simp [inside, member, Registry.superseded]

theorem owned_of_drops {objects : List Object} (sound : p.memory.Sound)
    (drops : Memory.Drops p.memory objects q.memory) (before : p.registry.object? i = some a)
    (after : q.registry.object? i = some b) : b.owned = a.owned := by
  have found : p.registry.object? i = some b := ((drops.found_iff sound).mp after).1
  rw [before] at found
  cases found
  rfl

theorem owned_perform (sound : p.memory.Sound) (left : (perform c p).state? = some q)
    (before : p.registry.object? i = some a) (after : q.registry.object? i = some b) :
    (p.Absorbs c a → b.owned = .empty) ∧ (¬p.Absorbs c a → b.owned = a.owned) := by
  have kept (none : blended c = []) (same : b.owned = a.owned) :
      (p.Absorbs c a → b.owned = .empty) ∧ (¬p.Absorbs c a → b.owned = a.owned) := by
    refine ⟨fun absorbs => ?_, fun _ => same⟩
    have member := absorbs.1
    rw [none] at member
    cases member
  cases leaves_of_state sound left with
  | grow kind grows =>
    apply kept _ (Memory.owned_of_growth sound grows.1 before after)
    cases c with
    | blend | sweep => cases kind
    | _ => rfl
  | @blend _ _ _ blendees _ _ reply done =>
    have owned := owned_of_blend sound done before after
    constructor
    · intro absorbs
      have named : a.name ∈ blendees := absorbs.1
      rw [owned, if_pos named]
    · intro other
      have unnamed : a.name ∉ blendees := fun named => other ⟨named, reply, q, done⟩
      rw [owned, if_neg unnamed]
  | refuse failed =>
    rw [before] at after
    cases after
    refine ⟨fun ⟨_, reply, q', done⟩ => ?_, fun _ => rfl⟩
    rw [failed] at done
    cases done
  | sweep _ drops => exact kept rfl (owned_of_drops sound drops before after)

/-! ### Ids -/

/-- The objects that are registered in the second state only, in the order of
their slots. -/
def arrivals (p q : Planner) : List Object :=
  q.registry.objects.filter fun o => (p.registry.object? o.id).isNone

/-- The ids that commands give out, failures being passed over. -/
def issued : List Command → Planner → List ObjectId
  | [], _ => []
  | c :: cs, p =>
      match (perform c p).state? with
      | none => []
      | some q => (arrivals p q).map Object.id ++ issued cs q

theorem arrivals_between {o : Object} (sound : p.memory.Sound)
    (left : (perform c p).state? = some q) (arrived : o ∈ arrivals p q) :
    p.registry.nextId ≤ o.id ∧ o.id < q.registry.nextId := by
  obtain ⟨member, absent⟩ := List.mem_filter.mp arrived
  have after := sound_perform sound left
  have found : q.registry.object? o.id = some o := after.coherent.mem_objects.mp member
  refine ⟨?_, Registry.lt_of_object? found⟩
  apply Nat.le_of_not_lt
  intro old
  have empty := Option.isNone_iff_eq_none.mp absent
  have gone : q.registry.object? o.id = none := (steps_of_state sound left).gone old empty
  rw [gone] at found
  cases found

/-- Ids are given out in increasing order, from the next free slot on. -/
theorem issued_ordered (cs : List Command) (sound : p.memory.Sound) :
    (issued cs p).Pairwise (· < ·) ∧ ∀ i ∈ issued cs p, p.registry.nextId ≤ i := by
  induction cs generalizing p with
  | nil => exact ⟨.nil, by simp [issued]⟩
  | cons c rest ih =>
    rw [issued]
    cases left : (perform c p).state? with
    | none => exact ⟨.nil, by simp⟩
    | some q =>
      have after := sound_perform sound left
      obtain ⟨ordered, above⟩ := ih after
      have between := fun o => arrivals_between (o := o) sound left
      have growth : p.registry.nextId ≤ q.registry.nextId := (steps_of_state sound left).nextId_le
      constructor
      · rw [List.pairwise_append]
        refine ⟨?_, ordered, ?_⟩
        · exact List.pairwise_map.mpr (after.coherent.objects_ordered.filter _)
        · intro i member j later
          obtain ⟨o, arrived, rfl⟩ := List.mem_map.mp member
          exact Nat.lt_of_lt_of_le (between o arrived).2 (above j later)
      · intro i member
        rcases List.mem_append.mp member with member | later
        · obtain ⟨o, arrived, rfl⟩ := List.mem_map.mp member
          exact (between o arrived).1
        · exact Nat.le_trans growth (above i later)

/-- Ids are given out in increasing order, and the id of an object that is gone
leads nowhere for ever. An object that stays registered keeps its description,
gains no consumer but sentinels and loses no sentinel. It keeps its storage,
unless a blend takes it over: then nothing is left. -/
theorem object_life_cycle {config : Config} {recorder : Recorder} {p₀ p q : Planner}
    {cs : List Command} {c : Command} (started : start config recorder = .ok p₀)
    (run : follow cs p₀ = some p) (left : (perform c p).state? = some q) :
    (issued (cs ++ [c]) p₀).Pairwise (· < ·) ∧
    (∀ o ∈ p.registry.objects, q.registry.object? o.id = none →
      ∀ later q', follow later q = some q' → q'.registry.object? o.id = none) ∧
    ∀ i a b, p.registry.object? i = some a → q.registry.object? i = some b →
      a.Endures b ∧ (p.Absorbs c a → b.owned = .empty) ∧ (¬p.Absorbs c a → b.owned = a.owned) := by
  have sound := sound_follow (sound_start started) run
  have steps := steps_of_state sound left
  refine ⟨(issued_ordered _ (sound_start started)).1, ?_, ?_⟩
  · intro o member empty later q' follows
    have found : p.registry.object? o.id = some o := sound.coherent.mem_objects.mp member
    have old := Nat.lt_of_lt_of_le (Registry.lt_of_object? found) steps.nextId_le
    have onward := steps_of_follow (sound_perform sound left) follows
    exact onward.gone old empty
  · intro i a b before after
    exact ⟨steps.endures before after, owned_perform sound left before after⟩

/-- Two objects, one of which nobody consumes. -/
def crowd : List Command :=
  [.activation "a" ⟨2, 2⟩ [], .activation "b" ⟨1, 1⟩ ["x", "y"], .activation "b" ⟨1, 1⟩ [],
    .consume "b" ["y"]]

/-- An object is swept and another one takes its name and its vectors, but not its id. -/
def replaced : List Command :=
  crowd ++ [.sweep, .activation "a" ⟨2, 2⟩ []]

def takeover : Command :=
  .blend "c" ⟨1, 1⟩ [] ["b"] [⟨.dram0, 2⟩]

/-- The sweep empties a slot for good. Later a blend takes over what the other object owns. -/
theorem object_life_cycle_blended :
    ∃ p₀ p q p' q' a b, start ⟨⟨.float32, 1, 4, 0, 0⟩, []⟩ .silent = .ok p₀ ∧
      follow crowd p₀ = some p ∧ (perform .sweep p).state? = some q ∧
      p.registry.idOf? "a" = some 0 ∧ q.registry.object? 0 = none ∧
      (∀ later r, follow later q = some r → r.registry.object? 0 = none) ∧
      follow replaced p₀ = some p' ∧ (perform takeover p').state? = some q' ∧
      p'.registry.idOf? "a" = some 2 ∧ p'.registry.object? 1 = some a ∧
      q'.registry.object? 1 = some b ∧ a.owned = a.span ∧ a.Endures b ∧ b.owned = .empty ∧
      (issued (replaced ++ [takeover]) p₀).Pairwise (· < ·) := by
  have computed : ((start ⟨⟨.float32, 1, 4, 0, 0⟩, []⟩ .silent).toOption.bind fun p₀ =>
      (follow crowd p₀).bind fun p => (perform .sweep p).state?.bind fun q =>
        (follow replaced p₀).bind fun p' => (perform takeover p').result?.bind fun (_, q') =>
          (p.registry.object? 0).bind fun o => (p'.registry.object? 1).bind fun a =>
            (q'.registry.object? 1).map fun _ => (o.id, p.registry.idOf? "a",
              (q.registry.object? 0).isNone, p'.registry.idOf? "a", a.name,
              decide (a.owned = a.span))) =
      some (0, some 0, true, some 2, "b", true) := by decide +kernel
  obtain ⟨p₀, begun, left⟩ := Option.bind_eq_some_iff.mp computed
  obtain ⟨p, run, left⟩ := Option.bind_eq_some_iff.mp left
  obtain ⟨q, swept, left⟩ := Option.bind_eq_some_iff.mp left
  obtain ⟨p', run', left⟩ := Option.bind_eq_some_iff.mp left
  obtain ⟨⟨reply, q'⟩, served, left⟩ := Option.bind_eq_some_iff.mp left
  obtain ⟨o, found, left⟩ := Option.bind_eq_some_iff.mp left
  obtain ⟨a, before, left⟩ := Option.bind_eq_some_iff.mp left
  obtain ⟨b, after, facts⟩ := Option.map_eq_some_iff.mp left
  simp only [Prod.mk.injEq] at facts
  obtain ⟨id, first, emptied, second, named, whole⟩ := facts
  have started := toOption_eq_some.mp begun
  have emptied := Option.isNone_iff_eq_none.mp emptied
  obtain ⟨-, gone, -⟩ := object_life_cycle started run swept
  have forever := gone o (Registry.mem_objects.mpr ⟨0, found⟩) (id ▸ emptied)
  have done := Outcome.result?_eq_some.mp served
  have reached := Outcome.state?_eq_some.mpr (.inl ⟨reply, done⟩)
  obtain ⟨ordered, -, objects⟩ := object_life_cycle started run' reached
  obtain ⟨endures, absorbed, -⟩ := objects 1 a b before after
  have absorbs : p'.Absorbs takeover a := by
    refine ⟨?_, reply, q', done⟩
    rw [named]
    exact List.mem_singleton_self "b"
  exact ⟨p₀, p, q, p', q', a, b, started, run, swept, first, emptied, id ▸ forever, run', reached,
    second, before, after, of_decide_eq_true whole, endures, absorbed absorbs, ordered⟩

end Planner

end VectorMemory
