import VectorMemory.Proofs.Conservation
import VectorMemory.Proofs.LiveViews

/-! When a request for vectors is met. As long as blends keep to the vectors of
live blendees, live objects own what they show. The index then accepts whatever
the spaces give out, so a request fails only for its name or for want of room. -/
namespace VectorMemory

open Relation

namespace Space

variable {s t : Space} {count : Nat} {span : Span}

/-- Vectors may have been taken: what is missing has been counted. -/
structure Spends (s t : Space) : Prop where
  aggregate : t.usage.aggregate + t.available = s.usage.aggregate + s.available
  available : t.available ≤ s.available

theorem Spends.refl (s : Space) : Spends s s :=
  ⟨rfl, Nat.le_refl _⟩

theorem Spends.trans {u : Space} (first : Spends s t) (second : Spends t u) : Spends s u :=
  ⟨second.aggregate.trans first.aggregate, Nat.le_trans second.available first.available⟩

theorem Grants.spends (grants : Grants s count span t) : Spends s t := by
  have available := grants.available
  obtain ⟨-, usage⟩ := Usage.recordAllocation_eq_ok.mp grants.usage
  refine ⟨?_, by omega⟩
  rw [← usage]
  simp only
  omega

theorem allocate_of_available (fits : count ≤ s.available)
    (used : s.usage.used ≤ s.usage.aggregate)
    (aggregate : s.usage.aggregate + count < Word.limit)
    (allocations : s.usage.allocations + 1 < Word.limit) :
    ∃ span t, allocate count s = .done span t := by
  cases placed : s.place count with
  | error cause =>
    have short := (place_eq_error.mp placed).1
    omega
  | ok placement =>
    have recorded := Usage.recordAllocation_eq_ok.mpr ⟨⟨by omega, aggregate, allocations⟩, rfl⟩
    exact ⟨_, _, allocate_of_place placed recorded⟩

theorem Grants.stop_le (grants : Grants s count span t) {r : Run} (member : r ∈ span.runs) :
    r.stop ≤ s.capacity := by
  have positive : 0 < r.length := grants.proper r member
  have last : ⟨r.region, r.stop - 1⟩ ∈ span.toList := grants.proper.last_mem member
  have home : r.region = s.region := grants.within _ last
  rw [home] at last
  have taken := (grants.taken (r.stop - 1)).mpr (.inr last)
  have bound := taken.1
  rw [grants.shape.capacity] at bound
  omega

end Space

namespace Memory

variable {leaky : Bool} {m m' : Memory} {region : Region} {count : Nat} {span : Span} {t : Space}

/-! ### What the index accepts -/

theorem Backed.unclaimed (backed : m.Backed) (sound : m.Sound)
    (granted : Space.allocate count (m.space region) = .done span t) :
    ∀ l ∈ span.toList, ∀ e ∈ m.registry.index.entries, ¬e.Holds l := by
  intro l given e member holds
  obtain ⟨o, found, live, listed⟩ := (sound.coherent.entries e).mp member
  have shown : l ∈ o.span.toList := Entry.mem_of_listing_holds listed holds
  have owned := backed _ o found live shown
  exact (sound.formed.takes granted m.registry).fresh l given (sound.taken _ o found l owned)

theorem Backed.accepts (backed : m.Backed) (sound : m.Sound) {cause : MemoryError}
    (granted : Space.allocate count (m.space region) = .done span t) :
    m.registry.index.insert m.registry.nextId span ≠ .ok (.error cause) := by
  have grants := Space.allocate_grants (sound.formed region).sound granted
  exact AddressIndex.insert_ne_error_of_fresh sound.coherent.index grants.proper grants.nodup
    (backed.unclaimed sound granted)

/-! ### Counters -/

/-- A space has counted all vectors that are used, and every request that it met
has an object. -/
structure Counted (m : Memory) : Prop where
  used : ∀ region, (m.space region).usage.used ≤ (m.space region).usage.aggregate
  allocations : ∀ region, (m.space region).usage.allocations ≤ m.registry.nextId

theorem Counted.place {o : Object} {r : Registry} (counted : m.Counted) (formed : m.Formed)
    (granted : Space.allocate count (m.space region) = .done o.span t)
    (places : Registry.Places m.registry o r) :
    Counted ⟨Function.update m.space region t, r⟩ := by
  have grants := Space.allocate_grants (formed region).sound granted
  obtain ⟨-, usage⟩ := Usage.recordAllocation_eq_ok.mp grants.usage
  refine ⟨fun other => ?_, fun other => ?_⟩
  · have before := counted.used other
    dsimp only
    by_cases same : other = region
    · subst same
      rw [Function.update_self, ← usage]
      simp only
      omega
    · rwa [Function.update_of_ne same]
  · have before := counted.allocations other
    dsimp only
    rw [places.nextId]
    by_cases same : other = region
    · subst same
      rw [Function.update_self, ← usage]
      exact Nat.succ_le_succ before
    · rw [Function.update_of_ne same]
      exact Nat.le_succ_of_le before

theorem Counted.grow (counted : m.Counted) (sound : m.Sound) (backed : m.Backed)
    (grows : Grows leaky m m') : m'.Counted := by
  cases grows with
  | touch retired => exact ⟨counted.used, fun region => retired.nextId ▸ counted.allocations region⟩
  | take _ granted refused => exact absurd refused (backed.accepts sound granted)
  | place granted places => exact counted.place sound.formed granted places

theorem Counted.drops {objects : List Object} (counted : m.Counted) (drops : Drops m objects m') :
    m'.Counted := by
  induction drops with
  | nil => exact counted
  | @cons first middle _ o _ drop _ ih =>
    apply ih
    have slots : middle.registry.nextId = first.registry.nextId := by
      rw [drop.registry, Registry.nextId_without]
    refine ⟨fun region => ?_, fun region => ?_⟩
    · obtain ⟨vectors, usage⟩ := (drop.returns region).usage
      rw [usage]
      exact Nat.le_trans (Nat.sub_le _ _) (counted.used region)
    · obtain ⟨vectors, usage⟩ := (drop.returns region).usage
      rw [usage, slots]
      exact counted.allocations region

theorem Grows.spends (grows : Grows leaky m m') (formed : m.Formed) (other : Region) :
    (m.space other).Spends (m'.space other) := by
  cases grows with
  | touch => exact .refl _
  | @take region _ _ t _ _ granted | @place region _ _ t _ granted =>
    dsimp only
    by_cases same : other = region
    · subst same
      rw [Function.update_self]
      exact (Space.allocate_grants (formed other).sound granted).spends
    · rw [Function.update_of_ne same]
      exact .refl _

/-- Dropping objects gives vectors back, and counts none. -/
theorem Drops.restores {objects : List Object} (drops : Drops m objects m') (region : Region) :
    (m'.space region).usage.aggregate = (m.space region).usage.aggregate ∧
      (m.space region).available ≤ (m'.space region).available := by
  induction drops with
  | nil => exact ⟨rfl, Nat.le_refl _⟩
  | cons drop _ ih =>
    have returns := drop.returns region
    obtain ⟨vectors, usage⟩ := returns.usage
    refine ⟨?_, Nat.le_trans returns.available ih.2⟩
    rw [ih.1, usage]
    rfl

end Memory

namespace Planner

variable {p q : Planner} {c : Command} {region : Region} {name : String} {extent : Extent}
  {consumers : List String} {cause : MemoryError}

/-! ### Disciplined runs -/

/-- A blend names live objects and shows vectors of theirs. -/
def Disciplined (p : Planner) (c : Command) : Prop :=
  (∀ n ∈ blended c, ∃ o ∈ p.registry.objects, o.name = n ∧ o.supersededBy = none) ∧ p.Cites c

instance (p : Planner) (c : Command) : Decidable (p.Disciplined c) :=
  inferInstanceAs (Decidable ((∀ n ∈ blended c, ∃ o ∈ p.registry.objects, o.name = n ∧
    o.supersededBy = none) ∧ p.Cites c))

theorem Disciplined.draws (disciplined : p.Disciplined c) (coherent : p.registry.Coherent) :
    p.Draws c := by
  intro l shown
  obtain ⟨o, registered, named, seen⟩ := disciplined.2 l shown
  obtain ⟨b, live, same, unsuperseded⟩ := disciplined.1 o.name named
  rw [coherent.name_inj live registered same] at unsuperseded
  exact ⟨o, registered, named, .inl ⟨unsuperseded, seen⟩⟩

/-- What disciplined commands keep. -/
structure Tidy (p : Planner) : Prop extends Covered p where
  counted : p.memory.Counted

theorem tidy_start {config : Config} {recorder : Recorder}
    (started : start config recorder = .ok p) : p.Tidy := by
  refine ⟨covered_start started, ?_⟩
  obtain ⟨_, -, made⟩ := bind_eq_ok.mp started
  cases made
  refine ⟨fun region => ?_, fun region => ?_⟩ <;> cases region <;> exact Nat.le_refl 0

theorem Tidy.perform (tidy : p.Tidy) (disciplined : p.Disciplined c)
    (left : (perform c p).state? = some q) : q.Tidy := by
  have sound := tidy.sound
  refine ⟨tidy.toCovered.perform (disciplined.draws sound.coherent) left, ?_⟩
  cases leaves_of_state sound left with
  | grow _ grows =>
    have both : q.memory.Backed ∧ q.memory.Counted := by
      apply sound.grows_induction (fun m => m.Backed ∧ m.Counted) grows.1
        ⟨tidy.backed, tidy.counted⟩
      intro _ _ sound ⟨backed, counted⟩ step
      exact ⟨backed.grow step, counted.grow sound backed step⟩
    exact both.2
  | blend done =>
    obtain ⟨ids, o, -, blends, -, same, -⟩ := perform_blend_done sound.coherent done
    rw [same]
    refine ⟨tidy.counted.used, fun region => ?_⟩
    dsimp only
    rw [blends.nextId]
    exact Nat.le_succ_of_le (tidy.counted.allocations region)
  | refuse => exact tidy.counted
  | sweep _ drops => exact tidy.counted.drops drops

/-! ### Vectors ever taken -/

/-- The vectors of a region that commands take, failures being passed over. -/
def drawn (region : Region) : List Command → Planner → Nat
  | [], _ => 0
  | c :: cs, p =>
      match (perform c p).state? with
      | none => 0
      | some q => ((p.space region).available - (q.space region).available) + drawn region cs q

theorem aggregate_perform (sound : p.memory.Sound) (left : (perform c p).state? = some q)
    (region : Region) :
    (q.space region).usage.aggregate = (p.space region).usage.aggregate +
      ((p.space region).available - (q.space region).available) := by
  cases leaves_of_state sound left with
  | grow _ grows =>
    have spends : (p.space region).Spends (q.space region) := by
      apply sound.grows_induction (fun m => (p.space region).Spends (m.space region)) grows.1
        (.refl _)
      intro _ _ sound spends step
      exact spends.trans (step.spends sound.formed region)
    have aggregate := spends.aggregate
    have available := spends.available
    omega
  | blend done =>
    obtain ⟨ids, o, -, -, -, same, -⟩ := perform_blend_done sound.coherent done
    have spaces : q.space = p.space := congrArg Memory.space same
    rw [spaces]
    omega
  | refuse => omega
  | sweep _ drops =>
    obtain ⟨aggregate, available⟩ := drops.restores region
    have aggregate : (q.space region).usage.aggregate = (p.space region).usage.aggregate := aggregate
    have available : (p.space region).available ≤ (q.space region).available := available
    omega

theorem aggregate_follow {cs : List Command} (sound : p.memory.Sound) (run : follow cs p = some q)
    (region : Region) :
    (q.space region).usage.aggregate = (p.space region).usage.aggregate + drawn region cs p := by
  induction cs generalizing p with
  | nil =>
    cases run
    rfl
  | cons c rest ih =>
    obtain ⟨middle, left, later⟩ := follow_cons.mp run
    have step := aggregate_perform sound left region
    have rest := ih (sound_perform sound left) later
    simp only [drawn, left]
    omega

theorem aggregate_start {config : Config} {recorder : Recorder}
    (started : start config recorder = .ok p) (region : Region) :
    (p.space region).usage.aggregate = 0 := by
  obtain ⟨_, -, made⟩ := bind_eq_ok.mp started
  cases made
  cases region <;> rfl

/-! ### Requests -/

def asked : Command → Option (Region × String × Extent)
  | .activation name extent _ => some (.dram0, name, extent)
  | .scratch name extent _ => some (.scratch, name, extent)
  | .temp name extent _ => some (.temp, name, extent)
  | _ => none

theorem perform_of_asked (request : asked c = some (region, name, extent)) :
    ∃ consumers, perform c = replying .object (allocate region name extent consumers) := by
  cases c with
  | activation _ _ consumers | scratch _ _ consumers | temp _ _ consumers =>
    cases request
    exact ⟨consumers, rfl⟩
  | _ => cases request

theorem allocate_of_refusal
    (refused : Registry.allocate name extent consumers (p.space region, p.registry) =
      .failed cause (p.space region, p.registry)) :
    allocate region name extent consumers p = .failed cause p := by
  refine Action.bind_eq_failed.mpr (.inl (Action.zoom_eq_failed.mpr ⟨_, refused, ?_⟩))
  dsimp only
  rw [setSpace_registry, setSpace_self]

theorem allocate_of_registered (registered : p.registry.has name = true) :
    allocate region name extent consumers p = .failed (.duplicateName name) p :=
  allocate_of_refusal (Registry.allocate_eq_failed_iff.mpr (.inl ⟨rfl, registered, rfl, rfl⟩))

theorem allocate_of_full (formed : p.memory.Formed) (unnamed : p.registry.has name = false)
    (full : (p.space region).available < extent.vectors) :
    allocate region name extent consumers p =
      .failed (.outOfMemory region extent.vectors (p.space region).available) p := by
  have home : (p.space region).region = region := (formed region).home
  have refused := Space.allocate_of_refusal (Space.place_eq_error.mpr ⟨full, rfl⟩)
  rw [home] at refused
  exact allocate_of_refusal
    (Registry.allocate_eq_failed_iff.mpr (.inr ⟨unnamed, .inl ⟨refused, rfl⟩⟩))

/-- A request that fits is met, as long as all counters stay words. -/
theorem Tidy.allocate_done (tidy : p.Tidy) (unnamed : p.registry.has name = false)
    (fits : extent.vectors ≤ (p.space region).available)
    (capacity : (p.space region).capacity < Word.limit)
    (aggregate : (p.space region).usage.aggregate + extent.vectors < Word.limit)
    (slots : p.registry.nextId + 1 < Word.limit) :
    ∃ o q, allocate region name extent consumers p = .done o q := by
  have sound := tidy.sound
  have allocations := tidy.counted.allocations region
  obtain ⟨span, t, granted⟩ := Space.allocate_of_available fits (tidy.counted.used region)
    aggregate (Nat.lt_of_le_of_lt (Nat.succ_le_succ allocations) slots)
  have grants := Space.allocate_grants (sound.formed region).sound granted
  have length := grants.length
  obtain ⟨index, entered⟩ :
      ∃ index, p.registry.index.insert p.registry.nextId span = .ok (.ok index) := by
    apply AddressIndex.insert_of_fresh sound.coherent.index grants.proper grants.nodup
    · exact tidy.backed.unclaimed sound granted
    · exact fun r member => Nat.lt_of_le_of_lt (grants.stop_le member) capacity
    · omega
  obtain ⟨o, r, placed⟩ : ∃ o r,
      Registry.allocate name extent consumers (p.space region, p.registry) = .done o (t, r) :=
    ⟨_, _, Registry.allocate_eq_done_iff.mpr ⟨unnamed, span, granted, index, entered, rfl, rfl⟩⟩
  exact ⟨o, _, Action.bind_eq_done.mpr ⟨o, _, Action.zoom_eq_done.mpr ⟨_, placed, rfl⟩, rfl⟩⟩

theorem Tidy.allocate_cases (tidy : p.Tidy) (name : String) (consumers : List String)
    (capacity : (p.space region).capacity < Word.limit)
    (aggregate : (p.space region).usage.aggregate + extent.vectors < Word.limit)
    (slots : p.registry.nextId + 1 < Word.limit) :
    (p.registry.has name = true ∧
      allocate region name extent consumers p = .failed (.duplicateName name) p) ∨
    ((p.space region).available < extent.vectors ∧
      allocate region name extent consumers p =
        .failed (.outOfMemory region extent.vectors (p.space region).available) p) ∨
    ((p.registry.has name = false ∧ extent.vectors ≤ (p.space region).available) ∧
      ∃ o q, allocate region name extent consumers p = .done o q) := by
  cases named : p.registry.has name with
  | true => exact .inl ⟨rfl, allocate_of_registered named⟩
  | false =>
    rcases Nat.lt_or_ge (p.space region).available extent.vectors with full | fits
    · exact .inr (.inl ⟨full, allocate_of_full tidy.sound.formed named full⟩)
    · exact .inr (.inr ⟨⟨rfl, fits⟩, tidy.allocate_done named fits capacity aggregate slots⟩)

/-- After a disciplined run live objects own what they show, and a request for
vectors is met exactly if its name is new and the space has as many. Otherwise it
fails for its name or for want of room, and changes nothing. The depths of an
architecture and the number of slots are words. -/
theorem request_met_iff {config : Config} {recorder : Recorder} {cs : List Command}
    (started : start config recorder = .ok p) (run : follow cs p = some q)
    (disciplined : Along Disciplined cs p) :
    (∀ o ∈ q.registry.objects, o.supersededBy = none → o.span.toList ⊆ o.owned.toList) ∧
    ((∀ region, config.arch.depth region < Word.limit) → q.registry.nextId + 1 < Word.limit →
      ∀ c region name extent, asked c = some (region, name, extent) →
        drawn region cs p + extent.vectors < Word.limit →
        ((∃ o q', perform c q = .done (.object o) q') ↔
          (∀ o ∈ q.registry.objects, o.name ≠ name) ∧
            extent.vectors ≤ (q.space region).available) ∧
        ((∃ o q', perform c q = .done (.object o) q') ∨
          perform c q = .failed (.duplicateName name) q ∨
          perform c q = .failed
            (.outOfMemory region extent.vectors (q.space region).available) q)) := by
  have tidy : q.Tidy :=
    follow_induction Tidy run disciplined (tidy_start started) fun _ _ _ => Tidy.perform
  have coherent : q.registry.Coherent := tidy.sound.coherent
  refine ⟨fun o member live => ?_, fun depths slots c region name extent request bound => ?_⟩
  · exact tidy.backed o.id o (coherent.mem_objects.mp member) (isLive_iff.mpr live)
  · obtain ⟨consumers, same⟩ := perform_of_asked request
    have first := sound_start started
    have capacity : (q.space region).capacity = config.arch.depth region :=
      ((steps_of_follow first run).capacity first region).trans (capacity_start started region)
    have aggregate := aggregate_follow first run region
    rw [aggregate_start started, Nat.zero_add] at aggregate
    have unregistered : q.registry.has name = false ↔ ∀ o ∈ q.registry.objects, o.name ≠ name := by
      rw [coherent.has_eq_false]
      constructor
      · intro absent o member
        exact absent o.id o (coherent.mem_objects.mp member)
      · intro absent i o found
        exact absent o (Registry.mem_objects.mpr ⟨i, found⟩)
    rw [← unregistered, same]
    rcases tidy.allocate_cases name consumers (capacity ▸ depths region) (aggregate ▸ bound) slots with
      ⟨registered, failed⟩ | ⟨full, failed⟩ | ⟨met, o, q', done⟩
    · rw [replying_eq_failed.mpr failed, registered]
      exact ⟨by simp, .inr (.inl rfl)⟩
    · rw [replying_eq_failed.mpr failed]
      refine ⟨⟨fun ⟨_, _, done⟩ => ?_, fun ⟨_, fits⟩ => ?_⟩, .inr (.inr rfl)⟩
      · cases done
      · exact absurd fits (Nat.not_le.mpr full)
    · have success : ∃ o q', replying .object (allocate region name extent consumers) q =
          .done (.object o) q' := ⟨o, q', replying_eq_done.mpr ⟨o, done, rfl⟩⟩
      exact ⟨⟨fun _ => met, fun _ => success⟩, .inl success⟩

/-- A blend over live objects, a request that is refused, and a sweep. -/
def orderly : List Command :=
  [.activation "a" ⟨3, 3⟩ ["x"], .activation "d" ⟨2, 2⟩ [], .activation "a" ⟨1, 1⟩ [],
    .blend "b" ⟨2, 2⟩ ["x"] ["a"] [⟨.dram0, 2⟩, ⟨.dram0, 0⟩], .sweep, .activation "e" ⟨4, 4⟩ []]

theorem request_met_iff_orderly :
    ∃ p q, start ⟨⟨.float32, 1, 6, 0, 0⟩, []⟩ .silent = .ok p ∧ follow orderly p = some q ∧
      (q.space .dram0).available = 3 ∧
      (∃ o q', perform (.activation "f" ⟨3, 3⟩ []) q = .done (.object o) q') ∧
      ¬∃ o q', perform (.activation "f" ⟨4, 4⟩ []) q = .done (.object o) q' := by
  have computed : ((start ⟨⟨.float32, 1, 6, 0, 0⟩, []⟩ .silent).toOption.bind fun p =>
      (follow orderly p).map fun q =>
        (along (fun p c => decide (p.Disciplined c)) orderly p,
          decide ((∀ o ∈ q.registry.objects, o.name ≠ "f") ∧ (q.space .dram0).available = 3),
          decide (q.registry.nextId + 1 < Word.limit), drawn .dram0 orderly p)) =
            some (true, true, true, 5) := by decide +kernel
  obtain ⟨p, begun, left⟩ := Option.bind_eq_some_iff.mp computed
  obtain ⟨q, run, facts⟩ := Option.map_eq_some_iff.mp left
  obtain ⟨disciplined, facts⟩ := Prod.mk.inj facts
  obtain ⟨unnamed, facts⟩ := Prod.mk.inj facts
  obtain ⟨slots, taken⟩ := Prod.mk.inj facts
  have started := toOption_eq_some.mp begun
  obtain ⟨unnamed, available⟩ := of_decide_eq_true unnamed
  have depths : ∀ region, Architecture.depth ⟨.float32, 1, 6, 0, 0⟩ region < Word.limit := by
    intro region
    cases region <;> decide
  have met := (request_met_iff started run (along_iff.mp disciplined)).2 depths
    (of_decide_eq_true slots)
  have three := met (.activation "f" ⟨3, 3⟩ []) .dram0 "f" ⟨3, 3⟩ rfl (by rw [taken]; decide)
  have four := met (.activation "f" ⟨4, 4⟩ []) .dram0 "f" ⟨4, 4⟩ rfl (by rw [taken]; decide)
  refine ⟨p, q, started, run, available,
    three.1.mpr ⟨unnamed, Nat.le_of_eq available.symm⟩, fun success => ?_⟩
  have fits := (four.1.mp success).2
  rw [available] at fits
  exact absurd fits (by decide)

end Planner

end VectorMemory
