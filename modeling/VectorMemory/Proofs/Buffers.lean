import VectorMemory.Proofs.LiveViews
import VectorMemory.Proofs.Outputs

/-! Where the buffers of a program lie. An output is judged by its region, which
a blend has from the first of its blendees, whatever vectors it shows. -/
namespace VectorMemory

open Relation

namespace Span

def LiesIn (s : Span) (region : Region) : Prop :=
  ∀ r ∈ s.runs, r.region = region

instance (s : Span) (region : Region) : Decidable (s.LiesIn region) :=
  inferInstanceAs (Decidable (∀ r ∈ s.runs, r.region = region))

theorem Proper.liesIn_iff {s : Span} {region : Region} (proper : s.Proper) :
    s.LiesIn region ↔ ∀ l ∈ s.toList, l.region = region := by
  constructor
  · intro lies l inside
    obtain ⟨r, listed, here⟩ := mem_toList.mp inside
    rw [(Run.mem_toList.mp here).1]
    exact lies r listed
  · intro within r listed
    exact within _ (proper.start_mem listed)

end Span

namespace Memory

variable {leaky : Bool} {m m' : Memory} {i : ObjectId} {region : Region} {span : Span}

/-! ### Slots -/

theorem Step.nextId_le (step : Step leaky m m') : m.registry.nextId ≤ m'.registry.nextId := by
  cases step with
  | grow grows =>
    cases grows with
    | touch touched => exact Nat.le_of_eq touched.nextId.symm
    | take => exact Nat.le_refl _
    | place _ places => exact places.nextId ▸ Nat.le_succ _
  | blend blends => exact blends.nextId ▸ Nat.le_succ _
  | drop _ drop =>
    exact Nat.le_of_eq (by rw [drop.registry, Registry.nextId_without])

theorem Step.views_before (step : Step leaky m m') (old : i < m.registry.nextId)
    (views : m'.Views i region span) : m.Views i region span := by
  obtain ⟨x, found, same⟩ := views
  have notNew : i ≠ m.registry.nextId := Nat.ne_of_lt old
  cases step with
  | grow grows =>
    cases grows with
    | touch touched =>
      obtain ⟨y, before, rfl⟩ := touched.object?_eq_some found
      exact ⟨y, before, same⟩
    | take => exact ⟨x, found, same⟩
    | place _ places =>
      rcases places.origin found with ⟨new, -⟩ | before
      · exact absurd new notNew
      · exact ⟨x, before, same⟩
  | blend blends =>
    rcases blends.object?_cases found with ⟨new, -⟩ | ⟨y, before, ⟨-, rfl⟩ | ⟨-, rfl⟩⟩
    · exact absurd new notNew
    · exact ⟨y, before, same⟩
    · exact ⟨x, before, same⟩
  | drop _ drop => exact ⟨x, (drop.found_iff.mp found).2, same⟩

theorem Steps.nextId_le (steps : Steps leaky m m') : m.registry.nextId ≤ m'.registry.nextId := by
  induction steps with
  | refl => exact Nat.le_refl _
  | tail _ step ih => exact Nat.le_trans ih step.nextId_le

theorem Steps.views_before (steps : Steps leaky m m') (old : i < m.registry.nextId)
    (views : m'.Views i region span) : m.Views i region span := by
  induction steps with
  | refl => exact views
  | tail steps step ih =>
    exact ih (step.views_before (Nat.lt_of_lt_of_le old (Steps.nextId_le steps)) views)

/-! ### Regions -/

def Tagged (m : Memory) (region : Region) : Prop :=
  ∀ i o, m.registry.object? i = some o → o.region = region → o.span.LiesIn region

theorem Tagged.grow (tagged : m.Tagged region) (sound : m.Sound) (grows : Grows leaky m m') :
    m'.Tagged region := by
  intro i x found home
  cases grows with
  | touch touched =>
    obtain ⟨y, before, rfl⟩ := touched.object?_eq_some found
    exact tagged i y before home
  | take => exact tagged i x found home
  | place allocated places here =>
    rcases places.origin found with ⟨-, rfl⟩ | before
    · have grants := Space.allocate_grants (sound.formed _).sound allocated
      rw [← home, here, grants.shape.region]
      exact places.proper.liesIn_iff.mpr grants.within
    · exact tagged i x before home

theorem Tagged.blend {ids : List ObjectId} {o : Object} {r : Registry} (tagged : m.Tagged region)
    (blends : Registry.Blends m.registry ids o r)
    (uniform : o.region = region → ∀ l ∈ o.span.toList, l.region = region) :
    Tagged ⟨m.space, r⟩ region := by
  intro i x found home
  rcases blends.object?_cases found with ⟨-, rfl⟩ | ⟨y, before, ⟨-, rfl⟩ | ⟨-, rfl⟩⟩
  · exact blends.proper.liesIn_iff.mpr (uniform home)
  · exact tagged i y before home
  · exact tagged i x before home

theorem Tagged.drops {objects : List Object} (tagged : m.Tagged region) (sound : m.Sound)
    (drops : Drops m objects m') : m'.Tagged region := by
  intro i x found home
  exact tagged i x ((drops.found_iff sound).mp found).1 home

end Memory

namespace Planner

variable {p q : Planner} {c : Command} {reply : Reply}

def rows (p : Planner) : List (String × ObjectId) :=
  p.inputs ++ p.outputs

/-- All inputs and outputs lie in the first off-chip memory. -/
def Listed (p : Planner) : Prop :=
  ∀ b ∈ p.inputBuffers ++ p.outputBuffers, b.span.LiesIn .dram0

instance (p : Planner) : Decidable p.Listed :=
  inferInstanceAs (Decidable (∀ b ∈ p.inputBuffers ++ p.outputBuffers, b.span.LiesIn .dram0))

/-- An output that is pinned where it is lies in the first off-chip memory. -/
def Sited (p : Planner) : Command → Prop
  | .output name => ∀ o ∈ (p.registry.get name).toOption, o.region = .dram0 → o.span.LiesIn .dram0
  | _ => True

/-- A blend for the first off-chip memory shows no other vectors. -/
def Uniform (p : Planner) (c : Command) : Prop :=
  ∀ ids ∈ (p.registry.blendeeIds (blended c)).toOption,
    p.registry.blendRegion? ids (shown c) = some .dram0 → ∀ l ∈ shown c, l.region = .dram0

instance (p : Planner) (c : Command) : Decidable (p.Uniform c) :=
  inferInstanceAs (Decidable (∀ ids ∈ (p.registry.blendeeIds (blended c)).toOption,
    p.registry.blendRegion? ids (shown c) = some .dram0 → ∀ l ∈ shown c, l.region = .dram0))

def Filed (p : Planner) : Prop :=
  ∀ row ∈ p.rows, row.2 < p.registry.nextId

theorem listed_iff : p.Listed ↔ ∀ row ∈ p.rows, ∀ region span,
    p.memory.Views row.2 region span → span.LiesIn .dram0 := by
  unfold Listed inputBuffers outputBuffers buffers
  rw [← List.filterMap_append]
  constructor
  · rintro listed row member region span ⟨o, found, -, rfl⟩
    apply listed ⟨row.1, o.region, o.span⟩
    exact List.mem_filterMap.mpr ⟨row, member, Option.map_eq_some_iff.mpr ⟨o, found, rfl⟩⟩
  · intro within b member
    obtain ⟨row, listed, made⟩ := List.mem_filterMap.mp member
    obtain ⟨o, found, rfl⟩ := Option.map_eq_some_iff.mp made
    exact within row listed o.region o.span ⟨o, found, rfl, rfl⟩

theorem Placed.liesIn {region : Region} {o : Object} (placed : Placed p region o q)
    (formed : p.memory.Formed) : o.span.LiesIn region :=
  placed.places.proper.liesIn_iff.mpr (placed.within formed)

theorem rows_of_input {name : String} {extent : Extent} {consumers : List String} {o : Object}
    (sound : p.memory.Sound) (done : input name extent consumers p = .done o q) :
    (∀ row, row ∈ q.rows ↔ row ∈ p.rows ∨ row = (name, o.id)) ∧
      q.registry.object? o.id = some o ∧ o.span.LiesIn .dram0 := by
  obtain ⟨middle, placed, rfl, -, -⟩ := input_eq_done sound.formed done
  have outputs : middle.outputs = p.outputs := placed.rest .outputs (by simp)
  refine ⟨fun row => ?_, placed.found, placed.liesIn sound.formed⟩
  simp [rows, outputs, or_assoc, or_comm]

theorem rows_of_output {name : String} {placement : Placement} (sound : p.memory.Sound)
    (done : output name p = .done placement q) :
    (∀ row, row ∈ q.rows ↔ row ∈ p.rows ∨ row = (name, placement.object.id)) ∧
      (placement.object.span.LiesIn .dram0 ↔ p.Sited (.output name)) := by
  obtain ⟨produced, named, ⟨home, rfl, rfl⟩ | ⟨o, middle, home, rfl, placed, rfl, -, -⟩⟩ :=
    output_cases sound.formed done
  · refine ⟨fun row => ?_, ?_⟩
    · simp [rows, addOutput, Object.pin, or_assoc]
    · simp [Sited, named, home, Object.pin, Except.toOption]
  · have inputs : middle.inputs = p.inputs := placed.rest .inputs (by simp)
    have outputs : middle.outputs = p.outputs := placed.rest .outputs (by simp)
    refine ⟨fun row => ?_, ?_⟩
    · simp [rows, addOutput, inputs, outputs, or_assoc]
    · simp [Sited, named, home, placed.liesIn sound.formed, Except.toOption]

/-- A command enters no row, or one for an object that lies in the first
off-chip memory exactly if the command is sited. -/
theorem rows_step (sound : p.memory.Sound) (done : perform c p = .done reply q) :
    (q.rows = p.rows ∧ p.Sited c) ∨
      ∃ name o, (∀ row, row ∈ q.rows ↔ row ∈ p.rows ∨ row = (name, o.id)) ∧
        q.registry.object? o.id = some o ∧ (o.span.LiesIn .dram0 ↔ p.Sited c) := by
  have left : (perform c p).state? = some q := by rw [done]; rfl
  cases c with
  | input name extent consumers =>
    obtain ⟨o, entered, rfl⟩ := replying_eq_done.mp done
    obtain ⟨members, found, lies⟩ := rows_of_input sound entered
    exact .inr ⟨name, o, members, found, iff_of_true lies trivial⟩
  | output name =>
    obtain ⟨placement, put, rfl⟩ := replying_eq_done.mp done
    obtain ⟨members, sited⟩ := rows_of_output sound put
    exact .inr ⟨name, placement.object, members, (output_eq_done sound put).2.1, sited⟩
  | _ =>
    have inputs : Part.Same .inputs p q := same_of_perform left (by simp [touches])
    have outputs : Part.Same .outputs p q := same_of_perform left (by simp [touches])
    exact .inl ⟨congrArg₂ _ inputs outputs, trivial⟩

theorem filed_step (sound : p.memory.Sound) (filed : p.Filed) (done : perform c p = .done reply q) :
    q.Filed := by
  have more := Memory.Steps.nextId_le (steps_of_done sound done)
  have old : ∀ row ∈ p.rows, row.2 < q.registry.nextId := fun row member =>
    Nat.lt_of_lt_of_le (filed row member) more
  rcases rows_step sound done with ⟨same, -⟩ | ⟨name, o, members, found, -⟩
  · rwa [Filed, same]
  · intro row member
    rcases (members row).mp member with before | rfl
    · exact old row before
    · exact Registry.lt_of_object? found

theorem listed_step_iff (sound : p.memory.Sound) (filed : p.Filed) (listed : p.Listed)
    (done : perform c p = .done reply q) : q.Listed ↔ p.Sited c := by
  rw [listed_iff] at listed ⊢
  have steps := steps_of_done sound done
  -- slots are not used twice, so what an old row shows it showed before
  have old : ∀ row ∈ p.rows, ∀ region span, q.memory.Views row.2 region span → span.LiesIn .dram0 :=
    fun row member region span views =>
      listed row member region span (steps.views_before (filed row member) views)
  rcases rows_step sound done with ⟨same, sited⟩ | ⟨name, o, members, found, lies⟩
  · rw [same]
    exact iff_of_true old sited
  · rw [← lies]
    constructor
    · intro within
      exact within _ ((members _).mpr (.inr rfl)) o.region o.span ⟨o, found, rfl, rfl⟩
    · intro inside row member region span views
      rcases (members row).mp member with before | rfl
      · exact old row before region span views
      · obtain ⟨x, here, -, rfl⟩ := views
        have same : x = o := Option.some.inj (here.symm.trans found)
        exact same ▸ inside

theorem tagged_step (sound : p.memory.Sound) (tagged : p.memory.Tagged .dram0)
    (uniform : p.Uniform c) (done : perform c p = .done reply q) : q.memory.Tagged .dram0 := by
  cases effect_of_done sound done with
  | grow _ grows =>
    exact sound.grows_induction (·.Tagged .dram0) grows.1 tagged fun _ _ sound tagged step =>
      tagged.grow sound step
  | blend _ blends view same _ named =>
    rw [same]
    apply tagged.blend blends
    intro home
    have region := blends.region
    rw [view, home] at region
    rw [view]
    exact uniform _ (toOption_eq_some.mpr named) region
  | sweep drops => exact tagged.drops sound drops

theorem sited_of_tagged (sound : p.memory.Sound) (tagged : p.memory.Tagged .dram0) (c : Command) :
    p.Sited c := by
  cases c with
  | output name =>
    intro o known home
    have found := (sound.coherent.get_eq_ok.mp (toOption_eq_some.mp known)).1
    exact tagged _ o found home
  | _ => trivial

theorem sited_of_uniform {cs : List Command} (sound : p.memory.Sound)
    (tagged : p.memory.Tagged .dram0) (run : succeed cs p = some q)
    (uniform : Throughout Uniform cs p) : Throughout Sited cs p := by
  have step : ∀ p c reply q, p.memory.Sound → p.memory.Sound ∧ p.memory.Tagged .dram0 →
      p.Uniform c → perform c p = .done reply q → q.memory.Sound ∧ q.memory.Tagged .dram0 := by
    intro p c reply q sound ⟨_, tagged⟩ uniform done
    exact ⟨sound_of_done sound done, tagged_step sound tagged uniform done⟩
  have states := (throughout_of_step step sound ⟨sound, tagged⟩ run uniform).1
  exact states.imp fun p c kept => sited_of_tagged kept.1 kept.2 c

/-- In a run all inputs and outputs lie in the first off-chip memory exactly while
no output is pinned where it is that lies elsewhere. This is so if no blend for
that memory shows vectors of another one. -/
theorem buffers_listed_iff {config : Config} {recorder : Recorder} {p q : Planner}
    {cs : List Command} (started : start config recorder = .ok p) (run : succeed cs p = some q) :
    ((Throughout (fun s _ => s.Listed) cs p ∧ q.Listed) ↔ Throughout Sited cs p) ∧
      (Throughout Uniform cs p → Throughout Sited cs p) := by
  have sound := sound_start started
  obtain ⟨_, -, made⟩ := bind_eq_ok.mp started
  cases made
  constructor
  · apply @throughout_iff_of_invariant (fun s => s.memory.Sound ∧ s.Filed)
    · intro p c reply q ⟨sound, filed⟩ done
      exact ⟨sound_of_done sound done, filed_step sound filed done⟩
    · intro p c reply q ⟨sound, filed⟩ listed done
      exact listed_step_iff sound filed listed done
    · exact ⟨sound, nofun⟩
    · exact nofun
    · exact run
  · apply sited_of_uniform sound _ run
    intro i o found
    simp [memory, Registry.empty, Registry.object?] at found

/-- An input, a blend over it, and a result that was left on chip. -/
def exported : List Command :=
  [.input "x" ⟨1, 1⟩ [], .activation "a" ⟨2, 2⟩ [], .scratch "s" ⟨1, 1⟩ [],
    .blend "v" ⟨2, 2⟩ [] ["a", "x"] [⟨.dram0, 2⟩, ⟨.dram0, 0⟩], .output "v", .output "s", .sweep]

theorem buffers_listed_iff_exported :
    ∃ p q, start ⟨⟨.float32, 1, 4, 0, 1⟩, []⟩ .silent = .ok p ∧ succeed exported p = some q ∧
      q.outputBuffers.map Buffer.span =
        [⟨[⟨.dram0, 2, 1⟩, ⟨.dram0, 0, 1⟩]⟩, ⟨[⟨.dram0, 3, 1⟩]⟩] ∧ q.Listed := by
  have computed : ((start ⟨⟨.float32, 1, 4, 0, 1⟩, []⟩ .silent).toOption.bind fun p =>
      (succeed exported p).map fun q =>
        (throughout (fun p c => decide (p.Uniform c)) exported p,
          q.outputBuffers.map Buffer.span)) =
        some (true, [⟨[⟨.dram0, 2, 1⟩, ⟨.dram0, 0, 1⟩]⟩, ⟨[⟨.dram0, 3, 1⟩]⟩]) := by decide +kernel
  obtain ⟨p, begun, left⟩ := Option.bind_eq_some_iff.mp computed
  obtain ⟨q, run, both⟩ := Option.map_eq_some_iff.mp left
  obtain ⟨uniform, spans⟩ := Prod.mk.inj both
  have started := toOption_eq_some.mp begun
  obtain ⟨listed, sited⟩ := buffers_listed_iff started run
  exact ⟨p, q, started, run, spans, (listed.mpr (sited (throughout_iff.mp uniform))).2⟩

/-- A blend over an object in the first off-chip memory and one on chip. It is
taken to lie in the first, and so is pinned as an output where it is. -/
theorem output_on_chip : ∃ p q, start ⟨⟨.float32, 1, 3, 0, 1⟩, []⟩ .silent = .ok p ∧
    succeed [.activation "a" ⟨1, 1⟩ [], .scratch "s" ⟨1, 1⟩ [],
      .blend "b" ⟨2, 2⟩ [] ["a", "s"] [⟨.dram0, 0⟩, ⟨.scratch, 0⟩], .output "b"] p = some q ∧
    q.outputBuffers = [⟨"b", .dram0, ⟨[⟨.dram0, 0, 1⟩, ⟨.scratch, 0, 1⟩]⟩⟩] ∧ ¬q.Listed := by
  have computed : ((start ⟨⟨.float32, 1, 3, 0, 1⟩, []⟩ .silent).toOption.bind fun p =>
      (succeed [.activation "a" ⟨1, 1⟩ [], .scratch "s" ⟨1, 1⟩ [],
        .blend "b" ⟨2, 2⟩ [] ["a", "s"] [⟨.dram0, 0⟩, ⟨.scratch, 0⟩], .output "b"] p).map fun q =>
          (q.outputBuffers, decide q.Listed)) =
        some ([⟨"b", .dram0, ⟨[⟨.dram0, 0, 1⟩, ⟨.scratch, 0, 1⟩]⟩⟩], false) := by decide +kernel
  obtain ⟨p, begun, left⟩ := Option.bind_eq_some_iff.mp computed
  obtain ⟨q, run, facts⟩ := Option.map_eq_some_iff.mp left
  obtain ⟨buffers, elsewhere⟩ := Prod.mk.inj facts
  exact ⟨p, q, toOption_eq_some.mp begun, run, buffers, of_decide_eq_false elsewhere⟩

end Planner

end VectorMemory
