import VectorMemory.Proofs.Pinned
import VectorMemory.Proofs.Rows

/-! The bytes of the constants mirror the memory that they are placed in. Nothing
is ever given back there, so constants are placed one behind the other, and
their bytes follow each other in the same order. -/
namespace VectorMemory

namespace FreePool

/-- Free are the addresses from `used` on. -/
def tail (capacity used : Nat) : FreePool :=
  ⟨if used < capacity then [⟨used, capacity - used⟩] else [], capacity - used⟩

theorem ofCapacity_eq_tail (capacity : Nat) : ofCapacity capacity = tail capacity 0 := by
  unfold ofCapacity tail
  cases capacity <;> rfl

theorem allocate_tail {capacity used count : Nat} {region : Region} {span : Span} {left : FreePool}
    (granted : (tail capacity used).allocate region count = .ok (span, left)) :
    span = .ofRuns [⟨region, used, count⟩] ∧ left = tail capacity (used + count) := by
  unfold allocate at granted
  split at granted
  · next none =>
    cases granted
    subst none
    exact ⟨rfl, rfl⟩
  · next some =>
    split at granted
    · cases granted
    · next fits =>
      replace fits : count ≤ capacity - used := Nat.le_of_not_lt fits
      have below : used < capacity := by omega
      -- there is a single gap, so the request is met from its front
      simp only [tail, if_pos below, takeFirstFit, if_pos fits] at granted
      cases granted
      refine ⟨rfl, ?_⟩
      by_cases more : count < capacity - used
      · simp [tail, remainder, if_pos more, show used + count < capacity by omega, Nat.sub_add_eq]
      · simp [tail, remainder, if_neg more, show ¬used + count < capacity by omega, Nat.sub_add_eq]

end FreePool

namespace Space

/-- Vectors have been given out from the lowest address on, and none come back. -/
def Stacked (s : Space) : Prop :=
  s.strategy = .heap (.tail s.capacity s.usage.used)

theorem Stacked.allocate {s t : Space} {count : Nat} {span : Span} (stacked : s.Stacked)
    (done : Space.allocate count s = .done span t) :
    span = .ofRuns [⟨s.region, s.usage.used, count⟩] ∧ t.Stacked ∧
      t.usage.used = s.usage.used + count := by
  obtain ⟨strategy, usage, placed, recorded, rfl⟩ := allocate_eq_done done
  have used := Usage.used_recordAllocation recorded
  unfold place at placed
  rw [show s.strategy = _ from stacked] at placed
  obtain ⟨⟨granted, left⟩, allocated, same⟩ := map_eq_ok.mp placed
  obtain ⟨rfl, rfl⟩ := FreePool.allocate_tail allocated
  cases same
  refine ⟨rfl, ?_, used⟩
  change Strategy.heap _ = Strategy.heap _
  rw [used]

end Space

theorem Span.first?_ofRuns {r : Run} {first : Location}
    (begins : (ofRuns [r]).first? = some first) :
    first = ⟨r.region, r.start⟩ ∧ (ofRuns [r]).isContiguous = true := by
  by_cases none : r.length = 0
  · simp [ofRuns, push, none, empty, first?] at begins
  · have single : ofRuns [r] = ⟨[r]⟩ := by simp [ofRuns, push, none, empty, joinLast]
    rw [single] at begins ⊢
    cases begins
    exact ⟨rfl, rfl⟩

theorem Tally.vectors_record {t u : Tally} {extent : Extent} (recorded : t.record extent = .ok u) :
    u.vectors = t.vectors + extent.vectors := by
  unfold Tally.record at recorded
  split at recorded
  · next none =>
    cases recorded
    rw [none, Nat.add_zero]
  · obtain ⟨_, -, recorded⟩ := bind_eq_ok.mp recorded
    obtain ⟨_, -, recorded⟩ := bind_eq_ok.mp recorded
    obtain ⟨_, added, recorded⟩ := bind_eq_ok.mp recorded
    obtain ⟨-, rfl⟩ := Word.add_eq_ok_iff.mp added
    cases recorded
    rfl

def Staging.Accepted (s : Staging) : Prop :=
  ∀ entry ∈ s.entries, entry.2.Accepted

namespace Planner

structure Block where
  object : Object
  tensor : Tensor

def Block.bytes (arch : Architecture) (b : Block) : Bytes :=
  arch.constantBytes b.tensor b.object.extent

def Block.Stands (arch : Architecture) (p : Planner) (b : Block) : Prop :=
  ∃ start before after, b.object.span = .ofRuns [⟨.dram1, start, b.object.extent.vectors⟩] ∧
    p.blob.bytes = before ++ b.bytes arch ++ after ∧ before.length = start * arch.vectorSize ∧
    (b.bytes arch).length = b.object.extent.vectors * arch.vectorSize

/-- The bytes of the constants are those of the blocks, in this order. -/
structure Mirrors (arch : Architecture) (p : Planner) (blocks : List Block) : Prop where
  lanes : 0 < arch.lanes
  format : p.arch = arch ∧ p.blob.arch = arch
  accepted : p.staging.Accepted
  stacked : (p.space .dram1).Stacked
  bytes : p.blob.bytes = blocks.flatMap (Block.bytes arch)
  size : p.blob.bytes.length = (p.space .dram1).usage.used * arch.vectorSize
  counted : p.tally.vectors = (p.space .dram1).usage.used
  standing : ∀ b ∈ blocks, b.Stands arch p ∧ p.memory.Retains b.object

variable {arch : Architecture} {p q : Planner} {blocks : List Block} {name : String}
  {requested : Option Extent} {cause : MemoryError} {o : Object} {tensor : Tensor} {bytes : Bytes}

def emission (name : String) (requested : Option Extent) (p : Planner) : List Block :=
  match constant name requested p with
  | .done o _ => if p.registry.has name then [] else (p.staging.find? name).toList.map (⟨o, ·⟩)
  | _ => []

theorem mem_of_find? {staging : Staging} (found : staging.find? name = some tensor) :
    (name, tensor) ∈ staging.entries := by
  obtain ⟨before, after, entries, -⟩ := List.lookup_eq_some_iff.mp found
  rw [entries]
  exact List.mem_append_right _ List.mem_cons_self

theorem Placed.steps {region : Region} (placed : Placed p region o q) (formed : p.memory.Formed) :
    Memory.Steps false p.memory q.memory := by
  obtain ⟨t, granted, same⟩ := placed.memory_eq
  have home : o.region = t.region := by
    rw [placed.home, (Space.allocate_grants (formed region).sound granted).shape.region,
      (formed region).home]
  rw [same]
  exact .single (.grow (.place granted placed.places home))

theorem Mirrors.encoded (mirrors : Mirrors arch p blocks)
    (emits : Emits p name requested tensor bytes o q) :
    bytes = Block.bytes arch ⟨o, tensor⟩ ∧ bytes.length = o.extent.vectors * arch.vectorSize := by
  obtain ⟨natural, replicated, measured, sized, encoded⟩ := emits.encoded
  rw [mirrors.format.1] at measured
  rw [mirrors.format.2] at encoded
  have accepted := mirrors.accepted _ (mem_of_find? emits.staged)
  exact Architecture.encodeConstant_eq_ok mirrors.lanes accepted measured sized encoded

theorem Block.Stands.append {b : Block} (stands : b.Stands arch p)
    (more : q.blob.bytes = p.blob.bytes ++ bytes) : b.Stands arch q := by
  obtain ⟨start, before, after, span, split, place, length⟩ := stands
  exact ⟨start, before, after ++ bytes, span, by rw [more, split, List.append_assoc], place, length⟩

theorem Mirrors.emit (mirrors : Mirrors arch p blocks) (sound : p.memory.Sound)
    (emits : Emits p name requested tensor bytes o q) :
    Mirrors arch q (blocks ++ [⟨o, tensor⟩]) := by
  obtain ⟨same, length⟩ := mirrors.encoded emits
  obtain ⟨middle, tally, placed, recorded, rfl⟩ := emits.result
  obtain ⟨t, granted, spaces⟩ := placed.granted
  obtain ⟨span, stacked, used⟩ := mirrors.stacked.allocate granted
  have here : middle.space .dram1 = t := by rw [spaces, Function.update_self]
  have home : (p.space .dram1).region = .dram1 := (sound.formed .dram1).home
  rw [home] at span
  rw [← here] at stacked used
  have architecture : middle.arch = p.arch := placed.rest .arch (by simp)
  have staging : middle.staging = p.staging := placed.rest .staging (by simp)
  have format := architecture.trans mirrors.format.1
  refine ⟨mirrors.lanes, ⟨format, mirrors.format.2⟩, ?_, stacked, ?_, ?_, ?_, ?_⟩
  · rw [show Planner.staging _ = _ from staging]
    exact mirrors.accepted
  · simp [mirrors.bytes, same]
  · change (p.blob.bytes ++ bytes).length = (middle.space .dram1).usage.used * _
    rw [List.length_append, mirrors.size, length, used, Nat.add_mul]
  · change tally.vectors = (middle.space .dram1).usage.used
    rw [Tally.vectors_record recorded, mirrors.counted, used]
  · intro b member
    rcases List.mem_append.mp member with old | new
    · obtain ⟨stands, retains⟩ := mirrors.standing b old
      exact ⟨stands.append rfl, retains.steps sound (placed.steps sound.formed)⟩
    · rw [List.mem_singleton.mp new]
      refine ⟨⟨_, p.blob.bytes, [], span, ?_, mirrors.size, same ▸ length⟩, ?_⟩
      · rw [List.append_nil, ← same]
      · exact placed.retains emits.pinned

theorem has_of_get (known : p.registry.get name = .ok o) : p.registry.has name = true := by
  unfold Registry.get at known
  unfold Registry.has
  cases named : p.registry.idOf? name with
  | none =>
    rw [named] at known
    cases known
  | some id => rfl

/-- A constant lies where its bytes go: the next vector and the next byte are counted by the
same number. -/
theorem Mirrors.not_misplaced (mirrors : Mirrors arch p blocks) (placed : Placed p .dram1 o q) :
    checkPosition o q ≠ .failed cause q := by
  intro misplaced
  obtain ⟨-, -, first, begins, elsewhere⟩ := checkPosition_eq_failed misplaced
  obtain ⟨t, granted, -⟩ := placed.granted
  obtain ⟨span, -, -⟩ := mirrors.stacked.allocate granted
  have architecture : q.arch = p.arch := placed.rest .arch (by simp)
  have blob : q.blob = p.blob := placed.rest .blob (by simp)
  rw [span] at begins elsewhere
  obtain ⟨rfl, contiguous⟩ := Span.first?_ofRuns begins
  have position : (p.space .dram1).usage.used * (q.arch.lanes * q.arch.format.byteSize) =
      q.blob.size := by
    rw [blob, architecture, mirrors.format.1]
    exact mirrors.size.symm
  exact elsewhere ⟨contiguous, position⟩

theorem Mirrors.checked (mirrors : Mirrors arch p blocks) (sound : p.memory.Sound)
    (failed : constant name requested p = .failed cause q) :
    (q = p ∧ cause.isLawful = true) ∨ ∃ l, cause = .claimed l := by
  rcases constant_eq_failed sound.formed failed with
    lawful | ⟨claimed, -⟩ | ⟨o, placed, -, misplaced⟩
  · exact .inl lawful
  · exact .inr claimed
  · exact absurd misplaced (mirrors.not_misplaced placed)

theorem Mirrors.constant (mirrors : Mirrors arch p blocks) (sound : p.memory.Sound)
    (left : (constant name requested p).left? MemoryError.isLawful = some q) :
    Mirrors arch q (blocks ++ emission name requested p) := by
  rcases Outcome.left?_eq_some.mp left with ⟨o, done⟩ | ⟨cause, failed, lawful⟩
  · rcases constant_eq_done sound.formed done with ⟨known, rfl⟩ | ⟨tensor, bytes, emits⟩
    · simpa [emission, done, has_of_get known] using mirrors
    · have placed : emission name requested p = [⟨o, tensor⟩] := by
        simp [emission, done, emits.unplaced, emits.staged]
      rw [placed]
      exact mirrors.emit sound emits
  · rcases mirrors.checked sound failed with ⟨rfl, -⟩ | ⟨l, rfl⟩
    · simpa [emission, failed] using mirrors
    · cases lawful

theorem sound_constant (sound : p.memory.Sound) (done : constant name requested p = .done o q) :
    q.memory.Sound := by
  have moves : (constant name requested).Keeps (admitted false)
      (Moves false (touches (.constant name requested))) :=
    moves_constant name requested (List.Subset.refl _)
  exact Moves.sound (moves.left p q (by rw [done]; rfl)) sound

def emissions (p : Planner) : Command → List Block
  | .constant name requested => emission name requested p
  | .weights name none => emission name none p
  | .weights name (some bias) =>
      emission name none p ++ (constant name none p).success?.elim [] (emission bias none)
  | _ => []

theorem Mirrors.checked_weights {bias : Option String} (mirrors : Mirrors arch p blocks)
    (sound : p.memory.Sound) (failed : weights name bias p = .failed cause q) :
    cause.isLawful = true ∨ ∃ l, cause = .claimed l := by
  rcases Action.bind_eq_failed.mp failed with first | ⟨w, middle, done, second⟩
  · exact (mirrors.checked sound first).imp_left And.right
  · cases bias with
    | none => cases second
    | some bias =>
      rcases Action.bind_eq_failed.mp second with refused | ⟨_, _, _, final⟩
      · have after := mirrors.constant sound (by rw [done]; rfl)
        exact (after.checked (sound_constant sound done) refused).imp_left And.right
      · cases final

theorem Mirrors.weights {bias : Option String} (mirrors : Mirrors arch p blocks)
    (sound : p.memory.Sound) (left : (weights name bias p).left? MemoryError.isLawful = some q) :
    Mirrors arch q (blocks ++ emissions p (.weights name bias)) := by
  have first (middle : Planner)
      (left : (Planner.constant name none p).left? MemoryError.isLawful = some middle) :
      Mirrors arch middle (blocks ++ emission name none p) := mirrors.constant sound left
  unfold Planner.weights at left
  rw [Action.bind_apply] at left
  cases ended : Planner.constant name none p with
  | fault cause =>
    rw [ended] at left
    cases left
  | failed cause middle =>
    -- then the bias is not looked at
    rw [ended] at left
    have after := first q (by rw [ended]; exact left)
    cases bias with
    | none => exact after
    | some bias => simpa [emissions, ended, Outcome.success?] using after
  | done w middle =>
    rw [ended] at left
    have after := first middle (by rw [ended]; rfl)
    cases bias with
    | none =>
      cases left
      exact after
    | some bias =>
      have second : (Planner.constant bias none middle).left? MemoryError.isLawful = some q := by
        rw [← left]
        exact Action.left?_bind_pure.symm
      have both := after.constant (sound_constant sound ended) second
      simpa [emissions, ended, Outcome.success?] using both

/-! ### Staging -/

def staged? : Command → Option Tensor
  | .stage _ tensor => some tensor
  | _ => none

def Fits (c : Command) : Prop :=
  ∀ tensor ∈ staged? c, tensor.Accepted

instance (c : Command) : Decidable (Fits c) :=
  inferInstanceAs (Decidable (∀ tensor ∈ staged? c, tensor.Accepted))

theorem accepted_put {staging : Staging} (accepted : staging.Accepted) (new : tensor.Accepted) :
    (staging.put name tensor).Accepted := by
  intro entry member
  rcases List.mem_cons.mp member with rfl | old
  · exact new
  · exact accepted entry (List.mem_filter.mp old).1

theorem stage_left (left : (stage name tensor p).state? = some q) :
    q.staging = p.staging ∨ q.staging = p.staging.put name tensor := by
  rcases Outcome.state?_eq_some.mp left with ⟨u, done⟩ | ⟨cause, failed⟩
  · obtain ⟨_, _, got, done⟩ := Action.bind_eq_done.mp done
    cases got
    obtain ⟨staging, _, added, done⟩ := Action.bind_eq_done.mp done
    obtain ⟨added, rfl⟩ := Action.ofResult_eq_done.mp added
    cases done
    unfold Staging.add at added
    split at added <;> cases added
    exact .inr rfl
  · rcases Action.bind_eq_failed.mp failed with got | ⟨_, _, got, failed⟩
    · cases got
    cases got
    rcases Action.bind_eq_failed.mp failed with refused | ⟨_, _, _, final⟩
    · obtain ⟨-, rfl⟩ := Action.ofResult_eq_failed.mp refused
      exact .inl rfl
    · cases final

theorem accepted_stage (accepted : p.staging.Accepted) (new : tensor.Accepted)
    (left : (stage name tensor p).state? = some q) : q.staging.Accepted := by
  rcases stage_left left with same | put
  · rwa [same]
  · rw [put]
    exact accepted_put accepted new

theorem accepted_step {c : Command} (accepted : p.staging.Accepted) (fits : Fits c)
    (left : (perform c p).state? = some q) : q.staging.Accepted := by
  cases c with
  | stage name tensor =>
    rw [perform, state?_replying] at left
    exact accepted_stage accepted (fits tensor rfl) left
  | stageScalars name shape scalars =>
    rw [perform, state?_replying] at left
    unfold stageScalars at left
    rw [Action.bind_apply] at left
    cases built : Tensor.ofScalars shape scalars with
    | error fault =>
      rw [built] at left
      cases left
    | ok result =>
      rw [built] at left
      cases result with
      | error cause =>
        cases left
        exact accepted
      | ok tensor => exact accepted_stage accepted (Tensor.accepted_of_ofScalars built) left
  | shareStaged name other =>
    cases left
    change (p.staging.share name other).Accepted
    unfold Staging.share
    cases found : p.staging.find? name with
    | none => exact accepted
    | some tensor => exact accepted_put accepted (accepted _ (mem_of_find? found))
  | _ =>
    have same : Part.Same .staging p q := same_of_perform left (by simp [touches])
    rwa [show q.staging = p.staging from same]

/-! ### Runs -/

/-- Failures included. -/
theorem Mirrors.frame {c : Command} (mirrors : Mirrors arch p blocks) (sound : p.memory.Sound)
    (fits : Fits c) (left : (perform c p).state? = some q)
    (outside : .space .dram1 ∉ touches c ∧ .blob ∉ touches c ∧ .tally ∉ touches c) :
    Mirrors arch q blocks := by
  have steps := steps_of_state sound left
  have architecture : Part.Same .arch p q := same_of_perform left (by cases c <;> simp [touches])
  have space : q.space .dram1 = p.space .dram1 := same_of_perform left outside.1
  have blob : q.blob = p.blob := same_of_perform left outside.2.1
  have tally : q.tally = p.tally := same_of_perform left outside.2.2
  refine ⟨mirrors.lanes, ?_, accepted_step mirrors.accepted fits left, ?_, ?_, ?_, ?_, ?_⟩
  · rw [show q.arch = p.arch from architecture, blob]
    exact mirrors.format
  · rw [space]
    exact mirrors.stacked
  · rw [blob]
    exact mirrors.bytes
  · rw [blob, space]
    exact mirrors.size
  · rw [tally, space]
    exact mirrors.counted
  · intro b member
    obtain ⟨stands, retains⟩ := mirrors.standing b member
    exact ⟨stands.append (by rw [blob, List.append_nil]), retains.steps sound steps⟩

theorem Mirrors.step {c : Command} (mirrors : Mirrors arch p blocks) (sound : p.memory.Sound)
    (fits : Fits c) (left : (perform c p).left? MemoryError.isLawful = some q) :
    Mirrors arch q (blocks ++ emissions p c) := by
  cases c with
  | constant name requested =>
    rw [perform, left?_replying] at left
    exact mirrors.constant sound left
  | weights name bias =>
    rw [perform, left?_replying] at left
    exact mirrors.weights sound left
  | _ =>
    have kept := mirrors.frame sound fits (Outcome.state?_of_left? left) (by simp [touches])
    simpa [emissions] using kept

def materialized : List Command → Planner → List Block
  | [], _ => []
  | c :: cs, p =>
      emissions p c ++ ((perform c p).left? MemoryError.isLawful).elim [] (materialized cs)

theorem Mirrors.lawful {cs : List Command} (mirrors : Mirrors arch p blocks)
    (sound : p.memory.Sound) (fits : ∀ c ∈ cs, Fits c) (run : lawful cs p = some q) :
    Mirrors arch q (blocks ++ materialized cs p) := by
  induction cs generalizing p blocks with
  | nil =>
    cases run
    simpa [materialized] using mirrors
  | cons c rest ih =>
    rw [List.forall_mem_cons] at fits
    obtain ⟨middle, left, later⟩ := lawful_cons.mp run
    have next := mirrors.step sound fits.1 left
    have after := sound_perform sound (Outcome.state?_of_left? left)
    rw [materialized, left, Option.elim_some, ← List.append_assoc]
    exact ih next after fits.2 later

theorem mirrors_start {config : Config} {recorder : Recorder}
    (started : start config recorder = .ok p) : Mirrors config.arch p [] := by
  obtain ⟨_, valid, made⟩ := bind_eq_ok.mp started
  cases made
  obtain ⟨_, lanes, -⟩ := bind_eq_ok.mp valid
  have positive : 0 < config.arch.lanes := by
    unfold Architecture.validate at lanes
    split at lanes
    · cases lanes
    · next some => exact Nat.pos_of_ne_zero some
  refine ⟨positive, ⟨rfl, rfl⟩, nofun, ?_, rfl, ?_, rfl, nofun⟩
  · exact congrArg Strategy.heap (FreePool.ofCapacity_eq_tail _)
  · exact (Nat.zero_mul _).symm

theorem Block.Stands.slice {b : Block} (stands : b.Stands arch p) :
    ∃ start, b.object.span = .ofRuns [⟨.dram1, start, b.object.extent.vectors⟩] ∧
      (p.blob.bytes.drop (start * arch.vectorSize)).take
        (b.object.extent.vectors * arch.vectorSize) = b.bytes arch := by
  obtain ⟨start, before, after, span, split, place, length⟩ := stands
  refine ⟨start, span, ?_⟩
  rw [split, List.append_assoc, ← place, List.drop_left, ← length, List.take_left]

/-- In a run that breaks no invariant and stages accepted tensors, the bytes of
the constants are the blocks of the constants placed, one behind the other: as
many vectors as are used, and each block where its object lies and stays. The
check of the position of a constant does not fail in the state reached. -/
theorem constants_mirrored {config : Config} {recorder : Recorder} {cs : List Command}
    (started : start config recorder = .ok p) (fits : ∀ c ∈ cs, Fits c)
    (run : lawful cs p = some q) :
    q.blob.bytes = (materialized cs p).flatMap (Block.bytes config.arch) ∧
    q.blob.bytes.length = (q.space .dram1).usage.used * config.arch.vectorSize ∧
    q.tally.vectors = (q.space .dram1).usage.used ∧
    (∀ b ∈ materialized cs p, q.Retains b.object ∧
      ∃ start, b.object.span = .ofRuns [⟨.dram1, start, b.object.extent.vectors⟩] ∧
        (q.blob.bytes.drop (start * config.arch.vectorSize)).take
          (b.object.extent.vectors * config.arch.vectorSize) = b.bytes config.arch) ∧
    (∀ name requested other l size q',
      constant name requested q ≠ .failed (.misplacedConstant other l size) q') ∧
    (∀ name bias other l size q',
      weights name bias q ≠ .failed (.misplacedConstant other l size) q') := by
  have first := sound_start started
  have sound := first.steps (steps_of_lawful first run)
  have mirrors := (mirrors_start started).lawful first fits run
  rw [List.nil_append] at mirrors
  refine ⟨mirrors.bytes, mirrors.size, mirrors.counted, ?_, ?_, ?_⟩
  · intro b member
    obtain ⟨stands, retains⟩ := mirrors.standing b member
    exact ⟨retains_of_memory sound retains, stands.slice⟩
  · intro name requested other l size q' failed
    rcases mirrors.checked sound failed with ⟨-, lawful⟩ | ⟨l, claimed⟩
    · cases lawful
    · cases claimed
  · intro name bias other l size q' failed
    rcases mirrors.checked_weights sound failed with lawful | ⟨l, claimed⟩
    · cases lawful
    · cases claimed

/-- A matrix of two rows with a bias that has no scalars, and a scalar that fills
two vectors; a request between them fails. -/
def furnished : List Command :=
  [.stage "w" ⟨[2, 3], .float32 [⟨1⟩, ⟨2⟩, ⟨3⟩, ⟨4⟩, ⟨5⟩, ⟨6⟩]⟩, .stage "e" ⟨[0], .float32 []⟩,
    .stageScalars "s" [] (.int32 [7]), .weights "w" (some "e"), .constant "w" none,
    .activation "a" ⟨1, 1⟩ [], .constant "unknown" none, .sweep, .constant "s" (some ⟨4, 2⟩)]

theorem constants_mirrored_furnished :
    ∃ p q, start ⟨⟨.float32, 2, 1, 8, 0⟩, []⟩ .silent = .ok p ∧ (∀ c ∈ furnished, Fits c) ∧
      lawful furnished p = some q ∧
      (materialized furnished p).map (fun b => (b.object.name, b.object.span)) =
        [("w", ⟨[⟨.dram1, 0, 4⟩]⟩), ("e", .empty), ("s", ⟨[⟨.dram1, 4, 2⟩]⟩)] ∧
      q.blob.bytes = (materialized furnished p).flatMap (Block.bytes ⟨.float32, 2, 1, 8, 0⟩) ∧
      q.blob.bytes.length = 48 ∧
      q.blob.bytes = [1, 2, 3, 0, 4, 5, 6, 0].flatMap (fun n => [n, 0, 0, 0]) ++
        (List.replicate 4 [0, 0, 224, 64]).flatten := by
  have computed : ((start ⟨⟨.float32, 2, 1, 8, 0⟩, []⟩ .silent).toOption.bind fun p =>
      (lawful furnished p).map fun q =>
        (decide (∀ c ∈ furnished, Fits c),
          (materialized furnished p).map (fun b => (b.object.name, b.object.span)),
          (q.space .dram1).usage.used, q.blob.bytes)) =
        some (true, [("w", ⟨[⟨.dram1, 0, 4⟩]⟩), ("e", .empty), ("s", ⟨[⟨.dram1, 4, 2⟩]⟩)], 6,
          [1, 2, 3, 0, 4, 5, 6, 0].flatMap (fun n => [n, 0, 0, 0]) ++
            (List.replicate 4 [0, 0, 224, 64]).flatten) := by
    decide +kernel
  obtain ⟨p, begun, left⟩ := Option.bind_eq_some_iff.mp computed
  obtain ⟨q, run, facts⟩ := Option.map_eq_some_iff.mp left
  obtain ⟨fit, rest⟩ := Prod.mk.inj facts
  obtain ⟨spans, rest⟩ := Prod.mk.inj rest
  obtain ⟨used, written⟩ := Prod.mk.inj rest
  have started := toOption_eq_some.mp begun
  have fits := of_decide_eq_true fit
  obtain ⟨bytes, size, -⟩ := constants_mirrored started fits run
  exact ⟨p, q, started, fits, run, spans, bytes, by rw [size, used]; rfl, written⟩

end Planner

end VectorMemory
