import VectorMemory.Space
import VectorMemory.Proofs.FreePool

/-! What a space gives out and takes back. An address of a space is taken if it
has been given out and not come back; taking and freeing move exactly the
addresses of the spans involved. -/
namespace VectorMemory

theorem Usage.recordAllocation_eq_ok {u v : Usage} {vectors : Nat} :
    u.recordAllocation vectors = .ok v ↔
      (u.used + vectors < Word.limit ∧ u.aggregate + vectors < Word.limit ∧
        u.allocations + 1 < Word.limit) ∧
      { u with
        used := u.used + vectors
        aggregate := u.aggregate + vectors
        allocations := u.allocations + 1
        peak := max u.peak (u.used + vectors) } = v := by
  simp [recordAllocation, bind_eq_ok, Word.add_eq_ok_iff, and_assoc, pure, Except.pure]

theorem Usage.used_recordAllocation {u v : Usage} {vectors : Nat}
    (recorded : u.recordAllocation vectors = .ok v) : v.used = u.used + vectors := by
  obtain ⟨-, rfl⟩ := recordAllocation_eq_ok.mp recorded
  rfl

theorem Usage.recordFree_recordFree (u : Usage) (n k : Nat) :
    (u.recordFree n).recordFree k = u.recordFree (n + k) := by
  simp [recordFree, Nat.sub_sub]

namespace Space

/-- The address is in the free pool. An arena has none. -/
def Free (s : Space) (a : Nat) : Prop :=
  ∃ pool ∈ s.pool?, pool.Free a

instance (s : Space) (a : Nat) : Decidable (s.Free a) :=
  inferInstanceAs (Decidable (∃ pool ∈ s.pool?, pool.Free a))

def Taken (s : Space) (a : Nat) : Prop :=
  a < s.capacity ∧
    match s.strategy with
    | .arena cursor => a < cursor
    | .heap free => ¬free.Free a

/-- The invariant of a space. What is not free in a heap is counted as used. -/
def Sound (s : Space) : Prop :=
  match s.strategy with
  | .arena cursor => cursor ≤ s.capacity
  | .heap free => free.Sound ∧ (∀ a, free.Free a → a < s.capacity) ∧
      s.usage.used + free.total = s.capacity

theorem sound_arena (region : Region) : (arena region).Sound :=
  Nat.zero_le _

theorem sound_heap (region : Region) (capacity : Nat) : (heap region capacity).Sound :=
  ⟨FreePool.sound_ofCapacity capacity, fun _ free => FreePool.free_ofCapacity.mp free,
    Nat.zero_add capacity⟩

theorem Taken.not_free {s : Space} {a : Nat} (taken : s.Taken a) : ¬s.Free a := by
  unfold Taken at taken
  unfold Free pool?
  cases strategy : s.strategy with
  | arena cursor => simp
  | heap free =>
    rw [strategy] at taken
    simpa using taken.2

theorem Sound.pool {s : Space} (sound : s.Sound) (heap : s.isHeap = true) :
    ∃ pool, s.pool? = some pool ∧ pool.Sound ∧ s.usage.used + pool.total = s.capacity ∧
      ∀ a, a < s.capacity ↔ pool.Free a ∨ s.Taken a := by
  unfold Sound at sound
  cases strategy : s.strategy with
  | arena cursor => simp [isHeap, strategy] at heap
  | heap pool =>
    rw [strategy] at sound
    obtain ⟨poolSound, bounded, counted⟩ := sound
    refine ⟨pool, by simp [pool?, strategy], poolSound, counted, fun a => ?_⟩
    have bound := bounded a
    simp only [Taken, strategy]
    by_cases free : pool.Free a <;> simp_all

/-- What stays the same of a space, whatever is taken from it or given back. -/
structure SameShape (s t : Space) : Prop where
  region : t.region = s.region
  capacity : t.capacity = s.capacity
  isHeap : t.isHeap = s.isHeap

theorem SameShape.refl (s : Space) : SameShape s s :=
  ⟨rfl, rfl, rfl⟩

theorem SameShape.trans {s t u : Space} (first : SameShape s t) (second : SameShape t u) :
    SameShape s u :=
  ⟨second.region.trans first.region, second.capacity.trans first.capacity,
    second.isHeap.trans first.isHeap⟩

/-- A successful request: the span given out, and the space after it. -/
structure Grants (s : Space) (count : Nat) (span : Span) (t : Space) : Prop where
  sound : t.Sound
  shape : SameShape s t
  proper : span.Proper
  nodup : span.toList.Nodup
  within : ∀ l ∈ span.toList, l.region = s.region
  length : span.toList.length = count
  fresh : ∀ l ∈ span.toList, ¬s.Taken l.address
  taken : ∀ a, t.Taken a ↔ s.Taken a ∨ ⟨s.region, a⟩ ∈ span.toList
  free : ∀ a, t.Free a ↔ s.Free a ∧ ⟨s.region, a⟩ ∉ span.toList
  available : t.available + count = s.available
  usage : s.usage.recordAllocation count = .ok t.usage

theorem allocate_eq_done {s t : Space} {count : Nat} {span : Span}
    (allocated : allocate count s = .done span t) :
    ∃ strategy usage, s.place count = .ok (span, strategy) ∧
      s.usage.recordAllocation count = .ok usage ∧ t = { s with strategy, usage } := by
  unfold allocate at allocated
  obtain ⟨s', _, got, allocated⟩ := Action.bind_eq_done.mp allocated
  cases got
  obtain ⟨⟨span', strategy⟩, _, result, allocated⟩ := Action.bind_eq_done.mp allocated
  obtain ⟨placed, rfl⟩ := Action.ofResult_eq_done.mp result
  obtain ⟨usage, _, result, allocated⟩ := Action.bind_eq_done.mp allocated
  obtain ⟨recorded, rfl⟩ := Action.ofExcept_eq_done.mp result
  cases allocated
  exact ⟨strategy, usage, placed, recorded, rfl⟩

theorem allocate_eq_failed {s t : Space} {count : Nat} {cause : MemoryError}
    (failed : allocate count s = .failed cause t) : s.place count = .error cause ∧ t = s := by
  unfold allocate at failed
  rcases Action.bind_eq_failed.mp failed with got | ⟨s', _, got, failed⟩
  · cases got
  cases got
  rcases Action.bind_eq_failed.mp failed with result | ⟨⟨span, strategy⟩, _, placed, failed⟩
  · obtain ⟨refused, rfl⟩ := Action.ofResult_eq_failed.mp result
    exact ⟨refused, rfl⟩
  rcases Action.bind_eq_failed.mp failed with recorded | ⟨usage, _, recorded, failed⟩
  · exact absurd recorded Action.ofExcept_ne_failed
  · cases failed

theorem allocate_of_place {s : Space} {count : Nat} {span : Span} {strategy : Strategy}
    {usage : Usage} (placed : s.place count = .ok (span, strategy))
    (recorded : s.usage.recordAllocation count = .ok usage) :
    allocate count s = .done span { s with strategy, usage } := by
  simp [allocate, Action.bind_apply, placed, recorded]

theorem allocate_of_refusal {s : Space} {count : Nat} {cause : MemoryError}
    (refused : s.place count = .error cause) : allocate count s = .failed cause s := by
  simp [allocate, Action.bind_apply, refused]

theorem place_eq_error {s : Space} {count : Nat} {cause : MemoryError} :
    s.place count = .error cause ↔
      s.available < count ∧ cause = .outOfMemory s.region count s.available := by
  unfold place available
  cases s.strategy with
  | arena cursor =>
    dsimp only
    split
    · next short => simp [short, eq_comm]
    · next fits => simp [fits]
  | heap pool => exact map_eq_error.trans FreePool.allocate_eq_error

theorem proper_of_allocate {s t : Space} {count : Nat} {span : Span}
    (allocated : allocate count s = .done span t) : span.Proper := by
  obtain ⟨strategy', usage, placed, -, -⟩ := allocate_eq_done allocated
  unfold place at placed
  cases strategy : s.strategy with
  | arena cursor =>
    simp only [strategy] at placed
    split at placed <;> cases placed
    exact Span.proper_ofRuns _
  | heap pool =>
    simp only [strategy] at placed
    obtain ⟨⟨given, left⟩, granted, same⟩ := map_eq_ok.mp placed
    cases same
    exact FreePool.proper_of_allocate granted

theorem allocate_grants {s t : Space} {count : Nat} {span : Span} (sound : s.Sound)
    (allocated : allocate count s = .done span t) : Grants s count span t := by
  obtain ⟨strategy', usage, placed, recorded, rfl⟩ := allocate_eq_done allocated
  unfold place at placed
  unfold Sound at sound
  cases strategy : s.strategy with
  | arena cursor =>
    simp only [strategy] at placed sound
    split at placed
    · cases placed
    · next fits =>
      cases placed
      have member : ∀ l, l ∈ (Span.ofRuns [⟨s.region, cursor, count⟩]).toList ↔
          l.region = s.region ∧ cursor ≤ l.address ∧ l.address < cursor + count := by
        intro l
        simp [Run.mem_toList, Run.stop]
      constructor
      · simp only [Sound]
        omega
      · exact ⟨rfl, rfl, by simp [isHeap, strategy]⟩
      · exact proper_of_allocate allocated
      · simpa using Run.toList_nodup _
      · exact fun l inside => ((member l).mp inside).1
      · simp
      · intro l inside taken
        have := (member l).mp inside
        simp only [Taken, strategy] at taken
        omega
      · intro a
        simp only [Taken, strategy, member, true_and]
        omega
      · intro a
        simp [Free, pool?, strategy]
      · simp only [available, strategy]
        omega
      · exact recorded
  | heap pool =>
    simp only [strategy] at placed sound
    obtain ⟨⟨given, left⟩, granted, same⟩ := map_eq_ok.mp placed
    cases same
    have grants := FreePool.allocate_grants sound.1 granted
    constructor
    · refine ⟨grants.sound, fun a free => sound.2.1 a ((grants.free a).mpr (.inr free)), ?_⟩
      have used := Usage.used_recordAllocation recorded
      have total := grants.total
      have counted := sound.2.2
      simp only at used ⊢
      omega
    · exact ⟨rfl, rfl, by simp [isHeap, strategy]⟩
    · exact proper_of_allocate allocated
    · exact grants.nodup
    · exact grants.within
    · exact grants.length
    · intro l inside taken
      simp only [Taken, strategy] at taken
      apply taken.2
      rw [grants.free, ← grants.within l inside]
      exact .inl inside
    · intro a
      have free := grants.free a
      have taken := grants.taken a
      have bound := sound.2.1 a
      simp only [Taken, strategy]
      by_cases inside : ⟨s.region, a⟩ ∈ given.toList <;> simp_all
    · intro a
      have free := grants.free a
      have taken := grants.taken a
      simp only [Free, pool?, strategy, Option.mem_some, exists_eq_left']
      by_cases inside : ⟨s.region, a⟩ ∈ given.toList <;> simp_all
    · simpa only [available, strategy] using grants.total
    · exact recorded

structure Returns (s : Space) (given : List Location) (t : Space) : Prop where
  sound : t.Sound
  shape : SameShape s t
  free : ∀ a, t.Free a ↔ s.Free a ∨ (s.isHeap ∧ ⟨s.region, a⟩ ∈ given)
  taken : ∀ a, t.Taken a ↔ s.Taken a ∧ ¬(s.isHeap ∧ ⟨s.region, a⟩ ∈ given)
  available : s.available ≤ t.available
  usage : ∃ vectors, t.usage = s.usage.recordFree vectors

theorem Returns.nil {s : Space} (sound : s.Sound) : Returns s [] s :=
  ⟨sound, .refl s, by simp, by simp, Nat.le_refl _, 0, rfl⟩

theorem Returns.congr {s t : Space} {given same : List Location} (returns : Returns s given t)
    (here : ∀ a, ⟨s.region, a⟩ ∈ given ↔ ⟨s.region, a⟩ ∈ same) : Returns s same t := by
  refine ⟨returns.sound, returns.shape, fun a => ?_, fun a => ?_, returns.available, returns.usage⟩
  · rw [returns.free, here]
  · rw [returns.taken, here]

theorem Returns.append {s t u : Space} {first second : List Location} (before : Returns s first t)
    (after : Returns t second u) : Returns s (first ++ second) u := by
  have shape := before.shape
  constructor
  · exact after.sound
  · exact shape.trans after.shape
  · intro a
    rw [after.free, before.free, shape.region, shape.isHeap, List.mem_append, or_assoc, and_or_left]
  · intro a
    rw [after.taken, before.taken, shape.region, shape.isHeap, List.mem_append, and_or_left,
      not_or, and_assoc]
  · exact Nat.le_trans before.available after.available
  · obtain ⟨n, first⟩ := before.usage
    obtain ⟨k, second⟩ := after.usage
    exact ⟨n + k, by rw [second, first, Usage.recordFree_recordFree]⟩

theorem freeRun_eq_done {s t : Space} {r : Run} (sound : s.Sound)
    (freed : freeRun r s = .done () t) : Returns s r.toList t := by
  unfold freeRun at freed
  obtain ⟨s', _, got, freed⟩ := Action.bind_eq_done.mp freed
  cases got
  unfold Sound at sound
  cases strategy : s.strategy with
  | arena cursor =>
    simp only [strategy] at freed sound
    cases freed
    have arena : s.isHeap = false := by simp [isHeap, strategy]
    exact ⟨by simpa [Sound, strategy] using sound, .refl s, by simp [arena], by simp [arena],
      Nat.le_refl _, 0, rfl⟩
  | heap pool =>
    simp only [strategy] at freed sound
    split at freed
    · cases freed
    · next home =>
      have home : r.region = s.region := by simpa using home
      obtain ⟨released, _, result, freed⟩ := Action.bind_eq_done.mp freed
      obtain ⟨released, rfl⟩ := Action.ofExcept_eq_done.mp result
      obtain ⟨larger, _, result, freed⟩ := Action.bind_eq_done.mp freed
      obtain ⟨rfl, rfl⟩ := Action.ofResult_eq_done.mp result
      cases freed
      obtain ⟨largerSound, inside, total, free, -⟩ := FreePool.release_eq_ok sound.1 released
      have heap : s.isHeap = true := by simp [isHeap, strategy]
      have member : ∀ a, (⟨s.region, a⟩ : Location) ∈ r.toList ↔ r.start ≤ a ∧ a < r.start + r.length := by
        intro a
        simp [Run.mem_toList, Run.stop, home]
      have bounded : ∀ a, larger.Free a → a < s.capacity := by
        intro a isFree
        rcases (free a).mp isFree with fresh | old
        · have := inside (by omega)
          omega
        · exact sound.2.1 a old
      constructor
      · refine ⟨largerSound, bounded, ?_⟩
        -- no more than was used can come back
        have fits := FreePool.weight_le largerSound.apart bounded
        have weighed := largerSound.total
        have counted := sound.2.2
        simp only [Usage.recordFree]
        omega
      · exact ⟨rfl, rfl, by simp [isHeap, strategy]⟩
      · intro a
        simp only [Free, pool?, strategy, heap, member, Option.mem_some, exists_eq_left', free,
          true_and, or_comm]
      · intro a
        simp only [Taken, strategy, heap, member, free, true_and, not_or]
        rw [and_assoc, and_comm (a := ¬pool.Free a)]
      · simp only [available, strategy]
        omega
      · exact ⟨r.length, rfl⟩

theorem freeRun_eq_failed {s t : Space} {r : Run} {cause : MemoryError} (sound : s.Sound)
    (failed : freeRun r s = .failed cause t) :
    t = s ∧ (r.region = s.region → ∃ l ∈ r.toList, ¬s.Taken l.address) := by
  unfold freeRun at failed
  rcases Action.bind_eq_failed.mp failed with got | ⟨s', _, got, failed⟩
  · cases got
  cases got
  unfold Sound at sound
  cases strategy : s.strategy with
  | arena cursor =>
    simp only [strategy] at failed
    cases failed
  | heap pool =>
    simp only [strategy] at failed sound
    split at failed
    · next foreign =>
      cases failed
      exact ⟨rfl, fun home => absurd home foreign⟩
    · next home =>
      have home : r.region = s.region := by simpa using home
      rcases Action.bind_eq_failed.mp failed with result | ⟨released, _, result, failed⟩
      · exact absurd result Action.ofExcept_ne_failed
      obtain ⟨released, rfl⟩ := Action.ofExcept_eq_done.mp result
      rcases Action.bind_eq_failed.mp failed with result | ⟨larger, _, result, failed⟩
      · obtain ⟨rfl, rfl⟩ := Action.ofResult_eq_failed.mp result
        refine ⟨rfl, fun _ => ?_⟩
        obtain ⟨a, lower, upper, missing⟩ := FreePool.release_eq_error sound.1 released
        refine ⟨⟨r.region, a⟩, Run.mem_toList.mpr ⟨rfl, lower, upper⟩, ?_⟩
        simp only [Taken, strategy]
        rcases missing with beyond | isFree
        · omega
        · exact fun taken => taken.2 isFree
      · cases failed

theorem free_eq_done {s t : Space} {span : Span} (sound : s.Sound)
    (freed : free span s = .done () t) : Returns s span.toList t := by
  obtain ⟨runs⟩ := span
  unfold free at freed
  unfold Span.toList
  induction runs generalizing s with
  | nil =>
    cases freed
    exact .nil sound
  | cons r rest ih =>
    obtain ⟨_, middle, first, later⟩ := Action.bind_eq_done.mp freed
    have before := freeRun_eq_done sound first
    rw [List.flatMap_cons]
    exact before.append (ih before.sound later)

/-- A space takes back any span of distinct addresses that it has given out. -/
theorem free_ne_failed {s t : Space} {span : Span} {cause : MemoryError} (sound : s.Sound)
    (home : ∀ r ∈ span.runs, r.region = s.region) (nodup : span.toList.Nodup)
    (taken : ∀ l ∈ span.toList, s.Taken l.address) : free span s ≠ .failed cause t := by
  obtain ⟨runs⟩ := span
  unfold free
  unfold Span.toList at nodup taken
  induction runs generalizing s with
  | nil => exact fun failed => by cases failed
  | cons r rest ih =>
    intro failed
    rw [List.flatMap_cons, List.nodup_append'] at nodup
    simp only [List.flatMap_cons, List.forall_mem_append, List.forall_mem_cons] at home taken
    rcases Action.bind_eq_failed.mp failed with first | ⟨_, middle, first, later⟩
    · obtain ⟨l, member, missing⟩ := (freeRun_eq_failed sound first).2 home.1
      exact missing (taken.1 l member)
    · have before := freeRun_eq_done sound first
      apply ih before.sound _ nodup.2.1 _ later
      · intro r' member
        rw [before.shape.region]
        exact home.2 r' member
      · intro l member
        refine (before.taken _).mpr ⟨taken.2 l member, ?_⟩
        intro inFirst
        obtain ⟨r', member', inside⟩ := List.mem_flatMap.mp member
        have same : l = ⟨s.region, l.address⟩ := by
          rw [← home.2 r' member', ← (Run.mem_toList.mp inside).1]
        exact nodup.2.2 (same ▸ inFirst.2) member

end Space

end VectorMemory
