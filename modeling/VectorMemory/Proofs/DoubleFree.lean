import Mathlib.Order.Lattice.Nat
import VectorMemory.Proofs.FreeSet

/-! Which runs a pool takes back. A run is refused for its addresses beyond the capacity or,
if it has none, for those that are free already, and the least of them is reported. -/
namespace VectorMemory.FreePool

variable {pool : FreePool} {region : Region} {start length capacity : Nat}

def obstacles (pool : FreePool) (start length capacity : Nat) : Set Nat :=
  Set.Ico start (start + length) ∩
    if capacity < start + length then Set.Ici capacity else pool.freeSet

theorem obstacles_nonempty_iff :
    (pool.obstacles start length capacity).Nonempty ↔
      ∃ a ∈ Set.Ico start (start + length), capacity ≤ a ∨ a ∈ pool.freeSet := by
  unfold obstacles
  split
  · next beyond =>
    constructor
    · rintro ⟨a, inside, late⟩
      exact ⟨a, inside, .inl late⟩
    · rintro ⟨a, ⟨lower, upper⟩, -⟩
      -- whatever is free, the last address of the run is beyond the capacity
      exact ⟨start + length - 1, ⟨by omega, by omega⟩, Nat.le_sub_one_of_lt beyond⟩
  · next within =>
    constructor
    · rintro ⟨a, inside, free⟩
      exact ⟨a, inside, .inr free⟩
    · rintro ⟨a, inside, late | free⟩
      · exact absurd (Nat.lt_of_le_of_lt late inside.2) within
      · exact ⟨a, inside, free⟩

theorem isLeast_beyond (some : 0 < length) (beyond : capacity < start + length) :
    IsLeast (pool.obstacles start length capacity) (max capacity start) := by
  rw [obstacles, if_pos beyond]
  refine ⟨⟨⟨Nat.le_max_right .., by omega⟩, Nat.le_max_left ..⟩, ?_⟩
  rintro b ⟨inside, late⟩
  exact Nat.max_le.mpr ⟨late, inside.1⟩

theorem isLeast_free (sound : pool.Sound) {a : Nat} (some : 0 < length)
    (within : ¬capacity < start + length) (refused : insert pool.gaps ⟨start, length⟩ = .error a) :
    IsLeast (pool.obstacles start length capacity) a := by
  obtain ⟨lower, upper, covered, least⟩ := insert_eq_error sound.apart some refused
  rw [obstacles, if_neg within]
  refine ⟨⟨⟨lower, upper⟩, covered⟩, ?_⟩
  rintro b ⟨inside, free⟩
  exact Nat.le_of_not_lt fun earlier => least b inside.1 earlier free

/-- A run that can be named is taken back or refused for its least obstacle. -/
theorem release_cases (sound : pool.Sound) (some : 0 < length)
    (bound : start + length < Word.limit) :
    (∃ larger, pool.release region start length capacity = .ok (.ok larger)) ∨
      ∃ a, pool.release region start length capacity = .ok (.error (.invalidFree region a)) ∧
        IsLeast (pool.obstacles start length capacity) a := by
  unfold release
  rw [if_neg (Nat.ne_of_gt some), Word.add_eq_ok bound]
  simp only [bind, Except.bind]
  split
  · next beyond => exact .inr ⟨_, rfl, isLeast_beyond some beyond⟩
  · next within =>
    cases added : insert pool.gaps ⟨start, length⟩ with
    | ok gaps => exact .inl ⟨_, rfl⟩
    | error a => exact .inr ⟨a, rfl, isLeast_free sound some within added⟩

theorem obstacles_eq_empty (sound : pool.Sound) {larger : FreePool} (some : 0 < length)
    (released : pool.release region start length capacity = .ok (.ok larger)) :
    pool.obstacles start length capacity = ∅ := by
  obtain ⟨-, inside, -, -, fresh⟩ := release_eq_ok sound released
  rw [obstacles, if_neg (Nat.not_lt.mpr (inside some)), Set.eq_empty_iff_forall_notMem]
  rintro a ⟨member, free⟩
  exact fresh a member.1 member.2 free

theorem release_eq_error_iff (sound : pool.Sound) {cause : MemoryError} (some : 0 < length)
    (bound : start + length < Word.limit) :
    pool.release region start length capacity = .ok (.error cause) ↔
      ∃ a, cause = .invalidFree region a ∧ IsLeast (pool.obstacles start length capacity) a := by
  rcases @release_cases _ region _ _ capacity sound some bound with
    ⟨larger, taken⟩ | ⟨a, refused, least⟩
  · rw [taken, obstacles_eq_empty sound some taken]
    simp [IsLeast]
  · rw [refused]
    constructor
    · rintro ⟨⟩
      exact ⟨a, rfl, least⟩
    · rintro ⟨b, rfl, other⟩
      rw [least.unique other]

theorem serve_release_eq_failed {cause : MemoryError} {left : FreePool} :
    serve (.release region start length capacity) pool = .failed cause left ↔
      left = pool ∧ pool.release region start length capacity = .ok (.error cause) := by
  simp [serve, Action.bind_eq_failed, Action.ofExcept_eq_done, Action.ofResult_eq_failed,
    and_comm, @eq_comm _ left]

/-- A run is refused exactly if it has an address beyond the capacity or a free one. The
address reported is the least one beyond the capacity if there is one, and else the least
free one, and the pool stays as it was. A run that is not refused is taken back. -/
theorem release_refused_iff {size : Nat} {requests : List Request}
    (run : serveAll requests (ofCapacity size) = some pool) (some : 0 < length)
    (bound : start + length < Word.limit) (region : Region) (capacity : Nat) :
    ((∃ cause left, serve (.release region start length capacity) pool = .failed cause left) ↔
      ∃ a ∈ Set.Ico start (start + length), capacity ≤ a ∨ a ∈ pool.freeSet) ∧
    (∀ cause left, serve (.release region start length capacity) pool = .failed cause left ↔
      left = pool ∧ ∃ a, cause = .invalidFree region a ∧
        IsLeast (Set.Ico start (start + length) ∩
          if capacity < start + length then Set.Ici capacity else pool.freeSet) a) ∧
    ((∀ a ∈ Set.Ico start (start + length), a < capacity ∧ a ∉ pool.freeSet) →
      ∃ larger, serve (.release region start length capacity) pool = .done .empty larger) := by
  have sound := (sound_ofCapacity size).serveAll run
  have failed (cause : MemoryError) (left : FreePool) :
      serve (.release region start length capacity) pool = .failed cause left ↔
        left = pool ∧ ∃ a, cause = .invalidFree region a ∧
          IsLeast (pool.obstacles start length capacity) a :=
    serve_release_eq_failed.trans (and_congr_right fun _ => release_eq_error_iff sound some bound)
  have refused : (∃ cause left,
      serve (.release region start length capacity) pool = .failed cause left) ↔
        (pool.obstacles start length capacity).Nonempty := by
    constructor
    · rintro ⟨cause, left, stopped⟩
      obtain ⟨-, a, -, least⟩ := (failed cause left).mp stopped
      exact ⟨a, least.1⟩
    · intro nonempty
      exact ⟨_, pool, (failed _ _).mpr ⟨rfl, _, rfl, isLeast_csInf nonempty⟩⟩
  refine ⟨refused.trans obstacles_nonempty_iff, failed, fun clear => ?_⟩
  rcases @release_cases _ region _ _ capacity sound some bound with
    ⟨larger, taken⟩ | ⟨a, -, least⟩
  · exact ⟨larger, by simp [serve, Action.bind_apply, taken]⟩
  · obtain ⟨b, inside, late | free⟩ := obstacles_nonempty_iff.mp ⟨a, least.1⟩
    · exact absurd late (Nat.not_le.mpr (clear b inside).1)
    · exact absurd free (clear b inside).2

/-- The first and the last two of ten vectors are free. Three vectors from the seventh on are
refused for the ninth, and from the ninth on, with one vector too many, for the eleventh. -/
theorem release_refused_iff_fragmented :
    ∃ pool, serveAll [.allocate .dram0 10, .release .dram0 0 2 10, .release .dram0 8 2 10]
        (ofCapacity 10) = some pool ∧
      pool.gaps = [⟨0, 2⟩, ⟨8, 2⟩] ∧
      serve (.release .dram0 6 3 10) pool = .failed (.invalidFree .dram0 8) pool ∧
      serve (.release .dram0 8 3 10) pool = .failed (.invalidFree .dram0 10) pool ∧
      ∃ larger, serve (.release .dram0 2 6 10) pool = .done .empty larger := by
  have run : serveAll [.allocate .dram0 10, .release .dram0 0 2 10, .release .dram0 8 2 10]
      (ofCapacity 10) = some ⟨[⟨0, 2⟩, ⟨8, 2⟩], 4⟩ := by decide +kernel
  obtain ⟨-, doubled, -⟩ := @release_refused_iff _ 6 3 _ _ run (by decide) (by decide) .dram0 10
  obtain ⟨-, beyond, -⟩ := @release_refused_iff _ 8 3 _ _ run (by decide) (by decide) .dram0 10
  obtain ⟨-, -, taken⟩ := @release_refused_iff _ 2 6 _ _ run (by decide) (by decide) .dram0 10
  have free : ∀ a, a ∈ freeSet ⟨[⟨0, 2⟩, ⟨8, 2⟩], 4⟩ ↔ a < 2 ∨ 8 ≤ a ∧ a < 10 := by
    simp [freeSet, Free, Gap.stop]
  refine ⟨_, run, rfl, (doubled _ _).mpr ⟨rfl, 8, rfl, ?_⟩, (beyond _ _).mpr ⟨rfl, 10, rfl, ?_⟩,
    taken ?_⟩
  · rw [if_neg (by decide)]
    refine ⟨⟨by simp, (free 8).mpr (by decide)⟩, ?_⟩
    rintro b ⟨inside, covered⟩
    have lower : 6 ≤ b := inside.1
    have := (free b).mp covered
    omega
  · rw [if_pos (by decide)]
    exact ⟨by simp, fun b member => member.2⟩
  · intro a inside
    have lower : 2 ≤ a := inside.1
    have upper : a < 8 := inside.2
    rw [free]
    omega

end VectorMemory.FreePool
