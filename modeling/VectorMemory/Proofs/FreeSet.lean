import Mathlib.Algebra.Ring.Nat
import Mathlib.Data.Set.BooleanAlgebra
import Mathlib.Order.CompletePartialOrder
import Mathlib.Order.Interval.Set.Basic
import VectorMemory.Outcome
import VectorMemory.Proofs.FreePool

/-! A free pool is the set of its free addresses. Whatever has been asked of a
pool, each request changes that set by exactly the addresses it is about, or not
at all, and the set determines the pool. -/
namespace VectorMemory.FreePool

variable {g h : Gap} {rest others : List Gap} {a : Nat}

theorem Apart.start_le (apart : Apart (g :: rest)) (covered : Covers (g :: rest) a) :
    g.start ≤ a := by
  obtain ⟨positive, after, -⟩ := apart_cons.mp apart
  rcases covers_cons.mp covered with inside | later
  · exact inside.1
  · have := after a later
    simp only [Gap.stop] at this
    omega

theorem Apart.covers_start (apart : Apart (g :: rest)) : Covers (g :: rest) g.start := by
  obtain ⟨positive, -, -⟩ := apart_cons.mp apart
  exact covers_cons.mpr (.inl ⟨Nat.le_refl _, by simp only [Gap.stop]; omega⟩)

theorem Apart.not_covers_stop (apart : Apart (g :: rest)) : ¬Covers (g :: rest) g.stop := by
  obtain ⟨-, after, -⟩ := apart_cons.mp apart
  rw [covers_cons]
  rintro (inside | later)
  · omega
  · exact Nat.lt_irrefl _ (after g.stop later)

theorem Apart.head_le (apart : Apart (g :: rest)) (otherApart : Apart (h :: others))
    (same : ∀ a, Covers (g :: rest) a ↔ Covers (h :: others) a) : g.start ≤ h.start :=
  apart.start_le ((same h.start).mpr otherApart.covers_start)

theorem Apart.stop_le (apart : Apart (g :: rest)) (starts : g.start = h.start)
    (same : ∀ a, Covers (g :: rest) a ↔ Covers (h :: others) a) : h.stop ≤ g.stop := by
  obtain ⟨positive, -, -⟩ := apart_cons.mp apart
  have uncovered := apart.not_covers_stop
  rw [same, covers_cons, not_or] at uncovered
  have outside := uncovered.1
  simp only [Gap.stop] at outside ⊢
  omega

/-- Runs in order with a gap between any two are determined by what they cover. -/
theorem Apart.ext {gaps other : List Gap} (apart : Apart gaps) (otherApart : Apart other)
    (same : ∀ a, Covers gaps a ↔ Covers other a) : gaps = other := by
  induction gaps generalizing other with
  | nil =>
    cases other with
    | nil => rfl
    | cons h others => exact absurd ((same _).mpr otherApart.covers_start) (covers_nil _)
  | cons g rest ih =>
    cases other with
    | nil => exact absurd ((same _).mp apart.covers_start) (covers_nil _)
    | cons h others =>
      have back := fun a => (same a).symm
      have starts : g.start = h.start :=
        Nat.le_antisymm (apart.head_le otherApart same) (otherApart.head_le apart back)
      have stops : g.stop = h.stop :=
        Nat.le_antisymm (otherApart.stop_le starts.symm back) (apart.stop_le starts same)
      obtain ⟨-, after, restApart⟩ := apart_cons.mp apart
      obtain ⟨-, otherAfter, othersApart⟩ := apart_cons.mp otherApart
      have heads : g = h := by
        obtain ⟨start, length⟩ := g
        obtain ⟨start', length'⟩ := h
        simp only [Gap.stop] at starts stops
        rw [Gap.mk.injEq]
        omega
      subst heads
      have tails : ∀ a, Covers rest a ↔ Covers others a := by
        intro a
        have behind := after a
        have otherBehind := otherAfter a
        have both := same a
        rw [covers_cons, covers_cons] at both
        -- behind the first run only the others cover
        constructor
        · intro later
          exact (both.mp (.inr later)).resolve_left (by have := behind later; omega)
        · intro later
          exact (both.mpr (.inr later)).resolve_left (by have := otherBehind later; omega)
      rw [ih restApart othersApart tails]

theorem weight_eq_sum (gaps : List Gap) : weight gaps = (gaps.map Gap.length).sum := by
  induction gaps with
  | nil => rfl
  | cons g rest ih => rw [weight_cons, ih, List.map_cons, List.sum_cons]

inductive Request where
  | allocate (region : Region) (count : Nat)
  | release (region : Region) (start length capacity : Nat)
deriving DecidableEq, Repr

/-- Ask a pool. The answer is the span taken, which is empty for a run given
back. -/
def serve : Request → Action FreePool Span
  | .allocate region count => do
      let pool ← Action.get
      let (span, left) ← Action.ofResult (pool.allocate region count)
      Action.modify fun _ => left
      return span
  | .release region start length capacity => do
      let pool ← Action.get
      let released ← Action.ofExcept (pool.release region start length capacity)
      let larger ← Action.ofResult released
      Action.modify fun _ => larger
      return .empty

/-- What requests leave of a pool. Failures are passed over; a fault leaves
nothing. -/
def serveAll (requests : List Request) (pool : FreePool) : Option FreePool :=
  requests.foldlM (fun pool request => (serve request pool).state?) pool

def freeSet (pool : FreePool) : Set Nat :=
  {a | pool.Free a}

variable {pool left larger : FreePool}

theorem serve_allocate_eq_done {region : Region} {count : Nat} {span : Span}
    (done : serve (.allocate region count) pool = .done span left) :
    pool.allocate region count = .ok (span, left) := by
  obtain ⟨_, _, got, done⟩ := Action.bind_eq_done.mp done
  cases got
  obtain ⟨⟨span', left'⟩, _, result, done⟩ := Action.bind_eq_done.mp done
  obtain ⟨allocated, rfl⟩ := Action.ofResult_eq_done.mp result
  cases done
  exact allocated

theorem serve_release_eq_done {region : Region} {start length capacity : Nat} {answer : Span}
    (done : serve (.release region start length capacity) pool = .done answer larger) :
    pool.release region start length capacity = .ok (.ok larger) := by
  obtain ⟨_, _, got, done⟩ := Action.bind_eq_done.mp done
  cases got
  obtain ⟨released, _, result, done⟩ := Action.bind_eq_done.mp done
  obtain ⟨unfaulted, rfl⟩ := Action.ofExcept_eq_done.mp result
  obtain ⟨larger', _, result, done⟩ := Action.bind_eq_done.mp done
  obtain ⟨rfl, rfl⟩ := Action.ofResult_eq_done.mp result
  cases done
  exact unfaulted

theorem serve_eq_failed {request : Request} {cause : MemoryError}
    (failed : serve request pool = .failed cause left) : left = pool := by
  cases request with
  | allocate region count =>
    rcases Action.bind_eq_failed.mp failed with got | ⟨_, _, got, failed⟩
    · cases got
    cases got
    rcases Action.bind_eq_failed.mp failed with result | ⟨_, _, result, failed⟩
    · exact (Action.ofResult_eq_failed.mp result).2.symm
    · cases failed
  | release region start length capacity =>
    rcases Action.bind_eq_failed.mp failed with got | ⟨_, _, got, failed⟩
    · cases got
    cases got
    rcases Action.bind_eq_failed.mp failed with result | ⟨_, _, result, failed⟩
    · exact absurd result Action.ofExcept_ne_failed
    obtain ⟨-, rfl⟩ := Action.ofExcept_eq_done.mp result
    rcases Action.bind_eq_failed.mp failed with result | ⟨_, _, result, failed⟩
    · exact (Action.ofResult_eq_failed.mp result).2.symm
    · cases failed

theorem Grants.freeSet_eq {region : Region} {count : Nat} {span : Span}
    (grants : Grants pool region count span left) :
    left.freeSet = pool.freeSet \ {a | ⟨region, a⟩ ∈ span.toList} := by
  ext a
  have free := grants.free a
  have taken := grants.taken a
  simp only [freeSet, Set.mem_sdiff, Set.mem_ofPred_eq]
  tauto

theorem Sound.serve (sound : pool.Sound) {request : Request}
    (served : (serve request pool).state? = some left) : left.Sound := by
  rcases Outcome.state?_eq_some.mp served with ⟨answer, done⟩ | ⟨cause, failed⟩
  · cases request with
    | allocate region count =>
      exact (allocate_grants sound (serve_allocate_eq_done done)).sound
    | release region start length capacity =>
      exact (release_eq_ok sound (serve_release_eq_done done)).1
  · rw [serve_eq_failed failed]
    exact sound

theorem Sound.serveAll (sound : pool.Sound) {requests : List Request}
    (run : serveAll requests pool = some left) : left.Sound := by
  induction requests generalizing pool with
  | nil =>
    cases run
    exact sound
  | cons request requests ih =>
    obtain ⟨middle, served, run⟩ := Option.bind_eq_some_iff.mp run
    exact ih (sound.serve served) run

theorem Sound.ext {other : FreePool} (sound : pool.Sound) (otherSound : other.Sound)
    (same : other.freeSet = pool.freeSet) : other = pool := by
  have covered : ∀ a, Covers other.gaps a ↔ Covers pool.gaps a := Set.ext_iff.mp same
  have gaps := otherSound.apart.ext sound.apart covered
  have total : other.total = pool.total := by rw [otherSound.total, sound.total, gaps]
  cases other
  cases pool
  exact FreePool.mk.injEq .. ▸ ⟨gaps, total⟩

/-- A pool starts with all addresses below its capacity. After any requests its
runs are in order with a gap between any two, and it counts their addresses.
Taking a span removes its addresses, which were free. Giving a run back adds its
addresses, none of which was. A request that fails changes nothing. Two pools with
the same free addresses are equal. -/
theorem free_pool_refines_set {capacity : Nat} {requests : List Request} {pool : FreePool}
    (run : serveAll requests (ofCapacity capacity) = some pool) :
    (ofCapacity capacity).freeSet = Set.Iio capacity ∧
    (∀ g ∈ pool.gaps, 0 < g.length) ∧
    pool.gaps.Pairwise (fun g h => g.stop < h.start) ∧
    pool.total = (pool.gaps.map Gap.length).sum ∧
    (∀ region count span left, serve (.allocate region count) pool = .done span left →
      (∀ l ∈ span.toList, l.region = region ∧ l.address ∈ pool.freeSet) ∧
      left.freeSet = pool.freeSet \ {a | ⟨region, a⟩ ∈ span.toList}) ∧
    (∀ region start length limit answer larger,
      serve (.release region start length limit) pool = .done answer larger →
      Disjoint pool.freeSet (Set.Ico start (start + length)) ∧
      larger.freeSet = pool.freeSet ∪ Set.Ico start (start + length)) ∧
    (∀ request cause left, serve request pool = .failed cause left → left = pool) ∧
    ∀ capacity' requests' other, serveAll requests' (ofCapacity capacity') = some other →
      other.freeSet = pool.freeSet → other = pool := by
  have sound := (sound_ofCapacity capacity).serveAll run
  refine ⟨?_, sound.apart.2, sound.apart.1, ?_, ?_, ?_, fun _ _ _ => serve_eq_failed, ?_⟩
  · ext a
    exact free_ofCapacity
  · rw [sound.total, weight_eq_sum]
  · intro region count span left done
    have grants := allocate_grants sound (serve_allocate_eq_done done)
    refine ⟨fun l member => ?_, grants.freeSet_eq⟩
    have home := grants.within l member
    exact ⟨home, (grants.free l.address).mpr (.inl (home ▸ member))⟩
  · intro region start length limit answer larger done
    obtain ⟨-, -, -, covered, fresh⟩ := release_eq_ok sound (serve_release_eq_done done)
    constructor
    · rw [Set.disjoint_left]
      exact fun a free inside => fresh a inside.1 inside.2 free
    · ext a
      rw [Set.union_comm]
      exact covered a
  · intro capacity' requests' other otherRun same
    exact sound.ext ((sound_ofCapacity capacity').serveAll otherRun) same

/-- Of five pairs of vectors the first, third and fifth are given back, and once
more a vector of the third, which is refused. The next five vectors come from all
three. -/
theorem free_pool_refines_set_fragmented :
    ∃ pool span left,
      serveAll [.allocate .dram0 10, .release .dram0 0 2 10, .release .dram0 8 2 10,
        .release .dram0 4 2 10, .release .dram0 5 1 10] (ofCapacity 10) = some pool ∧
      pool.gaps = [⟨0, 2⟩, ⟨4, 2⟩, ⟨8, 2⟩] ∧ pool.total = (pool.gaps.map Gap.length).sum ∧
      serve (.allocate .dram0 5) pool = .done span left ∧
      span.runs = [⟨.dram0, 0, 2⟩, ⟨.dram0, 4, 2⟩, ⟨.dram0, 8, 1⟩] ∧
      left.freeSet = pool.freeSet \ {a | ⟨.dram0, a⟩ ∈ span.toList} := by
  have run : serveAll [.allocate .dram0 10, .release .dram0 0 2 10, .release .dram0 8 2 10,
      .release .dram0 4 2 10, .release .dram0 5 1 10] (ofCapacity 10) =
        some ⟨[⟨0, 2⟩, ⟨4, 2⟩, ⟨8, 2⟩], 6⟩ := by decide +kernel
  have served : serve (.allocate .dram0 5) ⟨[⟨0, 2⟩, ⟨4, 2⟩, ⟨8, 2⟩], 6⟩ =
      .done ⟨[⟨.dram0, 0, 2⟩, ⟨.dram0, 4, 2⟩, ⟨.dram0, 8, 1⟩]⟩ ⟨[⟨9, 1⟩], 1⟩ := by decide +kernel
  obtain ⟨-, -, -, total, takes, -⟩ := free_pool_refines_set run
  exact ⟨_, _, _, run, rfl, total, served, rfl, (takes .dram0 5 _ _ served).2⟩

end VectorMemory.FreePool
