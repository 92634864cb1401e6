import Mathlib.Data.List.Nodup
import Mathlib.Data.List.Perm.Subperm
import VectorMemory.Proofs.Gaps
import VectorMemory.Proofs.Span

/-! A free pool as a set of addresses. Taking vectors removes exactly their addresses,
and a run can be given back iff none of its addresses is free. -/
namespace VectorMemory

namespace FreePool

structure Sound (pool : FreePool) : Prop where
  apart : Apart pool.gaps
  total : pool.total = weight pool.gaps

def Free (pool : FreePool) (a : Nat) : Prop :=
  Covers pool.gaps a

instance (pool : FreePool) (a : Nat) : Decidable (pool.Free a) :=
  inferInstanceAs (Decidable (∃ g ∈ pool.gaps, g.start ≤ a ∧ a < g.stop))

theorem sound_ofCapacity (capacity : Nat) : (ofCapacity capacity).Sound := by
  unfold ofCapacity
  split
  · next none => exact ⟨apart_nil, by simp [none]⟩
  · next some => exact ⟨apart_cons.mpr ⟨Nat.pos_of_ne_zero some, by simp, apart_nil⟩, by simp⟩

theorem free_ofCapacity {capacity a : Nat} : (ofCapacity capacity).Free a ↔ a < capacity := by
  unfold Free ofCapacity
  split
  · next none => simp [none]
  · simp [Gap.stop]

def addresses (gaps : List Gap) : List Nat :=
  gaps.flatMap fun g => List.range' g.start g.length

theorem mem_addresses {gaps : List Gap} {a : Nat} : a ∈ addresses gaps ↔ Covers gaps a := by
  simp [addresses, Covers, Gap.stop]

theorem nodup_addresses {gaps : List Gap} (apart : Apart gaps) : (addresses gaps).Nodup := by
  unfold addresses
  induction gaps with
  | nil => simp
  | cons g rest ih =>
    obtain ⟨-, after, restApart⟩ := apart_cons.mp apart
    rw [List.flatMap_cons, List.nodup_append']
    refine ⟨List.nodup_range' 1, ih restApart, ?_⟩
    intro a first later
    have behind := after a (mem_addresses.mp later)
    rw [List.mem_range'_1] at first
    simp only [Gap.stop] at behind
    omega

theorem length_addresses (gaps : List Gap) : (addresses gaps).length = weight gaps := by
  unfold addresses
  induction gaps with
  | nil => rfl
  | cons g rest ih => rw [List.flatMap_cons, List.length_append, ih, List.length_range', weight_cons]

theorem weight_le {gaps : List Gap} {capacity : Nat} (apart : Apart gaps)
    (bounded : ∀ a, Covers gaps a → a < capacity) : weight gaps ≤ capacity := by
  have inside : addresses gaps ⊆ List.range capacity := fun a member =>
    List.mem_range.mpr (bounded a (mem_addresses.mp member))
  have fits := ((nodup_addresses apart).subperm inside).length_le
  rwa [length_addresses, List.length_range] at fits

theorem toList_ofRuns_gaps (region : Region) (gaps : List Gap) :
    (Span.ofRuns (gaps.map fun g => ⟨region, g.start, g.length⟩)).toList =
      (addresses gaps).map (Location.mk region) := by
  rw [Span.toList_ofRuns, addresses, List.map_flatMap, List.flatMap_map]
  rfl

theorem mem_ofRuns_gaps {region : Region} {gaps : List Gap} {l : Location} :
    l ∈ (Span.ofRuns (gaps.map fun g => ⟨region, g.start, g.length⟩)).toList ↔
      l.region = region ∧ Covers gaps l.address := by
  rw [toList_ofRuns_gaps, List.mem_map]
  constructor
  · rintro ⟨a, member, rfl⟩
    exact ⟨rfl, mem_addresses.mp member⟩
  · rintro ⟨rfl, covered⟩
    exact ⟨l.address, mem_addresses.mpr covered, rfl⟩

/-- What a successful request takes out of a pool, and what it leaves there. -/
structure Grants (pool : FreePool) (region : Region) (count : Nat) (span : Span)
    (left : FreePool) : Prop where
  sound : left.Sound
  nodup : span.toList.Nodup
  within : ∀ l ∈ span.toList, l.region = region
  length : span.toList.length = count
  total : left.total + count = pool.total
  free : ∀ a, pool.Free a ↔ ⟨region, a⟩ ∈ span.toList ∨ left.Free a
  taken : ∀ a, ⟨region, a⟩ ∈ span.toList → ¬left.Free a

theorem grants_runs {pool : FreePool} {region : Region} {count : Nat} {taken left : List Gap}
    (sound : pool.Sound) (takenApart : Apart taken) (leftApart : Apart left)
    (counted : weight taken = count) (both : weight taken + weight left = weight pool.gaps)
    (covered : ∀ a, Covers pool.gaps a ↔ Covers taken a ∨ Covers left a)
    (disjoint : ∀ a, Covers taken a → ¬Covers left a) :
    Grants pool region count (.ofRuns (taken.map fun g => ⟨region, g.start, g.length⟩))
      ⟨left, pool.total - count⟩ := by
  have total := sound.total
  constructor
  · exact ⟨leftApart, by simp only; omega⟩
  · rw [toList_ofRuns_gaps]
    exact (nodup_addresses takenApart).map fun _ _ same => (Location.mk.inj same).2
  · exact fun l member => (mem_ofRuns_gaps.mp member).1
  · rw [toList_ofRuns_gaps, List.length_map, length_addresses, counted]
  · simp only
    omega
  · intro a
    rw [mem_ofRuns_gaps]
    simp only [true_and, Free, covered]
  · intro a member
    exact disjoint a (mem_ofRuns_gaps.mp member).2

theorem allocate_eq_error {pool : FreePool} {region : Region} {count : Nat} {cause : MemoryError} :
    pool.allocate region count = .error cause ↔
      pool.total < count ∧ cause = .outOfMemory region count pool.total := by
  unfold allocate
  constructor
  · intro refused
    split at refused
    · cases refused
    · split at refused
      · next short =>
        cases refused
        exact ⟨short, rfl⟩
      · split at refused <;> cases refused
  · intro ⟨short, cause⟩
    rw [if_neg (by omega), if_pos short, cause]

theorem proper_of_allocate {pool left : FreePool} {region : Region} {count : Nat} {span : Span}
    (allocated : pool.allocate region count = .ok (span, left)) : span.Proper := by
  unfold allocate at allocated
  split at allocated
  · cases allocated
    exact Span.proper_empty
  · split at allocated
    · cases allocated
    · split at allocated <;> cases allocated <;> exact Span.proper_ofRuns _

theorem allocate_grants {pool left : FreePool} {region : Region} {count : Nat} {span : Span}
    (sound : pool.Sound) (allocated : pool.allocate region count = .ok (span, left)) :
    Grants pool region count span left := by
  unfold allocate at allocated
  split at allocated
  · next none =>
    cases allocated
    constructor <;> simp [sound, none]
  · next some =>
    split at allocated
    · cases allocated
    · next enough =>
      have total := sound.total
      split at allocated
      · next start left' fit =>
        cases allocated
        obtain ⟨leftApart, leftWeight, covered, disjoint⟩ :=
          takeFirstFit_spec sound.apart (Nat.pos_of_ne_zero some) fit
        have single : ∀ a, Covers [⟨start, count⟩] a ↔ start ≤ a ∧ a < start + count := by
          simp [Gap.stop]
        change Grants pool region count
          (.ofRuns ([⟨start, count⟩].map fun g : Gap => ⟨region, g.start, g.length⟩)) _
        apply grants_runs sound
        · exact apart_cons.mpr ⟨Nat.pos_of_ne_zero some, by simp, apart_nil⟩
        · exact leftApart
        · simp
        · simp only [weight_cons, weight_nil]
          omega
        · intro a
          rw [covered, single]
        · intro a inside
          exact disjoint a ((single a).mp inside).1 ((single a).mp inside).2
      · cases split : takeLowest count pool.gaps with
        | mk taken left' =>
          rw [split] at allocated
          cases allocated
          obtain ⟨takenApart, leftApart, takenWeight, bothWeight, covered, disjoint⟩ :=
            takeLowest_spec sound.apart split
          exact grants_runs sound takenApart leftApart (by omega) bothWeight covered disjoint

theorem release_eq_ok {pool larger : FreePool} {region : Region} {start length capacity : Nat}
    (sound : pool.Sound) (released : pool.release region start length capacity = .ok (.ok larger)) :
    larger.Sound ∧ (0 < length → start + length ≤ capacity) ∧ larger.total = pool.total + length ∧
      (∀ a, larger.Free a ↔ (start ≤ a ∧ a < start + length) ∨ pool.Free a) ∧
      ∀ a, start ≤ a → a < start + length → ¬pool.Free a := by
  unfold release at released
  split at released
  · next none =>
    cases released
    refine ⟨sound, by omega, by omega, ?_, by omega⟩
    intro a
    have : ¬(start ≤ a ∧ a < start + length) := by omega
    simp [this]
  · next some =>
    obtain ⟨stop, added, released⟩ := bind_eq_ok.mp released
    obtain ⟨-, rfl⟩ := Word.add_eq_ok_iff.mp added
    split at released
    · cases released
    · next inside =>
      split at released
      · next gaps inserted =>
        cases released
        obtain ⟨apart, heavier, covered, fresh⟩ :=
          adds_of_insert sound.apart (Nat.pos_of_ne_zero some) inserted
        have total := sound.total
        exact ⟨⟨apart, by simp only at heavier ⊢; omega⟩, by omega, rfl, covered, fresh⟩
      · cases released

/-- A run that is refused has an address beyond the capacity or a free one. -/
theorem release_eq_error {pool : FreePool} {region : Region} {start length capacity : Nat}
    {cause : MemoryError} (sound : pool.Sound)
    (refused : pool.release region start length capacity = .ok (.error cause)) :
    ∃ a, start ≤ a ∧ a < start + length ∧ (capacity ≤ a ∨ pool.Free a) := by
  unfold release at refused
  split at refused
  · cases refused
  · next some =>
    obtain ⟨stop, added, refused⟩ := bind_eq_ok.mp refused
    obtain ⟨-, rfl⟩ := Word.add_eq_ok_iff.mp added
    split at refused
    · exact ⟨start + length - 1, by omega, by omega, .inl (by omega)⟩
    · split at refused
      · cases refused
      · next a inserted =>
        obtain ⟨lower, upper, covered, -⟩ :=
          insert_eq_error sound.apart (Nat.pos_of_ne_zero some) inserted
        exact ⟨a, lower, upper, .inr covered⟩

end FreePool

end VectorMemory
