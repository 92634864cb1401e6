import Mathlib.Data.List.Nodup
import VectorMemory.Span
import VectorMemory.Proofs.Outcome

/-! Runs and spans as lists of locations. Pushing a run appends its locations,
whether or not it is merged with the last run, so every way to build a span is
described by the list that it spells. -/
namespace VectorMemory

namespace Run

theorem mem_toList {r : Run} {l : Location} :
    l ∈ r.toList ↔ l.region = r.region ∧ r.start ≤ l.address ∧ l.address < r.stop := by
  cases l with
  | mk region address =>
    simp only [toList, stop, List.mem_map, List.mem_range'_1, Location.mk.injEq]
    constructor
    · rintro ⟨a, inside, rfl, rfl⟩
      exact ⟨rfl, inside⟩
    · rintro ⟨rfl, inside⟩
      exact ⟨address, inside, rfl, rfl⟩

theorem toList_nodup (r : Run) : r.toList.Nodup := by
  apply List.Nodup.map _ (List.nodup_range' 1)
  intro a b same
  exact (Location.mk.inj same).2

@[simp] theorem length_toList (r : Run) : r.toList.length = r.length := by
  simp [toList]

theorem toList_eq_nil {r : Run} (empty : r.length = 0) : r.toList = [] := by
  simp [toList, empty]

theorem getElem?_toList {r : Run} {l : Location} {k : Nat} :
    r.toList[k]? = some l ↔ k < r.length ∧ l = ⟨r.region, r.start + k⟩ := by
  simp only [toList, List.getElem?_map, Option.map_eq_some_iff, List.getElem?_eq_some_iff,
    List.length_range', List.getElem_range', Nat.one_mul]
  constructor
  · rintro ⟨a, ⟨bound, rfl⟩, rfl⟩
    exact ⟨bound, rfl⟩
  · rintro ⟨bound, rfl⟩
    exact ⟨_, ⟨bound, rfl⟩, rfl⟩

/-- A run that continues another one spells the locations after it. -/
theorem toList_join {a b : Run} (sameRegion : a.region = b.region) (continues : a.stop = b.start) :
    ({ a with length := a.length + b.length } : Run).toList = a.toList ++ b.toList := by
  simp only [toList, ← sameRegion, ← continues, stop, ← List.map_append]
  rw [List.range'_append_1]

end Run

namespace Span

@[simp] theorem toList_empty : empty.toList = [] := rfl

theorem mem_toList {s : Span} {l : Location} : l ∈ s.toList ↔ ∃ r ∈ s.runs, l ∈ r.toList :=
  List.mem_flatMap

theorem length_toList (s : Span) : s.toList.length = s.size := by
  unfold toList size
  induction s.runs with
  | nil => rfl
  | cons r rest ih => rw [List.flatMap_cons, List.length_append, Run.length_toList, ih, List.foldr_cons]

theorem flatMap_joinLast (runs : List Run) (r : Run) :
    (joinLast runs r).flatMap Run.toList = runs.flatMap Run.toList ++ r.toList := by
  fun_induction joinLast runs r with
  | case1 r => simp
  | case2 last r joins =>
    simp only [List.flatMap_cons, List.flatMap_nil, List.append_nil]
    exact Run.toList_join joins.1 joins.2
  | case3 last r apart => simp
  | case4 first next rest r ih =>
    simp only [List.flatMap_cons, ih, List.append_assoc]

@[simp] theorem toList_push (s : Span) (r : Run) : (s.push r).toList = s.toList ++ r.toList := by
  unfold push
  split
  · next none => simp [Run.toList_eq_nil none]
  · exact flatMap_joinLast s.runs r

theorem toList_foldl_push (runs : List Run) (s : Span) :
    (runs.foldl push s).toList = s.toList ++ runs.flatMap Run.toList := by
  induction runs generalizing s with
  | nil => simp
  | cons r rest ih => simp [ih]

@[simp] theorem toList_ofRuns (runs : List Run) : (ofRuns runs).toList = runs.flatMap Run.toList := by
  simp [ofRuns, toList_foldl_push]

theorem tryPush_eq_ok {s t : Span} {r : Run} (pushed : s.tryPush r = .ok t) : t = s.push r := by
  unfold tryPush at pushed
  split at pushed
  · next none =>
    cases pushed
    simp [push, none]
  · split at pushed
    · cases pushed
      rfl
    · split at pushed
      · obtain ⟨stop, -, pushed⟩ := bind_eq_ok.mp pushed
        split at pushed
        · obtain ⟨_, -, pushed⟩ := bind_eq_ok.mp pushed
          cases pushed
          rfl
        · cases pushed
          rfl
      · cases pushed
        rfl

theorem tryExtend_eq_ok {s t : Span} {runs : List Run} (extended : s.tryExtend runs = .ok t) :
    t = runs.foldl push s := by
  unfold tryExtend at extended
  induction runs generalizing s with
  | nil =>
    cases extended
    rfl
  | cons r rest ih =>
    rw [List.foldlM_cons] at extended
    obtain ⟨u, pushed, extended⟩ := bind_eq_ok.mp extended
    rw [List.foldl_cons, ← tryPush_eq_ok pushed]
    exact ih extended

theorem toList_tryExtend {s t : Span} {runs : List Run} (extended : s.tryExtend runs = .ok t) :
    t.toList = s.toList ++ runs.flatMap Run.toList := by
  rw [tryExtend_eq_ok extended, toList_foldl_push]

/-- A span built from single locations spells them in the given order. -/
theorem toList_tryOfLocations {locations : List Location} {s : Span}
    (built : tryOfLocations locations = .ok s) : s.toList = locations := by
  rw [toList_tryExtend built, toList_empty, List.nil_append, List.flatMap_map]
  have single (l : Location) : (Run.mk l.region l.address 1).toList = [l] := rfl
  simp [single]

theorem toList_within (s : Span) (region : Region) :
    (s.within region).toList = s.toList.filter (·.region = region) := by
  unfold within
  rw [toList_ofRuns]
  unfold toList
  induction s.runs with
  | nil => rfl
  | cons r rest ih =>
    rw [List.flatMap_cons, List.filter_append, ← ih]
    by_cases same : r.region = region
    · have all : r.toList.filter (·.region = region) = r.toList := by
        rw [List.filter_eq_self]
        intro l member
        simp [(Run.mem_toList.mp member).1, same]
      simp [same, all]
    · have none : r.toList.filter (·.region = region) = [] := by
        rw [List.filter_eq_nil_iff]
        intro l member
        simp [(Run.mem_toList.mp member).1, same]
      simp [same, none]

def Proper (s : Span) : Prop :=
  ∀ r ∈ s.runs, 0 < r.length

theorem Proper.start_mem {s : Span} (proper : s.Proper) {r : Run} (member : r ∈ s.runs) :
    ⟨r.region, r.start⟩ ∈ s.toList := by
  have positive := proper r member
  exact mem_toList.mpr ⟨r, member, Run.mem_toList.mpr ⟨rfl, Nat.le_refl _, by simp only [Run.stop]; omega⟩⟩

theorem Proper.last_mem {s : Span} (proper : s.Proper) {r : Run} (member : r ∈ s.runs) :
    ⟨r.region, r.stop - 1⟩ ∈ s.toList := by
  have positive := proper r member
  have inside : r.start ≤ r.stop - 1 ∧ r.stop - 1 < r.stop := by
    simp only [Run.stop]
    omega
  exact mem_toList.mpr ⟨r, member, Run.mem_toList.mpr ⟨rfl, inside⟩⟩

theorem mem_joinLast_pos {runs : List Run} {r : Run} (positive : ∀ x ∈ runs, 0 < x.length)
    (new : 0 < r.length) : ∀ x ∈ joinLast runs r, 0 < x.length := by
  fun_induction joinLast runs r with
  | case1 r => simpa using new
  | case2 last r joins =>
    simp only [List.mem_singleton, forall_eq]
    omega
  | case3 last r apart => simp_all
  | case4 first next rest r ih => simp_all

theorem proper_empty : empty.Proper := by simp [Proper, empty]

theorem Proper.push {s : Span} (proper : s.Proper) (r : Run) : (s.push r).Proper := by
  unfold Span.push
  split
  · exact proper
  · next some => exact mem_joinLast_pos proper (Nat.pos_of_ne_zero some)

theorem Proper.foldl_push {s : Span} (proper : s.Proper) (runs : List Run) :
    (runs.foldl Span.push s).Proper := by
  induction runs generalizing s with
  | nil => exact proper
  | cons r rest ih => exact ih (proper.push r)

theorem proper_ofRuns (runs : List Run) : (ofRuns runs).Proper :=
  proper_empty.foldl_push runs

theorem proper_tryOfLocations {locations : List Location} {s : Span}
    (built : tryOfLocations locations = .ok s) : s.Proper := by
  rw [tryExtend_eq_ok built]
  exact proper_empty.foldl_push _

/-- The runs of a part in one region are runs of that region. -/
theorem region_of_mem_within {s : Span} {region : Region} {r : Run}
    (member : r ∈ (s.within region).runs) : r.region = region := by
  have first : ⟨r.region, r.start⟩ ∈ (s.within region).toList := (proper_ofRuns _).start_mem member
  rw [toList_within] at first
  simpa using (List.mem_filter.mp first).2

end Span

end VectorMemory
