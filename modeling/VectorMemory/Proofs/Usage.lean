import Mathlib.Data.List.Induction
import Mathlib.Order.Bounds.Basic
import VectorMemory.Proofs.GivingBack

/-! The usage of a space tells the truth. What is in use and what is available
make up the capacity after every request, also after a span that was given back
only in part, and the other counters follow from the requests that were met. -/
namespace VectorMemory.Space

variable {s t : Space} {requests : List Request} {request : Request} {span : Span} {count : Nat}
  {amounts : Set Nat} {sizes : List Nat}

/-! ### Giving back -/

theorem Sound.balance (sound : s.Sound) (heap : s.isHeap = true) :
    s.usage.used + s.available = s.capacity := by
  unfold Sound at sound
  unfold isHeap at heap
  unfold available
  cases strategy : s.strategy with
  | arena cursor => simp [strategy] at heap
  | heap pool =>
    rw [strategy] at sound
    exact sound.2.2

theorem freeRun_of_arena (arena : s.isHeap = false) (r : Run) : freeRun r s = .done () s := by
  unfold isHeap at arena
  unfold freeRun
  cases strategy : s.strategy with
  | arena cursor => simp [Action.bind_apply, strategy]
  | heap pool => simp [strategy] at arena

theorem free_of_arena (arena : s.isHeap = false) (span : Span) : free span s = .done () s := by
  unfold free
  induction span.runs with
  | nil => rfl
  | cons r rest ih => exact Action.bind_eq_done.mpr ⟨(), s, freeRun_of_arena arena r, ih⟩

theorem used_freeRun {r : Run} (sound : s.Sound) (heap : s.isHeap = true)
    (freed : freeRun r s = .done () t) : t.usage.used + r.length = s.usage.used := by
  have returns := freeRun_eq_done sound freed
  have before := sound.balance heap
  have after := returns.sound.balance (returns.shape.isHeap.trans heap)
  unfold Sound at sound
  unfold isHeap at heap
  cases strategy : s.strategy with
  | arena cursor => simp [strategy] at heap
  | heap pool =>
    rw [strategy] at sound
    obtain ⟨-, larger, released, rfl⟩ := (freeRun_heap_eq_done strategy).mp freed
    obtain ⟨-, -, total, -⟩ := FreePool.release_eq_ok sound.1 released
    simp only [available, strategy] at before after ⊢
    omega

/-- Of the counters, a span that is given back changes only what is in use, also if
that fails half-way. -/
theorem usage_free (sound : s.Sound) (left : (free span s).state? = some t) :
    ∃ vectors, t.usage = s.usage.recordFree vectors := by
  have both : t.Sound ∧ ∃ vectors, t.usage = s.usage.recordFree vectors := by
    apply free_induction (fun a => a.Sound ∧ ∃ vectors, a.usage = s.usage.recordFree vectors)
      (fun a kept => kept.1) _ ⟨sound, 0, rfl⟩ left
    intro r a b kept freed
    obtain ⟨sound, n, before⟩ := kept
    have returns := freeRun_eq_done sound freed
    obtain ⟨k, after⟩ := returns.usage
    exact ⟨returns.sound, n + k, by rw [after, before, Usage.recordFree_recordFree]⟩
  exact both.2

/-! ### One request -/

def fulfilled (request : Request) (s : Space) : List Nat :=
  match request, serve request s with
  | .allocate count, .done .. => [count]
  | _, _ => []

/-- The counters of a space, given the amounts that have been in use so far and the
sizes of the requests that have been met. -/
structure Audited (amounts : Set Nat) (sizes : List Nat) (s : Space) : Prop where
  sound : s.Sound
  balance : s.usage.used + s.available = s.capacity
  current : s.usage.used ∈ amounts
  peak : IsGreatest amounts s.usage.peak
  peak_le : s.usage.peak ≤ s.usage.aggregate
  aggregate : s.usage.aggregate = sizes.sum
  allocations : s.usage.allocations = sizes.length
  arena : s.isHeap = false → s.usage.used = s.usage.aggregate
  bounded : ∀ amount ∈ amounts, amount ≤ s.capacity

namespace Audited

theorem used_le (audited : Audited amounts sizes s) : s.usage.used ≤ s.usage.peak :=
  audited.peak.2 audited.current

theorem allocate (audited : Audited amounts sizes s)
    (done : Space.allocate count s = .done span t) :
    Audited (insert t.usage.used amounts) (sizes ++ [count]) t := by
  have grants := allocate_grants audited.sound done
  obtain ⟨-, usage⟩ := Usage.recordAllocation_eq_ok.mp grants.usage
  have capacity := grants.shape.capacity
  have balance : t.usage.used + t.available = t.capacity := by
    have before := audited.balance
    have available := grants.available
    rw [← usage]
    dsimp only
    omega
  have low := audited.used_le
  have high := audited.peak_le
  constructor
  · exact grants.sound
  · exact balance
  · exact Set.mem_insert _ _
  · rw [← usage]
    dsimp only
    rw [max_comm]
    exact audited.peak.insert _
  · rw [← usage]
    dsimp only
    omega
  · rw [← usage, List.sum_append, List.sum_singleton, ← audited.aggregate]
  · rw [← usage, List.length_append, List.length_singleton, ← audited.allocations]
  · intro arena
    rw [← usage]
    dsimp only
    rw [audited.arena (grants.shape.isHeap ▸ arena)]
  · rw [capacity, Set.forall_mem_insert]
    exact ⟨by omega, audited.bounded⟩

theorem unchanged (audited : Audited amounts sizes s) :
    Audited (insert s.usage.used amounts) (sizes ++ []) s := by
  rw [Set.insert_eq_of_mem audited.current, List.append_nil]
  exact audited

theorem free (audited : Audited amounts sizes s) (left : (Space.free span s).state? = some t) :
    Audited (insert t.usage.used amounts) (sizes ++ []) t := by
  cases kind : s.isHeap with
  | false =>
    rw [free_of_arena kind] at left
    cases left
    exact audited.unchanged
  | true =>
    obtain ⟨sound, shape⟩ := sound_free audited.sound left
    obtain ⟨vectors, usage⟩ := usage_free audited.sound left
    have less : t.usage.used ≤ s.usage.used := by
      rw [usage]
      exact Nat.sub_le _ _
    have heap : t.isHeap = true := shape.isHeap.trans kind
    have balance := sound.balance heap
    have low := less.trans audited.used_le
    constructor
    · exact sound
    · exact balance
    · exact Set.mem_insert _ _
    · have greatest := audited.peak.insert t.usage.used
      rw [max_eq_right low] at greatest
      rw [usage] at greatest ⊢
      exact greatest
    · rw [usage]
      exact audited.peak_le
    · rw [usage, List.append_nil]
      exact audited.aggregate
    · rw [usage, List.append_nil]
      exact audited.allocations
    · intro arena
      rw [heap] at arena
      cases arena
    · rw [shape.capacity, Set.forall_mem_insert]
      exact ⟨less.trans (audited.bounded _ audited.current), audited.bounded⟩

/-- What one request does to the counters, whether it is met or not. -/
theorem serve (audited : Audited amounts sizes s) (left : (Space.serve request s).state? = some t) :
    Audited (insert t.usage.used amounts) (sizes ++ fulfilled request s) t := by
  cases request with
  | allocate count =>
    unfold fulfilled
    rcases Outcome.state?_eq_some.mp left with ⟨span, done⟩ | ⟨cause, failed⟩
    · rw [done]
      exact audited.allocate done
    · rw [failed, (allocate_eq_failed failed).2]
      exact audited.unchanged
  | free span =>
    apply audited.free
    rw [Outcome.state?_eq_left?] at left ⊢
    rwa [Space.serve, Action.left?_bind_pure] at left

end Audited

/-! ### All requests -/

def met : List Request → Space → List Nat
  | [], _ => []
  | request :: rest, s => fulfilled request s ++ (serve request s).state?.elim [] (met rest)

def amountsUsed (requests : List Request) (s : Space) : Set Nat :=
  {amount | ∃ earlier x, earlier <+: requests ∧ serveAll earlier s = some x ∧
    x.usage.used = amount}

theorem serveAll_concat : serveAll (requests ++ [request]) s = some t ↔
    ∃ middle, serveAll requests s = some middle ∧ (serve request middle).state? = some t := by
  simp [serveAll, Option.bind_eq_some_iff]

theorem met_concat (run : serveAll requests s = some t) :
    met (requests ++ [request]) s = met requests s ++ fulfilled request t := by
  induction requests generalizing s with
  | nil =>
    cases run
    cases left : (serve request t).state? <;> simp [met, left]
  | cons first rest ih =>
    obtain ⟨middle, served, later⟩ := Option.bind_eq_some_iff.mp run
    have left : (serve first s).state? = some middle := served
    rw [List.cons_append, met, met, left, Option.elim_some, Option.elim_some, ih later,
      List.append_assoc]

theorem amountsUsed_concat {middle : Space} (run : serveAll requests s = some middle)
    (left : (serve request middle).state? = some t) :
    amountsUsed (requests ++ [request]) s = insert t.usage.used (amountsUsed requests s) := by
  have final : serveAll (requests ++ [request]) s = some t := serveAll_concat.mpr ⟨middle, run, left⟩
  ext amount
  unfold amountsUsed
  simp only [List.prefix_concat_iff, Set.mem_ofPred_eq, Set.mem_insert_iff, or_and_right, exists_or]
  simp [final, eq_comm]

inductive Blank : Space → Prop where
  | arena (region : Region) : Blank (arena region)
  | heap (region : Region) (capacity : Nat) : Blank (heap region capacity)

theorem amountsUsed_nil (s : Space) : amountsUsed [] s = {s.usage.used} := by
  ext amount
  unfold amountsUsed
  simp only [List.prefix_nil, Set.mem_ofPred_eq, Set.mem_singleton_iff]
  simp [serveAll, eq_comm]

theorem Blank.audited (blank : Blank s) : Audited (amountsUsed [] s) [] s := by
  rw [amountsUsed_nil]
  cases blank with
  | arena region =>
    refine ⟨sound_arena region, Nat.zero_add _, rfl, isGreatest_singleton, Nat.le_refl 0, rfl, rfl,
      fun _ => rfl, ?_⟩
    rintro _ rfl
    exact Nat.zero_le _
  | heap region capacity =>
    refine ⟨sound_heap region capacity, Nat.zero_add _, rfl, isGreatest_singleton, Nat.le_refl 0, rfl,
      rfl, fun _ => rfl, ?_⟩
    rintro _ rfl
    exact Nat.zero_le _

theorem audited_serveAll (blank : Blank s) (run : serveAll requests s = some t) :
    Audited (amountsUsed requests s) (met requests s) t := by
  induction requests using List.reverseRecOn generalizing t with
  | nil =>
    cases run
    exact blank.audited
  | append_singleton earlier request ih =>
    obtain ⟨middle, before, left⟩ := serveAll_concat.mp run
    rw [amountsUsed_concat before left, met_concat before]
    exact (ih before).serve left

/-! ### Overflow -/

/-- A request overflows iff it could be met, but a counter would be no word. -/
theorem allocate_eq_fault : (∃ cause, allocate count s = .fault cause) ↔
    count ≤ s.available ∧ ¬(s.usage.used + count < Word.limit ∧
      s.usage.aggregate + count < Word.limit ∧ s.usage.allocations + 1 < Word.limit) := by
  cases placed : s.place count with
  | error cause =>
    have short := (place_eq_error.mp placed).1
    rw [allocate_of_refusal placed]
    simp [short]
  | ok found =>
    obtain ⟨span, strategy⟩ := found
    have fits : count ≤ s.available := by
      by_contra short
      rw [place_eq_error.mpr ⟨Nat.lt_of_not_le short, rfl⟩] at placed
      cases placed
    cases recorded : s.usage.recordAllocation count with
    | ok usage =>
      rw [allocate_of_place placed recorded]
      simp [fits, (Usage.recordAllocation_eq_ok.mp recorded).1]
    | error cause =>
      have stopped : allocate count s = .fault cause := by
        simp [allocate, Action.bind_apply, placed, recorded]
      refine iff_of_true ⟨cause, stopped⟩ ⟨fits, fun words => ?_⟩
      rw [Usage.recordAllocation_eq_ok.mpr ⟨words, rfl⟩] at recorded
      cases recorded

theorem Blank.capacity_of_arena (blank : Blank s) (arena : s.isHeap = false) :
    s.capacity = Word.max := by
  cases blank with
  | arena region => rfl
  | heap region capacity => cases arena

/-- The counters of a space after requests to a new one. -/
structure Accounted (requests : List Request) (s t : Space) : Prop where
  capacity : t.capacity = s.capacity
  balance : t.usage.used + t.available = t.capacity
  arena : t.isHeap = false → t.usage.used = t.usage.aggregate
  peak : IsGreatest (amountsUsed requests s) t.usage.peak
  aggregate : t.usage.aggregate = (met requests s).sum
  allocations : t.usage.allocations = (met requests s).length
  used_le : t.usage.used ≤ t.usage.peak
  peak_le : t.usage.peak ≤ min t.capacity t.usage.aggregate
  /-- Whatever is given back next, each run leaves less in use by its length. -/
  freed : t.isHeap = true → ∀ runs r m n, Action.each freeRun runs t = .done () m →
    freeRun r m = .done () n → n.usage.used + r.length = m.usage.used
  /-- The sum of what a heap has given out can overflow, that of an arena cannot. The number of
  requests is counted in a word, too. -/
  overflows : ∀ count, (∃ cause, allocate count t = .fault cause) ↔ count ≤ t.available ∧
    ((t.isHeap = true ∧ Word.limit ≤ (met requests s).sum + count) ∨
      Word.limit ≤ (met requests s).length + 1)

theorem accounted_serveAll (blank : Blank s) (run : serveAll requests s = some t) :
    Accounted requests s t := by
  have audited := audited_serveAll blank run
  obtain ⟨-, shape⟩ := sound_serveAll blank.audited.sound run
  have balance := audited.balance
  refine ⟨shape.capacity, balance, audited.arena, audited.peak, audited.aggregate,
    audited.allocations, audited.used_le,
    le_min (audited.bounded _ audited.peak.1) audited.peak_le, ?_, fun count => ?_⟩
  · intro heap runs r m n earlier freed
    have left : (free ⟨runs⟩ t).state? = some m := Outcome.state?_eq_some.mpr (.inl ⟨(), earlier⟩)
    obtain ⟨sound, shape⟩ := sound_free audited.sound left
    exact used_freeRun sound (shape.isHeap.trans heap) freed
  · rw [allocate_eq_fault, ← audited.aggregate, ← audited.allocations]
    have low := audited.used_le
    have high := audited.peak_le
    cases kind : t.isHeap with
    | true =>
      simp only [true_and]
      omega
    | false =>
      have words := blank.capacity_of_arena (shape.isHeap ▸ kind)
      have all := audited.arena kind
      rw [← shape.capacity] at words
      simp only [Bool.false_eq_true, false_and, false_or]
      simp only [Word.max, Word.limit] at words ⊢
      omega

/-- The counters of a space tell what has been done to it since it was made. A request does not
overflow as long as the number and, in a heap, the sum of all that were met are words with it. -/
theorem usage_truthful (blank : Blank s) (run : serveAll requests s = some t) :
    Accounted requests s t ∧
      ((met requests s).length + 1 < Word.limit → ∀ count,
        (t.isHeap = true → (met requests s).sum + count < Word.limit) →
          ∀ cause, allocate count t ≠ .fault cause) := by
  have accounted := accounted_serveAll blank run
  refine ⟨accounted, fun few count room cause stopped => ?_⟩
  obtain ⟨-, ⟨heap, excess⟩ | many⟩ := (accounted.overflows count).mp ⟨cause, stopped⟩
  · exact Nat.not_lt_of_le excess (room heap)
  · exact Nat.not_lt_of_le many few

/-- Two runs are given out. The first one comes back, before another one that is not of the space;
then it is given back again, and too much is asked for. -/
def disputed : List Request :=
  [.allocate 2, .allocate 3, .free ⟨[⟨.dram0, 0, 2⟩, ⟨.dram1, 2, 1⟩]⟩, .free ⟨[⟨.dram0, 0, 1⟩]⟩,
    .allocate 4]

theorem usage_truthful_disputed :
    ∃ t, Blank (heap .dram0 6) ∧ serveAll disputed (heap .dram0 6) = some t ∧
      t.usage = ⟨.dram0, 6, 3, 5, 5, 2⟩ ∧ t.available = 3 ∧ Accounted disputed (heap .dram0 6) t ∧
      ∀ cause, allocate 3 t ≠ .fault cause := by
  have computed : (serveAll disputed (heap .dram0 6)).map (fun t => (t.usage, t.available)) =
      some (⟨.dram0, 6, 3, 5, 5, 2⟩, 3) := by decide +kernel
  obtain ⟨t, run, both⟩ := Option.map_eq_some_iff.mp computed
  obtain ⟨usage, available⟩ := Prod.mk.inj both
  have blank : Blank (heap .dram0 6) := .heap .dram0 6
  obtain ⟨accounted, safe⟩ := usage_truthful blank run
  refine ⟨t, blank, run, usage, available, accounted, safe ?_ 3 fun _ => ?_⟩
  · rw [← accounted.allocations, usage]
    decide
  · rw [← accounted.aggregate, usage]
    decide

/-- An arena that was asked for nothing, over and over. -/
def polled (n : Nat) : Space :=
  ⟨.temp, Word.max, .arena 0, ⟨.temp, Word.max, 0, 0, 0, n⟩⟩

theorem allocate_polled {n : Nat} (word : n + 1 < Word.limit) :
    allocate 0 (polled n) = .done .empty (polled (n + 1)) := by
  have nothing : 0 + 0 < Word.limit := by decide
  exact allocate_of_place rfl
    (Usage.recordAllocation_eq_ok.mpr ⟨⟨nothing, nothing, word⟩, rfl⟩)

theorem serveAll_polled {n : Nat} (word : n < Word.limit) :
    serveAll (List.replicate n (.allocate 0)) (arena .temp) = some (polled n) := by
  induction n with
  | zero => rfl
  | succ n ih =>
    rw [List.replicate_succ', serveAll_concat]
    refine ⟨polled n, ih (Nat.lt_of_succ_lt word), ?_⟩
    rw [serve, allocate_polled word]
    rfl

/-- The requests that an arena meets can be too many to count, although they ask for nothing. -/
theorem allocations_overflow :
    ¬∀ (s t : Space) (requests : List Request) (count : Nat) (cause : Fault), Blank s →
      serveAll requests s = some t → (t.isHeap = true → (met requests s).sum + count < Word.limit) →
        allocate count t ≠ .fault cause := by
  intro safe
  have last : ∃ cause, allocate 0 (polled Word.max) = .fault cause :=
    allocate_eq_fault.mpr ⟨Nat.zero_le _, fun words => absurd words.2.2 (by decide)⟩
  obtain ⟨cause, stopped⟩ := last
  exact safe _ _ _ 0 cause (.arena .temp) (serveAll_polled (by decide)) nofun stopped

end VectorMemory.Space
