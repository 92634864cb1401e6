import VectorMemory.Proofs.FreeSet
import VectorMemory.Proofs.Space

/-! Giving vectors back to a heap. It takes back exactly what it has given out,
each vector once, and what it is afterwards depends on these vectors alone. So
neither the order of spans nor the order of the runs in them matters. -/
namespace VectorMemory

theorem FreePool.release_ok_iff {pool : FreePool} {region : Region} {start length capacity : Nat}
    (sound : pool.Sound) :
    (∃ larger, pool.release region start length capacity = .ok (.ok larger)) ↔
      (0 < length → start + length < Word.limit ∧ start + length ≤ capacity) ∧
        ∀ a, start ≤ a → a < start + length → ¬pool.Free a := by
  constructor
  · intro ⟨larger, released⟩
    obtain ⟨-, inside, -, -, fresh⟩ := release_eq_ok sound released
    refine ⟨fun some => ⟨?_, inside some⟩, fresh⟩
    unfold release at released
    rw [if_neg (Nat.ne_of_gt some)] at released
    obtain ⟨stop, added, -⟩ := bind_eq_ok.mp released
    exact (Word.add_eq_ok_iff.mp added).1
  · intro ⟨bounds, fresh⟩
    cases result : pool.release region start length capacity with
    | error cause =>
      unfold release at result
      split at result
      · cases result
      · next some =>
        rw [Word.add_eq_ok (bounds (Nat.pos_of_ne_zero some)).1] at result
        simp only [bind, Except.bind] at result
        split at result
        · cases result
        · split at result <;> cases result
    | ok answer =>
      cases answer with
      | ok larger => exact ⟨larger, rfl⟩
      | error cause =>
        obtain ⟨a, lower, upper, beyond | free⟩ := release_eq_error sound result
        · have := (bounds (by omega)).2
          omega
        · exact absurd free (fresh a lower upper)

namespace Space

variable {s t : Space} {r : Run} {runs others : List Run}

/-! ### Runs -/

theorem freeRun_heap_eq_done {pool : FreePool} (heap : s.strategy = .heap pool) :
    freeRun r s = .done () t ↔
      r.region = s.region ∧
        ∃ larger, pool.release s.region r.start r.length s.capacity = .ok (.ok larger) ∧
          { s with strategy := .heap larger, usage := s.usage.recordFree r.length } = t := by
  unfold freeRun
  rw [Action.bind_apply, Action.get_apply]
  simp only [heap]
  by_cases home : r.region = s.region
  · simp [home, Action.bind_eq_done, Action.ofExcept_eq_done, Action.ofResult_eq_done]
  · simp [home]

theorem freeRun_iff (sound : s.Sound) (heap : s.isHeap = true) :
    (∃ t, freeRun r s = .done () t) ↔
      r.region = s.region ∧ (0 < r.length → r.stop < Word.limit) ∧
        ∀ l ∈ r.toList, s.Taken l.address := by
  unfold isHeap at heap
  unfold Sound at sound
  cases strategy : s.strategy with
  | arena cursor => simp [strategy] at heap
  | heap pool =>
    simp only [strategy] at sound
    have taken : (∀ l ∈ r.toList, s.Taken l.address) ↔
        ∀ a, r.start ≤ a → a < r.stop → a < s.capacity ∧ ¬pool.Free a := by
      simp only [Taken, strategy]
      constructor
      · intro all a lower upper
        exact all ⟨r.region, a⟩ (Run.mem_toList.mpr ⟨rfl, lower, upper⟩)
      · intro all l member
        obtain ⟨-, lower, upper⟩ := Run.mem_toList.mp member
        exact all l.address lower upper
    have released : (∃ t, freeRun r s = .done () t) ↔ r.region = s.region ∧
        ∃ larger, pool.release s.region r.start r.length s.capacity = .ok (.ok larger) := by
      simp [freeRun_heap_eq_done strategy]
    rw [released, FreePool.release_ok_iff sound.1, taken]
    refine and_congr_right fun home => ?_
    simp only [Run.stop]
    constructor
    · rintro ⟨bounds, fresh⟩
      refine ⟨fun some => (bounds some).1, fun a lower upper => ⟨?_, fresh a lower upper⟩⟩
      have := (bounds (by omega)).2
      omega
    · rintro ⟨bound, all⟩
      refine ⟨fun some => ⟨bound some, ?_⟩, fun a lower upper => (all a lower upper).2⟩
      have := (all (r.start + r.length - 1) (by omega) (by omega)).1
      omega

theorem usage_freeRun (heap : s.isHeap = true) (freed : freeRun r s = .done () t) :
    t.usage = s.usage.recordFree r.length := by
  unfold isHeap at heap
  cases strategy : s.strategy with
  | arena cursor => simp [strategy] at heap
  | heap pool =>
    obtain ⟨-, larger, -, rfl⟩ := (freeRun_heap_eq_done strategy).mp freed
    rfl

/-! ### Many runs -/

structure Returnable (s : Space) (runs : List Run) : Prop where
  home : ∀ r ∈ runs, r.region = s.region
  words : ∀ r ∈ runs, 0 < r.length → r.stop < Word.limit
  distinct : (runs.flatMap Run.toList).Nodup
  taken : ∀ l ∈ runs.flatMap Run.toList, s.Taken l.address

theorem returnable_cons (heap : s.isHeap = true) (returns : Returns s r.toList t)
    (home : r.region = s.region) (words : 0 < r.length → r.stop < Word.limit)
    (given : ∀ l ∈ r.toList, s.Taken l.address) :
    s.Returnable (r :: runs) ↔ t.Returnable runs := by
  have region := returns.shape.region
  have here : ∀ l ∈ runs.flatMap Run.toList, (∀ x ∈ runs, x.region = s.region) →
      (t.Taken l.address ↔ s.Taken l.address ∧ l ∉ r.toList) := by
    intro l member homes
    obtain ⟨x, listed, inside⟩ := List.mem_flatMap.mp member
    have same : l = ⟨s.region, l.address⟩ := by
      rw [← homes x listed, ← (Run.mem_toList.mp inside).1]
    rw [returns.taken, heap, ← same]
    simp
  constructor
  · intro all
    obtain ⟨-, distinct, apart⟩ := List.nodup_append'.mp (List.flatMap_cons ▸ all.distinct)
    obtain ⟨-, homes⟩ := List.forall_mem_cons.mp all.home
    refine ⟨fun x member => (homes x member).trans region.symm,
      (List.forall_mem_cons.mp all.words).2, distinct, fun l member => ?_⟩
    refine (here l member homes).mpr ⟨all.taken l ?_, fun inside => apart inside member⟩
    exact List.flatMap_cons ▸ List.mem_append_right _ member
  · intro rest
    have homes : ∀ x ∈ runs, x.region = s.region := fun x member => (rest.home x member).trans region
    have split := fun l member => (here l member homes).mp (rest.taken l member)
    constructor
    · exact List.forall_mem_cons.mpr ⟨home, homes⟩
    · exact List.forall_mem_cons.mpr ⟨words, rest.words⟩
    · rw [List.flatMap_cons, List.nodup_append']
      exact ⟨r.toList_nodup, rest.distinct, fun l inside member => (split l member).2 inside⟩
    · rw [List.flatMap_cons, List.forall_mem_append]
      exact ⟨given, fun l member => (split l member).1⟩

/-- Runs can be given back one after another iff all of their vectors have been
given out and none of these stands in them twice. -/
theorem freeRuns_iff (sound : s.Sound) (heap : s.isHeap = true) :
    (∃ t, Action.each freeRun runs s = .done () t) ↔ s.Returnable runs := by
  induction runs generalizing s with
  | nil => exact ⟨fun _ => ⟨by simp, by simp, by simp, by simp⟩, fun _ => ⟨s, rfl⟩⟩
  | cons r rest ih =>
    constructor
    · intro ⟨t, freed⟩
      obtain ⟨_, middle, first, later⟩ := Action.bind_eq_done.mp freed
      obtain ⟨home, words, given⟩ := (freeRun_iff sound heap).mp ⟨middle, first⟩
      have returns := freeRun_eq_done sound first
      rw [returnable_cons heap returns home words given]
      exact (ih returns.sound (returns.shape.isHeap.trans heap)).mp ⟨t, later⟩
    · intro all
      have words := (List.forall_mem_cons.mp all.words).1
      have home := (List.forall_mem_cons.mp all.home).1
      have given : ∀ l ∈ r.toList, s.Taken l.address := fun l member =>
        all.taken l (List.flatMap_cons ▸ List.mem_append_left _ member)
      obtain ⟨middle, first⟩ := (freeRun_iff sound heap).mpr ⟨home, words, given⟩
      have returns := freeRun_eq_done sound first
      rw [returnable_cons heap returns home words given] at all
      obtain ⟨t, later⟩ := (ih returns.sound (returns.shape.isHeap.trans heap)).mpr all
      exact ⟨t, Action.bind_eq_done.mpr ⟨(), middle, first, later⟩⟩

theorem usage_freeRuns (heap : s.isHeap = true) (sound : s.Sound)
    (freed : Action.each freeRun runs s = .done () t) :
    t.usage = s.usage.recordFree (runs.flatMap Run.toList).length := by
  induction runs generalizing s with
  | nil =>
    cases freed
    rfl
  | cons r rest ih =>
    obtain ⟨_, middle, first, later⟩ := Action.bind_eq_done.mp freed
    have returns := freeRun_eq_done sound first
    rw [ih (returns.shape.isHeap.trans heap) returns.sound later, usage_freeRun heap first,
      Usage.recordFree_recordFree, List.flatMap_cons, List.length_append, Run.length_toList]

theorem Sound.strategy_eq {u : Space} (sound : t.Sound) (otherSound : u.Sound) (heap : t.isHeap = true)
    (otherHeap : u.isHeap = true) (free : ∀ a, u.Free a ↔ t.Free a) : u.strategy = t.strategy := by
  unfold Sound at sound otherSound
  unfold isHeap at heap otherHeap
  cases strategy : t.strategy with
  | arena => simp [strategy] at heap
  | heap pool =>
    cases strategy' : u.strategy with
    | arena => simp [strategy'] at otherHeap
    | heap other =>
      simp only [strategy] at sound
      simp only [strategy'] at otherSound
      have same : other.freeSet = pool.freeSet := by
        ext a
        have here : other.Free a ↔ pool.Free a := by simpa [Free, pool?, strategy, strategy'] using free a
        exact here
      rw [sound.1.ext otherSound.1 same]

theorem freeRuns_congr (sound : s.Sound) (heap : s.isHeap = true)
    (freed : Action.each freeRun runs s = .done () t) (home : ∀ r ∈ others, r.region = s.region)
    (same : (others.flatMap Run.toList).Perm (runs.flatMap Run.toList)) :
    Action.each freeRun others s = .done () t := by
  have all := (freeRuns_iff sound heap).mp ⟨t, freed⟩
  have words : ∀ r ∈ others, 0 < r.length → r.stop < Word.limit := by
    intro r member some
    -- the last vector of the run stands in one of the other runs
    have last : (⟨r.region, r.stop - 1⟩ : Location) ∈ others.flatMap Run.toList := by
      refine List.mem_flatMap.mpr ⟨r, member, Run.mem_toList.mpr ⟨rfl, ?_, ?_⟩⟩ <;>
        simp only [Run.stop] <;> omega
    obtain ⟨x, listed, inside⟩ := List.mem_flatMap.mp (same.mem_iff.mp last)
    obtain ⟨-, lower, upper⟩ := Run.mem_toList.mp inside
    have bound := all.words x listed
    simp only [Run.stop] at bound lower upper ⊢
    omega
  obtain ⟨u, freed'⟩ := (freeRuns_iff sound heap).mpr
    ⟨home, words, same.nodup_iff.mpr all.distinct, fun l member => all.taken l (same.mem_iff.mp member)⟩
  have returns : Returns s (runs.flatMap Run.toList) t := @free_eq_done s t ⟨runs⟩ sound freed
  have returns' : Returns s (others.flatMap Run.toList) u := @free_eq_done s u ⟨others⟩ sound freed'
  have strategy : u.strategy = t.strategy := by
    apply returns.sound.strategy_eq returns'.sound (returns.shape.isHeap.trans heap)
      (returns'.shape.isHeap.trans heap)
    intro a
    rw [returns.free, returns'.free, same.mem_iff]
  have region := returns'.shape.region.trans returns.shape.region.symm
  have capacity := returns'.shape.capacity.trans returns.shape.capacity.symm
  have usage : u.usage = t.usage := by
    rw [usage_freeRuns heap sound freed, usage_freeRuns heap sound freed', same.length_eq]
  rw [freed']
  cases t
  cases u
  cases strategy
  cases region
  cases capacity
  cases usage
  rfl

end Space

/-! ### Spans -/

/-- The runs of a span in another order, as they are or joined where one continues
the one before. -/
def Span.Reorders (a b : Span) : Prop :=
  ∃ runs, runs.Perm a.runs ∧ (b = ⟨runs⟩ ∨ b = .ofRuns runs)

def Span.Rearranged (spans others : List Span) : Prop :=
  ∃ middle, middle.Perm spans ∧ List.Forall₂ Reorders middle others

namespace Span

variable {a b : Span} {spans others : List Span}

theorem Reorders.refl (a : Span) : Reorders a a :=
  ⟨a.runs, .refl _, .inl rfl⟩

theorem Reorders.perm (reorders : Reorders a b) : b.toList.Perm a.toList := by
  obtain ⟨runs, perm, rfl | rfl⟩ := reorders
  · exact perm.flatMap_right Run.toList
  · rw [toList_ofRuns]
    exact perm.flatMap_right Run.toList

theorem Reorders.region (reorders : Reorders a b) {r : Run} (member : r ∈ b.runs) :
    ∃ x ∈ a.runs, x.region = r.region := by
  obtain ⟨runs, perm, rfl | rfl⟩ := reorders
  · exact ⟨r, perm.mem_iff.mp member, rfl⟩
  · -- a joined run is not empty, so its region is that of a run that it was made of
    have first : ⟨r.region, r.start⟩ ∈ (ofRuns runs).toList := (proper_ofRuns runs).start_mem member
    rw [toList_ofRuns] at first
    obtain ⟨x, listed, inside⟩ := List.mem_flatMap.mp first
    exact ⟨x, perm.mem_iff.mp listed, (Run.mem_toList.mp inside).1.symm⟩

theorem Rearranged.perm (rearranged : Rearranged spans others) :
    (others.flatMap toList).Perm (spans.flatMap toList) := by
  obtain ⟨middle, perm, reordered⟩ := rearranged
  refine List.Perm.trans ?_ (perm.flatMap_right toList)
  clear perm
  induction reordered with
  | nil => exact .refl _
  | cons first _ ih => exact first.perm.append ih

theorem Rearranged.region (rearranged : Rearranged spans others) {b : Span} (member : b ∈ others)
    {r : Run} (listed : r ∈ b.runs) : ∃ a ∈ spans, ∃ x ∈ a.runs, x.region = r.region := by
  obtain ⟨middle, perm, reordered⟩ := rearranged
  suffices ∃ a ∈ middle, ∃ x ∈ a.runs, x.region = r.region by
    obtain ⟨a, found, same⟩ := this
    exact ⟨a, perm.mem_iff.mp found, same⟩
  clear perm
  induction reordered with
  | nil => cases member
  | cons first _ ih =>
    rcases List.mem_cons.mp member with rfl | later
    · exact ⟨_, List.mem_cons_self, first.region listed⟩
    · obtain ⟨a, found, same⟩ := ih later
      exact ⟨a, List.mem_cons_of_mem _ found, same⟩

end Span

namespace Space

theorem each_free (spans : List Span) (s : Space) :
    Action.each free spans s = Action.each freeRun (spans.flatMap Span.runs) s :=
  Action.each_flatMap Span.runs spans s

theorem free_rearranged {s t : Space} {spans others : List Span} (sound : s.Sound)
    (heap : s.isHeap = true) (freed : Action.each free spans s = .done () t)
    (rearranged : Span.Rearranged spans others) : Action.each free others s = .done () t := by
  rw [each_free] at freed ⊢
  have home := ((freeRuns_iff sound heap).mp ⟨t, freed⟩).home
  apply freeRuns_congr sound heap freed
  · intro r member
    obtain ⟨b, inside, listed⟩ := List.mem_flatMap.mp member
    obtain ⟨a, outer, x, run, same⟩ := rearranged.region inside listed
    rw [← same]
    exact home x (List.mem_flatMap.mpr ⟨a, outer, run⟩)
  · rw [List.flatMap_assoc, List.flatMap_assoc]
    exact rearranged.perm

/-! ### Spaces in use -/

inductive Request where
  | allocate (count : Nat)
  | free (span : Span)
deriving DecidableEq, Repr

/-- Ask a space. The answer is the span taken, which is empty for a span given
back. -/
def serve : Request → Action Space Span
  | .allocate count => allocate count
  | .free span => do
      free span
      return .empty

/-- What requests leave of a space. Failures are passed over with what they have
changed; a fault leaves nothing. -/
def serveAll (requests : List Request) (s : Space) : Option Space :=
  requests.foldlM (fun s request => (serve request s).state?) s

variable {s t u : Space}

/-- What giving a run back keeps of a sound space is kept by a span, also if it fails half-way. -/
theorem free_induction {span : Span} (Inv : Space → Prop) (sound : ∀ a, Inv a → a.Sound)
    (step : ∀ r a b, Inv a → freeRun r a = .done () b → Inv b) (first : Inv s)
    (left : (free span s).state? = some t) : Inv t := by
  rcases Outcome.state?_eq_some.mp left with ⟨_, done⟩ | ⟨cause, failed⟩
  · exact Action.each_done (fun _ => Inv) (fun r _ => step r) first done
  · obtain ⟨r, rest, middle, kept, stopped⟩ :=
      Action.each_failed (fun _ => Inv) (fun r _ => step r) first failed
    rw [(freeRun_eq_failed (sound middle kept) stopped).1]
    exact kept

theorem sound_free {span : Span} (sound : s.Sound) (left : (free span s).state? = some t) :
    t.Sound ∧ SameShape s t := by
  apply free_induction (fun a => a.Sound ∧ SameShape s a) (fun a kept => kept.1) _ ⟨sound, .refl s⟩ left
  intro r a b kept freed
  have returns := freeRun_eq_done kept.1 freed
  exact ⟨returns.sound, kept.2.trans returns.shape⟩

theorem sound_serve {request : Request} (sound : s.Sound)
    (left : (serve request s).state? = some t) : t.Sound ∧ SameShape s t := by
  cases request with
  | allocate count =>
    rcases Outcome.state?_eq_some.mp left with ⟨span, done⟩ | ⟨cause, failed⟩
    · have grants := allocate_grants sound done
      exact ⟨grants.sound, grants.shape⟩
    · rw [(allocate_eq_failed failed).2]
      exact ⟨sound, .refl s⟩
  | free span =>
    apply sound_free sound
    rw [Outcome.state?_eq_left?] at left ⊢
    rwa [serve, Action.left?_bind_pure] at left

theorem sound_serveAll {requests : List Request} (sound : s.Sound)
    (run : serveAll requests s = some t) : t.Sound ∧ SameShape s t := by
  induction requests generalizing s with
  | nil =>
    cases run
    exact ⟨sound, .refl t⟩
  | cons request rest ih =>
    obtain ⟨middle, served, later⟩ := Option.bind_eq_some_iff.mp run
    obtain ⟨middleSound, shape⟩ := sound_serve sound served
    obtain ⟨lastSound, later⟩ := ih middleSound later
    exact ⟨lastSound, shape.trans later⟩

/-- The spans that requests for vectors are given, failures being passed over,
and the space after them. -/
def grantAll : List Nat → Space → Option (List Span × Space)
  | [], s => some ([], s)
  | count :: counts, s =>
      match allocate count s with
      | .done span t => (grantAll counts t).map fun (spans, u) => (span :: spans, u)
      | .failed _ t => grantAll counts t
      | .fault _ => none

/-- Vectors have been given out that were not before: the space before and after. -/
structure Lends (s : Space) (given : List Location) (t : Space) : Prop where
  sound : t.Sound
  shape : SameShape s t
  nodup : given.Nodup
  within : ∀ l ∈ given, l.region = s.region
  fresh : ∀ l ∈ given, ¬s.Taken l.address
  taken : ∀ a, t.Taken a ↔ s.Taken a ∨ ⟨s.region, a⟩ ∈ given
  free : ∀ a, t.Free a ↔ s.Free a ∧ ⟨s.region, a⟩ ∉ given
  used : t.usage.used = s.usage.used + given.length

theorem Lends.nil (sound : s.Sound) : Lends s [] s :=
  ⟨sound, .refl s, .nil, by simp, by simp, by simp, by simp, rfl⟩

theorem Grants.lends {count : Nat} {span : Span} (grants : Grants s count span t) :
    Lends s span.toList t :=
  ⟨grants.sound, grants.shape, grants.nodup, grants.within, grants.fresh, grants.taken, grants.free, by
    rw [Usage.used_recordAllocation grants.usage, grants.length]⟩

theorem Lends.append {first second : List Location} (before : Lends s first t)
    (after : Lends t second u) : Lends s (first ++ second) u := by
  have region := before.shape.region
  constructor
  · exact after.sound
  · exact before.shape.trans after.shape
  · rw [List.nodup_append']
    refine ⟨before.nodup, after.nodup, fun l one two => after.fresh l two ?_⟩
    have home : l = ⟨s.region, l.address⟩ := by rw [← before.within l one]
    exact (before.taken l.address).mpr (.inr (home ▸ one))
  · rw [List.forall_mem_append]
    exact ⟨before.within, fun l member => (after.within l member).trans region⟩
  · rw [List.forall_mem_append]
    refine ⟨before.fresh, fun l member taken => ?_⟩
    exact after.fresh l member ((before.taken l.address).mpr (.inl taken))
  · intro a
    rw [after.taken, before.taken, region, List.mem_append, or_assoc]
  · intro a
    rw [after.free, before.free, region, List.mem_append, not_or, and_assoc]
  · rw [after.used, before.used, List.length_append, Nat.add_assoc]

theorem lends_grantAll {counts : List Nat} {spans : List Span} (sound : s.Sound)
    (granted : grantAll counts s = some (spans, t)) :
    Lends s (spans.flatMap Span.toList) t ∧ ∀ span ∈ spans, span.Proper := by
  induction counts generalizing s spans with
  | nil =>
    cases granted
    exact ⟨.nil sound, by simp⟩
  | cons count counts ih =>
    rw [grantAll] at granted
    split at granted
    · next span middle allocated =>
      obtain ⟨⟨later, last⟩, rest, same⟩ := Option.map_eq_some_iff.mp granted
      cases same
      have grants := allocate_grants sound allocated
      obtain ⟨lends, proper⟩ := ih grants.sound rest
      exact ⟨grants.lends.append lends, List.forall_mem_cons.mpr ⟨grants.proper, proper⟩⟩
    · next cause middle refused =>
      rw [(allocate_eq_failed refused).2] at granted
      exact ih sound granted
    · cases granted

theorem Lends.returnable {runs : List Run} (lends : Lends s (runs.flatMap Run.toList) t)
    (proper : ∀ r ∈ runs, 0 < r.length) (capacity : s.capacity < Word.limit) : t.Returnable runs := by
  have member : ∀ r ∈ runs, ∀ a, r.start ≤ a → a < r.stop →
      (⟨r.region, a⟩ : Location) ∈ runs.flatMap Run.toList := fun r listed a lower upper =>
    List.mem_flatMap.mpr ⟨r, listed, Run.mem_toList.mpr ⟨rfl, lower, upper⟩⟩
  have taken : ∀ l ∈ runs.flatMap Run.toList, t.Taken l.address := by
    intro l given
    have home : l = ⟨s.region, l.address⟩ := by rw [← lends.within l given]
    exact (lends.taken l.address).mpr (.inr (home ▸ given))
  refine ⟨fun r listed => ?_, fun r listed some => ?_, lends.nodup, taken⟩
  · have some := proper r listed
    have first := member r listed r.start (Nat.le_refl _) (by simp only [Run.stop]; omega)
    rw [lends.shape.region]
    exact lends.within _ first
  · have last := member r listed (r.stop - 1) (by simp only [Run.stop]; omega)
      (by simp only [Run.stop]; omega)
    have bound := (taken _ last).1
    rw [lends.shape.capacity] at bound
    simp only at bound
    omega

theorem Lends.undone {given : List Location} (lends : Lends s given t) (returns : Returns t given u)
    (sound : s.Sound) (heap : s.isHeap = true) : u.strategy = s.strategy := by
  have shape := lends.shape.trans returns.shape
  apply sound.strategy_eq returns.sound heap (shape.isHeap.trans heap)
  intro a
  obtain ⟨pool, here, -, -, whole⟩ := sound.pool heap
  have free : s.Free a ↔ pool.Free a := by simp [Free, here]
  rw [returns.free, lends.free, lends.shape.region, lends.shape.isHeap, free]
  constructor
  · rintro (old | ⟨-, back⟩)
    · exact old.1
    · have bound := ((lends.taken a).mpr (.inr back)).1
      rw [lends.shape.capacity] at bound
      exact ((whole a).mp bound).resolve_right (lends.fresh _ back)
  · intro old
    by_cases back : (⟨s.region, a⟩ : Location) ∈ given
    · exact .inr ⟨heap, back⟩
    · exact .inl ⟨old, back⟩

/-- If a heap takes spans back one after another, it takes them back in every
other order, with the runs of each in any order, and is the same space afterwards.
So whatever spans it gives out, giving all of them back restores its pool. -/
theorem frees_commute {region : Region} {capacity : Nat} {requests : List Request} {s : Space}
    (run : serveAll requests (heap region capacity) = some s) :
    (∀ spans others t, Action.each free spans s = .done () t → Span.Rearranged spans others →
      Action.each free others s = .done () t) ∧
    (capacity < Word.limit → ∀ counts spans t, grantAll counts s = some (spans, t) →
      ∀ others, Span.Rearranged spans others →
        ∃ u, Action.each free others t = .done () u ∧ u.pool? = s.pool? ∧
          u.usage.used = s.usage.used) := by
  obtain ⟨sound, shape⟩ := sound_serveAll (sound_heap region capacity) run
  have isHeap : s.isHeap = true := shape.isHeap
  refine ⟨fun spans others t freed => free_rearranged sound isHeap freed, ?_⟩
  intro bound counts spans t granted others rearranged
  obtain ⟨lends, proper⟩ := lends_grantAll sound granted
  have flat : spans.flatMap Span.toList = (spans.flatMap Span.runs).flatMap Run.toList :=
    List.flatMap_assoc.symm
  rw [flat] at lends
  have heap : t.isHeap = true := lends.shape.isHeap.trans isHeap
  have returnable : t.Returnable (spans.flatMap Span.runs) := by
    apply lends.returnable _ (shape.capacity ▸ bound)
    intro r member
    obtain ⟨span, outer, listed⟩ := List.mem_flatMap.mp member
    exact proper span outer r listed
  obtain ⟨u, freed⟩ := (freeRuns_iff lends.sound heap).mpr returnable
  have returns : Returns t _ u := @free_eq_done t u ⟨spans.flatMap Span.runs⟩ lends.sound freed
  have strategy := lends.undone returns sound isHeap
  have used := usage_freeRuns heap lends.sound freed
  rw [← each_free] at freed
  refine ⟨u, free_rearranged lends.sound heap freed rearranged, ?_, ?_⟩
  · simp only [pool?, strategy]
  · rw [used, Usage.recordFree, lends.used, Nat.add_sub_cancel]

/-- A heap of which three separate vectors are free: giving back a vector twice
was refused, but not before another one had come back. -/
def fragmented : List Request :=
  [.allocate 3, .allocate 5, .free ⟨[⟨.dram0, 1, 1⟩, ⟨.dram0, 9, 1⟩]⟩, .allocate 3,
    .free ⟨[⟨.dram0, 6, 1⟩]⟩, .free ⟨[⟨.dram0, 9, 1⟩, ⟨.dram0, 1, 1⟩]⟩]

theorem frees_commute_fragmented :
    ∃ s t, serveAll fragmented (heap .dram0 10) = some s ∧
      s.pool? = some ⟨[⟨1, 1⟩, ⟨6, 1⟩, ⟨9, 1⟩], 3⟩ ∧
      Action.each free [⟨[⟨.dram0, 4, 2⟩, ⟨.dram0, 2, 1⟩]⟩, ⟨[⟨.dram0, 3, 1⟩]⟩] s = .done () t ∧
      Action.each free [⟨[⟨.dram0, 3, 1⟩]⟩, .ofRuns [⟨.dram0, 2, 1⟩, ⟨.dram0, 4, 2⟩]] s = .done () t ∧
      ∃ spans v u, grantAll [2, 4, 1] s = some (spans, v) ∧ spans.length = 2 ∧
        Action.each free spans.reverse v = .done () u ∧ u.pool? = s.pool? := by
  have run : serveAll fragmented (heap .dram0 10) = some
      ⟨.dram0, 10, .heap ⟨[⟨1, 1⟩, ⟨6, 1⟩, ⟨9, 1⟩], 3⟩, ⟨.dram0, 10, 7, 10, 11, 3⟩⟩ := by
    decide +kernel
  obtain ⟨reorder, restore⟩ := frees_commute run
  have first : Action.each free [⟨[⟨.dram0, 4, 2⟩, ⟨.dram0, 2, 1⟩]⟩, ⟨[⟨.dram0, 3, 1⟩]⟩]
      ⟨.dram0, 10, .heap ⟨[⟨1, 1⟩, ⟨6, 1⟩, ⟨9, 1⟩], 3⟩, ⟨.dram0, 10, 7, 10, 11, 3⟩⟩ =
      .done () ⟨.dram0, 10, .heap ⟨[⟨1, 6⟩, ⟨9, 1⟩], 7⟩, ⟨.dram0, 10, 3, 10, 11, 3⟩⟩ := by
    decide +kernel
  have granted : grantAll [2, 4, 1]
      ⟨.dram0, 10, .heap ⟨[⟨1, 1⟩, ⟨6, 1⟩, ⟨9, 1⟩], 3⟩, ⟨.dram0, 10, 7, 10, 11, 3⟩⟩ =
      some ([⟨[⟨.dram0, 1, 1⟩, ⟨.dram0, 6, 1⟩]⟩, ⟨[⟨.dram0, 9, 1⟩]⟩],
        ⟨.dram0, 10, .heap ⟨[], 0⟩, ⟨.dram0, 10, 10, 10, 14, 5⟩⟩) := by decide +kernel
  have second := reorder _ [⟨[⟨.dram0, 3, 1⟩]⟩, .ofRuns [⟨.dram0, 2, 1⟩, ⟨.dram0, 4, 2⟩]] _ first
    ⟨_, .swap _ _ _, .cons (.refl _) (.cons ⟨_, .swap _ _ _, .inr rfl⟩ .nil)⟩
  obtain ⟨u, freed, pool, -⟩ := restore (by decide) _ _ _ granted _
    ⟨_, List.reverse_perm _, List.forall₂_same.mpr fun span _ => .refl span⟩
  exact ⟨_, _, run, rfl, first, second, _, _, u, granted, rfl, freed, pool⟩

end Space

end VectorMemory
