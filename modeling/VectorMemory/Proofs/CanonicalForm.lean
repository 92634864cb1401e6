import VectorMemory.Proofs.Blending
import VectorMemory.Proofs.FirstFit

/-! A span is the canonical form of the vectors that it spells. However it is put together, no run
is empty and none continues the run before it, and building it anew from its vectors one by one
gives it back. So spans that spell the same vectors are the same. -/
namespace VectorMemory

/-! ### Questions about a span -/

/-- A sum overflows iff it is no word, whatever the order of the terms. -/
theorem Word.sum_eq (terms : List Nat) :
    sum terms = if terms.sum < limit then .ok terms.sum else .error .addOverflow := by
  suffices summed : ∀ start, start < limit → terms.foldlM add start =
      if start + terms.sum < limit then .ok (start + terms.sum) else .error .addOverflow by
    unfold sum
    simpa using summed 0 (by decide)
  induction terms with
  | nil =>
    intro start word
    simp [word, pure, Except.pure]
  | cons first rest ih =>
    intro start word
    rw [List.foldlM_cons, List.sum_cons, ← Nat.add_assoc]
    by_cases next : start + first < limit
    · rw [add_eq_ok next]
      exact ih _ next
    · rw [add, if_neg next, if_neg (by omega)]
      rfl

namespace Run

def single (l : Location) : Run :=
  ⟨l.region, l.address, 1⟩

theorem tryContains_of_stop {r : Run} (word : r.stop < Word.limit) (l : Location) :
    r.tryContains l = .ok (decide (l ∈ r.toList)) := by
  have stop : r.tryStop = .ok r.stop := Word.add_eq_ok word
  unfold tryContains
  split
  · next inside =>
    rw [stop]
    simp [mem_toList, inside, bind, Except.bind, pure, Except.pure]
  · next outside =>
    have absent : l ∉ r.toList := fun member =>
      outside ⟨(mem_toList.mp member).1, (mem_toList.mp member).2.1⟩
    simp [absent, pure, Except.pure]

theorem toList_succ (region : Region) (start length : Nat) :
    (Run.mk region start (length + 1)).toList =
      (Run.mk region start length).toList ++ [⟨region, start + length⟩] := by
  simp [toList, List.range'_concat]

end Run

namespace Span

variable {s t : Span} {r : Run} {runs : List Run} {locations : List Location}

theorem trySize_eq (s : Span) : s.trySize =
    if s.toList.length < Word.limit then .ok s.toList.length else .error .addOverflow := by
  have total : (s.runs.map Run.length).sum = s.toList.length := by
    rw [toList, List.length_flatMap]
    simp
  rw [trySize, Word.sum_eq, total]

theorem tryContains_of_stops (words : ∀ r ∈ s.runs, r.stop < Word.limit) (l : Location) :
    s.tryContains l = .ok (decide (l ∈ s.toList)) := by
  obtain ⟨runs⟩ := s
  unfold tryContains toList
  induction runs with
  | nil => rfl
  | cons r rest ih =>
    rw [List.forall_mem_cons] at words
    rw [List.anyM, Run.tryContains_of_stop words.1, List.flatMap_cons]
    by_cases inside : l ∈ r.toList
    · simp [inside, bind, Except.bind, pure, Except.pure]
    · have later := ih words.2
      simpa [inside, bind, Except.bind] using later

/-! ### Canonical form -/

/-- No run is empty, and none goes on where the one before ends. -/
structure Canonical (s : Span) : Prop where
  proper : s.Proper
  apart : s.runs.IsChain fun a b => ¬Continues a b

theorem canonical_empty : empty.Canonical :=
  ⟨proper_empty, List.IsChain.nil⟩

theorem head?_joinLast {first head : Run} (begins : head ∈ (joinLast (first :: runs) r).head?) :
    head.region = first.region ∧ head.start = first.start := by
  cases runs with
  | nil =>
    unfold joinLast at begins
    split at begins <;> cases begins <;> exact ⟨rfl, rfl⟩
  | cons next rest =>
    cases begins
    exact ⟨rfl, rfl⟩

theorem isChain_joinLast (chain : runs.IsChain fun a b => ¬Continues a b) :
    (joinLast runs r).IsChain fun a b => ¬Continues a b := by
  fun_induction joinLast runs r with
  | case1 r => exact List.isChain_singleton _
  | case2 last r joins => exact List.isChain_singleton _
  | case3 last r apart => exact List.isChain_cons_cons.mpr ⟨apart, List.isChain_singleton _⟩
  | case4 first next rest r ih =>
    obtain ⟨apart, later⟩ := List.isChain_cons_cons.mp chain
    refine List.isChain_cons.mpr ⟨fun head begins continues => apart ?_, ih later⟩
    -- a run that is extended still starts where it did
    obtain ⟨region, start⟩ := head?_joinLast begins
    exact ⟨continues.1.trans region, continues.2.trans start⟩

theorem Canonical.push (canonical : s.Canonical) (r : Run) : (s.push r).Canonical := by
  refine ⟨canonical.proper.push r, ?_⟩
  unfold Span.push
  split
  · exact canonical.apart
  · exact isChain_joinLast canonical.apart

theorem Canonical.foldl_push (canonical : s.Canonical) (runs : List Run) :
    (runs.foldl Span.push s).Canonical := by
  induction runs generalizing s with
  | nil => exact canonical
  | cons r rest ih => exact ih (canonical.push r)

/-! ### Vector by vector -/

theorem joinLast_cons {first : Run} (more : runs ≠ []) :
    joinLast (first :: runs) r = first :: joinLast runs r := by
  obtain ⟨next, rest, rfl⟩ := List.exists_cons_of_ne_nil more
  rfl

theorem joinLast_ne_nil (runs : List Run) (r : Run) : joinLast runs r ≠ [] := by
  fun_cases joinLast runs r <;> simp

theorem joinLast_of_continues {last : Run} (continues : Continues last r) :
    joinLast [last] r = [{ last with length := last.length + r.length }] :=
  if_pos continues

theorem joinLast_joinLast {a b : Run} (continues : Continues a b) :
    joinLast (joinLast runs a) b = joinLast runs { a with length := a.length + b.length } := by
  fun_induction joinLast runs a with
  | case1 a => exact joinLast_of_continues continues
  | case2 last a joins =>
    have whole : Continues { last with length := last.length + a.length } b := by
      refine ⟨joins.1.trans continues.1, ?_⟩
      rw [← continues.2, Run.stop, Run.stop, ← joins.2, Run.stop, Nat.add_assoc]
    have first : Continues last { a with length := a.length + b.length } := joins
    rw [joinLast_of_continues whole, joinLast_of_continues first, Nat.add_assoc]
  | case3 last a apart =>
    have other : ¬Continues last { a with length := a.length + b.length } := apart
    rw [joinLast_cons (List.cons_ne_nil _ _), joinLast_of_continues continues]
    exact (if_neg other).symm
  | case4 first next rest a ih =>
    rw [joinLast_cons (joinLast_ne_nil _ _), ih continues, joinLast]

theorem push_push {a b : Run} (continues : Continues a b) :
    (s.push a).push b = s.push { a with length := a.length + b.length } := by
  unfold push
  by_cases first : a.length = 0
  · -- an empty run ends where it starts
    have start : a.start = b.start := by simpa [Run.stop, first] using continues.2
    have same : { a with length := a.length + b.length } = b := by
      rw [first, Nat.zero_add, start, continues.1]
    rw [if_pos first, same]
  · by_cases second : b.length = 0
    · simp [first, second]
    · rw [if_neg first, if_neg second, if_neg (by simp [first]), joinLast_joinLast continues]

/-- Pushing the vectors of a run one by one pushes the run. -/
theorem foldl_push_single (s : Span) (r : Run) :
    (r.toList.map Run.single).foldl Span.push s = s.push r := by
  obtain ⟨region, start, length⟩ := r
  induction length with
  | zero => rfl
  | succ length ih =>
    have continues : Continues ⟨region, start, length⟩ (Run.single ⟨region, start + length⟩) :=
      ⟨rfl, rfl⟩
    rw [Run.toList_succ, List.map_append, List.foldl_append, ih]
    exact push_push continues

theorem foldl_push_singles (s : Span) (runs : List Run) :
    ((runs.flatMap Run.toList).map Run.single).foldl Span.push s = runs.foldl Span.push s := by
  induction runs generalizing s with
  | nil => rfl
  | cons r rest ih =>
    rw [List.flatMap_cons, List.map_append, List.foldl_append, foldl_push_single, ih, List.foldl_cons]

theorem canonical_tryOfLocations (built : tryOfLocations locations = .ok s) : s.Canonical := by
  rw [tryExtend_eq_ok built]
  exact canonical_empty.foldl_push _

theorem Canonical.foldl_toList (canonical : s.Canonical) :
    (s.toList.map Run.single).foldl Span.push empty = s := by
  have kept : (ofRuns s.runs).runs = s.runs := runs_ofRuns canonical.proper canonical.apart
  rw [toList, foldl_push_singles]
  exact congrArg Span.mk kept

theorem Canonical.ext (first : s.Canonical) (second : t.Canonical) (same : s.toList = t.toList) :
    s = t := by
  rw [← first.foldl_toList, ← second.foldl_toList, same]

theorem Canonical.isContiguous_iff (canonical : s.Canonical) :
    s.isContiguous = true ↔
      ∃ region start, ∀ (k : Nat) l, s.toList[k]? = some l → l = ⟨region, start + k⟩ := by
  constructor
  · intro one
    obtain ⟨runs⟩ := s
    match runs, of_decide_eq_true one with
    | [], _ => exact ⟨.dram0, 0, fun k l found => by cases found⟩
    | [r], _ =>
      refine ⟨r.region, r.start, fun k l found => ?_⟩
      rw [toList, List.flatMap_singleton] at found
      exact (Run.getElem?_toList.mp found).2
  · rintro ⟨region, start, consecutive⟩
    have spelled : s.toList = (empty.push ⟨region, start, s.toList.length⟩).toList := by
      rw [toList_push, toList_empty, List.nil_append]
      apply List.ext_getElem?
      intro k
      cases found : s.toList[k]? with
      | none =>
        have beyond := List.getElem?_eq_none_iff.mp found
        exact (List.getElem?_eq_none (by rwa [Run.length_toList])).symm
      | some l =>
        have bound := (List.getElem?_eq_some_iff.mp found).1
        exact (Run.getElem?_toList.mpr ⟨bound, consecutive k l found⟩).symm
    rw [canonical.ext (canonical_empty.push _) spelled]
    unfold Span.push
    split <;> rfl

/-- All that can be asked of a span is answered by the vectors that it spells, and it can be told
from them. The number of vectors is only known if it is a word. -/
structure Spells (s : Span) (locations : List Location) : Prop where
  walk : s.tryToList = .ok locations
  size : s.trySize =
    if locations.length < Word.limit then .ok locations.length else .error .addOverflow
  contains : ∀ l, s.tryContains l = .ok (decide (l ∈ locations))
  filled : ∀ r ∈ s.runs, 0 < r.length
  apart : s.runs.IsChain fun a b => ¬(a.region = b.region ∧ a.stop = b.start)
  rebuilt : tryOfLocations locations = .ok s
  contiguous : s.isContiguous = true ↔
    ∃ region start, ∀ (k : Nat) l, locations[k]? = some l → l = ⟨region, start + k⟩

theorem Canonical.spells (canonical : s.Canonical) (bounded : s.Bounded) : s.Spells s.toList := by
  refine ⟨tryToList_of_bounded canonical.proper bounded, trySize_eq s, ?_, canonical.proper,
    canonical.apart, ?_, canonical.isContiguous_iff⟩
  · exact tryContains_of_stops fun r member => bounded.stop_lt_limit canonical.proper member
  · obtain ⟨t, built⟩ := tryOfLocations_of_bounded bounded
    rw [built, (canonical_tryOfLocations built).ext canonical (toList_tryOfLocations built)]

end Span

/-! ### Putting spans together -/

inductive Recipe where
  | empty
  | push (base : Recipe) (run : Run)
  | extend (base other : Recipe)
  | ofLocations (locations : List Location)

namespace Recipe

def build : Recipe → Except Fault Span
  | .empty => return .empty
  | .push base r => do
      let s ← base.build
      s.tryPush r
  | .extend base other => do
      let s ← base.build
      let t ← other.build
      s.tryExtend t.runs
  | .ofLocations locations => Span.tryOfLocations locations

def pushed : Recipe → List Location
  | .empty => []
  | .push base r => base.pushed ++ r.toList
  | .extend base other => base.pushed ++ other.pushed
  | .ofLocations locations => locations

def Fits : Recipe → Prop
  | .empty => True
  | .push base r => base.Fits ∧ r.stop < Word.limit
  | .extend base other => base.Fits ∧ other.Fits
  | .ofLocations locations => ∀ l ∈ locations, l.address + 1 < Word.limit

instance decidableFits : (recipe : Recipe) → Decidable recipe.Fits
  | .empty => inferInstanceAs (Decidable True)
  | .push base r =>
      have := decidableFits base
      inferInstanceAs (Decidable (base.Fits ∧ r.stop < Word.limit))
  | .extend base other =>
      have := decidableFits base
      have := decidableFits other
      inferInstanceAs (Decidable (base.Fits ∧ other.Fits))
  | .ofLocations locations =>
      inferInstanceAs (Decidable (∀ l ∈ locations, l.address + 1 < Word.limit))

theorem Fits.below {recipe : Recipe} (fits : recipe.Fits) :
    ∀ l ∈ recipe.pushed, l.address < Word.max := by
  induction recipe with
  | empty => exact fun l member => by cases member
  | push base r ih =>
    refine List.forall_mem_append.mpr ⟨ih fits.1, fun l member => ?_⟩
    have inside := (Run.mem_toList.mp member).2.2
    have stop := fits.2
    simp only [Word.max]
    omega
  | extend base other ih ih' => exact List.forall_mem_append.mpr ⟨ih fits.1, ih' fits.2⟩
  | ofLocations locations =>
    intro l member
    have word := fits l member
    simp only [Word.max]
    omega

theorem build_eq_ok {recipe : Recipe} (fits : recipe.Fits) :
    ∃ s, recipe.build = .ok s ∧ s.Canonical ∧ s.toList = recipe.pushed := by
  have below := fits.below
  induction recipe with
  | empty => exact ⟨.empty, rfl, Span.canonical_empty, rfl⟩
  | push base r ih =>
    obtain ⟨before, here⟩ := List.forall_mem_append.mp below
    obtain ⟨s, built, canonical, spelled⟩ := ih fits.1 before
    have bounded : s.Bounded := by rwa [Span.Bounded, spelled]
    refine ⟨s.push r, ?_, canonical.push r, by rw [Span.toList_push, spelled, pushed]⟩
    exact bind_eq_ok.mpr ⟨s, built, Span.tryPush_of_bounded canonical.proper bounded here⟩
  | extend base other ih ih' =>
    obtain ⟨before, here⟩ := List.forall_mem_append.mp below
    obtain ⟨s, built, canonical, spelled⟩ := ih fits.1 before
    obtain ⟨t, built', -, spelled'⟩ := ih' fits.2 here
    have bounded : s.Bounded := by rwa [Span.Bounded, spelled]
    have bounded' : t.Bounded := by rwa [Span.Bounded, spelled']
    obtain ⟨u, extended, -⟩ := Span.tryExtend_of_bounded canonical.proper bounded bounded'
    refine ⟨u, bind_eq_ok.mpr ⟨s, built, bind_eq_ok.mpr ⟨t, built', extended⟩⟩, ?_, ?_⟩
    · rw [Span.tryExtend_eq_ok extended]
      exact canonical.foldl_push t.runs
    · rw [Span.toList_tryExtend extended, spelled, pushed, ← spelled', Span.toList]
  | ofLocations locations =>
    obtain ⟨s, built⟩ := Span.tryOfLocations_of_bounded below
    exact ⟨s, built, Span.canonical_tryOfLocations built, Span.toList_tryOfLocations built⟩

/-- However a span is put together from runs that end at words, it is determined by the vectors
that were pushed, in their order, and tells them back. -/
theorem canonical_form {recipe : Recipe} (fits : recipe.Fits) :
    ∃ s, recipe.build = .ok s ∧ s.Spells recipe.pushed ∧
      ∀ other t, Fits other → other.build = .ok t → (s = t ↔ recipe.pushed = other.pushed) := by
  obtain ⟨s, built, canonical, spelled⟩ := build_eq_ok fits
  have bounded : s.Bounded := by
    rw [Span.Bounded, spelled]
    exact fits.below
  refine ⟨s, built, spelled ▸ canonical.spells bounded, fun other t fits' built' => ?_⟩
  obtain ⟨_, same, canonical', spelled'⟩ := build_eq_ok fits'
  rw [built'] at same
  cases same
  rw [← spelled, ← spelled']
  exact ⟨congrArg Span.toList, canonical.ext canonical'⟩

/-- Runs that are merged, empty, out of order, repeated and of two regions. -/
def patchwork : Recipe :=
  .extend (.push (.push (.push .empty ⟨.dram0, 0, 4⟩) ⟨.dram0, 4, 2⟩) ⟨.scratch, 6, 0⟩)
    (.push (.ofLocations [⟨.dram0, 6⟩, ⟨.scratch, 7⟩, ⟨.scratch, 2⟩]) ⟨.scratch, 2, 1⟩)

/-- The same vectors come from single ones alone. -/
theorem canonical_form_patchwork :
    patchwork.Fits ∧ ∃ s, patchwork.build = .ok s ∧
      s.runs = [⟨.dram0, 0, 7⟩, ⟨.scratch, 7, 1⟩, ⟨.scratch, 2, 1⟩, ⟨.scratch, 2, 1⟩] ∧
      s.Spells patchwork.pushed ∧ (ofLocations patchwork.pushed).build = .ok s ∧
      s.trySize = .ok 10 ∧ s.isContiguous = false := by
  have fits : patchwork.Fits := by decide
  obtain ⟨s, built, spells, -⟩ := canonical_form fits
  have runs : patchwork.build.toOption.map Span.runs =
      some [⟨.dram0, 0, 7⟩, ⟨.scratch, 7, 1⟩, ⟨.scratch, 2, 1⟩, ⟨.scratch, 2, 1⟩] := by
    decide +kernel
  rw [built] at runs
  have listed := Option.some.inj runs
  refine ⟨fits, s, built, listed, spells, spells.rebuilt, spells.size, ?_⟩
  change s.runs = _ at listed
  rw [Span.isContiguous, listed]
  rfl

def overfull : Recipe :=
  .push (.push .empty ⟨.dram0, 0, Word.max⟩) ⟨.dram0, 0, 1⟩

/-- The span has as many vectors as there are words, so their number is none. -/
theorem size_overflows : overfull.Fits ∧ overfull.pushed.length = Word.limit ∧
    ∃ s, overfull.build = .ok s ∧ s.trySize = .error .addOverflow := by
  refine ⟨by decide, ?_, ⟨[⟨.dram0, 0, Word.max⟩, ⟨.dram0, 0, 1⟩]⟩, rfl, rfl⟩
  simp only [overfull, pushed, List.nil_append, List.length_append, Run.length_toList]
  rfl

end Recipe

end VectorMemory
