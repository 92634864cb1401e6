import Mathlib.Data.List.Chain
import VectorMemory.Proofs.FreeSet

/-! Where a pool places a request. The lowest run that is long enough gives its front. If no
run is, runs are taken whole from the lowest address on, and only the last one is split. Free
runs never touch, so the runs of a span are the runs that were taken. -/
namespace VectorMemory

namespace Span

def Continues (a b : Run) : Prop :=
  a.region = b.region ∧ a.stop = b.start

theorem joinLast_eq_append {runs : List Run} {r : Run}
    (apart : ∀ last ∈ runs.getLast?, ¬Continues last r) : joinLast runs r = runs ++ [r] := by
  fun_induction joinLast runs r with
  | case1 => rfl
  | case2 last r joins => exact absurd joins (apart last rfl)
  | case3 => rfl
  | case4 first next rest r ih =>
    rw [List.getLast?_cons_cons] at apart
    rw [ih apart]
    rfl

theorem runs_foldl_push {runs : List Run} {s : Span} (positive : ∀ r ∈ runs, 0 < r.length)
    (chain : (s.runs ++ runs).IsChain fun a b => ¬Continues a b) :
    (runs.foldl push s).runs = s.runs ++ runs := by
  induction runs generalizing s with
  | nil => simp
  | cons r rest ih =>
    rw [List.forall_mem_cons] at positive
    have apart : ∀ last ∈ s.runs.getLast?, ¬Continues last r := fun last ends =>
      (List.isChain_append.mp chain).2.2 last ends r rfl
    have pushed : (s.push r).runs = s.runs ++ [r] := by
      rw [push, if_neg (Nat.ne_of_gt positive.1)]
      exact joinLast_eq_append apart
    rw [List.foldl_cons, ih positive.2 (by simpa [pushed] using chain), pushed, List.append_assoc,
      List.singleton_append]

theorem runs_ofRuns {runs : List Run} (positive : ∀ r ∈ runs, 0 < r.length)
    (chain : runs.IsChain fun a b => ¬Continues a b) : (ofRuns runs).runs = runs :=
  runs_foldl_push positive chain

end Span

def Gap.toRun (region : Region) (g : Gap) : Run :=
  ⟨region, g.start, g.length⟩

namespace FreePool

variable {count start : Nat} {gaps left : List Gap} {pool : FreePool}

/-! ### The two ways to take addresses -/

theorem takeFirstFit_eq_none : takeFirstFit count gaps = none ↔ ∀ g ∈ gaps, g.length < count := by
  induction gaps with
  | nil => simp [takeFirstFit]
  | cons g rest ih =>
    rw [takeFirstFit, List.forall_mem_cons, ← ih]
    split
    · next fits => simp [Nat.not_lt.mpr fits]
    · next short => simp [Nat.lt_of_not_le short]

theorem takeFirstFit_eq_some (taken : takeFirstFit count gaps = some (start, left)) :
    ∃ before g after, gaps = before ++ g :: after ∧ (∀ h ∈ before, h.length < count) ∧
      count ≤ g.length ∧ start = g.start ∧ left = before ++ (remainder g count ++ after) := by
  induction gaps generalizing left with
  | nil => cases taken
  | cons g rest ih =>
    rw [takeFirstFit] at taken
    split at taken
    · next fits =>
      cases taken
      exact ⟨[], g, rest, rfl, by simp, fits, rfl, rfl⟩
    · next short =>
      obtain ⟨⟨start', left'⟩, later, same⟩ := Option.map_eq_some_iff.mp taken
      cases same
      obtain ⟨before, h, after, split, shorter, fits, begins, rest⟩ := ih later
      refine ⟨g :: before, h, after, by rw [split]; rfl, ?_, fits, begins, by rw [rest]; rfl⟩
      exact List.forall_mem_cons.mpr ⟨Nat.lt_of_not_le short, shorter⟩

theorem takeLowest_zero (gaps : List Gap) : takeLowest 0 gaps = ([], gaps) := by
  cases gaps <;> rfl

theorem takeLowest_eq (some : 0 < count) (enough : count ≤ weight gaps) :
    ∃ whole last after kept, gaps = whole ++ last :: after ∧ 0 < kept ∧ kept ≤ last.length ∧
      takeLowest count gaps = (whole ++ [⟨last.start, kept⟩], remainder last kept ++ after) := by
  induction gaps generalizing count with
  | nil =>
    rw [weight_nil] at enough
    omega
  | cons g rest ih =>
    rw [weight_cons] at enough
    rw [takeLowest, if_neg (Nat.ne_of_gt some)]
    rcases Nat.lt_trichotomy g.length count with whole | all | part
    · obtain ⟨before, last, after, kept, split, positive, bound, taken⟩ :=
        @ih (count - g.length) (by omega) (by omega)
      refine ⟨g :: before, last, after, kept, by rw [split]; rfl, positive, bound, ?_⟩
      rw [if_pos (Nat.le_of_lt whole), taken]
      rfl
    · -- the last run goes whole, and no address is looked for behind it
      refine ⟨[], g, rest, count, rfl, some, Nat.le_of_eq all.symm, ?_⟩
      rw [if_pos (Nat.le_of_eq all), all, Nat.sub_self, takeLowest_zero, remainder,
        if_neg (by omega), ← all]
      rfl
    · refine ⟨[], g, rest, count, rfl, some, Nat.le_of_lt part, ?_⟩
      rw [if_neg (Nat.not_le.mpr part)]
      rfl

/-! ### Order -/

theorem addresses_sorted (apart : Apart gaps) : (addresses gaps).Pairwise (· < ·) := by
  unfold addresses
  induction gaps with
  | nil => exact .nil
  | cons g rest ih =>
    obtain ⟨-, after, restApart⟩ := apart_cons.mp apart
    rw [List.flatMap_cons, List.pairwise_append]
    refine ⟨List.pairwise_lt_range', ih restApart, ?_⟩
    intro a first b later
    have behind := after b (mem_addresses.mp later)
    rw [List.mem_range'_1] at first
    simp only [Gap.stop] at behind
    omega

theorem runs_ofRuns_gaps (region : Region) (apart : Apart gaps) :
    (Span.ofRuns (gaps.map (Gap.toRun region))).runs = gaps.map (Gap.toRun region) := by
  apply Span.runs_ofRuns
  · intro r member
    obtain ⟨g, inside, rfl⟩ := List.mem_map.mp member
    exact apart.2 g inside
  · apply List.Pairwise.isChain
    rw [List.pairwise_map]
    apply apart.1.imp
    intro g h before continues
    exact Nat.ne_of_lt before continues.2

theorem sorted_ofRuns_gaps (region : Region) (apart : Apart gaps) :
    ((Span.ofRuns (gaps.map (Gap.toRun region))).toList.map Location.address).Pairwise (· < ·) := by
  have spelled := toList_ofRuns_gaps region gaps
  change (Span.ofRuns (gaps.map (Gap.toRun region))).toList = _ at spelled
  rw [spelled, List.map_map]
  simpa [Function.comp_def] using addresses_sorted apart

theorem Apart.nodup (apart : Apart gaps) : gaps.Nodup := by
  apply apart.1.imp
  rintro g h before rfl
  simp only [Gap.stop] at before
  omega

/-! ### Placements -/

/-- The front of the lowest run that is long enough is taken, and all other runs stay. -/
structure FirstFit (pool : FreePool) (region : Region) (count : Nat) (g : Gap) (span : Span)
    (left : FreePool) : Prop where
  found : g ∈ pool.gaps ∧ count ≤ g.length
  lowest : ∀ h ∈ pool.gaps, count ≤ h.length → g.start ≤ h.start
  runs : span.runs = [⟨region, g.start, count⟩]
  rest : ∀ h, h ∈ left.gaps ↔ h ∈ remainder g count ∨ (h ∈ pool.gaps ∧ h ≠ g)

/-- The lowest free addresses are taken: whole runs, and the front of a last one. All runs
behind it stay. -/
structure Gathers (pool : FreePool) (region : Region) (span : Span) (left : FreePool) : Prop where
  scattered : span.isContiguous = false
  free : ∀ l ∈ span.toList, pool.Free l.address
  lowest : ∀ l ∈ span.toList, ∀ a, pool.Free a → ⟨region, a⟩ ∉ span.toList → l.address < a
  runs : ∃ whole last after kept, pool.gaps = whole ++ last :: after ∧ 0 < kept ∧
    kept ≤ last.length ∧ span.runs = (whole ++ [⟨last.start, kept⟩]).map (Gap.toRun region) ∧
    left.gaps = remainder last kept ++ after

theorem firstFit_of_split {before after : List Gap} {g : Gap} {total : Nat} (sound : pool.Sound)
    (some : 0 < count) (split : pool.gaps = before ++ g :: after)
    (shorter : ∀ h ∈ before, h.length < count) (fits : count ≤ g.length) (region : Region) :
    FirstFit pool region count g (.ofRuns [⟨region, g.start, count⟩])
      ⟨before ++ (remainder g count ++ after), total⟩ := by
  have ordered := sound.apart.1
  have nodup := sound.apart.nodup
  rw [split] at ordered nodup
  obtain ⟨-, behind, -⟩ := List.pairwise_append.mp ordered
  constructor
  · exact ⟨by simp [split], fits⟩
  · intro h member long
    rw [split, List.mem_append, List.mem_cons] at member
    rcases member with early | rfl | late
    · exact absurd long (Nat.not_le.mpr (shorter h early))
    · exact Nat.le_refl _
    · have := (List.pairwise_cons.mp behind).1 h late
      simp only [Gap.stop] at this
      omega
  · exact Span.runs_ofRuns (by simpa using some) (by simp)
  · intro h
    have others : h ∈ before ∨ h ∈ after ↔ h ∈ before ++ g :: after ∧ h ≠ g := by
      obtain ⟨apart, -⟩ := List.nodup_cons.mp (List.nodup_middle.mp nodup)
      constructor
      · rintro outside
        refine ⟨by simp only [List.mem_append, List.mem_cons]; tauto, ?_⟩
        rintro rfl
        exact apart (List.mem_append.mpr outside)
      · rintro ⟨member, other⟩
        simpa [other] using member
    rw [split, ← others]
    simp only [List.mem_append]
    tauto

theorem covers_lt {whole after : List Gap} {last : Gap} {kept a b : Nat}
    (apart : Apart (whole ++ last :: after)) (bound : kept ≤ last.length)
    (taken : Covers (whole ++ [⟨last.start, kept⟩]) a)
    (rest : Covers (remainder last kept ++ after) b) : a < b := by
  obtain ⟨-, behind, before⟩ := List.pairwise_append.mp apart.1
  have suffix : Apart (last :: after) :=
    ⟨behind, fun g member => apart.2 g (List.mem_append_right _ member)⟩
  have above : last.start + kept ≤ b := by
    rcases ((remainder_append suffix bound).2.2 b).mp rest with inside | later
    · exact inside.1
    · have := (apart_cons.mp suffix).2.1 b later
      simp only [Gap.stop] at this
      omega
  obtain ⟨g, member, lower, upper⟩ := taken
  rcases List.mem_append.mp member with early | final
  · have := before g early last List.mem_cons_self
    omega
  · rw [List.mem_singleton.mp final] at upper
    exact Nat.lt_of_lt_of_le upper above

theorem gathers_of_short {taken left : List Gap} {total : Nat} (sound : pool.Sound) (some : 0 < count)
    (enough : count ≤ pool.total) (short : ∀ g ∈ pool.gaps, g.length < count)
    (split : takeLowest count pool.gaps = (taken, left)) (region : Region) :
    Gathers pool region (.ofRuns (taken.map (Gap.toRun region))) ⟨left, total⟩ := by
  obtain ⟨takenApart, -, weighed, -, covered, -⟩ := takeLowest_spec sound.apart split
  rw [sound.total] at enough
  obtain ⟨whole, last, after, kept, gaps, positive, bound, parts⟩ := takeLowest_eq some enough
  obtain ⟨rfl, rfl⟩ := Prod.mk.inj (split.symm.trans parts)
  have runs := runs_ofRuns_gaps region takenApart
  have apart := sound.apart
  rw [gaps] at apart
  constructor
  · -- a single run would have been long enough
    have several : whole ≠ [] := by
      rintro rfl
      have := short last (by simp [gaps])
      simp only [List.nil_append, weight_cons, weight_nil] at weighed
      omega
    rw [Span.isContiguous, runs]
    simpa using several
  · intro l member
    exact (covered _).mpr (.inl (mem_ofRuns_gaps.mp member).2)
  · intro l member a free outside
    refine covers_lt apart bound (mem_ofRuns_gaps.mp member).2 ?_
    exact ((covered a).mp free).resolve_left fun inside => outside (mem_ofRuns_gaps.mpr ⟨rfl, inside⟩)
  · exact ⟨whole, last, after, kept, gaps, positive, bound, runs, rfl⟩

theorem allocate_placed (sound : pool.Sound) (some : 0 < count) (enough : count ≤ pool.total)
    (region : Region) : ∃ span left, pool.allocate region count = .ok (span, left) ∧
      (span.toList.map Location.address).Pairwise (· < ·) ∧
      ((∃ g ∈ pool.gaps, count ≤ g.length) → ∃ g, FirstFit pool region count g span left) ∧
      ((∀ g ∈ pool.gaps, g.length < count) → Gathers pool region span left) := by
  rw [allocate, if_neg (Nat.ne_of_gt some), if_neg (Nat.not_lt.mpr enough)]
  cases fit : takeFirstFit count pool.gaps with
  | some front =>
    obtain ⟨start, left⟩ := front
    obtain ⟨before, g, after, split, shorter, fits, rfl, rfl⟩ := takeFirstFit_eq_some fit
    have single : Apart [⟨g.start, count⟩] := apart_cons.mpr ⟨some, by simp, apart_nil⟩
    refine ⟨_, _, rfl, sorted_ofRuns_gaps region single,
      fun _ => ⟨g, firstFit_of_split sound some split shorter fits region⟩, fun short => ?_⟩
    exact absurd fits (Nat.not_le.mpr (short g (by simp [split])))
  | none =>
    have short := takeFirstFit_eq_none.mp fit
    have split : takeLowest count pool.gaps = (_, _) := rfl
    refine ⟨_, _, rfl, sorted_ofRuns_gaps region (takeLowest_spec sound.apart split).1,
      fun longer => ?_, fun _ => gathers_of_short sound some enough short split region⟩
    obtain ⟨g, member, fits⟩ := longer
    exact absurd fits (Nat.not_le.mpr (short g member))

/-- A request fails exactly if there are fewer free addresses. Otherwise it is given as many
addresses as it asks for, in order: the front of the lowest run that is long enough, or else
the lowest free addresses, from several runs of which only the last is split. -/
theorem placement_policy {capacity : Nat} {requests : List Request}
    (run : serveAll requests (ofCapacity capacity) = some pool) (some : 0 < count) (region : Region) :
    (∀ cause, pool.allocate region count = .error cause ↔
      pool.total < count ∧ cause = .outOfMemory region count pool.total) ∧
    (count ≤ pool.total → ∃ span left, pool.allocate region count = .ok (span, left) ∧
      span.toList.length = count ∧ (∀ l ∈ span.toList, l.region = region) ∧
      (span.toList.map Location.address).Pairwise (· < ·) ∧
      ((∃ g ∈ pool.gaps, count ≤ g.length) → ∃ g, FirstFit pool region count g span left) ∧
      ((∀ g ∈ pool.gaps, g.length < count) → Gathers pool region span left)) := by
  have sound := (sound_ofCapacity capacity).serveAll run
  refine ⟨fun cause => allocate_eq_error, fun enough => ?_⟩
  obtain ⟨span, left, allocated, sorted, placed⟩ := allocate_placed sound some enough region
  have grants := allocate_grants sound allocated
  exact ⟨span, left, allocated, grants.length, grants.within, sorted, placed⟩

/-- Of five pairs of vectors three are free. Two vectors come from the lowest pair, five from
all three pairs, and seven are too many. -/
theorem placement_policy_fragmented :
    ∃ pool, serveAll [.allocate .dram0 10, .release .dram0 0 2 10, .release .dram0 8 2 10,
        .release .dram0 4 2 10] (ofCapacity 10) = some pool ∧
      (∃ span left g, pool.allocate .dram0 2 = .ok (span, left) ∧ FirstFit pool .dram0 2 g span left) ∧
      (∃ span left, pool.allocate .dram0 5 = .ok (span, left) ∧ Gathers pool .dram0 span left) ∧
      pool.allocate .dram0 7 = .error (.outOfMemory .dram0 7 6) := by
  have run : serveAll [.allocate .dram0 10, .release .dram0 0 2 10, .release .dram0 8 2 10,
      .release .dram0 4 2 10] (ofCapacity 10) = some ⟨[⟨0, 2⟩, ⟨4, 2⟩, ⟨8, 2⟩], 6⟩ := by
    decide +kernel
  obtain ⟨-, two⟩ := placement_policy run (show 0 < 2 by decide) .dram0
  obtain ⟨-, five⟩ := placement_policy run (show 0 < 5 by decide) .dram0
  obtain ⟨seven, -⟩ := placement_policy run (show 0 < 7 by decide) .dram0
  obtain ⟨span, left, given, -, -, -, fit, -⟩ := two (by decide)
  obtain ⟨span', left', given', -, -, -, -, gathered⟩ := five (by decide)
  obtain ⟨g, placed⟩ := fit ⟨⟨0, 2⟩, by simp, by decide⟩
  exact ⟨_, run, ⟨span, left, g, given, placed⟩, ⟨span', left', given', gathered (by simp)⟩,
    (seven _).mpr ⟨by decide, rfl⟩⟩

end FreePool

end VectorMemory
