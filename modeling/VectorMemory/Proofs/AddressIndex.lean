import Mathlib.Data.List.Nodup
import Mathlib.Data.List.Pairwise
import VectorMemory.AddressIndex
import VectorMemory.Proofs.Span

/-! The address index as a set of disjoint entries. Its list is ordered by
location, so the last entry that starts at or before a location is the only one
that can hold it, and a new entry meets the index only at its two neighbours. -/
namespace VectorMemory

theorem Location.before_iff {a b : Location} :
    a.before b = true ↔ a.region.rank < b.region.rank ∨
      (a.region.rank = b.region.rank ∧ a.address < b.address) := by
  simp [before]

namespace Entry

def Holds (e : Entry) (l : Location) : Prop :=
  e.region = l.region ∧ e.start ≤ l.address ∧ l.address < e.stop

def Ahead (a b : Entry) : Prop :=
  a.region.rank < b.region.rank ∨ (a.region = b.region ∧ a.stop ≤ b.start)

def Apart (a b : Entry) : Prop :=
  a.region = b.region → a.stop ≤ b.start ∨ b.stop ≤ a.start

theorem Apart.symm {a b : Entry} (apart : a.Apart b) : b.Apart a :=
  fun same => (apart same.symm).symm

instance : Std.Symm Apart :=
  ⟨fun _ _ apart => apart.symm⟩

theorem Ahead.apart {a b : Entry} (ahead : a.Ahead b) : a.Apart b := by
  intro same
  rcases ahead with lower | ⟨-, before⟩
  · rw [same] at lower
    omega
  · exact .inl before

theorem Ahead.trans {a b c : Entry} (first : a.Ahead b) (filled : b.start < b.stop)
    (second : b.Ahead c) : a.Ahead c := by
  rcases first with first | ⟨same, first⟩ <;> rcases second with second | ⟨same', second⟩
  · exact .inl (Nat.lt_trans first second)
  · exact .inl (same' ▸ first)
  · exact .inl (same ▸ second)
  · exact .inr ⟨same.trans same', by omega⟩

theorem first_before_iff {a b : Entry} :
    a.first.before b.first = true ↔
      a.region.rank < b.region.rank ∨ (a.region.rank = b.region.rank ∧ a.start < b.start) :=
  Location.before_iff

theorem rank_eq_iff {a b : Region} : a.rank = b.rank ↔ a = b :=
  ⟨Region.rank_injective, congrArg Region.rank⟩

theorem precedes_iff {a b : Entry} :
    a.precedes b = true ↔
      a.region.rank < b.region.rank ∨ (a.region.rank = b.region.rank ∧
        (a.start < b.start ∨ (a.start = b.start ∧
          (a.stop < b.stop ∨ (a.stop = b.stop ∧ a.offset ≤ b.offset))))) := by
  unfold precedes
  rw [Bool.or_eq_true, first_before_iff]
  simp only [first, Location.mk.injEq, Bool.and_eq_true, Bool.or_eq_true, decide_eq_true_eq,
    rank_eq_iff]
  constructor
  · rintro ((lower | ⟨same, earlier⟩) | ⟨⟨same, sameStart⟩, rest⟩)
    · exact .inl lower
    · exact .inr ⟨same, .inl earlier⟩
    · exact .inr ⟨same, .inr ⟨sameStart, rest⟩⟩
  · rintro (lower | ⟨same, earlier | ⟨sameStart, rest⟩⟩)
    · exact .inl (.inl lower)
    · exact .inl (.inr ⟨same, earlier⟩)
    · exact .inr ⟨⟨same, sameStart⟩, rest⟩

theorem precedes_trans {a b c : Entry} (first : a.precedes b = true)
    (second : b.precedes c = true) : a.precedes c = true := by
  rw [precedes_iff] at first second ⊢
  omega

theorem precedes_total (a b : Entry) : a.precedes b = true ∨ b.precedes a = true := by
  rw [precedes_iff, precedes_iff]
  omega

abbrev Sorted (entries : List Entry) : Prop :=
  entries.Pairwise fun a b => a.precedes b = true

/-- In the order of the index, entries without a common location follow each other. -/
theorem Apart.ahead {a b : Entry} (apart : a.Apart b) (ordered : a.precedes b = true)
    (filled : b.start < b.stop) : a.Ahead b := by
  rw [precedes_iff, rank_eq_iff] at ordered
  rcases ordered with lower | ⟨same, later⟩
  · exact .inl lower
  · exact .inr ⟨same, (apart same).resolve_right (by omega)⟩

theorem Ahead.precedes {a b : Entry} (ahead : a.Ahead b) (filled : a.start < a.stop) :
    a.precedes b = true := by
  rw [precedes_iff, rank_eq_iff]
  rcases ahead with lower | ⟨same, before⟩
  · exact .inl lower
  · exact .inr ⟨same, .inl (by omega)⟩

theorem pairwise_ahead {entries : List Entry} (apart : entries.Pairwise Apart)
    (sorted : Sorted entries) (filled : ∀ e ∈ entries, e.start < e.stop) :
    entries.Pairwise Ahead := by
  apply (List.pairwise_and_iff.mpr ⟨apart, sorted⟩).imp_of_mem
  intro a b _ member both
  exact both.1.ahead both.2 (filled b member)

/-! ### Inserting into an ordered list -/

theorem perm_insert (new : Entry) (entries : List Entry) :
    (insert new entries).Perm (new :: entries) := by
  induction entries with
  | nil => exact .refl _
  | cons x rest ih =>
    rw [insert]
    split
    · exact .refl _
    · exact (ih.cons x).trans (.swap new x rest)

theorem insert_sorted {new : Entry} {entries : List Entry} (sorted : Sorted entries) :
    Sorted (insert new entries) := by
  induction entries with
  | nil => simp [insert]
  | cons x rest ih =>
    obtain ⟨after, restSorted⟩ := List.pairwise_cons.mp sorted
    rw [insert]
    split
    · next before =>
      refine List.pairwise_cons.mpr ⟨List.forall_mem_cons.mpr ⟨before, ?_⟩, sorted⟩
      intro e member
      exact precedes_trans before (after e member)
    · next later =>
      refine List.pairwise_cons.mpr ⟨?_, ih restSorted⟩
      intro e member
      rcases List.mem_cons.mp ((perm_insert new rest).mem_iff.mp member) with rfl | old
      · exact (precedes_total x e).resolve_right later
      · exact after e old

theorem perm_insertAll (new entries : List Entry) :
    (insertAll new entries).Perm (new ++ entries) := by
  induction new generalizing entries with
  | nil => exact .refl _
  | cons x rest ih =>
    have first := (perm_insert x entries).append_left rest
    exact (ih (insert x entries)).trans (first.trans List.perm_middle)

theorem mem_insertAll {new entries : List Entry} {e : Entry} :
    e ∈ insertAll new entries ↔ e ∈ new ∨ e ∈ entries := by
  rw [(perm_insertAll new entries).mem_iff, List.mem_append]

theorem insertAll_sorted {new entries : List Entry} (sorted : Sorted entries) :
    Sorted (insertAll new entries) := by
  induction new generalizing entries with
  | nil => exact sorted
  | cons x rest ih => exact ih (insert_sorted sorted)

/-! ### Entries of an object -/

/-- The entries of the runs of an object, without the faults of word arithmetic. -/
def listing (owner : ObjectId) : Nat → List Run → List Entry
  | _, [] => []
  | offset, r :: rest => ⟨r.region, r.start, r.stop, owner, offset⟩ :: listing owner (offset + r.length) rest

theorem ofRuns_eq_ok {owner : ObjectId} {offset : Nat} {runs : List Run} {entries : List Entry}
    (built : ofRuns owner offset runs = .ok entries) : entries = listing owner offset runs := by
  induction runs generalizing offset entries with
  | nil =>
    cases built
    rfl
  | cons r rest ih =>
    rw [ofRuns] at built
    obtain ⟨stop, added, built⟩ := bind_eq_ok.mp built
    obtain ⟨-, rfl⟩ := Word.add_eq_ok_iff.mp added
    obtain ⟨next, added, built⟩ := bind_eq_ok.mp built
    obtain ⟨-, rfl⟩ := Word.add_eq_ok_iff.mp added
    obtain ⟨later, restBuilt, built⟩ := bind_eq_ok.mp built
    cases built
    rw [listing, ih restBuilt]
    rfl

theorem ofRuns_of_bounded {owner : ObjectId} {offset : Nat} {runs : List Run}
    (bounded : ∀ r ∈ runs, r.stop < Word.limit)
    (room : offset + (runs.flatMap Run.toList).length < Word.limit) :
    ofRuns owner offset runs = .ok (listing owner offset runs) := by
  induction runs generalizing offset with
  | nil => rfl
  | cons r rest ih =>
    rw [List.forall_mem_cons] at bounded
    rw [List.flatMap_cons, List.length_append, Run.length_toList, ← Nat.add_assoc] at room
    have stop : r.tryStop = .ok r.stop := Word.add_eq_ok bounded.1
    have next := Word.add_eq_ok (Nat.lt_of_le_of_lt (Nat.le_add_right _ _) room)
    rw [ofRuns]
    exact bind_eq_ok.mpr ⟨_, stop, bind_eq_ok.mpr ⟨_, next, bind_eq_ok.mpr
      ⟨_, ih bounded.2 room, rfl⟩⟩⟩

theorem owner_of_mem_listing {owner : ObjectId} {offset : Nat} {runs : List Run} {e : Entry}
    (member : e ∈ listing owner offset runs) : e.owner = owner := by
  induction runs generalizing offset with
  | nil => cases member
  | cons r rest ih =>
    rcases List.mem_cons.mp member with rfl | later
    · rfl
    · exact ih later

theorem run_of_mem_listing {owner : ObjectId} {offset : Nat} {runs : List Run} {e : Entry}
    (member : e ∈ listing owner offset runs) :
    ∃ r ∈ runs, r.region = e.region ∧ r.start = e.start ∧ r.stop = e.stop := by
  induction runs generalizing offset with
  | nil => cases member
  | cons r rest ih =>
    rcases List.mem_cons.mp member with rfl | later
    · exact ⟨r, by simp, rfl, rfl, rfl⟩
    · obtain ⟨r', inside, same⟩ := ih later
      exact ⟨r', by simp [inside], same⟩

theorem listing_filled {owner : ObjectId} {offset : Nat} {span : Span} (proper : span.Proper) :
    ∀ e ∈ listing owner offset span.runs, e.start < e.stop := by
  intro e member
  obtain ⟨r, inside, -, start, stop⟩ := run_of_mem_listing member
  have := proper r inside
  simp only [Run.stop] at stop
  omega

theorem offset_of_mem_listing {owner : ObjectId} {offset : Nat} {runs : List Run} {e : Entry}
    (member : e ∈ listing owner offset runs) : offset ≤ e.offset := by
  induction runs generalizing offset with
  | nil => cases member
  | cons r rest ih =>
    rcases List.mem_cons.mp member with rfl | later
    · exact Nat.le_refl _
    · exact Nat.le_trans (Nat.le_add_right _ _) (ih later)

theorem listing_nodup {owner : ObjectId} {offset : Nat} {runs : List Run}
    (positive : ∀ r ∈ runs, 0 < r.length) : (listing owner offset runs).Nodup := by
  induction runs generalizing offset with
  | nil => exact List.nodup_nil
  | cons r rest ih =>
    simp only [List.forall_mem_cons] at positive
    rw [listing, List.nodup_cons]
    refine ⟨?_, ih positive.2⟩
    intro later
    have := offset_of_mem_listing later
    simp only at this
    omega

theorem exists_listing_holds {owner : ObjectId} {offset k : Nat} {runs : List Run} {l : Location} :
    (∃ e ∈ listing owner offset runs, e.Holds l ∧ e.offset + (l.address - e.start) = k) ↔
      offset ≤ k ∧ (runs.flatMap Run.toList)[k - offset]? = some l := by
  induction runs generalizing offset with
  | nil => simp [listing]
  | cons r rest ih =>
    simp only [listing, List.exists_mem_cons_iff, ih, List.flatMap_cons]
    by_cases near : k - offset < r.length
    · rw [List.getElem?_append_left (by simpa using near), Run.getElem?_toList]
      constructor
      · rintro (⟨⟨region, lower, upper⟩, position⟩ | ⟨far, -⟩)
        · refine ⟨by omega, near, ?_⟩
          cases l
          simp only at region lower position
          rw [Location.mk.injEq]
          exact ⟨region.symm, by omega⟩
        · omega
      · rintro ⟨lower, -, rfl⟩
        exact .inl ⟨⟨rfl, by simp, by simpa [Run.stop] using near⟩, by simp only; omega⟩
    · rw [List.getElem?_append_right (by simpa using near), Run.length_toList, Nat.sub_sub]
      constructor
      · rintro (⟨⟨region, lower, upper⟩, position⟩ | ⟨far, found⟩)
        · simp only [Run.stop] at upper lower position
          omega
        · exact ⟨by omega, found⟩
      · rintro ⟨lower, found⟩
        exact .inr ⟨by omega, found⟩

theorem apart_of_disjoint {a b : Entry} (first : a.start < a.stop) (second : b.start < b.stop)
    (disjoint : ∀ l, a.Holds l → ¬b.Holds l) : a.Apart b := by
  intro same
  -- the later start lies in both, unless one entry ends before it
  have later := disjoint ⟨a.region, max a.start b.start⟩
  simp only [Holds, same, true_and] at later
  omega

theorem mem_of_listing_holds {owner : ObjectId} {offset : Nat} {runs : List Run} {e : Entry}
    {l : Location} (member : e ∈ listing owner offset runs) (holds : e.Holds l) :
    l ∈ runs.flatMap Run.toList := by
  obtain ⟨r, inside, region, start, stop⟩ := run_of_mem_listing member
  obtain ⟨same, lower, upper⟩ := holds
  refine List.mem_flatMap.mpr ⟨r, inside, Run.mem_toList.mpr ⟨?_, ?_, ?_⟩⟩
  · rw [region, same]
  · rwa [start]
  · rwa [stop]

/-- The runs of a span without repetition do not meet. -/
theorem listing_apart {owner : ObjectId} {offset : Nat} {runs : List Run}
    (positive : ∀ r ∈ runs, 0 < r.length) (nodup : (runs.flatMap Run.toList).Nodup) :
    (listing owner offset runs).Pairwise Apart := by
  induction runs generalizing offset with
  | nil => exact .nil
  | cons r rest ih =>
    rw [List.forall_mem_cons] at positive
    rw [List.flatMap_cons, List.nodup_append'] at nodup
    rw [listing, List.pairwise_cons]
    refine ⟨fun e member => ?_, ih positive.2 nodup.2.1⟩
    apply apart_of_disjoint
    · simp only [Run.stop]
      exact Nat.lt_add_of_pos_right positive.1
    · exact @listing_filled owner _ ⟨rest⟩ positive.2 e member
    · intro l inside holds
      obtain ⟨region, lower, upper⟩ := inside
      apply nodup.2.2 (Run.mem_toList.mpr ⟨region.symm, lower, upper⟩)
      exact mem_of_listing_holds member holds

end Entry

namespace AddressIndex

/-- The invariant of the index. -/
structure Sound (index : AddressIndex) : Prop where
  ordered : index.entries.Pairwise Entry.Ahead
  filled : ∀ e ∈ index.entries, e.start < e.stop

theorem sound_empty : empty.Sound :=
  ⟨List.Pairwise.nil, by simp [empty]⟩

theorem Sound.sorted {index : AddressIndex} (sound : index.Sound) :
    Entry.Sorted index.entries :=
  sound.ordered.imp_of_mem fun member _ ahead => ahead.precedes (sound.filled _ member)

theorem Sound.apart {index : AddressIndex} (sound : index.Sound) {a b : Entry}
    (first : a ∈ index.entries) (second : b ∈ index.entries) (other : a ≠ b) : a.Apart b :=
  (sound.ordered.imp Entry.Ahead.apart).forall first second other

theorem Sound.nodup {index : AddressIndex} (sound : index.Sound) : index.entries.Nodup := by
  apply sound.ordered.imp_of_mem
  intro a b first _ ahead same
  subst same
  have filled := sound.filled a first
  rcases ahead with lower | ⟨-, before⟩ <;> omega

theorem Sound.ext {a b : AddressIndex} (first : a.Sound) (second : b.Sound)
    (same : ∀ e, e ∈ a.entries ↔ e ∈ b.entries) : a = b := by
  have permuted : a.entries.Perm b.entries :=
    (List.perm_ext_iff_of_nodup first.nodup second.nodup).mpr same
  have equal : a.entries = b.entries := by
    apply permuted.eq_of_pairwise _ first.ordered second.ordered
    intro x y inside inside' forward backward
    have filled := first.filled x inside
    have filled' := second.filled y inside'
    rcases forward with lower | ⟨region, before⟩ <;> rcases backward with lower' | ⟨region', before'⟩
    · omega
    · rw [region'] at lower
      omega
    · rw [region] at lower'
      omega
    · omega
  cases a
  cases b
  cases equal
  rfl

theorem atOrBefore_eq_none {index : AddressIndex} {l : Location} (missing : index.atOrBefore l = none) :
    ∀ e ∈ index.entries, e.region = l.region → l.address < e.start := by
  intro e member same
  rw [atOrBefore, List.getLast?_eq_none_iff, List.filter_eq_nil_iff] at missing
  have := missing e member
  simp only [same, Bool.and_eq_true, decide_eq_true_eq, true_and] at this
  omega

theorem atOrBefore_eq_some {index : AddressIndex} {l : Location} {e : Entry} (sound : index.Sound)
    (found : index.atOrBefore l = some e) :
    e ∈ index.entries ∧ e.region = l.region ∧ e.start ≤ l.address ∧
      ∀ x ∈ index.entries, x.region = l.region → x.start ≤ l.address → x = e ∨ x.stop ≤ e.start := by
  obtain ⟨earlier, split⟩ := List.getLast?_eq_some_iff.mp found
  have member : e ∈ index.entries.filter fun e => e.region = l.region && e.start ≤ l.address := by
    simp [split]
  simp only [List.mem_filter, Bool.and_eq_true, decide_eq_true_eq] at member
  refine ⟨member.1, member.2.1, member.2.2, ?_⟩
  intro x inside same lower
  have kept : x ∈ index.entries.filter fun e => e.region = l.region && e.start ≤ l.address := by
    simp [inside, same, lower]
  rw [split, List.mem_append, List.mem_singleton] at kept
  have ordered := sound.ordered.filter fun e => e.region = l.region && e.start ≤ l.address
  rw [split, List.pairwise_append] at ordered
  rcases kept with before | rfl
  · right
    rcases ordered.2.2 x before e (by simp) with lower | ⟨-, before⟩
    · rw [same, member.2.1] at lower
      omega
    · exact before
  · exact .inl rfl

theorem find?_eq_some {index : AddressIndex} (sound : index.Sound) {l : Location}
    {owner : ObjectId} {k : Nat} :
    index.find? l = some (owner, k) ↔
      ∃ e ∈ index.entries, e.Holds l ∧ e.owner = owner ∧ e.offset + (l.address - e.start) = k := by
  unfold find?
  cases found : index.atOrBefore l with
  | none =>
    have missing := atOrBefore_eq_none found
    constructor
    · intro impossible
      cases impossible
    · rintro ⟨e, member, ⟨same, lower, -⟩, -⟩
      have := missing e member same
      omega
  | some e =>
    obtain ⟨member, same, lower, last⟩ := atOrBefore_eq_some sound found
    constructor
    · intro inside
      simp only at inside
      split at inside
      · next upper =>
        cases inside
        exact ⟨e, member, ⟨same, lower, upper⟩, rfl, rfl⟩
      · cases inside
    · rintro ⟨x, inside, ⟨sameRegion, lower', upper⟩, rfl, rfl⟩
      rcases last x inside sameRegion lower' with rfl | before
      · simp [upper]
      · omega

theorem atOrAfter_eq_none {index : AddressIndex} {l : Location} (missing : index.atOrAfter l = none) :
    ∀ e ∈ index.entries, e.region = l.region → e.start < l.address := by
  intro e member same
  have := List.find?_eq_none.mp missing e member
  simp only [same, Bool.and_eq_true, decide_eq_true_eq, true_and] at this
  omega

theorem atOrAfter_eq_some {index : AddressIndex} {l : Location} {e : Entry} (sound : index.Sound)
    (found : index.atOrAfter l = some e) :
    e ∈ index.entries ∧ e.region = l.region ∧ l.address ≤ e.start ∧
      ∀ x ∈ index.entries, x.region = l.region → l.address ≤ x.start → e.start ≤ x.start := by
  obtain ⟨accepted, earlier, later, split, skipped⟩ := List.find?_eq_some_iff_append.mp found
  simp only [Bool.and_eq_true, decide_eq_true_eq] at accepted
  have member : e ∈ index.entries := by simp [split]
  refine ⟨member, accepted.1, accepted.2, ?_⟩
  intro x inside same lower
  rw [split, List.mem_append, List.mem_cons] at inside
  rcases inside with before | rfl | after
  · have := skipped x before
    simp [same, lower] at this
  · exact Nat.le_refl _
  · have ordered := sound.ordered
    rw [split, List.pairwise_append, List.pairwise_cons] at ordered
    have filled := sound.filled e member
    rcases ordered.2.1.1 x after with lower | ⟨-, behind⟩
    · rw [same, accepted.1] at lower
      omega
    · omega

/-- A new entry is accepted iff it meets no entry of the index. -/
theorem collision_eq_none {index : AddressIndex} (sound : index.Sound) {e : Entry}
    (filled : e.start < e.stop) :
    index.collision e = none ↔ ∀ x ∈ index.entries, x.Apart e := by
  unfold collision
  constructor
  · intro accepted x member same
    split at accepted
    · cases accepted
    · next clear =>
      by_cases early : x.start ≤ e.start
      · left
        cases found : index.atOrBefore e.first with
        | none =>
          have := atOrBefore_eq_none found x member same
          simp only [Entry.first] at this
          omega
        | some y =>
          have last := (atOrBefore_eq_some sound found).2.2.2 x member same early
          have lower := (atOrBefore_eq_some sound found).2.2.1
          simp only [found, Option.any_some, decide_eq_true_eq] at clear
          rcases last with rfl | before
          · omega
          · have := sound.filled y (atOrBefore_eq_some sound found).1
            omega
      · right
        cases found : index.atOrAfter e.first with
        | none =>
          have := atOrAfter_eq_none found x member same
          simp only [Entry.first] at this
          omega
        | some y =>
          have least := (atOrAfter_eq_some sound found).2.2.2 x member same
            (by simp only [Entry.first]; omega)
          simp only [found] at accepted
          split at accepted
          · cases accepted
          · omega
  · intro apart
    split
    · next meets =>
      cases found : index.atOrBefore e.first with
      | none => simp [found] at meets
      | some y =>
        obtain ⟨member, same, lower, -⟩ := atOrBefore_eq_some sound found
        simp only [found, Option.any_some, decide_eq_true_eq] at meets
        have := apart y member same
        have := sound.filled y member
        simp only [Entry.first] at lower
        omega
    · split
      · next y found =>
        obtain ⟨member, same, lower, -⟩ := atOrAfter_eq_some sound found
        have := apart y member same
        have := sound.filled y member
        simp only [Entry.first] at lower
        rw [if_neg (by omega)]
      · rfl

theorem firstCollision_some_eq_none {index : AddressIndex} (sound : index.Sound) {p : Entry}
    {entries : List Entry} (sorted : Entry.Sorted (p :: entries))
    (filled : ∀ e ∈ entries, e.start < e.stop) :
    index.firstCollision (some p) entries = none ↔
      (p :: entries).Pairwise Entry.Ahead ∧ ∀ e ∈ entries, ∀ x ∈ index.entries, x.Apart e := by
  induction entries generalizing p with
  | nil => simp [firstCollision]
  | cons e rest ih =>
    obtain ⟨first, later⟩ := List.pairwise_cons.mp sorted
    simp only [List.forall_mem_cons] at filled first
    have free := collision_eq_none sound filled.1
    rw [firstCollision]
    simp only [Option.any_some, Bool.and_eq_true, decide_eq_true_eq, List.forall_mem_cons]
    split
    · next meets =>
      constructor
      · intro impossible
        cases impossible
      · rintro ⟨ahead, -⟩
        have := ((List.pairwise_cons.mp ahead).1 e (by simp)).apart meets.1
        rw [Entry.precedes_iff] at first
        simp only [meets.1] at first
        omega
    · next clear =>
      have ahead : p.Ahead e := by
        apply Entry.Apart.ahead _ first.1 filled.1
        intro same
        exact .inl (by simp only [same, true_and] at clear; omega)
      rw [List.pairwise_cons, List.forall_mem_cons]
      split
      · next l meets =>
        constructor
        · intro impossible
          cases impossible
        · rintro ⟨-, apart, -⟩
          rw [free.mpr apart] at meets
          cases meets
      · next accepted =>
        rw [ih later filled.2]
        constructor
        · intro ⟨ordered, apart⟩
          refine ⟨⟨⟨ahead, ?_⟩, ordered⟩, free.mp accepted, apart⟩
          intro x member
          exact ahead.trans filled.1 ((List.pairwise_cons.mp ordered).1 x member)
        · rintro ⟨⟨-, ordered⟩, -, apart⟩
          exact ⟨ordered, apart⟩

/-- Ordered entries are accepted iff no two of them meet and none meets the index. -/
theorem firstCollision_eq_none {index : AddressIndex} (sound : index.Sound) {entries : List Entry}
    (sorted : Entry.Sorted entries)
    (filled : ∀ e ∈ entries, e.start < e.stop) :
    index.firstCollision none entries = none ↔
      entries.Pairwise Entry.Ahead ∧ ∀ e ∈ entries, ∀ x ∈ index.entries, x.Apart e := by
  cases entries with
  | nil => simp [firstCollision]
  | cons e rest =>
    simp only [List.forall_mem_cons] at filled ⊢
    have free := collision_eq_none sound filled.1
    rw [firstCollision]
    simp only [Option.any_none, Bool.false_eq_true, if_false]
    split
    · next l meets =>
      constructor
      · intro impossible
        cases impossible
      · rintro ⟨-, apart, -⟩
        rw [free.mpr apart] at meets
        cases meets
    · next accepted =>
      rw [firstCollision_some_eq_none sound sorted filled.2]
      constructor
      · intro ⟨ordered, apart⟩
        exact ⟨ordered, free.mp accepted, apart⟩
      · rintro ⟨ordered, -, apart⟩
        exact ⟨ordered, apart⟩

def ordering (owner : ObjectId) (span : Span) : List Entry :=
  Entry.insertAll (Entry.listing owner 0 span.runs) []

theorem perm_ordering (owner : ObjectId) (span : Span) :
    (ordering owner span).Perm (Entry.listing owner 0 span.runs) := by
  have permuted := Entry.perm_insertAll (Entry.listing owner 0 span.runs) []
  rwa [List.append_nil] at permuted

theorem mem_ordering {owner : ObjectId} {span : Span} {e : Entry} :
    e ∈ ordering owner span ↔ e ∈ Entry.listing owner 0 span.runs :=
  (perm_ordering owner span).mem_iff

theorem ordering_sorted (owner : ObjectId) (span : Span) :
    Entry.Sorted (ordering owner span) :=
  Entry.insertAll_sorted .nil

theorem ordering_filled {owner : ObjectId} {span : Span} (proper : span.Proper) :
    ∀ e ∈ ordering owner span, e.start < e.stop :=
  fun e member => Entry.listing_filled proper e (mem_ordering.mp member)

theorem insert_cases {index : AddressIndex} {owner : ObjectId} {span : Span}
    {result : Except MemoryError AddressIndex} (entered : index.insert owner span = .ok result) :
    (∃ l, index.firstCollision none (ordering owner span) = some l ∧ result = .error (.claimed l)) ∨
      (index.firstCollision none (ordering owner span) = none ∧
        result = .ok ⟨Entry.insertAll (ordering owner span) index.entries⟩) := by
  unfold insert at entered
  obtain ⟨entries, built, entered⟩ := bind_eq_ok.mp entered
  obtain rfl := Entry.ofRuns_eq_ok built
  dsimp only at entered
  split at entered
  · next l meets =>
    cases entered
    exact .inl ⟨l, meets, rfl⟩
  · next accepted =>
    cases entered
    exact .inr ⟨accepted, rfl⟩

theorem insert_eq_ok {index next : AddressIndex} {owner : ObjectId} {span : Span}
    (sound : index.Sound) (proper : span.Proper) (entered : index.insert owner span = .ok (.ok next)) :
    next.Sound ∧
      ∀ e, e ∈ next.entries ↔ e ∈ Entry.listing owner 0 span.runs ∨ e ∈ index.entries := by
  have filled : ∀ e ∈ ordering owner span, e.start < e.stop := ordering_filled proper
  rcases insert_cases entered with ⟨l, -, impossible⟩ | ⟨accepted, same⟩
  · cases impossible
  · cases same
    obtain ⟨ordered, apart⟩ :=
      (firstCollision_eq_none sound (ordering_sorted owner span) filled).mp accepted
    have allFilled (e : Entry) (member : e ∈ Entry.insertAll (ordering owner span) index.entries) :
        e.start < e.stop :=
      (Entry.mem_insertAll.mp member).elim (filled e) (sound.filled e)
    have allApart : (Entry.insertAll (ordering owner span) index.entries).Pairwise Entry.Apart := by
      apply (Entry.perm_insertAll _ _).symm.pairwise _ Entry.Apart.symm
      exact List.pairwise_append.mpr ⟨ordered.imp Entry.Ahead.apart,
        sound.ordered.imp Entry.Ahead.apart, fun e new x old => (apart e new x old).symm⟩
    refine ⟨⟨Entry.pairwise_ahead allApart (Entry.insertAll_sorted sound.sorted) allFilled,
      allFilled⟩, fun e => ?_⟩
    rw [Entry.mem_insertAll, mem_ordering]

/-- A span is refused only if its entries meet each other or the index. -/
theorem insert_ne_error {index : AddressIndex} {owner : ObjectId} {span : Span} {cause : MemoryError}
    (sound : index.Sound) (proper : span.Proper)
    (distinct : (Entry.listing owner 0 span.runs).Pairwise Entry.Apart)
    (apart : ∀ e ∈ Entry.listing owner 0 span.runs, ∀ x ∈ index.entries, x.Apart e) :
    index.insert owner span ≠ .ok (.error cause) := by
  intro refused
  have sorted := ordering_sorted owner span
  have filled : ∀ e ∈ ordering owner span, e.start < e.stop := ordering_filled proper
  have ordered : (ordering owner span).Pairwise Entry.Ahead :=
    Entry.pairwise_ahead ((perm_ordering owner span).symm.pairwise distinct Entry.Apart.symm) sorted
      filled
  have accepted := (firstCollision_eq_none sound sorted filled).mpr
    ⟨ordered, fun e member => apart e (mem_ordering.mp member)⟩
  rcases insert_cases refused with ⟨l, meets, -⟩ | ⟨-, impossible⟩
  · rw [accepted] at meets
    cases meets
  · cases impossible

/-- Vectors that no entry holds can be entered. -/
theorem insert_ne_error_of_fresh {index : AddressIndex} {owner : ObjectId} {span : Span}
    {cause : MemoryError} (sound : index.Sound) (proper : span.Proper)
    (nodup : span.toList.Nodup)
    (fresh : ∀ l ∈ span.toList, ∀ e ∈ index.entries, ¬e.Holds l) :
    index.insert owner span ≠ .ok (.error cause) := by
  apply insert_ne_error sound proper (Entry.listing_apart proper nodup)
  intro e member x old
  apply Entry.apart_of_disjoint (sound.filled x old) (Entry.listing_filled proper e member)
  intro l here holds
  exact fresh l (Entry.mem_of_listing_holds member holds) x old here

theorem insert_of_fresh {index : AddressIndex} {owner : ObjectId} {span : Span}
    (sound : index.Sound) (proper : span.Proper) (nodup : span.toList.Nodup)
    (fresh : ∀ l ∈ span.toList, ∀ e ∈ index.entries, ¬e.Holds l)
    (bounded : ∀ r ∈ span.runs, r.stop < Word.limit) (room : span.toList.length < Word.limit) :
    ∃ next, index.insert owner span = .ok (.ok next) := by
  have built : Entry.ofRuns owner 0 span.runs = .ok (Entry.listing owner 0 span.runs) :=
    Entry.ofRuns_of_bounded bounded (by rw [Nat.zero_add]; exact room)
  cases entered : index.insert owner span with
  | error fault =>
    rw [insert, built] at entered
    dsimp only [bind, Except.bind] at entered
    split at entered <;> cases entered
  | ok result =>
    cases result with
    | error cause => exact absurd entered (insert_ne_error_of_fresh sound proper nodup fresh)
    | ok next => exact ⟨next, rfl⟩

theorem mem_erase {index : AddressIndex} {owner : ObjectId} {span : Span} {e : Entry} :
    e ∈ (index.erase owner span).entries ↔
      e ∈ index.entries ∧
        ¬(e.owner = owner ∧ ∃ r ∈ span.runs, r.region = e.region ∧ r.start = e.start) := by
  simp only [erase, List.mem_filter, Bool.not_eq_true', Bool.and_eq_false_iff, decide_eq_false_iff_not,
    List.any_eq_false, Bool.and_eq_true, decide_eq_true_eq, not_and, not_exists]
  tauto

theorem Sound.erase {index : AddressIndex} (sound : index.Sound) (owner : ObjectId) (span : Span) :
    (index.erase owner span).Sound :=
  ⟨sound.ordered.filter _, fun e member => sound.filled e (List.mem_filter.mp member).1⟩

end AddressIndex

end VectorMemory
