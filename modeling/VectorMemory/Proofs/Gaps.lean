import VectorMemory.FreePool
import VectorMemory.Proofs.Outcome

/-! Runs of free addresses in order, with a gap between any two. Taking addresses from
such runs removes exactly these. A new run meets the others only at its neighbours, and
adding it joins it to those that it touches. -/
namespace VectorMemory.FreePool

def Covers (gaps : List Gap) (a : Nat) : Prop :=
  ∃ g ∈ gaps, g.start ≤ a ∧ a < g.stop

/-- Runs in address order, none empty and no two touching. -/
def Apart (gaps : List Gap) : Prop :=
  gaps.Pairwise (fun g h => g.stop < h.start) ∧ ∀ g ∈ gaps, 0 < g.length

def weight : List Gap → Nat
  | [] => 0
  | g :: rest => g.length + weight rest

@[simp] theorem covers_nil (a : Nat) : ¬Covers [] a := by
  simp [Covers]

@[simp] theorem covers_cons {g : Gap} {rest : List Gap} {a : Nat} :
    Covers (g :: rest) a ↔ (g.start ≤ a ∧ a < g.stop) ∨ Covers rest a := by
  simp [Covers]

@[simp] theorem weight_nil : weight [] = 0 := rfl

@[simp] theorem weight_cons (g : Gap) (rest : List Gap) :
    weight (g :: rest) = g.length + weight rest := rfl

theorem apart_nil : Apart [] := by
  simp [Apart]

theorem apart_cons {g : Gap} {rest : List Gap} :
    Apart (g :: rest) ↔ 0 < g.length ∧ (∀ a, Covers rest a → g.stop < a) ∧ Apart rest := by
  simp only [Apart, List.pairwise_cons, List.forall_mem_cons]
  constructor
  · rintro ⟨⟨after, pairwise⟩, positive, restPositive⟩
    refine ⟨positive, ?_, pairwise, restPositive⟩
    rintro a ⟨h, member, lower, -⟩
    exact Nat.lt_of_lt_of_le (after h member) lower
  · rintro ⟨positive, after, pairwise, restPositive⟩
    refine ⟨⟨?_, pairwise⟩, positive, restPositive⟩
    intro h member
    have := restPositive h member
    exact after h.start ⟨h, member, Nat.le_refl _, by simp only [Gap.stop]; omega⟩

/-- What is left of a run in front of later runs is the run without its front. -/
theorem remainder_append {g : Gap} {rest : List Gap} {count : Nat} (apart : Apart (g :: rest))
    (fits : count ≤ g.length) :
    Apart (remainder g count ++ rest) ∧ weight (remainder g count ++ rest) + count = weight (g :: rest) ∧
      ∀ a, Covers (remainder g count ++ rest) a ↔ (g.start + count ≤ a ∧ a < g.stop) ∨ Covers rest a := by
  obtain ⟨positive, after, restApart⟩ := apart_cons.mp apart
  unfold remainder
  split
  · next short =>
    have sameStop : g.start + count + (g.length - count) = g.stop := by simp only [Gap.stop]; omega
    refine ⟨?_, ?_, ?_⟩
    · rw [List.singleton_append, apart_cons]
      refine ⟨?_, ?_, restApart⟩
      · simp only
        omega
      · simpa only [Gap.stop, sameStop] using after
    · simp only [List.singleton_append, weight_cons]
      omega
    · intro a
      rw [List.singleton_append, covers_cons, Gap.stop, sameStop]
  · next whole =>
    have all : count = g.length := by omega
    refine ⟨restApart, ?_, ?_⟩
    · simp only [List.nil_append, weight_cons]
      omega
    · intro a
      simp only [List.nil_append, Gap.stop, all]
      constructor
      · exact Or.inr
      · rintro (inside | covered)
        · omega
        · exact covered

theorem takeFirstFit_spec {count start : Nat} {gaps left : List Gap} (apart : Apart gaps)
    (positive : 0 < count) (taken : takeFirstFit count gaps = some (start, left)) :
    Apart left ∧ weight left + count = weight gaps ∧
      (∀ a, Covers gaps a ↔ (start ≤ a ∧ a < start + count) ∨ Covers left a) ∧
      ∀ a, start ≤ a → a < start + count → ¬Covers left a := by
  induction gaps generalizing left with
  | nil => simp [takeFirstFit] at taken
  | cons g rest ih =>
    obtain ⟨gPositive, after, restApart⟩ := apart_cons.mp apart
    rw [takeFirstFit] at taken
    split at taken
    · next fits =>
      obtain ⟨rfl, rfl⟩ := Prod.mk.inj (Option.some.inj taken)
      obtain ⟨leftApart, leftWeight, covered⟩ := remainder_append apart fits
      refine ⟨leftApart, leftWeight, ?_, ?_⟩
      · intro a
        simp only [covers_cons, covered, Gap.stop]
        constructor
        · rintro (inside | later)
          · omega
          · exact .inr (.inr later)
        · rintro (front | back | later)
          · omega
          · omega
          · exact .inr later
      · intro a lower upper
        rw [covered]
        rintro (back | later)
        · omega
        · have := after a later
          simp only [Gap.stop] at this
          omega
    · obtain ⟨⟨s, rest'⟩, taken', same⟩ := Option.map_eq_some_iff.mp taken
      obtain ⟨rfl, rfl⟩ := Prod.mk.inj same
      obtain ⟨leftApart, leftWeight, covered, free⟩ := ih restApart taken'
      refine ⟨?_, ?_, ?_, ?_⟩
      · exact apart_cons.mpr ⟨gPositive, fun a later => after a ((covered a).mpr (.inr later)), leftApart⟩
      · simp only [weight_cons]
        omega
      · intro a
        simp only [covers_cons, covered, or_left_comm]
      · intro a lower upper
        rw [covers_cons]
        rintro (inside | later)
        · have := after a ((covered a).mpr (.inl ⟨lower, upper⟩))
          omega
        · exact free a lower upper later

theorem takeLowest_spec {count : Nat} {gaps taken left : List Gap} (apart : Apart gaps)
    (split : takeLowest count gaps = (taken, left)) :
    Apart taken ∧ Apart left ∧ weight taken = min count (weight gaps) ∧
      weight taken + weight left = weight gaps ∧
      (∀ a, Covers gaps a ↔ Covers taken a ∨ Covers left a) ∧
      ∀ a, Covers taken a → ¬Covers left a := by
  induction gaps generalizing count taken left with
  | nil =>
    cases split
    simp [apart_nil]
  | cons g rest ih =>
    obtain ⟨gPositive, after, restApart⟩ := apart_cons.mp apart
    rw [takeLowest] at split
    split at split
    · next none =>
      cases split
      simp [apart_nil, apart, none]
    · next some =>
      split at split
      · next whole =>
        cases inner : takeLowest (count - g.length) rest with
        | mk taken' left' =>
          rw [inner] at split
          obtain ⟨rfl, rfl⟩ := Prod.mk.inj split
          obtain ⟨takenApart, leftApart, takenWeight, bothWeight, covered, disjoint⟩ := ih restApart inner
          refine ⟨?_, leftApart, ?_, ?_, ?_, ?_⟩
          · exact apart_cons.mpr
              ⟨gPositive, fun a inside => after a ((covered a).mpr (.inl inside)), takenApart⟩
          · simp only [weight_cons]
            omega
          · simp only [weight_cons]
            omega
          · intro a
            simp only [covers_cons, covered, or_assoc]
          · intro a
            rw [covers_cons]
            rintro (inside | inside) later
            · have := after a ((covered a).mpr (.inr later))
              omega
            · exact disjoint a inside later
      · next part =>
        obtain ⟨rfl, rfl⟩ := Prod.mk.inj split
        have fits : count ≤ g.length := by omega
        obtain ⟨leftApart, leftWeight, covered⟩ := remainder_append apart fits
        refine ⟨?_, leftApart, ?_, ?_, ?_, ?_⟩
        · exact apart_cons.mpr ⟨by simp only; omega, by simp, apart_nil⟩
        · simp only [weight_cons, weight_nil]
          omega
        · simp only [weight_cons, weight_nil] at leftWeight ⊢
          omega
        · intro a
          simp only [covers_cons, covered, covers_nil, or_false, Gap.stop]
          constructor
          · rintro (inside | later)
            · omega
            · exact .inr (.inr later)
          · rintro (front | back | later)
            · omega
            · omega
            · exact .inr later
        · intro a
          simp only [covers_cons, covered, covers_nil, or_false, Gap.stop]
          rintro front (back | later)
          · omega
          · have := after a later
            simp only [Gap.stop] at this
            omega

/-! ### Neighbours -/

/-- Adding a run in one pass, from the lowest address on. -/
def scan : List Gap → Gap → Except Nat (List Gap)
  | [], new => .ok [new]
  | g :: rest, new =>
      if g.stop < new.start then (scan rest new).map (g :: ·)
      else if g.stop = new.start then scan rest ⟨g.start, g.length + new.length⟩
      else if g.start ≤ new.start then .error new.start
      else if g.start < new.stop then .error g.start
      else if g.start = new.stop then .ok (⟨new.start, new.length + g.length⟩ :: rest)
      else .ok (new :: g :: rest)

theorem Apart.later {g : Gap} {rest : List Gap} (apart : Apart (g :: rest)) :
    ∀ h ∈ rest, g.stop < h.start :=
  (List.pairwise_cons.mp apart.1).1

theorem atOrBefore_of_later {gaps : List Gap} {a : Nat} (later : ∀ g ∈ gaps, a < g.start) :
    atOrBefore gaps a = none := by
  rw [atOrBefore, List.filter_eq_nil_iff.mpr]
  · rfl
  · intro g member
    simpa using later g member

theorem atOrBefore_cons {g : Gap} {rest : List Gap} {a : Nat} (early : g.start ≤ a) :
    atOrBefore (g :: rest) a = some ((atOrBefore rest a).getD g) := by
  rw [atOrBefore, List.filter_cons_of_pos (by simpa using early), List.getLast?_cons, atOrBefore]

theorem atOrAfter_cons {g : Gap} {rest : List Gap} {a : Nat} (early : g.start < a) :
    atOrAfter (g :: rest) a = atOrAfter rest a :=
  List.find?_cons_of_neg (by simpa using early)

theorem atOrAfter_of_later {gaps : List Gap} {a : Nat} (later : ∀ g ∈ gaps, a ≤ g.start) :
    atOrAfter gaps a = gaps.head? := by
  cases gaps with
  | nil => rfl
  | cons g rest => exact List.find?_cons_of_pos (by simpa using later g List.mem_cons_self)

theorem remove_of_ne {gaps : List Gap} {a : Nat} (other : ∀ g ∈ gaps, g.start ≠ a) :
    remove a gaps = gaps := by
  rw [remove, List.filter_eq_self]
  simpa using other

theorem remove_cons_self (g : Gap) (rest : List Gap) :
    remove g.start (g :: rest) = remove g.start rest := by
  simp [remove]

theorem put_of_later {gaps : List Gap} {new : Gap} (later : ∀ g ∈ gaps, new.start < g.start) :
    put new gaps = new :: gaps := by
  cases gaps with
  | nil => rfl
  | cons g rest =>
    have next := later g List.mem_cons_self
    rw [put, if_neg (by omega), if_neg (by omega)]

theorem mem_of_atOrBefore {gaps : List Gap} {g : Gap} {a : Nat}
    (found : atOrBefore gaps a = some g) : g ∈ gaps :=
  (List.mem_filter.mp (List.mem_of_getLast? found)).1

theorem remove_cons_of_ne {g : Gap} {rest : List Gap} {a : Nat} (other : g.start ≠ a) :
    remove a (g :: rest) = g :: remove a rest :=
  List.filter_cons_of_pos (by simpa using other)

theorem put_cons {g new : Gap} {rest : List Gap} (early : g.start < new.start) :
    put new (g :: rest) = g :: put new rest := by
  rw [put, if_pos early]

theorem overlap?_cons_of_before {g new : Gap} (rest : List Gap) (before : g.stop < new.start) :
    overlap? (g :: rest) new = overlap? rest new := by
  have early : g.start < new.start := Nat.lt_of_le_of_lt (Nat.le_add_right ..) before
  rw [overlap?, overlap?, atOrBefore_cons (Nat.le_of_lt early), atOrAfter_cons early]
  cases atOrBefore rest new.start with
  | none => simp [Nat.lt_asymm before]
  | some h => rfl

theorem merge_cons_of_before {g new : Gap} {rest : List Gap} (apart : Apart (g :: rest))
    (before : g.stop < new.start) : merge (g :: rest) new = g :: merge rest new := by
  have early : g.start < new.start := Nat.lt_of_le_of_lt (Nat.le_add_right ..) before
  have later : ∀ h ∈ rest, g.start < h.start := fun h member =>
    Nat.lt_of_le_of_lt (Nat.le_add_right ..) (apart.later h member)
  have front : (atOrBefore (g :: rest) new.start).filter (·.stop = new.start) =
      (atOrBefore rest new.start).filter (·.stop = new.start) := by
    rw [atOrBefore_cons (Nat.le_of_lt early)]
    cases atOrBefore rest new.start with
    | none => simp [Nat.ne_of_lt before]
    | some h => rfl
  unfold merge
  rw [front, atOrAfter_cons early]
  cases head : (atOrBefore rest new.start).filter (·.stop = new.start) with
  | none =>
    cases next : (atOrAfter rest new.start).filter (·.start = new.stop) with
    | none => exact put_cons early
    | some k =>
      have beyond := later k (List.mem_of_find?_eq_some (Option.filter_eq_some_iff.mp next).1)
      simp only [Option.elim_none, Option.elim_some]
      rw [remove_cons_of_ne (Nat.ne_of_lt beyond)]
      exact put_cons early
  | some h =>
    have behind := later h (mem_of_atOrBefore (Option.filter_eq_some_iff.mp head).1)
    cases next : (atOrAfter rest new.start).filter (·.start = new.stop) with
    | none =>
      simp only [Option.elim_none, Option.elim_some]
      rw [remove_cons_of_ne (Nat.ne_of_lt behind)]
      exact put_cons behind
    | some k =>
      have beyond := later k (List.mem_of_find?_eq_some (Option.filter_eq_some_iff.mp next).1)
      simp only [Option.elim_some]
      rw [remove_cons_of_ne (Nat.ne_of_lt behind), remove_cons_of_ne (Nat.ne_of_lt beyond)]
      exact put_cons behind

theorem insert_cons_of_before {g new : Gap} {rest : List Gap} (apart : Apart (g :: rest))
    (before : g.stop < new.start) : insert (g :: rest) new = (insert rest new).map (g :: ·) := by
  rw [insert, insert, overlap?_cons_of_before rest before, merge_cons_of_before apart before]
  cases overlap? rest new <;> rfl

theorem insert_cons_of_touch {g new : Gap} {rest : List Gap} (apart : Apart (g :: rest))
    (touches : g.stop = new.start) :
    insert (g :: rest) new = insert rest ⟨g.start, g.length + new.length⟩ := by
  have early : g.start < new.start := by
    have positive := apart.2 g List.mem_cons_self
    simp only [Gap.stop] at touches
    omega
  have later : ∀ h ∈ rest, new.start < h.start := touches ▸ apart.later
  have last : Gap.stop ⟨g.start, g.length + new.length⟩ = new.stop := by
    simp only [Gap.stop] at touches ⊢
    omega
  have nothing : atOrBefore rest g.start = none :=
    atOrBefore_of_later fun h member => Nat.lt_trans early (later h member)
  have first : atOrBefore (g :: rest) new.start = some g := by
    rw [atOrBefore_cons (Nat.le_of_lt early), atOrBefore_of_later later]
    rfl
  have after : atOrAfter (g :: rest) new.start = atOrAfter rest g.start := by
    rw [atOrAfter_cons early, atOrAfter_of_later fun h member => Nat.le_of_lt (later h member),
      atOrAfter_of_later fun h member => Nat.le_of_lt (Nat.lt_trans early (later h member))]
  have met : overlap? (g :: rest) new = overlap? rest ⟨g.start, g.length + new.length⟩ := by
    rw [overlap?, overlap?, first, after, nothing, last]
    simp [touches]
  have kept : remove g.start (g :: rest) = rest := by
    rw [remove_cons_self]
    exact remove_of_ne fun h member => Nat.ne_of_gt (Nat.lt_trans early (later h member))
  have merged : merge (g :: rest) new = merge rest ⟨g.start, g.length + new.length⟩ := by
    have joined : (some g).filter (·.stop = new.start) = some g := by
      simp [Option.filter, touches]
    unfold merge
    rw [first, after, nothing, last, joined]
    simp only [Option.elim_some, Option.filter_none, Option.elim_none, kept]
    rw [Nat.add_comm new.length]
    rfl
  rw [insert, insert, met, merged]

section Later

variable {g new : Gap} {rest : List Gap}

theorem Apart.all_later (apart : Apart (g :: rest)) (late : new.start < g.start) :
    ∀ h ∈ g :: rest, new.start < h.start := by
  intro h member
  rcases List.mem_cons.mp member with rfl | listed
  · exact late
  · exact Nat.lt_trans late (Nat.lt_of_le_of_lt (Nat.le_add_right ..) (apart.later h listed))

theorem overlap?_of_later (apart : Apart (g :: rest)) (late : new.start < g.start) :
    overlap? (g :: rest) new = if g.start < new.stop then some g.start else none := by
  have later := apart.all_later late
  rw [overlap?, atOrBefore_of_later later,
    atOrAfter_of_later fun h member => Nat.le_of_lt (later h member)]
  rfl

theorem merge_of_later (apart : Apart (g :: rest)) (late : new.start < g.start) :
    merge (g :: rest) new =
      if g.start = new.stop then ⟨new.start, new.length + g.length⟩ :: rest else new :: g :: rest := by
  have later := apart.all_later late
  have above : ∀ h ∈ rest, new.start < h.start := fun h member => later h (.tail _ member)
  unfold merge
  rw [atOrBefore_of_later later, atOrAfter_of_later fun h member => Nat.le_of_lt (later h member)]
  split
  · next touches =>
    have kept : remove g.start rest = rest := by
      apply remove_of_ne
      intro h member
      exact Nat.ne_of_gt (Nat.lt_of_le_of_lt (Nat.le_add_right ..) (apart.later h member))
    simp only [List.head?_cons, Option.filter, touches, decide_true, if_true, Option.elim_some,
      Option.elim_none]
    rw [← touches, remove_cons_self, kept]
    exact put_of_later above
  · next gap =>
    simp only [List.head?_cons, Option.filter, gap, decide_false, Bool.false_eq_true, if_false,
      Option.elim_none]
    exact put_of_later later

end Later

/-- The neighbours of a run are met by a single pass as well. -/
theorem insert_eq_scan {gaps : List Gap} {new : Gap} (apart : Apart gaps)
    (positive : 0 < new.length) : insert gaps new = scan gaps new := by
  fun_induction scan gaps new with
  | case1 new => rfl
  | case2 g rest new before ih =>
    rw [insert_cons_of_before apart before, ih (apart_cons.mp apart).2.2 positive]
  | case3 g rest new _ touches ih =>
    rw [insert_cons_of_touch apart touches,
      ih (apart_cons.mp apart).2.2 (Nat.add_pos_right _ positive)]
  | case4 g rest new behind apart' early =>
    have reaches : new.start < g.stop := by omega
    have none : atOrBefore rest new.start = none :=
      atOrBefore_of_later fun h member => Nat.lt_trans reaches (apart.later h member)
    simp [insert, overlap?, atOrBefore_cons early, none, reaches]
  | case5 g rest new behind apart' late meets =>
    rw [insert, overlap?_of_later apart (Nat.lt_of_not_le late), if_pos meets]
  | case6 g rest new behind apart' late early touches =>
    rw [insert, overlap?_of_later apart (Nat.lt_of_not_le late), if_neg early,
      merge_of_later apart (Nat.lt_of_not_le late), if_pos touches]
  | case7 g rest new behind apart' late early away =>
    rw [insert, overlap?_of_later apart (Nat.lt_of_not_le late), if_neg early,
      merge_of_later apart (Nat.lt_of_not_le late), if_neg away]

/-! ### Giving back -/

/-- The addresses of a run have been added, none of which was covered before. -/
structure Adds (gaps : List Gap) (new : Gap) (merged : List Gap) : Prop where
  apart : Apart merged
  weight : weight merged = weight gaps + new.length
  covers : ∀ a, Covers merged a ↔ (new.start ≤ a ∧ a < new.stop) ∨ Covers gaps a
  fresh : ∀ a, new.start ≤ a → a < new.stop → ¬Covers gaps a

namespace Adds

variable {g new : Gap} {rest merged : List Gap}

theorem nil (positive : 0 < new.length) : Adds [] new [new] :=
  ⟨apart_cons.mpr ⟨positive, by simp, apart_nil⟩, by simp, by simp, by simp⟩

theorem behind (adds : Adds rest new merged) (apart : Apart (g :: rest))
    (before : g.stop < new.start) : Adds (g :: rest) new (g :: merged) := by
  obtain ⟨positive, after, -⟩ := apart_cons.mp apart
  refine ⟨?_, ?_, ?_, ?_⟩
  · refine apart_cons.mpr ⟨positive, ?_, adds.apart⟩
    intro a inside
    rcases (adds.covers a).mp inside with fresh | old
    · omega
    · exact after a old
  · have heavier := adds.weight
    simp only [weight_cons]
    omega
  · intro a
    simp only [covers_cons, adds.covers, or_left_comm]
  · intro a lower upper
    rw [covers_cons]
    rintro (inside | old)
    · omega
    · exact adds.fresh a lower upper old

theorem join_front (adds : Adds rest ⟨g.start, g.length + new.length⟩ merged)
    (touches : g.stop = new.start) : Adds (g :: rest) new merged := by
  obtain ⟨apart, heavier, covered, fresh⟩ := adds
  have sameStop : g.start + (g.length + new.length) = new.stop := by
    simp only [Gap.stop] at touches ⊢
    omega
  simp only [Gap.stop, sameStop] at covered fresh
  refine ⟨apart, ?_, ?_, ?_⟩
  · simp only [weight_cons] at heavier ⊢
    omega
  · intro a
    rw [covered, covers_cons, ← or_assoc]
    simp only [Gap.stop] at touches ⊢
    apply or_congr_left
    omega
  · intro a lower upper
    rw [covers_cons]
    rintro (inside | old)
    · omega
    · exact fresh a (by simp only [Gap.stop] at touches; omega) upper old

theorem join_back (apart : Apart (g :: rest)) (touches : g.start = new.stop) :
    Adds (g :: rest) new (⟨new.start, new.length + g.length⟩ :: rest) := by
  obtain ⟨positive, after, restApart⟩ := apart_cons.mp apart
  have sameStop : new.start + (new.length + g.length) = g.stop := by
    simp only [Gap.stop] at touches ⊢
    omega
  refine ⟨?_, ?_, ?_, ?_⟩
  · refine apart_cons.mpr ⟨Nat.add_pos_right _ positive, ?_, restApart⟩
    simpa only [Gap.stop, sameStop] using after
  · simp only [weight_cons]
    omega
  · intro a
    simp only [covers_cons, Gap.stop, sameStop]
    rw [← or_assoc]
    apply or_congr_left
    simp only [Gap.stop] at touches sameStop
    omega
  · intro a lower upper
    rw [covers_cons]
    rintro (inside | old)
    · omega
    · have := after a old
      simp only [Gap.stop] at this touches upper
      omega

theorem ahead (apart : Apart (g :: rest)) (positive : 0 < new.length)
    (before : new.stop < g.start) : Adds (g :: rest) new (new :: g :: rest) := by
  have later : ∀ a, Covers (g :: rest) a → new.stop < a := by
    intro a inside
    rcases covers_cons.mp inside with inside | old
    · omega
    · have := (apart_cons.mp apart).2.1 a old
      simp only [Gap.stop] at this before ⊢
      omega
  refine ⟨apart_cons.mpr ⟨positive, later, apart⟩, ?_, fun a => covers_cons, ?_⟩
  · simp only [weight_cons]
    omega
  · intro a lower upper inside
    have := later a inside
    omega

end Adds

theorem adds_of_insert {gaps merged : List Gap} {new : Gap} (apart : Apart gaps)
    (positive : 0 < new.length) (inserted : insert gaps new = .ok merged) :
    Adds gaps new merged := by
  rw [insert_eq_scan apart positive] at inserted
  fun_induction scan gaps new generalizing merged with
  | case1 new =>
    cases inserted
    exact .nil positive
  | case2 g rest new before ih =>
    obtain ⟨merged', inserted', rfl⟩ := map_eq_ok.mp inserted
    exact (ih (apart_cons.mp apart).2.2 positive inserted').behind apart before
  | case3 g rest new _ touches ih =>
    exact (ih (apart_cons.mp apart).2.2 (Nat.add_pos_right _ positive) inserted).join_front touches
  | case4 => cases inserted
  | case5 => cases inserted
  | case6 g rest new _ _ _ _ touches =>
    cases inserted
    exact .join_back apart touches
  | case7 g rest new _ _ _ early away =>
    cases inserted
    exact .ahead apart positive (by omega)

/-- A run that cannot be added meets the runs, first at the address reported. -/
theorem insert_eq_error {gaps : List Gap} {new : Gap} {a : Nat} (apart : Apart gaps)
    (positive : 0 < new.length) (refused : insert gaps new = .error a) :
    new.start ≤ a ∧ a < new.stop ∧ Covers gaps a ∧
      ∀ b, new.start ≤ b → b < a → ¬Covers gaps b := by
  rw [insert_eq_scan apart positive] at refused
  fun_induction scan gaps new with
  | case1 => cases refused
  | case2 g rest new before ih =>
    obtain ⟨gPositive, after, restApart⟩ := apart_cons.mp apart
    obtain ⟨lower, upper, covered, least⟩ := ih restApart positive (map_eq_error.mp refused)
    refine ⟨lower, upper, covers_cons.mpr (.inr covered), ?_⟩
    intro b newer older
    rw [covers_cons]
    rintro (inside | old)
    · omega
    · exact least b newer older old
  | case3 g rest new _ touches ih =>
    obtain ⟨gPositive, after, restApart⟩ := apart_cons.mp apart
    obtain ⟨lower, upper, covered, least⟩ := ih restApart (by simp only; omega) refused
    have later := after a covered
    simp only [Gap.stop] at touches lower upper least later ⊢
    refine ⟨by omega, by omega, covers_cons.mpr (.inr covered), ?_⟩
    intro b newer older
    rw [covers_cons]
    rintro (inside | old)
    · simp only [Gap.stop] at inside
      omega
    · exact least b (by omega) older old
  | case4 g rest new behind apart' early =>
    cases refused
    refine ⟨Nat.le_refl _, by simp only [Gap.stop]; omega, ?_, by omega⟩
    exact covers_cons.mpr (.inl ⟨early, by omega⟩)
  | case5 g rest new behind apart' late meets =>
    cases refused
    obtain ⟨gPositive, after, restApart⟩ := apart_cons.mp apart
    refine ⟨by omega, meets, covers_cons.mpr (.inl ⟨Nat.le_refl _, by simp only [Gap.stop]; omega⟩), ?_⟩
    intro b newer older
    rw [covers_cons]
    rintro (inside | old)
    · omega
    · have := after b old
      simp only [Gap.stop] at this
      omega
  | case6 => cases refused
  | case7 => cases refused

end VectorMemory.FreePool
