import Mathlib.Data.List.Nodup
import Mathlib.Logic.Relation
import VectorMemory.Registry.Sweep
import VectorMemory.Proofs.Registry

/-! Dropping an object. The stack of objects that are still to be dropped ends with
exactly those gone that the object represents. -/
namespace VectorMemory.Registry

variable {r s : Registry} {o x : Object} {i id : ObjectId}

/-! ### Registries without some of their objects -/

def leaveOut (r : Registry) (gone : ObjectId → Bool) (index : AddressIndex) : Registry :=
  { slots := r.slots.mapIdx fun id slot => if gone id then none else slot
    names := r.names.filter fun named => !gone named.2
    index }

def without (r : Registry) (o : Object) : Registry :=
  r.leaveOut (fun id => r.representative id = o.id) (r.index.erase o.id o.span)

@[simp] theorem object?_leaveOut (r : Registry) (gone : ObjectId → Bool) (index : AddressIndex)
    (i : ObjectId) : (r.leaveOut gone index).object? i = if gone i then none else r.object? i := by
  unfold leaveOut object?
  rw [List.getElem?_mapIdx]
  cases r.slots[i]? with
  | none => simp
  | some slot => split <;> simp_all

theorem object?_leaveOut_eq_some {gone : ObjectId → Bool} {index : AddressIndex} :
    (r.leaveOut gone index).object? i = some x ↔ gone i = false ∧ r.object? i = some x := by
  rw [object?_leaveOut]
  split <;> simp_all

theorem object?_without_eq_some :
    (r.without o).object? i = some x ↔ r.representative i ≠ o.id ∧ r.object? i = some x := by
  rw [without, object?_leaveOut_eq_some, decide_eq_false_iff_not]

theorem nextId_without (r : Registry) (o : Object) : (r.without o).nextId = r.nextId := by
  simp [nextId, without, leaveOut]

/-- Which empty slots are left out does not matter. -/
theorem Coherent.leaveOut_congr (coherent : r.Coherent) {gone gone' : ObjectId → Bool}
    {index : AddressIndex} (same : ∀ i x, r.object? i = some x → gone i = gone' i) :
    r.leaveOut gone index = r.leaveOut gone' index := by
  have slots : r.slots.mapIdx (fun id slot => if gone id then none else slot) =
      r.slots.mapIdx (fun id slot => if gone' id then none else slot) := by
    apply List.ext_getElem?
    intro i
    rw [List.getElem?_mapIdx, List.getElem?_mapIdx]
    cases slot : r.slots[i]? with
    | none => rfl
    | some content =>
      cases content with
      | none => simp
      | some x => rw [same i x (object?_eq_some.mpr slot)]
  have names : r.names.filter (fun named => !gone named.2) =
      r.names.filter (fun named => !gone' named.2) := by
    apply List.filter_congr
    intro (n, i) member
    obtain ⟨x, found, -⟩ := (coherent.named n i).mp member
    rw [same i x found]
  rw [leaveOut, leaveOut, slots, names]

/-! ### The stack -/

/-- One more object is left out. Names are left out by name and by slot alike. -/
theorem Coherent.vacate_leaveOut (coherent : r.Coherent) {gone : ObjectId → Bool} {index : AddressIndex}
    (found : r.object? id = some x) :
    (r.leaveOut gone index).vacate id x =
      r.leaveOut (fun i => gone i || i = id) (if x.isLive then index.erase id x.span else index) := by
  have slots : (r.slots.mapIdx fun i slot => if gone i then none else slot).set id none =
      r.slots.mapIdx fun i slot => if gone i || i = id then none else slot := by
    apply List.ext_getElem?
    intro i
    rw [List.getElem?_set, List.getElem?_mapIdx, List.length_mapIdx]
    by_cases same : id = i
    · subst same
      have bound : id < r.slots.length := lt_of_object? found
      simp [bound]
    · simp [same, Ne.symm same]
  have names : (r.names.filter fun named => !gone named.2).filter (fun named => named.1 ≠ x.name) =
      r.names.filter fun named => !(gone named.2 || named.2 = id) := by
    rw [List.filter_filter]
    apply List.filter_congr
    intro (n, i) member
    obtain ⟨y, registered, named⟩ := (coherent.named n i).mp member
    have same : n = x.name ↔ i = id := by
      constructor
      · intro equal
        have here := coherent.idOf?_eq_some.mpr ⟨y, registered, named.trans equal⟩
        rw [coherent.idOf?_eq_some.mpr ⟨x, found, rfl⟩] at here
        exact (Option.some.inj here).symm
      · rintro rfl
        rw [registered] at found
        exact (Option.some.inj found) ▸ named.symm
    simp [same, Bool.and_comm]
  unfold vacate leaveOut
  rw [slots, names]

theorem mem_heldBy : i ∈ s.heldBy id o ↔
    i ∈ o.blendees ∧ ∃ x, s.object? i = some x ∧ x.supersededBy = some id := by
  simp [heldBy, Option.any_eq_true]

theorem object?_of_dropAll {stack : List ObjectId} (kept : (r.dropAll stack).object? i = some x) :
    r.object? i = some x := by
  fun_induction dropAll r stack with
  | case1 => exact kept
  | case2 _ _ _ _ ih => exact ih kept
  | case3 r id stack o _ ih =>
    have before := ih kept
    unfold vacate object? at before
    rw [List.getElem?_set] at before
    split at before
    · split at before <;> simp at before
    · exact before

/-- What a stack still has to do: the object is gone or waits, all that is gone or waits is
represented by it, and whatever was taken over by something that is gone is gone as well or
waits. -/
structure Pending (r : Registry) (o : Object) (gone : ObjectId → Bool) (stack : List ObjectId) :
    Prop where
  top : gone o.id = true ∨ o.id ∈ stack
  below : ∀ i, gone i = true → r.representative i = o.id
  waiting : ∀ i ∈ stack, r.representative i = o.id
  closed : ∀ i x b, r.object? i = some x → x.supersededBy = some b → gone b = true →
    gone i = true ∨ i ∈ stack

namespace Pending

variable {gone : ObjectId → Bool} {stack : List ObjectId}

/-- With nothing left on the stack, all is gone that the object represents. -/
theorem finished (pending : Pending r o gone []) (coherent : r.Coherent)
    (found : r.object? i = some x) : gone i = decide (r.representative i = o.id) := by
  rw [Bool.eq_iff_iff, decide_eq_true_eq]
  refine ⟨pending.below i, ?_⟩
  -- every step up leaves fewer slots above
  induction rest : r.nextId - i using Nat.strongRecOn generalizing i x with
  | ind n ih =>
    intro same
    cases superseded : x.supersededBy with
    | none =>
      have live : x.isLive = true := by simp [Object.isLive, superseded]
      rw [representative_of_live found live] at same
      exact same ▸ pending.top.resolve_right List.not_mem_nil
    | some b =>
      obtain ⟨younger, t, registered, -⟩ := coherent.superseder i x b found superseded
      have fewer : r.nextId - b < n := rest ▸ Nat.sub_lt_sub_left (lt_of_object? found) younger
      rw [coherent.representative_of_superseded found superseded] at same
      have above := ih (r.nextId - b) fewer registered rfl same
      exact (pending.closed i x b found superseded above).resolve_right List.not_mem_nil

theorem skip (pending : Pending r o gone (id :: stack)) (registered : r.object? o.id = some o)
    (absent : ∀ x, r.object? id = some x → gone id = true) : Pending r o gone stack where
  top := by
    rcases pending.top with done | member
    · exact .inl done
    · rcases List.mem_cons.mp member with rfl | later
      · exact .inl (absent o registered)
      · exact .inr later
  below := pending.below
  waiting := fun i member => pending.waiting i (.tail _ member)
  closed := by
    intro i x b found superseded above
    rcases pending.closed i x b found superseded above with done | member
    · exact .inl done
    · rcases List.mem_cons.mp member with rfl | later
      · exact .inl (absent x found)
      · exact .inr later

theorem push {index : AddressIndex} (pending : Pending r o gone (id :: stack))
    (coherent : r.Coherent) (found : r.object? id = some x) :
    Pending r o (fun i => gone i || i = id)
      (((r.leaveOut (fun i => gone i || i = id) index).heldBy id x).reverse ++ stack) := by
  constructor
  · rcases pending.top with done | member
    · simp [done]
    · rcases List.mem_cons.mp member with rfl | later
      · simp
      · exact .inr (List.mem_append_right _ later)
  · intro i dropped
    rcases (Bool.or_eq_true _ _).mp dropped with before | same
    · exact pending.below i before
    · rw [of_decide_eq_true same]
      exact pending.waiting id List.mem_cons_self
  · intro i member
    rcases List.mem_append.mp member with held | later
    · obtain ⟨-, y, registered, superseded⟩ := mem_heldBy.mp (List.mem_reverse.mp held)
      rw [coherent.representative_of_superseded (object?_leaveOut_eq_some.mp registered).2 superseded]
      exact pending.waiting id List.mem_cons_self
    · exact pending.waiting i (.tail _ later)
  · intro i y b registered superseded above
    by_cases dropped : (gone i || i = id) = true
    · exact .inl dropped
    refine .inr (List.mem_append.mpr ?_)
    rw [Bool.not_eq_true] at dropped
    rcases (Bool.or_eq_true _ _).mp above with before | same
    · -- it waited before, and is not what was dropped now
      obtain ⟨kept, other⟩ := Bool.or_eq_false_iff.mp dropped
      rcases pending.closed i y b registered superseded before with done | member
      · rw [kept] at done
        cases done
      · exact .inr ((List.mem_cons.mp member).resolve_left (of_decide_eq_false other))
    · rw [of_decide_eq_true same] at superseded
      obtain ⟨-, t, holder, blended⟩ := coherent.superseder i y id registered superseded
      rw [found] at holder
      cases holder
      have still : (r.leaveOut (fun i => gone i || i = id) index).object? i = some y :=
        object?_leaveOut_eq_some.mpr ⟨dropped, registered⟩
      exact .inl (List.mem_reverse.mpr (mem_heldBy.mpr ⟨blended, y, still, superseded⟩))

end Pending

theorem Coherent.dropAll_eq (coherent : r.Coherent) (found : r.object? o.id = some o)
    (live : o.isLive = true) {gone : ObjectId → Bool} {stack : List ObjectId}
    (pending : Pending r o gone stack)
    (state : s = r.leaveOut gone (if gone o.id then r.index.erase o.id o.span else r.index)) :
    s.dropAll stack = r.without o := by
  fun_induction dropAll s stack generalizing gone with
  | case1 s =>
    rw [state, pending.top.resolve_right List.not_mem_nil, if_pos rfl]
    exact coherent.leaveOut_congr fun i x => pending.finished coherent
  | case2 s id stack absent ih =>
    refine ih (pending.skip found fun x registered => ?_) state
    rw [state, object?_leaveOut, registered] at absent
    by_contra kept
    simp [kept] at absent
  | case3 s id stack x registered ih =>
    rw [state] at registered
    obtain ⟨kept, registered⟩ := object?_leaveOut_eq_some.mp registered
    have vacated : s.vacate id x = r.leaveOut (fun i => gone i || i = id)
        (if gone o.id || o.id = id then r.index.erase o.id o.span else r.index) := by
      rw [state, coherent.vacate_leaveOut registered]
      by_cases same : o.id = id
      · subst same
        cases found.symm.trans registered
        simp [kept, live]
      · have dead : x.isLive = false := by
          rw [← Bool.not_eq_true]
          intro alive
          have represented := pending.waiting id List.mem_cons_self
          rw [representative_of_live registered alive] at represented
          exact same represented.symm
        simp [same, dead]
    rw [vacated] at ih ⊢
    exact ih (pending.push coherent registered) rfl

/-- The stack that starts with a live object drops exactly what this represents. -/
theorem Coherent.unregister_eq (coherent : r.Coherent) (found : r.object? o.id = some o)
    (live : o.isLive = true) : r.unregister o.id = r.without o := by
  have start : Pending r o (fun _ => false) [o.id] := by
    refine ⟨.inr List.mem_cons_self, nofun, ?_, nofun⟩
    intro i member
    rw [List.mem_singleton.mp member]
    exact representative_of_live found live
  have whole : r = r.leaveOut (fun _ => false) r.index := by
    simp [leaveOut, List.mapIdx_eq_zipIdx_map]
  exact coherent.dropAll_eq found live start whole

/-! ### The invariant without an object -/

theorem Coherent.representative_without (coherent : r.Coherent)
    (kept : r.representative i ≠ o.id) :
    (r.without o).representative i = r.representative i := by
  have climbs : ∀ n j, r.representative j ≠ o.id → (r.without o).climb n j = r.climb n j := by
    intro n
    induction n with
    | zero => exact fun _ _ => rfl
    | succ n ih =>
      intro j kept
      have same : (r.without o).object? j = r.object? j := by
        simp [Registry.without, kept]
      rw [climb, climb, same]
      cases found : r.object? j with
      | none => rfl
      | some x =>
        cases next : x.supersededBy with
        | none => simp [next]
        | some s =>
          rw [coherent.representative_of_superseded found next] at kept
          simpa [next] using ih s kept
  have length : (r.without o).slots.length = r.slots.length := r.nextId_without o
  unfold representative at kept ⊢
  rw [length]
  exact climbs _ i kept

theorem Coherent.mem_erase (coherent : r.Coherent)
    (found : r.object? o.id = some o) {e : Entry} :
    e ∈ (r.index.erase o.id o.span).entries ↔ e ∈ r.index.entries ∧ e.owner ≠ o.id := by
  rw [AddressIndex.mem_erase]
  apply and_congr_right
  intro member
  constructor
  · intro kept same
    obtain ⟨x, registered, -, listed⟩ := (coherent.entries e).mp member
    rw [same, found] at registered
    cases registered
    obtain ⟨x, run, region, start, -⟩ := Entry.run_of_mem_listing listed
    exact kept ⟨same, x, run, region, start⟩
  · intro other removed
    exact other removed.1

theorem Coherent.without (coherent : r.Coherent) (found : r.object? o.id = some o) :
    (r.without o).Coherent := by
  constructor
  · intro i x kept
    exact coherent.ids i x (object?_without_eq_some.mp kept).2
  · exact coherent.distinct.sublist (List.filter_sublist.map _)
  · intro n i
    have member : (n, i) ∈ (r.without o).names ↔
        (n, i) ∈ r.names ∧ r.representative i ≠ o.id := by
      simp [Registry.without, leaveOut]
    simp only [member, coherent.named, object?_without_eq_some]
    tauto
  · intro i x s kept next
    obtain ⟨away, before⟩ := object?_without_eq_some.mp kept
    obtain ⟨later, t, superseder, blended⟩ := coherent.superseder i x s before next
    rw [coherent.representative_of_superseded before next] at away
    exact ⟨later, t, object?_without_eq_some.mpr ⟨away, superseder⟩, blended⟩
  · intro i x kept
    exact coherent.proper i x (object?_without_eq_some.mp kept).2
  · exact coherent.index.erase o.id o.span
  · intro e
    have same : (r.without o).index = r.index.erase o.id o.span := rfl
    rw [same, coherent.mem_erase found, coherent.entries]
    simp only [object?_without_eq_some]
    constructor
    · intro ⟨⟨x, before, live, listed⟩, other⟩
      rw [← representative_of_live before live] at other
      exact ⟨x, ⟨other, before⟩, live, listed⟩
    · intro ⟨x, ⟨away, before⟩, live, listed⟩
      rw [representative_of_live before live] at away
      exact ⟨⟨x, before, live, listed⟩, away⟩

end VectorMemory.Registry
