import VectorMemory.Proofs.Lookup

/-! Names, slots and supersession. After any operations of a registry, failed
ones included, its names are those of its objects, and what took an object over
is a younger object that lists it as a blendee. The way up from any object ends
at a live one. -/
namespace VectorMemory.Registry

open Relation

namespace Coherent

variable {r : Registry} {i j : ObjectId} {o : Object}

theorem found_of_path (coherent : r.Coherent) (found : r.object? i = some o)
    (path : ReflTransGen r.TakesOver i j) :
    r.representative i = r.representative j ∧ ∃ x, r.object? j = some x := by
  induction path with
  | refl => exact ⟨rfl, o, found⟩
  | tail _ next ih =>
    obtain ⟨b, before, superseded⟩ := next
    obtain ⟨-, t, registered, -⟩ := coherent.superseder _ b _ before superseded
    exact ⟨ih.1.trans (coherent.representative_of_superseded before superseded), t, registered⟩

theorem live_of_representative (coherent : r.Coherent) (found : r.object? i = some o) :
    ∃ last, r.object? (r.representative i) = some last ∧ last.supersededBy = none := by
  -- every step up leaves fewer slots above
  induction rest : r.nextId - i using Nat.strongRecOn generalizing i o with
  | ind n ih =>
    cases superseded : o.supersededBy with
    | none =>
      have live : o.isLive = true := by simp [Object.isLive, superseded]
      rw [representative_of_live found live]
      exact ⟨o, found, superseded⟩
    | some s =>
      obtain ⟨younger, t, registered, -⟩ := coherent.superseder i o s found superseded
      have fewer : r.nextId - s < n := rest ▸ Nat.sub_lt_sub_left (lt_of_object? found) younger
      rw [coherent.representative_of_superseded found superseded]
      exact ih (r.nextId - s) fewer registered rfl

end Coherent

/-- Names lead to the objects that have them. What took an object over is
registered, younger, and lists it as a blendee. All objects on the way up from an
object are registered, and the way ends at a live one. -/
theorem supersession_forest {r : Registry} (reached : Reached r) :
    (∀ n i, r.idOf? n = some i ↔ ∃ o, r.object? i = some o ∧ o.name = n ∧ o.id = i) ∧
    (∀ a ∈ r.objects, ∀ b ∈ r.objects, a.name = b.name → a = b) ∧
    (∀ a ∈ r.objects, ∀ s, a.supersededBy = some s →
      a.id < s ∧ ∃ t, r.object? s = some t ∧ a.id ∈ t.blendees) ∧
    ∀ a ∈ r.objects,
      (∃ last, r.object? (r.representative a.id) = some last ∧ last.supersededBy = none) ∧
      ∀ j, ReflTransGen r.TakesOver a.id j →
        (∃ x, r.object? j = some x) ∧ ReflTransGen r.TakesOver j (r.representative a.id) := by
  have coherent := reached.coherent
  refine ⟨?_, fun a first b second => coherent.name_inj first second, ?_, ?_⟩
  · intro n i
    rw [coherent.idOf?_eq_some]
    constructor
    · intro ⟨o, found, named⟩
      exact ⟨o, found, named, coherent.ids i o found⟩
    · intro ⟨o, found, named, _⟩
      exact ⟨o, found, named⟩
  · intro a member s superseded
    exact coherent.superseder a.id a s (coherent.mem_objects.mp member) superseded
  · intro a member
    have found := coherent.mem_objects.mp member
    refine ⟨coherent.live_of_representative found, fun j path => ?_⟩
    obtain ⟨same, registered⟩ := coherent.found_of_path found path
    rw [same]
    exact ⟨registered, r.takesOver_representative j⟩

/-- An object that was taken over twice goes with the later blend: the sweep that
frees the first one leaves it registered. -/
theorem supersession_forest_twice :
    ∃ r, Reached r ∧ r.idOf? "b" = none ∧
      (∃ o, r.object? 0 = some o ∧ o.name = "a" ∧ o.id = 0) ∧
      ∃ last, r.object? 2 = some last ∧ last.supersededBy = none ∧ 0 ∈ last.blendees := by
  have blended : Reached ⟨[some ⟨0, "a", ⟨12, 3⟩, .dram0, ⟨[⟨.dram0, 0, 3⟩]⟩, ∅, ⟨[]⟩, some 1, []⟩,
      some ⟨1, "b", ⟨4, 1⟩, .dram0, ⟨[⟨.dram0, 2, 1⟩]⟩, ∅, ⟨[⟨.dram0, 0, 3⟩]⟩, none, [0]⟩],
      [("b", 1), ("a", 0)], ⟨[⟨.dram0, 2, 3, 1, 0⟩]⟩⟩ :=
    .blend "b" ⟨4, 1⟩ [] ["a"] [⟨.dram0, 2⟩] reached_lone (by decide +kernel)
  have again : Reached ⟨[some ⟨0, "a", ⟨12, 3⟩, .dram0, ⟨[⟨.dram0, 0, 3⟩]⟩, ∅, ⟨[]⟩, some 2, []⟩,
      some ⟨1, "b", ⟨4, 1⟩, .dram0, ⟨[⟨.dram0, 2, 1⟩]⟩, ∅, ⟨[⟨.dram0, 0, 3⟩]⟩, none, [0]⟩,
      some ⟨2, "c", ⟨4, 1⟩, .dram0, ⟨[⟨.dram0, 0, 1⟩]⟩, .ofList ["x"], ⟨[]⟩, none, [0]⟩],
      [("c", 2), ("b", 1), ("a", 0)], ⟨[⟨.dram0, 0, 1, 2, 0⟩, ⟨.dram0, 2, 3, 1, 0⟩]⟩⟩ :=
    .blend "c" ⟨4, 1⟩ ["x"] ["a"] [⟨.dram0, 0⟩] blended (by decide +kernel)
  have swept : Reached ⟨[some ⟨0, "a", ⟨12, 3⟩, .dram0, ⟨[⟨.dram0, 0, 3⟩]⟩, ∅, ⟨[]⟩, some 2, []⟩,
      none, some ⟨2, "c", ⟨4, 1⟩, .dram0, ⟨[⟨.dram0, 0, 1⟩]⟩, .ofList ["x"], ⟨[]⟩, none, [0]⟩],
      [("c", 2), ("a", 0)], ⟨[⟨.dram0, 0, 1, 2, 0⟩]⟩⟩ :=
    .sweep [loneSpace]
      [⟨.dram0, 4, .heap ⟨[⟨0, 4⟩], 4⟩, ⟨.dram0, 4, 0, 3, 3, 1⟩⟩] again (by decide +kernel)
  have forest := supersession_forest swept
  obtain ⟨-, last, found, lists⟩ := forest.2.2.1 _ (List.mem_cons_self ..) 2 rfl
  obtain ⟨ending, reached, live⟩ := (forest.2.2.2 _ (List.mem_cons_self ..)).1
  have same : ending = last := Option.some.inj (reached.symm.trans found)
  exact ⟨_, swept, rfl, (forest.1 "a" 0).mp rfl, last, found, same ▸ live, lists⟩

end VectorMemory.Registry
