import VectorMemory.Proofs.Constants
import VectorMemory.Proofs.LifeCycle

/-! What a request for a constant returns. A new constant is placed as it is asked for. An
object that is registered under the name is returned as it is, whatever is asked for now. -/
namespace VectorMemory

namespace Planner

variable {p q : Planner} {name : String} {requested : Option Extent} {extent : Extent} {o : Object}

structure Delivers (extent : Extent) (o : Object) : Prop where
  extent : o.extent = extent
  region : o.region = .dram1
  pinned : constantSentinel ∈ o.consumers

instance (extent : Extent) (o : Object) : Decidable (Delivers extent o) :=
  decidable_of_iff (o.extent = extent ∧ o.region = .dram1 ∧ constantSentinel ∈ o.consumers)
    ⟨fun ⟨size, home, member⟩ => ⟨size, home, member⟩, fun all => ⟨all.extent, all.region, all.pinned⟩⟩

/-! ### New constants -/

theorem constantExtent_eq_requested {tensor : Tensor} {natural given : Extent} {replicated : Bool}
    (sized : constantExtent name tensor natural (some extent) = .ok (given, replicated)) :
    given = extent := by
  simp only [constantExtent] at sized
  split at sized
  · next same =>
    cases sized
    exact same.symm
  · split at sized <;> cases sized
    rfl

theorem Emits.delivers {tensor : Tensor} {bytes : Bytes}
    (emits : Emits p name requested tensor bytes o q) : Delivers o.extent o := by
  obtain ⟨middle, tally, placed, -, -⟩ := emits.result
  exact ⟨rfl, placed.home, by simp [emits.users, NameSet.mem_ofList]⟩

theorem Emits.extent_eq {tensor : Tensor} {bytes : Bytes}
    (emits : Emits p name (some extent) tensor bytes o q) : o.extent = extent := by
  obtain ⟨natural, replicated, -, sized, -⟩ := emits.encoded
  exact constantExtent_eq_requested sized

theorem Emits.retains {tensor : Tensor} {bytes : Bytes}
    (emits : Emits p name requested tensor bytes o q) : q.memory.Retains o := by
  obtain ⟨middle, tally, placed, -, rfl⟩ := emits.result
  exact placed.retains emits.pinned

theorem Emits.found {tensor : Tensor} {bytes : Bytes}
    (emits : Emits p name requested tensor bytes o q) : q.registry.object? o.id = some o := by
  obtain ⟨middle, tally, placed, -, rfl⟩ := emits.result
  exact placed.found

/-! ### Registered objects -/

theorem constant_of_registered (known : p.registry.get name = .ok o) :
    constant name requested p = .done o p := by
  refine Action.bind_eq_done.mpr ⟨p, p, rfl, ?_⟩
  rw [if_pos (has_of_get known)]
  exact Action.ofResult_eq_done.mpr ⟨known, rfl⟩

/-- A constant stays one, in the extent that it was placed in, whatever is done later. -/
theorem delivers_later {later : List Command} {r : Planner} (sound : p.memory.Sound)
    (delivers : Delivers o.extent o) (found : p.registry.object? o.id = some o)
    (retains : p.memory.Retains o) (run : follow later p = some r) :
    ∃ x, r.registry.get o.name = .ok x ∧ ∀ extent, Delivers extent x ↔ extent = o.extent := by
  have steps := steps_of_follow sound run
  obtain ⟨x, after, alike⟩ := (retains.steps sound steps).hosts
  have endures := Memory.Steps.endures steps found after
  have coherent : r.registry.Coherent := (sound.steps steps).coherent
  refine ⟨x, coherent.get_eq_ok.mpr ⟨alike.id ▸ after, alike.name⟩, fun extent => ?_⟩
  constructor
  · intro all
    exact all.extent.symm.trans alike.extent
  · rintro rfl
    exact ⟨alike.extent, alike.region.trans delivers.region,
      endures.pinned _ delivers.pinned isSentinel_constant⟩

end Planner

end VectorMemory
