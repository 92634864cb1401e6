import VectorMemory.Proofs.Steps

/-! Every vector has at most one owner, in every state that commands leave. -/
namespace VectorMemory.Planner

theorem owned_nodup {p : Planner} (sound : p.memory.Sound) :
    (p.registry.objects.flatMap (·.owned.toList)).Nodup := by
  have coherent : p.registry.Coherent := sound.coherent
  rw [List.nodup_flatMap]
  refine ⟨fun o member => sound.distinct o.id o (coherent.mem_objects.mp member), ?_⟩
  apply coherent.objects_distinct.imp_of_mem
  intro a b first second other l inside inside'
  have here := coherent.mem_objects.mp first
  have there := coherent.mem_objects.mp second
  exact other (sound.exclusive a.id a b.id b here there l inside inside')

theorem ownership_exclusive {config : Config} {recorder : Recorder} {p q : Planner}
    {cs : List Command} (started : start config recorder = .ok p) (run : follow cs p = some q) :
    (q.registry.objects.flatMap (·.owned.toList)).Nodup ∧
      (∀ o ∈ q.registry.objects, ∀ l ∈ o.owned.toList,
        l.address < (q.space l.region).capacity ∧ ¬(q.space l.region).Free l.address) ∧
      (∀ o ∈ q.registry.objects, ∀ s, o.supersededBy = some s → o.owned = .empty) ∧
      ∀ region address q', perform .sweep q ≠ .failed (.invalidFree region address) q' := by
  have sound := sound_follow (sound_start started) run
  have coherent : q.registry.Coherent := sound.coherent
  refine ⟨owned_nodup sound, ?_, ?_, ?_⟩
  · intro o member l inside
    have taken := sound.taken o.id o (coherent.mem_objects.mp member) l inside
    exact ⟨taken.1, taken.not_free⟩
  · intro o member s next
    apply sound.superseded o.id o (coherent.mem_objects.mp member)
    simp [Object.isLive, next]
  · intro region address q' failed
    obtain ⟨⟨name, other, stray⟩, -⟩ := perform_sweep_failed sound failed
    cases stray

/-- The third request does not fit, and the run goes on after it. The sweep frees the object of
the second one. -/
def contested : List Command :=
  [.activation "a" ⟨2, 2⟩ [], .activation "d" ⟨1, 1⟩ [], .activation "b" ⟨2, 2⟩ [],
    .blend "c" ⟨1, 1⟩ ["later"] ["a"] [⟨.dram0, 1⟩], .sweep]

theorem ownership_exclusive_blended :
    ∃ p q, start ⟨⟨.float32, 1, 4, 0, 0⟩, []⟩ .silent = .ok p ∧ follow contested p = some q ∧
      q.registry.object? 1 = none ∧ (q.space .dram0).available = 2 ∧
      q.registry.objects.flatMap (·.owned.toList) = [⟨.dram0, 0⟩, ⟨.dram0, 1⟩] ∧
      (q.registry.objects.flatMap (·.owned.toList)).Nodup ∧
      ∀ l ∈ q.registry.objects.flatMap (·.owned.toList), ¬(q.space l.region).Free l.address := by
  have computed : ((start ⟨⟨.float32, 1, 4, 0, 0⟩, []⟩ .silent).toOption.bind
      (follow contested)).map (fun q => (q.registry.object? 1, (q.space .dram0).available,
        q.registry.objects.flatMap (·.owned.toList))) =
      some (none, 2, [⟨.dram0, 0⟩, ⟨.dram0, 1⟩]) := by decide +kernel
  obtain ⟨q, reached, facts⟩ := Option.map_eq_some_iff.mp computed
  obtain ⟨p, begun, run⟩ := Option.bind_eq_some_iff.mp reached
  obtain ⟨emptied, rest⟩ := Prod.mk.inj facts
  obtain ⟨available, owned⟩ := Prod.mk.inj rest
  have started := toOption_eq_some.mp begun
  obtain ⟨nodup, taken, -⟩ := ownership_exclusive started run
  refine ⟨p, q, started, run, emptied, available, owned, nodup, ?_⟩
  intro l member
  obtain ⟨o, registered, inside⟩ := List.mem_flatMap.mp member
  exact (taken o registered l inside).2

end VectorMemory.Planner
