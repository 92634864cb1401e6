import VectorMemory.Proofs.Commands
import VectorMemory.Proofs.Requests

/-! What a refused request for vectors leaves. A space gives vectors out before the index is
asked for them. If a live object shows one of them, the request is refused and the vectors
stay taken, although no object owns them. -/
namespace VectorMemory

namespace Planner

variable {p q : Planner} {c : Command} {region : Region} {name : String} {extent : Extent}
  {consumers : List String} {cause : MemoryError}

/-- The region, the name and the extent of the one object that a command places. -/
def placing : Command → Option (Region × String × Extent)
  | .input name extent _ => some (.dram0, name, extent)
  | c => asked c

theorem input_eq_failed : input name extent consumers p = .failed cause q ↔
    allocate .dram0 name extent (consumers ++ [ioSentinel]) p = .failed cause q := by
  constructor
  · intro failed
    rcases Action.bind_eq_failed.mp failed with refused | ⟨_, _, _, final⟩
    · exact refused
    · cases final
  · exact fun refused => Action.bind_eq_failed.mpr (.inl refused)

theorem perform_of_placing (request : placing c = some (region, name, extent)) :
    ∃ consumers, ∀ p cause q, perform c p = .failed cause q ↔
      allocate region name extent consumers p = .failed cause q := by
  cases c with
  | input _ _ consumers =>
    cases request
    exact ⟨_, fun _ _ _ => replying_eq_failed.trans input_eq_failed⟩
  | activation _ _ consumers | scratch _ _ consumers | temp _ _ consumers =>
    cases request
    exact ⟨consumers, fun _ _ _ => replying_eq_failed⟩
  | _ => cases request

/-- The name is new, and the space would give out a vector that a live object shows. -/
def Clashes (p : Planner) (region : Region) (name : String) (extent : Extent) : Prop :=
  p.registry.has name = false ∧
    ∃ span t, Space.allocate extent.vectors (p.space region) = .done span t ∧
      ∃ o ∈ p.registry.objects, o.supersededBy = none ∧ ∃ l ∈ span.toList, l ∈ o.span.toList

/-- Vectors have been taken that no object owns. -/
def Leaks (p q : Planner) : Prop :=
  ∃ span : Span, span.toList ≠ [] ∧ ∀ l ∈ span.toList, ¬p.memory.Taken l ∧ q.memory.Taken l ∧
    ∀ o ∈ q.registry.objects, l ∉ o.owned.toList

theorem shown_of_claimed {span : Span} {t : Space} {l : Location} (sound : p.memory.Sound)
    (granted : Space.allocate extent.vectors (p.space region) = .done span t)
    (met : p.registry.index.insert p.registry.nextId span = .ok (.error (.claimed l))) :
    ∃ o ∈ p.registry.objects, o.supersededBy = none ∧ ∃ l ∈ span.toList, l ∈ o.span.toList := by
  have grants := Space.allocate_grants (sound.formed region).sound granted
  by_contra apart
  push Not at apart
  refine AddressIndex.insert_ne_error_of_fresh sound.coherent.index grants.proper grants.nodup ?_ met
  intro l given e member holds
  obtain ⟨o, found, live, listed⟩ := (sound.coherent.entries e).mp member
  have registered : o ∈ p.registry.objects := Registry.mem_objects.mpr ⟨e.owner, found⟩
  exact apart o registered (isLive_iff.mp live) l given (Entry.mem_of_listing_holds listed holds)

theorem leaks_of_take {span : Span} {t : Space} (sound : p.memory.Sound)
    (granted : Space.allocate extent.vectors (p.space region) = .done span t)
    (some : span.toList ≠ []) : Leaks p (p.setSpace region t) := by
  have takes := sound.formed.takes granted p.registry
  have memory : (p.setSpace region t).memory = ⟨Function.update p.space region t, p.registry⟩ := by
    rw [← memory_setSpace, setSpace_registry]
  refine ⟨span, some, fun l given => ⟨takes.fresh l given, ?_, ?_⟩⟩
  · rw [memory]
    exact (takes.taken l).mpr (.inr given)
  · intro o registered owned
    have same : (p.setSpace region t).registry = p.registry := congrArg Memory.registry memory
    rw [same] at registered
    have found := sound.coherent.mem_objects.mp registered
    exact takes.fresh l given (sound.taken o.id o found l owned)

theorem allocate_refused (sound : p.memory.Sound)
    (failed : allocate region name extent consumers p = .failed cause q) :
    (q = p ∧ cause.errorClass ≠ .invariant ∧ ¬p.Clashes region name extent) ∨
      (Leaks p q ∧ cause.errorClass = .invariant ∧ p.Clashes region name extent) := by
  rcases allocate_failed_cases failed with
    ⟨rfl, rfl, registered⟩ | ⟨rfl, lawful, full⟩ | ⟨span, t, l, rfl, rfl, unnamed, granted, met⟩
  · refine .inl ⟨rfl, nofun, fun clashes => ?_⟩
    have unnamed := clashes.1
    rw [registered] at unnamed
    cases unnamed
  · refine .inl ⟨rfl, of_decide_eq_true lawful, fun clashes => ?_⟩
    obtain ⟨-, span, t, granted, -⟩ := clashes
    rw [full] at granted
    cases granted
  · obtain ⟨o, registered, live, l, given, shown⟩ := shown_of_claimed sound granted met
    refine .inr ⟨leaks_of_take sound granted (List.ne_nil_of_mem given), rfl, unnamed, span, t, granted, ?_⟩
    exact ⟨o, registered, live, l, given, shown⟩

theorem Leaks.ne (leaks : Leaks p q) : q ≠ p := by
  rintro rfl
  obtain ⟨span, some, all⟩ := leaks
  obtain ⟨l, given⟩ := List.exists_mem_of_ne_nil _ some
  exact (all l given).1 (all l given).2.1

theorem Covered.not_clashes (covered : p.Covered) : ¬p.Clashes region name extent := by
  rintro ⟨-, span, t, granted, o, registered, live, l, given, shown⟩
  have sound := covered.sound
  have found := sound.coherent.mem_objects.mp registered
  have owned := covered.backed o.id o found (isLive_iff.mpr live) shown
  exact (sound.formed.takes granted p.registry).fresh l given (sound.taken o.id o found l owned)

/-- A refused request leaves the registry and all other spaces as they were. It leaves
everything as it was exactly if it does not break an invariant, that is, if no live object
shows a vector that it would be given, and leaks vectors otherwise. No request leaks if
every blend draws on its blendees. -/
theorem refusal_unchanged_iff {config : Config} {recorder : Recorder} {cs : List Command}
    {q' : Planner} (started : start config recorder = .ok p) (run : follow cs p = some q)
    (request : placing c = some (region, name, extent)) (failed : perform c q = .failed cause q') :
    Agree [.space region] q q' ∧
      (q' = q ↔ ¬q.Clashes region name extent) ∧
      (q' = q ↔ cause.errorClass ≠ .invariant) ∧
      (q' = q ∨ Leaks q q') ∧
      (Along Draws cs p → q' = q) := by
  have first := sound_start started
  obtain ⟨consumers, same⟩ := perform_of_placing request
  have refused := (same q cause q').mp failed
  have agree : Agree [.space region] q q' := by
    rcases allocate_eq_failed refused with ⟨rfl, -⟩ | ⟨-, agree⟩
    · exact Std.Refl.refl q'
    · exact agree
  have covered (draws : Along Draws cs p) : q.Covered :=
    follow_induction Covered run draws (covered_start started)
      fun _ _ _ covered allowed left => covered.perform allowed left
  refine ⟨agree, ?_⟩
  rcases allocate_refused (sound_follow first run) refused with
    ⟨rfl, lawful, apart⟩ | ⟨leaks, broken, clashes⟩
  · exact ⟨iff_of_true rfl apart, iff_of_true rfl lawful, .inl rfl, fun _ => rfl⟩
  · refine ⟨iff_of_false leaks.ne (not_not_intro clashes), iff_of_false leaks.ne (not_not_intro broken),
      .inr leaks, fun draws => ?_⟩
    exact absurd clashes (covered draws).not_clashes

/-- An input that does not fit, after blends on top of each other and a sweep. -/
theorem refusal_unchanged_iff_stacked :
    ∃ p q cause, start ⟨⟨.float32, 1, 4, 0, 0⟩, []⟩ .silent = .ok p ∧ follow stacked p = some q ∧
      perform (.input "x" ⟨9, 9⟩ []) q = .failed cause q ∧ cause.errorClass ≠ .invariant := by
  have computed : ((start ⟨⟨.float32, 1, 4, 0, 0⟩, []⟩ .silent).toOption.bind fun p =>
      (follow stacked p).bind fun q => (perform (.input "x" ⟨9, 9⟩ []) q).state?.map fun _ =>
        (along (fun p c => decide (p.Draws c)) stacked p,
          (perform (.input "x" ⟨9, 9⟩ []) q).success?.isNone)) = some (true, true) := by
    decide +kernel
  obtain ⟨p, begun, left⟩ := Option.bind_eq_some_iff.mp computed
  obtain ⟨q, run, left⟩ := Option.bind_eq_some_iff.mp left
  obtain ⟨q', ended, both⟩ := Option.map_eq_some_iff.mp left
  obtain ⟨draws, unmet⟩ := Prod.mk.inj both
  have started := toOption_eq_some.mp begun
  rcases Outcome.state?_eq_some.mp ended with ⟨reply, done⟩ | ⟨cause, failed⟩
  · rw [done] at unmet
    cases unmet
  · obtain ⟨-, -, lawful, -, unchanged⟩ :=
      @refusal_unchanged_iff _ _ _ .dram0 "x" ⟨9, 9⟩ _ _ _ _ _ started run rfl failed
    obtain rfl := unchanged (along_iff.mp draws)
    exact ⟨p, q', cause, started, run, failed, lawful.mp rfl⟩

/-- The second of two blends over one object shows a vector that is free once the first one
is gone. The request that is given this vector fails and loses all it was given. -/
theorem vectors_lost_to_view :
    ¬∀ (config : Config) (recorder : Recorder) (p q q' : Planner) (cs : List Command) (c : Command)
        (region : Region) (name : String) (extent : Extent) (cause : MemoryError),
      start config recorder = .ok p → follow cs p = some q →
        placing c = some (region, name, extent) → perform c q = .failed cause q' →
          (q'.space region).available = (q.space region).available := by
  intro keeps
  have computed : ((start ⟨⟨.float32, 1, 4, 0, 0⟩, []⟩ .silent).toOption.bind fun p =>
      (follow reblended p).bind fun q => (perform (.activation "d" ⟨2, 2⟩ []) q).state?.map fun q' =>
        ((perform (.activation "d" ⟨2, 2⟩ []) q).success?.isNone, (q.space .dram0).available,
          (q'.space .dram0).available)) = some (true, 4, 2) := by decide +kernel
  obtain ⟨p, begun, left⟩ := Option.bind_eq_some_iff.mp computed
  obtain ⟨q, run, left⟩ := Option.bind_eq_some_iff.mp left
  obtain ⟨q', ended, facts⟩ := Option.map_eq_some_iff.mp left
  obtain ⟨unmet, facts⟩ := Prod.mk.inj facts
  obtain ⟨before, after⟩ := Prod.mk.inj facts
  rcases Outcome.state?_eq_some.mp ended with ⟨reply, done⟩ | ⟨cause, failed⟩
  · rw [done] at unmet
    cases unmet
  · have kept := keeps _ _ p q q' _ _ .dram0 "d" ⟨2, 2⟩ cause (toOption_eq_some.mp begun) run rfl failed
    rw [before, after] at kept
    cases kept

end Planner

end VectorMemory
