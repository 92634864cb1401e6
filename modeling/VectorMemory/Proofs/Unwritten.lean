import VectorMemory.Proofs.Delivery
import VectorMemory.Proofs.Refusals

/-! What a refused request for a constant leaves. The bytes of a constant are written last, so a
refused one writes none. By then its vectors may have been taken, and its object registered:
it counts as placed, and later requests return it without its bytes. This needs a blend that
shows vectors which are still free for constants. -/
namespace VectorMemory

theorem Space.Grants.free_before {s t : Space} {count : Nat} {span : Span}
    (grants : Grants s count span t) (heap : s.isHeap = true) {l : Location}
    (given : l ∈ span.toList) : s.Free l.address := by
  have here : l = ⟨s.region, l.address⟩ := by rw [← grants.within l given]
  have bound : l.address < s.capacity := by
    have taken := (grants.taken l.address).mpr (.inr (here ▸ given))
    rw [← grants.shape.capacity]
    exact taken.1
  have fresh := grants.fresh l given
  unfold Free pool?
  unfold Taken at fresh
  unfold isHeap at heap
  cases strategy : s.strategy with
  | arena cursor =>
    rw [strategy] at heap
    cases heap
  | heap free =>
    rw [strategy] at fresh
    exact ⟨free, rfl, not_not.mp fun covered => fresh ⟨bound, covered⟩⟩

namespace Planner

variable {arch : Architecture} {p q : Planner} {c : Command} {region : Region} {name : String}
  {extent : Extent} {requested : Option Extent} {bias : Option String} {cause : MemoryError}
  {o : Object}

/-! ### Vectors that are kept for constants -/

/-- A blend shows no vector that is still free for constants. -/
def Spares (p : Planner) (c : Command) : Prop :=
  ∀ l ∈ shown c, l.region = .dram1 → ¬(p.space .dram1).Free l.address

instance (p : Planner) (c : Command) : Decidable (p.Spares c) :=
  inferInstanceAs (Decidable (∀ l ∈ shown c, l.region = .dram1 → ¬(p.space .dram1).Free l.address))

theorem reserved_perform (sound : p.memory.Sound) (reserved : p.memory.Reserved .dram1)
    (spares : p.Spares c) (left : (perform c p).state? = some q) :
    q.memory.Reserved .dram1 := by
  cases leaves_of_state sound left with
  | grow _ grows =>
    exact sound.grows_induction (·.Reserved .dram1) grows.1 reserved
      fun _ _ sound reserved step => reserved.grow sound.formed step
  | blend done =>
    obtain ⟨ids, o, -, blends, view, same, -⟩ := perform_blend_done sound.coherent done
    rw [same]
    refine reserved.blend blends fun l inside home => ?_
    rw [view] at inside
    unfold Memory.Free
    rw [home]
    exact spares l inside home
  | refuse => exact reserved
  | sweep _ drops =>
    -- the memory of the constants is not swept
    have same : Part.Same (.space .dram1) p q := same_of_perform left (by simp [touches])
    intro i x found live l inside home free
    apply reserved i x ((drops.found_iff sound).mp found).1 live l inside home
    unfold Memory.Free at free ⊢
    rw [home] at free ⊢
    rwa [show q.memory.space .dram1 = p.memory.space .dram1 from same] at free

theorem not_clashes_of_reserved (sound : p.memory.Sound) (heap : region ≠ .temp)
    (reserved : p.memory.Reserved region) : ¬p.Clashes region name extent := by
  rintro ⟨-, span, t, granted, o, registered, live, l, given, shown⟩
  have serves := sound.formed region
  have grants := Space.allocate_grants serves.sound granted
  have home : l.region = region := (grants.within l given).trans serves.home
  have found := sound.coherent.mem_objects.mp registered
  apply reserved o.id o found (isLive_iff.mpr live) l shown home
  unfold Memory.Free
  rw [home]
  exact grants.free_before (serves.heap heap) given

/-- Constants lie where their bytes are, and nobody shows the vectors for further ones. -/
structure Settled (arch : Architecture) (p : Planner) : Prop where
  sound : p.memory.Sound
  mirrors : ∃ blocks, Mirrors arch p blocks
  reserved : p.memory.Reserved .dram1

theorem settled_start {config : Config} {recorder : Recorder}
    (started : start config recorder = .ok p) : Settled config.arch p := by
  refine ⟨sound_start started, ⟨[], mirrors_start started⟩, ?_⟩
  obtain ⟨_, -, made⟩ := bind_eq_ok.mp started
  cases made
  intro i o found
  simp [memory, Registry.empty, Registry.object?] at found

theorem Settled.constant_failed (settled : Settled arch p)
    (failed : constant name requested p = .failed cause q) : q = p ∧ cause.isLawful = true := by
  obtain ⟨blocks, mirrors⟩ := settled.mirrors
  rcases constant_failed_cases settled.sound.formed failed with
    unchanged | ⟨extent, refused⟩ | ⟨o, placed, -, -, misplaced⟩
  · exact unchanged
  · rcases allocate_refused settled.sound refused with ⟨same, lawful, -⟩ | ⟨-, -, clashes⟩
    · exact ⟨same, decide_eq_true lawful⟩
    · exact absurd clashes (not_clashes_of_reserved settled.sound nofun settled.reserved)
  · exact absurd misplaced (mirrors.not_misplaced placed)

theorem Settled.constant (settled : Settled arch p)
    (left : (constant name requested p).state? = some q) : Settled arch q := by
  rcases Outcome.state?_eq_some.mp left with ⟨o, done⟩ | ⟨cause, failed⟩
  · obtain ⟨blocks, mirrors⟩ := settled.mirrors
    have state : (perform (.constant name requested) p).state? = some q := by
      rw [perform, state?_replying, left]
    exact ⟨sound_perform settled.sound state,
      ⟨_, mirrors.constant settled.sound (by rw [done]; rfl)⟩,
      reserved_perform settled.sound settled.reserved (by simp [Spares, shown]) state⟩
  · obtain ⟨rfl, -⟩ := settled.constant_failed failed
    exact settled

theorem Settled.weights_failed (settled : Settled arch p)
    (failed : weights name bias p = .failed cause q) : cause.isLawful = true := by
  rcases Action.bind_eq_failed.mp failed with first | ⟨w, middle, done, second⟩
  · exact (settled.constant_failed first).2
  · cases bias with
    | none => cases second
    | some bias =>
      rcases Action.bind_eq_failed.mp second with refused | ⟨_, _, _, final⟩
      · have after : Settled arch middle := settled.constant (by rw [done]; rfl)
        exact (after.constant_failed refused).2
      · cases final

/-- Failures included. -/
theorem Settled.perform (settled : Settled arch p) (spares : p.Spares c) (fits : Fits c)
    (left : (perform c p).state? = some q) : Settled arch q := by
  have sound := settled.sound
  obtain ⟨blocks, mirrors⟩ := settled.mirrors
  have mirrored : ∃ blocks, Mirrors arch q blocks := by
    cases c with
    | constant name requested =>
      rw [Planner.perform, state?_replying] at left
      exact (settled.constant left).mirrors
    | weights name bias =>
      rw [Planner.perform, state?_replying] at left
      have lawful : (weights name bias p).left? MemoryError.isLawful = some q := by
        rcases Outcome.state?_eq_some.mp left with ⟨both, done⟩ | ⟨cause, failed⟩
        · exact Outcome.left?_eq_some.mpr (.inl ⟨both, done⟩)
        · exact Outcome.left?_eq_some.mpr (.inr ⟨cause, failed, settled.weights_failed failed⟩)
      exact ⟨_, mirrors.weights sound lawful⟩
    | _ => exact ⟨blocks, mirrors.frame sound fits left (by simp [touches])⟩
  exact ⟨sound_perform sound left, mirrored, reserved_perform sound settled.reserved spares left⟩

theorem Settled.follow {cs : List Command} (settled : Settled arch p) (fits : ∀ c ∈ cs, Fits c)
    (spares : Along Spares cs p) (run : follow cs p = some q) : Settled arch q := by
  induction cs generalizing p with
  | nil =>
    cases run
    exact settled
  | cons c rest ih =>
    rw [List.forall_mem_cons] at fits
    obtain ⟨middle, left, later⟩ := follow_cons.mp run
    exact ih (settled.perform spares.1 fits.1 left) fits.2 (spares.2 middle left) later

/-! ### Refused constants -/

/-- An object has been registered under a new name, without the bytes that belong to it, and
all further requests return it. -/
structure Unwritten (name : String) (p : Planner) (o : Object) (q : Planner) : Prop where
  unplaced : p.registry.has name = false
  registered : q.registry.get name = .ok o
  filled : o.span.toList ≠ []
  bytes : q.blob = p.blob
  returned : ∀ requested, constant name requested q = .done o q

theorem unwritten_of_misplaced (sound : p.memory.Sound) (placed : Placed p .dram1 o q)
    (named : o.name = name) (misplaced : checkPosition o q = .failed cause q) :
    Unwritten name p o q := by
  obtain ⟨-, -, first, begins, -⟩ := checkPosition_eq_failed misplaced
  have coherent := placed.places.coherent sound.coherent
  have registered := coherent.get_eq_ok.mpr ⟨placed.found, named⟩
  refine ⟨named ▸ placed.places.fresh, registered, ?_, placed.rest .blob (by simp),
    fun _ => constant_of_registered registered⟩
  obtain ⟨run, head, -⟩ := Option.map_eq_some_iff.mp begins
  exact List.ne_nil_of_mem (placed.places.proper.start_mem (List.mem_of_head? head))

theorem Unwritten.ne (unwritten : Unwritten name p o q) : q ≠ p := by
  rintro rfl
  have unplaced := unwritten.unplaced
  rw [has_of_get unwritten.registered] at unplaced
  cases unplaced

theorem constant_refused (sound : p.memory.Sound)
    (failed : constant name requested p = .failed cause q) :
    (q = p ∧ cause.errorClass ≠ .invariant) ∨
      (cause.errorClass = .invariant ∧
        ((Leaks p q ∧ Agree [.space .dram1] p q) ∨
          ∃ o, Unwritten name p o q ∧ Agree [.space .dram1, .registry, .recorder] p q)) := by
  rcases constant_failed_cases sound.formed failed with
    ⟨same, lawful⟩ | ⟨extent, refused⟩ | ⟨o, placed, named, -, misplaced⟩
  · exact .inl ⟨same, of_decide_eq_true lawful⟩
  · rcases allocate_refused sound refused with ⟨same, lawful, -⟩ | ⟨leaks, broken, -⟩
    · exact .inl ⟨same, lawful⟩
    · rcases allocate_eq_failed refused with ⟨same, -⟩ | ⟨-, agree⟩
      · exact absurd same leaks.ne
      · exact .inr ⟨broken, .inl ⟨leaks, agree⟩⟩
  · obtain ⟨-, broken, -⟩ := checkPosition_eq_failed misplaced
    refine .inr ⟨not_not.mp (of_decide_eq_false broken), .inr ⟨o, ?_, placed.rest⟩⟩
    exact unwritten_of_misplaced sound placed named misplaced

/-- A refused constant writes no bytes and counts nothing. It leaves everything as it was exactly
if it does not break an invariant. Otherwise it loses the vectors that it was given, or stays
registered without its bytes. Neither happens if no blend shows a vector that is still free for
constants. -/
theorem constant_refusal_unchanged_iff {config : Config} {recorder : Recorder} {cs : List Command}
    {q' : Planner} (started : start config recorder = .ok p) (fits : ∀ c ∈ cs, Fits c)
    (run : follow cs p = some q) (failed : constant name requested q = .failed cause q') :
    Agree [.space .dram1, .registry, .recorder] q q' ∧
      (q' = q ↔ cause.errorClass ≠ .invariant) ∧
      (q' = q ∨ (Leaks q q' ∧ q'.registry = q.registry) ∨ ∃ o, Unwritten name q o q') ∧
      (Along Spares cs p → q' = q) := by
  have spared (spares : Along Spares cs p) : q' = q :=
    (((settled_start started).follow fits spares run).constant_failed failed).1
  rcases constant_refused (sound_follow (sound_start started) run) failed with
    ⟨rfl, lawful⟩ | ⟨broken, ⟨leaks, agree⟩ | ⟨o, unwritten, agree⟩⟩
  · exact ⟨Std.Refl.refl q', iff_of_true rfl lawful, .inl rfl, spared⟩
  · have registry : Part.Same .registry q q' := agree .registry (by simp)
    refine ⟨fun part outside => agree part ?_, iff_of_false leaks.ne (not_not_intro broken),
      .inr (.inl ⟨leaks, registry⟩), spared⟩
    exact fun inside => outside (List.mem_cons.mpr (.inl (List.mem_singleton.mp inside)))
  · exact ⟨agree, iff_of_false unwritten.ne (not_not_intro broken), .inr (.inr ⟨o, unwritten⟩), spared⟩

/-- A constant of one vector and a blend over it; a constant of two is staged. -/
def spared : List Command :=
  [.stage "c" ⟨[1], .float32 [⟨1⟩]⟩, .stage "w" ⟨[2], .float32 [⟨2⟩, ⟨3⟩]⟩, .constant "c" none,
    .blend "b" ⟨1, 1⟩ [] ["c"] [⟨.dram1, 0⟩]]

/-- The second constant does not fit. -/
theorem constant_refusal_unchanged_iff_spared :
    ∃ p q cause, start ⟨⟨.float32, 1, 0, 2, 0⟩, []⟩ .silent = .ok p ∧ (∀ c ∈ spared, Fits c) ∧
      follow spared p = some q ∧ constant "w" none q = .failed cause q ∧
      cause.errorClass ≠ .invariant := by
  have computed : ((start ⟨⟨.float32, 1, 0, 2, 0⟩, []⟩ .silent).toOption.bind fun p =>
      (follow spared p).bind fun q => (constant "w" none q).state?.map fun _ =>
        (decide (∀ c ∈ spared, Fits c), along (fun p c => decide (p.Spares c)) spared p,
          (constant "w" none q).success?.isNone)) = some (true, true, true) := by decide +kernel
  obtain ⟨p, begun, left⟩ := Option.bind_eq_some_iff.mp computed
  obtain ⟨q, run, left⟩ := Option.bind_eq_some_iff.mp left
  obtain ⟨q', ended, facts⟩ := Option.map_eq_some_iff.mp left
  obtain ⟨fit, facts⟩ := Prod.mk.inj facts
  obtain ⟨spares, unmet⟩ := Prod.mk.inj facts
  have started := toOption_eq_some.mp begun
  have fits := of_decide_eq_true fit
  rcases Outcome.state?_eq_some.mp ended with ⟨o, done⟩ | ⟨cause, failed⟩
  · rw [done] at unmet
    cases unmet
  · obtain ⟨-, lawful, -, unchanged⟩ := constant_refusal_unchanged_iff started fits run failed
    obtain rfl := unchanged (along_iff.mp spares)
    exact ⟨p, q', cause, started, fits, run, failed, lawful.mp rfl⟩

/-- A blend over a vector that is still free for constants, and a constant that is refused since
it is given this vector. -/
def unspared : List Command :=
  [.stage "c" ⟨[1], .float32 [⟨1⟩]⟩, .blend "b" ⟨1, 1⟩ [] [] [⟨.dram1, 0⟩], .constant "c" none]

/-- The constant is refused again, since it is given the vector behind the lost one. The next
request returns it. -/
theorem constant_without_bytes :
    ¬∀ (config : Config) (recorder : Recorder) (p q q' : Planner) (cs : List Command) (name : String)
        (requested : Option Extent) (cause : MemoryError),
      start config recorder = .ok p → (∀ c ∈ cs, Fits c) → follow cs p = some q →
        constant name requested q = .failed cause q' →
          q'.space .dram1 = q.space .dram1 ∧ q'.registry = q.registry ∧ q'.blob = q.blob ∧
            q'.tally = q.tally ∧ ∀ o r, constant name requested q' = .done o r → r.blob ≠ q.blob := by
  intro untouched
  have computed : ((start ⟨⟨.float32, 1, 0, 4, 0⟩, []⟩ .silent).toOption.bind fun p =>
      (follow unspared p).bind fun q => (constant "c" none q).state?.bind fun q' =>
        (constant "c" none q').result?.map fun result =>
          (decide (∀ c ∈ unspared, Fits c), (constant "c" none q).success?.isNone,
            decide (result.2.blob = q.blob))) = some (true, true, true) := by decide +kernel
  obtain ⟨p, begun, left⟩ := Option.bind_eq_some_iff.mp computed
  obtain ⟨q, run, left⟩ := Option.bind_eq_some_iff.mp left
  obtain ⟨q', ended, left⟩ := Option.bind_eq_some_iff.mp left
  obtain ⟨⟨o, r⟩, again, facts⟩ := Option.map_eq_some_iff.mp left
  obtain ⟨fit, facts⟩ := Prod.mk.inj facts
  obtain ⟨unmet, unwritten⟩ := Prod.mk.inj facts
  rcases Outcome.state?_eq_some.mp ended with ⟨o, done⟩ | ⟨cause, failed⟩
  · rw [done] at unmet
    cases unmet
  · obtain ⟨-, -, -, -, written⟩ := untouched _ _ p q q' _ _ _ cause (toOption_eq_some.mp begun)
      (of_decide_eq_true fit) run failed
    exact written o r (Outcome.result?_eq_some.mp again) (of_decide_eq_true unwritten)

end Planner

end VectorMemory
