import VectorMemory.Proofs.Steps

/-! What the operations behind the commands return and leave, taken apart once:
placing an object, inputs, outputs, and constants. -/
namespace VectorMemory

namespace Planner

variable {p q : Planner} {name : String} {extent : Extent} {consumers : List String} {o : Object}
  {cause : MemoryError}

theorem marks_congr (tracepoints : q.tracepoints = p.tracepoints) (o : Object) :
    q.marks o = p.marks o := by
  rw [marks, marks, tracepoints]

theorem recorder_mark_congr (o : Object) (tracepoints : q.tracepoints = p.tracepoints)
    (recorder : q.recorder = p.recorder) : (q.mark o).recorder = (p.mark o).recorder := by
  unfold mark
  rw [marks_congr tracepoints]
  split
  · exact recorder
  · rw [recorder]

/-- A new object has been placed in a region and marked; beyond the space of this
region, the registry and the recorder nothing has changed. -/
structure Placed (p : Planner) (region : Region) (o : Object) (q : Planner) : Prop where
  home : o.region = region
  places : Registry.Places p.registry o q.registry
  recorded : q.recorder = (p.mark o).recorder
  granted : ∃ t, Space.allocate o.extent.vectors (p.space region) = .done o.span t ∧
    q.space = Function.update p.space region t
  rest : Agree [.space region, .registry, .recorder] p q

theorem allocate_eq_done {region : Region} (formed : p.memory.Formed)
    (done : allocate region name extent consumers p = .done o q) :
    Placed p region o q ∧ o.name = name ∧ o.extent = extent ∧
      o.consumers = NameSet.ofList consumers := by
  obtain ⟨x, middle, placed, marked⟩ := Action.bind_eq_done.mp done
  obtain ⟨⟨t, r⟩, inner, rfl⟩ := Action.zoom_eq_done.mp placed
  obtain ⟨granted, places, named, home, users, size⟩ := Registry.allocate_eq_done inner
  cases marked
  have same := (mark_memory { p.setSpace region t with registry := r } o).trans
    (memory_setSpace p region t r)
  have registry : (mark { p.setSpace region t with registry := r } o).registry = r :=
    congrArg Memory.registry same
  have shape := (Space.allocate_grants (formed region).sound granted).shape
  have keeps : (allocate region name extent consumers).Keeps (admitted true)
      (Moves true [.space region, .registry, .recorder]) :=
    moves_allocate name extent consumers (by simp) (by simp) (by simp)
  have moves := keeps.left p _ (by rw [done]; rfl)
  have here : o.region = region := home.trans (shape.region.trans (formed region).home)
  refine ⟨⟨here, ?_, ?_, ⟨t, ?_, ?_⟩, Moves.agree moves⟩, named, size, users⟩
  · rw [registry]
    exact places
  · apply recorder_mark_congr <;> cases region <;> rfl
  · rw [size]
    exact granted
  · exact congrArg Memory.space same

/-- A request fails for its name, for want of room, or since the index refuses what
the space has given out by then. -/
theorem allocate_failed_cases {region : Region}
    (failed : allocate region name extent consumers p = .failed cause q) :
    (q = p ∧ cause = .duplicateName name ∧ p.registry.has name = true) ∨
      (q = p ∧ cause.isLawful = true ∧
        Space.allocate extent.vectors (p.space region) = .failed cause (p.space region)) ∨
      ∃ span t l, q = p.setSpace region t ∧ cause = .claimed l ∧ p.registry.has name = false ∧
        Space.allocate extent.vectors (p.space region) = .done span t ∧
        p.registry.index.insert p.registry.nextId span = .ok (.error (.claimed l)) := by
  rcases Action.bind_eq_failed.mp failed with refused | ⟨x, middle, -, marked⟩
  · obtain ⟨⟨t, r⟩, inner, rfl⟩ := Action.zoom_eq_failed.mp refused
    have same : { p.setSpace region (p.space region) with registry := p.registry } = p := by
      rw [setSpace_registry, setSpace_self]
    rcases Registry.allocate_eq_failed_iff.mp inner with
      ⟨rfl, registered, rfl, rfl⟩ | ⟨unnamed, ⟨full, rfl⟩ | ⟨span, ⟨granted, rfl⟩, met⟩⟩
    · exact .inl ⟨same, rfl, registered⟩
    · obtain ⟨short, rfl⟩ := Space.allocate_eq_failed full
      refine .inr (.inl ⟨same, ?_, full⟩)
      rw [(Space.place_eq_error.mp short).2]
      rfl
    · rcases AddressIndex.insert_cases met with ⟨l, -, claimed⟩ | ⟨-, impossible⟩
      · cases claimed
        exact .inr (.inr ⟨span, t, l, setSpace_registry p region t, rfl, unnamed, granted, met⟩)
      · cases impossible
  · cases marked

/-- A request that fails changes nothing, unless the index refuses vectors that
were free. -/
theorem allocate_eq_failed {region : Region}
    (failed : allocate region name extent consumers p = .failed cause q) :
    (q = p ∧ cause.isLawful = true) ∨
      ((∃ l, cause = .claimed l) ∧ Agree [.space region] p q) := by
  rcases allocate_failed_cases failed with
    ⟨same, rfl, -⟩ | ⟨same, lawful, -⟩ | ⟨span, t, l, rfl, rfl, -⟩
  · exact .inl ⟨same, rfl⟩
  · exact .inl ⟨same, lawful⟩
  · exact .inr ⟨⟨l, rfl⟩, agree_setSpace p region t (by simp)⟩

namespace Placed

variable {region : Region}

theorem memory_eq (placed : Placed p region o q) : ∃ t,
    Space.allocate o.extent.vectors (p.memory.space region) = .done o.span t ∧
      q.memory = ⟨Function.update p.memory.space region t, q.registry⟩ := by
  obtain ⟨t, granted, spaces⟩ := placed.granted
  exact ⟨t, granted, by rw [Planner.memory, spaces]; rfl⟩

theorem found (placed : Placed p region o q) : q.registry.object? o.id = some o := by
  rw [placed.places.id]
  exact placed.places.object?_new

theorem fresh (placed : Placed p region o q) : p.registry.object? o.id = none := by
  rw [placed.places.id]
  by_contra other
  obtain ⟨x, found⟩ := Option.ne_none_iff_exists'.mp other
  exact Registry.object?_ne_nextId found rfl

theorem within (placed : Placed p region o q) (formed : p.memory.Formed) :
    ∀ l ∈ o.span.toList, l.region = region := by
  obtain ⟨t, granted, -⟩ := placed.granted
  intro l inside
  exact ((Space.allocate_grants (formed region).sound granted).within l inside).trans
    (formed region).home

end Placed

theorem isSentinel_io : isSentinel ioSentinel = true := rfl

theorem isSentinel_constant : isSentinel constantSentinel = true := rfl

theorem isPinned_of_mem {sentinel : String} (pins : isSentinel sentinel = true)
    (member : sentinel ∈ consumers) (users : o.consumers = NameSet.ofList consumers) :
    o.isPinned = true := by
  refine NameSet.any_eq_true.mpr ⟨sentinel, ?_, pins⟩
  rwa [users, NameSet.mem_ofList]

theorem isPinned_pin (o : Object) : (o.pin ioSentinel).isPinned = true :=
  NameSet.any_eq_true.mpr ⟨ioSentinel, NameSet.mem_insert.mpr (.inl rfl), rfl⟩

/-! ### Inputs -/

theorem input_eq_done (formed : p.memory.Formed)
    (done : input name extent consumers p = .done o q) :
    ∃ middle, Placed p .dram0 o middle ∧ q = { middle with inputs := p.inputs ++ [(name, o.id)] } ∧
      o.name = name ∧ o.isPinned = true := by
  obtain ⟨_, middle, placed, final⟩ := Action.bind_eq_done.mp done
  cases final
  obtain ⟨placed, named, -, users⟩ := allocate_eq_done formed placed
  have table : middle.inputs = p.inputs := placed.rest .inputs (by simp)
  exact ⟨middle, placed, by simp only [table], named, isPinned_of_mem isSentinel_io (by simp) users⟩

theorem inputs_of_failed (failed : input name extent consumers p = .failed cause q) :
    q.inputs = p.inputs := by
  rcases Action.bind_eq_failed.mp failed with refused | ⟨_, _, _, final⟩
  · rcases allocate_eq_failed refused with ⟨rfl, -⟩ | ⟨-, agree⟩
    · rfl
    · exact agree .inputs (by simp)
  · cases final

/-! ### Outputs -/

/-- An output is pinned where it is, or placed anew to be copied there. -/
theorem output_cases {placement : Placement} (formed : p.memory.Formed)
    (done : output name p = .done placement q) :
    ∃ produced, p.registry.get name = .ok produced ∧
      ((produced.region = .dram0 ∧ placement = ⟨produced.pin ioSentinel, none⟩ ∧
          q = addOutput name produced.id
            { p with registry := p.registry.update produced.id (Object.pin ioSentinel) }) ∨
        ∃ o middle, produced.region = .scratch ∧ placement = ⟨o, some produced⟩ ∧
          Placed p .dram0 o middle ∧ q = addOutput name o.id middle ∧
          o.name = name ++ ":output" ∧ o.isPinned = true) := by
  obtain ⟨_, _, got, afterGet⟩ := Action.bind_eq_done.mp done
  cases got
  obtain ⟨produced, _, known, afterKnown⟩ := Action.bind_eq_done.mp afterGet
  obtain ⟨named, rfl⟩ := Action.ofResult_eq_done.mp known
  refine ⟨produced, named, ?_⟩
  cases home : produced.region with
  | dram0 =>
    rw [home] at afterKnown
    obtain ⟨o, middle, pinned, final⟩ := Action.bind_eq_done.mp afterKnown
    obtain ⟨r, inner, rfl⟩ := Action.zoom_eq_done.mp pinned
    obtain ⟨before, again, rfl, rfl⟩ := Registry.change_eq_done.mp inner
    rw [named] at again
    cases again
    cases final
    exact .inl ⟨rfl, rfl, rfl⟩
  | scratch =>
    rw [home] at afterKnown
    obtain ⟨o, middle, placed, final⟩ := Action.bind_eq_done.mp afterKnown
    obtain ⟨placed, named, -, users⟩ := allocate_eq_done formed placed
    cases final
    have pinned : o.isPinned = true := isPinned_of_mem isSentinel_io (by simp) users
    exact .inr ⟨o, middle, rfl, rfl, placed, rfl, named, pinned⟩
  | dram1 | temp =>
    rw [home] at afterKnown
    cases afterKnown

end Planner

/-! ### Constants -/

def Architecture.encodeConstant (arch : Architecture) (name : String) (tensor : Tensor)
    (vectors : Nat) (replicated : Bool) : Except Fault (Except MemoryError Bytes) :=
  if replicated then arch.encodeReplicated name tensor vectors else arch.encodeTensor name tensor

namespace Blob

theorem append_eq_done {encoded : Except Fault (Except MemoryError Bytes)} {b b' : Blob}
    {u : Unit} :
    append encoded b = .done u b' ↔
      ∃ bytes, encoded = .ok (.ok bytes) ∧ { b with bytes := b.bytes ++ bytes } = b' := by
  simp [append, Action.bind_eq_done, Action.ofExcept_eq_done, Action.ofResult_eq_done]

theorem append_eq_failed {encoded : Except Fault (Except MemoryError Bytes)} {b b' : Blob}
    {cause : MemoryError} :
    append encoded b = .failed cause b' ↔ encoded = .ok (.error cause) ∧ b = b' := by
  simp [append, Action.bind_eq_failed, Action.ofExcept_eq_done, Action.ofResult_eq_done,
    Action.ofResult_eq_failed]

theorem writing_eq_append (b : Blob) (name : String) (tensor : Tensor) (vectors : Nat)
    (replicated : Bool) :
    (if replicated then replicate name tensor vectors else write name tensor) b =
      append (b.arch.encodeConstant name tensor vectors replicated) b := by
  cases replicated <;> rfl

end Blob

theorem singles_of_encodable {name : String} {tensor : Tensor}
    (encodable : ensureEncodable name tensor.kind = .ok ()) :
    ∃ values, tensor.scalars.singles? = some values ∧ values.length = tensor.size := by
  unfold ensureEncodable Tensor.kind Scalars.kind at encodable
  unfold Tensor.size Scalars.size Scalars.singles?
  cases scalars : tensor.scalars with
  | int32 values | float32 values => simp
  | int64 values =>
    rw [scalars] at encodable
    cases encodable

namespace Planner

variable {p q : Planner} {name : String} {requested : Option Extent} {o : Object}
  {cause : MemoryError}

theorem constantExtent_cases {tensor : Tensor} {natural extent : Extent} {replicated : Bool}
    (sized : constantExtent name tensor natural requested = .ok (extent, replicated)) :
    (replicated = false ∧ extent = natural) ∨
      (replicated = true ∧ extent ≠ natural ∧ tensor.size = 1) := by
  unfold constantExtent at sized
  split at sized
  · cases sized
    exact .inl ⟨rfl, rfl⟩
  · split at sized
    · cases sized
      exact .inl ⟨rfl, rfl⟩
    · next other =>
      split at sized
      · next single =>
        cases sized
        exact .inr ⟨rfl, other, single⟩
      · cases sized

theorem encodeConstant_ne_error {arch : Architecture} {tensor : Tensor} {natural extent : Extent}
    {replicated : Bool} (encodable : ensureEncodable name tensor.kind = .ok ())
    (sized : constantExtent name tensor natural requested = .ok (extent, replicated)) :
    arch.encodeConstant name tensor extent.vectors replicated ≠ .ok (.error cause) := by
  obtain ⟨values, singles, length⟩ := singles_of_encodable encodable
  unfold Architecture.encodeConstant
  rcases constantExtent_cases sized with ⟨rfl, -⟩ | ⟨rfl, -, single⟩
  · simp only [Bool.false_eq_true, if_false, Architecture.encodeTensor, singles]
    intro refused
    obtain ⟨_, -, impossible⟩ := bind_eq_ok.mp refused
    cases impossible
  · rw [single] at length
    obtain ⟨value, rfl⟩ := List.length_eq_one_iff.mp length
    simp only [if_true, Architecture.encodeReplicated, singles]
    intro refused
    obtain ⟨_, -, impossible⟩ := bind_eq_ok.mp refused
    cases impossible

structure Emits (p : Planner) (name : String) (requested : Option Extent) (tensor : Tensor)
    (bytes : Bytes) (o : Object) (q : Planner) : Prop where
  unplaced : p.registry.has name = false
  staged : p.staging.find? name = some tensor
  encoded : ∃ natural replicated, p.arch.extentOf tensor.shape = .ok natural ∧
    constantExtent name tensor natural requested = .ok (o.extent, replicated) ∧
    p.blob.arch.encodeConstant name tensor o.extent.vectors replicated = .ok (.ok bytes)
  named : o.name = name
  users : o.consumers = NameSet.ofList [constantSentinel]
  result : ∃ middle tally, Placed p .dram1 o middle ∧ p.tally.record o.extent = .ok tally ∧
    q = { middle with blob := { p.blob with bytes := p.blob.bytes ++ bytes }, tally }

theorem Emits.pinned {tensor : Tensor} {bytes : Bytes} (emits : Emits p name requested tensor bytes o q) :
    o.isPinned = true :=
  isPinned_of_mem isSentinel_constant (by simp) emits.users

theorem get_eq_ok_of_staging {staging : Staging} {tensor : Tensor} :
    staging.get name = .ok tensor ↔ staging.find? name = some tensor := by
  unfold Staging.get
  cases staging.find? name <;> simp

theorem checkPosition_eq_done {u : Unit} (done : checkPosition o p = .done u q) : q = p := by
  unfold checkPosition at done
  cases begins : o.span.first? with
  | none =>
    rw [begins] at done
    cases done
    rfl
  | some first =>
    rw [begins] at done
    obtain ⟨_, _, got, done⟩ := Action.bind_eq_done.mp done
    cases got
    obtain ⟨_, _, sized, done⟩ := Action.bind_eq_done.mp done
    obtain ⟨-, rfl⟩ := Action.ofExcept_eq_done.mp sized
    obtain ⟨_, _, multiplied, done⟩ := Action.bind_eq_done.mp done
    obtain ⟨-, rfl⟩ := Action.ofExcept_eq_done.mp multiplied
    split at done <;> cases done
    rfl

/-- The check of the position fails only for a constant that lies elsewhere than
its bytes. -/
theorem checkPosition_eq_failed (failed : checkPosition o p = .failed cause q) :
    q = p ∧ cause.isLawful = false ∧ ∃ first, o.span.first? = some first ∧
      ¬(o.span.isContiguous = true ∧
        first.address * (p.arch.lanes * p.arch.format.byteSize) = p.blob.size) := by
  unfold checkPosition at failed
  cases begins : o.span.first? with
  | none =>
    rw [begins] at failed
    cases failed
  | some first =>
    rw [begins] at failed
    rcases Action.bind_eq_failed.mp failed with got | ⟨_, _, got, failed⟩
    · cases got
    cases got
    rcases Action.bind_eq_failed.mp failed with size | ⟨_, _, size, failed⟩
    · exact absurd size Action.ofExcept_ne_failed
    obtain ⟨sized, rfl⟩ := Action.ofExcept_eq_done.mp size
    obtain ⟨-, rfl⟩ := Word.mul_eq_ok_iff.mp sized
    rcases Action.bind_eq_failed.mp failed with multiply | ⟨_, _, multiply, failed⟩
    · exact absurd multiply Action.ofExcept_ne_failed
    obtain ⟨multiplied, rfl⟩ := Action.ofExcept_eq_done.mp multiply
    obtain ⟨-, rfl⟩ := Word.mul_eq_ok_iff.mp multiplied
    split at failed
    · cases failed
    · next elsewhere =>
      cases failed
      exact ⟨rfl, rfl, first, rfl, elsewhere⟩

theorem constant_eq_done (formed : p.memory.Formed) (done : constant name requested p = .done o q) :
    (p.registry.get name = .ok o ∧ q = p) ∨
      ∃ tensor bytes, Emits p name requested tensor bytes o q := by
  obtain ⟨_, _, got, afterGet⟩ := Action.bind_eq_done.mp done
  cases got
  split at afterGet
  · obtain ⟨known, rfl⟩ := Action.ofResult_eq_done.mp afterGet
    exact .inl ⟨known, rfl⟩
  · next unplaced =>
    obtain ⟨tensor, _, stage, afterStage⟩ := Action.bind_eq_done.mp afterGet
    obtain ⟨staged, rfl⟩ := Action.ofResult_eq_done.mp stage
    obtain ⟨_, _, check, afterCheck⟩ := Action.bind_eq_done.mp afterStage
    obtain ⟨-, rfl⟩ := Action.ofResult_eq_done.mp check
    obtain ⟨natural, _, measure, afterMeasure⟩ := Action.bind_eq_done.mp afterCheck
    obtain ⟨measured, rfl⟩ := Action.ofExcept_eq_done.mp measure
    obtain ⟨⟨extent, replicated⟩, _, size, afterSize⟩ := Action.bind_eq_done.mp afterMeasure
    obtain ⟨sized, rfl⟩ := Action.ofResult_eq_done.mp size
    obtain ⟨x, middle, allocated, afterPlace⟩ := Action.bind_eq_done.mp afterSize
    obtain ⟨_, _, position, afterPosition⟩ := Action.bind_eq_done.mp afterPlace
    rw [checkPosition_eq_done position] at afterPosition
    obtain ⟨_, _, write, afterWrite⟩ := Action.bind_eq_done.mp afterPosition
    obtain ⟨blob, written, rfl⟩ := Action.zoom_eq_done.mp write
    obtain ⟨_, _, got, afterCount⟩ := Action.bind_eq_done.mp afterWrite
    cases got
    obtain ⟨tally, _, count, final⟩ := Action.bind_eq_done.mp afterCount
    obtain ⟨counted, rfl⟩ := Action.ofExcept_eq_done.mp count
    cases final
    obtain ⟨placed, named, rfl, users⟩ := allocate_eq_done formed allocated
    have sameBlob : middle.blob = p.blob := placed.rest .blob (by simp)
    have sameTally : middle.tally = p.tally := placed.rest .tally (by simp)
    rw [Blob.writing_eq_append, sameBlob] at written
    obtain ⟨bytes, encoded, rfl⟩ := Blob.append_eq_done.mp written
    exact .inr ⟨tensor, bytes, Bool.eq_false_iff.mpr unplaced, get_eq_ok_of_staging.mp staged,
      ⟨natural, replicated, measured, sized, encoded⟩, named, users,
      ⟨middle, tally, placed, sameTally ▸ counted, rfl⟩⟩

theorem lawful_of_get {r : Registry} (unknown : r.get name = .error cause) :
    cause.isLawful = true := by
  unfold Registry.get at unknown
  split at unknown <;> cases unknown
  rfl

theorem lawful_of_staging {staging : Staging} (unknown : staging.get name = .error cause) :
    cause.isLawful = true := by
  unfold Staging.get at unknown
  split at unknown <;> cases unknown
  rfl

theorem lawful_of_encodable {kind : ScalarKind}
    (refused : ensureEncodable name kind = .error cause) : cause.isLawful = true := by
  cases kind <;> cases refused
  rfl

theorem lawful_of_constantExtent {tensor : Tensor} {natural : Extent}
    (refused : constantExtent name tensor natural requested = .error cause) :
    cause.isLawful = true := by
  unfold constantExtent at refused
  split at refused
  · cases refused
  · split at refused
    · cases refused
    · split at refused <;> cases refused
      rfl

/-- A constant is refused before anything is done for it, by the placement, or since it lies
elsewhere than its bytes. -/
theorem constant_failed_cases (formed : p.memory.Formed)
    (failed : constant name requested p = .failed cause q) :
    (q = p ∧ cause.isLawful = true) ∨
      (∃ extent, allocate .dram1 name extent [constantSentinel] p = .failed cause q) ∨
      ∃ o, Placed p .dram1 o q ∧ o.name = name ∧ o.isPinned = true ∧
        checkPosition o q = .failed cause q := by
  rcases Action.bind_eq_failed.mp failed with got | ⟨_, _, got, afterGet⟩
  · cases got
  cases got
  split at afterGet
  · obtain ⟨unknown, rfl⟩ := Action.ofResult_eq_failed.mp afterGet
    exact .inl ⟨rfl, lawful_of_get unknown⟩
  rcases Action.bind_eq_failed.mp afterGet with stage | ⟨tensor, _, stage, afterStage⟩
  · obtain ⟨unknown, rfl⟩ := Action.ofResult_eq_failed.mp stage
    exact .inl ⟨rfl, lawful_of_staging unknown⟩
  obtain ⟨staged, rfl⟩ := Action.ofResult_eq_done.mp stage
  rcases Action.bind_eq_failed.mp afterStage with check | ⟨_, _, check, afterCheck⟩
  · obtain ⟨refused, rfl⟩ := Action.ofResult_eq_failed.mp check
    exact .inl ⟨rfl, lawful_of_encodable refused⟩
  obtain ⟨encodable, rfl⟩ := Action.ofResult_eq_done.mp check
  rcases Action.bind_eq_failed.mp afterCheck with measure | ⟨natural, _, measure, afterMeasure⟩
  · exact absurd measure Action.ofExcept_ne_failed
  obtain ⟨-, rfl⟩ := Action.ofExcept_eq_done.mp measure
  rcases Action.bind_eq_failed.mp afterMeasure with
    size | ⟨⟨extent, replicated⟩, _, size, afterSize⟩
  · obtain ⟨refused, rfl⟩ := Action.ofResult_eq_failed.mp size
    exact .inl ⟨rfl, lawful_of_constantExtent refused⟩
  obtain ⟨sized, rfl⟩ := Action.ofResult_eq_done.mp size
  rcases Action.bind_eq_failed.mp afterSize with refused | ⟨o, middle, allocated, afterPlace⟩
  · exact .inr (.inl ⟨extent, refused⟩)
  rcases Action.bind_eq_failed.mp afterPlace with misplaced | ⟨_, _, position, afterPosition⟩
  · obtain ⟨placed, named, -, users⟩ := allocate_eq_done formed allocated
    obtain ⟨rfl, -⟩ := checkPosition_eq_failed misplaced
    have pinned := isPinned_of_mem isSentinel_constant (by simp) users
    exact .inr (.inr ⟨o, placed, named, pinned, misplaced⟩)
  rw [checkPosition_eq_done position] at afterPosition
  rcases Action.bind_eq_failed.mp afterPosition with write | ⟨_, _, write, afterWrite⟩
  · obtain ⟨blob, refused, -⟩ := Action.zoom_eq_failed.mp write
    rw [Blob.writing_eq_append] at refused
    exact absurd (Blob.append_eq_failed.mp refused).1 (encodeConstant_ne_error encodable sized)
  rcases Action.bind_eq_failed.mp afterWrite with got | ⟨_, _, got, afterCount⟩
  · cases got
  rcases Action.bind_eq_failed.mp afterCount with count | ⟨_, _, _, final⟩
  · exact absurd count Action.ofExcept_ne_failed
  · cases final

/-- A constant that fails has changed nothing, unless its vectors belong to
another object or are not where its bytes go. -/
theorem constant_eq_failed (formed : p.memory.Formed)
    (failed : constant name requested p = .failed cause q) :
    (q = p ∧ cause.isLawful = true) ∨ ((∃ l, cause = .claimed l) ∧ Agree [.space .dram1] p q) ∨
      ∃ o, Placed p .dram1 o q ∧ o.isPinned = true ∧ checkPosition o q = .failed cause q := by
  rcases constant_failed_cases formed failed with
    unchanged | ⟨extent, refused⟩ | ⟨o, placed, -, pinned, misplaced⟩
  · exact .inl unchanged
  · rcases allocate_eq_failed refused with unchanged | claimed
    · exact .inl unchanged
    · exact .inr (.inl claimed)
  · exact .inr (.inr ⟨o, placed, pinned, misplaced⟩)

end Planner

end VectorMemory
