import Mathlib.Algebra.BigOperators.Ring.List
import VectorMemory.Proofs.Constants
import VectorMemory.Proofs.Lanes
import VectorMemory.Proofs.Requests

/-! Placing a constant in a new plan. If the memory for constants can be counted in bytes, every
product that is computed on the way is a word: the vectors of the tensor, the position of its
bytes, and the length of its padded rows, which fit into that memory. Only if there are no rows
does nothing bound their length, and it is computed all the same. -/
namespace VectorMemory

namespace Action

theorem zoom_eq_fault {part : σ → τ} {put : τ → σ → σ} {action : Action τ α} {s : σ}
    {cause : Fault} :
    zoom part put action s = .fault cause ↔ action (part s) = .fault cause := by
  unfold zoom
  cases action (part s) <;> simp

theorem ofExcept_eq_fault {result : Except Fault α} {s : σ} {cause : Fault} :
    ofExcept result s = .fault cause ↔ result = .error cause := by
  cases result <;> simp

@[simp] theorem ofResult_ne_fault {result : Except MemoryError α} {s : σ} {cause : Fault} :
    ofResult result s ≠ .fault cause := by
  cases result <;> simp

end Action

theorem Blob.append_eq_fault {encoded : Except Fault (Except MemoryError Bytes)} {b : Blob}
    {cause : Fault} : append encoded b = .fault cause ↔ encoded = .error cause := by
  simp [append, Action.bind_eq_fault, Action.ofExcept_eq_fault]

theorem Tally.record_zero {extent : Extent} (scalars : extent.scalars < Word.limit)
    (vectors : extent.vectors < Word.limit) : ∃ t, zero.record extent = .ok t := by
  unfold record
  split
  · exact ⟨_, rfl⟩
  · rw [Word.add_eq_ok (by decide), Word.add_eq_ok (by simpa [zero] using scalars),
      Word.add_eq_ok (by simpa [zero] using vectors)]
    exact ⟨_, rfl⟩

theorem NativeFormat.byteSize_pos (format : NativeFormat) : 0 < format.byteSize := by
  cases format <;> decide

namespace Architecture

variable {arch : Architecture} {tensor : Tensor}

theorem width_le {depth : Nat} (some : 0 < tensor.shape.dropLast.prod)
    (fits : (arch.natural tensor.shape).vectors ≤ depth) :
    arch.width tensor.rowLength ≤ depth * arch.lanes :=
  calc arch.width tensor.rowLength
    _ ≤ tensor.shape.dropLast.prod * arch.width tensor.rowLength := Nat.le_mul_of_pos_left _ some
    _ = (arch.natural tensor.shape).vectors * arch.lanes := (natural_vectors_mul arch tensor).symm
    _ ≤ depth * arch.lanes := Nat.mul_le_mul_right _ fits

theorem encodeTensor_eq_fault (positive : 0 < arch.lanes) (encodable : tensor.kind ≠ .int64)
    {name : String} {cause : Fault} :
    arch.encodeTensor name tensor = .error cause ↔
      cause = .mulOverflow ∧ Word.limit ≤ arch.width tensor.rowLength := by
  obtain ⟨values, singles⟩ := singles_of_kind encodable
  rw [encodeTensor, singles]
  simp only [paddedRow_of_positive positive]
  split
  · next word => simp [bind, Except.bind, pure, Except.pure, word]
  · next beyond => simp [bind, Except.bind, Nat.le_of_not_lt beyond, eq_comm]

end Architecture

namespace Planner

variable {p q : Planner} {name : String} {requested : Option Extent} {tensor : Tensor}
  {natural extent : Extent} {replicated : Bool} {o : Object} {cause : Fault}
  {arch : Architecture} {blocks : List Block}

theorem constant_of_staged (unplaced : p.registry.has name = false)
    (staged : p.staging.find? name = some tensor) :
    constant name requested p = emplace p.arch name requested tensor p := by
  unfold constant
  rw [Action.bind_apply, Action.get_apply]
  simp only [unplaced, Bool.false_eq_true, if_false]
  rw [Action.bind_apply, get_eq_ok_of_staging.mpr staged, Action.ofResult_ok]

theorem emplace_of_sized (encodable : tensor.kind ≠ .int64)
    (measured : arch.extentOf tensor.shape = .ok natural)
    (sized : constantExtent name tensor natural requested = .ok (extent, replicated)) :
    emplace arch name requested tensor p =
      (allocate .dram1 name extent [constantSentinel] >>= furnish name tensor extent replicated) p := by
  have writable : ensureEncodable name tensor.kind = .ok () := by
    cases kind : tensor.kind <;> simp_all [ensureEncodable]
  unfold emplace
  rw [Action.bind_apply, writable, Action.ofResult_ok]
  simp only
  rw [Action.bind_apply, measured, Action.ofExcept_ok]
  simp only
  rw [Action.bind_apply, sized, Action.ofResult_ok]

theorem emplace_of_unencodable (kind : tensor.kind = .int64) :
    emplace arch name requested tensor p = .failed (.unsupportedEncoding name .int64) p := by
  rw [emplace, Action.bind_apply, kind]
  rfl

theorem furnish_eq_fault {tally : Tally} (position : checkPosition o p = .done () p)
    (counted : p.tally.record extent = .ok tally) :
    furnish name tensor extent replicated o p = .fault cause ↔
      p.blob.arch.encodeConstant name tensor extent.vectors replicated = .error cause := by
  unfold furnish
  rw [Action.bind_apply, position]
  simp only
  rw [Action.bind_eq_fault, Action.zoom_eq_fault, Blob.writing_eq_append, Blob.append_eq_fault]
  refine or_iff_left ?_
  rintro ⟨_, middle, written, stopped⟩
  obtain ⟨blob, -, rfl⟩ := Action.zoom_eq_done.mp written
  rw [Action.bind_apply, Action.get_apply] at stopped
  simp only [Action.bind_apply, counted, Action.ofExcept_ok] at stopped
  cases stopped

/-- The check of the position computes with words, if the bytes written so far are a word. -/
theorem Mirrors.checkPosition_done (mirrors : Mirrors arch p blocks) (placed : Placed p .dram1 o q)
    (vector : arch.vectorSize < Word.limit)
    (bytes : (p.space .dram1).usage.used * arch.vectorSize < Word.limit) :
    checkPosition o q = .done () q := by
  cases checked : checkPosition o q with
  | done _ r => rw [checkPosition_eq_done checked]
  | failed cause r =>
    obtain ⟨rfl, -⟩ := checkPosition_eq_failed checked
    exact absurd checked (mirrors.not_misplaced placed)
  | fault cause =>
    obtain ⟨t, granted, -⟩ := placed.granted
    obtain ⟨span, -, -⟩ := mirrors.stacked.allocate granted
    have architecture : q.arch = arch := (placed.rest .arch (by simp)).trans mirrors.format.1
    have size : q.arch.vectorBytes = .ok arch.vectorSize := by
      rw [architecture]
      exact Word.mul_eq_ok vector
    unfold checkPosition at checked
    cases begins : o.span.first? with
    | none =>
      rw [begins] at checked
      cases checked
    | some first =>
      rw [span] at begins
      obtain ⟨rfl, -⟩ := Span.first?_ofRuns begins
      rw [span, begins] at checked
      simp only [Action.bind_apply, Action.get_apply, size, Action.ofExcept_ok,
        Word.mul_eq_ok bytes] at checked
      split at checked <;> cases checked

theorem stage_of_new (unstaged : p.staging.has name = false) :
    stage name tensor p = .done () { p with staging := p.staging.put name tensor } := by
  rw [stage, Action.bind_apply, Action.get_apply]
  simp only [Staging.add, unstaged, Bool.false_eq_true, if_false, Action.bind_apply,
    Action.ofResult_ok, Action.modify_apply]

/-- A new plan in which one tensor has been staged. -/
structure Prepared (config : Config) (name : String) (tensor : Tensor) (p : Planner) : Prop where
  tidy : p.Tidy
  mirrors : Mirrors config.arch p []
  unplaced : p.registry.has name = false
  staged : p.staging.find? name = some tensor
  space : p.space .dram1 = .heap .dram1 config.arch.dram1Depth
  slots : p.registry.nextId = 0
  tally : p.tally = .zero

theorem prepared_of_start {config : Config} {recorder : Recorder}
    (started : start config recorder = .ok p) (accepted : tensor.Accepted) (name : String) :
    ∃ q, stage name tensor p = .done () q ∧ Prepared config name tensor q := by
  have empty : p.staging = .empty ∧ p.registry = .empty ∧ p.tally = .zero ∧
      p.space .dram1 = .heap .dram1 config.arch.dram1Depth := by
    obtain ⟨_, -, made⟩ := bind_eq_ok.mp started
    cases made
    exact ⟨rfl, rfl, rfl, rfl⟩
  obtain ⟨staging, registry, tally, space⟩ := empty
  have tidy := tidy_start started
  have unstaged : p.staging.has name = false := by rw [staging]; rfl
  have done := @stage_of_new _ _ tensor unstaged
  have left : (perform (.stage name tensor) p).state? = some _ :=
    Outcome.state?_eq_some.mpr (.inl ⟨_, replying_eq_done.mpr ⟨_, done, rfl⟩⟩)
  refine ⟨_, done, tidy.perform ?_ left, ?_, ?_, ?_, space, ?_, tally⟩
  · simp [Disciplined, blended, Cites, shown]
  · exact (mirrors_start started).frame tidy.sound (by simp [Fits, staged?, accepted]) left
      (by simp [touches])
  · exact congrArg (Registry.has · name) registry
  · simp [Staging.find?, Staging.put]
  · exact congrArg Registry.nextId registry

namespace Prepared

variable {config : Config}

theorem constant_cases (prepared : Prepared config name tensor p) (accepted : tensor.Accepted)
    (encodable : tensor.kind ≠ .int64)
    (depth : config.arch.dram1Depth * config.arch.lanes < Word.limit) :
    (config.arch.dram1Depth < (config.arch.natural tensor.shape).vectors ∧
      ∃ cause, constant name none p = .failed cause p) ∨
    ((config.arch.natural tensor.shape).vectors ≤ config.arch.dram1Depth ∧
      ∃ o q, Placed p .dram1 o q ∧
        constant name none p = furnish name tensor (config.arch.natural tensor.shape) false o q) := by
  have positive := prepared.mirrors.lanes
  have measured : p.arch.extentOf tensor.shape = .ok (config.arch.natural tensor.shape) := by
    rw [prepared.mirrors.format.1]
    exact Architecture.extentOf_of_accepted positive accepted
  have capacity : (p.space .dram1).capacity < Word.limit := by
    rw [prepared.space]
    exact Nat.lt_of_le_of_lt (Nat.le_mul_of_pos_right _ positive) depth
  have aggregate : (p.space .dram1).usage.aggregate + (config.arch.natural tensor.shape).vectors <
      Word.limit := by
    rw [prepared.space]
    simpa [Space.heap, Usage.initial] using (Architecture.natural_lt_limit positive accepted).2
  have available : (p.space .dram1).available = config.arch.dram1Depth := by
    rw [prepared.space]
    rfl
  rw [constant_of_staged prepared.unplaced prepared.staged, emplace_of_sized encodable measured rfl,
    ← available, Action.bind_apply]
  rcases prepared.tidy.allocate_cases name [constantSentinel] capacity aggregate
      (by rw [prepared.slots]; decide) with
    ⟨registered, -⟩ | ⟨full, failed⟩ | ⟨⟨-, fits⟩, o, q, done⟩
  · rw [prepared.unplaced] at registered
    cases registered
  · rw [failed]
    exact .inl ⟨full, _, rfl⟩
  · rw [done]
    exact .inr ⟨fits, o, q, (allocate_eq_done prepared.tidy.sound.formed done).1, rfl⟩

theorem furnish_eq_fault (prepared : Prepared config name tensor p) (accepted : tensor.Accepted)
    (encodable : tensor.kind ≠ .int64) (vector : config.arch.vectorSize < Word.limit)
    (placed : Placed p .dram1 o q) :
    furnish name tensor (config.arch.natural tensor.shape) false o q = .fault cause ↔
      cause = .mulOverflow ∧ Word.limit ≤ config.arch.width tensor.rowLength := by
  have positive := prepared.mirrors.lanes
  have blob : q.blob = p.blob := placed.rest .blob (by simp)
  have tally : q.tally = .zero := (placed.rest .tally (by simp)).trans prepared.tally
  have bytes : (p.space .dram1).usage.used * config.arch.vectorSize < Word.limit := by
    rw [prepared.space]
    simp [Space.heap, Usage.initial, Word.limit]
  have bounds := Architecture.natural_lt_limit positive accepted
  obtain ⟨t, counted⟩ := Tally.record_zero bounds.1 bounds.2
  rw [Planner.furnish_eq_fault (prepared.mirrors.checkPosition_done placed vector bytes)
    (tally ▸ counted), blob, prepared.mirrors.format.2]
  exact Architecture.encodeTensor_eq_fault positive encodable

/-- Only the length of padded rows can overflow, and only if there are none. -/
theorem constant_eq_fault (prepared : Prepared config name tensor p) (accepted : tensor.Accepted)
    (vector : config.arch.vectorSize < Word.limit)
    (memory : config.arch.dram1Depth * config.arch.vectorSize < Word.limit) :
    constant name none p = .fault cause ↔
      cause = .mulOverflow ∧ tensor.kind ≠ .int64 ∧ 0 ∈ tensor.shape.dropLast ∧
        Word.limit ≤ config.arch.width tensor.rowLength := by
  have depth : config.arch.dram1Depth * config.arch.lanes < Word.limit := by
    refine Nat.lt_of_le_of_lt (Nat.mul_le_mul_left _ ?_) memory
    exact Nat.le_mul_of_pos_right _ (NativeFormat.byteSize_pos _)
  by_cases kind : tensor.kind = .int64
  · rw [constant_of_staged prepared.unplaced prepared.staged, emplace_of_unencodable kind]
    simp [kind]
  rcases prepared.constant_cases accepted kind depth with
    ⟨full, cause, failed⟩ | ⟨fits, o, q, placed, same⟩
  · rw [failed]
    simp only [reduceCtorEq, false_iff]
    rintro ⟨-, -, none, -⟩
    -- a tensor without rows needs no vectors
    rw [Architecture.natural, List.prod_eq_zero none, Nat.zero_mul] at full
    exact Nat.not_lt_zero _ full
  · rw [same, prepared.furnish_eq_fault accepted kind vector placed]
    refine and_congr_right fun _ => ⟨fun beyond => ⟨kind, ?_, beyond⟩, fun fault => fault.2.2⟩
    by_contra rows
    have some := Nat.pos_of_ne_zero (List.prod_eq_zero_iff.not.mpr rows)
    have bound := Architecture.width_le some fits
    omega

end Prepared

/-- In a new plan, with a memory for constants whose bytes are counted in words, placing an
accepted tensor overflows exactly if it has a kind with an encoding, an outer axis of length
zero, and a last axis whose length is no word after padding. -/
theorem constant_overflows_iff {config : Config} {recorder : Recorder}
    (started : start config recorder = .ok p)
    (vector : config.arch.lanes * config.arch.format.byteSize < Word.limit)
    (memory : config.arch.dram1Depth * (config.arch.lanes * config.arch.format.byteSize) < Word.limit)
    (accepted : tensor.Accepted) (name : String) :
    ∃ q, stage name tensor p = .done () q ∧ ∀ cause, constant name none q = .fault cause ↔
      cause = .mulOverflow ∧ tensor.kind ≠ .int64 ∧ 0 ∈ tensor.shape.dropLast ∧
        Word.limit ≤ (tensor.rowLength + config.arch.lanes - 1) / config.arch.lanes *
          config.arch.lanes := by
  obtain ⟨q, staged, prepared⟩ := prepared_of_start started accepted name
  exact ⟨q, staged, fun cause => prepared.constant_eq_fault accepted vector memory⟩

/-- No rows of the greatest length overflow; as many rows without a scalar do not. -/
theorem constant_overflows_iff_rowless :
    ∃ p q r, start ⟨⟨.float32, 8, 0, 4, 0⟩, []⟩ .silent = .ok p ∧
      stage "e" ⟨[0, Word.max], .float32 []⟩ p = .done () q ∧
      constant "e" none q = .fault .mulOverflow ∧
      stage "e" ⟨[Word.max, 0], .float32 []⟩ p = .done () r ∧
      ∀ cause, constant "e" none r ≠ .fault cause := by
  obtain ⟨p, started⟩ : ∃ p, start ⟨⟨.float32, 8, 0, 4, 0⟩, []⟩ .silent = .ok p := ⟨_, rfl⟩
  obtain ⟨q, staged, faults⟩ := @constant_overflows_iff _ ⟨[0, Word.max], .float32 []⟩ _ _ started
    (by decide) (by decide) (by decide) "e"
  obtain ⟨r, staged', faults'⟩ := @constant_overflows_iff _ ⟨[Word.max, 0], .float32 []⟩ _ _ started
    (by decide) (by decide) (by decide) "e"
  refine ⟨p, q, r, started, staged, (faults _).mpr ⟨rfl, by decide, by decide, by decide⟩, staged',
    fun cause stopped => ?_⟩
  exact absurd ((faults' cause).mp stopped).2.2.1 (by decide)

/-- A tensor without rows, whose last axis is the greatest word. -/
theorem constant_of_no_rows_overflows :
    ¬∀ (config : Config) (recorder : Recorder) (p q : Planner) (tensor : Tensor) (name : String)
        (cause : Fault),
      start config recorder = .ok p →
        config.arch.lanes * config.arch.format.byteSize < Word.limit →
        config.arch.dram1Depth * (config.arch.lanes * config.arch.format.byteSize) < Word.limit →
        (∀ n ∈ tensor.shape, n < Word.limit) → tensor.Accepted →
        stage name tensor p = .done () q → constant name none q ≠ .fault cause := by
  intro safe
  have computed : ((start ⟨⟨.float32, 8, 0, 4, 0⟩, []⟩ .silent).toOption.bind fun p =>
      (stage "e" ⟨[0, Word.max], .float32 []⟩ p).result?.map fun result =>
        (constant "e" none result.2).state?.isNone) = some true := by decide +kernel
  obtain ⟨p, begun, left⟩ := Option.bind_eq_some_iff.mp computed
  obtain ⟨⟨u, q⟩, staged, stopped⟩ := Option.map_eq_some_iff.mp left
  have here := fun cause => safe _ _ p q ⟨[0, Word.max], .float32 []⟩ "e" cause
    (toOption_eq_some.mp begun) (by decide) (by decide) (by decide) (by decide)
    (Outcome.result?_eq_some.mp staged)
  cases ended : constant "e" none q with
  | done | failed => simp [ended, Outcome.state?] at stopped
  | fault cause => exact here cause ended

end Planner

end VectorMemory
