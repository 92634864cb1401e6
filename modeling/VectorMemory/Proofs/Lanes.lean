import VectorMemory.Proofs.Nearest
import VectorMemory.Proofs.Rows

/-! Where each scalar of a tensor is written. The writer counts columns along a flat list of
values and knows nothing of the outer axes; the vectors of a tensor are counted from its shape.
The two agree: row by row, every lane of these vectors holds a value or the zero that pads it. -/
namespace VectorMemory

namespace Word

/-- A product that is computed is a word, and so is that of all factors but the last. -/
theorem product_dropLast {factors : List Nat} {n : Nat} (ok : product factors = .ok n) :
    product factors.dropLast = .ok factors.dropLast.prod ∧ n < limit := by
  rcases List.eq_nil_or_concat factors with rfl | ⟨outer, last, rfl⟩
  · cases ok
    exact ⟨rfl, by decide⟩
  · rw [List.concat_eq_append] at ok ⊢
    unfold product at ok
    rw [List.foldlM_append] at ok
    obtain ⟨before, multiplied, ok⟩ := bind_eq_ok.mp ok
    obtain rfl : before = outer.prod := product_eq_ok multiplied
    obtain ⟨_, final, ok⟩ := bind_eq_ok.mp ok
    obtain ⟨bound, rfl⟩ := mul_eq_ok_iff.mp final
    cases ok
    rw [List.dropLast_concat]
    exact ⟨multiplied, bound⟩

end Word

/-- Pieces of one size stand at the multiples of this size. -/
theorem drop_flatMap {f : α → List β} {size : Nat} {l : List α}
    (even : ∀ a ∈ l, (f a).length = size) (k : Nat) :
    (l.flatMap f).drop (k * size) = (l.drop k).flatMap f := by
  induction k generalizing l with
  | zero => simp
  | succ k ih =>
    cases l with
    | nil => simp
    | cons a rest =>
      obtain ⟨first, others⟩ := List.forall_mem_cons.mp even
      rw [List.flatMap_cons, Nat.succ_mul, Nat.add_comm, ← List.drop_drop, ← first,
        List.drop_left, first, ih others, List.drop_succ_cons]

namespace Architecture

variable {arch : Architecture} {tensor : Tensor} {values : List Single}
  {rows rowLength padded i j : Nat}

/-! ### Sizes -/

theorem packed_le (positive : 0 < arch.lanes) (row : Nat) : arch.packed row ≤ row := by
  unfold packed
  rcases Nat.eq_zero_or_pos row with rfl | some
  · rw [Nat.div_eq_of_lt (by omega)]
  · rw [Nat.div_le_iff_le_mul_add_pred positive]
    have : row ≤ arch.lanes * row := Nat.le_mul_of_pos_left row positive
    omega

theorem natural_vectors_le (positive : 0 < arch.lanes) (shape : List Nat) :
    (arch.natural shape).vectors ≤ shape.prod := by
  rw [← prod_dropLast_mul shape]
  exact Nat.mul_le_mul_left _ (packed_le positive _)

theorem natural_lt_limit (positive : 0 < arch.lanes) (accepted : tensor.Accepted) :
    (arch.natural tensor.shape).scalars < Word.limit ∧
      (arch.natural tensor.shape).vectors < Word.limit := by
  have counted := (Tensor.ofScalars_eq_ok.mp accepted).1
  have scalars : tensor.shape.prod < Word.limit :=
    Word.product_eq_ok counted ▸ (Word.product_dropLast counted).2
  exact ⟨scalars, Nat.lt_of_le_of_lt (natural_vectors_le positive _) scalars⟩

/-- Counting the vectors of an accepted tensor never overflows: they are no more than its
scalars, and the product of its outer axes has been computed before. -/
theorem extentOf_of_accepted (positive : 0 < arch.lanes) (accepted : tensor.Accepted) :
    arch.extentOf tensor.shape = .ok (arch.natural tensor.shape) := by
  have counted := (Tensor.ofScalars_eq_ok.mp accepted).1
  have vectors := (natural_lt_limit positive accepted).2
  have measured : ∃ extent, arch.extentOf tensor.shape = .ok extent := by
    unfold extentOf
    rw [counted]
    cases last : tensor.shape.getLast? with
    | none => exact ⟨_, rfl⟩
    | some row =>
      rw [natural, last, Option.getD_some, packed] at vectors
      simp only [(Word.product_dropLast counted).1, Word.divCeil, Nat.ne_of_gt positive, if_false,
        bind, Except.bind, Word.mul_eq_ok vectors]
      exact ⟨_, rfl⟩
  obtain ⟨extent, measured⟩ := measured
  rw [measured, extentOf_eq_ok positive measured]

theorem natural_vectors_mul (arch : Architecture) (tensor : Tensor) :
    (arch.natural tensor.shape).vectors * arch.lanes =
      tensor.shape.dropLast.prod * arch.width tensor.rowLength :=
  Nat.mul_assoc ..

theorem paddedRow_of_positive (positive : 0 < arch.lanes) (row : Nat) :
    arch.paddedRow row =
      if arch.width row < Word.limit then .ok (arch.width row) else .error .mulOverflow := by
  unfold paddedRow Word.divCeil
  rw [if_neg (Nat.ne_of_gt positive)]
  rfl

theorem paddedRow_eq_width (positive : 0 < arch.lanes)
    (measured : arch.paddedRow rowLength = .ok padded) : padded = arch.width rowLength := by
  rw [paddedRow_of_positive positive] at measured
  split at measured <;> cases measured
  rfl

/-! ### Lanes -/

def lane (arch : Architecture) (bytes : Bytes) (k : Nat) : Bytes :=
  (bytes.drop (k * arch.format.byteSize)).take arch.format.byteSize

theorem lane_encodeAll {k : Nat} {x : Single} (held : values[k]? = some x) :
    arch.lane (arch.encodeAll values) k = arch.format.encode x := by
  obtain ⟨bound, rfl⟩ := List.getElem?_eq_some_iff.mp held
  rw [lane, encodeAll, drop_flatMap fun x _ => arch.format.length_encode x,
    List.drop_eq_getElem_cons bound, List.flatMap_cons, ← arch.format.length_encode values[k],
    List.take_left]

section Rows

variable (length : values.length = rows * rowLength) (row : i < rows)

include length row

theorem getElem?_laneValues (positive : 0 < arch.lanes) (within : j < arch.width rowLength) :
    (arch.laneValues rows rowLength values)[i * arch.width rowLength + j]? =
      (arch.paddedValues rowLength values i)[j]? := by
  have even : ∀ a ∈ List.range rows,
      (arch.paddedValues rowLength values a).length = arch.width rowLength := fun a member =>
    length_paddedValues positive length (List.mem_range.mp member)
  rw [laneValues, ← List.getElem?_drop, drop_flatMap even,
    List.drop_eq_getElem_cons (by rwa [List.length_range]), List.getElem_range, List.flatMap_cons,
    List.getElem?_append_left (by rwa [even i (List.mem_range.mpr row)])]

theorem getElem?_value (inside : j < rowLength) :
    (arch.paddedValues rowLength values i)[j]? = values[i * rowLength + j]? := by
  rw [paddedValues, List.getElem?_append_left (by rwa [length_row length row]),
    List.getElem?_take_of_lt inside, List.getElem?_drop]

theorem getElem?_padding (behind : rowLength ≤ j) (within : j < arch.width rowLength) :
    (arch.paddedValues rowLength values i)[j]? = some .zero := by
  rw [paddedValues, List.getElem?_append_right (by rwa [length_row length row]),
    length_row length row, List.getElem?_replicate, if_pos]
  exact Nat.sub_lt_sub_right behind within

end Rows

theorem encodeTensor_eq_rows {name : String} (accepted : tensor.Accepted)
    (singles : tensor.scalars.singles? = some values)
    (measured : arch.paddedRow tensor.rowLength = .ok padded) :
    arch.encodeTensor name tensor = .ok (.ok (arch.encodeAll
      (arch.laneValues tensor.shape.dropLast.prod tensor.rowLength values))) := by
  have length := (length_singles singles).trans accepted.size_eq
  rw [encodeTensor, singles, ← layout_eq_encodeAll, ← encodeRows_eq_layout length,
    ← paddedRow_eq_ok measured]
  simp only [measured]
  rfl

end Architecture

theorem singles_of_kind {tensor : Tensor} (encodable : tensor.kind ≠ .int64) :
    ∃ values, tensor.scalars.singles? = some values := by
  cases scalars : tensor.scalars with
  | int32 values | float32 values => exact ⟨_, rfl⟩
  | int64 values => exact absurd (by rw [Tensor.kind, scalars]; rfl) encodable

/-- The `k`-th scalar as a single: the pattern that it is, or the one nearest to an integer. -/
def Scalars.Reads (scalars : Scalars) (k : Nat) (x : Single) : Prop :=
  match scalars with
  | .int32 values => ∃ v, values[k]? = some v ∧ x.Nearest v.toInt
  | .int64 _ => False
  | .float32 values => values[k]? = some x

theorem Scalars.reads_of_singles {scalars : Scalars} {values : List Single} {k : Nat} {x : Single}
    (singles : scalars.singles? = some values) (held : values[k]? = some x) : scalars.Reads k x := by
  cases scalars with
  | int32 integers =>
    cases singles
    rw [List.getElem?_map, Option.map_eq_some_iff] at held
    obtain ⟨v, held, rfl⟩ := held
    exact ⟨v, held, Single.nearest_of_int32 v⟩
  | int64 integers => cases singles
  | float32 patterns =>
    cases singles
    exact held

namespace Blob

variable {b : Blob} {tensor : Tensor} {padded : Nat}

/-- A tensor is appended row by row: as many encoded scalars as its vectors have lanes. Lane
`j` of row `i` holds the value of column `j` of this row, and zero behind the last column. -/
theorem rows_padded (positive : 0 < b.arch.lanes) (accepted : tensor.Accepted)
    (encodable : tensor.kind ≠ .int64) (measured : b.arch.paddedRow tensor.rowLength = .ok padded)
    (name : String) :
    ∃ extent written, b.arch.extentOf tensor.shape = .ok extent ∧
      write name tensor b = .done () { b with bytes := b.bytes ++ b.arch.encodeAll written } ∧
      written.length = extent.vectors * b.arch.lanes ∧
      extent.vectors * b.arch.lanes = tensor.shape.dropLast.prod * padded ∧
      ∀ i < tensor.shape.dropLast.prod,
        (∀ j < tensor.rowLength, ∃ x, tensor.scalars.Reads (i * tensor.rowLength + j) x ∧
          b.arch.lane (b.arch.encodeAll written) (i * padded + j) = b.arch.format.encode x) ∧
        ∀ j, tensor.rowLength ≤ j → j < padded →
          b.arch.lane (b.arch.encodeAll written) (i * padded + j) =
            b.arch.format.encode .zero := by
  obtain rfl := Architecture.paddedRow_eq_width positive measured
  obtain ⟨values, singles⟩ := singles_of_kind encodable
  have length := (length_singles singles).trans accepted.size_eq
  have vectors := b.arch.natural_vectors_mul tensor
  refine ⟨_, _, Architecture.extentOf_of_accepted positive accepted,
    append_eq_done.mpr ⟨_, Architecture.encodeTensor_eq_rows accepted singles measured, rfl⟩,
    (Architecture.length_laneValues positive length).trans vectors.symm, vectors,
    fun i row => ⟨fun j inside => ?_, fun j behind within => ?_⟩⟩
  · have within : j < b.arch.width tensor.rowLength :=
      Nat.lt_of_lt_of_le inside (Architecture.le_width positive _)
    have later : (i + 1) * tensor.rowLength ≤ values.length :=
      length ▸ Nat.mul_le_mul_right _ row
    rw [Nat.succ_mul] at later
    have held : values[i * tensor.rowLength + j]? = some _ :=
      List.getElem?_eq_getElem (by omega)
    refine ⟨_, Scalars.reads_of_singles singles held, Architecture.lane_encodeAll ?_⟩
    rw [Architecture.getElem?_laneValues length row positive within,
      Architecture.getElem?_value length row inside, held]
  · apply Architecture.lane_encodeAll
    rw [Architecture.getElem?_laneValues length row positive within,
      Architecture.getElem?_padding length row behind within]

/-- Two rows of three values behind a byte that was there, and two rows of one integer. The second
integer lies in the middle between two singles. -/
theorem rows_padded_matrix :
    let arch : Architecture := ⟨.float32, 4, 0, 0, 0⟩
    let narrow : Architecture := ⟨.float32, 2, 0, 0, 0⟩
    (∃ written, write "t" ⟨[2, 3], .float32 [⟨1⟩, ⟨2⟩, ⟨3⟩, ⟨4⟩, ⟨5⟩, ⟨6⟩]⟩ ⟨arch, [7]⟩ =
        .done () ⟨arch, 7 :: arch.encodeAll written⟩ ∧
      written.length = 8 ∧ arch.lane (arch.encodeAll written) 3 = [0, 0, 0, 0] ∧
      arch.lane (arch.encodeAll written) 4 = [4, 0, 0, 0]) ∧
    write "n" ⟨[2, 1], .int32 [5, -16777219]⟩ ⟨narrow, []⟩ =
        .done () ⟨narrow, [0, 0, 160, 64, 0, 0, 0, 0, 2, 0, 128, 203, 0, 0, 0, 0]⟩ ∧
      ∃ x : Single, x.Nearest (-16777219) ∧ NativeFormat.float32.encode x = [2, 0, 128, 203] := by
  constructor
  · obtain ⟨extent, written, measured, wrote, length, -, lanes⟩ :=
      @rows_padded ⟨⟨.float32, 4, 0, 0, 0⟩, [7]⟩
        ⟨[2, 3], .float32 [⟨1⟩, ⟨2⟩, ⟨3⟩, ⟨4⟩, ⟨5⟩, ⟨6⟩]⟩ 4
        (by decide) (by decide) (by decide) (by rfl) "t"
    cases measured
    obtain ⟨x, held, fourth⟩ := (lanes 1 (by decide)).1 0 (by decide)
    cases held
    refine ⟨written, wrote, length, ?_, ?_⟩
    · exact ((lanes 0 (by decide)).2 3 (by decide) (by decide)).trans (by decide +kernel)
    · exact fourth.trans (by decide +kernel)
  · have bytes : write "n" ⟨[2, 1], .int32 [5, -16777219]⟩ ⟨⟨.float32, 2, 0, 0, 0⟩, []⟩ =
        .done () ⟨⟨.float32, 2, 0, 0, 0⟩, [0, 0, 160, 64, 0, 0, 0, 0, 2, 0, 128, 203, 0, 0, 0, 0]⟩ := by
      decide +kernel
    obtain ⟨extent, written, -, wrote, -, -, lanes⟩ := @rows_padded ⟨⟨.float32, 2, 0, 0, 0⟩, []⟩
      ⟨[2, 1], .int32 [5, -16777219]⟩ 2 (by decide) (by decide) (by decide) (by rfl) "n"
    have same : Architecture.encodeAll ⟨.float32, 2, 0, 0, 0⟩ written = _ :=
      congrArg Blob.bytes (Outcome.done.inj (wrote.symm.trans bytes)).2
    obtain ⟨x, ⟨v, held, nearest⟩, lane⟩ := (lanes 1 (by decide)).1 0 (by decide)
    cases held
    refine ⟨bytes, x, nearest, lane.symm.trans ?_⟩
    exact (congrArg (Architecture.lane ⟨.float32, 2, 0, 0, 0⟩ · 2) same).trans rfl

end Blob

end VectorMemory
