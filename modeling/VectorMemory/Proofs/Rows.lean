import Mathlib.Algebra.BigOperators.Group.List.Basic
import Mathlib.Tactic.Ring
import VectorMemory.Proofs.Commands

/-! The bytes of a constant. A tensor in its natural layout is a sequence of
rows, each padded to whole vectors; a single scalar can fill vectors instead. -/
namespace VectorMemory

theorem Word.product_eq_ok {factors : List Nat} {n : Nat} (ok : Word.product factors = .ok n) :
    n = factors.prod := by
  have fold : ∀ start, factors.foldlM Word.mul start = .ok n → n = start * factors.prod := by
    clear ok
    induction factors with
    | nil =>
      intro start ok
      cases ok
      simp
    | cons factor rest ih =>
      intro start ok
      rw [List.foldlM_cons] at ok
      obtain ⟨_, multiplied, ok⟩ := bind_eq_ok.mp ok
      obtain ⟨-, rfl⟩ := Word.mul_eq_ok_iff.mp multiplied
      rw [ih _ ok, List.prod_cons, Nat.mul_assoc]
  simpa using fold 1 ok

/-- Its shape holds exactly its scalars. -/
def Tensor.Accepted (t : Tensor) : Prop :=
  ofScalars t.shape t.scalars = .ok (.ok t)

instance (t : Tensor) : Decidable t.Accepted :=
  inferInstanceAs (Decidable (Tensor.ofScalars t.shape t.scalars = .ok (.ok t)))

theorem Tensor.ofScalars_eq_ok {shape : List Nat} {scalars : Scalars} {t : Tensor} :
    ofScalars shape scalars = .ok (.ok t) ↔
      Word.product shape = .ok scalars.size ∧ ⟨shape, scalars⟩ = t := by
  unfold ofScalars
  rw [bind_eq_ok]
  constructor
  · intro ⟨expected, product, ok⟩
    split at ok
    · next same =>
      cases ok
      exact ⟨same ▸ product, rfl⟩
    · cases ok
  · intro ⟨product, same⟩
    exact ⟨_, product, by simp [same, pure, Except.pure]⟩

theorem Tensor.accepted_of_ofScalars {shape : List Nat} {scalars : Scalars} {t : Tensor}
    (ok : ofScalars shape scalars = .ok (.ok t)) : t.Accepted := by
  obtain ⟨-, rfl⟩ := ofScalars_eq_ok.mp ok
  exact ok

theorem prod_dropLast_mul (shape : List Nat) :
    shape.dropLast.prod * shape.getLast?.getD 1 = shape.prod := by
  rcases List.eq_nil_or_concat shape with rfl | ⟨outer, row, rfl⟩ <;> simp

theorem Tensor.Accepted.size_eq {t : Tensor} (accepted : t.Accepted) :
    t.size = t.shape.dropLast.prod * t.rowLength := by
  rw [rowLength, prod_dropLast_mul]
  exact Word.product_eq_ok (ofScalars_eq_ok.mp accepted).1

namespace NativeFormat

@[simp] theorem length_encode (format : NativeFormat) (x : Single) :
    (format.encode x).length = format.byteSize := by
  simp [encode, Bytes.littleEndian]

end NativeFormat

theorem length_singles {scalars : Scalars} {values : List Single}
    (singles : scalars.singles? = some values) : values.length = scalars.size := by
  cases scalars <;> cases singles <;> simp [Scalars.size]

namespace Architecture

variable {arch : Architecture}

def vectorSize (arch : Architecture) : Nat :=
  arch.lanes * arch.format.byteSize

def packed (arch : Architecture) (row : Nat) : Nat :=
  (row + arch.lanes - 1) / arch.lanes

def width (arch : Architecture) (row : Nat) : Nat :=
  arch.packed row * arch.lanes

/-- Zeros that pad a row to whole vectors. -/
def padding (arch : Architecture) (row : Nat) : Nat :=
  arch.width row - row

/-- The scalars of a shape, and the vectors of its padded rows. -/
def natural (arch : Architecture) (shape : List Nat) : Extent :=
  ⟨shape.prod, shape.dropLast.prod * arch.packed (shape.getLast?.getD 1)⟩

def paddedValues (arch : Architecture) (rowLength : Nat) (values : List Single) (i : Nat) :
    List Single :=
  (values.drop (i * rowLength)).take rowLength ++ List.replicate (arch.padding rowLength) .zero

def laneValues (arch : Architecture) (rows rowLength : Nat) (values : List Single) : List Single :=
  (List.range rows).flatMap (arch.paddedValues rowLength values)

def layout (arch : Architecture) (rows rowLength : Nat) (values : List Single) : Bytes :=
  (List.range rows).flatMap fun i => arch.encodeAll (arch.paddedValues rowLength values i)

/-- The bytes of a tensor that is placed in an extent: its natural layout in its
natural extent, and in any other its scalar over and over. -/
def constantBytes (arch : Architecture) (tensor : Tensor) (extent : Extent) : Bytes :=
  let values := tensor.scalars.singles?.getD []
  if extent = arch.natural tensor.shape then
    arch.layout tensor.shape.dropLast.prod tensor.rowLength values
  else
    (List.replicate (extent.vectors * arch.lanes) (arch.encodeAll values)).flatten

@[simp] theorem encodeAll_nil : arch.encodeAll [] = [] := rfl

@[simp] theorem encodeAll_append (first rest : List Single) :
    arch.encodeAll (first ++ rest) = arch.encodeAll first ++ arch.encodeAll rest :=
  List.flatMap_append

theorem length_encodeAll (values : List Single) :
    (arch.encodeAll values).length = values.length * arch.format.byteSize := by
  simp [encodeAll, List.length_flatMap, List.sum_replicate]

/-! ### Rows -/

theorem encodeRows_row {rowLength padding column : Nat} {row rest : List Single}
    (whole : column + row.length = rowLength) (some : row ≠ []) :
    arch.encodeRows rowLength padding column (row ++ rest) =
      arch.encodeAll (row ++ List.replicate padding .zero) ++
        arch.encodeRows rowLength padding 0 rest := by
  induction row generalizing column with
  | nil => exact absurd rfl some
  | cons value others ih =>
    rw [List.length_cons] at whole
    rw [List.cons_append, encodeRows]
    cases others with
    | nil =>
      rw [if_pos (by simpa using whole)]
      simp [encodeAll]
    | cons next others =>
      rw [List.length_cons] at whole
      rw [if_neg (by omega), ih (by rw [List.length_cons]; omega) (by simp)]
      simp [encodeAll]

theorem padding_zero : arch.padding 0 = 0 := by
  unfold padding width packed
  rcases Nat.eq_zero_or_pos arch.lanes with none | some
  · simp [none]
  · rw [Nat.div_eq_of_lt (by omega), Nat.zero_mul]

theorem encodeRows_eq_layout {rows rowLength : Nat} {values : List Single}
    (length : values.length = rows * rowLength) :
    arch.encodeRows rowLength (arch.padding rowLength) 0 values =
      arch.layout rows rowLength values := by
  rcases Nat.eq_zero_or_pos rowLength with rfl | some
  · -- rows without scalars have no padding either
    rw [Nat.mul_zero, List.length_eq_zero_iff] at length
    subst length
    simp [layout, paddedValues, padding_zero, encodeRows]
  induction rows generalizing values with
  | zero =>
    rw [Nat.zero_mul, List.length_eq_zero_iff] at length
    subst length
    rfl
  | succ rows ih =>
    rw [Nat.succ_mul] at length
    have row : (values.take rowLength).length = rowLength := by
      rw [List.length_take]
      omega
    have rest : (values.drop rowLength).length = rows * rowLength := by
      rw [List.length_drop]
      omega
    have nonempty : values.take rowLength ≠ [] := by
      rw [← List.length_pos_iff]
      omega
    conv_lhs => rw [← List.take_append_drop rowLength values]
    rw [encodeRows_row (by rw [Nat.zero_add, row]) nonempty, ih rest, layout, layout,
      List.range_succ_eq_map, List.flatMap_cons, List.flatMap_map]
    simp [paddedValues, List.drop_drop, Nat.succ_mul, Nat.add_comm]

theorem le_width (positive : 0 < arch.lanes) (row : Nat) : row ≤ arch.width row := by
  unfold width packed
  have split := Nat.div_add_mod (row + arch.lanes - 1) arch.lanes
  have bound := Nat.mod_lt (row + arch.lanes - 1) positive
  rw [Nat.mul_comm] at split
  omega

theorem length_row {rows rowLength i : Nat} {values : List Single}
    (length : values.length = rows * rowLength) (row : i < rows) :
    ((values.drop (i * rowLength)).take rowLength).length = rowLength := by
  have later : (i + 1) * rowLength ≤ rows * rowLength := Nat.mul_le_mul_right _ row
  rw [Nat.succ_mul] at later
  rw [List.length_take, List.length_drop]
  omega

theorem length_paddedValues {rows rowLength i : Nat} {values : List Single}
    (positive : 0 < arch.lanes) (length : values.length = rows * rowLength) (row : i < rows) :
    (arch.paddedValues rowLength values i).length = arch.width rowLength := by
  rw [paddedValues, List.length_append, length_row length row, List.length_replicate]
  exact Nat.add_sub_cancel' (le_width positive rowLength)

theorem length_laneValues {rows rowLength : Nat} {values : List Single}
    (positive : 0 < arch.lanes) (length : values.length = rows * rowLength) :
    (arch.laneValues rows rowLength values).length = rows * arch.width rowLength := by
  have even : ∀ i ∈ List.range rows,
      (arch.paddedValues rowLength values i).length = arch.width rowLength := fun i member =>
    length_paddedValues positive length (List.mem_range.mp member)
  rw [laneValues, List.length_flatMap, List.map_congr_left even, List.map_const',
    List.sum_replicate_nat, List.length_range]

theorem layout_eq_encodeAll (rows rowLength : Nat) (values : List Single) :
    arch.layout rows rowLength values =
      arch.encodeAll (arch.laneValues rows rowLength values) := by
  rw [encodeAll, laneValues, List.flatMap_assoc]
  rfl

theorem length_layout {rows rowLength : Nat} {values : List Single} (positive : 0 < arch.lanes)
    (length : values.length = rows * rowLength) :
    (arch.layout rows rowLength values).length =
      rows * arch.packed rowLength * arch.vectorSize := by
  rw [layout_eq_encodeAll, length_encodeAll, length_laneValues positive length, width, vectorSize]
  ring

/-! ### Constants -/

theorem extentOf_eq_ok {shape : List Nat} {extent : Extent} (positive : 0 < arch.lanes)
    (ok : arch.extentOf shape = .ok extent) : extent = arch.natural shape := by
  obtain ⟨scalars, counted, ok⟩ := bind_eq_ok.mp ok
  rw [Word.product_eq_ok counted] at ok
  unfold natural
  cases last : shape.getLast? with
  | none =>
    rw [last] at ok
    cases ok
    rw [List.getLast?_eq_none_iff.mp last]
    simp [packed, Nat.div_self positive]
  | some row =>
    rw [last] at ok
    obtain ⟨outer, multiplied, ok⟩ := bind_eq_ok.mp ok
    obtain ⟨packed, divided, ok⟩ := bind_eq_ok.mp ok
    obtain ⟨vectors, product, ok⟩ := bind_eq_ok.mp ok
    obtain ⟨-, rfl⟩ := Word.mul_eq_ok_iff.mp product
    rw [Word.divCeil, if_neg (Nat.ne_of_gt positive)] at divided
    cases divided
    cases ok
    rw [Word.product_eq_ok multiplied]
    rfl

theorem paddedRow_eq_ok {row padded : Nat} (ok : arch.paddedRow row = .ok padded) :
    padded - row = arch.padding row := by
  obtain ⟨packed, divided, ok⟩ := bind_eq_ok.mp ok
  obtain ⟨-, rfl⟩ := Word.mul_eq_ok_iff.mp ok
  unfold Word.divCeil at divided
  split at divided
  · cases divided
  · cases divided
    rfl

theorem encodeTensor_eq_ok {name : String} {tensor : Tensor} {bytes : Bytes}
    (positive : 0 < arch.lanes) (accepted : tensor.Accepted)
    (encoded : arch.encodeTensor name tensor = .ok (.ok bytes)) :
    bytes = arch.constantBytes tensor (arch.natural tensor.shape) ∧
      bytes.length = (arch.natural tensor.shape).vectors * arch.vectorSize := by
  unfold encodeTensor at encoded
  cases singles : tensor.scalars.singles? with
  | none =>
    rw [singles] at encoded
    cases encoded
  | some values =>
    rw [singles] at encoded
    obtain ⟨padded, measured, written⟩ := bind_eq_ok.mp encoded
    cases written
    have length : values.length = tensor.shape.dropLast.prod * tensor.rowLength :=
      (length_singles singles).trans accepted.size_eq
    rw [paddedRow_eq_ok measured, encodeRows_eq_layout length]
    refine ⟨?_, length_layout positive length⟩
    simp [constantBytes, singles]

theorem encodeReplicated_eq_ok {name : String} {tensor : Tensor} {vectors : Nat} {bytes : Bytes}
    (single : tensor.size = 1)
    (encoded : arch.encodeReplicated name tensor vectors = .ok (.ok bytes)) :
    bytes = (List.replicate (vectors * arch.lanes)
        (arch.encodeAll (tensor.scalars.singles?.getD []))).flatten ∧
      bytes.length = vectors * arch.vectorSize := by
  unfold encodeReplicated at encoded
  cases singles : tensor.scalars.singles? with
  | none =>
    rw [singles] at encoded
    cases encoded
  | some values =>
    obtain ⟨value, rfl⟩ := List.length_eq_one_iff.mp ((length_singles singles).trans single)
    rw [singles] at encoded
    obtain ⟨count, multiplied, written⟩ := bind_eq_ok.mp encoded
    obtain ⟨-, rfl⟩ := Word.mul_eq_ok_iff.mp multiplied
    cases written
    refine ⟨?_, ?_⟩
    · simp [encodeAll, List.flatMap_replicate]
    · rw [length_encodeAll, List.length_replicate, Nat.mul_assoc, vectorSize]

theorem encodeConstant_eq_ok {name : String} {tensor : Tensor} {natural extent : Extent}
    {requested : Option Extent} {replicated : Bool} {bytes : Bytes} (positive : 0 < arch.lanes)
    (accepted : tensor.Accepted) (measured : arch.extentOf tensor.shape = .ok natural)
    (sized : Planner.constantExtent name tensor natural requested = .ok (extent, replicated))
    (encoded : arch.encodeConstant name tensor extent.vectors replicated = .ok (.ok bytes)) :
    bytes = arch.constantBytes tensor extent ∧
      bytes.length = extent.vectors * arch.vectorSize := by
  rw [extentOf_eq_ok positive measured] at sized
  unfold encodeConstant at encoded
  rcases Planner.constantExtent_cases sized with ⟨rfl, rfl⟩ | ⟨rfl, other, single⟩
  · exact encodeTensor_eq_ok positive accepted encoded
  · rw [constantBytes, if_neg other]
    exact encodeReplicated_eq_ok single encoded

end Architecture

end VectorMemory
