import VectorMemory.Proofs.FixedPoint
import VectorMemory.Proofs.Lanes

/-! Integer constants in fixed point. On its way to the encoder an integer becomes a single, which
keeps 24 of its digits. The integers that this changes are beyond the bounds of both fixed-point
formats, before as well as after it, so that every integer is stored as if it had been scaled and
clamped directly. -/
namespace VectorMemory

theorem NearestAway.eq_of_int {m n : Int} (nearest : NearestAway (m : ℚ) n) : n = m := by
  have near := abs_le.mp nearest.near
  have low : m - n < 1 := by exact_mod_cast (show (m : ℚ) - n < 1 by linarith)
  have high : -1 < m - n := by exact_mod_cast (show -1 < (m : ℚ) - n by linarith)
  omega

theorem NearestAway.le {q : ℚ} {m n : Int} (nearest : NearestAway q n) (reached : (m : ℚ) ≤ q) :
    m ≤ n := by
  have near := abs_le.mp nearest.near
  have low : m - n < 1 := by exact_mod_cast (show (m : ℚ) - n < 1 by linarith)
  omega

/-- `n` with the sign taken away that it is said to have. -/
def unsigned (negative : Bool) (n : Int) : Int :=
  if negative then -n else n

theorem unsigned_mul (negative : Bool) (m n : Int) :
    unsigned negative (m * n) = unsigned negative m * n := by
  unfold unsigned
  rw [ite_mul, neg_mul]

theorem unsigned_lt_zero (n : Int) : unsigned (n < 0) n = n.natAbs := by
  unfold unsigned
  simp only [decide_eq_true_eq]
  split <;> omega

theorem NearestAway.le_unsigned {negative : Bool} {q : ℚ} {m n : Int}
    (nearest : NearestAway (if negative then -q else q) n) (reached : (m : ℚ) ≤ q) :
    m ≤ unsigned negative n := by
  cases negative with
  | false => exact nearest.le reached
  | true =>
    have opposite := nearest.neg
    rw [if_pos rfl, neg_neg] at opposite
    exact opposite.le reached

theorem saturate_mono (size : Nat) {m n : Int} (le : m ≤ n) : saturate size m ≤ saturate size n :=
  max_le_max le_rfl (min_le_min le_rfl le)

theorem saturate_of_large {size : Nat} {negative : Bool} {n : Int}
    (large : 2 ^ (8 * size - 1) ≤ unsigned negative n) :
    saturate size n = if negative then -2 ^ (8 * size - 1) else 2 ^ (8 * size - 1) - 1 := by
  have positive : (0 : Int) < 2 ^ (8 * size - 1) := by positivity
  unfold saturate
  cases negative with
  | false =>
    simp only [unsigned, Bool.false_eq_true, if_false] at large ⊢
    omega
  | true =>
    simp only [unsigned, if_true] at large ⊢
    omega

namespace Single

/-- The single of an integer is this integer, or both have more than 24 digits. -/
theorem ofInt_cases (n : Int) :
    (ofInt n).IsFinite ∧ (ofInt n).value = n ∨
      2 ^ 24 ≤ n.natAbs ∧ (ofInt n).isNegative = decide (n < 0) ∧
        ((ofInt n).IsFinite ∧ 2 ^ 24 ≤ (ofInt n).magnitude ∨ (ofInt n).IsInfinite) := by
  obtain ⟨magnitude, held, known⟩ :=
    Binary.Format.holds_ofInt (f := Binary.single) (by decide) (by decide) n
  rw [← toNat_ofInt] at held
  obtain ⟨sign, ⟨finite, rfl⟩ | ⟨infinite, beyond⟩⟩ := cases_of_holds held
  · rcases known with exact | ⟨large, reached⟩
    · refine Or.inl ⟨finite, ?_⟩
      rw [value, sign, exact, Nat.cast_natAbs]
      by_cases negative : n < 0
      · simp [negative, abs_of_neg negative]
      · simp [negative, abs_of_nonneg (Int.not_lt.mp negative)]
    · exact Or.inr ⟨large, sign, Or.inl ⟨finite, reached⟩⟩
  · refine Or.inr ⟨?_, sign, Or.inr infinite⟩
    rcases known with rfl | ⟨large, -⟩
    · have reached : Binary.single.limit ≤ n.natAbs := by exact_mod_cast beyond
      exact le_trans (Nat.pow_le_pow_right two_pos (by decide)) reached
    · exact large

/-- Whatever rounding to a single does to an integer is undone by the bounds of the format. -/
theorem Rounds.ofInt {size point : Nat} {n code : Int} (rounds : Rounds size point (ofInt n) code)
    (narrow : 8 * size - 1 ≤ 24 + point) : code = saturate size (n * 2 ^ point) := by
  rcases ofInt_cases n with ⟨finite, value⟩ | ⟨large, sign, state⟩
  · obtain ⟨m, nearest, rfl⟩ := rounds.finite finite
    have scaled : (Single.ofInt n).value * 2 ^ point = ((n * 2 ^ point : Int) : ℚ) := by
      rw [value]
      push_cast
      rfl
    rw [scaled] at nearest
    rw [nearest.eq_of_int]
  · have bound : (2 : Int) ^ (8 * size - 1) ≤ 2 ^ (24 + point) := pow_le_pow_right₀ one_le_two narrow
    have direct : (2 : Int) ^ (24 + point) ≤ unsigned (n < 0) (n * 2 ^ point) := by
      rw [unsigned_mul, unsigned_lt_zero, pow_add]
      gcongr
      exact_mod_cast large
    rw [saturate_of_large (bound.trans direct), ← sign]
    rcases state with ⟨finite, reached⟩ | infinite
    · obtain ⟨m, nearest, rfl⟩ := rounds.finite finite
      rw [Single.value, ite_mul, neg_mul] at nearest
      apply saturate_of_large (bound.trans (nearest.le_unsigned _))
      rw [Int.cast_pow, Int.cast_ofNat, pow_add]
      gcongr
    · exact rounds.infinite infinite

end Single

/-- The bytes are `n * 2 ^ point` in two's complement, or the bound of their width where that does
not fit. -/
structure Bytes.Stores (size point : Nat) (n : Int) (bytes : Bytes) : Prop where
  length : bytes.length = size
  signed : Bytes.signed bytes = saturate size (n * 2 ^ point)

inductive NativeFormat.Fixed : NativeFormat → Nat → Nat → Prop where
  | narrow : Fixed .fixed16 2 8
  | broad : Fixed .fixed32 4 16

theorem NativeFormat.Fixed.stores {format : NativeFormat} {size point : Nat}
    (fixed : format.Fixed size point) (n : Int) :
    Bytes.Stores size point n (format.encode (.ofInt n)) := by
  cases fixed with
  | narrow =>
    have rounds : Single.Rounds 2 8 (.ofInt n) (code .fixed16 (.ofInt n)) :=
      (Single.copied_single _).rounds (by decide) (by decide) 8
    refine ⟨Bytes.length_littleEndian _ _, ?_⟩
    rw [encode, byteSize, rounds.signed_littleEndian two_pos]
    exact rounds.ofInt (by decide)
  | broad =>
    have rounds : Single.Rounds 4 16 (.ofInt n) (code .fixed32 (.ofInt n)) :=
      (Single.copied_double _).rounds (by decide) (by decide) 16
    refine ⟨Bytes.length_littleEndian _ _, ?_⟩
    rw [encode, byteSize, rounds.signed_littleEndian four_pos]
    exact rounds.ofInt (by decide)

theorem Bytes.Stores.mono {size point : Nat} {m n : Int} {bytes others : Bytes}
    (first : Stores size point m bytes) (second : Stores size point n others) (le : m ≤ n) :
    Bytes.signed bytes ≤ Bytes.signed others := by
  rw [first.signed, second.signed]
  apply saturate_mono
  gcongr

namespace Architecture

variable {arch : Architecture} {values : List Single} {rowLength padding column k : Nat} {x : Single}

theorem lane_encodeAll_append (before : List Single) (bytes : Bytes) (k : Nat) :
    arch.lane (arch.encodeAll before ++ bytes) (before.length + k) = arch.lane bytes k := by
  rw [lane, lane, Nat.add_mul, ← length_encodeAll, List.drop_length_add_append]

theorem lane_encode_append_zero (x : Single) (bytes : Bytes) :
    arch.lane (arch.format.encode x ++ bytes) 0 = arch.format.encode x := by
  rw [lane, Nat.zero_mul, List.drop_zero, ← arch.format.length_encode x, List.take_left]

theorem lane_encode_append_succ (x : Single) (bytes : Bytes) (k : Nat) :
    arch.lane (arch.format.encode x ++ bytes) (1 + k) = arch.lane bytes k := by
  have single : arch.encodeAll [x] = arch.format.encode x := List.append_nil _
  rw [← single]
  exact lane_encodeAll_append [x] bytes k

theorem lane_encodeRows (started : column < rowLength ∨ rowLength = 0) (held : values[k]? = some x) :
    arch.lane (arch.encodeRows rowLength padding column values)
      (k + padding * ((column + k) / rowLength)) = arch.format.encode x := by
  induction values generalizing column k with
  | nil => cases held
  | cons value rest ih =>
    rw [encodeRows]
    cases k with
    | zero =>
      cases held
      have first : (column + 0) / rowLength = 0 := by
        rcases started with inside | rfl
        · exact Nat.div_eq_of_lt inside
        · exact Nat.div_zero _
      rw [first, Nat.mul_zero, Nat.add_zero]
      split
      · rw [List.append_assoc]
        exact lane_encode_append_zero _ _
      · exact lane_encode_append_zero _ _
    | succ k =>
      rw [List.getElem?_cons_succ] at held
      split
      case isTrue full =>
        have behind : (column + (k + 1)) / rowLength = (0 + k) / rowLength + 1 := by
          rw [← Nat.add_div_right _ (by omega)]
          congr 1
          omega
        have position : k + 1 + padding * ((column + (k + 1)) / rowLength) =
            1 + ((List.replicate padding Single.zero).length + (k + padding * ((0 + k) / rowLength))) := by
          rw [behind, List.length_replicate, Nat.mul_succ]
          omega
        rw [position, List.append_assoc, lane_encode_append_succ, lane_encodeAll_append]
        exact ih (Or.inl (by omega)) held
      case isFalse =>
        have position : k + 1 + padding * ((column + (k + 1)) / rowLength) =
            1 + (k + padding * ((column + 1 + k) / rowLength)) := by
          rw [Nat.add_comm k 1, ← Nat.add_assoc column, Nat.add_assoc]
        rw [position, lane_encode_append_succ]
        exact ih (by omega) held

end Architecture

namespace Blob

variable {b : Blob} {tensor : Tensor} {size point padded vectors : Nat}

theorem write_integers {values : List Int32} (fixed : b.arch.format.Fixed size point)
    (kind : tensor.scalars = .int32 values)
    (measured : b.arch.paddedRow tensor.rowLength = .ok padded) (name : String) :
    ∃ new, write name tensor b = .done () { b with bytes := b.bytes ++ new } ∧
      ∀ k v, values[k]? = some v → Bytes.Stores size point v.toInt
        (b.arch.lane new (k + (padded - tensor.rowLength) * (k / tensor.rowLength))) := by
  have encoded : b.arch.encodeTensor name tensor =
      .ok (.ok (b.arch.encodeRows tensor.rowLength (padded - tensor.rowLength) 0
        (values.map fun v => .ofInt v.toInt))) := by
    simp only [Architecture.encodeTensor, kind, Scalars.singles?, measured]
    rfl
  refine ⟨_, append_eq_done.mpr ⟨_, encoded, rfl⟩, fun k v held => ?_⟩
  have single : (values.map fun v => Single.ofInt v.toInt)[k]? = some (.ofInt v.toInt) := by
    rw [List.getElem?_map, held, Option.map_some]
  have lane := @Architecture.lane_encodeRows b.arch _ tensor.rowLength (padded - tensor.rowLength) 0 k _
    (Nat.eq_zero_or_pos _).symm single
  rw [Nat.zero_add] at lane
  rw [lane]
  exact fixed.stores _

theorem replicate_integers {v : Int32} {rest : List Int32} (fixed : b.arch.format.Fixed size point)
    (kind : tensor.scalars = .int32 (v :: rest)) (bound : vectors * b.arch.lanes < Word.limit)
    (name : String) :
    ∃ new, replicate name tensor vectors b = .done () { b with bytes := b.bytes ++ new } ∧
      new.length = vectors * b.arch.lanes * b.arch.format.byteSize ∧
      ∀ k < vectors * b.arch.lanes, Bytes.Stores size point v.toInt (b.arch.lane new k) := by
  have encoded : b.arch.encodeReplicated name tensor vectors = .ok (.ok (b.arch.encodeAll
      (List.replicate (vectors * b.arch.lanes) (.ofInt v.toInt)))) := by
    simp only [Architecture.encodeReplicated, kind, Scalars.singles?, List.map_cons,
      Word.mul_eq_ok bound]
    rfl
  refine ⟨_, append_eq_done.mpr ⟨_, encoded, rfl⟩, ?_, fun k inside => ?_⟩
  · rw [Architecture.length_encodeAll, List.length_replicate]
  · rw [Architecture.lane_encodeAll (by rw [List.getElem?_replicate, if_pos inside])]
    exact fixed.stores _

/-- An integer is written as its product with a power of two, or as the bound that this passes:
in a tensor behind the values before it and the padding of the rows that they fill, and in every lane
where it fills vectors. So a larger integer is never written as a smaller number. -/
theorem integers_exact (fixed : b.arch.format.Fixed size point) :
    (∀ v : Int32, Bytes.Stores size point v.toInt (b.arch.format.encode (.ofInt v.toInt))) ∧
    (∀ v w : Int32, v ≤ w → Bytes.signed (b.arch.format.encode (.ofInt v.toInt)) ≤
      Bytes.signed (b.arch.format.encode (.ofInt w.toInt))) ∧
    (∀ name tensor values padded, tensor.scalars = .int32 values →
      b.arch.paddedRow tensor.rowLength = .ok padded →
      ∃ new, write name tensor b = .done () { b with bytes := b.bytes ++ new } ∧
        ∀ k v, values[k]? = some v → Bytes.Stores size point v.toInt
          (b.arch.lane new (k + (padded - tensor.rowLength) * (k / tensor.rowLength)))) ∧
    ∀ name tensor v rest vectors, tensor.scalars = .int32 (v :: rest) →
      vectors * b.arch.lanes < Word.limit →
      ∃ new, replicate name tensor vectors b = .done () { b with bytes := b.bytes ++ new } ∧
        new.length = vectors * b.arch.lanes * b.arch.format.byteSize ∧
        ∀ k < vectors * b.arch.lanes, Bytes.Stores size point v.toInt (b.arch.lane new k) := by
  refine ⟨fun v => fixed.stores _, fun v w le => ?_, ?_, ?_⟩
  · exact (fixed.stores v.toInt).mono (fixed.stores w.toInt) (Int32.le_iff_toInt_le.mp le)
  · intro name tensor values padded kind measured
    exact write_integers fixed kind measured name
  · intro name tensor v rest vectors kind bound
    exact replicate_integers fixed kind bound name

/-- The third of three integers has more digits than a single, and stands behind the padding of the
first row. -/
theorem integers_exact_clamped :
    ∃ new, write "w" ⟨[2, 2], .int32 [7, -32768, 16777217, 0]⟩ ⟨⟨.fixed32, 3, 0, 0, 0⟩, [1]⟩ =
        .done () ⟨⟨.fixed32, 3, 0, 0, 0⟩, 1 :: new⟩ ∧
      Bytes.signed (Architecture.lane ⟨.fixed32, 3, 0, 0, 0⟩ new 0) = 7 * 2 ^ 16 ∧
      Bytes.signed (Architecture.lane ⟨.fixed32, 3, 0, 0, 0⟩ new 1) = -2 ^ 31 ∧
      Bytes.signed (Architecture.lane ⟨.fixed32, 3, 0, 0, 0⟩ new 3) = 2 ^ 31 - 1 := by
  obtain ⟨-, -, written, -⟩ := @integers_exact ⟨⟨.fixed32, 3, 0, 0, 0⟩, [1]⟩ 4 16 .broad
  obtain ⟨new, wrote, lanes⟩ :=
    written "w" ⟨[2, 2], .int32 [7, -32768, 16777217, 0]⟩ _ 3 rfl rfl
  refine ⟨new, wrote, ?_, ?_, ?_⟩
  · exact (lanes 0 7 rfl).signed.trans (by decide)
  · exact (lanes 1 (-32768) rfl).signed.trans (by decide)
  · exact (lanes 2 16777217 rfl).signed.trans (by decide)

end Blob

end VectorMemory
