import Mathlib.Data.Nat.Digits.Defs
import VectorMemory.Architecture
import VectorMemory.Proofs.Binary
import VectorMemory.Proofs.Framing

/-! Fixed-point scalars. A number is stored as the nearest integer to its product with a power
of two, and as the bound of the format where that integer does not fit. The floating-point
product that comes before is exact, so it is the number itself that is rounded. -/
namespace VectorMemory

namespace Bytes

/-- The integer of bytes in two's complement, the least significant byte first. -/
def signed (bytes : Bytes) : Int :=
  Int.bmod (Nat.ofDigits 256 (bytes.map UInt8.toNat) : Nat) (256 ^ bytes.length)

theorem ofDigits_littleEndian (width : Nat) (n : Int) :
    ((Nat.ofDigits 256 ((littleEndian width n).map UInt8.toNat) : Nat) : Int) =
      n % (256 ^ width : Nat) := by
  induction width generalizing n with
  | zero => simp [littleEndian]
  | succ width ih =>
    have low : (UInt8.ofNat (n % 256).toNat).toNat = (n % 256).toNat := by
      rw [UInt8.toNat_ofNat']
      omega
    have step : n % (256 ^ (width + 1) : Nat) = n % 256 + 256 * (n / 256 % (256 ^ width : Nat)) := by
      rw [pow_succ', Nat.cast_mul, Nat.cast_ofNat, Int.emod_def, Int.emod_def n 256,
        Int.emod_def (n / 256), Int.ediv_ediv_of_nonneg (by decide)]
      ring
    rw [littleEndian_succ, List.map_cons, Nat.ofDigits_cons, low, Nat.cast_add, Nat.cast_mul, ih, step]
    omega

theorem signed_littleEndian {width : Nat} {n : Int} (low : -(256 ^ width : Nat) ≤ 2 * n)
    (high : 2 * n < (256 ^ width : Nat)) : signed (littleEndian width n) = n := by
  rw [signed, ofDigits_littleEndian, length_littleEndian, Int.emod_bmod]
  apply Int.bmod_eq_of_le <;> omega

end Bytes

/-- `n` is an integer nearest to `q`, and a half went away from zero. -/
structure NearestAway (q : ℚ) (n : Int) : Prop where
  near : |q - n| ≤ 1 / 2
  away : |q - n| = 1 / 2 → |q| < |(n : ℚ)|

theorem nearestAway_floor {q : ℚ} (nonneg : 0 ≤ q) : NearestAway q ⌊q + 1 / 2⌋₊ := by
  have low : (⌊q + 1 / 2⌋₊ : ℚ) ≤ q + 1 / 2 := Nat.floor_le (by linarith)
  have high : q + 1 / 2 < ⌊q + 1 / 2⌋₊ + 1 := Nat.lt_floor_add_one _
  rw [← Int.cast_natCast] at low high
  constructor
  · rw [abs_le]
    constructor <;> linarith
  · intro tie
    rw [abs_eq (by norm_num)] at tie
    rw [abs_of_nonneg nonneg, lt_abs]
    rcases tie with tie | tie
    · linarith
    · exact Or.inl (by linarith)

theorem NearestAway.neg {q : ℚ} {n : Int} (nearest : NearestAway q n) : NearestAway (-q) (-n) := by
  have same : |-q - ((-n : Int) : ℚ)| = |q - n| := by
    rw [Int.cast_neg, ← neg_sub', abs_neg]
  constructor
  · rw [same]
    exact nearest.near
  · rw [same, abs_neg, Int.cast_neg, abs_neg]
    exact nearest.away

/-- The nearest integer that fits in `size` bytes. -/
def saturate (size : Nat) (n : Int) : Int :=
  max (-2 ^ (8 * size - 1)) (min (2 ^ (8 * size - 1) - 1) n)

/-- Infinities saturate as the numbers beyond the format would. -/
theorem Binary.Format.Holds.toInt {f : Format} {bits : Nat} {negative : Bool} {magnitude : ℚ}
    (held : f.Holds bits negative magnitude) {size : Nat}
    (fits : 8 * size - 1 ≤ 2 ^ (f.exponentBits - 1)) :
    ∃ n, NearestAway (if negative then -magnitude else magnitude) n ∧
      f.toInt (-2 ^ (8 * size - 1)) (2 ^ (8 * size - 1) - 1) bits = saturate size n := by
  have nonneg : 0 ≤ magnitude := by
    obtain ⟨mantissa, exponent, _, rfl⟩ | ⟨_, beyond⟩ := held
    · positivity
    · exact (Nat.cast_nonneg _).trans beyond
  have nearest := nearestAway_floor nonneg
  refine ⟨if negative then -⌊magnitude + 1 / 2⌋₊ else ⌊magnitude + 1 / 2⌋₊, ?_, ?_⟩
  · cases negative
    · exact nearest
    · exact nearest.neg
  obtain ⟨mantissa, exponent, unpacked, rfl⟩ | ⟨unpacked, beyond⟩ := held
  · simp only [Format.toInt, unpacked, roundHalfUp_eq_floor, saturate]
  · have large : (2 : Int) ^ (8 * size - 1) ≤ ⌊magnitude + 1 / 2⌋₊ := by
      have power : 2 ^ (8 * size - 1) ≤ f.limit := Nat.pow_le_pow_right two_pos fits
      have reached : f.limit ≤ ⌊magnitude + 1 / 2⌋₊ := Nat.le_floor (by linarith)
      exact_mod_cast power.trans reached
    have positive : (0 : Int) < 2 ^ (8 * size - 1) := by positivity
    simp only [Format.toInt, unpacked, saturate]
    cases negative
    · simp only [Bool.false_eq_true, if_false]
      omega
    · simp only [if_true]
      omega

namespace Single

def isNegative (x : Single) : Bool :=
  2 ^ 31 ≤ x.bits.toNat

def exponentField (x : Single) : Nat :=
  x.bits.toNat / 2 ^ 23 % 2 ^ 8

def fractionField (x : Single) : Nat :=
  x.bits.toNat % 2 ^ 23

def IsNaN (x : Single) : Prop :=
  x.exponentField = 255 ∧ x.fractionField ≠ 0

def IsInfinite (x : Single) : Prop :=
  x.exponentField = 255 ∧ x.fractionField = 0

def IsFinite (x : Single) : Prop :=
  x.exponentField < 255

/-- The magnitude of a finite pattern. The fraction has a digit one in front of it unless the
exponent field is 0. -/
def magnitude (x : Single) : ℚ :=
  if x.exponentField = 0 then x.fractionField * 2 ^ (-149 : Int)
  else (2 ^ 23 + x.fractionField) * 2 ^ ((x.exponentField : Int) - 150)

def value (x : Single) : ℚ :=
  if x.isNegative then -x.magnitude else x.magnitude

theorem unpack_of_isNaN {x : Single} (nan : x.IsNaN) : Binary.single.unpack x.bits.toNat = .nan := by
  obtain ⟨field, fraction⟩ := nan
  unfold exponentField at field
  unfold fractionField at fraction
  have above : Binary.single.infinity < x.bits.toNat % Binary.single.signBit := by
    change 0x7F800000 < x.bits.toNat % 0x80000000
    omega
  rw [Binary.Format.unpack, if_pos above]

theorem unpack_of_isInfinite {x : Single} (infinite : x.IsInfinite) :
    Binary.single.unpack x.bits.toNat = .infinite x.isNegative := by
  obtain ⟨field, fraction⟩ := infinite
  unfold exponentField at field
  unfold fractionField at fraction
  have same : x.bits.toNat % Binary.single.signBit = Binary.single.infinity := by
    change x.bits.toNat % 0x80000000 = 0x7F800000
    omega
  simp only [Binary.Format.unpack, same, lt_irrefl, if_false, if_true]
  rfl

theorem unpack_of_isFinite {x : Single} (finite : x.IsFinite) :
    ∃ mantissa exponent,
      Binary.single.unpack x.bits.toNat = .finite x.isNegative mantissa exponent ∧
        (mantissa : ℚ) * 2 ^ exponent = x.magnitude := by
  have below : x.bits.toNat % Binary.single.signBit < Binary.single.infinity := by
    unfold IsFinite exponentField at finite
    change x.bits.toNat % 0x80000000 < 0x7F800000
    omega
  have field : x.bits.toNat % Binary.single.signBit / 2 ^ 23 = x.exponentField := by
    unfold exponentField
    change x.bits.toNat % 0x80000000 / 0x800000 = _
    omega
  have fraction : x.bits.toNat % Binary.single.signBit % 2 ^ 23 = x.fractionField := by
    unfold fractionField
    change x.bits.toNat % 0x80000000 % 0x800000 = _
    omega
  have unpacked : Binary.single.unpack x.bits.toNat =
      if x.exponentField = 0 then .finite x.isNegative x.fractionField (-149)
      else .finite x.isNegative (2 ^ 23 + x.fractionField) (-149 + (x.exponentField - 1 : Nat)) := by
    simp only [Binary.Format.unpack, if_neg below.not_gt, if_neg below.ne, ← field, ← fraction]
    rfl
  unfold magnitude
  by_cases subnormal : x.exponentField = 0
  · rw [if_pos subnormal] at unpacked ⊢
    exact ⟨_, _, unpacked, rfl⟩
  · rw [if_neg subnormal] at unpacked ⊢
    refine ⟨_, _, unpacked, ?_⟩
    have shifted : -149 + ((x.exponentField - 1 : Nat) : Int) = x.exponentField - 150 := by omega
    rw [shifted, Nat.cast_add, Nat.cast_pow, Nat.cast_ofNat]

theorem isFinite_or (x : Single) : x.IsFinite ∨ x.IsInfinite ∨ x.IsNaN := by
  unfold IsFinite IsInfinite IsNaN exponentField
  omega

structure Copied (x : Single) (f : Binary.Format) (bits : Nat) : Prop where
  nan : x.IsNaN → f.unpack bits = .nan
  infinite : x.IsInfinite → f.unpack bits = .infinite x.isNegative
  finite : x.IsFinite → f.Holds bits x.isNegative x.magnitude

theorem copied_single (x : Single) : x.Copied Binary.single x.bits.toNat where
  nan := unpack_of_isNaN
  infinite := unpack_of_isInfinite
  finite := fun finite => Or.inl (unpack_of_isFinite finite)

theorem copied_double (x : Single) :
    x.Copied Binary.double (Binary.single.convert Binary.double x.bits.toNat) where
  nan := by
    intro nan
    rw [Binary.Format.convert, unpack_of_isNaN nan]
    rfl
  infinite := by
    intro infinite
    rw [Binary.Format.convert, unpack_of_isInfinite infinite]
    exact Binary.double.unpack_infinity x.isNegative
  finite := by
    intro finite
    obtain ⟨mantissa, exponent, unpacked, same⟩ := unpack_of_isFinite finite
    rw [← same]
    exact Binary.Format.holds_convert (by decide) (by decide) (by decide) unpacked

/-- The integer that stands for a scalar in `size` bytes, `point` binary digits of which are
behind the point. -/
structure Rounds (size point : Nat) (x : Single) (code : Int) : Prop where
  nan : x.IsNaN → code = 0
  infinite : x.IsInfinite →
    code = if x.isNegative then -2 ^ (8 * size - 1) else 2 ^ (8 * size - 1) - 1
  finite : x.IsFinite → ∃ n, NearestAway (x.value * 2 ^ point) n ∧ code = saturate size n

theorem Copied.rounds {x : Single} {f : Binary.Format} {bits : Nat} (copied : x.Copied f bits)
    (wide : 2 ≤ f.exponentBits) {size : Nat} (fits : 8 * size - 1 ≤ 2 ^ (f.exponentBits - 1))
    (point : Nat) :
    Rounds size point x
      (f.toInt (-2 ^ (8 * size - 1)) (2 ^ (8 * size - 1) - 1) (f.scale point bits)) where
  nan := by
    intro nan
    simp only [Binary.Format.scale, Binary.Format.toInt, copied.nan nan]
  infinite := by
    intro infinite
    simp only [Binary.Format.scale, Binary.Format.toInt, copied.infinite infinite]
  finite := by
    intro finite
    obtain ⟨n, nearest, code⟩ := ((copied.finite finite).scale wide point).toInt fits
    refine ⟨n, ?_, code⟩
    rw [value, ite_mul, neg_mul]
    exact nearest

theorem Rounds.bounds {size point : Nat} {x : Single} {code : Int} (rounds : Rounds size point x code) :
    -2 ^ (8 * size - 1) ≤ code ∧ code < 2 ^ (8 * size - 1) := by
  have positive : (0 : Int) < 2 ^ (8 * size - 1) := by positivity
  rcases x.isFinite_or with finite | infinite | nan
  · obtain ⟨n, _, rfl⟩ := rounds.finite finite
    unfold saturate
    omega
  · rw [rounds.infinite infinite]
    split <;> omega
  · rw [rounds.nan nan]
    omega

theorem Rounds.signed_littleEndian {size point : Nat} {x : Single} {code : Int}
    (rounds : Rounds size point x code) (positive : 0 < size) :
    Bytes.signed (Bytes.littleEndian size code) = code := by
  obtain ⟨low, high⟩ := rounds.bounds
  have doubled : (256 ^ size : Nat) = 2 * 2 ^ (8 * size - 1) := by
    rw [← pow_succ', Nat.sub_add_cancel (by omega), pow_mul]
    rfl
  have cast : ((256 ^ size : Nat) : Int) = 2 * 2 ^ (8 * size - 1) := by exact_mod_cast doubled
  apply Bytes.signed_littleEndian <;> rw [cast] <;> omega

end Single

/-- Fixed point stores the nearest integer to the scaled number, a half going away from zero, or
the bound of its width where that does not fit. A pattern that is no number is stored as 0. -/
theorem NativeFormat.fixed_point_nearest (x : Single) :
    ((NativeFormat.fixed16.encode x).length = 2 ∧
      Single.Rounds 2 8 x (Bytes.signed (NativeFormat.fixed16.encode x))) ∧
    ((NativeFormat.fixed32.encode x).length = 4 ∧
      Single.Rounds 4 16 x (Bytes.signed (NativeFormat.fixed32.encode x))) := by
  have narrow : Single.Rounds 2 8 x (code .fixed16 x) :=
    x.copied_single.rounds (by decide) (by decide) 8
  have broad : Single.Rounds 4 16 x (code .fixed32 x) :=
    x.copied_double.rounds (by decide) (by decide) 16
  refine ⟨⟨Bytes.length_littleEndian _ _, ?_⟩, ⟨Bytes.length_littleEndian _ _, ?_⟩⟩
  · rw [encode, byteSize, narrow.signed_littleEndian two_pos]
    exact narrow
  · rw [encode, byteSize, broad.signed_littleEndian four_pos]
    exact broad

-- A half of the last place below zero becomes minus one of it.
example : NativeFormat.fixed16.encode ⟨0xBB000000⟩ = [0xFF, 0xFF] := by decide

end VectorMemory
