import VectorMemory.Proofs.FixedPoint

/-! The single of an integer is the nearest of all finite ones. All patterns beyond the last
digit that is kept of a number are multiples of this digit, so that rounding to such a multiple
is rounding to a pattern. -/
namespace VectorMemory

/-- `n` is an integer nearest to `q`, and an even one at a half. -/
structure NearestEven (q : ℚ) (n : Nat) : Prop where
  near : |q - n| ≤ 1 / 2
  even : |q - n| = 1 / 2 → n % 2 = 0

namespace NearestEven

variable {q : ℚ} {n : Nat}

theorem other (nearest : NearestEven q n) {k : Int} (apart : k ≠ n) : 1 / 2 ≤ |q - k| := by
  have distance : (1 : ℚ) ≤ |(n : ℚ) - k| := by
    exact_mod_cast Int.one_le_abs (sub_ne_zero.mpr apart.symm)
  have triangle := abs_sub_le (n : ℚ) q k
  rw [abs_sub_comm (n : ℚ) q] at triangle
  linarith [nearest.near]

theorem le (nearest : NearestEven q n) (k : Int) : |q - n| ≤ |q - k| := by
  by_cases same : k = n
  · rw [same, Int.cast_natCast]
  · exact nearest.near.trans (nearest.other same)

end NearestEven

namespace Binary

theorem nearestEven_divToEven {r : Ratio} (positive : 0 < r.den) :
    NearestEven r.value (divToEven r.num r.den) := by
  have stands : (0 : ℚ) < r.den := Nat.cast_pos.mpr positive
  have whole : (r.den : ℚ) * (r.num / r.den : Nat) + (r.num % r.den : Nat) = r.num := by
    exact_mod_cast Nat.div_add_mod r.num r.den
  have rest : r.value - (r.num / r.den : Nat) = (r.num % r.den : Nat) / r.den := by
    rw [Ratio.value, eq_div_iff stands.ne', sub_mul, div_mul_cancel₀ _ stands.ne']
    linarith
  have bound : ((r.num % r.den : Nat) : ℚ) < r.den := Nat.cast_lt.mpr (Nat.mod_lt _ positive)
  simp only [divToEven]
  split
  case isTrue up =>
    have half : (r.den : ℚ) ≤ 2 * (r.num % r.den : Nat) := by
      exact_mod_cast (show r.den ≤ 2 * (r.num % r.den) by omega)
    have distance : |r.value - (r.num / r.den + 1 : Nat)| = 1 - (r.num % r.den : Nat) / r.den := by
      rw [Nat.cast_add_one, ← sub_sub, rest, abs_of_nonpos, neg_sub]
      rw [sub_nonpos, div_le_one stands]
      exact bound.le
    constructor
    · rw [distance, sub_le_comm, le_div_iff₀ stands]
      linarith
    · intro tie
      rw [distance, sub_eq_iff_eq_add, ← sub_eq_iff_eq_add', eq_div_iff stands.ne'] at tie
      have exact : r.den = 2 * (r.num % r.den) := by
        exact_mod_cast (show (r.den : ℚ) = 2 * (r.num % r.den : Nat) by linarith)
      omega
  case isFalse down =>
    have half : 2 * ((r.num % r.den : Nat) : ℚ) ≤ r.den := by
      exact_mod_cast (show 2 * (r.num % r.den) ≤ r.den by omega)
    rw [not_or] at down
    constructor
    · rw [rest, abs_of_nonneg (by positivity), div_le_iff₀ stands]
      linarith
    · intro tie
      rw [rest, abs_of_nonneg (by positivity), div_eq_iff stands.ne'] at tie
      have exact : r.den = 2 * (r.num % r.den) := by
        exact_mod_cast (show (r.den : ℚ) = 2 * (r.num % r.den : Nat) by linarith)
      omega

namespace Format

variable {f : Format} {r : Ratio}

theorem ofRatio_lt (f : Format) (negative : Bool) (r : Ratio) :
    f.ofRatio negative r < 2 * f.signBit := by
  have below := f.infinity_lt_signBit
  have sign : f.signOf negative ≤ f.signBit := by
    cases negative
    · exact Nat.zero_le _
    · exact Nat.le_refl _
  unfold ofRatio
  split
  · omega
  · dsimp only
    omega

theorem nearestEven_kept (positive : 0 < r.den) :
    NearestEven (r.value / 2 ^ f.lastExponent r.value) (f.kept r) := by
  rw [← r.value_shift]
  exact nearestEven_divToEven (Ratio.den_shift_pos _ positive)

theorem abs_value_sub_mul (f : Format) (r : Ratio) (k : ℚ) :
    |r.value - k * 2 ^ f.lastExponent r.value| =
      |r.value / 2 ^ f.lastExponent r.value - k| * 2 ^ f.lastExponent r.value := by
  have digit : (0 : ℚ) < 2 ^ f.lastExponent r.value := by positivity
  rw [← abs_of_pos digit, ← abs_mul, abs_of_pos digit, sub_mul, div_mul_cancel₀ _ digit.ne']

/-- What the format holds is a multiple of the last digit of a ratio, or else it is less than the
least number with this digit. -/
theorem multiple_or_lt {y : ℚ} {mantissa : Nat} {exponent : Int}
    (held : |y| = mantissa * 2 ^ exponent) (small : mantissa < 2 ^ (f.fractionBits + 1))
    (deep : f.minExponent ≤ exponent) :
    (∃ k : Int, y = k * 2 ^ f.lastExponent r.value) ∨
      f.lastExponent r.value ≠ f.minExponent ∧ y < 2 ^ f.fractionBits * 2 ^ f.lastExponent r.value := by
  by_cases aligned : f.lastExponent r.value ≤ exponent
  · left
    obtain ⟨shift, rfl⟩ := Int.le.dest aligned
    rw [zpow_add₀ two_ne_zero, zpow_natCast] at held
    rcases (abs_eq (by positivity)).mp held with rfl | rfl
    · refine ⟨(mantissa * 2 ^ shift : Nat), ?_⟩
      push_cast
      ring
    · refine ⟨-(mantissa * 2 ^ shift : Nat), ?_⟩
      push_cast
      ring
  · right
    refine ⟨by omega, ?_⟩
    have mantissa_lt : (mantissa : ℚ) < 2 ^ (f.fractionBits + 1) := by exact_mod_cast small
    calc y ≤ |y| := le_abs_self y
      _ = mantissa * 2 ^ exponent := held
      _ < 2 ^ (f.fractionBits + 1) * 2 ^ exponent := by gcongr
      _ = 2 ^ f.fractionBits * 2 ^ (exponent + 1) := by
          rw [pow_succ, zpow_add_one₀ two_ne_zero]
          ring
      _ ≤ 2 ^ f.fractionBits * 2 ^ f.lastExponent r.value := by
          gcongr
          · exact one_le_two
          · omega

section Candidate

variable {y : ℚ} {mantissa : Nat} {exponent : Int} (nonzero : r.num ≠ 0) (positive : 0 < r.den)
  (held : |y| = mantissa * 2 ^ exponent) (small : mantissa < 2 ^ (f.fractionBits + 1))
  (deep : f.minExponent ≤ exponent)

include nonzero positive held small deep

/-- Nothing that the format holds is nearer than the rounded ratio. What is as near lies at the
other end of one digit, in the middle of which the ratio is. -/
theorem rounded_nearest :
    |r.value - f.rounded r| ≤ |r.value - y| ∧
      (y ≠ f.rounded r → |r.value - y| = |r.value - f.rounded r| → f.kept r % 2 = 0) := by
  have digit : (0 : ℚ) < 2 ^ f.lastExponent r.value := by positivity
  have nearest := nearestEven_kept (f := f) positive
  rcases multiple_or_lt (r := r) held small deep with ⟨k, rfl⟩ | ⟨normal, less⟩
  · rw [rounded, abs_value_sub_mul, abs_value_sub_mul]
    refine ⟨mul_le_mul_of_nonneg_right (nearest.le k) digit.le, fun apart tie => ?_⟩
    have tie := mul_right_cancel₀ digit.ne' tie
    have other : k ≠ f.kept r := by
      rintro rfl
      exact apart (by rw [Int.cast_natCast])
    exact nearest.even (le_antisymm nearest.near (tie ▸ nearest.other other))
  · have least := le_div_lastExponent (Ratio.value_pos nonzero positive) normal
    have bottom := nearest.le (2 ^ f.fractionBits : Nat)
    rw [Int.cast_natCast, Nat.cast_pow, Nat.cast_ofNat, abs_of_nonneg (sub_nonneg.mpr least)] at bottom
    have strict : |r.value - f.rounded r| < |r.value - y| := by
      calc |r.value - f.rounded r|
          = |r.value / 2 ^ f.lastExponent r.value - f.kept r| * 2 ^ f.lastExponent r.value := by
            rw [rounded, abs_value_sub_mul]
        _ ≤ (r.value / 2 ^ f.lastExponent r.value - 2 ^ f.fractionBits) *
              2 ^ f.lastExponent r.value := by gcongr
        _ = r.value - 2 ^ f.fractionBits * 2 ^ f.lastExponent r.value := by
            rw [sub_mul, div_mul_cancel₀ _ digit.ne']
        _ < r.value - y := by linarith
        _ ≤ |r.value - y| := le_abs_self _
    exact ⟨strict.le, fun _ tie => absurd tie strict.ne'⟩

end Candidate

/-- Zero is held as well, so that rounding at most doubles a ratio. -/
theorem rounded_le_two_mul (nonzero : r.num ≠ 0) (positive : 0 < r.den) :
    f.rounded r ≤ 2 * r.value := by
  have bottom := (@rounded_nearest f r 0 0 f.minExponent nonzero positive (by simp)
    (Nat.two_pow_pos _) le_rfl).1
  rw [sub_zero, abs_of_pos (Ratio.value_pos nonzero positive), abs_sub_comm] at bottom
  linarith [le_abs_self (f.rounded r - r.value)]

end Format

end Binary

theorem abs_sub_eq_natAbs_sub (n : Int) (z : ℚ) :
    |(n : ℚ) - z| = |(n.natAbs : ℚ) - if n < 0 then -z else z| := by
  rw [Nat.cast_natAbs, Int.cast_abs]
  split
  case isTrue negative =>
    rw [abs_of_neg (Int.cast_lt_zero.mpr negative), neg_sub_neg, abs_sub_comm]
  case isFalse positive =>
    rw [abs_of_nonneg (Int.cast_nonneg (Int.not_lt.mp positive))]

namespace Single

theorem toNat_ofInt (n : Int) : (ofInt n).bits.toNat = Binary.single.ofInt n :=
  Nat.mod_eq_of_lt (Binary.single.ofRatio_lt _ _)

theorem cases_of_holds {x : Single} {negative : Bool} {magnitude : ℚ}
    (held : Binary.single.Holds x.bits.toNat negative magnitude) :
    x.isNegative = negative ∧ (x.IsFinite ∧ x.magnitude = magnitude ∨
      x.IsInfinite ∧ (Binary.single.limit : ℚ) ≤ magnitude) := by
  obtain ⟨mantissa, exponent, unpacked, rfl⟩ | ⟨unpacked, beyond⟩ := held
  · rcases x.isFinite_or with finite | infinite | nan
    · obtain ⟨m, e, same, value⟩ := unpack_of_isFinite finite
      cases unpacked.symm.trans same
      exact ⟨rfl, Or.inl ⟨finite, value.symm⟩⟩
    · cases unpacked.symm.trans (unpack_of_isInfinite infinite)
    · cases unpacked.symm.trans (unpack_of_isNaN nan)
  · rcases x.isFinite_or with finite | infinite | nan
    · obtain ⟨m, e, same, -⟩ := unpack_of_isFinite finite
      cases unpacked.symm.trans same
    · cases unpacked.symm.trans (unpack_of_isInfinite infinite)
      exact ⟨rfl, Or.inr ⟨infinite, beyond⟩⟩
    · cases unpacked.symm.trans (unpack_of_isNaN nan)

theorem abs_value (x : Single) : |x.value| = x.magnitude := by
  have nonneg : 0 ≤ x.magnitude := by
    unfold magnitude
    split <;> positivity
  unfold value
  split
  · rw [abs_neg, abs_of_nonneg nonneg]
  · rw [abs_of_nonneg nonneg]

/-- The finite single nearest to an integer. Of two that are as near it is the one with the even
fraction, and the zero of an integer has no sign. -/
structure Nearest (n : Int) (x : Single) : Prop where
  finite : x.IsFinite
  sign : x.isNegative = decide (n < 0)
  near : ∀ y : Single, y.IsFinite → |(n : ℚ) - x.value| ≤ |(n : ℚ) - y.value|
  even : ∀ y : Single, y.IsFinite → y.value ≠ x.value →
    |(n : ℚ) - y.value| = |(n : ℚ) - x.value| → x.fractionField % 2 = 0

/-- The last bit of a pattern is the last digit that is kept. -/
theorem fractionField_ofInt_even {n : Int} (nonzero : n.natAbs ≠ 0)
    (even : Binary.single.kept ⟨n.natAbs, 1⟩ % 2 = 0) : (ofInt n).fractionField % 2 = 0 := by
  have sign : Binary.single.signOf (n < 0) % 2 = 0 := by
    cases decide (n < 0) <;> rfl
  have infinity : Binary.single.infinity % 2 = 0 := rfl
  have bits : (ofInt n).bits.toNat % 2 = 0 := by
    rw [toNat_ofInt, Binary.Format.ofInt, Binary.Format.ofRatio_eq nonzero Nat.one_pos]
    change (_ + min (_ * 2 ^ 23 + _) _) % 2 = 0
    omega
  unfold fractionField
  omega

theorem cases_ofInt {n : Int} (nonzero : n.natAbs ≠ 0)
    (bound : 2 * n.natAbs < Binary.single.limit) :
    (ofInt n).IsFinite ∧ (ofInt n).isNegative = decide (n < 0) ∧
      (ofInt n).magnitude = Binary.single.rounded ⟨n.natAbs, 1⟩ := by
  have held := @Binary.Format.holds_rounded Binary.single (by decide) ⟨n.natAbs, 1⟩ nonzero
    Nat.one_pos (n < 0)
  rw [← Binary.Format.ofInt, ← toNat_ofInt] at held
  obtain ⟨sign, ⟨finite, magnitude⟩ | ⟨-, beyond⟩⟩ := cases_of_holds held
  · exact ⟨finite, sign, magnitude⟩
  · have doubled := @Binary.Format.rounded_le_two_mul Binary.single ⟨n.natAbs, 1⟩ nonzero Nat.one_pos
    have limit : 2 * (n.natAbs : ℚ) < Binary.single.limit := by exact_mod_cast bound
    rw [Binary.Ratio.value, Nat.cast_one, div_one] at doubled
    linarith

theorem nearest_zero : Nearest 0 ⟨0⟩ := by
  have same : Single.value ⟨0⟩ = 0 := by
    simp [value, magnitude, isNegative, exponentField, fractionField]
  refine ⟨by simp [IsFinite, exponentField], rfl, fun y _ => ?_, fun _ _ _ _ => rfl⟩
  rw [same, Int.cast_zero, sub_zero, abs_zero]
  exact abs_nonneg _

theorem nearest_ofInt {n : Int} (bound : 2 * n.natAbs < Binary.single.limit) :
    Nearest n (ofInt n) := by
  by_cases zero : n = 0
  · subst zero
    exact nearest_zero
  have nonzero : n.natAbs ≠ 0 := Int.natAbs_ne_zero.mpr zero
  obtain ⟨finite, sign, magnitude⟩ := cases_ofInt nonzero bound
  have here : (if n < 0 then -(ofInt n).value else (ofInt n).value) =
      Binary.single.rounded ⟨n.natAbs, 1⟩ := by
    rw [value, sign, ← magnitude]
    simp only [decide_eq_true_eq]
    split <;> simp
  -- every finite single, with the sign of the integer taken away, is held by the format
  have nearest (y : Single) (other : y.IsFinite) :
      |(n : ℚ) - (ofInt n).value| ≤ |(n : ℚ) - y.value| ∧
        ((if n < 0 then -y.value else y.value) ≠ Binary.single.rounded ⟨n.natAbs, 1⟩ →
          |(n : ℚ) - y.value| = |(n : ℚ) - (ofInt n).value| →
            Binary.single.kept ⟨n.natAbs, 1⟩ % 2 = 0) := by
    obtain ⟨mantissa, exponent, unpacked, same⟩ := unpack_of_isFinite other
    obtain ⟨small, deep⟩ := Binary.Format.bounds_of_unpack unpacked
    have held : |if n < 0 then -y.value else y.value| = mantissa * 2 ^ exponent := by
      rw [same, ← abs_value]
      split
      · exact abs_neg _
      · rfl
    have rounded := @Binary.Format.rounded_nearest Binary.single ⟨n.natAbs, 1⟩ _ _ _ nonzero
      Nat.one_pos held small deep
    rwa [Binary.Ratio.value, Nat.cast_one, div_one, ← abs_sub_eq_natAbs_sub, ← here,
      ← abs_sub_eq_natAbs_sub, here] at rounded
  refine ⟨finite, sign, fun y other => (nearest y other).1, fun y other apart tie => ?_⟩
  refine fractionField_ofInt_even nonzero ((nearest y other).2 (fun same => apart ?_) tie)
  rw [← here] at same
  split at same
  · exact neg_inj.mp same
  · exact same

theorem nearest_of_int32 (v : Int32) : Nearest v.toInt (ofInt v.toInt) := by
  apply nearest_ofInt
  have low := v.le_toInt
  have high := v.toInt_lt
  have limit : 2 ^ 33 ≤ Binary.single.limit := Nat.pow_le_pow_right two_pos (by decide)
  omega

end Single

end VectorMemory
