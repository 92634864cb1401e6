import Mathlib.Algebra.Order.Field.Power
import Mathlib.Algebra.Order.Floor.Semifield
import Mathlib.Data.Int.Log
import Mathlib.Data.Rat.Floor
import Mathlib.Tactic.FieldSimp
import Mathlib.Tactic.Linarith
import VectorMemory.Binary.Format

/-! Floating-point patterns hold dyadic rationals. A ratio is rounded at the last digit that the
format keeps of it. What has few enough binary digits is held exactly: it is not rounded when it
is packed, scaled by a power of two or moved to a wider format. The only thing that can happen to
it is that it grows beyond the format. -/
namespace VectorMemory.Binary

namespace Ratio

def value (r : Ratio) : ℚ :=
  r.num / r.den

def shift (r : Ratio) (power : Int) : Ratio :=
  if 0 ≤ power then ⟨r.num, r.den * 2 ^ power.toNat⟩ else ⟨r.num * 2 ^ (-power).toNat, r.den⟩

theorem value_pos {r : Ratio} (nonzero : r.num ≠ 0) (positive : 0 < r.den) : 0 < r.value :=
  div_pos (Nat.cast_pos.mpr (Nat.pos_of_ne_zero nonzero)) (Nat.cast_pos.mpr positive)

theorem den_shift_pos {r : Ratio} (power : Int) (positive : 0 < r.den) : 0 < (r.shift power).den := by
  unfold shift
  split
  · exact Nat.mul_pos positive (Nat.two_pow_pos _)
  · exact positive

theorem value_shift (r : Ratio) (power : Int) : (r.shift power).value = r.value / 2 ^ power := by
  unfold shift value
  split
  case isTrue up =>
    obtain ⟨n, rfl⟩ := Int.eq_ofNat_of_zero_le up
    simp only [Int.toNat_natCast, Nat.cast_mul, Nat.cast_pow, Nat.cast_ofNat, zpow_natCast]
    rw [div_div]
  case isFalse down =>
    obtain ⟨n, rfl⟩ : ∃ n : Nat, power = -n := ⟨(-power).toNat, by omega⟩
    simp only [neg_neg, Int.toNat_natCast, Nat.cast_mul, Nat.cast_pow, Nat.cast_ofNat, zpow_neg,
      zpow_natCast, div_inv_eq_mul]
    rw [mul_div_right_comm]

theorem one_le_value_iff {r : Ratio} (positive : 0 < r.den) : 1 ≤ r.value ↔ r.den ≤ r.num := by
  rw [value, one_le_div (Nat.cast_pos.mpr positive), Nat.cast_le]

theorem value_bounds {r : Ratio} (nonzero : r.num ≠ 0) (positive : 0 < r.den) :
    (2 : ℚ) ^ ((r.num.log2 : Int) - r.den.log2 - 1) ≤ r.value ∧
      r.value < 2 ^ ((r.num.log2 : Int) - r.den.log2 + 1) := by
  have num_low : (2 : ℚ) ^ (r.num.log2 : Int) ≤ r.num := by
    exact_mod_cast Nat.log2_self_le nonzero
  have num_high : (r.num : ℚ) < 2 ^ ((r.num.log2 : Int) + 1) := by
    exact_mod_cast Nat.lt_log2_self
  have den_low : (2 : ℚ) ^ (r.den.log2 : Int) ≤ r.den := by
    exact_mod_cast Nat.log2_self_le (Nat.ne_of_gt positive)
  have den_high : (r.den : ℚ) < 2 ^ ((r.den.log2 : Int) + 1) := by
    exact_mod_cast Nat.lt_log2_self
  have den_pos : (0 : ℚ) < r.den := Nat.cast_pos.mpr positive
  constructor
  · rw [value, le_div_iff₀ den_pos]
    calc (2 : ℚ) ^ ((r.num.log2 : Int) - r.den.log2 - 1) * r.den
        ≤ 2 ^ ((r.num.log2 : Int) - r.den.log2 - 1) * 2 ^ ((r.den.log2 : Int) + 1) := by gcongr
      _ = 2 ^ (r.num.log2 : Int) := by
          rw [← zpow_add₀ two_ne_zero]
          congr 1
          omega
      _ ≤ r.num := num_low
  · rw [value, div_lt_iff₀ den_pos]
    calc (r.num : ℚ) < 2 ^ ((r.num.log2 : Int) + 1) := num_high
      _ = 2 ^ ((r.num.log2 : Int) - r.den.log2 + 1) * 2 ^ (r.den.log2 : Int) := by
          rw [← zpow_add₀ two_ne_zero]
          congr 1
          omega
      _ ≤ 2 ^ ((r.num.log2 : Int) - r.den.log2 + 1) * r.den := by gcongr

theorem log2_eq_log {r : Ratio} (nonzero : r.num ≠ 0) (positive : 0 < r.den) :
    r.log2 = Int.log 2 r.value := by
  set guess : Int := r.num.log2 - r.den.log2 with guess_eq
  have stands := value_pos nonzero positive
  obtain ⟨low, high⟩ := value_bounds nonzero positive
  have least : guess - 1 ≤ Int.log 2 r.value :=
    (Int.zpow_le_iff_le_log one_lt_two stands).mp low
  have most : Int.log 2 r.value < guess + 1 :=
    (Int.lt_zpow_iff_log_lt one_lt_two stands).mp high
  have reached : (r.shift guess).den ≤ (r.shift guess).num ↔ guess ≤ Int.log 2 r.value := by
    rw [← Int.zpow_le_iff_le_log one_lt_two stands, ← one_le_value_iff (den_shift_pos guess positive),
      value_shift, one_le_div (by positivity), Nat.cast_ofNat]
  have unfolded : r.log2 = if (r.shift guess).den ≤ (r.shift guess).num then guess else guess - 1 := by
    unfold log2 shift
    by_cases up : 0 ≤ guess
    · simp [← guess_eq, up]
    · simp [← guess_eq, up]
  rw [unfolded]
  split <;> omega

end Ratio

theorem den_dyadic_pos (mantissa : Nat) (exponent : Int) : 0 < (dyadic mantissa exponent).den := by
  unfold dyadic
  split
  · exact Nat.one_pos
  · exact Nat.two_pow_pos _

theorem num_dyadic_eq_zero {mantissa : Nat} {exponent : Int} :
    (dyadic mantissa exponent).num = 0 ↔ mantissa = 0 := by
  unfold dyadic
  split <;> simp

theorem value_dyadic (mantissa : Nat) (exponent : Int) :
    (dyadic mantissa exponent).value = mantissa * 2 ^ exponent := by
  unfold dyadic Ratio.value
  split
  case isTrue up =>
    obtain ⟨n, rfl⟩ := Int.eq_ofNat_of_zero_le up
    simp
  case isFalse down =>
    obtain ⟨n, rfl⟩ : ∃ n : Nat, exponent = -n := ⟨(-exponent).toNat, by omega⟩
    simp [div_eq_mul_inv]

theorem le_divToEven {r : Ratio} {n : Nat} (positive : 0 < r.den) (reached : (n : ℚ) ≤ r.value) :
    n ≤ divToEven r.num r.den := by
  rw [Ratio.value, le_div_iff₀ (Nat.cast_pos.mpr positive)] at reached
  have quotient : n ≤ r.num / r.den := (Nat.le_div_iff_mul_le positive).mpr (by exact_mod_cast reached)
  simp only [divToEven]
  split <;> omega

theorem divToEven_le {r : Ratio} {n : Nat} (positive : 0 < r.den) (below : r.value ≤ n) :
    divToEven r.num r.den ≤ n := by
  rw [Ratio.value, div_le_iff₀ (Nat.cast_pos.mpr positive)] at below
  have product : r.num ≤ n * r.den := by exact_mod_cast below
  have quotient : r.num / r.den ≤ n := Nat.div_le_of_le_mul (by rwa [Nat.mul_comm])
  have whole := Nat.div_add_mod r.num r.den
  simp only [divToEven]
  split
  case isTrue up =>
    -- there is something to round, so the quotient is below the bound
    have apart : r.num / r.den ≠ n := by
      intro same
      rw [same, Nat.mul_comm] at whole
      omega
    omega
  case isFalse => exact quotient

theorem divToEven_of_value {r : Ratio} {n : Nat} (positive : 0 < r.den) (whole : r.value = n) :
    divToEven r.num r.den = n :=
  le_antisymm (divToEven_le positive whole.le) (le_divToEven positive whole.ge)

theorem roundHalfUp_eq_floor (mantissa : Nat) (exponent : Int) :
    roundHalfUp mantissa exponent = ⌊(mantissa : ℚ) * 2 ^ exponent + 1 / 2⌋₊ := by
  have den_pos : ((dyadic mantissa exponent).den : ℚ) ≠ 0 :=
    Nat.cast_ne_zero.mpr (Nat.ne_of_gt (den_dyadic_pos mantissa exponent))
  have halved (r : Ratio) (nonzero : (r.den : ℚ) ≠ 0) :
      r.value + 1 / 2 = ((2 * r.num + r.den : Nat) : ℚ) / (2 * r.den : Nat) := by
    rw [Ratio.value]
    push_cast
    field_simp
  rw [← value_dyadic, halved _ den_pos, Nat.floor_div_eq_div]
  rfl

namespace Format

variable {f : Format} {negative : Bool}

def limit (f : Format) : Nat :=
  2 ^ 2 ^ (f.exponentBits - 1)

/-- The pattern is that of a number with this sign and magnitude, or the magnitude is beyond the
format and the pattern is the infinity of that sign. -/
def Holds (f : Format) (bits : Nat) (negative : Bool) (magnitude : ℚ) : Prop :=
  (∃ mantissa exponent, f.unpack bits = .finite negative mantissa exponent ∧
    (mantissa : ℚ) * 2 ^ exponent = magnitude) ∨
  (f.unpack bits = .infinite negative ∧ (f.limit : ℚ) ≤ magnitude)

theorem infinity_lt_signBit (f : Format) : f.infinity < f.signBit := by
  have field_pos : 0 < 2 ^ f.exponentBits := Nat.two_pow_pos _
  rw [infinity, signBit, Nat.add_comm, Nat.pow_eq, Nat.pow_eq, Nat.pow_eq, pow_add]
  apply Nat.mul_lt_mul_of_pos_right _ (Nat.two_pow_pos _)
  omega

theorem sign_signOf_add {magnitude : Nat} (small : magnitude < f.signBit) (negative : Bool) :
    decide (f.signBit ≤ f.signOf negative + magnitude) = negative ∧
      (f.signOf negative + magnitude) % f.signBit = magnitude := by
  cases negative
  · simp [signOf, Nat.mod_eq_of_lt small, small]
  · simp [signOf, Nat.mod_eq_of_lt small]

theorem unpack_infinity (f : Format) (negative : Bool) :
    f.unpack (f.signOf negative + f.infinity) = .infinite negative := by
  obtain ⟨sign, magnitude⟩ := sign_signOf_add f.infinity_lt_signBit negative
  simp [unpack, sign, magnitude]

theorem unpack_of_lt_infinity {magnitude : Nat} (below : magnitude < f.infinity) (negative : Bool) :
    f.unpack (f.signOf negative + magnitude) =
      if magnitude / 2 ^ f.fractionBits = 0 then
        .finite negative (magnitude % 2 ^ f.fractionBits) f.minExponent
      else
        .finite negative (2 ^ f.fractionBits + magnitude % 2 ^ f.fractionBits)
          (f.minExponent + (magnitude / 2 ^ f.fractionBits - 1 : Nat)) := by
  obtain ⟨sign, reduced⟩ := sign_signOf_add (below.trans f.infinity_lt_signBit) negative
  simp only [unpack, sign, reduced, Nat.pow_eq, if_neg below.not_gt, if_neg below.ne]

theorem bounds_of_unpack {bits mantissa : Nat} {exponent : Int}
    (unpacked : f.unpack bits = .finite negative mantissa exponent) :
    mantissa < 2 ^ (f.fractionBits + 1) ∧ f.minExponent ≤ exponent := by
  have fraction_lt := Nat.mod_lt (bits % f.signBit) (Nat.two_pow_pos f.fractionBits)
  simp only [unpack, Nat.pow_eq] at unpacked
  split_ifs at unpacked
  · cases unpacked
    exact ⟨by rw [pow_succ]; omega, le_rfl⟩
  · cases unpacked
    exact ⟨by rw [pow_succ]; omega, by omega⟩

theorem fractionBits_add_minExponent (f : Format) (wide : 2 ≤ f.exponentBits) :
    f.fractionBits + f.minExponent + 2 ^ f.exponentBits - 2 = 2 ^ (f.exponentBits - 1) := by
  have halves : (2 : Int) ^ f.exponentBits = 2 * 2 ^ (f.exponentBits - 1) := by
    rw [← pow_succ', Nat.sub_add_cancel (by omega)]
  rw [minExponent, halves, Nat.pow_eq]
  push_cast
  ring

theorem limit_le (wide : 2 ≤ f.exponentBits) {mantissa offset : Nat}
    (normal : 2 ^ f.fractionBits ≤ mantissa) (beyond : 2 ^ f.exponentBits ≤ offset + 2) :
    (f.limit : ℚ) ≤ mantissa * 2 ^ (f.minExponent + offset) := by
  have top := f.fractionBits_add_minExponent wide
  have reached : (2 : Int) ^ f.exponentBits ≤ offset + 2 := by exact_mod_cast beyond
  calc (f.limit : ℚ) = 2 ^ ((2 ^ (f.exponentBits - 1) : Nat) : Int) := by
        rw [limit, zpow_natCast, Nat.cast_pow, Nat.cast_ofNat]
    _ ≤ 2 ^ ((f.fractionBits : Int) + (f.minExponent + offset)) := by
        apply zpow_le_zpow_right₀ one_le_two
        push_cast
        omega
    _ = 2 ^ f.fractionBits * 2 ^ (f.minExponent + offset) := by
        rw [zpow_add₀ two_ne_zero, zpow_natCast]
    _ ≤ mantissa * 2 ^ (f.minExponent + offset) := by
        gcongr
        exact_mod_cast normal

theorem unpack_pack {mantissa offset : Nat} (small : mantissa < 2 ^ (f.fractionBits + 1))
    (normal : offset = 0 ∨ 2 ^ f.fractionBits ≤ mantissa)
    (below : offset * 2 ^ f.fractionBits + mantissa < f.infinity) (negative : Bool) :
    f.unpack (f.signOf negative + (offset * 2 ^ f.fractionBits + mantissa)) =
      .finite negative mantissa (f.minExponent + offset) := by
  have total : offset * 2 ^ f.fractionBits + mantissa = mantissa + 2 ^ f.fractionBits * offset := by ring
  have unpacked := unpack_of_lt_infinity below negative
  rw [total, Nat.add_mul_div_left _ _ (Nat.two_pow_pos _), Nat.add_mul_mod_self_left] at unpacked
  rw [total, unpacked]
  by_cases subnormal : mantissa < 2 ^ f.fractionBits
  · rw [normal.resolve_right (Nat.not_le.mpr subnormal), Nat.div_eq_of_lt subnormal,
      Nat.mod_eq_of_lt subnormal, if_pos rfl, Nat.cast_zero, add_zero]
  · rw [pow_succ] at small
    have digit : mantissa / 2 ^ f.fractionBits = 1 := Nat.div_eq_of_lt_le (by omega) (by omega)
    have whole := Nat.div_add_mod mantissa (2 ^ f.fractionBits)
    rw [digit, Nat.mul_one] at whole
    rw [digit, whole, if_neg (by omega), Nat.add_sub_cancel_left]

theorem holds_pack (wide : 2 ≤ f.exponentBits) {mantissa offset : Nat}
    (small : mantissa < 2 ^ (f.fractionBits + 1))
    (normal : offset = 0 ∨ 2 ^ f.fractionBits ≤ mantissa) (negative : Bool) :
    f.Holds (f.signOf negative + min (offset * 2 ^ f.fractionBits + mantissa) f.infinity) negative
      (mantissa * 2 ^ (f.minExponent + offset)) := by
  by_cases below : offset * 2 ^ f.fractionBits + mantissa < f.infinity
  case pos =>
    rw [min_eq_left below.le]
    exact Or.inl ⟨_, _, unpack_pack small normal below negative, rfl⟩
  case neg =>
    rw [Nat.not_lt] at below
    rw [min_eq_right below]
    have field : 2 ^ f.exponentBits ≤ offset + 2 := by
      have strict : (2 ^ f.exponentBits - 1) * 2 ^ f.fractionBits <
          (offset + 2) * 2 ^ f.fractionBits := by
        rw [infinity, Nat.pow_eq, Nat.pow_eq] at below
        rw [pow_succ] at small
        linarith
      have := Nat.lt_of_mul_lt_mul_right strict
      omega
    -- the offset is positive, since an exponent field has at least two digits
    have four : 2 ^ 2 ≤ 2 ^ f.exponentBits := Nat.pow_le_pow_right two_pos wide
    exact Or.inr ⟨f.unpack_infinity negative, limit_le wide (normal.resolve_left (by omega)) field⟩

/-- A mantissa that was rounded up to a power of two is the least one of the next exponent. -/
theorem holds_pack_carry (wide : 2 ≤ f.exponentBits) {mantissa offset : Nat}
    (small : mantissa ≤ 2 ^ (f.fractionBits + 1))
    (normal : offset = 0 ∨ 2 ^ f.fractionBits ≤ mantissa) (negative : Bool) :
    f.Holds (f.signOf negative + min (offset * 2 ^ f.fractionBits + mantissa) f.infinity) negative
      (mantissa * 2 ^ (f.minExponent + offset)) := by
  rcases Nat.lt_or_eq_of_le small with less | rfl
  · exact holds_pack wide less normal negative
  · have held := @holds_pack f wide (2 ^ f.fractionBits) (offset + 1)
      (Nat.pow_lt_pow_right one_lt_two (Nat.lt_succ_self _)) (Or.inr le_rfl) negative
    have bits : (offset + 1) * 2 ^ f.fractionBits + 2 ^ f.fractionBits =
        offset * 2 ^ f.fractionBits + 2 ^ (f.fractionBits + 1) := by ring
    have value : ((2 ^ f.fractionBits : Nat) : ℚ) * 2 ^ (f.minExponent + (offset + 1 : Nat)) =
        (2 ^ (f.fractionBits + 1) : Nat) * 2 ^ (f.minExponent + offset) := by
      push_cast
      rw [← add_assoc, zpow_add_one₀ two_ne_zero]
      ring
    rwa [bits, value] at held

/-- The exponent of the last digit that the format keeps of a magnitude. -/
def lastExponent (f : Format) (magnitude : ℚ) : Int :=
  max f.minExponent (Int.log 2 magnitude - f.fractionBits)

theorem div_lastExponent_lt (f : Format) (magnitude : ℚ) :
    magnitude / 2 ^ f.lastExponent magnitude < 2 ^ (f.fractionBits + 1) := by
  rw [div_lt_iff₀ (by positivity), ← zpow_natCast, ← zpow_add₀ two_ne_zero]
  calc magnitude < ((2 : Nat) : ℚ) ^ (Int.log 2 magnitude + 1) :=
        Int.lt_zpow_succ_log_self one_lt_two magnitude
    _ ≤ 2 ^ (((f.fractionBits + 1 : Nat) : Int) + f.lastExponent magnitude) := by
        rw [Nat.cast_ofNat]
        apply zpow_le_zpow_right₀ one_le_two
        unfold lastExponent
        omega

theorem le_div_lastExponent {magnitude : ℚ} (positive : 0 < magnitude)
    (normal : f.lastExponent magnitude ≠ f.minExponent) :
    2 ^ f.fractionBits ≤ magnitude / 2 ^ f.lastExponent magnitude := by
  have exponent_eq : f.fractionBits + f.lastExponent magnitude = Int.log 2 magnitude := by
    unfold lastExponent at normal ⊢
    omega
  rw [le_div_iff₀ (by positivity), ← zpow_natCast, ← zpow_add₀ two_ne_zero, exponent_eq]
  exact_mod_cast Int.zpow_log_le_self one_lt_two positive

def kept (f : Format) (r : Ratio) : Nat :=
  let shifted := r.shift (f.lastExponent r.value)
  divToEven shifted.num shifted.den

def rounded (f : Format) (r : Ratio) : ℚ :=
  f.kept r * 2 ^ f.lastExponent r.value

theorem ofRatio_eq {r : Ratio} (nonzero : r.num ≠ 0) (positive : 0 < r.den) (negative : Bool) :
    f.ofRatio negative r = f.signOf negative +
      min ((f.lastExponent r.value - f.minExponent).toNat * 2 ^ f.fractionBits + f.kept r)
        f.infinity := by
  rw [ofRatio, if_neg nonzero, Ratio.log2_eq_log nonzero positive]
  change _ + min (_ + if 0 ≤ f.lastExponent r.value then _ else _) _ = _
  by_cases up : 0 ≤ f.lastExponent r.value
  · simp only [kept, Ratio.shift, if_pos up]
    rfl
  · simp only [kept, Ratio.shift, if_neg up]
    rfl

theorem holds_rounded (wide : 2 ≤ f.exponentBits) {r : Ratio} (nonzero : r.num ≠ 0)
    (positive : 0 < r.den) (negative : Bool) :
    f.Holds (f.ofRatio negative r) negative (f.rounded r) := by
  have shifted := r.value_shift (f.lastExponent r.value)
  have den_pos := Ratio.den_shift_pos (f.lastExponent r.value) positive
  have offset : f.minExponent + (f.lastExponent r.value - f.minExponent).toNat =
      f.lastExponent r.value := by
    unfold lastExponent
    omega
  have small : f.kept r ≤ 2 ^ (f.fractionBits + 1) := by
    apply divToEven_le den_pos
    rw [shifted]
    exact_mod_cast (f.div_lastExponent_lt r.value).le
  have normal : (f.lastExponent r.value - f.minExponent).toNat = 0 ∨
      2 ^ f.fractionBits ≤ f.kept r := by
    by_cases least : f.lastExponent r.value = f.minExponent
    · exact Or.inl (by omega)
    · right
      apply le_divToEven den_pos
      rw [shifted]
      exact_mod_cast le_div_lastExponent (Ratio.value_pos nonzero positive) least
  have held := holds_pack_carry wide small normal negative
  rw [offset] at held
  rw [ofRatio_eq nonzero positive]
  exact held

/-- A ratio that ends at the last digit the format keeps of it is not rounded. -/
theorem holds_ofRatio (wide : 2 ≤ f.exponentBits) {r : Ratio} (nonzero : r.num ≠ 0)
    (positive : 0 < r.den) {mantissa : Nat}
    (whole : r.value / 2 ^ f.lastExponent r.value = mantissa) (negative : Bool) :
    f.Holds (f.ofRatio negative r) negative r.value := by
  have exact : f.rounded r = r.value := by
    rw [rounded, kept, divToEven_of_value (Ratio.den_shift_pos _ positive)
      ((r.value_shift _).trans whole), ← whole, div_mul_cancel₀ _ (by positivity)]
  rw [← exact]
  exact holds_rounded wide nonzero positive negative

theorem lastExponent_le {mantissa : Nat} {exponent : Int} (nonzero : mantissa ≠ 0)
    (small : mantissa < 2 ^ (f.fractionBits + 1)) (deep : f.minExponent ≤ exponent) :
    f.lastExponent (mantissa * 2 ^ exponent) ≤ exponent := by
  have log_lt : Int.log 2 ((mantissa : ℚ) * 2 ^ exponent) <
      (f.fractionBits + 1 : Nat) + exponent := by
    rw [← Int.lt_zpow_iff_log_lt one_lt_two (by positivity), Nat.cast_ofNat,
      zpow_add₀ two_ne_zero, zpow_natCast]
    gcongr
    exact_mod_cast small
  unfold lastExponent
  omega

theorem holds_ofDyadic (wide : 2 ≤ f.exponentBits) {mantissa : Nat} {exponent : Int}
    (small : mantissa < 2 ^ (f.fractionBits + 1)) (deep : f.minExponent ≤ exponent)
    (negative : Bool) :
    f.Holds (f.ofDyadic negative mantissa exponent) negative (mantissa * 2 ^ exponent) := by
  by_cases zero : mantissa = 0
  case pos =>
    subst zero
    rw [ofDyadic, ofRatio, if_pos (num_dyadic_eq_zero.mpr rfl)]
    simpa using holds_pack wide small (Or.inl rfl) negative
  case neg =>
    rw [← value_dyadic]
    obtain ⟨shift, exponent_eq⟩ := Int.le.dest (lastExponent_le zero small deep)
    apply holds_ofRatio wide (num_dyadic_eq_zero.not.mpr zero) (den_dyadic_pos _ _) _ negative
    · exact mantissa * 2 ^ shift
    rw [value_dyadic, div_eq_iff (by positivity), Nat.cast_mul, Nat.cast_pow, Nat.cast_ofNat, mul_assoc,
      ← zpow_natCast, ← zpow_add₀ two_ne_zero, Int.add_comm, exponent_eq]

/-- A magnitude with more digits than the format keeps still has more after rounding. -/
theorem le_rounded {r : Ratio} (positive : 0 < r.den) (deep : f.minExponent ≤ 0)
    (large : 2 ^ (f.fractionBits + 1) ≤ r.value) : 2 ^ (f.fractionBits + 1) ≤ f.rounded r := by
  have stands : 0 < r.value := lt_of_lt_of_le (by positivity) large
  have log_le : (f.fractionBits + 1 : Nat) ≤ Int.log 2 r.value := by
    rw [← Int.zpow_le_iff_le_log one_lt_two stands]
    exact_mod_cast large
  have last : 1 ≤ f.lastExponent r.value := by
    unfold lastExponent
    omega
  have mantissa : 2 ^ f.fractionBits ≤ f.kept r := by
    apply le_divToEven (Ratio.den_shift_pos _ positive)
    rw [r.value_shift]
    exact_mod_cast le_div_lastExponent stands (by omega)
  calc (2 : ℚ) ^ (f.fractionBits + 1) = (2 ^ f.fractionBits : Nat) * 2 ^ (1 : Int) := by
        rw [pow_succ, zpow_one, Nat.cast_pow, Nat.cast_ofNat]
    _ ≤ f.rounded r := by
        unfold rounded
        gcongr
        exact one_le_two

/-- An integer is held exactly if the format keeps all of its digits, and otherwise as a number
that has more digits than the format keeps. -/
theorem holds_ofInt (wide : 2 ≤ f.exponentBits) (deep : f.minExponent ≤ 0) (n : Int) :
    ∃ magnitude : ℚ, f.Holds (f.ofInt n) (n < 0) magnitude ∧
      (magnitude = n.natAbs ∨
        2 ^ (f.fractionBits + 1) ≤ n.natAbs ∧ 2 ^ (f.fractionBits + 1) ≤ magnitude) := by
  by_cases small : n.natAbs < 2 ^ (f.fractionBits + 1)
  case pos =>
    have held := holds_ofDyadic wide small deep (decide (n < 0))
    have same : dyadic n.natAbs 0 = ⟨n.natAbs, 1⟩ := by simp [dyadic]
    rw [ofDyadic, same, zpow_zero, mul_one] at held
    exact ⟨_, held, Or.inl rfl⟩
  case neg =>
    rw [Nat.not_lt] at small
    have nonzero : n.natAbs ≠ 0 := Nat.ne_of_gt (Nat.lt_of_lt_of_le (Nat.two_pow_pos _) small)
    have value : Ratio.value ⟨n.natAbs, 1⟩ = n.natAbs := by simp [Ratio.value]
    refine ⟨_, holds_rounded wide nonzero Nat.one_pos _, Or.inr ⟨small, ?_⟩⟩
    apply le_rounded Nat.one_pos deep
    rw [value]
    exact_mod_cast small

theorem Holds.scale (wide : 2 ≤ f.exponentBits) {bits : Nat} {magnitude : ℚ}
    (held : f.Holds bits negative magnitude) (power : Nat) :
    f.Holds (f.scale power bits) negative (magnitude * 2 ^ power) := by
  obtain ⟨mantissa, exponent, unpacked, rfl⟩ | ⟨unpacked, beyond⟩ := held
  · obtain ⟨small, deep⟩ := bounds_of_unpack unpacked
    have deeper : f.minExponent ≤ exponent + power := by omega
    have scaled := holds_ofDyadic wide small deeper negative
    rw [zpow_add₀ two_ne_zero, zpow_natCast, ← mul_assoc] at scaled
    simpa only [Format.scale, unpacked] using scaled
  · have grown : magnitude ≤ magnitude * 2 ^ power :=
      le_mul_of_one_le_right ((Nat.cast_nonneg _).trans beyond) (one_le_pow₀ one_le_two)
    simp only [Format.scale, unpacked]
    exact Or.inr ⟨unpacked, beyond.trans grown⟩

theorem holds_convert {source : Format} (wide : 2 ≤ f.exponentBits)
    (digits : source.fractionBits ≤ f.fractionBits) (deep : f.minExponent ≤ source.minExponent)
    {bits mantissa : Nat} {exponent : Int}
    (unpacked : source.unpack bits = .finite negative mantissa exponent) :
    f.Holds (source.convert f bits) negative (mantissa * 2 ^ exponent) := by
  obtain ⟨small, least⟩ := bounds_of_unpack unpacked
  have fits : mantissa < 2 ^ (f.fractionBits + 1) :=
    small.trans_le (Nat.pow_le_pow_right two_pos (by omega))
  simpa only [convert, unpacked] using holds_ofDyadic wide fits (deep.trans least) negative

end Format

end VectorMemory.Binary
