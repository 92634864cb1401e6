import VectorMemory.Binary.Format

/-! The shortest decimal that reads back as a given value. The reals that round
to `mantissa * 2 ^ exponent` form an interval; of the decimals in it with the
fewest digits the nearest one is taken, and of two equally near ones the even
one. -/
namespace VectorMemory.Binary

structure Decimal where
  digits : Nat
  exponent : Int
deriving DecidableEq, Repr

def digitCount (n : Nat) : Nat :=
  (Nat.toDigits 10 n).length

def Ratio.log10 (r : Ratio) : Int :=
  if r.den ≤ r.num then (digitCount (r.num / r.den) : Int) - 1
  else -(digitCount ((r.den + r.num - 1) / r.num - 1) : Int)

/-- A value in quarters of its last place, with the ends of its interval. -/
structure Rounding where
  low : Nat
  value : Nat
  high : Nat
  closed : Bool
  exponent : Int

/-- Below a power of two the neighbouring values are half as far apart. -/
def Rounding.of (f : Format) (mantissa : Nat) (exponent : Int) : Rounding :=
  let narrow := mantissa = Nat.pow 2 f.fractionBits ∧ f.minExponent < exponent
  ⟨4 * mantissa - (if narrow then 1 else 2), 4 * mantissa, 4 * mantissa + 2,
    mantissa % 2 = 0, exponent - 2⟩

namespace Rounding

/-- The unit of `value` and the unit `10 ^ power` of a decimal grid, brought to
one common measure. -/
def units (r : Rounding) (power : Int) : Nat × Nat :=
  (Nat.pow 2 r.exponent.toNat * Nat.pow 10 (-power).toNat,
    Nat.pow 10 power.toNat * Nat.pow 2 (-r.exponent).toNat)

def admits (r : Rounding) (power : Int) (point : Nat) : Bool :=
  let (unit, step) := r.units power
  let x := point * step
  if r.closed then r.low * unit ≤ x && x ≤ r.high * unit
  else r.low * unit < x && x < r.high * unit

/-- The better of the two grid points around the value, if one of them rounds to it. -/
def onGrid (r : Rounding) (power : Int) : Option Nat :=
  let (unit, step) := r.units power
  let below := r.value * unit / step
  let above := below + 1
  let short := r.value * unit - below * step
  let beyond := above * step - r.value * unit
  match r.admits power below, r.admits power above with
  | true, true =>
      some (if short < beyond ∨ (short = beyond ∧ below % 2 = 0) then below else above)
  | true, false => some below
  | false, true => some above
  | false, false => none

/-- Search grids of `count`, `count + 1`, … digits, `fuel` of them. -/
def search (r : Rounding) (top : Int) : Nat → Nat → Decimal
  | 0, _ => ⟨0, 0⟩
  | fuel + 1, count =>
      let power := top - count + 1
      match r.onGrid power with
      | some point => ⟨point, power⟩
      | none => r.search top fuel (count + 1)

end Rounding

def Decimal.trim : Nat → Decimal → Decimal
  | 0, d => d
  | fuel + 1, d =>
      if d.digits ≠ 0 ∧ d.digits % 10 = 0 then
        Decimal.trim fuel ⟨d.digits / 10, d.exponent + 1⟩
      else d

/-- The shortest decimal of a positive finite datum. Seventeen digits are enough
for every value of the 64-bit format. -/
def shortest (f : Format) (mantissa : Nat) (exponent : Int) : Decimal :=
  let top := (dyadic mantissa exponent).log10
  Decimal.trim 20 ((Rounding.of f mantissa exponent).search top 20 1)

end VectorMemory.Binary
