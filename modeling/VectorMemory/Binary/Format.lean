/-! Binary floating-point formats. A value is a bit pattern: a sign, an exponent
field and a fraction. Every operation is exact on ratios of naturals and then
rounds once, to the nearest value of the format, with a tie going to the even
fraction. -/
namespace VectorMemory.Binary

structure Format where
  fractionBits : Nat
  exponentBits : Nat
deriving DecidableEq, Repr

def single : Format := ⟨23, 8⟩

def double : Format := ⟨52, 11⟩

/-- What a pattern denotes; a finite datum is `mantissa * 2 ^ exponent` with its sign. -/
inductive Datum where
  | nan
  | infinite (negative : Bool)
  | finite (negative : Bool) (mantissa : Nat) (exponent : Int)
deriving DecidableEq, Repr

structure Ratio where
  num : Nat
  den : Nat
deriving DecidableEq, Repr

def dyadic (mantissa : Nat) (exponent : Int) : Ratio :=
  if 0 ≤ exponent then ⟨mantissa * Nat.pow 2 exponent.toNat, 1⟩
  else ⟨mantissa, Nat.pow 2 (-exponent).toNat⟩

/-- Quotient rounded to the nearest integer, ties to even. -/
def divToEven (num den : Nat) : Nat :=
  let quotient := num / den
  let rest := num % den
  if den < 2 * rest ∨ (den = 2 * rest ∧ quotient % 2 = 1) then quotient + 1 else quotient

/-- `mantissa * 2 ^ exponent` rounded to the nearest integer, ties upward. -/
def roundHalfUp (mantissa : Nat) (exponent : Int) : Nat :=
  let r := dyadic mantissa exponent
  (2 * r.num + r.den) / (2 * r.den)

/-- The greatest `k` with `2 ^ k ≤ r`, for a positive ratio. -/
def Ratio.log2 (r : Ratio) : Int :=
  let guess : Int := r.num.log2 - r.den.log2
  let reached :=
    if 0 ≤ guess then r.den * Nat.pow 2 guess.toNat ≤ r.num
    else r.den ≤ r.num * Nat.pow 2 (-guess).toNat
  if reached then guess else guess - 1

namespace Format

/-- The pattern of negative zero. -/
def signBit (f : Format) : Nat :=
  Nat.pow 2 (f.fractionBits + f.exponentBits)

def infinity (f : Format) : Nat :=
  (Nat.pow 2 f.exponentBits - 1) * Nat.pow 2 f.fractionBits

def minExponent (f : Format) : Int :=
  2 - (Nat.pow 2 (f.exponentBits - 1) : Nat) - f.fractionBits

def signOf (f : Format) (negative : Bool) : Nat :=
  if negative then f.signBit else 0

def unpack (f : Format) (bits : Nat) : Datum :=
  let negative : Bool := f.signBit ≤ bits
  let magnitude := bits % f.signBit
  let field := magnitude / Nat.pow 2 f.fractionBits
  let fraction := magnitude % Nat.pow 2 f.fractionBits
  if f.infinity < magnitude then .nan
  else if magnitude = f.infinity then .infinite negative
  else if field = 0 then .finite negative fraction f.minExponent
  else .finite negative (Nat.pow 2 f.fractionBits + fraction) (f.minExponent + (field - 1 : Nat))

/-- The pattern nearest to a ratio; ratios beyond the format become infinite. -/
def ofRatio (f : Format) (negative : Bool) (r : Ratio) : Nat :=
  if r.num = 0 then f.signOf negative
  else
    let exponent := max f.minExponent (r.log2 - f.fractionBits)
    let mantissa :=
      if 0 ≤ exponent then divToEven r.num (r.den * Nat.pow 2 exponent.toNat)
      else divToEven (r.num * Nat.pow 2 (-exponent).toNat) r.den
    let magnitude := (exponent - f.minExponent).toNat * Nat.pow 2 f.fractionBits + mantissa
    f.signOf negative + min magnitude f.infinity

def ofDyadic (f : Format) (negative : Bool) (mantissa : Nat) (exponent : Int) : Nat :=
  f.ofRatio negative (dyadic mantissa exponent)

def ofInt (f : Format) (n : Int) : Nat :=
  f.ofRatio (n < 0) ⟨n.natAbs, 1⟩

def convert (source target : Format) (bits : Nat) : Nat :=
  match source.unpack bits with
  | .nan => target.infinity + Nat.pow 2 (target.fractionBits - 1)
  | .infinite negative => target.signOf negative + target.infinity
  | .finite negative mantissa exponent => target.ofDyadic negative mantissa exponent

def scale (f : Format) (power : Nat) (bits : Nat) : Nat :=
  match f.unpack bits with
  | .finite negative mantissa exponent => f.ofDyadic negative mantissa (exponent + power)
  | _ => bits

/-- The nearest integer, a half going away from zero, clamped to `[least, greatest]`.
A pattern that is no number gives 0. -/
def toInt (f : Format) (least greatest : Int) (bits : Nat) : Int :=
  match f.unpack bits with
  | .nan => 0
  | .infinite negative => if negative then least else greatest
  | .finite negative mantissa exponent =>
      let magnitude : Int := roundHalfUp mantissa exponent
      max least (min greatest (if negative then -magnitude else magnitude))

def magnitude (f : Format) (bits : Nat) : Ratio :=
  match f.unpack bits with
  | .finite _ mantissa exponent => dyadic mantissa exponent
  | _ => ⟨0, 1⟩

def mul (f : Format) (a b : Nat) : Nat :=
  let x := f.magnitude a
  let y := f.magnitude b
  f.ofRatio false ⟨x.num * y.num, x.den * y.den⟩

def div (f : Format) (a b : Nat) : Nat :=
  let x := f.magnitude a
  let y := f.magnitude b
  f.ofRatio false ⟨x.num * y.den, x.den * y.num⟩

end Format

end VectorMemory.Binary
