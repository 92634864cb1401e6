import VectorMemory.Word
import VectorMemory.Binary.Shortest
import VectorMemory.Json.Value

/-! Floating-point numbers in documents: reading a literal and writing the
shortest one that reads back. -/
namespace VectorMemory

namespace Numeral

open Binary

/-- Take digits into a significand as long as it stays a word. Returns the
significand and the number of digits taken. -/
def absorb : Nat → List Char → Nat × Nat
  | significand, [] => (significand, 0)
  | significand, c :: rest =>
      let next := 10 * significand + (c.toNat - '0'.toNat)
      if next < Word.limit then
        let (final, taken) := absorb next rest
        (final, taken + 1)
      else (significand, 0)

/-- The significand and the power of ten of a literal. Digits beyond one word
are dropped; those before the point still count as places. -/
def parts (n : Numeral) : Nat × Int :=
  let (significand, taken) := absorb 0 n.whole
  let dropped : Int := n.whole.length - taken
  let (significand, places) := absorb significand (n.fraction.getD [])
  let stated : Int :=
    match n.exponent with
    | none => 0
    | some (.minus, digits) => -(digitsValue digits : Int)
    | some (_, digits) => digitsValue digits
  (significand, dropped - places + stated)

def powerOfTen (k : Nat) : Nat :=
  double.ofRatio false ⟨Nat.pow 10 k, 1⟩

def maxPower : Nat := 308

/-- Significand times power of ten, each step rounded to the 64-bit format. None
if the literal is too large; literals too small are zero. -/
def scaled (significand : Nat) (power : Int) : Option Nat :=
  let base := double.ofInt significand
  if significand = 0 then some base
  else if (maxPower : Int) < power then none
  else if 0 ≤ power then
    let product := double.mul base (powerOfTen power.toNat)
    if product = double.infinity then none else some product
  else
    let down := (-power).toNat
    if down ≤ maxPower then some (double.div base (powerOfTen down))
    else if down ≤ 2 * maxPower then
      some (double.div (double.div base (powerOfTen maxPower)) (powerOfTen (down - maxPower)))
    else some 0

def toWord? (n : Numeral) : Option Int :=
  n.toInt?.filter fun i => (-0x8000000000000000 : Int) ≤ i && i < (Word.limit : Int)

def toDouble? (n : Numeral) : Option Nat :=
  match n.toWord? with
  | some i => some (double.ofInt i)
  | none =>
      let (significand, power) := n.parts
      (scaled significand power).map (double.signOf n.negative + ·)

/-- The 32-bit pattern of a literal. An integer in range is rounded once, any
other literal first to the 64-bit format. -/
def toSingle? (n : Numeral) : Option Nat :=
  match n.toWord? with
  | some i => some (single.ofInt i)
  | none => n.toDouble?.map (double.convert single)

/-- How decimals of a format are written: the positions of the point, counted
from the first digit, between which no exponent is used. -/
structure Layout where
  format : Format
  leastPoint : Int
  greatestPoint : Int

def singleLayout : Layout := ⟨single, -5, 13⟩

def doubleLayout : Layout := ⟨double, -4, 16⟩

/-- Write `digits` with the point after the first `point` of them; at least one
digit stands on each side of it, and an exponent is written with its sign. -/
def Layout.place (layout : Layout) (negative : Bool) (digits : List Char) (point : Int) : Numeral :=
  if layout.leastPoint ≤ point ∧ point ≤ layout.greatestPoint then
    if point ≤ 0 then
      ⟨negative, ['0'], some (List.replicate (-point).toNat '0' ++ digits), none⟩
    else
      let whole := digits.take point.toNat
      let padding := List.replicate (point.toNat - whole.length) '0'
      let fraction := digits.drop point.toNat
      ⟨negative, whole ++ padding, some (if fraction.isEmpty then ['0'] else fraction), none⟩
  else
    let power := point - 1
    let fraction := digits.drop 1
    ⟨negative, digits.take 1, if fraction.isEmpty then none else some fraction,
      some (if power < 0 then .minus else .plus, Nat.toDigits 10 power.natAbs)⟩

def Layout.write? (layout : Layout) (bits : Nat) : Option Numeral :=
  match layout.format.unpack bits with
  | .finite negative mantissa exponent =>
      if mantissa = 0 then some ⟨negative, ['0'], some ['0'], none⟩
      else
        let decimal := shortest layout.format mantissa exponent
        let digits := Nat.toDigits 10 decimal.digits
        some (layout.place negative digits (digits.length + decimal.exponent))
  | _ => none

end Numeral

end VectorMemory
