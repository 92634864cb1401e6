/-! JSON documents as trees. Numbers stay literals, since what a literal denotes
depends on the type that it is read as. -/
namespace VectorMemory

inductive Sign where
  | none
  | plus
  | minus
deriving DecidableEq, Repr

/-- A number literal: its digits, split at the point and at the exponent mark. -/
structure Numeral where
  negative : Bool
  whole : List Char
  fraction : Option (List Char)
  exponent : Option (Sign × List Char)
deriving DecidableEq, Repr

inductive Json where
  | null
  | bool (value : Bool)
  | number (literal : Numeral)
  | string (text : String)
  | array (items : List Json)
  | object (members : List (String × Json))
  /-- A string, or an object with a key, in which a surrogate escape stands
  without its partner. It follows the grammar and may be skipped, but it denotes
  no text and nothing can be read from it. -/
  | unpaired

namespace Numeral

def digitsValue (digits : List Char) : Nat :=
  digits.foldl (fun n c => 10 * n + (c.toNat - '0'.toNat)) 0

def ofNat (n : Nat) : Numeral :=
  ⟨false, Nat.toDigits 10 n, none, none⟩

def ofInt (n : Int) : Numeral :=
  ⟨n < 0, Nat.toDigits 10 n.natAbs, none, none⟩

/-- The integer that a literal without point and exponent denotes. Negative zero
is no integer. -/
def toInt? (n : Numeral) : Option Int :=
  match n.fraction, n.exponent with
  | none, none =>
      let magnitude := digitsValue n.whole
      if n.negative then
        if magnitude = 0 then none else some (-magnitude)
      else some magnitude
  | _, _ => none

end Numeral

end VectorMemory
