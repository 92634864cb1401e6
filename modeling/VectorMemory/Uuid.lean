/-! Universally unique identifiers and their text forms. -/
namespace VectorMemory

structure Uuid where
  value : BitVec 128
deriving DecidableEq, Repr

namespace Uuid

def hexDigit? (c : Char) : Option Nat :=
  if c.isDigit then some (c.toNat - '0'.toNat)
  else if 'a' ≤ c ∧ c ≤ 'f' then some (c.toNat - 'a'.toNat + 10)
  else if 'A' ≤ c ∧ c ≤ 'F' then some (c.toNat - 'A'.toNat + 10)
  else none

def ofDigits? (digits : List Char) : Option Uuid :=
  if digits.length = 32 then
    (digits.mapM hexDigit?).map fun values =>
      ⟨BitVec.ofNat 128 (values.foldl (fun n d => 16 * n + d) 0)⟩
  else none

def splitHyphens : List Nat → List Char → Option (List Char)
  | [], cs => if cs.isEmpty then some [] else none
  | [length], cs => if cs.length = length then some cs else none
  | length :: rest, cs =>
      match cs.drop length with
      | '-' :: after => (splitHyphens rest after).map (cs.take length ++ ·)
      | _ => none

def groups : List Nat := [8, 4, 4, 4, 12]

def ofHyphenated? (cs : List Char) : Option Uuid :=
  (splitHyphens groups cs).bind ofDigits?

def scheme : List Char := "urn:uuid:".toList

/-- Plain digits, groups of digits between hyphens, and such groups in braces or
behind the name of the scheme. Letters may be of either case throughout. -/
def ofText? (text : String) : Option Uuid :=
  let cs := text.toList
  if cs.length = 32 then ofDigits? cs
  else if cs.length = 36 then ofHyphenated? cs
  else if cs.length = 38 then
    if cs.head? = some '{' ∧ cs.getLast? = some '}' then ofHyphenated? (cs.drop 1).dropLast
    else none
  else if cs.length = 45 then
    if (cs.take scheme.length).map Char.toLower = scheme then
      ofHyphenated? (cs.drop scheme.length)
    else none
  else none

def joinHyphens : List Nat → List Char → List Char
  | [], _ => []
  | [length], cs => cs.take length
  | length :: rest, cs => cs.take length ++ '-' :: joinHyphens rest (cs.drop length)

def text (u : Uuid) : String :=
  String.ofList (joinHyphens groups u.value.toHex.toList)

end Uuid

end VectorMemory
