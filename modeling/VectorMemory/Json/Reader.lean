import VectorMemory.Json.Value

/-! Reading JSON text. The grammar is strict: one value, and nothing but blanks
around it and between its tokens. -/
namespace VectorMemory

namespace Json

def isBlank (c : Char) : Bool :=
  c = ' ' || c = '\t' || c = '\n' || c = '\r'

def skipBlanks (cs : List Char) : List Char :=
  cs.dropWhile isBlank

/-- A piece of a string literal: a character, or the 16-bit unit of an escape. -/
inductive Piece where
  | plain (c : Char)
  | unit (value : Nat)

def hexValue? (c : Char) : Option Nat :=
  if '0' ≤ c ∧ c ≤ '9' then some (c.toNat - '0'.toNat)
  else if 'a' ≤ c ∧ c ≤ 'f' then some (c.toNat - 'a'.toNat + 10)
  else if 'A' ≤ c ∧ c ≤ 'F' then some (c.toNat - 'A'.toNat + 10)
  else none

def unitValue? (a b c d : Char) : Option Nat := do
  let a ← hexValue? a
  let b ← hexValue? b
  let c ← hexValue? c
  let d ← hexValue? d
  return ((a * 16 + b) * 16 + c) * 16 + d

def unescape? : Char → Option Char
  | '"' => some '"'
  | '\\' => some '\\'
  | '/' => some '/'
  | 'b' => some '\x08'
  | 'f' => some '\x0c'
  | 'n' => some '\n'
  | 'r' => some '\r'
  | 't' => some '\t'
  | _ => none

def readPieces : List Char → Option (List Piece × List Char)
  | [] => none
  | '"' :: rest => some ([], rest)
  | '\\' :: 'u' :: a :: b :: c :: d :: rest => do
      let value ← unitValue? a b c d
      let (pieces, after) ← readPieces rest
      return (.unit value :: pieces, after)
  | '\\' :: c :: rest => do
      let c ← unescape? c
      let (pieces, after) ← readPieces rest
      return (.plain c :: pieces, after)
  | c :: rest =>
      if c = '\\' ∨ c.toNat < 0x20 then none
      else do
        let (pieces, after) ← readPieces rest
        return (.plain c :: pieces, after)

def isHighUnit (unit : Nat) : Bool :=
  0xD800 ≤ unit && unit < 0xDC00

def isLowUnit (unit : Nat) : Bool :=
  0xDC00 ≤ unit && unit < 0xE000

/-- The text of the pieces; none if a surrogate unit has no partner. -/
def assemble : List Piece → Option (List Char)
  | [] => some []
  | .plain c :: rest => (assemble rest).map (c :: ·)
  | .unit unit :: .unit next :: rest =>
      if isHighUnit unit then
        if isLowUnit next then
          (assemble rest).map
            (Char.ofNat (0x10000 + (unit - 0xD800) * 0x400 + (next - 0xDC00)) :: ·)
        else none
      else if isLowUnit unit then none
      else (assemble (.unit next :: rest)).map (Char.ofNat unit :: ·)
  | .unit unit :: rest =>
      if isHighUnit unit ∨ isLowUnit unit then none
      else (assemble rest).map (Char.ofNat unit :: ·)

def readString (cs : List Char) : Option (Option String × List Char) := do
  let (pieces, after) ← readPieces cs
  return ((assemble pieces).map String.ofList, after)

def readDigits (cs : List Char) : Option (List Char × List Char) :=
  match cs.takeWhile Char.isDigit with
  | [] => none
  | digits => some (digits, cs.dropWhile Char.isDigit)

/-- The digits before the point: a zero stands alone. -/
def readWhole : List Char → Option (List Char × List Char)
  | '0' :: rest =>
      match rest with
      | c :: _ => if c.isDigit then none else some (['0'], rest)
      | [] => some (['0'], [])
  | cs => readDigits cs

def readFraction : List Char → Option (Option (List Char) × List Char)
  | '.' :: rest => (readDigits rest).map fun (digits, after) => (some digits, after)
  | cs => some (none, cs)

def readSign : List Char → Sign × List Char
  | '+' :: rest => (.plus, rest)
  | '-' :: rest => (.minus, rest)
  | cs => (.none, cs)

def readExponent : List Char → Option (Option (Sign × List Char) × List Char)
  | c :: rest =>
      if c = 'e' ∨ c = 'E' then
        let (sign, cs) := readSign rest
        (readDigits cs).map fun (digits, after) => (some (sign, digits), after)
      else some (none, c :: rest)
  | [] => some (none, [])

def readMagnitude (negative : Bool) (cs : List Char) : Option (Numeral × List Char) := do
  let (whole, cs) ← readWhole cs
  let (fraction, cs) ← readFraction cs
  let (exponent, cs) ← readExponent cs
  return (⟨negative, whole, fraction, exponent⟩, cs)

def ofMembers (members : List (Option String × Json)) : Json :=
  match members.mapM fun (key, value) => key.map (·, value) with
  | some members => .object members
  | none => .unpaired

mutual

/-- A value at the start of a text, and what follows it. `fuel` bounds the
nesting. -/
def readValue : Nat → List Char → Option (Json × List Char)
  | 0, _ => none
  | fuel + 1, cs =>
      match skipBlanks cs with
      | 'n' :: 'u' :: 'l' :: 'l' :: rest => some (.null, rest)
      | 't' :: 'r' :: 'u' :: 'e' :: rest => some (.bool true, rest)
      | 'f' :: 'a' :: 'l' :: 's' :: 'e' :: rest => some (.bool false, rest)
      | '"' :: rest => do
          let (text, after) ← readString rest
          return (match text with | some t => .string t | none => .unpaired, after)
      | '[' :: rest =>
          match skipBlanks rest with
          | ']' :: after => some (.array [], after)
          | cs => (readItems fuel cs).map fun (items, after) => (.array items, after)
      | '{' :: rest =>
          match skipBlanks rest with
          | '}' :: after => some (.object [], after)
          | cs => (readMembers fuel cs).map fun (members, after) => (ofMembers members, after)
      | '-' :: rest =>
          (readMagnitude true rest).map fun (literal, after) => (.number literal, after)
      | cs => (readMagnitude false cs).map fun (literal, after) => (.number literal, after)

def readItems : Nat → List Char → Option (List Json × List Char)
  | 0, _ => none
  | fuel + 1, cs => do
      let (item, cs) ← readValue fuel cs
      match skipBlanks cs with
      | ',' :: rest =>
          let (items, after) ← readItems fuel rest
          return (item :: items, after)
      | ']' :: after => return ([item], after)
      | _ => none

def readMembers : Nat → List Char → Option (List (Option String × Json) × List Char)
  | 0, _ => none
  | fuel + 1, cs =>
      match skipBlanks cs with
      | '"' :: rest => do
          let (key, cs) ← readString rest
          match skipBlanks cs with
          | ':' :: rest =>
              let (value, cs) ← readValue fuel rest
              match skipBlanks cs with
              | ',' :: rest =>
                  let (members, after) ← readMembers fuel rest
                  return ((key, value) :: members, after)
              | '}' :: after => return ([(key, value)], after)
              | _ => none
          | _ => none
      | _ => none

end

/-- The value that a whole text denotes. Two units of fuel for each character
cover every nesting. -/
def read? (text : String) : Option Json :=
  let cs := text.toList
  match readValue (2 * cs.length + 2) cs with
  | some (value, rest) => if (skipBlanks rest).isEmpty then some value else none
  | none => none

end Json

end VectorMemory
