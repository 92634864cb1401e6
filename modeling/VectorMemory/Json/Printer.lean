import VectorMemory.Json.Value

/-! Compact JSON text: no blanks, members in the order given. -/
namespace VectorMemory

namespace Json

def hexPair (n : Nat) : List Char :=
  [Nat.digitChar (n / 16), Nat.digitChar (n % 16)]

/-- A character inside a string literal. Quotes, backslashes and control
characters are escaped, nothing else is. -/
def escape (c : Char) : List Char :=
  if c = '"' then ['\\', '"']
  else if c = '\\' then ['\\', '\\']
  else if c = '\x08' then ['\\', 'b']
  else if c = '\x0c' then ['\\', 'f']
  else if c = '\n' then ['\\', 'n']
  else if c = '\r' then ['\\', 'r']
  else if c = '\t' then ['\\', 't']
  else if c.toNat < 0x20 then ['\\', 'u', '0', '0'] ++ hexPair c.toNat
  else [c]

def printString (text : String) : List Char :=
  '"' :: (text.toList.flatMap escape ++ ['"'])

def printSign : Sign → List Char
  | .none => []
  | .plus => ['+']
  | .minus => ['-']

def printNumeral (n : Numeral) : List Char :=
  (if n.negative then ['-'] else []) ++ n.whole ++
    (match n.fraction with
      | none => []
      | some digits => '.' :: digits) ++
    (match n.exponent with
      | none => []
      | some (sign, digits) => 'e' :: (printSign sign ++ digits))

mutual

def print : Json → List Char
  | .null => ['n', 'u', 'l', 'l']
  | .bool true => ['t', 'r', 'u', 'e']
  | .bool false => ['f', 'a', 'l', 's', 'e']
  | .number literal => printNumeral literal
  | .string text => printString text
  | .array [] => ['[', ']']
  | .array (first :: rest) => '[' :: (print first ++ printItems rest)
  | .object [] => ['{', '}']
  | .object ((key, value) :: rest) =>
      '{' :: (printString key ++ ':' :: (print value ++ printMembers rest))
  | .unpaired => ['"', '\\', 'u', 'd', '8', '0', '0', '"']

def printItems : List Json → List Char
  | [] => [']']
  | item :: rest => ',' :: (print item ++ printItems rest)

def printMembers : List (String × Json) → List Char
  | [] => ['}']
  | (key, value) :: rest =>
      ',' :: (printString key ++ ':' :: (print value ++ printMembers rest))

end

def text (j : Json) : String :=
  String.ofList j.print

end Json

end VectorMemory
