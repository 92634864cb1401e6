/-! What can be wrong with the data that a plan starts from. -/
namespace VectorMemory

inductive InputError where
  | unknownFormat (name : String)
  | noLanes
  | emptyRange (start stop : Nat)
  | shapeMismatch (shape : List Nat) (expected actual : Nat)
  /-- A table keyed by locations has no written form unless it is empty. -/
  | unwritableKey
deriving DecidableEq, Repr

namespace InputError

def listLabel (numbers : List Nat) : String :=
  "[" ++ ", ".intercalate (numbers.map Nat.repr) ++ "]"

def message : InputError → String
  | .unknownFormat name => "Invalid configuration: unknown data type '" ++ name ++ "'"
  | .noLanes => "Invalid configuration: array_size must be positive"
  | .emptyRange start stop =>
      "Invalid configuration: tracepoint address range " ++ start.repr ++ ".." ++ stop.repr ++
        " is empty"
  | .shapeMismatch shape expected actual =>
      "Shape error: shape " ++ listLabel shape ++ " holds " ++ expected.repr ++
        " elements, got " ++ actual.repr ++ " values"
  | .unwritableKey => "Hashing error: key must be a string"

end InputError

end VectorMemory
