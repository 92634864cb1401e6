import VectorMemory.Word
import VectorMemory.InputError
import VectorMemory.Binary.Format

/-! Constant tensors before they are placed. -/
namespace VectorMemory

/-- A 32-bit floating-point number, by its pattern. -/
structure Single where
  bits : UInt32
deriving DecidableEq, Repr

structure Double where
  bits : UInt64
deriving DecidableEq, Repr

namespace Single

def zero : Single := ⟨0⟩

/-- The nearest single, ties to even. -/
def ofInt (n : Int) : Single :=
  ⟨UInt32.ofNat (Binary.single.ofInt n)⟩

end Single

/-- The quotient of two words as a double; each is first rounded to one. -/
def Double.ofQuotient (num den : Nat) : Double :=
  let quotient := Binary.double.div (Binary.double.ofInt num) (Binary.double.ofInt den)
  ⟨UInt64.ofNat quotient⟩

inductive ScalarKind where
  | int32
  | int64
  | float32
deriving DecidableEq, Repr

namespace ScalarKind

def label : ScalarKind → String
  | .int32 => "int32"
  | .int64 => "int64"
  | .float32 => "float32"

def key : ScalarKind → String
  | .int32 => "i32"
  | .int64 => "i64"
  | .float32 => "f32"

end ScalarKind

/-- Scalars of one kind, the innermost axis running fastest. -/
inductive Scalars where
  | int32 (values : List Int32)
  | int64 (values : List Int64)
  | float32 (values : List Single)
deriving DecidableEq

namespace Scalars

def kind : Scalars → ScalarKind
  | .int32 _ => .int32
  | .int64 _ => .int64
  | .float32 _ => .float32

def size : Scalars → Nat
  | .int32 values => values.length
  | .int64 values => values.length
  | .float32 values => values.length

end Scalars

/-- A shape and its scalars. `Tensor.ofScalars` builds one whose shape fits. -/
structure Tensor where
  shape : List Nat
  scalars : Scalars
deriving DecidableEq

namespace Tensor

def ofScalars (shape : List Nat) (scalars : Scalars) : Except Fault (Except InputError Tensor) := do
  let expected ← Word.product shape
  if expected = scalars.size then return .ok ⟨shape, scalars⟩
  else return .error (.shapeMismatch shape expected scalars.size)

def kind (t : Tensor) : ScalarKind :=
  t.scalars.kind

def size (t : Tensor) : Nat :=
  t.scalars.size

/-- Length of the innermost axis; a tensor without axes is one scalar. -/
def rowLength (t : Tensor) : Nat :=
  t.shape.getLast?.getD 1

end Tensor

end VectorMemory
