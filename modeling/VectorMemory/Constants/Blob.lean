import VectorMemory.Architecture
import VectorMemory.Outcome

/-! The bytes of the constants, in the order in which they are placed. Scalars
stand in the native encoding, and each row is padded with zeros to whole
vectors. -/
namespace VectorMemory

namespace Scalars

def singles? : Scalars → Option (List Single)
  | .int32 values => some (values.map fun n => .ofInt n.toInt)
  | .int64 _ => none
  | .float32 values => some values

end Scalars

namespace Architecture

def encodeAll (arch : Architecture) (values : List Single) : Bytes :=
  values.flatMap arch.format.encode

/-- Encode values row by row. `column` values of the first row are already
written; each row of `rowLength` is followed by `padding` zeros. -/
def encodeRows (arch : Architecture) (rowLength padding : Nat) : Nat → List Single → Bytes
  | _, [] => []
  | column, value :: rest =>
      if column + 1 = rowLength then
        arch.format.encode value ++ arch.encodeAll (List.replicate padding .zero) ++
          arch.encodeRows rowLength padding 0 rest
      else
        arch.format.encode value ++ arch.encodeRows rowLength padding (column + 1) rest

def encodeTensor (arch : Architecture) (name : String) (tensor : Tensor) :
    Except Fault (Except MemoryError Bytes) :=
  match tensor.scalars.singles? with
  | none => return .error (.unsupportedEncoding name tensor.kind)
  | some values => do
      let padded ← arch.paddedRow tensor.rowLength
      return .ok (arch.encodeRows tensor.rowLength (padded - tensor.rowLength) 0 values)

/-- `vectors` vectors filled with the first scalar of a tensor. -/
def encodeReplicated (arch : Architecture) (name : String) (tensor : Tensor) (vectors : Nat) :
    Except Fault (Except MemoryError Bytes) :=
  match tensor.scalars.singles? with
  | none => return .error (.unsupportedEncoding name tensor.kind)
  | some [] => return .error (.nothingToReplicate name)
  | some (value :: _) => do
      let count ← Word.mul vectors arch.lanes
      return .ok (arch.encodeAll (List.replicate count value))

end Architecture

structure Blob where
  arch : Architecture
  bytes : Bytes
deriving DecidableEq

namespace Blob

def empty (arch : Architecture) : Blob := ⟨arch, []⟩

def size (b : Blob) : Nat :=
  b.bytes.length

def append (encoded : Except Fault (Except MemoryError Bytes)) : Action Blob Unit := do
  let result ← Action.ofExcept encoded
  let bytes ← Action.ofResult result
  Action.modify fun b => { b with bytes := b.bytes ++ bytes }

def write (name : String) (tensor : Tensor) : Action Blob Unit := do
  let b ← Action.get
  append (b.arch.encodeTensor name tensor)

def replicate (name : String) (tensor : Tensor) (vectors : Nat) : Action Blob Unit := do
  let b ← Action.get
  append (b.arch.encodeReplicated name tensor vectors)

end Blob

def ensureEncodable (name : String) (kind : ScalarKind) : Except MemoryError Unit :=
  match kind with
  | .int64 => .error (.unsupportedEncoding name kind)
  | .int32 | .float32 => .ok ()

end VectorMemory
