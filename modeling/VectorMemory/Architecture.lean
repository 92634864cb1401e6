import VectorMemory.Bytes
import VectorMemory.Extent
import VectorMemory.Region
import VectorMemory.Tensor

/-! The accelerator: how a scalar is encoded, how many of them a vector holds,
and how many vectors each memory holds. -/
namespace VectorMemory

inductive NativeFormat where
  /-- 16-bit fixed point with 8 fraction bits. -/
  | fixed16
  /-- 32-bit fixed point with 16 fraction bits. -/
  | fixed32
  /-- 32-bit floating point. -/
  | float32
deriving DecidableEq, Repr

namespace NativeFormat

def byteSize : NativeFormat → Nat
  | .fixed16 => 2
  | .fixed32 => 4
  | .float32 => 4

def label : NativeFormat → String
  | .fixed16 => "FP16BP8"
  | .fixed32 => "FP32BP16"
  | .float32 => "FLOAT32"

def key : NativeFormat → String
  | .fixed16 => "Fp16Bp8"
  | .fixed32 => "Fp32Bp16"
  | .float32 => "Float32"

/-- Names are read without regard to case. -/
def ofName (name : String) : Except InputError NativeFormat :=
  let upper := name.map Char.toUpper
  if upper = "FP16BP8" then .ok .fixed16
  else if upper = "FP32BP16" then .ok .fixed32
  else if upper = "FLOAT32" ∨ upper = "FP32" then .ok .float32
  else .error (.unknownFormat upper)

/-- The integer whose bytes encode a scalar. The 16-bit fixed-point format scales
in single precision, the 32-bit one in double precision; the scaled value is
rounded to an integer, a half going away from zero, and clamped to the width of
the format. Floating point keeps its pattern. -/
def code (format : NativeFormat) (x : Single) : Int :=
  match format with
  | .fixed16 =>
      Binary.single.toInt (-0x8000) 0x7FFF (Binary.single.scale 8 x.bits.toNat)
  | .fixed32 =>
      let wide := Binary.single.convert Binary.double x.bits.toNat
      Binary.double.toInt (-0x80000000) 0x7FFFFFFF (Binary.double.scale 16 wide)
  | .float32 => x.bits.toNat

def encode (format : NativeFormat) (x : Single) : Bytes :=
  Bytes.littleEndian format.byteSize (format.code x)

end NativeFormat

structure Architecture where
  format : NativeFormat
  /-- Scalars in a vector. -/
  lanes : Nat
  /-- Vectors in each memory. -/
  dram0Depth : Nat
  dram1Depth : Nat
  scratchDepth : Nat
deriving DecidableEq, Repr

namespace Architecture

def standard : Architecture := ⟨.fixed16, 8, 0x100000, 0x100000, 0x2000⟩

def validate (arch : Architecture) : Except InputError Unit :=
  if arch.lanes = 0 then .error .noLanes else .ok ()

/-- Vectors in the memory of a region. Bookkeeping has all addresses. -/
def depth (arch : Architecture) : Region → Nat
  | .dram0 => arch.dram0Depth
  | .dram1 => arch.dram1Depth
  | .scratch => arch.scratchDepth
  | .temp => Word.max

/-- The innermost axis is packed into vectors, the last one padded; the outer
axes multiply them. A shape without axes is one scalar in one vector. -/
def extentOf (arch : Architecture) (shape : List Nat) : Except Fault Extent := do
  let scalars ← Word.product shape
  match shape.getLast? with
  | none => return ⟨scalars, 1⟩
  | some row =>
      let outer ← Word.product shape.dropLast
      let packed ← Word.divCeil row arch.lanes
      return ⟨scalars, ← Word.mul outer packed⟩

def paddedRow (arch : Architecture) (row : Nat) : Except Fault Nat := do
  Word.mul (← Word.divCeil row arch.lanes) arch.lanes

def vectorBytes (arch : Architecture) : Except Fault Nat :=
  Word.mul arch.lanes arch.format.byteSize

end Architecture

end VectorMemory
