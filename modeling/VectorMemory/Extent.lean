import VectorMemory.Word

/-! The declared size of an object. -/
namespace VectorMemory

/-- Scalars, and the vectors that hold them with padding. -/
structure Extent where
  scalars : Nat
  vectors : Nat
deriving DecidableEq, Repr

namespace Extent

def full (vectors lanes : Nat) : Except Fault Extent := do
  return ⟨← Word.mul vectors lanes, vectors⟩

def isEmpty (e : Extent) : Bool :=
  e.vectors == 0

end Extent

end VectorMemory
