import VectorMemory.Extent
import VectorMemory.Tensor

/-! Totals over the constants. -/
namespace VectorMemory

structure Tally where
  objects : Nat
  /-- Scalars without padding. -/
  scalars : Nat
  vectors : Nat
deriving DecidableEq, Repr

namespace Tally

def zero : Tally := ⟨0, 0, 0⟩

/-- Constants without vectors do not count. -/
def record (t : Tally) (extent : Extent) : Except Fault Tally :=
  if extent.vectors = 0 then return t
  else do
    let objects ← Word.add t.objects 1
    let scalars ← Word.add t.scalars extent.scalars
    let vectors ← Word.add t.vectors extent.vectors
    return ⟨objects, scalars, vectors⟩

def utilization (t : Tally) (lanes : Nat) : Except Fault Double := do
  let available ← Word.mul t.vectors lanes
  if available = 0 then return ⟨0⟩ else return .ofQuotient t.scalars available

end Tally

end VectorMemory
