import VectorMemory.Word
import VectorMemory.Region

/-! Usage of a space, in vectors. Nothing is decided by these numbers. -/
namespace VectorMemory

structure Usage where
  region : Region
  capacity : Nat
  /-- Vectors placed now. -/
  used : Nat
  /-- The largest value of `used` so far. -/
  peak : Nat
  /-- Vectors ever placed. -/
  aggregate : Nat
  /-- Requests ever met. -/
  allocations : Nat
deriving DecidableEq, Repr

structure UsageSummary where
  region : Region
  capacity : Nat
  peak : Nat
  aggregate : Nat
deriving DecidableEq, Repr

namespace Usage

def initial (region : Region) (capacity : Nat) : Usage :=
  ⟨region, capacity, 0, 0, 0, 0⟩

def recordAllocation (u : Usage) (vectors : Nat) : Except Fault Usage := do
  let used ← Word.add u.used vectors
  let aggregate ← Word.add u.aggregate vectors
  let allocations ← Word.add u.allocations 1
  return { u with used, aggregate, allocations, peak := max u.peak used }

/-- `used` stops at zero. -/
def recordFree (u : Usage) (vectors : Nat) : Usage :=
  { u with used := u.used - vectors }

def summary (u : Usage) : UsageSummary :=
  ⟨u.region, u.capacity, u.peak, u.aggregate⟩

end Usage

end VectorMemory
