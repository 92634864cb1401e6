import VectorMemory.FreePool
import VectorMemory.Usage
import VectorMemory.Outcome

/-! One memory of the accelerator: a heap with a free pool, or an arena that
only ever grows. -/
namespace VectorMemory

inductive Strategy where
  /-- Vectors below the cursor are taken for good. -/
  | arena (cursor : Nat)
  | heap (free : FreePool)
deriving DecidableEq, Repr

structure Space where
  region : Region
  capacity : Nat
  strategy : Strategy
  usage : Usage
deriving DecidableEq, Repr

namespace Space

/-- A space without bound other than that of words. -/
def arena (region : Region) : Space :=
  ⟨region, Word.max, .arena 0, .initial region Word.max⟩

def heap (region : Region) (capacity : Nat) : Space :=
  ⟨region, capacity, .heap (.ofCapacity capacity), .initial region capacity⟩

def isHeap (s : Space) : Bool :=
  match s.strategy with
  | .heap _ => true
  | .arena _ => false

def available (s : Space) : Nat :=
  match s.strategy with
  | .arena cursor => s.capacity - cursor
  | .heap free => free.total

def pool? (s : Space) : Option FreePool :=
  match s.strategy with
  | .heap free => some free
  | .arena _ => none

def place (s : Space) (count : Nat) : Except MemoryError (Span × Strategy) :=
  match s.strategy with
  | .arena cursor =>
      if s.capacity - cursor < count then
        .error (.outOfMemory s.region count (s.capacity - cursor))
      else .ok (.ofRuns [⟨s.region, cursor, count⟩], .arena (cursor + count))
  | .heap free => (free.allocate s.region count).map fun (span, free) => (span, .heap free)

def allocate (count : Nat) : Action Space Span := do
  let s ← Action.get
  let (span, strategy) ← Action.ofResult (s.place count)
  let usage ← Action.ofExcept (s.usage.recordAllocation count)
  Action.modify fun s => { s with strategy, usage }
  return span

def freeRun (r : Run) : Action Space Unit := do
  let s ← Action.get
  match s.strategy with
  | .arena _ => return ()
  | .heap free =>
      if r.region ≠ s.region then Action.fail (.foreignRun r.region r.start s.region)
      else
        let released ← Action.ofExcept (free.release s.region r.start r.length s.capacity)
        let free ← Action.ofResult released
        Action.modify fun s =>
          { s with strategy := .heap free, usage := s.usage.recordFree r.length }

/-- Return the runs of a span one after another; those before a failing run stay
returned. An arena takes nothing back. -/
def free (span : Span) : Action Space Unit :=
  Action.each freeRun span.runs

end Space

end VectorMemory
