import VectorMemory.Span
import VectorMemory.MemoryError

/-! The free vectors of a space, as runs in address order with a gap between
any two. Placement is first-fit; when no single run is long enough, runs are
taken from the lowest address on, and only the last one is split. -/
namespace VectorMemory

structure Gap where
  start : Nat
  length : Nat
deriving DecidableEq, Repr

def Gap.stop (g : Gap) : Nat :=
  g.start + g.length

structure FreePool where
  gaps : List Gap
  /-- Number of free vectors. -/
  total : Nat
deriving DecidableEq, Repr

namespace FreePool

def ofCapacity (capacity : Nat) : FreePool :=
  ⟨if capacity = 0 then [] else [⟨0, capacity⟩], capacity⟩

def largest (pool : FreePool) : Nat :=
  pool.gaps.foldl (fun n g => max n g.length) 0

def remainder (g : Gap) (count : Nat) : List Gap :=
  if count < g.length then [⟨g.start + count, g.length - count⟩] else []

/-- Take `count` addresses from the front of the first run that has as many.
Returns where they start, and the runs that are left. -/
def takeFirstFit (count : Nat) : List Gap → Option (Nat × List Gap)
  | [] => none
  | g :: rest =>
      if count ≤ g.length then some (g.start, remainder g count ++ rest)
      else (takeFirstFit count rest).map fun (start, left) => (start, g :: left)

/-- Take the `count` lowest addresses. Returns them, and the runs that are left. -/
def takeLowest : Nat → List Gap → List Gap × List Gap
  | _, [] => ([], [])
  | count, g :: rest =>
      if count = 0 then ([], g :: rest)
      else if g.length ≤ count then
        let (taken, left) := takeLowest (count - g.length) rest
        (g :: taken, left)
      else ([⟨g.start, count⟩], remainder g count ++ rest)

def allocate (pool : FreePool) (region : Region) (count : Nat) :
    Except MemoryError (Span × FreePool) :=
  if count = 0 then .ok (.empty, pool)
  else if pool.total < count then .error (.outOfMemory region count pool.total)
  else
    match takeFirstFit count pool.gaps with
    | some (start, left) =>
        .ok (.ofRuns [⟨region, start, count⟩], ⟨left, pool.total - count⟩)
    | none =>
        let (taken, left) := takeLowest count pool.gaps
        .ok (.ofRuns (taken.map fun g => ⟨region, g.start, g.length⟩),
          ⟨left, pool.total - count⟩)

def atOrBefore (gaps : List Gap) (a : Nat) : Option Gap :=
  (gaps.filter (·.start ≤ a)).getLast?

def atOrAfter (gaps : List Gap) (a : Nat) : Option Gap :=
  gaps.find? (a ≤ ·.start)

def remove (start : Nat) (gaps : List Gap) : List Gap :=
  gaps.filter (·.start ≠ start)

/-- Enter a run in address order, in the place of one that starts with it. -/
def put (new : Gap) : List Gap → List Gap
  | [] => [new]
  | g :: rest =>
      if g.start < new.start then g :: put new rest
      else if g.start = new.start then new :: rest
      else new :: g :: rest

def overlap? (gaps : List Gap) (new : Gap) : Option Nat :=
  if (atOrBefore gaps new.start).any (new.start < ·.stop) then some new.start
  else
    match atOrAfter gaps new.start with
    | some later => if later.start < new.stop then some later.start else none
    | none => none

def merge (gaps : List Gap) (new : Gap) : List Gap :=
  let before := (atOrBefore gaps new.start).filter (·.stop = new.start)
  let after := (atOrAfter gaps new.start).filter (·.start = new.stop)
  let left := before.elim gaps fun g => remove g.start gaps
  let left := after.elim left fun g => remove g.start left
  put ⟨before.elim new.start Gap.start,
    new.length + before.elim 0 Gap.length + after.elim 0 Gap.length⟩ left

/-- Fails with the least address of the run that is already free. -/
def insert (gaps : List Gap) (new : Gap) : Except Nat (List Gap) :=
  match overlap? gaps new with
  | some address => .error address
  | none => .ok (merge gaps new)

/-- Return the vectors from `start` on to the pool. Fails if one of them lies
beyond `capacity` or is already free. -/
def release (pool : FreePool) (region : Region) (start length capacity : Nat) :
    Except Fault (Except MemoryError FreePool) :=
  if length = 0 then return .ok pool
  else do
    let stop ← Word.add start length
    if capacity < stop then return .error (.invalidFree region (max capacity start))
    else
      match insert pool.gaps ⟨start, length⟩ with
      | .ok gaps => return .ok ⟨gaps, pool.total + length⟩
      | .error address => return .error (.invalidFree region address)

end FreePool

end VectorMemory
