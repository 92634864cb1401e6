import VectorMemory.Word
import VectorMemory.Region

/-! Runs of consecutive vectors, and spans: ordered sequences of vectors held as
runs. `Span.push` keeps a span canonical, so a contiguous placement is exactly
one run. The operations are total on naturals; their `try` forms add the faults
of word arithmetic. -/
namespace VectorMemory

structure Run where
  region : Region
  start : Nat
  length : Nat
deriving DecidableEq, Repr

namespace Run

def stop (r : Run) : Nat :=
  r.start + r.length

def tryStop (r : Run) : Except Fault Nat :=
  Word.add r.start r.length

def toList (r : Run) : List Location :=
  (List.range' r.start r.length).map (Location.mk r.region)

/-- The end of a run is only computed for a location that its start admits. -/
def tryContains (r : Run) (l : Location) : Except Fault Bool :=
  if l.region = r.region ∧ r.start ≤ l.address then do
    let stop ← r.tryStop
    return decide (l.address < stop)
  else
    return false

end Run

/-- Vectors in logical order, possibly scattered over several runs. -/
structure Span where
  runs : List Run
deriving DecidableEq, Repr

namespace Span

def empty : Span := ⟨[]⟩

def joinLast : List Run → Run → List Run
  | [], r => [r]
  | [last], r =>
      if last.region = r.region ∧ last.stop = r.start then
        [{ last with length := last.length + r.length }]
      else
        [last, r]
  | first :: next :: rest, r => first :: joinLast (next :: rest) r

/-- Append a run. An empty run leaves the span as it is. -/
def push (s : Span) (r : Run) : Span :=
  if r.length = 0 then s else ⟨joinLast s.runs r⟩

def ofRuns (runs : List Run) : Span :=
  runs.foldl push empty

/-- `push`, with a fault if the end of the last run in the same region, or the
length of the merged run, is no word. -/
def tryPush (s : Span) (r : Run) : Except Fault Span :=
  if r.length = 0 then
    return s
  else
    match s.runs.getLast? with
    | none => return s.push r
    | some last =>
        if last.region = r.region then do
          let stop ← last.tryStop
          if stop = r.start then
            let _ ← Word.add last.length r.length
            return s.push r
          else
            return s.push r
        else
          return s.push r

def tryExtend (s : Span) (runs : List Run) : Except Fault Span :=
  runs.foldlM tryPush s

def tryOfLocations (locations : List Location) : Except Fault Span :=
  empty.tryExtend (locations.map fun l => ⟨l.region, l.address, 1⟩)

def size (s : Span) : Nat :=
  s.runs.foldr (fun r n => r.length + n) 0

def trySize (s : Span) : Except Fault Nat :=
  Word.sum (s.runs.map Run.length)

def toList (s : Span) : List Location :=
  s.runs.flatMap Run.toList

def tryToList (s : Span) : Except Fault (List Location) :=
  s.runs.foldlM (fun seen r => do let _ ← r.tryStop; return seen ++ r.toList) []

/-- Runs are searched in order up to the first one that holds the location. -/
def tryContains (s : Span) (l : Location) : Except Fault Bool :=
  s.runs.anyM (·.tryContains l)

def isEmpty (s : Span) : Bool :=
  s.runs.isEmpty

def isContiguous (s : Span) : Bool :=
  s.runs.length ≤ 1

def first? (s : Span) : Option Location :=
  s.runs.head?.map fun r => ⟨r.region, r.start⟩

def within (s : Span) (region : Region) : Span :=
  ofRuns (s.runs.filter fun r => r.region = region)

end Span

end VectorMemory
