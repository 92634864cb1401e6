import VectorMemory.Region

/-! The record of what was placed and blended. Nothing is ever read back from it
by a plan. -/
namespace VectorMemory

inductive Position where
  | beforeProgram
  | instruction (index : Nat)
deriving DecidableEq, Repr

structure Mark where
  name : String
  offset : Nat
deriving DecidableEq, Repr

def Mark.label (a : Mark) : String :=
  a.name ++ "[" ++ a.offset.repr ++ "]"

/-- Marks by location, in the order of locations. -/
abbrev Marks := List (Location × Mark)

namespace Marks

def insert (l : Location) (a : Mark) : Marks → Marks
  | [] => [(l, a)]
  | (first, b) :: rest =>
      if l.before first then (l, a) :: (first, b) :: rest
      else if l = first then (l, a) :: rest
      else (first, b) :: insert l a rest

/-- Of several marks of one location the last one stays. -/
def ofList (hits : List (Location × Mark)) : Marks :=
  hits.foldl (fun all hit => insert hit.1 hit.2 all) []

end Marks

inductive Event where
  | placed (position : Position) (marks : Marks)
  | blended (object : String) (blendees : List String)
deriving DecidableEq, Repr

/-- Events so far, or nothing if no record is kept. -/
structure Recorder where
  events : Option (List Event)
deriving DecidableEq, Repr

namespace Recorder

def recording : Recorder := ⟨some []⟩

def silent : Recorder := ⟨none⟩

def record (r : Recorder) (event : Event) : Recorder :=
  ⟨r.events.map (· ++ [event])⟩

def contents (r : Recorder) : List Event :=
  r.events.getD []

def clear (r : Recorder) : Recorder :=
  ⟨r.events.map fun _ => []⟩

end Recorder

end VectorMemory
