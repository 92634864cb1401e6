import VectorMemory.Span
import VectorMemory.Object
import VectorMemory.MemoryError

/-! Which object represents a vector. Entries are disjoint runs, ordered by
region and start, so the entry of a location is the last one that starts at or
before it. -/
namespace VectorMemory

structure Entry where
  region : Region
  start : Nat
  stop : Nat
  owner : ObjectId
  /-- Logical position of `start` in the owner's span. -/
  offset : Nat
deriving DecidableEq, Repr

structure AddressIndex where
  entries : List Entry
deriving DecidableEq, Repr

namespace Entry

def first (e : Entry) : Location :=
  ⟨e.region, e.start⟩

/-- The order of entries: by first location, then by length. -/
def precedes (a b : Entry) : Bool :=
  a.first.before b.first ||
    (a.first = b.first && (a.stop < b.stop || (a.stop = b.stop && a.offset ≤ b.offset)))

def insert (new : Entry) : List Entry → List Entry
  | [] => [new]
  | e :: rest => if new.precedes e then new :: e :: rest else e :: insert new rest

def insertAll (new entries : List Entry) : List Entry :=
  new.foldl (fun all e => e.insert all) entries

def ofRuns (owner : ObjectId) : Nat → List Run → Except Fault (List Entry)
  | _, [] => return []
  | offset, r :: rest => do
      let stop ← r.tryStop
      let next ← Word.add offset r.length
      let entries ← ofRuns owner next rest
      return ⟨r.region, r.start, stop, owner, offset⟩ :: entries

end Entry

namespace AddressIndex

def empty : AddressIndex := ⟨[]⟩

def atOrBefore (index : AddressIndex) (l : Location) : Option Entry :=
  (index.entries.filter fun e => e.region = l.region && e.start ≤ l.address).getLast?

def atOrAfter (index : AddressIndex) (l : Location) : Option Entry :=
  index.entries.find? fun e => e.region = l.region && l.address ≤ e.start

def collision (index : AddressIndex) (e : Entry) : Option Location :=
  if (index.atOrBefore e.first).any (e.start < ·.stop) then some e.first
  else
    match index.atOrAfter e.first with
    | some later => if later.start < e.stop then some later.first else none
    | none => none

/-- The first location at which ordered entries meet each other or the index. -/
def firstCollision (index : AddressIndex) : Option Entry → List Entry → Option Location
  | _, [] => none
  | previous, e :: rest =>
      if previous.any fun p => p.region = e.region && e.start < p.stop then some e.first
      else
        match index.collision e with
        | some l => some l
        | none => firstCollision index (some e) rest

/-- Enter all runs of a span for an object, or none of them if one of their
vectors is taken. -/
def insert (index : AddressIndex) (owner : ObjectId) (span : Span) :
    Except Fault (Except MemoryError AddressIndex) := do
  let entries ← Entry.ofRuns owner 0 span.runs
  let ordered := Entry.insertAll entries []
  match index.firstCollision none ordered with
  | some l => return .error (.claimed l)
  | none => return .ok ⟨Entry.insertAll ordered index.entries⟩

def erase (index : AddressIndex) (owner : ObjectId) (span : Span) : AddressIndex :=
  ⟨index.entries.filter fun e =>
    !(e.owner = owner && span.runs.any fun r => r.region = e.region && r.start = e.start)⟩

def find? (index : AddressIndex) (l : Location) : Option (ObjectId × Nat) :=
  match index.atOrBefore l with
  | some e => if l.address < e.stop then some (e.owner, e.offset + (l.address - e.start)) else none
  | none => none

end AddressIndex

end VectorMemory
