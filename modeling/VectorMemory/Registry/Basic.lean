import VectorMemory.Object
import VectorMemory.AddressIndex
import VectorMemory.Space

/-! The registry of objects: a slot for every object ever placed, a map from
names to slots, and the index of addresses. -/
namespace VectorMemory

structure Registry where
  /-- A slot is emptied when its object is freed. -/
  slots : List (Option Object)
  names : List (String × ObjectId)
  index : AddressIndex
deriving DecidableEq, Repr

namespace Registry

def empty : Registry := ⟨[], [], .empty⟩

def object? (r : Registry) (id : ObjectId) : Option Object :=
  r.slots[id]?.join

/-- Registered objects in the order of their creation. -/
def objects (r : Registry) : List Object :=
  r.slots.filterMap id

def idOf? (r : Registry) (name : String) : Option ObjectId :=
  r.names.lookup name

def has (r : Registry) (name : String) : Bool :=
  (r.idOf? name).isSome

def nextId (r : Registry) : ObjectId :=
  r.slots.length

def idOf (r : Registry) (name : String) : Except MemoryError ObjectId :=
  match r.idOf? name with
  | some id => .ok id
  | none => .error (.notFound name)

def get (r : Registry) (name : String) : Except MemoryError Object :=
  match (r.idOf? name).bind r.object? with
  | some o => .ok o
  | none => .error (.notFound name)

def resolve (r : Registry) (l : Location) : Option (Object × Nat) := do
  let (id, offset) ← r.index.find? l
  let o ← r.object? id
  return (o, offset)

def update (r : Registry) (id : ObjectId) (f : Object → Object) : Registry :=
  { r with slots := r.slots.modify id (·.map f) }

def updateAll (r : Registry) (f : Object → Object) : Registry :=
  { r with slots := r.slots.map (·.map f) }

def register (r : Registry) (o : Object) : Registry :=
  { r with slots := r.slots ++ [some o], names := (o.name, o.id) :: r.names }

def ensureNew (name : String) : Action Registry Unit := do
  let r ← Action.get
  if r.has name then Action.fail (.duplicateName name) else return ()

def claim (id : ObjectId) (span : Span) : Action Registry Unit := do
  let r ← Action.get
  let entered ← Action.ofExcept (r.index.insert id span)
  let index ← Action.ofResult entered
  Action.modify fun r => { r with index }

/-- Place an object in a space and register it. If its vectors turn out to be
taken, they stay allocated in the space without an owner. -/
def allocate (name : String) (extent : Extent) (consumers : List String) :
    Action (Space × Registry) Object := do
  Action.second (ensureNew name)
  let span ← Action.first (Space.allocate extent.vectors)
  let (space, registry) ← Action.get
  let o : Object :=
    { id := registry.nextId, name, extent, region := space.region, span
      consumers := NameSet.ofList consumers, owned := span, supersededBy := none, blendees := [] }
  Action.second (claim o.id o.span)
  Action.second (Action.modify (·.register o))
  return o

def change (name : String) (f : Object → Object) : Action Registry Object := do
  let r ← Action.get
  let o ← Action.ofResult (r.get name)
  Action.modify (·.update o.id f)
  return f o

def consume (name : String) (consumers : List String) : Action Registry Object :=
  change name (·.retire consumers)

def pin (name : String) (sentinel : String) : Action Registry Object :=
  change name (·.pin sentinel)

def consumeAll (r : Registry) (consumers : List String) : Registry :=
  r.updateAll (·.retire consumers)

end Registry

end VectorMemory
