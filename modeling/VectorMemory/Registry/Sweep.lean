import VectorMemory.Registry.Basic

/-! Freeing objects without consumers. -/
namespace VectorMemory.Registry

/-- Empty a slot. The index leads to live objects only. -/
def vacate (r : Registry) (id : ObjectId) (o : Object) : Registry :=
  { slots := r.slots.set id none
    names := r.names.filter fun named => named.1 ≠ o.name
    index := if o.isLive then r.index.erase id o.span else r.index }

/-- Those blendees of an object that no later blend has taken over. -/
def heldBy (r : Registry) (id : ObjectId) (o : Object) : List ObjectId :=
  o.blendees.filter fun b => (r.object? b).any (·.supersededBy = some id)

def load (r : Registry) : Nat :=
  r.objects.foldr (fun o total => o.blendees.length + 1 + total) 0

theorem load_vacate {r : Registry} {id : ObjectId} {o : Object} (found : r.object? id = some o) :
    r.load = (r.vacate id o).load + (o.blendees.length + 1) := by
  unfold object? at found
  unfold load vacate objects
  generalize r.slots = slots at found
  induction slots generalizing id with
  | nil => simp at found
  | cons slot rest ih =>
    cases id with
    | zero =>
      have filled : slot = some o := by simpa using found
      simp [filled, Nat.add_comm]
    | succ id =>
      have later := ih (by simpa using found)
      cases slot with
      | none => simpa using later
      | some first => simpa [Nat.add_assoc] using later

/-- Drop the objects of a stack from its top on. An object that is dropped leaves what it
holds on the stack. -/
def dropAll (r : Registry) : List ObjectId → Registry
  | [] => r
  | id :: stack =>
      match _found : r.object? id with
      | none => r.dropAll stack
      | some o =>
          (r.vacate id o).dropAll (((r.vacate id o).heldBy id o).reverse ++ stack)
termination_by stack => r.load + stack.length
decreasing_by
  · exact Nat.lt_succ_self _
  · have held := List.length_filter_le (fun b => ((r.vacate id o).object? b).any
      (·.supersededBy = some id)) o.blendees
    simp only [load_vacate _found, heldBy, List.length_append, List.length_reverse,
      List.length_cons]
    omega

def unregister (r : Registry) (id : ObjectId) : Registry :=
  r.dropAll [id]

def isGarbage (regions : List Region) (o : Object) : Bool :=
  o.isLive && o.isConsumed && regions.contains o.region

def freeOwned (o : Object) : List Space → Outcome (List Space) Unit
  | [] => .done () []
  | s :: rest =>
      match Space.free (o.owned.within s.region) s with
      | .fault cause => .fault cause
      | .failed cause s => .failed cause (s :: rest)
      | .done () s =>
          match freeOwned o rest with
          | .fault cause => .fault cause
          | .failed cause rest => .failed cause (s :: rest)
          | .done () rest => .done () (s :: rest)

def discard (regions : List Region) (id : ObjectId) (o : Object) :
    Action (List Space × Registry) Unit := do
  match o.owned.runs.find? fun run => !regions.contains run.region with
  | some run => Action.fail (.strayVectors o.name run.region)
  | none =>
      Action.first (freeOwned o)
      Action.second (Action.modify (·.unregister id))

/-- Free what a slot holds by now. -/
def reclaim (regions : List Region) (id : ObjectId) : Action (List Space × Registry) Unit := do
  let (_, r) ← Action.get
  match r.object? id with
  | none => return ()
  | some o => discard regions id o

/-- Free every live object without consumers in the given spaces, in the order
of their creation, and return their number. What was freed before a failure
stays freed. -/
def sweep : Action (List Space × Registry) Nat := do
  let (spaces, r) ← Action.get
  let regions := spaces.map Space.region
  let garbage := (r.objects.filter (isGarbage regions)).map Object.id
  Action.each (reclaim regions) garbage
  return garbage.length

end VectorMemory.Registry
