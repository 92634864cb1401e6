import VectorMemory.Registry.Basic

/-! Blends: objects that view vectors of other objects in a new order. A blend
takes over what its blendees own; they stay registered under their names, but
the index now leads to the blend. -/
namespace VectorMemory.Registry

/-- The slots of the named objects, each once, in the order of the names. -/
def blendeeIds (r : Registry) (names : List String) : Except MemoryError (List ObjectId) :=
  names.foldlM (fun ids name => do
    let id ← r.idOf name
    return if ids.contains id then ids else ids ++ [id]) []

/-- The region of a blend is that of its first blendee, or else that of its
first vector. -/
def blendRegion? (r : Registry) (ids : List ObjectId) (locations : List Location) :
    Option Region :=
  (ids.head?.bind r.object?).map Object.region <|> locations.head?.map Location.region

/-- A blend over pinned objects is pinned too. -/
def blendConsumers (r : Registry) (ids : List ObjectId) (consumers : List String) : NameSet :=
  let inherited := (ids.filterMap r.object?).flatMap fun o => o.consumers.names.filter isSentinel
  NameSet.ofList (consumers ++ inherited)

def displaced (r : Registry) (ids : List ObjectId) : List Object :=
  (ids.filterMap r.object?).filter Object.isLive

def withdraw (r : Registry) (objects : List Object) : Registry :=
  { r with index := objects.foldl (fun index o => index.erase o.id o.span) r.index }

def restore (objects : List Object) (cause : MemoryError) : Action Registry Unit := do
  Action.each (fun o : Object => claim o.id o.span) objects
  Action.fail cause

/-- Exchange the entries of the displaced objects for those of a blend. If the
blend meets another object, the displaced ones are entered again. -/
def exchange (objects : List Object) (id : ObjectId) (span : Span) : Action Registry Unit :=
  fun r =>
    match claim id span (r.withdraw objects) with
    | .failed cause r => restore objects cause r
    | outcome => outcome

def gatherOwned (r : Registry) (ids : List ObjectId) : Except Fault Span :=
  (ids.filterMap r.object?).foldlM (fun owned o => owned.tryExtend o.owned.runs) .empty

def supersede (r : Registry) (ids : List ObjectId) (id : ObjectId) : Registry :=
  ids.foldl (fun r blendee =>
    r.update blendee fun o => { o with owned := .empty, supersededBy := some id }) r

/-- Register a view over `locations`. The checks are made in this order: the
name, the number of locations, the blendees, that there is anything to view,
and that the locations belong to no other object. -/
def blend (name : String) (extent : Extent) (consumers blendees : List String)
    (locations : List Location) : Action Registry Object := do
  ensureNew name
  if locations.length ≠ extent.vectors then
    Action.fail (.sizeMismatch name extent.vectors locations.length)
  else
    let r ← Action.get
    let ids ← Action.ofResult (r.blendeeIds blendees)
    match r.blendRegion? ids locations with
    | none => Action.fail (.nothingToBlend name)
    | some region =>
        let span ← Action.ofExcept (Span.tryOfLocations locations)
        let id := r.nextId
        exchange (r.displaced ids) id span
        let owned ← Action.ofExcept (r.gatherOwned ids)
        let o : Object :=
          { id, name, extent, region, span
            consumers := r.blendConsumers ids consumers
            owned, supersededBy := none, blendees := ids }
        Action.modify fun r => (r.supersede ids id).register o
        return o

end VectorMemory.Registry
