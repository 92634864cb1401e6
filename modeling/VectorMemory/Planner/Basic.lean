import VectorMemory.Config
import VectorMemory.Trace
import VectorMemory.Manifest
import VectorMemory.Registry.Blend
import VectorMemory.Registry.Sweep
import VectorMemory.Constants.Staging
import VectorMemory.Constants.Blob
import VectorMemory.Constants.Tally

/-! The plan of the accelerator's memory: the four spaces, the objects in them,
the constants, and the tables of inputs and outputs. -/
namespace VectorMemory

structure Planner where
  arch : Architecture
  tracepoints : List Tracepoint
  /-- Inputs, outputs and activations; swept after each layer. -/
  dram0 : Space
  /-- Constants; never swept. -/
  dram1 : Space
  /-- On-chip intermediates; swept after each layer. -/
  scratch : Space
  /-- Bookkeeping; never swept. -/
  temp : Space
  registry : Registry
  staging : Staging
  blob : Blob
  tally : Tally
  recorder : Recorder
  inputs : List (String × ObjectId)
  outputs : List (String × ObjectId)
deriving DecidableEq

/-- Where an output is read from, and the object that has to be copied there if
the result was left in on-chip memory. -/
structure Placement where
  object : Object
  relocated : Option Object
deriving DecidableEq, Repr

namespace Planner

def start (config : Config) (recorder : Recorder) : Except InputError Planner := do
  config.validate
  let arch := config.arch
  return {
    arch, recorder
    tracepoints := config.tracepoints
    dram0 := .heap .dram0 (arch.depth .dram0)
    dram1 := .heap .dram1 (arch.depth .dram1)
    scratch := .heap .scratch (arch.depth .scratch)
    temp := .arena .temp
    registry := .empty
    staging := .empty
    blob := .empty arch
    tally := .zero
    inputs := []
    outputs := [] }

def space (p : Planner) : Region → Space
  | .dram0 => p.dram0
  | .dram1 => p.dram1
  | .scratch => p.scratch
  | .temp => p.temp

def setSpace (p : Planner) (region : Region) (s : Space) : Planner :=
  match region with
  | .dram0 => { p with dram0 := s }
  | .dram1 => { p with dram1 := s }
  | .scratch => { p with scratch := s }
  | .temp => { p with temp := s }

def marks (p : Planner) (o : Object) : Marks :=
  if p.tracepoints.isEmpty then []
  else
    let hits := o.span.toList.zipIdx.filter fun (l, _) => p.tracepoints.any (·.accepts l o.name)
    Marks.ofList (hits.map fun (l, offset) => (l, ⟨o.name, offset⟩))

def mark (p : Planner) (o : Object) : Planner :=
  match p.marks o with
  | [] => p
  | marks => { p with recorder := p.recorder.record (.placed .beforeProgram marks) }

def inRegistry (action : Action Registry α) : Action Planner α :=
  Action.zoom Planner.registry (fun registry p => { p with registry }) action

def allocate (region : Region) (name : String) (extent : Extent) (consumers : List String) :
    Action Planner Object := do
  let o ← Action.zoom (fun p => (p.space region, p.registry))
    (fun (s, registry) p => { p.setSpace region s with registry })
    (Registry.allocate name extent consumers)
  Action.modify (·.mark o)
  return o

def stage (name : String) (tensor : Tensor) : Action Planner Unit := do
  let p ← Action.get
  let staging ← Action.ofResult (p.staging.add name tensor)
  Action.modify fun p => { p with staging }

def stageScalars (name : String) (shape : List Nat) (scalars : Scalars) :
    Action Planner Unit := do
  match ← Action.ofExcept (Tensor.ofScalars shape scalars) with
  | .ok tensor => stage name tensor
  | .error cause => Action.fail (.input cause)

def shareStaged (name other : String) : Action Planner Unit :=
  Action.modify fun p => { p with staging := p.staging.share name other }

/-- The extent in which a constant is placed, and whether its scalar has to be
replicated for that. Only a single scalar is. -/
def constantExtent (name : String) (tensor : Tensor) (natural : Extent) :
    Option Extent → Except MemoryError (Extent × Bool)
  | none => .ok (natural, false)
  | some requested =>
      if requested = natural then .ok (natural, false)
      else if tensor.size = 1 then .ok (requested, true)
      else .error (.cannotReplicate name tensor.size requested.vectors)

/-- The bytes of a constant follow those written before, so it must lie right
behind the constants placed before. -/
def checkPosition (o : Object) : Action Planner Unit := do
  match o.span.first? with
  | none => return ()
  | some first =>
      let p ← Action.get
      let vectorBytes ← Action.ofExcept p.arch.vectorBytes
      let expected ← Action.ofExcept (Word.mul first.address vectorBytes)
      if o.span.isContiguous ∧ expected = p.blob.size then return ()
      else Action.fail (.misplacedConstant o.name first p.blob.size)

def furnish (name : String) (tensor : Tensor) (extent : Extent) (replicated : Bool) (o : Object) :
    Action Planner Object := do
  checkPosition o
  Action.zoom Planner.blob (fun blob p => { p with blob })
    (if replicated then Blob.replicate name tensor extent.vectors else Blob.write name tensor)
  let p ← Action.get
  let tally ← Action.ofExcept (p.tally.record extent)
  Action.modify fun p => { p with tally }
  return o

def emplace (arch : Architecture) (name : String) (requested : Option Extent) (tensor : Tensor) :
    Action Planner Object := do
  Action.ofResult (ensureEncodable name tensor.kind)
  let natural ← Action.ofExcept (arch.extentOf tensor.shape)
  let (extent, replicated) ← Action.ofResult (constantExtent name tensor natural requested)
  let o ← allocate .dram1 name extent [constantSentinel]
  furnish name tensor extent replicated o

/-- The object of a name, or else the staged tensor of that name, placed as a
constant. -/
def constant (name : String) (requested : Option Extent) : Action Planner Object := do
  let p ← Action.get
  if p.registry.has name then Action.ofResult (p.registry.get name)
  else
    let tensor ← Action.ofResult (p.staging.get name)
    emplace p.arch name requested tensor

def weights (name : String) (bias : Option String) : Action Planner (Object × Option Object) := do
  let w ← constant name none
  match bias with
  | none => return (w, none)
  | some bias =>
      let b ← constant bias none
      return (w, some b)

def input (name : String) (extent : Extent) (consumers : List String) :
    Action Planner Object := do
  let o ← allocate .dram0 name extent (consumers ++ [ioSentinel])
  Action.modify fun p => { p with inputs := p.inputs ++ [(name, o.id)] }
  return o

def addOutput (name : String) (id : ObjectId) (p : Planner) : Planner :=
  { p with outputs := p.outputs ++ [(name, id)] }

/-- Make an object an output. In the first off-chip memory it is pinned where it
is; from on-chip memory it is to be copied to a new pinned buffer. -/
def output (name : String) : Action Planner Placement := do
  let p ← Action.get
  let produced ← Action.ofResult (p.registry.get name)
  match produced.region with
  | .dram0 =>
      let o ← inRegistry (Registry.pin name ioSentinel)
      Action.modify (addOutput name o.id)
      return ⟨o, none⟩
  | .scratch =>
      let o ← allocate .dram0 (name ++ ":output") produced.extent [ioSentinel]
      Action.modify (addOutput name o.id)
      return ⟨o, some produced⟩
  | region => Action.fail (.outputRegion name region)

def consume (name : String) (consumers : List String) : Action Planner Object :=
  inRegistry (Registry.consume name consumers)

def consumeAll (consumers : List String) : Action Planner Unit :=
  Action.modify fun p => { p with registry := p.registry.consumeAll consumers }

def blend (name : String) (extent : Extent) (consumers blendees : List String)
    (locations : List Location) : Action Planner Object := do
  let o ← inRegistry (Registry.blend name extent consumers blendees locations)
  Action.modify fun p => { p with recorder := p.recorder.record (.blended o.name blendees) }
  return o

def swept (p : Planner) : List Space × Registry :=
  ([p.dram0, p.scratch], p.registry)

def setSwept : List Space × Registry → Planner → Planner
  | ([dram0, scratch], registry), p => { p with dram0, scratch, registry }
  | (_, registry), p => { p with registry }

def sweep : Action Planner Nat :=
  Action.zoom swept setSwept Registry.sweep

def markNamed (name : String) : Action Planner Unit := do
  let p ← Action.get
  let o ← Action.ofResult (p.registry.get name)
  Action.modify (·.mark o)

def takeEvents : Action Planner (List Event) := do
  let p ← Action.get
  Action.modify fun p => { p with recorder := p.recorder.clear }
  return p.recorder.contents

/-- The buffers of a table, as far as their objects are registered. -/
def buffers (p : Planner) (table : List (String × ObjectId)) : List Buffer :=
  table.filterMap fun (name, id) =>
    (p.registry.object? id).map fun o => ⟨name, o.region, o.span⟩

def inputBuffers (p : Planner) : List Buffer :=
  p.buffers p.inputs

def outputBuffers (p : Planner) : List Buffer :=
  p.buffers p.outputs

def usages (p : Planner) : List Usage :=
  Region.all.map fun region => (p.space region).usage

/-- All that a finished plan hands out. -/
structure Program where
  constants : Bytes
  inputs : List Buffer
  outputs : List Buffer
  usages : List Usage
  tally : Tally
  events : List Event
deriving DecidableEq

def finish (p : Planner) : Program :=
  ⟨p.blob.bytes, p.inputBuffers, p.outputBuffers, p.usages, p.tally, p.recorder.contents⟩

end Planner

end VectorMemory
