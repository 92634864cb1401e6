import VectorMemory.Planner.Basic

/-! Operations of a planner as data, and scripts of them. -/
namespace VectorMemory

inductive Command where
  | stage (name : String) (tensor : Tensor)
  | stageScalars (name : String) (shape : List Nat) (scalars : Scalars)
  | shareStaged (name other : String)
  | constant (name : String) (requested : Option Extent)
  | weights (name : String) (bias : Option String)
  | input (name : String) (extent : Extent) (consumers : List String)
  | output (name : String)
  | activation (name : String) (extent : Extent) (consumers : List String)
  | scratch (name : String) (extent : Extent) (consumers : List String)
  | temp (name : String) (extent : Extent) (consumers : List String)
  | consume (name : String) (consumers : List String)
  | consumeAll (consumers : List String)
  | blend (name : String) (extent : Extent) (consumers blendees : List String)
      (locations : List Location)
  | sweep
  | mark (name : String)
  | takeEvents
deriving DecidableEq

inductive Query where
  | staged (name : String)
  | tensor (name : String)
  | scalars (kind : ScalarKind) (name : String)
  | registered (name : String)
  | object (name : String)
  | objects
  | resolve (location : Location)
  | resolveRange (region : Region) (first stop : Nat)
  | usage (region : Region)
  | tally
  | constants
  | inputs
  | outputs
deriving DecidableEq

structure Resolved where
  object : Object
  offset : Nat
deriving DecidableEq

inductive Reply where
  | nothing
  | flag (value : Bool)
  | object (object : Object)
  | weights (weights : Object) (bias : Option Object)
  | placement (placement : Placement)
  | count (count : Nat)
  | events (events : List Event)
  | tensor (tensor : Tensor)
  | scalars (scalars : Scalars)
  | objects (objects : List Object)
  | resolved (answer : Option Resolved)
  | resolvedRange (answers : List (Option Resolved))
  | usage (usage : Usage)
  | tally (tally : Tally) (utilization : Double)
  | bytes (bytes : Bytes)
  | buffers (buffers : List Buffer)
deriving DecidableEq

namespace Planner

def replying (reply : α → Reply) (action : Action Planner α) : Action Planner Reply := do
  return reply (← action)

def perform : Command → Action Planner Reply
  | .stage name tensor => replying (fun _ => .nothing) (stage name tensor)
  | .stageScalars name shape scalars =>
      replying (fun _ => .nothing) (stageScalars name shape scalars)
  | .shareStaged name other => replying (fun _ => .nothing) (shareStaged name other)
  | .constant name requested => replying .object (constant name requested)
  | .weights name bias => replying (fun (w, b) => .weights w b) (weights name bias)
  | .input name extent consumers => replying .object (input name extent consumers)
  | .output name => replying .placement (output name)
  | .activation name extent consumers =>
      replying .object (allocate .dram0 name extent consumers)
  | .scratch name extent consumers => replying .object (allocate .scratch name extent consumers)
  | .temp name extent consumers => replying .object (allocate .temp name extent consumers)
  | .consume name consumers => replying .object (consume name consumers)
  | .consumeAll consumers => replying (fun _ => .nothing) (consumeAll consumers)
  | .blend name extent consumers blendees locations =>
      replying .object (blend name extent consumers blendees locations)
  | .sweep => replying .count sweep
  | .mark name => replying (fun _ => .nothing) (markNamed name)
  | .takeEvents => replying .events takeEvents

def resolve (p : Planner) (l : Location) : Option Resolved :=
  (p.registry.resolve l).map fun (o, offset) => ⟨o, offset⟩

def answer (p : Planner) : Query → Except Fault (Except MemoryError Reply)
  | .staged name => return .ok (.flag (p.staging.has name))
  | .tensor name => return (p.staging.get name).map .tensor
  | .scalars kind name => return (p.staging.scalarsOf kind name).map .scalars
  | .registered name => return .ok (.flag (p.registry.has name))
  | .object name => return (p.registry.get name).map .object
  | .objects => return .ok (.objects p.registry.objects)
  | .resolve l => return .ok (.resolved (p.resolve l))
  | .resolveRange region first stop =>
      return .ok (.resolvedRange
        ((List.range' first (stop - first)).map fun address => p.resolve ⟨region, address⟩))
  | .usage region => return .ok (.usage (p.space region).usage)
  | .tally => do return .ok (.tally p.tally (← p.tally.utilization p.arch.lanes))
  | .constants => return .ok (.bytes p.blob.bytes)
  | .inputs => return .ok (.buffers p.inputBuffers)
  | .outputs => return .ok (.buffers p.outputBuffers)

end Planner

inductive Call where
  | command (command : Command)
  | query (query : Query)
deriving DecidableEq

def Call.run : Call → Action Planner Reply
  | .command c => Planner.perform c
  | .query q => do
      let p ← Action.get
      let answer ← Action.ofExcept (p.answer q)
      Action.ofResult answer

/-- A call, and whether the script goes on if it fails. -/
structure Step where
  call : Call
  tolerated : Bool
deriving DecidableEq

abbrev Script := List Step

inductive LogEntry where
  | reply (reply : Reply)
  | failure (cause : MemoryError)
  | layer (index : Nat)
deriving DecidableEq

/-- Run a script up to its end, to a fault, or to a failure that is not
tolerated. The log has an entry for every call that ended without a fault. -/
def Script.run : Script → Planner → List LogEntry × Outcome Planner Unit
  | [], p => ([], .done () p)
  | step :: rest, p =>
      match step.call.run p with
      | .fault cause => ([], .fault cause)
      | .done reply p =>
          let (log, outcome) := Script.run rest p
          (.reply reply :: log, outcome)
      | .failed cause p =>
          if step.tolerated then
            let (log, outcome) := Script.run rest p
            (.failure cause :: log, outcome)
          else ([.failure cause], .failed cause p)

end VectorMemory
