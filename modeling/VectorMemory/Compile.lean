import VectorMemory.Planner.Script
import VectorMemory.Codec.Manifest

/-! Compiling a model: its constants are staged once, then every layer is
emitted and the objects that nobody needs any more are freed. The first error
ends the compile. -/
namespace VectorMemory

structure Layer where
  /-- A layer without a name makes no report. -/
  name : Option String
  instructions : Nat
  script : Script
deriving DecidableEq

structure Model where
  traversal : Script
  layers : List Layer
deriving DecidableEq

structure LayerReport where
  layer : Nat
  name : String
  instructions : Nat
  freed : Nat
deriving DecidableEq, Repr

inductive CompileError where
  | config (cause : InputError)
  | memory (cause : MemoryError)
  | layer (index : Nat) (cause : MemoryError)
deriving DecidableEq, Repr

def layerLabel (index : Nat) : String :=
  "LayerId(" ++ index.repr ++ ")"

def objectLabel (id : ObjectId) : String :=
  "ObjectId(" ++ id.repr ++ ")"

def CompileError.message : CompileError → String
  | .config cause => "config: " ++ cause.message
  | .memory cause => "memory: " ++ cause.message
  | .layer index cause => layerLabel index ++ ": " ++ cause.message

/-- What tells two compiles of one model apart. -/
structure Stamp where
  id : Uuid
  started : Nat
  finished : Nat
deriving DecidableEq

structure Compiled where
  constants : Bytes
  manifest : Manifest
  reports : List LayerReport
  events : List Event
deriving DecidableEq

/-- A compile ends in a fault, an error or a result. -/
abbrev Verdict (α : Type) := Except Fault (Except CompileError α)

namespace Compile

def version : String := "0.1.0"

def report (index : Nat) (layer : Layer) (freed : Nat) : List LayerReport :=
  match layer.name with
  | some name => [⟨index, name, layer.instructions, freed⟩]
  | none => []

def emit (layer : Layer) (p : Planner) : List LogEntry × Outcome Planner Nat :=
  match layer.script.run p with
  | (log, .done () p) => (log, Planner.sweep p)
  | (log, .failed cause p) => (log, .failed cause p)
  | (log, .fault cause) => (log, .fault cause)

def proceed (index : Nat) (layer : Layer)
    (next : Planner → List LogEntry × Verdict (List LayerReport × Planner)) :
    List LogEntry × Outcome Planner Nat → List LogEntry × Verdict (List LayerReport × Planner)
  | (log, .fault cause) => (.layer index :: log, .error cause)
  | (log, .failed cause _) => (.layer index :: log, .ok (.error (.layer index cause)))
  | (log, .done freed p) =>
      let (later, verdict) := next p
      (.layer index :: log ++ later,
        verdict.map (·.map fun (reports, p) => (report index layer freed ++ reports, p)))

/-- Emit layers, the first of which has the given number. -/
def runLayers : Nat → List Layer → Planner →
    List LogEntry × Verdict (List LayerReport × Planner)
  | _, [], p => ([], .ok (.ok ([], p)))
  | index, layer :: rest, p =>
      proceed index layer (runLayers (index + 1) rest) (emit layer p)

def runModel (model : Model) (p : Planner) :
    List LogEntry × Verdict (List LayerReport × Planner) :=
  let (log, outcome) := model.traversal.run p
  match outcome with
  | .fault cause => (log, .error cause)
  | .failed cause _ => (log, .ok (.error (.memory cause)))
  | .done () p =>
      let (later, verdict) := runLayers 0 model.layers p
      (log ++ later, verdict)

def finish (stamp : Stamp) (layers : Nat) (reports : List LayerReport) (p : Planner) :
    Except Fault Compiled := do
  let program := p.finish
  let utilization ← program.tally.utilization p.arch.lanes
  return {
    constants := program.constants
    reports
    events := program.events
    manifest := {
      id := stamp.id
      compilerVersion := version
      arch := p.arch
      constantsDigest := .ofBytes program.constants
      constantsSize := program.constants.length
      layoutDigest := Codec.layoutDigest program.inputs program.outputs
      inputs := program.inputs
      outputs := program.outputs
      spaces := program.usages.map Usage.summary
      constantScalars := program.tally.scalars
      constantVectors := program.tally.vectors
      utilization
      layers
      started := stamp.started
      finished := stamp.finished } }

def conclude (stamp : Stamp) (layers : Nat) :
    Verdict (List LayerReport × Planner) → Verdict Compiled
  | .error cause => .error cause
  | .ok (.error cause) => .ok (.error cause)
  | .ok (.ok (reports, p)) => (finish stamp layers reports p).map .ok

/-- Compile a model. Returns what the scripts showed, and how it ended. -/
def run (stamp : Stamp) (config : Config) (recorder : Recorder) (model : Model) :
    List LogEntry × Verdict Compiled :=
  match Planner.start config recorder with
  | .error cause => ([], .ok (.error (.config cause)))
  | .ok p =>
      let (log, verdict) := runModel model p
      (log, conclude stamp model.layers.length verdict)

theorem run_of_start {config : Config} {recorder : Recorder} {p : Planner}
    (started : Planner.start config recorder = .ok p) (stamp : Stamp) (model : Model) :
    run stamp config recorder model =
      ((runModel model p).1, conclude stamp model.layers.length (runModel model p).2) := by
  rw [run, started]

end Compile

namespace Codec

instance : Codec LayerReport where
  encode r := .object
    [("layer", encode r.layer), ("name", encode r.name),
      ("instructions", encode r.instructions), ("freed", encode r.freed)]
  decode j := do
    match ← j.fields ["layer", "name", "instructions", "freed"] with
    | [layer, name, instructions, freed] =>
        return ⟨← required layer, ← required name, ← required instructions, ← required freed⟩
    | _ => none

end Codec

end VectorMemory
