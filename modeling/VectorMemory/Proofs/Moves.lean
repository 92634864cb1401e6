import Mathlib.Logic.Relation
import Mathlib.Logic.Function.Basic
import VectorMemory.Planner.Script
import VectorMemory.Proofs.Operations

/-! What commands are made of. A command that neither blends nor sweeps is a
chain of single changes, each to a part of the planner that the command touches.
All other parts are the same after a command, whether it succeeds or fails. -/
namespace VectorMemory

open Relation

/-- The failure does not tell of a broken invariant. -/
def MemoryError.isLawful (cause : MemoryError) : Bool :=
  cause.errorClass ≠ .invariant

namespace Planner

/-- Commands that neither blend nor sweep. -/
def growing : Command → Bool
  | .blend .. | .sweep => false
  | _ => true

inductive Part where
  | arch
  | tracepoints
  | space (region : Region)
  | registry
  | staging
  | blob
  | tally
  | recorder
  | inputs
  | outputs
deriving DecidableEq

def Part.Same : Part → Planner → Planner → Prop
  | .arch, p, q => q.arch = p.arch
  | .tracepoints, p, q => q.tracepoints = p.tracepoints
  | .space region, p, q => q.space region = p.space region
  | .registry, p, q => q.registry = p.registry
  | .staging, p, q => q.staging = p.staging
  | .blob, p, q => q.blob = p.blob
  | .tally, p, q => q.tally = p.tally
  | .recorder, p, q => q.recorder = p.recorder
  | .inputs, p, q => q.inputs = p.inputs
  | .outputs, p, q => q.outputs = p.outputs

def touches : Command → List Part
  | .stage .. | .stageScalars .. | .shareStaged .. => [.staging]
  | .constant .. | .weights .. => [.space .dram1, .registry, .recorder, .blob, .tally]
  | .input .. => [.space .dram0, .registry, .recorder, .inputs]
  | .output .. => [.space .dram0, .registry, .recorder, .outputs]
  | .activation .. => [.space .dram0, .registry, .recorder]
  | .scratch .. => [.space .scratch, .registry, .recorder]
  | .temp .. => [.space .temp, .registry, .recorder]
  | .consume .. | .consumeAll .. => [.registry]
  | .blend .. => [.registry, .recorder]
  | .sweep => [.space .dram0, .space .scratch, .registry]
  | .mark .. | .takeEvents => [.recorder]

/-- A single change. Only a leaky one takes vectors without an owner. -/
inductive Move (leaky : Bool) (touched : List Part) (p : Planner) : Planner → Prop where
  | staging (staging : Staging) : .staging ∈ touched → Move leaky touched p { p with staging }
  | blob (blob : Blob) : .blob ∈ touched → Move leaky touched p { p with blob }
  | tally (tally : Tally) : .tally ∈ touched → Move leaky touched p { p with tally }
  | recorder (recorder : Recorder) : .recorder ∈ touched →
      recorder.events.isSome = p.recorder.events.isSome → Move leaky touched p { p with recorder }
  | input (row : String × ObjectId) : .inputs ∈ touched →
      Move leaky touched p { p with inputs := p.inputs ++ [row] }
  | output (row : String × ObjectId) : .outputs ∈ touched →
      Move leaky touched p { p with outputs := p.outputs ++ [row] }
  | touch {consumers : ObjectId → Object → NameSet} {registry : Registry} : .registry ∈ touched →
      Registry.Retired consumers p.registry registry → Move leaky touched p { p with registry }
  | take {region : Region} {count : Nat} {span : Span} {s : Space} {l : Location} : leaky = true →
      .space region ∈ touched → Space.allocate count (p.space region) = .done span s →
      p.registry.index.insert p.registry.nextId span = .ok (.error (.claimed l)) →
      Move leaky touched p (p.setSpace region s)
  | place {region : Region} {count : Nat} {o : Object} {s : Space} {registry : Registry} :
      .space region ∈ touched → .registry ∈ touched →
      Space.allocate count (p.space region) = .done o.span s →
      Registry.Places p.registry o registry → o.region = s.region →
      Move leaky touched p { p.setSpace region s with registry }

abbrev Moves (leaky : Bool) (touched : List Part) : Planner → Planner → Prop :=
  ReflTransGen (Move leaky touched)

theorem space_setSpace (p : Planner) (region : Region) (s : Space) :
    (p.setSpace region s).space = Function.update p.space region s := by
  funext other
  cases region <;> cases other <;> rfl

theorem setSpace_self (p : Planner) (region : Region) : p.setSpace region (p.space region) = p := by
  cases region <;> rfl

theorem setSpace_registry (p : Planner) (region : Region) (s : Space) :
    { p.setSpace region s with registry := p.registry } = p.setSpace region s := by
  cases region <;> rfl

/-! ### Chains of changes -/

/-- The failures after which commands are still chains of changes. -/
def admitted (leaky : Bool) (cause : MemoryError) : Bool :=
  leaky || cause.isLawful

section Actions

variable {leaky : Bool} {touched : List Part}

theorem moves_modify {f : Planner → Planner} (move : ∀ p, Move leaky touched p (f p)) :
    (Action.modify f).Keeps (admitted leaky) (Moves leaky touched) :=
  Action.keeps_modify fun p => .single (move p)

theorem moves_mark (o : Object) (recorder : .recorder ∈ touched) :
    (Action.modify (mark · o)).Keeps (admitted leaky) (Moves leaky touched) := by
  apply Action.keeps_modify
  intro p
  unfold mark
  split
  · exact .refl
  · exact .single (.recorder _ recorder Option.isSome_map)

theorem moves_allocate {region : Region} (name : String) (extent : Extent)
    (consumers : List String) (space : .space region ∈ touched) (registry : .registry ∈ touched)
    (recorder : .recorder ∈ touched) :
    (allocate region name extent consumers).Keeps (admitted leaky) (Moves leaky touched) := by
  apply Action.Keeps.bind
  · apply Action.keeps_zoom
    intro p (s, r) left
    rcases Outcome.left?_eq_some.mp left with ⟨o, done⟩ | ⟨cause, failed, allowed⟩
    · obtain ⟨granted, places, -, home, -⟩ := Registry.allocate_eq_done done
      exact .single (.place space registry granted places home)
    · obtain ⟨rfl, ⟨rfl, -⟩ | ⟨span, l, granted, met, rfl⟩⟩ :=
        Registry.allocate_eq_failed failed
      · change Moves leaky touched p
          { p.setSpace region (p.space region) with registry := p.registry }
        rw [setSpace_registry, setSpace_self]
      · have leaks : leaky = true := by
          rwa [admitted, show (MemoryError.claimed l).isLawful = false from rfl, Bool.or_false] at allowed
        change Moves leaky touched p { p.setSpace region s with registry := p.registry }
        rw [setSpace_registry]
        exact .single (.take leaks space granted met)
  · intro o
    exact (moves_mark o recorder).bind fun _ => Action.keeps_pure o

theorem moves_stage (name : String) (tensor : Tensor) (staging : .staging ∈ touched) :
    (stage name tensor).Keeps (admitted leaky) (Moves leaky touched) := by
  apply Action.keeps_get.bind
  intro _
  apply (Action.keeps_ofResult _).bind
  intro staged
  exact moves_modify fun _ => .staging staged staging

theorem moves_stageScalars (name : String) (shape : List Nat) (scalars : Scalars)
    (staging : .staging ∈ touched) :
    (stageScalars name shape scalars).Keeps (admitted leaky) (Moves leaky touched) := by
  apply (Action.keeps_ofExcept _).bind
  intro result
  cases result with
  | ok tensor => exact moves_stage name tensor staging
  | error cause => exact Action.keeps_fail _

theorem moves_checkPosition (o : Object) :
    (checkPosition o).Keeps (admitted leaky) (Moves leaky touched) := by
  unfold checkPosition
  cases o.span.first? with
  | none => exact Action.keeps_pure _
  | some first =>
    apply Action.keeps_get.bind
    intro _
    apply (Action.keeps_ofExcept _).bind
    intro _
    apply (Action.keeps_ofExcept _).bind
    intro _
    split
    · exact Action.keeps_pure _
    · exact Action.keeps_fail _

theorem moves_constant (name : String) (requested : Option Extent)
    (inside : [.space .dram1, .registry, .recorder, .blob, .tally] ⊆ touched) :
    (constant name requested).Keeps (admitted leaky) (Moves leaky touched) := by
  simp only [List.cons_subset, List.nil_subset, and_true] at inside
  obtain ⟨space, registry, recorder, blob, tally⟩ := inside
  apply Action.keeps_get.bind
  intro _
  split
  · exact Action.keeps_ofResult _
  · apply (Action.keeps_ofResult _).bind
    intro _
    apply (Action.keeps_ofResult _).bind
    intro _
    apply (Action.keeps_ofExcept _).bind
    intro _
    apply (Action.keeps_ofResult _).bind
    intro (extent, replicated)
    apply (moves_allocate name extent _ space registry recorder).bind
    intro o
    apply (moves_checkPosition o).bind
    intro _
    apply (Action.keeps_zoom fun _ written _ => .single (.blob written blob)).bind
    intro _
    apply Action.keeps_get.bind
    intro _
    apply (Action.keeps_ofExcept _).bind
    intro counted
    exact (moves_modify fun _ => .tally counted tally).bind fun _ => Action.keeps_pure o

theorem moves_weights (name : String) (bias : Option String)
    (inside : [.space .dram1, .registry, .recorder, .blob, .tally] ⊆ touched) :
    (weights name bias).Keeps (admitted leaky) (Moves leaky touched) := by
  apply (moves_constant name none inside).bind
  intro _
  cases bias with
  | none => exact Action.keeps_pure _
  | some bias => exact (moves_constant bias none inside).bind fun _ => Action.keeps_pure _

theorem moves_input (name : String) (extent : Extent) (consumers : List String)
    (inside : [.space .dram0, .registry, .recorder, .inputs] ⊆ touched) :
    (input name extent consumers).Keeps (admitted leaky) (Moves leaky touched) := by
  simp only [List.cons_subset, List.nil_subset, and_true] at inside
  obtain ⟨space, registry, recorder, inputs⟩ := inside
  apply (moves_allocate name extent _ space registry recorder).bind
  intro o
  exact (moves_modify fun _ => .input _ inputs).bind fun _ => Action.keeps_pure o

theorem moves_change {f : Object → Object} (retires : Registry.Retires f) (name : String)
    (registry : .registry ∈ touched) :
    (inRegistry (Registry.change name f)).Keeps (admitted leaky) (Moves leaky touched) := by
  apply Action.keeps_zoom
  intro p r left
  rcases Outcome.left?_eq_some.mp left with ⟨o, done⟩ | ⟨cause, failed, -⟩
  · obtain ⟨before, -, -, rfl⟩ := Registry.change_eq_done.mp done
    exact .single (.touch registry (retires.update p.registry before.id))
  · obtain ⟨rfl, -⟩ := Registry.change_eq_failed.mp failed
    exact .refl

theorem moves_output (name : String)
    (inside : [.space .dram0, .registry, .recorder, .outputs] ⊆ touched) :
    (output name).Keeps (admitted leaky) (Moves leaky touched) := by
  simp only [List.cons_subset, List.nil_subset, and_true] at inside
  obtain ⟨space, registry, recorder, outputs⟩ := inside
  have row (o : Object) :
      (Action.modify (addOutput name o.id)).Keeps (admitted leaky) (Moves leaky touched) :=
    moves_modify fun _ => .output _ outputs
  apply Action.keeps_get.bind
  intro _
  apply (Action.keeps_ofResult _).bind
  intro produced
  cases produced.region with
  | dram0 =>
    apply (moves_change (Registry.retires_pin rfl) name registry).bind
    intro o
    exact (row o).bind fun _ => Action.keeps_pure _
  | scratch =>
    apply (moves_allocate _ _ _ space registry recorder).bind
    intro o
    exact (row o).bind fun _ => Action.keeps_pure _
  | dram1 | temp => exact Action.keeps_fail _

theorem moves_consumeAll (consumers : List String) (registry : .registry ∈ touched) :
    (consumeAll consumers).Keeps (admitted leaky) (Moves leaky touched) :=
  moves_modify fun p =>
    .touch registry ((Registry.retires_retire consumers).updateAll p.registry)

theorem moves_markNamed (name : String) (recorder : .recorder ∈ touched) :
    (markNamed name).Keeps (admitted leaky) (Moves leaky touched) := by
  apply Action.keeps_get.bind
  intro _
  apply (Action.keeps_ofResult _).bind
  intro o
  exact moves_mark o recorder

theorem moves_takeEvents (recorder : .recorder ∈ touched) :
    takeEvents.Keeps (admitted leaky) (Moves leaky touched) := by
  apply Action.keeps_get.bind
  intro _
  exact (moves_modify fun _ => .recorder _ recorder Option.isSome_map).bind fun _ =>
    Action.keeps_pure _

theorem moves_replying {action : Action Planner α}
    (moves : action.Keeps (admitted leaky) (Moves leaky touched)) (reply : α → Reply) :
    (replying reply action).Keeps (admitted leaky) (Moves leaky touched) :=
  moves.bind fun _ => Action.keeps_pure _

end Actions

theorem moves_perform (leaky : Bool) {c : Command} (grows : growing c = true) :
    (perform c).Keeps (admitted leaky) (Moves leaky (touches c)) := by
  cases c with
  | stage name tensor => exact moves_replying (moves_stage name tensor (by simp [touches])) _
  | stageScalars name shape scalars =>
    exact moves_replying (moves_stageScalars name shape scalars (by simp [touches])) _
  | shareStaged name other =>
    exact moves_replying (moves_modify fun _ => .staging _ (by simp [touches])) _
  | constant name requested =>
    exact moves_replying (moves_constant name requested (List.Subset.refl _)) _
  | weights name bias => exact moves_replying (moves_weights name bias (List.Subset.refl _)) _
  | input name extent consumers =>
    exact moves_replying (moves_input name extent consumers (List.Subset.refl _)) _
  | output name => exact moves_replying (moves_output name (List.Subset.refl _)) _
  | activation name extent consumers | scratch name extent consumers
  | temp name extent consumers =>
    exact moves_replying (moves_allocate name extent consumers (by simp [touches])
      (by simp [touches]) (by simp [touches])) _
  | consume name consumers =>
    exact moves_replying
      (moves_change (Registry.retires_retire consumers) name (by simp [touches])) _
  | consumeAll consumers => exact moves_replying (moves_consumeAll consumers (by simp [touches])) _
  | mark name => exact moves_replying (moves_markNamed name (by simp [touches])) _
  | takeEvents => exact moves_replying (moves_takeEvents (by simp [touches])) _
  | blend | sweep => cases grows

/-! ### What is left alone -/

/-- All parts but the touched ones are the same. -/
def Agree (touched : List Part) (p q : Planner) : Prop :=
  ∀ part, part ∉ touched → part.Same p q

instance {touched : List Part} : Std.Refl (Agree touched) where
  refl _ part _ := by cases part <;> rfl

instance {touched : List Part} : Trans (Agree touched) (Agree touched) (Agree touched) where
  trans first second part outside := by
    have before := first part outside
    have after := second part outside
    cases part <;> exact Eq.trans after before

theorem agree_setSpace {touched : List Part} (p : Planner) (region : Region) (s : Space)
    (space : .space region ∈ touched) : Agree touched p (p.setSpace region s) := by
  intro part outside
  cases part with
  | space other =>
    have away : other ≠ region := by
      rintro rfl
      exact outside space
    change (p.setSpace region s).space other = p.space other
    rw [space_setSpace, Function.update_of_ne away]
  | _ => cases region <;> rfl

theorem agree_registry {touched : List Part} (p : Planner) (registry : Registry)
    (inside : .registry ∈ touched) : Agree touched p { p with registry } := by
  intro part outside
  cases part with
  | registry => exact absurd inside outside
  | _ => rfl

theorem Move.agree {leaky : Bool} {touched : List Part} {p q : Planner}
    (move : Move leaky touched p q) : Agree touched p q := by
  cases move with
  | take _ space => exact agree_setSpace p _ _ space
  | place space registry _ _ _ =>
    exact Trans.trans (agree_setSpace p _ _ space) (agree_registry _ _ registry)
  | touch registry _ => exact agree_registry p _ registry
  | staging _ inside | blob _ inside | tally _ inside | recorder _ inside | input _ inside
  | output _ inside =>
    intro part outside
    cases part <;> first | rfl | exact absurd inside outside

theorem Moves.agree {leaky : Bool} {touched : List Part} {p q : Planner}
    (moves : Moves leaky touched p q) : Agree touched p q := by
  induction moves with
  | refl => exact Std.Refl.refl p
  | tail _ move ih => exact Trans.trans ih move.agree

theorem agree_setSwept {touched : List Part} (p : Planner) (state : List Space × Registry)
    (inside : [.space .dram0, .space .scratch, .registry] ⊆ touched) :
    Agree touched p (setSwept state p) := by
  simp only [List.cons_subset, List.nil_subset, and_true] at inside
  obtain ⟨dram0, scratch, registry⟩ := inside
  match state with
  | ([first, second], entered) =>
    have one := agree_setSpace p .dram0 first dram0
    have two := agree_setSpace (p.setSpace .dram0 first) .scratch second scratch
    have three := agree_registry ((p.setSpace .dram0 first).setSpace .scratch second) entered registry
    exact Trans.trans (Trans.trans one two) three
  | ([], entered) | ([_], entered) | (_ :: _ :: _ :: _, entered) =>
    exact agree_registry p entered registry

theorem same_of_perform {c : Command} {p q : Planner} (left : (perform c p).state? = some q)
    {part : Part} (outside : part ∉ touches c) : part.Same p q := by
  suffices agree : Agree (touches c) p q from agree part outside
  rw [Outcome.state?_eq_left?] at left
  cases kind : growing c with
  | true => exact Moves.agree ((moves_perform true kind).left p q left)
  | false =>
    cases c with
    | blend name extent consumers blendees locations =>
      have blended : (blend name extent consumers blendees locations).Keeps (fun _ => true)
          (Agree [.registry, .recorder]) := by
        apply Action.Keeps.bind
        · exact Action.keeps_zoom fun p r _ => agree_registry p r (by simp)
        · intro o
          have move (p : Planner) (event : Event) : Move false [.registry, .recorder] p
              { p with recorder := p.recorder.record event } :=
            .recorder _ (by simp) Option.isSome_map
          apply Action.Keeps.bind _ fun _ => Action.keeps_pure o
          exact Action.keeps_modify fun p => (move p _).agree
      exact (blended.bind fun _ => Action.keeps_pure _).left p q left
    | sweep =>
      have swept : sweep.Keeps (fun _ => true)
          (Agree [.space .dram0, .space .scratch, .registry]) :=
        Action.keeps_zoom fun p state _ => agree_setSwept p state (List.Subset.refl _)
      exact (swept.bind fun _ => Action.keeps_pure _).left p q left
    | _ => cases kind

end Planner

end VectorMemory
