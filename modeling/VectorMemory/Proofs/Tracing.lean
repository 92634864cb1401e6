import VectorMemory.Compile
import VectorMemory.Proofs.Outcome

/-! Tracing decides nothing. Every operation does the same whether tracepoints and
records are taken away before it or after it, so runs that differ in tracing only
differ in their records only. -/
namespace VectorMemory

namespace Outcome

def mapState (f : σ → τ) : Outcome σ α → Outcome τ α
  | .done a s => .done a (f s)
  | .failed cause s => .failed cause (f s)
  | .fault cause => .fault cause

theorem state?_mapState (f : σ → τ) (outcome : Outcome σ α) :
    (outcome.mapState f).state? = outcome.state?.map f := by
  cases outcome <;> rfl

theorem mapState_mapState (f : σ → τ) (g : τ → ρ) (outcome : Outcome σ α) :
    (outcome.mapState f).mapState g = outcome.mapState fun s => g (f s) := by
  cases outcome <;> rfl

end Outcome

/-! ### Operations and a change of the state -/

namespace Action

/-- It makes no difference whether the state is changed before the operation or
after it. -/
def Commutes (f : σ → σ) (action : Action σ α) : Prop :=
  ∀ s, action (f s) = (action s).mapState f

variable {f : σ → σ}

theorem Commutes.bind {first : Action σ α} {next : α → Action σ β} (before : first.Commutes f)
    (after : ∀ a, (next a).Commutes f) : (first >>= next).Commutes f := by
  intro s
  rw [bind_apply, bind_apply, before s]
  cases first s with
  | done a middle => exact after a middle
  | failed | fault => rfl

theorem commutes_pure (a : α) : (Pure.pure a : Action σ α).Commutes f :=
  fun _ => rfl

theorem commutes_fail (cause : MemoryError) : (fail cause : Action σ α).Commutes f :=
  fun _ => rfl

theorem commutes_ofResult (result : Except MemoryError α) :
    (ofResult result : Action σ α).Commutes f := by
  intro s
  cases result <;> rfl

theorem commutes_ofExcept (result : Except Fault α) : (ofExcept result : Action σ α).Commutes f := by
  intro s
  cases result <;> rfl

theorem commutes_modify {g : σ → σ} (swap : ∀ s, g (f s) = f (g s)) : (modify g).Commutes f :=
  fun s => congrArg (Outcome.done ()) (swap s)

/-- What follows may read of the state only what the change leaves alone. -/
theorem commutes_get {next : σ → Action σ α} (same : ∀ s, next (f s) = next s)
    (after : ∀ s, (next s).Commutes f) : (get >>= next).Commutes f := by
  intro s
  rw [bind_apply, bind_apply, get_apply, get_apply]
  dsimp only
  rw [same]
  exact after s s

theorem commutes_zoom {part : σ → τ} {put : τ → σ → σ} {action : Action τ α}
    (same : ∀ s, part (f s) = part s) (swap : ∀ inner s, put inner (f s) = f (put inner s)) :
    (zoom part put action).Commutes f := by
  intro s
  unfold zoom
  rw [same]
  cases action (part s) with
  | done a inner | failed cause inner =>
    dsimp only
    rw [swap]
    rfl
  | fault cause => rfl

end Action

namespace Planner

def untraced (p : Planner) : Planner :=
  { p with tracepoints := [], recorder := .silent }

theorem mark_untraced (p : Planner) (o : Object) : p.untraced.mark o = (p.mark o).untraced := by
  have none : p.untraced.marks o = [] := rfl
  have same : (p.mark o).untraced = p.untraced := by
    unfold mark
    split <;> rfl
  rw [same, mark, none]

/-! ### Operations -/

theorem commutes_allocate (region : Region) (name : String) (extent : Extent)
    (consumers : List String) : (allocate region name extent consumers).Commutes untraced := by
  apply Action.Commutes.bind
  · apply Action.commutes_zoom
    · intro p
      cases region <;> rfl
    · intro inner p
      cases region <;> rfl
  · intro o
    apply (Action.commutes_modify fun p => mark_untraced p o).bind
    exact fun _ => Action.commutes_pure o

theorem commutes_stage (name : String) (tensor : Tensor) : (stage name tensor).Commutes untraced := by
  refine Action.commutes_get (fun _ => rfl) fun _ => ?_
  apply (Action.commutes_ofResult _).bind
  intro _
  exact Action.commutes_modify fun _ => rfl

theorem commutes_stageScalars (name : String) (shape : List Nat) (scalars : Scalars) :
    (stageScalars name shape scalars).Commutes untraced := by
  apply (Action.commutes_ofExcept _).bind
  intro result
  cases result with
  | ok tensor => exact commutes_stage name tensor
  | error cause => exact Action.commutes_fail _

theorem commutes_shareStaged (name other : String) : (shareStaged name other).Commutes untraced :=
  Action.commutes_modify fun _ => rfl

theorem commutes_checkPosition (o : Object) : (checkPosition o).Commutes untraced := by
  unfold checkPosition
  cases o.span.first? with
  | none => exact Action.commutes_pure _
  | some first =>
    refine Action.commutes_get (fun _ => rfl) fun _ => ?_
    apply (Action.commutes_ofExcept _).bind
    intro _
    apply (Action.commutes_ofExcept _).bind
    intro _
    split
    · exact Action.commutes_pure _
    · exact Action.commutes_fail _

theorem commutes_constant (name : String) (requested : Option Extent) :
    (constant name requested).Commutes untraced := by
  refine Action.commutes_get (fun _ => rfl) fun _ => ?_
  split
  · exact Action.commutes_ofResult _
  · apply (Action.commutes_ofResult _).bind
    intro _
    apply (Action.commutes_ofResult _).bind
    intro _
    apply (Action.commutes_ofExcept _).bind
    intro _
    apply (Action.commutes_ofResult _).bind
    intro (extent, replicated)
    apply (commutes_allocate _ name extent _).bind
    intro o
    apply (commutes_checkPosition o).bind
    intro _
    refine Action.Commutes.bind (Action.commutes_zoom (fun _ => rfl) fun _ _ => rfl) fun _ => ?_
    refine Action.commutes_get (fun _ => rfl) fun _ => ?_
    apply (Action.commutes_ofExcept _).bind
    intro _
    exact Action.Commutes.bind (Action.commutes_modify fun _ => rfl) fun _ => Action.commutes_pure o

theorem commutes_weights (name : String) (bias : Option String) :
    (weights name bias).Commutes untraced := by
  apply (commutes_constant name none).bind
  intro _
  cases bias with
  | none => exact Action.commutes_pure _
  | some bias => exact (commutes_constant bias none).bind fun _ => Action.commutes_pure _

theorem commutes_input (name : String) (extent : Extent) (consumers : List String) :
    (input name extent consumers).Commutes untraced := by
  apply (commutes_allocate _ name extent _).bind
  intro o
  exact Action.Commutes.bind (Action.commutes_modify fun _ => rfl) fun _ => Action.commutes_pure o

theorem commutes_inRegistry (action : Action Registry α) : (inRegistry action).Commutes untraced :=
  Action.commutes_zoom (fun _ => rfl) fun _ _ => rfl

theorem commutes_output (name : String) : (output name).Commutes untraced := by
  have row (o : Object) : (Action.modify (addOutput name o.id)).Commutes untraced :=
    Action.commutes_modify fun _ => rfl
  refine Action.commutes_get (fun _ => rfl) fun _ => ?_
  apply (Action.commutes_ofResult _).bind
  intro produced
  cases produced.region with
  | dram0 =>
    apply (commutes_inRegistry _).bind
    intro o
    exact (row o).bind fun _ => Action.commutes_pure _
  | scratch =>
    apply (commutes_allocate _ _ _ _).bind
    intro o
    exact (row o).bind fun _ => Action.commutes_pure _
  | dram1 | temp => exact Action.commutes_fail _

theorem commutes_consumeAll (consumers : List String) : (consumeAll consumers).Commutes untraced :=
  Action.commutes_modify fun _ => rfl

theorem commutes_blend (name : String) (extent : Extent) (consumers blendees : List String)
    (locations : List Location) :
    (blend name extent consumers blendees locations).Commutes untraced := by
  apply (commutes_inRegistry _).bind
  intro o
  exact Action.Commutes.bind (Action.commutes_modify fun _ => rfl) fun _ => Action.commutes_pure o

theorem commutes_sweep : sweep.Commutes untraced := by
  refine Action.commutes_zoom (fun _ => rfl) fun state p => ?_
  unfold setSwept
  split <;> rfl

theorem commutes_markNamed (name : String) : (markNamed name).Commutes untraced := by
  refine Action.commutes_get (fun _ => rfl) fun _ => ?_
  apply (Action.commutes_ofResult _).bind
  intro o
  exact Action.commutes_modify fun p => mark_untraced p o

theorem commutes_replying {action : Action Planner α} (commutes : action.Commutes untraced)
    (reply : α → Reply) : (replying reply action).Commutes untraced :=
  commutes.bind fun _ => Action.commutes_pure _

/-- Only the command that hands out the records looks at them. -/
theorem commutes_perform {c : Command} (other : c ≠ .takeEvents) :
    (perform c).Commutes untraced := by
  cases c with
  | stage name tensor => exact commutes_replying (commutes_stage name tensor) _
  | stageScalars name shape scalars =>
    exact commutes_replying (commutes_stageScalars name shape scalars) _
  | shareStaged name second => exact commutes_replying (commutes_shareStaged name second) _
  | constant name requested => exact commutes_replying (commutes_constant name requested) _
  | weights name bias => exact commutes_replying (commutes_weights name bias) _
  | input name extent consumers => exact commutes_replying (commutes_input name extent consumers) _
  | output name => exact commutes_replying (commutes_output name) _
  | activation name extent consumers | scratch name extent consumers
  | temp name extent consumers =>
    exact commutes_replying (commutes_allocate _ name extent consumers) _
  | consume => exact commutes_replying (commutes_inRegistry _) _
  | consumeAll consumers => exact commutes_replying (commutes_consumeAll consumers) _
  | blend name extent consumers blendees locations =>
    exact commutes_replying (commutes_blend name extent consumers blendees locations) _
  | sweep => exact commutes_replying commutes_sweep _
  | mark name => exact commutes_replying (commutes_markNamed name) _
  | takeEvents => exact absurd rfl other

end Planner

theorem Call.commutes_run {call : Call} (other : call ≠ .command .takeEvents) :
    call.run.Commutes Planner.untraced := by
  cases call with
  | command c =>
    apply Planner.commutes_perform
    rintro rfl
    exact other rfl
  | query q =>
    apply Action.commutes_get
    · intro p
      cases q <;> rfl
    · intro _
      exact (Action.commutes_ofExcept _).bind fun _ => Action.commutes_ofResult _

/-! ### Runs -/

namespace Planner

def surface (p : Planner) : List Space × Registry :=
  (Region.all.map p.space, p.registry)

/-- How calls end one after another, and the spaces and the registry after each.
Failures are passed over; a fault ends the list. -/
def transcript : List Call → Planner → List (Outcome (List Space × Registry) Reply)
  | [], _ => []
  | call :: calls, p =>
      (call.run p).mapState surface ::
        match (call.run p).state? with
        | none => []
        | some q => transcript calls q

def afterCalls (calls : List Call) (p : Planner) : Option Planner :=
  calls.foldlM (fun p call => (call.run p).state?) p

def Program.untraced (program : Program) : Program :=
  { program with events := [] }

theorem transcript_untraced {calls : List Call} (untaken : .command .takeEvents ∉ calls)
    (p : Planner) : transcript calls p.untraced = transcript calls p := by
  induction calls generalizing p with
  | nil => rfl
  | cons call calls ih =>
    rw [List.mem_cons, not_or] at untaken
    have surfaces : (fun q : Planner => q.untraced.surface) = surface := rfl
    rw [transcript, transcript, Call.commutes_run (Ne.symm untaken.1) p, Outcome.mapState_mapState,
      surfaces, Outcome.state?_mapState]
    cases (call.run p).state? with
    | none => rfl
    | some q => exact congrArg _ (ih untaken.2 q)

theorem afterCalls_untraced {calls : List Call} (untaken : .command .takeEvents ∉ calls)
    (p : Planner) : afterCalls calls p.untraced = (afterCalls calls p).map untraced := by
  induction calls generalizing p with
  | nil => rfl
  | cons call calls ih =>
    rw [List.mem_cons, not_or] at untaken
    unfold afterCalls at ih ⊢
    rw [List.foldlM_cons, List.foldlM_cons, Call.commutes_run (Ne.symm untaken.1) p,
      Outcome.state?_mapState]
    cases (call.run p).state? with
    | none => rfl
    | some q => exact ih untaken.2 q

theorem start_of_valid {config : Config} (valid : config.validate = .ok ()) (recorder : Recorder) :
    ∃ p, start config recorder = .ok p := by
  rw [start, valid]
  exact ⟨_, rfl⟩

theorem untraced_start {config config' : Config} {recorder recorder' : Recorder} {p q : Planner}
    (same : config.arch = config'.arch) (started : start config recorder = .ok p)
    (started' : start config' recorder' = .ok q) : p.untraced = q.untraced := by
  obtain ⟨_, -, made⟩ := bind_eq_ok.mp started
  obtain ⟨_, -, made'⟩ := bind_eq_ok.mp started'
  cases made
  cases made'
  rw [untraced, untraced, same]

end Planner

/-! ### Compiles -/

def Reply.untraced : Reply → Reply
  | .events _ => .events []
  | reply => reply

def LogEntry.untraced : LogEntry → LogEntry
  | .reply answer => .reply answer.untraced
  | entry => entry

def Compiled.untraced (c : Compiled) : Compiled :=
  { c with events := [] }

/-- The ends of one call with and without tracing. -/
inductive Call.Alike : Outcome Planner Reply → Outcome Planner Reply → Prop where
  | done {a b : Reply} {p : Planner} : a.untraced = b.untraced → Alike (.done a p) (.done b p.untraced)
  | failed {cause : MemoryError} {p : Planner} : Alike (.failed cause p) (.failed cause p.untraced)
  | fault {cause : Fault} : Alike (.fault cause) (.fault cause)

theorem Call.alike_run (call : Call) (p : Planner) : Alike (call.run p) (call.run p.untraced) := by
  by_cases taken : call = .command .takeEvents
  · subst taken
    exact .done rfl
  · rw [Call.commutes_run taken p]
    cases call.run p with
    | done => exact .done rfl
    | failed => exact .failed
    | fault => exact .fault

/-- What a run shows and how it ends, first as it is and then without tracing. -/
inductive Muted (mute : β → β) : List LogEntry × β → List LogEntry × β → Prop where
  | intro {log log' : List LogEntry} {result : β} :
      log'.map LogEntry.untraced = log.map LogEntry.untraced →
      Muted mute (log, result) (log', mute result)

theorem Muted.log {mute : β → β} {traced plain : List LogEntry × β} (muted : Muted mute traced plain) :
    plain.1.map LogEntry.untraced = traced.1.map LogEntry.untraced := by
  cases muted with
  | intro logs => exact logs

theorem Muted.result {mute : β → β} {traced plain : List LogEntry × β}
    (muted : Muted mute traced plain) : plain.2 = mute traced.2 := by
  cases muted
  rfl

theorem Script.run_untraced (script : Script) (p : Planner) :
    Muted (Outcome.mapState Planner.untraced) (script.run p) (script.run p.untraced) := by
  induction script generalizing p with
  | nil => exact .intro rfl
  | cons step rest ih =>
    have alike := step.call.alike_run p
    rw [Script.run, Script.run]
    generalize step.call.run p = traced, step.call.run p.untraced = plain at alike
    cases alike with
    | fault => exact .intro rfl
    | @done a b q same =>
      have later := ih q
      dsimp only
      generalize Script.run rest q = traced, Script.run rest q.untraced = plain at later
      cases later with
      | intro logs =>
        apply Muted.intro
        simp only [List.map_cons, LogEntry.untraced, logs, same]
    | @failed cause q =>
      dsimp only
      split
      · have later := ih q
        generalize Script.run rest q = traced, Script.run rest q.untraced = plain at later
        cases later with
        | intro logs =>
          apply Muted.intro
          simp only [List.map_cons, logs]
      · exact .intro rfl

namespace Compile

theorem emit_untraced (layer : Layer) (p : Planner) :
    Muted (Outcome.mapState Planner.untraced) (emit layer p) (emit layer p.untraced) := by
  have same := layer.script.run_untraced p
  unfold emit
  generalize layer.script.run p = traced, layer.script.run p.untraced = plain at same
  cases same with
  | @intro log log' outcome logs =>
    cases outcome with
    | failed | fault => exact .intro logs
    | done _ q =>
      dsimp only [Outcome.mapState]
      rw [Planner.commutes_sweep q]
      exact .intro logs

/-- A verdict on layers, and the planner without tracing. -/
def untraced (verdict : Verdict (List LayerReport × Planner)) :
    Verdict (List LayerReport × Planner) :=
  verdict.map (·.map fun (reports, p) => (reports, p.untraced))

theorem runLayers_untraced (index : Nat) (layers : List Layer) (p : Planner) :
    Muted untraced (runLayers index layers p) (runLayers index layers p.untraced) := by
  induction layers generalizing index p with
  | nil => exact .intro rfl
  | cons layer rest ih =>
    have same := emit_untraced layer p
    rw [runLayers, runLayers]
    generalize emit layer p = traced, emit layer p.untraced = plain at same
    cases same with
    | @intro log log' outcome logs =>
      cases outcome with
      | failed | fault => exact .intro (congrArg (LogEntry.layer index :: ·) logs)
      | done freed q =>
        have later := ih (index + 1) q
        dsimp only [proceed, Outcome.mapState]
        generalize runLayers (index + 1) rest q = traced,
          runLayers (index + 1) rest q.untraced = plain at later
        cases later with
        | @intro later later' verdict logs' =>
          have shown : (LogEntry.layer index :: log' ++ later').map LogEntry.untraced =
              (LogEntry.layer index :: log ++ later).map LogEntry.untraced := by
            rw [List.cons_append, List.cons_append, List.map_cons, List.map_cons, List.map_append,
              List.map_append, logs, logs']
          rcases verdict with _ | _ | _ <;> exact .intro shown

theorem runModel_untraced (model : Model) (p : Planner) :
    Muted untraced (runModel model p) (runModel model p.untraced) := by
  have same := model.traversal.run_untraced p
  unfold runModel
  generalize model.traversal.run p = traced, model.traversal.run p.untraced = plain at same
  cases same with
  | @intro log log' outcome logs =>
    cases outcome with
    | failed | fault => exact .intro logs
    | done _ q =>
      have later := runLayers_untraced 0 model.layers q
      dsimp only [Outcome.mapState]
      generalize runLayers 0 model.layers q = traced,
        runLayers 0 model.layers q.untraced = plain at later
      cases later with
      | intro logs' =>
        apply Muted.intro
        rw [List.map_append, List.map_append, logs, logs']

theorem conclude_untraced (stamp : Stamp) (layers : Nat)
    (verdict : Verdict (List LayerReport × Planner)) :
    (conclude stamp layers (untraced verdict)).map (·.map Compiled.untraced) =
      (conclude stamp layers verdict).map (·.map Compiled.untraced) := by
  rcases verdict with _ | _ | ⟨reports, p⟩
  · rfl
  · rfl
  · have tally : p.untraced.finish.tally.utilization p.untraced.arch.lanes =
        p.finish.tally.utilization p.arch.lanes := rfl
    simp only [untraced, Except.map, conclude, finish, tally]
    cases p.finish.tally.utilization p.arch.lanes <;> rfl

theorem run_of_untraced {config config' : Config} {recorder recorder' : Recorder} {p q : Planner}
    (same : p.untraced = q.untraced) (started : Planner.start config recorder = .ok p)
    (started' : Planner.start config' recorder' = .ok q) (stamp : Stamp) (model : Model) :
    (run stamp config recorder model).1.map LogEntry.untraced =
        (run stamp config' recorder' model).1.map LogEntry.untraced ∧
      (run stamp config recorder model).2.map (·.map Compiled.untraced) =
        (run stamp config' recorder' model).2.map (·.map Compiled.untraced) := by
  have first := runModel_untraced model p
  have second := runModel_untraced model q
  rw [same] at first
  rw [run_of_start started, run_of_start started']
  constructor
  · exact first.log.symm.trans second.log
  · dsimp only
    rw [← conclude_untraced, ← first.result, second.result, conclude_untraced]

end Compile

/-- Neither tracepoints nor a record decide anything: all calls end alike, leave the
same spaces and objects, and make the same program but for its records; and so does
every compile, whatever its scripts do. -/
theorem Planner.tracing_invisible {config config' : Config} (valid : config.validate = .ok ())
    (valid' : config'.validate = .ok ()) (same : config.arch = config'.arch)
    (recorder recorder' : Recorder) :
    (∃ p q, start config recorder = .ok p ∧ start config' recorder' = .ok q ∧
      ∀ calls, .command .takeEvents ∉ calls →
        transcript calls p = transcript calls q ∧
          (afterCalls calls p).map (·.finish.untraced) =
            (afterCalls calls q).map (·.finish.untraced)) ∧
      ∀ stamp model,
        (Compile.run stamp config recorder model).1.map LogEntry.untraced =
            (Compile.run stamp config' recorder' model).1.map LogEntry.untraced ∧
          (Compile.run stamp config recorder model).2.map (·.map Compiled.untraced) =
            (Compile.run stamp config' recorder' model).2.map (·.map Compiled.untraced) := by
  obtain ⟨p, started⟩ := start_of_valid valid recorder
  obtain ⟨q, started'⟩ := start_of_valid valid' recorder'
  have alike := untraced_start same started started'
  refine ⟨⟨p, q, started, started', fun calls untaken => ⟨?_, ?_⟩⟩,
    Compile.run_of_untraced alike started started'⟩
  · rw [← transcript_untraced untaken p, alike, transcript_untraced untaken]
  · have finished (r : Planner) : (afterCalls calls r).map (·.finish.untraced) =
        (afterCalls calls r.untraced).map (·.finish.untraced) := by
      rw [afterCalls_untraced untaken, Option.map_map]
      rfl
    rw [finished p, finished q, alike]

/-- A blend, a request that does not fit, and a sweep. -/
def crowded : List Call :=
  [.command (.input "x" ⟨3, 3⟩ ["f"]), .command (.activation "a" ⟨2, 2⟩ []),
    .command (.activation "b" ⟨2, 2⟩ []), .command (.blend "c" ⟨1, 1⟩ ["f"] ["a"] [⟨.dram0, 4⟩]),
    .command .sweep, .query .objects]

theorem Planner.tracing_invisible_crowded :
    ∃ p q p' q', start ⟨⟨.float32, 1, 6, 0, 0⟩, []⟩ .silent = .ok p ∧
      start ⟨⟨.float32, 1, 6, 0, 0⟩, [⟨none, some ⟨2, 4⟩, none⟩]⟩ .recording = .ok q ∧
      afterCalls crowded p = some p' ∧ afterCalls crowded q = some q' ∧
      p'.finish.events = [] ∧
      q'.finish.events = [.placed .beforeProgram [(⟨.dram0, 2⟩, ⟨"x", 2⟩)],
        .placed .beforeProgram [(⟨.dram0, 3⟩, ⟨"a", 0⟩)], .blended "c" ["a"]] ∧
      transcript crowded p = transcript crowded q ∧ p'.finish.untraced = q'.finish.untraced := by
  obtain ⟨⟨p, q, started, started', alike⟩, -⟩ := @tracing_invisible
    ⟨⟨.float32, 1, 6, 0, 0⟩, []⟩ ⟨⟨.float32, 1, 6, 0, 0⟩, [⟨none, some ⟨2, 4⟩, none⟩]⟩ rfl rfl rfl
    .silent .recording
  have events : ((start ⟨⟨.float32, 1, 6, 0, 0⟩, []⟩ .silent).toOption.bind fun p =>
      (start ⟨⟨.float32, 1, 6, 0, 0⟩, [⟨none, some ⟨2, 4⟩, none⟩]⟩ .recording).toOption.bind fun q =>
        (afterCalls crowded p).bind fun p' => (afterCalls crowded q).map fun q' =>
          (p'.finish.events, q'.finish.events)) =
      some ([], [.placed .beforeProgram [(⟨.dram0, 2⟩, ⟨"x", 2⟩)],
        .placed .beforeProgram [(⟨.dram0, 3⟩, ⟨"a", 0⟩)], .blended "c" ["a"]]) := by decide +kernel
  simp only [started, started', Except.toOption, Option.bind_some] at events
  obtain ⟨p', run, events⟩ := Option.bind_eq_some_iff.mp events
  obtain ⟨q', run', events⟩ := Option.map_eq_some_iff.mp events
  obtain ⟨silent, recorded⟩ := Prod.mk.inj events
  obtain ⟨replies, finished⟩ := alike crowded (by decide)
  rw [run, run'] at finished
  exact ⟨p, q, p', q', started, started', run, run', silent, recorded, replies,
    Option.some.inj finished⟩

end VectorMemory
