import VectorMemory.Compile
import VectorMemory.Proofs.LiveViews

/-! A layer that does nothing changes nothing but the numbers of the layers behind it.
A sweep leaves nothing for the next one, so the sweep of an idle layer is idle, too. -/
namespace VectorMemory

/-! ### Sweeping twice -/

theorem Registry.sweep_of_garbage_eq_nil {spaces : List Space} {r : Registry}
    (none : r.garbage (spaces.map Space.region) = []) : sweep (spaces, r) = .done 0 (spaces, r) := by
  unfold garbage at none
  simp only [sweep, Action.bind_apply, Action.get_apply, none]
  rfl

/-- A sweep leaves no garbage. -/
theorem Memory.garbage_of_sweep {m m' : Memory} {regions : List Region} (sound : m.Sound)
    (after : m'.Sound) (drops : Drops m (m.registry.garbage regions) m') :
    m'.registry.garbage regions = [] := by
  rw [List.eq_nil_iff_forall_not_mem]
  intro o member
  obtain ⟨registered, garbage⟩ := List.mem_filter.mp member
  have live : o.isLive = true := by
    simp only [Registry.isGarbage, Bool.and_eq_true] at garbage
    exact garbage.1.1
  have found := after.coherent.mem_objects.mp registered
  obtain ⟨before, kept⟩ := (found_of_sweep sound drops live).mp found
  exact kept (List.mem_filter.mpr ⟨sound.coherent.mem_objects.mpr before, garbage⟩)

namespace Planner

theorem setSwept_swept (p : Planner) : setSwept p.swept p = p :=
  rfl

variable {p q : Planner} {freed : Nat}

theorem perform_of_sweep (done : sweep p = .done freed q) :
    perform .sweep p = .done (.count freed) q :=
  replying_eq_done.mpr ⟨freed, done, rfl⟩

theorem sound_sweep (sound : p.memory.Sound) (done : sweep p = .done freed q) : q.memory.Sound :=
  sound_of_done sound (perform_of_sweep done)

theorem sweep_again (sound : p.memory.Sound) (done : sweep p = .done freed q) :
    sweep q = .done 0 q := by
  have after : q.memory.Sound := sound_sweep sound done
  have drops := (perform_sweep_done sound (perform_of_sweep done)).1
  have none := Memory.garbage_of_sweep sound after drops
  have idle : Registry.sweep q.swept = .done 0 q.swept := by
    apply Registry.sweep_of_garbage_eq_nil
    exact (congrArg (Registry.garbage · q.registry) (swept_regions after.formed)).trans none
  rw [sweep, Action.zoom_eq_done]
  exact ⟨q.swept, idle, setSwept_swept q⟩

end Planner

/-! ### Scripts keep a plan sound -/

theorem Call.sound_run {call : Call} {p q : Planner} (sound : p.memory.Sound)
    (left : (call.run p).state? = some q) : q.memory.Sound := by
  cases call with
  | command c => exact Planner.sound_perform sound left
  | query question =>
    simp only [Call.run, Action.bind_apply, Action.get_apply] at left
    generalize p.answer question = answer at left
    rcases answer with _ | _ | _ <;> cases left <;> exact sound

theorem Script.sound_run {script : Script} {p q : Planner} (sound : p.memory.Sound)
    (run : (script.run p).2 = .done () q) : q.memory.Sound := by
  induction script generalizing p with
  | nil =>
    cases run
    exact sound
  | cons step rest ih =>
    have keeps {middle : Planner} (left : (step.call.run p).state? = some middle) :
        middle.memory.Sound := Call.sound_run sound left
    rw [Script.run] at run
    cases ended : step.call.run p with
    | fault cause =>
      rw [ended] at run
      cases run
    | done reply middle =>
      rw [ended] at run
      exact ih (keeps (by rw [ended]; rfl)) run
    | failed cause middle =>
      simp only [ended] at run
      split at run
      · exact ih (keeps (by rw [ended]; rfl)) run
      · cases run

namespace Compile

/-- After a layer and its sweep there is nothing to sweep. -/
theorem emit_settles {layer : Layer} {p q : Planner} {freed : Nat} (sound : p.memory.Sound)
    (done : (emit layer p).2 = .done freed q) : q.memory.Sound ∧ Planner.sweep q = .done 0 q := by
  unfold emit at done
  cases ended : layer.script.run p with
  | mk log outcome =>
    rw [ended] at done
    cases outcome with
    | failed | fault => cases done
    | done _ middle =>
      have between : middle.memory.Sound := Script.sound_run sound (by rw [ended])
      exact ⟨Planner.sound_sweep between done, Planner.sweep_again between done⟩

end Compile

/-! ### Numbers of layers -/

/-- The number of a layer after one was inserted as number `start`. -/
def shiftFrom (start index : Nat) : Nat :=
  if start ≤ index then index + 1 else index

def LayerReport.shift (start : Nat) (r : LayerReport) : LayerReport :=
  { r with layer := shiftFrom start r.layer }

def CompileError.shift (start : Nat) : CompileError → CompileError
  | .layer index cause => .layer (shiftFrom start index) cause
  | cause => cause

namespace Compile

/-- A verdict on layers after one was inserted. -/
def renumber (start : Nat) (verdict : Verdict (List LayerReport × Planner)) :
    Verdict (List LayerReport × Planner) :=
  verdict.map fun
    | .error cause => .error (cause.shift start)
    | .ok (reports, p) => .ok (reports.map (·.shift start), p)

theorem report_shift (start index : Nat) (layer : Layer) (freed : Nat) :
    (report index layer freed).map (·.shift start) = report (shiftFrom start index) layer freed := by
  unfold report
  cases layer.name <;> rfl

theorem proceed_renumber {start index index' : Nat} {layer : Layer}
    {next next' : Planner → List LogEntry × Verdict (List LayerReport × Planner)}
    {ended : List LogEntry × Outcome Planner Nat} (number : index' = shiftFrom start index)
    (later : ∀ freed q, ended.2 = .done freed q → (next' q).2 = renumber start (next q).2) :
    (proceed index' layer next' ended).2 = renumber start (proceed index layer next ended).2 := by
  subst number
  obtain ⟨log, outcome⟩ := ended
  cases outcome with
  | failed | fault => rfl
  | done freed q =>
    simp only [proceed, later freed q rfl]
    rcases (next q).2 with _ | _ | _
    · rfl
    · rfl
    · simp [renumber, Except.map, report_shift]

theorem runLayers_succ {start index : Nat} (behind : start ≤ index) (layers : List Layer)
    (p : Planner) :
    (runLayers (index + 1) layers p).2 = renumber start (runLayers index layers p).2 := by
  induction layers generalizing index p with
  | nil => rfl
  | cons layer rest ih =>
    rw [runLayers, runLayers]
    apply proceed_renumber (if_pos behind).symm
    intro freed q _
    exact ih (Nat.le_succ_of_le behind) q

def idle (instructions : Nat) : Layer :=
  ⟨none, instructions, []⟩

theorem runLayers_idle {index instructions : Nat} {rest : List Layer} {p : Planner}
    (settled : Planner.sweep p = .done 0 p) :
    (runLayers index (idle instructions :: rest) p).2 = (runLayers (index + 1) rest p).2 := by
  have emitted : emit (idle instructions) p = ([], .done 0 p) := by
    rw [← settled]
    rfl
  rw [runLayers, emitted]
  rcases ended : (runLayers (index + 1) rest p).2 with _ | _ | _ <;>
    simp [proceed, ended, report, idle, Except.map]

theorem runLayers_insert {p : Planner} (sound : p.memory.Sound) (index instructions : Nat)
    (before : List Layer) (last : Layer) (after : List Layer) :
    (runLayers index (before ++ last :: idle instructions :: after) p).2 =
      renumber (index + before.length + 1) (runLayers index (before ++ last :: after) p).2 := by
  induction before generalizing index p with
  | nil =>
    rw [List.nil_append, List.nil_append, runLayers, runLayers]
    apply proceed_renumber (if_neg (by omega)).symm
    intro freed q done
    rw [runLayers_idle (emit_settles sound done).2]
    exact runLayers_succ (Nat.le_refl _) after q
  | cons layer rest ih =>
    rw [List.cons_append, List.cons_append, runLayers, runLayers]
    apply proceed_renumber (if_neg (by omega)).symm
    intro freed q done
    have place : index + (layer :: rest).length + 1 = index + 1 + rest.length + 1 := by
      rw [List.length_cons]
      omega
    rw [place]
    exact ih (emit_settles sound done).1 (index + 1)

theorem runModel_insert {p : Planner} (sound : p.memory.Sound) (traversal : Script)
    (instructions : Nat) (before : List Layer) (last : Layer) (after : List Layer) :
    (runModel ⟨traversal, before ++ last :: idle instructions :: after⟩ p).2 =
      renumber (before.length + 1) (runModel ⟨traversal, before ++ last :: after⟩ p).2 := by
  unfold runModel
  cases ended : traversal.run p with
  | mk log outcome =>
    cases outcome with
    | failed | fault => rfl
    | done _ q =>
      have staged : q.memory.Sound := Script.sound_run sound (by rw [ended])
      have inserted := runLayers_insert staged 0 instructions before last after
      rw [Nat.zero_add] at inserted
      exact inserted

end Compile

def Compiled.shift (start : Nat) (c : Compiled) : Compiled :=
  { c with
    reports := c.reports.map (·.shift start)
    manifest := { c.manifest with layers := c.manifest.layers + 1 } }

namespace Compile

def inserted (start : Nat) (verdict : Verdict Compiled) : Verdict Compiled :=
  verdict.map fun
    | .error cause => .error (cause.shift start)
    | .ok compiled => .ok (compiled.shift start)

theorem conclude_renumber (stamp : Stamp) (layers start : Nat)
    (verdict : Verdict (List LayerReport × Planner)) :
    conclude stamp (layers + 1) (renumber start verdict) =
      inserted start (conclude stamp layers verdict) := by
  rcases verdict with _ | _ | ⟨reports, p⟩
  · rfl
  · rfl
  · simp only [renumber, Except.map, conclude, finish]
    cases p.finish.tally.utilization p.arch.lanes <;> rfl

/-- A layer that makes no call and no report, put behind any layer, leaves the outcome
of a compile as it was, up to the numbers of the layers behind it and the number of
layers. -/
theorem idle_layer_invisible (stamp : Stamp) (config : Config) (recorder : Recorder)
    (traversal : Script) (instructions : Nat) (before : List Layer) (last : Layer)
    (after : List Layer) :
    (run stamp config recorder ⟨traversal, before ++ last :: idle instructions :: after⟩).2 =
      inserted (before.length + 1)
        (run stamp config recorder ⟨traversal, before ++ last :: after⟩).2 := by
  cases started : Planner.start config recorder with
  | error cause =>
    rw [run, run, started]
    rfl
  | ok p =>
    have length : (before ++ last :: idle instructions :: after).length =
        (before ++ last :: after).length + 1 := by
      simp only [List.length_append, List.length_cons, Nat.add_assoc]
    rw [run_of_start started, run_of_start started, length]
    dsimp only
    rw [runModel_insert (Planner.sound_start started), conclude_renumber]

end Compile

end VectorMemory
