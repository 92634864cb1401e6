import VectorMemory.Outcome

/-! Taking composed operations apart. A computation that may stop is a chain of
parts; what the whole did is read off from what each part did. -/
namespace VectorMemory

theorem bind_eq_ok {first : Except ε α} {next : α → Except ε β} {b : β} :
    (first >>= next) = .ok b ↔ ∃ a, first = .ok a ∧ next a = .ok b := by
  cases first with
  | ok a => exact ⟨fun done => ⟨a, rfl, done⟩, fun ⟨_, same, done⟩ => by cases same; exact done⟩
  | error cause => simp [bind, Except.bind]

theorem map_eq_ok {result : Except ε α} {f : α → β} {b : β} :
    result.map f = .ok b ↔ ∃ a, result = .ok a ∧ f a = b := by
  cases result <;> simp [Except.map]

theorem map_eq_error {result : Except ε α} {f : α → β} {cause : ε} :
    result.map f = .error cause ↔ result = .error cause := by
  cases result <;> simp [Except.map]

theorem toOption_eq_some {result : Except ε α} {a : α} :
    result.toOption = some a ↔ result = .ok a := by
  cases result <;> simp [Except.toOption]

namespace Outcome

theorem state?_eq_some {outcome : Outcome σ α} {s : σ} :
    outcome.state? = some s ↔ (∃ a, outcome = .done a s) ∨ ∃ cause, outcome = .failed cause s := by
  cases outcome <;> simp [state?]

/-- The state that an operation leaves, unless it fails with a cause that is not
admitted. -/
def left? (admits : MemoryError → Bool) : Outcome σ α → Option σ
  | .done _ state => some state
  | .failed cause state => if admits cause then some state else none
  | .fault _ => none

theorem left?_eq_some {admits : MemoryError → Bool} {outcome : Outcome σ α} {s : σ} :
    outcome.left? admits = some s ↔
      (∃ a, outcome = .done a s) ∨ ∃ cause, outcome = .failed cause s ∧ admits cause = true := by
  cases outcome <;> simp [left?, and_comm]

theorem state?_eq_left? (outcome : Outcome σ α) : outcome.state? = outcome.left? fun _ => true := by
  cases outcome <;> rfl

theorem state?_of_left? {admits : MemoryError → Bool} {outcome : Outcome σ α} {s : σ}
    (left : outcome.left? admits = some s) : outcome.state? = some s := by
  rcases left?_eq_some.mp left with ⟨a, rfl⟩ | ⟨cause, rfl, -⟩ <;> rfl

def success? : Outcome σ α → Option σ
  | .done _ state => some state
  | _ => none

theorem success?_eq_some {outcome : Outcome σ α} {s : σ} :
    outcome.success? = some s ↔ ∃ a, outcome = .done a s := by
  cases outcome <;> simp [success?]

def result? : Outcome σ α → Option (α × σ)
  | .done a state => some (a, state)
  | _ => none

theorem result?_eq_some {outcome : Outcome σ α} {a : α} {s : σ} :
    outcome.result? = some (a, s) ↔ outcome = .done a s := by
  cases outcome <;> simp [result?]

end Outcome

namespace Action

theorem bind_eq_fault {first : Action σ α} {next : α → Action σ β} {s : σ} {cause : Fault} :
    (first >>= next) s = .fault cause ↔
      first s = .fault cause ∨ ∃ a middle, first s = .done a middle ∧ next a middle = .fault cause := by
  rw [bind_apply]
  cases first s with
  | done a middle =>
    constructor
    · exact fun stopped => .inr ⟨a, middle, rfl, stopped⟩
    · rintro (impossible | ⟨_, _, same, stopped⟩)
      · cases impossible
      · cases same
        exact stopped
  | failed | fault => simp

theorem zoom_eq_done {part : σ → τ} {put : τ → σ → σ} {action : Action τ α} {s t : σ} {a : α} :
    zoom part put action s = .done a t ↔
      ∃ inner, action (part s) = .done a inner ∧ put inner s = t := by
  unfold zoom
  cases action (part s) <;> simp [and_assoc]

theorem zoom_eq_failed {part : σ → τ} {put : τ → σ → σ} {action : Action τ α} {s t : σ}
    {cause : MemoryError} :
    zoom part put action s = .failed cause t ↔
      ∃ inner, action (part s) = .failed cause inner ∧ put inner s = t := by
  unfold zoom
  cases action (part s) <;> simp [and_assoc]

theorem left?_zoom {admits : MemoryError → Bool} {part : σ → τ} {put : τ → σ → σ}
    {action : Action τ α} {s t : σ} :
    (zoom part put action s).left? admits = some t ↔
      ∃ inner, (action (part s)).left? admits = some inner ∧ put inner s = t := by
  unfold zoom
  cases action (part s) <;> simp [Outcome.left?, and_assoc]

theorem left?_bind_pure {admits : MemoryError → Bool} {action : Action σ α} {f : α → β} {s : σ} :
    ((action >>= fun a => Pure.pure (f a)) s).left? admits = (action s).left? admits := by
  rw [bind_apply]
  cases action s <;> rfl

theorem first_eq_done {action : Action σ α} {s t : σ} {u v : τ} {a : α} :
    first action (s, u) = .done a (t, v) ↔ action s = .done a t ∧ u = v := by
  unfold first zoom
  cases action s <;> simp [and_assoc]

theorem first_eq_failed {action : Action σ α} {s t : σ} {u v : τ} {cause : MemoryError} :
    first action (s, u) = .failed cause (t, v) ↔ action s = .failed cause t ∧ u = v := by
  unfold first zoom
  cases action s <;> simp [and_assoc]

theorem second_eq_done {action : Action τ α} {s t : σ} {u v : τ} {a : α} :
    second action (s, u) = .done a (t, v) ↔ s = t ∧ action u = .done a v := by
  unfold second zoom
  cases action u <;> simp [and_left_comm]

theorem second_eq_failed {action : Action τ α} {s t : σ} {u v : τ} {cause : MemoryError} :
    second action (s, u) = .failed cause (t, v) ↔ s = t ∧ action u = .failed cause v := by
  unfold second zoom
  cases action u <;> simp [and_left_comm]

theorem ofResult_eq_done {result : Except MemoryError α} {s t : σ} {a : α} :
    ofResult result s = .done a t ↔ result = .ok a ∧ s = t := by
  cases result <;> simp [ofResult]

theorem ofResult_eq_failed {result : Except MemoryError α} {s t : σ} {cause : MemoryError} :
    (ofResult result : Action σ α) s = .failed cause t ↔ result = .error cause ∧ s = t := by
  cases result <;> simp [ofResult]

theorem ofExcept_eq_done {result : Except Fault α} {s t : σ} {a : α} :
    ofExcept result s = .done a t ↔ result = .ok a ∧ s = t := by
  cases result <;> simp [ofExcept]

@[simp] theorem ofExcept_ne_failed {result : Except Fault α} {s t : σ} {cause : MemoryError} :
    (ofExcept result : Action σ α) s ≠ .failed cause t := by
  cases result <;> simp [ofExcept]

/-! What an operation leaves stands in a relation to where it started, unless it
fails with a cause that is not admitted. -/
section Relations

structure Keeps (admits : MemoryError → Bool) (R : σ → σ → Prop) (action : Action σ α) : Prop where
  left : ∀ s t, (action s).left? admits = some t → R s t

variable {admits : MemoryError → Bool} {R : σ → σ → Prop}

theorem Keeps.bind [Trans R R R] {first : Action σ α} {next : α → Action σ β}
    (before : Keeps admits R first) (after : ∀ a, Keeps admits R (next a)) :
    Keeps admits R (first >>= next) := by
  constructor
  intro s t left
  rw [bind_apply] at left
  cases ended : first s with
  | done a middle =>
    rw [ended] at left
    have start : R s middle := before.left s middle (by rw [ended]; rfl)
    exact Trans.trans start ((after a).left middle t left)
  | failed cause middle =>
    rw [ended] at left
    exact before.left s t (by rw [ended]; exact left)
  | fault cause =>
    rw [ended] at left
    cases left

theorem keeps_modify {f : σ → σ} (kept : ∀ s, R s (f s)) : Keeps admits R (modify f) := by
  constructor
  intro s t left
  cases left
  exact kept s

theorem keeps_zoom {part : σ → τ} {put : τ → σ → σ} {action : Action τ α}
    (kept : ∀ s inner, (action (part s)).left? admits = some inner → R s (put inner s)) :
    Keeps admits R (zoom part put action) := by
  constructor
  intro s t left
  obtain ⟨inner, reached, rfl⟩ := left?_zoom.mp left
  exact kept s inner reached

variable [Std.Refl R]

theorem keeps_pure (a : α) : Keeps admits R (Pure.pure a : Action σ α) := by
  constructor
  intro s t left
  cases left
  exact Std.Refl.refl s

theorem keeps_get : Keeps admits R (get : Action σ σ) := by
  constructor
  intro s t left
  cases left
  exact Std.Refl.refl s

theorem keeps_ofResult (result : Except MemoryError α) :
    Keeps admits R (ofResult result : Action σ α) := by
  constructor
  intro s t left
  rcases Outcome.left?_eq_some.mp left with ⟨a, done⟩ | ⟨cause, failed, -⟩
  · obtain ⟨-, rfl⟩ := ofResult_eq_done.mp done
    exact Std.Refl.refl s
  · obtain ⟨-, rfl⟩ := ofResult_eq_failed.mp failed
    exact Std.Refl.refl s

theorem keeps_fail (cause : MemoryError) : Keeps admits R (fail cause : Action σ α) :=
  keeps_ofResult (.error cause)

theorem keeps_ofExcept (result : Except Fault α) :
    Keeps admits R (ofExcept result : Action σ α) := by
  constructor
  intro s t left
  cases result <;> cases left
  exact Std.Refl.refl s

end Relations

/-! A loop keeps an invariant that speaks of the items still to come. -/
section Loops

variable {action : ι → Action σ Unit} (Inv : List ι → σ → Prop)

theorem each_done
    (step : ∀ item rest s t, Inv (item :: rest) s → action item s = .done () t → Inv rest t)
    {items : List ι} {s t : σ} (start : Inv items s) (done : each action items s = .done () t) :
    Inv [] t := by
  induction items generalizing s with
  | nil =>
    cases done
    exact start
  | cons item rest ih =>
    obtain ⟨_, middle, first, done⟩ := bind_eq_done.mp done
    exact ih (step item rest s middle start first) done

/-- A failing loop fails at one of its items. -/
theorem each_failed
    (step : ∀ item rest s t, Inv (item :: rest) s → action item s = .done () t → Inv rest t)
    {items : List ι} {s t : σ} {cause : MemoryError} (start : Inv items s)
    (failed : each action items s = .failed cause t) :
    ∃ item rest middle, Inv (item :: rest) middle ∧ action item middle = .failed cause t := by
  induction items generalizing s with
  | nil => cases failed
  | cons item rest ih =>
    rcases bind_eq_failed.mp failed with first | ⟨_, middle, first, failed⟩
    · exact ⟨item, rest, s, start, first⟩
    · exact ih (step item rest s middle start first) failed

/-- A loop succeeds if every step does that the invariant allows. -/
theorem each_succeeds
    (step : ∀ item rest s, Inv (item :: rest) s → ∃ t, action item s = .done () t ∧ Inv rest t)
    {items : List ι} {s : σ} (start : Inv items s) :
    ∃ t, each action items s = .done () t ∧ Inv [] t := by
  induction items generalizing s with
  | nil => exact ⟨s, rfl, start⟩
  | cons item rest ih =>
    obtain ⟨middle, first, kept⟩ := step item rest s start
    obtain ⟨t, later, final⟩ := ih kept
    exact ⟨t, bind_eq_done.mpr ⟨(), middle, first, later⟩, final⟩

theorem each_append (first second : List ι) (s : σ) :
    each action (first ++ second) s = (each action first >>= fun _ => each action second) s := by
  induction first generalizing s with
  | nil => rfl
  | cons item rest ih =>
    have here (items : List ι) :
        each action (item :: items) s = (action item >>= fun _ => each action items) s := rfl
    rw [List.cons_append, here, bind_apply, bind_apply, here, bind_apply]
    cases action item s with
    | done _ middle => exact ih middle
    | failed | fault => rfl

theorem each_flatMap (parts : κ → List ι) (items : List κ) (s : σ) :
    each (fun item => each action (parts item)) items s = each action (items.flatMap parts) s := by
  induction items generalizing s with
  | nil => rfl
  | cons item rest ih =>
    rw [List.flatMap_cons, each_append]
    have inner : each (fun item => each action (parts item)) rest = each action (rest.flatMap parts) :=
      funext ih
    rw [← inner]
    rfl

end Loops

end Action

end VectorMemory
