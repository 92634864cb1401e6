import VectorMemory.MemoryError

/-! Operations on a state. An operation that fails leaves a state behind, which
may differ from the one it started in; a fault leaves none. -/
namespace VectorMemory

inductive Outcome (σ α : Type) where
  | done (value : α) (state : σ)
  | failed (cause : MemoryError) (state : σ)
  | fault (cause : Fault)
deriving DecidableEq, Repr

def Outcome.state? : Outcome σ α → Option σ
  | .done _ state => some state
  | .failed _ state => some state
  | .fault _ => none

def Action (σ α : Type) : Type :=
  σ → Outcome σ α

namespace Action

def pure (value : α) : Action σ α :=
  fun state => .done value state

def bind (first : Action σ α) (next : α → Action σ β) : Action σ β :=
  fun state =>
    match first state with
    | .done value state => next value state
    | .failed cause state => .failed cause state
    | .fault cause => .fault cause

instance : Monad (Action σ) where
  pure := pure
  bind := bind

def get : Action σ σ :=
  fun state => .done state state

def modify (f : σ → σ) : Action σ Unit :=
  fun state => .done () (f state)

def fail (cause : MemoryError) : Action σ α :=
  fun state => .failed cause state

def ofExcept (result : Except Fault α) : Action σ α :=
  fun state =>
    match result with
    | .ok value => .done value state
    | .error cause => .fault cause

def ofResult (result : Except MemoryError α) : Action σ α :=
  fun state =>
    match result with
    | .ok value => .done value state
    | .error cause => .failed cause state

@[simp] theorem pure_apply (value : α) (state : σ) :
    (Pure.pure value : Action σ α) state = .done value state := rfl

theorem bind_apply (first : Action σ α) (next : α → Action σ β) (state : σ) :
    (first >>= next) state =
      match first state with
      | .done value state => next value state
      | .failed cause state => .failed cause state
      | .fault cause => .fault cause := rfl

@[simp] theorem get_apply (state : σ) : (get : Action σ σ) state = .done state state := rfl

@[simp] theorem modify_apply (f : σ → σ) (state : σ) : modify f state = .done () (f state) := rfl

@[simp] theorem fail_apply (cause : MemoryError) (state : σ) :
    (fail cause : Action σ α) state = .failed cause state := rfl

@[simp] theorem ofExcept_ok (value : α) (state : σ) :
    ofExcept (.ok value) state = .done value state := rfl

@[simp] theorem ofExcept_error (cause : Fault) (state : σ) :
    (ofExcept (.error cause) : Action σ α) state = .fault cause := rfl

@[simp] theorem ofResult_ok (value : α) (state : σ) :
    ofResult (.ok value) state = .done value state := rfl

@[simp] theorem ofResult_error (cause : MemoryError) (state : σ) :
    (ofResult (.error cause) : Action σ α) state = .failed cause state := rfl

theorem bind_eq_done {first : Action σ α} {next : α → Action σ β} {state final : σ} {value : β} :
    (first >>= next) state = .done value final ↔
      ∃ a middle, first state = .done a middle ∧ next a middle = .done value final := by
  rw [bind_apply]
  cases first state with
  | done a middle =>
    exact ⟨fun h => ⟨a, middle, rfl, h⟩, fun ⟨_, _, e, h⟩ => by cases e; exact h⟩
  | failed | fault => simp

theorem bind_eq_failed {first : Action σ α} {next : α → Action σ β} {state final : σ}
    {cause : MemoryError} :
    (first >>= next) state = .failed cause final ↔
      first state = .failed cause final ∨
        ∃ a middle, first state = .done a middle ∧ next a middle = .failed cause final := by
  rw [bind_apply]
  cases first state with
  | done a middle =>
    constructor
    · exact fun h => .inr ⟨a, middle, rfl, h⟩
    · rintro (e | ⟨_, _, e, h⟩) <;> cases e
      exact h
  | failed | fault => simp

def zoom (part : σ → τ) (put : τ → σ → σ) (action : Action τ α) : Action σ α :=
  fun state =>
    match action (part state) with
    | .done value inner => .done value (put inner state)
    | .failed cause inner => .failed cause (put inner state)
    | .fault cause => .fault cause

def first (action : Action σ α) : Action (σ × τ) α :=
  zoom Prod.fst (fun inner state => (inner, state.2)) action

def second (action : Action τ α) : Action (σ × τ) α :=
  zoom Prod.snd (fun inner state => (state.1, inner)) action

def each (action : ι → Action σ Unit) : List ι → Action σ Unit
  | [] => pure ()
  | item :: rest => bind (action item) fun _ => each action rest

end Action

end VectorMemory
