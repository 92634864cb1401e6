/-! Arithmetic on 64-bit machine words. Quantities are natural numbers; the
operations below stop with a fault where a word could not hold the result. -/
namespace VectorMemory

/-- An arithmetic step that has no result in a machine word. A fault ends the
computation it happens in: no state survives it. -/
inductive Fault where
  | addOverflow
  | mulOverflow
  | divideByZero
deriving DecidableEq, Repr

def Fault.message : Fault → String
  | .addOverflow => "attempt to add with overflow"
  | .mulOverflow => "attempt to multiply with overflow"
  | .divideByZero => "attempt to divide by zero"

namespace Word

/-- Words are the naturals below this limit. -/
def limit : Nat := 0x10000000000000000

def max : Nat := limit - 1

def add (a b : Nat) : Except Fault Nat :=
  if a + b < limit then .ok (a + b) else .error .addOverflow

def mul (a b : Nat) : Except Fault Nat :=
  if a * b < limit then .ok (a * b) else .error .mulOverflow

def divCeil (count size : Nat) : Except Fault Nat :=
  if size = 0 then .error .divideByZero else .ok ((count + size - 1) / size)

def sum (terms : List Nat) : Except Fault Nat :=
  terms.foldlM add 0

/-- Product from left to right, starting from 1. A partial product that
overflows is a fault even if a later factor is 0. -/
def product (factors : List Nat) : Except Fault Nat :=
  factors.foldlM mul 1

theorem add_eq_ok {a b : Nat} (bound : a + b < limit) : add a b = .ok (a + b) :=
  if_pos bound

theorem mul_eq_ok {a b : Nat} (bound : a * b < limit) : mul a b = .ok (a * b) :=
  if_pos bound

theorem add_eq_ok_iff {a b c : Nat} : add a b = .ok c ↔ a + b < limit ∧ a + b = c := by
  unfold add
  split <;> simp [*]

theorem mul_eq_ok_iff {a b c : Nat} : mul a b = .ok c ↔ a * b < limit ∧ a * b = c := by
  unfold mul
  split <;> simp [*]

end Word

end VectorMemory
