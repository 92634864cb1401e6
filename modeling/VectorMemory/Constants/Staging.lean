import VectorMemory.MemoryError

/-! Tensors that are known by name but not yet placed. -/
namespace VectorMemory

structure Staging where
  entries : List (String × Tensor)
deriving DecidableEq

namespace Staging

def empty : Staging := ⟨[]⟩

def find? (s : Staging) (name : String) : Option Tensor :=
  s.entries.lookup name

def has (s : Staging) (name : String) : Bool :=
  (s.find? name).isSome

def put (s : Staging) (name : String) (tensor : Tensor) : Staging :=
  ⟨(name, tensor) :: s.entries.filter fun entry => entry.1 ≠ name⟩

def add (s : Staging) (name : String) (tensor : Tensor) : Except MemoryError Staging :=
  if s.has name then .error (.duplicateName name) else .ok (s.put name tensor)

/-- Make the tensor of a name visible under another one too. Nothing happens if
there is none. -/
def share (s : Staging) (name other : String) : Staging :=
  match s.find? name with
  | some tensor => s.put other tensor
  | none => s

def kind? (s : Staging) (name : String) : Option ScalarKind :=
  (s.find? name).map Tensor.kind

def get (s : Staging) (name : String) : Except MemoryError Tensor :=
  match s.find? name with
  | some tensor => .ok tensor
  | none => .error (.notFound name)

def scalarsOf (s : Staging) (kind : ScalarKind) (name : String) : Except MemoryError Scalars :=
  match s.find? name with
  | some tensor => if tensor.kind = kind then .ok tensor.scalars else .error (.notFound name)
  | none => .error (.notFound name)

end Staging

end VectorMemory
