import VectorMemory.Region
import VectorMemory.Tensor

/-! Why an operation on memory can fail. -/
namespace VectorMemory

inductive MemoryError where
  | outOfMemory (region : Region) (requested available : Nat)
  | duplicateName (name : String)
  | notFound (name : String)
  | unsupportedEncoding (name : String) (kind : ScalarKind)
  /-- A constant of several scalars was asked for in another extent. -/
  | cannotReplicate (name : String) (scalars vectors : Nat)
  | nothingToReplicate (name : String)
  | outputRegion (name : String) (region : Region)
  | nothingToBlend (name : String)
  | sizeMismatch (name : String) (expected actual : Nat)
  | invalidFree (region : Region) (address : Nat)
  /-- A run was handed back to a space of another region. -/
  | foreignRun (region : Region) (start : Nat) (into : Region)
  /-- A vector would belong to two objects. -/
  | claimed (location : Location)
  /-- An object to be freed owns vectors of a region that is not swept. -/
  | strayVectors (name : String) (region : Region)
  /-- A constant lies elsewhere than its bytes. -/
  | misplacedConstant (name : String) (location : Location) (position : Nat)
  | input (cause : InputError)
deriving DecidableEq, Repr

inductive ErrorClass where
  | outOfMemory
  | duplicateName
  | notFound
  | unsupportedEncoding
  | configuration
  | sizeMismatch
  | invalidFree
  | invariant
  | input
deriving DecidableEq, Repr

namespace MemoryError

def errorClass : MemoryError → ErrorClass
  | .outOfMemory .. => .outOfMemory
  | .duplicateName _ => .duplicateName
  | .notFound _ => .notFound
  | .unsupportedEncoding .. => .unsupportedEncoding
  | .cannotReplicate .. | .nothingToReplicate _ | .outputRegion .. | .nothingToBlend _ =>
      .configuration
  | .sizeMismatch .. => .sizeMismatch
  | .invalidFree .. => .invalidFree
  | .foreignRun .. | .claimed _ | .strayVectors .. | .misplacedConstant .. => .invariant
  | .input _ => .input

def detail : MemoryError → String
  | .outOfMemory region requested available =>
      "out of memory in " ++ region.label ++ ": requested " ++ requested.repr ++ " vectors, " ++
        available.repr ++ " available"
  | .duplicateName name => "memory object '" ++ name ++ "' already exists"
  | .notFound name => "memory object '" ++ name ++ "' not found"
  | .unsupportedEncoding name kind =>
      "constant '" ++ name ++ "' has no " ++ kind.label ++ " encoding for this architecture"
  | .cannotReplicate name scalars vectors =>
      "cannot broadcast constant '" ++ name ++ "' of " ++ scalars.repr ++ " scalars into " ++
        vectors.repr ++ " vectors"
  | .nothingToReplicate name => "cannot broadcast empty constant '" ++ name ++ "'"
  | .outputRegion name region =>
      "output '" ++ name ++ "' cannot be produced in " ++ region.label
  | .nothingToBlend name => "blend '" ++ name ++ "' has neither blendees nor addresses"
  | .sizeMismatch name expected actual =>
      "object '" ++ name ++ "' declares " ++ expected.repr ++ " vectors but its span covers " ++
        actual.repr
  | .invalidFree region address =>
      "invalid free of " ++ region.label ++ " address " ++ address.repr
  | .foreignRun region start into =>
      "cannot free " ++ region.label ++ " run at " ++ start.repr ++ " into " ++ into.label
  | .claimed location =>
      location.region.label ++ " address " ++ location.address.repr ++
        " is already owned by another object"
  | .strayVectors name region =>
      "object '" ++ name ++ "' owns " ++ region.label ++ " addresses outside the swept spaces"
  | .misplacedConstant name location position =>
      "constant '" ++ name ++ "' placed at " ++ location.label ++ " but the stream is at byte " ++
        position.repr
  | .input cause => cause.message

def message (e : MemoryError) : String :=
  match e.errorClass with
  | .configuration => "configuration error: " ++ e.detail
  | .invariant => "allocator invariant failed: " ++ e.detail
  | _ => e.detail

end MemoryError

end VectorMemory
