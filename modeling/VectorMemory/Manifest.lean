import VectorMemory.Architecture
import VectorMemory.Span
import VectorMemory.Usage
import VectorMemory.Uuid
import VectorMemory.Digest.Basic

/-! The record that a compile leaves for audit: what was compiled for which
accelerator, and digests by which two compiles can be compared. -/
namespace VectorMemory

structure Buffer where
  name : String
  region : Region
  span : Span
deriving DecidableEq, Repr

structure Manifest where
  id : Uuid
  compilerVersion : String
  arch : Architecture
  constantsDigest : Digest
  constantsSize : Nat
  layoutDigest : Digest
  inputs : List Buffer
  outputs : List Buffer
  spaces : List UsageSummary
  constantScalars : Nat
  constantVectors : Nat
  utilization : Double
  layers : Nat
  /-- Milliseconds since 1970. -/
  started : Nat
  finished : Nat
deriving DecidableEq

/-- Whether two compiles gave the same program as far as memory is concerned. -/
def Manifest.sameProgram (a b : Manifest) : Bool :=
  a.arch = b.arch && a.constantsDigest = b.constantsDigest &&
    a.constantsSize = b.constantsSize && a.layoutDigest = b.layoutDigest

end VectorMemory
