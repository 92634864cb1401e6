import VectorMemory.Digest.Blake3
import VectorMemory.Json.Printer

/-! Digests of byte strings, of several byte strings in a row, and of documents. -/
namespace VectorMemory

structure Digest where
  bytes : Vector UInt8 32
deriving DecidableEq

namespace Digest

def ofBytes (bytes : Bytes) : Digest :=
  ⟨Blake3.hash bytes⟩

/-- Several byte strings as one: each is preceded by its length in eight bytes,
so that the cuts between them can be told from the result. -/
def frame (parts : List Bytes) : Bytes :=
  parts.flatMap fun part => Bytes.littleEndian 8 part.length ++ part

def ofParts (parts : List Bytes) : Digest :=
  ofBytes (frame parts)

def ofJson (j : Json) : Digest :=
  ofBytes (Bytes.ofText j.text)

def toBytes (d : Digest) : Bytes :=
  d.bytes.toList

def hex (d : Digest) : String :=
  d.toBytes.hex

end Digest

end VectorMemory
