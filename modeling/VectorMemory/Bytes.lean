/-! Byte strings. -/
namespace VectorMemory

abbrev Bytes := List UInt8

namespace Bytes

/-- The two's-complement bytes of an integer, least significant first. -/
def littleEndian (width : Nat) (n : Int) : Bytes :=
  (List.range width).map fun i => UInt8.ofNat ((n / (Nat.pow 256 i : Nat)) % 256).toNat

def ofText (text : String) : Bytes :=
  text.toUTF8.data.toList

def hex (bytes : Bytes) : String :=
  String.ofList (bytes.flatMap fun b =>
    [Nat.digitChar (b.toNat / 16), Nat.digitChar (b.toNat % 16)])

end Bytes

end VectorMemory
