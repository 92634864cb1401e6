import VectorMemory.Codec.Memory
import VectorMemory.Manifest

/-! The documents of manifests. -/
namespace VectorMemory.Codec

instance : Codec Uuid where
  encode u := .string u.text
  decode j := j.toText?.bind Uuid.ofText?

instance : Codec UInt8 where
  encode b := .ofNat b.toNat
  decode j := (j.toInt? 0 255).map fun n => UInt8.ofNat n.toNat

instance : Codec Digest where
  encode d := encode d.toBytes
  decode j := do
    let bytes : Bytes ← decode j
    if h : bytes.length = 32 then return ⟨⟨bytes.toArray, h⟩⟩ else none

instance : Codec Buffer where
  encode p := .object [("name", encode p.name), ("tag", encode p.region), ("span", encode p.span)]
  decode j := do
    match ← j.fields ["name", "tag", "span"] with
    | [name, region, span] => return ⟨← required name, ← required region, ← required span⟩
    | _ => none

instance : Codec Manifest where
  encode m := .object
    [("id", encode m.id), ("compiler_version", encode m.compilerVersion), ("arch", encode m.arch),
      ("consts_hash", encode m.constantsDigest), ("consts_size_bytes", encode m.constantsSize),
      ("layout_hash", encode m.layoutDigest), ("inputs", encode m.inputs),
      ("outputs", encode m.outputs), ("spaces", encode m.spaces),
      ("consts_true_scalars", encode m.constantScalars),
      ("consts_vectors", encode m.constantVectors), ("consts_utilization", encode m.utilization),
      ("layers", encode m.layers), ("started_ms", encode m.started),
      ("finished_ms", encode m.finished)]
  decode j := do
    match ← j.fields
        ["id", "compiler_version", "arch", "consts_hash", "consts_size_bytes", "layout_hash",
          "inputs", "outputs", "spaces", "consts_true_scalars", "consts_vectors",
          "consts_utilization", "layers", "started_ms", "finished_ms"] with
    | [id, version, arch, constants, size, layout, inputs, outputs, spaces, scalars, vectors,
        utilization, layers, started, finished] =>
        return {
          id := ← required id
          compilerVersion := ← required version
          arch := ← required arch
          constantsDigest := ← required constants
          constantsSize := ← required size
          layoutDigest := ← required layout
          inputs := ← required inputs
          outputs := ← required outputs
          spaces := ← required spaces
          constantScalars := ← required scalars
          constantVectors := ← required vectors
          utilization := ← required utilization
          layers := ← required layers
          started := ← required started
          finished := ← required finished }
    | _ => none

/-- The digest of the tables of inputs and outputs: each table is hashed as a
document, and the two digests are hashed as parts. -/
def layoutDigest (inputs outputs : List Buffer) : Digest :=
  Digest.ofParts
    [(Digest.ofJson (encode inputs)).toBytes, (Digest.ofJson (encode outputs)).toBytes]

end VectorMemory.Codec
