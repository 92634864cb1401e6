import VectorMemory.Codec.Basic
import VectorMemory.Config
import VectorMemory.Object
import VectorMemory.Usage
import VectorMemory.Constants.Tally
import VectorMemory.Trace

/-! The documents of the memory types. -/
namespace VectorMemory.Codec

@[reducible] def ofKeys (values : List α) (key : α → String) : Codec α where
  encode value := .string (key value)
  decode j := do
    let name ← j.bareVariant?
    values.find? fun value => key value = name

instance : Codec Region := ofKeys Region.all Region.key

instance : Codec ScalarKind := ofKeys [.int32, .int64, .float32] ScalarKind.key

instance : Codec NativeFormat := ofKeys [.fixed16, .fixed32, .float32] NativeFormat.key

instance : Codec Location where
  encode l := .object [("tag", encode l.region), ("address", encode l.address)]
  decode j := do
    match ← j.fields ["tag", "address"] with
    | [region, address] => return ⟨← required region, ← required address⟩
    | _ => none

instance : Codec Run where
  encode r := .object [("tag", encode r.region), ("start", encode r.start), ("len", encode r.length)]
  decode j := do
    match ← j.fields ["tag", "start", "len"] with
    | [region, start, length] =>
        return ⟨← required region, ← required start, ← required length⟩
    | _ => none

instance : Codec Span where
  encode s := .object [("runs", encode s.runs)]
  decode j := do
    match ← j.fields ["runs"] with
    | [runs] => return ⟨← required runs⟩
    | _ => none

instance : Codec Extent where
  encode e := .object [("scalars", encode e.scalars), ("vectors", encode e.vectors)]
  decode j := do
    match ← j.fields ["scalars", "vectors"] with
    | [scalars, vectors] => return ⟨← required scalars, ← required vectors⟩
    | _ => none

instance : Codec Int32 where
  encode n := .ofInt n.toInt
  decode j := (j.toInt? (-0x80000000) 0x7FFFFFFF).map Int32.ofInt

instance : Codec Int64 where
  encode n := .ofInt n.toInt
  decode j := (j.toInt? (-0x8000000000000000) 0x7FFFFFFFFFFFFFFF).map Int64.ofInt

/-- Numbers without a literal are written as null, and null is not read. -/
instance : Codec Single where
  encode x :=
    match Numeral.singleLayout.write? x.bits.toNat with
    | some literal => .number literal
    | none => .null
  decode
    | .number literal => literal.toSingle?.map fun bits => ⟨UInt32.ofNat bits⟩
    | _ => none

instance : Codec Double where
  encode x :=
    match Numeral.doubleLayout.write? x.bits.toNat with
    | some literal => .number literal
    | none => .null
  decode
    | .number literal => literal.toDouble?.map fun bits => ⟨UInt64.ofNat bits⟩
    | _ => none

instance : Codec Scalars where
  encode
    | .int32 values => .object [("I32", encode values)]
    | .int64 values => .object [("I64", encode values)]
    | .float32 values => .object [("F32", encode values)]
  decode j :=
    ((j.content? "I32").bind decode).map Scalars.int32 <|>
      ((j.content? "I64").bind decode).map Scalars.int64 <|>
      ((j.content? "F32").bind decode).map Scalars.float32

/-- A tensor is read as it stands, whether or not its shape fits. -/
instance : Codec Tensor where
  encode t := .object [("shape", encode t.shape), ("values", encode t.scalars)]
  decode j := do
    match ← j.fields ["shape", "values"] with
    | [shape, scalars] => return ⟨← required shape, ← required scalars⟩
    | _ => none

instance : Codec Architecture where
  encode a := .object
    [("data_type", encode a.format), ("array_size", encode a.lanes),
      ("dram0_depth", encode a.dram0Depth), ("dram1_depth", encode a.dram1Depth),
      ("local_depth", encode a.scratchDepth)]
  decode j := do
    match ← j.fields ["data_type", "array_size", "dram0_depth", "dram1_depth", "local_depth"] with
    | [format, lanes, dram0, dram1, scratch] =>
        return ⟨← required format, ← required lanes, ← required dram0, ← required dram1,
          ← required scratch⟩
    | _ => none

/-- A range has no keys beside its two ends. -/
instance : Codec AddressRange where
  encode r := .object [("start", encode r.start), ("end", encode r.stop)]
  decode j := do
    match ← j.exactFields ["start", "end"] with
    | [start, stop] => return ⟨← required start, ← required stop⟩
    | _ => none

instance : Codec Tracepoint where
  encode t := .object
    [("tag", encode t.region), ("addresses", encode t.addresses), ("name_prefix", encode t.named)]
  decode j := do
    match ← j.fields ["tag", "addresses", "name_prefix"] with
    | [region, addresses, named] =>
        return ⟨← optional region, ← optional addresses, ← optional named⟩
    | _ => none

instance : Codec Config where
  encode c := .object [("arch", encode c.arch), ("tracepoints", encode c.tracepoints)]
  decode j := do
    match ← j.fieldsUpTo 1 ["arch", "tracepoints"] with
    | [arch, some tracepoints] => return ⟨← required arch, ← decode tracepoints⟩
    | [arch, none] => return ⟨← required arch, []⟩
    | _ => none

instance : Codec Usage where
  encode u := .object
    [("tag", encode u.region), ("capacity", encode u.capacity), ("used", encode u.used),
      ("peak", encode u.peak), ("aggregate", encode u.aggregate),
      ("allocations", encode u.allocations)]
  decode j := do
    match ← j.fields ["tag", "capacity", "used", "peak", "aggregate", "allocations"] with
    | [region, capacity, used, peak, aggregate, allocations] =>
        return ⟨← required region, ← required capacity, ← required used, ← required peak,
          ← required aggregate, ← required allocations⟩
    | _ => none

instance : Codec UsageSummary where
  encode u := .object
    [("tag", encode u.region), ("capacity", encode u.capacity), ("peak", encode u.peak),
      ("aggregate", encode u.aggregate)]
  decode j := do
    match ← j.fields ["tag", "capacity", "peak", "aggregate"] with
    | [region, capacity, peak, aggregate] =>
        return ⟨← required region, ← required capacity, ← required peak, ← required aggregate⟩
    | _ => none

instance : Codec Tally where
  encode t := .object
    [("objects", encode t.objects), ("true_scalars", encode t.scalars),
      ("vectors", encode t.vectors)]
  decode j := do
    match ← j.fields ["objects", "true_scalars", "vectors"] with
    | [objects, scalars, vectors] =>
        return ⟨← required objects, ← required scalars, ← required vectors⟩
    | _ => none

/-- Names are written in order, and read in any. -/
instance : Codec NameSet where
  encode s := encode s.names
  decode j := (decode j).map NameSet.ofList

instance : Codec Object where
  encode o := .object
    [("id", encode o.id), ("name", encode o.name), ("dims", encode o.extent),
      ("tag", encode o.region), ("span", encode o.span), ("consumers", encode o.consumers),
      ("owned", encode o.owned), ("superseded_by", encode o.supersededBy),
      ("blendees", encode o.blendees)]
  decode j := do
    match ← j.fields
        ["id", "name", "dims", "tag", "span", "consumers", "owned", "superseded_by", "blendees"] with
    | [id, name, extent, region, span, consumers, owned, supersededBy, blendees] =>
        return {
          id := ← required id
          name := ← required name
          extent := ← required extent
          region := ← required region
          span := ← required span
          consumers := ← required consumers
          owned := ← required owned
          supersededBy := ← optional supersededBy
          blendees := ← required blendees }
    | _ => none

instance : Codec Position where
  encode
    | .beforeProgram => .string "BeforeProgram"
    | .instruction index => .object [("Instruction", encode index)]
  decode j :=
    match j.bareVariant? with
    | some "BeforeProgram" => some .beforeProgram
    | _ => ((j.content? "Instruction").bind decode).map Position.instruction

instance : Codec Mark where
  encode m := .object [("name", encode m.name), ("offset", encode m.offset)]
  decode j := do
    match ← j.fields ["name", "offset"] with
    | [name, offset] => return ⟨← required name, ← required offset⟩
    | _ => none

/-- Only an empty table of marks can be read. -/
def decodeMarks : Json → Option Marks
  | .object [] => some []
  | _ => none

def decodePlaced (j : Json) : Option Event := do
  match ← j.fields ["position", "annotations"] with
  | [position, some marks] => return .placed (← required position) (← decodeMarks marks)
  | _ => none

def decodeBlended (j : Json) : Option Event := do
  match ← j.fields ["object", "blendees"] with
  | [object, blendees] => return .blended (← required object) (← required blendees)
  | _ => none

def decodeEvent (j : Json) : Option Event :=
  (j.content? "Tracepoints").bind decodePlaced <|> (j.content? "Blend").bind decodeBlended

/-- An event with marks has no written form, since their locations would have to
be keys. -/
def encodeEvent : Event → Except InputError Json
  | .placed position [] =>
      .ok (.object [("Tracepoints",
        .object [("position", encode position), ("annotations", .object [])])])
  | .placed _ (_ :: _) => .error .unwritableKey
  | .blended object blendees =>
      .ok (.object [("Blend",
        .object [("object", encode object), ("blendees", encode blendees)])])

end VectorMemory.Codec
