import Mathlib.Data.List.Nodup
import VectorMemory.Codec.Document
import VectorMemory.Compile
import VectorMemory.Proofs.Layout

/-! Written values are read back from their text. A document can hold a value whose
numbers are words and whose scalars are integers. -/
namespace VectorMemory

/-! ### Texts -/

theorem Json.Proper.read?_text {j : Json} (proper : j.Proper) : Json.read? j.text = some j := by
  have closed : Closes [] := by rintro _ ⟨⟩
  have read := proper.legible (2 * j.print.length + 2) [] (by omega) closed
  rw [List.append_nil] at read
  simp [read?, text, read, skipBlanks]

/-! ### Numbers -/

namespace Numeral

theorem digitsValue_toDigits (n : Nat) : digitsValue (Nat.toDigits 10 n) = n :=
  Nat.ofDigitChars_ten_toDigits

theorem proper_ofInt (n : Int) : (ofInt n).Proper where
  whole := (proper_ofNat n.natAbs).whole
  zero := (proper_ofNat n.natAbs).zero
  fraction := nofun
  exponent := nofun

theorem toInt?_ofInt (n : Int) : (ofInt n).toInt? = some n := by
  simp only [toInt?, ofInt, digitsValue_toDigits]
  by_cases negative : n < 0
  · have nonzero : n.natAbs ≠ 0 := by omega
    simp only [negative, decide_true, if_true, if_neg nonzero]
    congr 1
    omega
  · simp only [negative, decide_false, Bool.false_eq_true, if_false]
    congr 1
    omega

theorem ofNat_eq_ofInt (n : Nat) : ofNat n = ofInt n := by
  simp [ofNat, ofInt]

end Numeral

theorem Json.toInt?_ofInt {least greatest n : Int} (low : least ≤ n) (high : n ≤ greatest) :
    (Json.ofInt n).toInt? least greatest = some n := by
  simp [toInt?, ofInt, Numeral.toInt?_ofInt, low, high]

theorem Json.toWord?_ofNat {n : Nat} (word : n ≤ Word.max) : (Json.ofNat n).toWord? = some n := by
  have read : (Json.ofInt n).toInt? 0 Word.max = some (n : Int) :=
    toInt?_ofInt (by omega) (by omega)
  rw [toWord?, ofNat, Numeral.ofNat_eq_ofInt]
  exact congrArg (Option.map Int.toNat) read

/-! ### Records -/

namespace Json

theorem valuesOf_of_not_mem {key : String} {members : List (String × Json)}
    (missing : key ∉ members.map Prod.fst) : valuesOf key members = [] := by
  rw [valuesOf, List.filterMap_eq_nil_iff]
  rintro ⟨k, value⟩ member
  have other : k ≠ key := by
    rintro rfl
    exact missing (List.mem_map_of_mem member)
  exact if_neg other

theorem field?_of_mem {key : String} {value : Json} {members : List (String × Json)}
    (distinct : (members.map Prod.fst).Nodup) (member : (key, value) ∈ members) :
    field? key members = some (some value) := by
  obtain ⟨front, back, rfl⟩ := List.append_of_mem member
  rw [List.map_append, List.map_cons, List.nodup_middle, List.nodup_cons, List.mem_append,
    not_or] at distinct
  have values : valuesOf key (front ++ (key, value) :: back) = [value] := by
    have before := valuesOf_of_not_mem distinct.1.1
    have after := valuesOf_of_not_mem distinct.1.2
    rw [valuesOf] at before after ⊢
    simp [List.filterMap_append, before, after]
  rw [field?, values]

/-- A record written with its fields under distinct keys is read field by field. -/
theorem fieldsUpTo_object {members : List (String × Json)} {keys : List String} (missing : Nat)
    (named : members.map Prod.fst = keys) (distinct : keys.Nodup) :
    (Json.object members).fieldsUpTo missing keys = some (members.map fun m => some m.2) := by
  subst named
  have each (part : List (String × Json)) (within : ∀ m ∈ part, m ∈ members) :
      (part.map Prod.fst).mapM (fun key => field? key members) =
        some (part.map fun m => some m.2) := by
    induction part with
    | nil => rfl
    | cons m rest ih =>
      rw [List.forall_mem_cons] at within
      simp [field?_of_mem distinct within.1, ih within.2]
  exact each members fun _ member => member

end Json

/-! ### Sets of names -/

namespace NameSet

theorem place_of_lt {name : String} {names : List String} (least : ∀ other ∈ names, name < other) :
    place name names = name :: names := by
  cases names with
  | nil => rfl
  | cons first rest => exact if_pos (least first (.head _))

theorem ofList_names (s : NameSet) : ofList s.names = s := by
  obtain ⟨names, ordered⟩ := s
  induction names with
  | nil => rfl
  | cons name rest ih =>
    obtain ⟨least, tail⟩ := List.pairwise_cons.mp ordered
    have read : rest.foldr insert ∅ = ⟨rest, tail⟩ := ih tail
    simp only [ofList, List.foldr_cons, read, insert, place_of_lt least]

end NameSet

namespace Codec

/-- A type whose documents hold the values that fit, and are read back. -/
class Readable (α : Type) [Codec α] where
  Fits : α → Prop
  decides : DecidablePred Fits := by infer_instance
  reads : ∀ a, Fits a → (encode a).Proper ∧ decode (encode a) = some a

export Readable (Fits reads)

/-- A type none of whose values is written as null. -/
class Present (α : Type) [Codec α] : Prop where
  ne_null : ∀ a : α, encode a ≠ .null

section

variable [Codec α] [Readable α]

instance : DecidablePred (Fits : α → Prop) :=
  Readable.decides

theorem proper {a : α} (held : Fits a) : (encode a).Proper :=
  (reads a held).1

theorem required_encode {a : α} (held : Fits a) : required (some (encode a)) = some a :=
  (reads a held).2

theorem readText?_writeText {a : α} (held : Fits a) : readText? (writeText a) = some a := by
  rw [readText?, writeText, (proper held).read?_text]
  exact (reads a held).2

end

/-! ### Values of the basic types -/

instance : Readable Nat where
  Fits n := n ≤ Word.max
  reads n word := ⟨.number (Numeral.proper_ofNat n), Json.toWord?_ofNat word⟩

instance : Present Nat := ⟨nofun⟩

instance : Readable String where
  Fits _ := True
  reads text _ := ⟨.string text, rfl⟩

instance : Present String := ⟨nofun⟩

instance : Readable Int32 where
  Fits _ := True
  reads n _ := by
    have read := Json.toInt?_ofInt n.le_toInt (Int.le_sub_one_of_lt n.toInt_lt)
    refine ⟨.number (Numeral.proper_ofInt n.toInt), ?_⟩
    exact (congrArg (Option.map Int32.ofInt) read).trans (congrArg some (Int32.ofInt_toInt n))

instance : Readable Int64 where
  Fits _ := True
  reads n _ := by
    have read := Json.toInt?_ofInt n.le_toInt (Int.le_sub_one_of_lt n.toInt_lt)
    refine ⟨.number (Numeral.proper_ofInt n.toInt), ?_⟩
    exact (congrArg (Option.map Int64.ofInt) read).trans (congrArg some (Int64.ofInt_toInt n))

instance : Readable Region where
  Fits _ := True
  reads region _ := ⟨.string region.key, by cases region <;> decide⟩

instance : Present Region := ⟨nofun⟩

instance : Readable NativeFormat where
  Fits _ := True
  reads format _ := ⟨.string format.key, by cases format <;> decide⟩

/-! ### Lists and options -/

theorem mapM_decode_encode [Codec α] [Readable α] {items : List α} (held : ∀ a ∈ items, Fits a) :
    (items.map encode).mapM decode = some items := by
  induction items with
  | nil => rfl
  | cons a rest ih =>
    rw [List.forall_mem_cons] at held
    simp [(reads a held.1).2, ih held.2]

instance [Codec α] [Readable α] : Readable (List α) where
  Fits items := ∀ a ∈ items, Fits a
  reads items held := by
    refine ⟨.array ?_, mapM_decode_encode held⟩
    intro j member
    obtain ⟨a, within, rfl⟩ := List.mem_map.mp member
    exact proper (held a within)

theorem decode_of_present [Codec α] [Readable α] [Present α] {a : α} (held : Fits a) :
    (decode (encode a) : Option (Option α)) = some (some a) := by
  have read := (reads a held).2
  cases document : encode a with
  | null => exact absurd document (Present.ne_null a)
  | _ =>
    rw [document] at read
    exact congrArg (Option.map some) read

instance [Codec α] [Readable α] [Present α] : Readable (Option α) where
  Fits value := ∀ a ∈ value, Fits a
  reads
    | none, _ => ⟨.null, rfl⟩
    | some a, held =>
        have present : Fits a := held a rfl
        ⟨(reads a present).1, decode_of_present present⟩

theorem optional_encode [Codec α] [Readable α] [Present α] {a : Option α} (held : Fits a) :
    optional (some (encode a)) = some a :=
  (reads a held).2

/-! ### Records -/

/-- A record is proper if its fields are, and it is read from all of its fields. -/
theorem record_reads {members : List (String × Json)} {keys : List String} (missing : Nat)
    {build : List (Option Json) → Option α} {a : α} (named : members.map Prod.fst = keys)
    (distinct : keys.Nodup) (proper : ∀ m ∈ members, m.2.Proper)
    (built : build (members.map fun m => some m.2) = some a) :
    (Json.object members).Proper ∧
      ((Json.object members).fieldsUpTo missing keys >>= build) = some a := by
  refine ⟨.object proper, ?_⟩
  rw [Json.fieldsUpTo_object missing named distinct]
  exact built

instance : Readable Run where
  Fits r := Fits r.region ∧ Fits r.start ∧ Fits r.length
  reads := by
    rintro r ⟨region, start, length⟩
    exact record_reads 0 rfl (by decide) (by simp [proper, *]) (by simp [required_encode, *])

instance : Readable Span where
  Fits s := Fits s.runs
  reads s runs :=
    record_reads 0 rfl (by decide) (by simp [proper, runs]) (by simp [required_encode, runs])

instance : Readable Extent where
  Fits e := Fits e.scalars ∧ Fits e.vectors
  reads := by
    rintro e ⟨scalars, vectors⟩
    exact record_reads 0 rfl (by decide) (by simp [proper, *]) (by simp [required_encode, *])

instance : Readable Architecture where
  Fits a := Fits a.format ∧ Fits a.lanes ∧ Fits a.dram0Depth ∧ Fits a.dram1Depth ∧ Fits a.scratchDepth
  reads := by
    rintro a ⟨format, lanes, dram0, dram1, scratch⟩
    exact record_reads 0 rfl (by decide) (by simp [proper, *]) (by simp [required_encode, *])

instance : Readable AddressRange where
  Fits r := Fits r.start ∧ Fits r.stop
  reads := by
    rintro r ⟨start, stop⟩
    exact record_reads 0 rfl (by decide) (by simp [proper, *]) (by simp [required_encode, *])

instance : Present AddressRange := ⟨nofun⟩

instance : Readable Tracepoint where
  Fits t := Fits t.region ∧ Fits t.addresses ∧ Fits t.named
  reads := by
    rintro t ⟨region, addresses, named⟩
    exact record_reads 0 rfl (by decide) (by simp [proper, *]) (by simp [optional_encode, *])

instance : Readable Config where
  Fits c := Fits c.arch ∧ Fits c.tracepoints
  reads := by
    rintro c ⟨arch, tracepoints⟩
    exact record_reads 1 rfl (by decide) (by simp [proper, *])
      (by simp [required_encode arch, (reads _ tracepoints).2])

instance : Readable Buffer where
  Fits b := Fits b.name ∧ Fits b.region ∧ Fits b.span
  reads := by
    rintro b ⟨name, region, span⟩
    exact record_reads 0 rfl (by decide) (by simp [proper, *]) (by simp [required_encode, *])

instance : Readable Usage where
  Fits u := Fits u.region ∧ Fits u.capacity ∧ Fits u.used ∧ Fits u.peak ∧ Fits u.aggregate ∧
    Fits u.allocations
  reads := by
    rintro u ⟨region, capacity, used, peak, aggregate, allocations⟩
    exact record_reads 0 rfl (by decide) (by simp [proper, *]) (by simp [required_encode, *])

instance : Readable LayerReport where
  Fits r := Fits r.layer ∧ Fits r.name ∧ Fits r.instructions ∧ Fits r.freed
  reads := by
    rintro r ⟨layer, name, instructions, freed⟩
    exact record_reads 0 rfl (by decide) (by simp [proper, *]) (by simp [required_encode, *])

instance : Readable NameSet where
  Fits _ := True
  reads s _ := by
    obtain ⟨proper, read⟩ := reads s.names fun _ _ => trivial
    refine ⟨proper, ?_⟩
    change (decode (encode s.names)).map NameSet.ofList = some s
    rw [read, Option.map_some, NameSet.ofList_names]

instance : Readable Object where
  Fits o := Fits o.id ∧ Fits o.name ∧ Fits o.extent ∧ Fits o.region ∧ Fits o.span ∧
    Fits o.consumers ∧ Fits o.owned ∧ Fits o.supersededBy ∧ Fits o.blendees
  reads := by
    rintro o ⟨id, name, extent, region, span, consumers, owned, superseded, blendees⟩
    exact record_reads 0 rfl (by decide) (by simp [proper, *])
      (by simp [required_encode, optional_encode, *])

instance : Readable Scalars where
  Fits s := s.kind ≠ .float32
  reads
    | .int32 values, _ => by
      obtain ⟨proper, read⟩ := reads values fun _ _ => trivial
      refine ⟨.object (by simpa using proper), ?_⟩
      change ((decode (encode values)).map Scalars.int32 <|> _) = _
      rw [read]
      rfl
    | .int64 values, _ => by
      obtain ⟨proper, read⟩ := reads values fun _ _ => trivial
      refine ⟨.object (by simpa using proper), ?_⟩
      change (none <|> (decode (encode values)).map Scalars.int64 <|> _) = _
      rw [read]
      rfl

instance : Readable Tensor where
  Fits t := Fits t.shape ∧ Fits t.scalars
  reads := by
    rintro t ⟨shape, scalars⟩
    exact record_reads 0 rfl (by decide) (by simp [proper, *]) (by simp [required_encode, *])

/-! ### Settings -/

/-- Settings that are written down are checked when they are read. -/
theorem ofText_writeText {c : Config} (held : Fits c) :
    (c.validate = .ok () → Config.ofText (writeText c) = .ok c) ∧
      ∀ cause, c.validate = .error cause → Config.ofText (writeText c) = .error (.invalid cause) := by
  constructor
  · intro valid
    simp [Config.ofText, readText?_writeText held, valid]
  · intro cause invalid
    simp [Config.ofText, readText?_writeText held, invalid]

/-- Every value that its document can hold is read back from its compact text, and a settings
document is read as the settings that it was written for if these are valid and is refused
with the reason if they are not. -/
theorem round_trip :
    (∀ a : Architecture, Fits a → readText? (writeText a) = some a) ∧
      (∀ t : Tracepoint, Fits t → readText? (writeText t) = some t) ∧
      (∀ c : Config, Fits c → readText? (writeText c) = some c) ∧
      (∀ s : Span, Fits s → readText? (writeText s) = some s) ∧
      (∀ b : Buffer, Fits b → readText? (writeText b) = some b) ∧
      (∀ u : Usage, Fits u → readText? (writeText u) = some u) ∧
      (∀ r : LayerReport, Fits r → readText? (writeText r) = some r) ∧
      (∀ o : Object, Fits o → readText? (writeText o) = some o) ∧
      (∀ t : Tensor, Fits t → readText? (writeText t) = some t) ∧
      ∀ c : Config, Fits c → (c.validate = .ok () → Config.ofText (writeText c) = .ok c) ∧
        ∀ cause, c.validate = .error cause →
          Config.ofText (writeText c) = .error (.invalid cause) :=
  ⟨fun _ => readText?_writeText, fun _ => readText?_writeText, fun _ => readText?_writeText,
    fun _ => readText?_writeText, fun _ => readText?_writeText, fun _ => readText?_writeText,
    fun _ => readText?_writeText, fun _ => readText?_writeText, fun _ => readText?_writeText,
    fun _ => ofText_writeText⟩

/-- Values at the ends of their ranges, with names that need escapes and parts that are
missing. The second tracepoint is not valid. -/
theorem round_trip_extremes :
    let arch : Architecture := ⟨.fixed16, Word.max, 0, 1, Word.max⟩
    let everywhere : Tracepoint := ⟨none, none, none⟩
    let empty : Tracepoint := ⟨some .scratch, some ⟨7, 7⟩, some "\"\\/\n\x01 null é"⟩
    let config : Config := ⟨⟨.float32, 8, 4096, 64, 16⟩, [everywhere, empty]⟩
    let span : Span := ⟨[⟨.dram1, Word.max, 0⟩, ⟨.temp, 0, Word.max⟩, ⟨.dram0, 3, 2⟩]⟩
    let buffer : Buffer := ⟨"x", .dram0, span⟩
    let usage : Usage := ⟨.temp, Word.max, 0, 1, Word.max, 2⟩
    let report : LayerReport := ⟨0, "\\", 1, Word.max⟩
    let object : Object :=
      ⟨5, "", ⟨3, Word.max⟩, .scratch, span, .ofList ["a\tb", "", "$io"], ⟨[]⟩, some 6, [0, 4]⟩
    let tensor : Tensor := ⟨[2, 0], .int64 [Int64.minValue, -1, 0, Int64.maxValue]⟩
    (Fits arch ∧ readText? (writeText arch) = some arch) ∧
      (Fits empty ∧ readText? (writeText empty) = some empty) ∧
      (Fits config ∧ readText? (writeText config) = some config) ∧
      (Fits span ∧ readText? (writeText span) = some span) ∧
      (Fits buffer ∧ readText? (writeText buffer) = some buffer) ∧
      (Fits usage ∧ readText? (writeText usage) = some usage) ∧
      (Fits report ∧ readText? (writeText report) = some report) ∧
      (Fits object ∧ readText? (writeText object) = some object) ∧
      (Fits tensor ∧ readText? (writeText tensor) = some tensor) ∧
      Config.ofText (writeText config) = .error (.invalid (.emptyRange 7 7)) := by
  obtain ⟨archs, tracepoints, configs, spans, buffers, usages, reports, objects, tensors, settings⟩ :=
    round_trip
  refine ⟨⟨by decide, archs _ (by decide)⟩, ⟨by decide, tracepoints _ (by decide)⟩,
    ⟨by decide, configs _ (by decide)⟩, ⟨by decide, spans _ (by decide)⟩,
    ⟨by decide, buffers _ (by decide)⟩, ⟨by decide, usages _ (by decide)⟩,
    ⟨by decide, reports _ (by decide)⟩, ⟨by decide, objects _ (by decide)⟩,
    ⟨by decide, tensors _ (by decide)⟩, (settings _ (by decide)).2 _ (by decide)⟩

end Codec

end VectorMemory
