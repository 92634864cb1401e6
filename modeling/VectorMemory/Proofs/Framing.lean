import Mathlib.Tactic.NormNum
import VectorMemory.Digest.Basic

/-! The bytes that are hashed tell what they were made from: texts, lengths and parts
of a frame can be told from them. -/
namespace VectorMemory

namespace Bytes

theorem littleEndian_succ (width : Nat) (n : Int) :
    littleEndian (width + 1) n = UInt8.ofNat (n % 256).toNat :: littleEndian width (n / 256) := by
  have digit (k : Nat) : n / (256 * (256 ^ k : Nat) : Nat) = n / 256 / (256 ^ k : Nat) := by
    rw [Nat.cast_mul, Int.ediv_ediv_of_nonneg (by decide), Nat.cast_ofNat]
  simp only [littleEndian, List.range_succ_eq_map, List.map_cons, List.map_map, Function.comp_def,
    Nat.succ_eq_add_one, Nat.pow_eq, pow_succ', pow_zero, Nat.cast_one, Int.ediv_one, digit]

theorem length_littleEndian (width : Nat) (n : Int) : (littleEndian width n).length = width := by
  rw [littleEndian, List.length_map, List.length_range]

theorem littleEndian_inj {width m n : Nat} (small : m < 256 ^ width) (small' : n < 256 ^ width)
    (same : littleEndian width m = littleEndian width n) : m = n := by
  induction width generalizing m n with
  | zero =>
    rw [pow_zero] at small small'
    omega
  | succ width ih =>
    rw [littleEndian_succ, littleEndian_succ] at same
    obtain ⟨low, high⟩ := List.cons.inj same
    have remainder : m % 256 = n % 256 := by
      have values := congrArg UInt8.toNat low
      simp only [UInt8.toNat_ofNat'] at values
      omega
    have quotient : m / 256 = n / 256 := by
      apply ih _ _ high
      · rw [Nat.div_lt_iff_lt_mul (by decide), ← pow_succ]
        exact small
      · rw [Nat.div_lt_iff_lt_mul (by decide), ← pow_succ]
        exact small'
    omega

theorem ofText_injective : Function.Injective ofText := by
  intro a b same
  have data : a.toUTF8 = b.toUTF8 := by
    apply ByteArray.ext
    exact Array.toList_inj.mp same
  exact String.toByteArray_inj.mp data

end Bytes

namespace Digest

theorem toBytes_injective : Function.Injective toBytes := by
  rintro ⟨a⟩ ⟨b⟩ same
  exact congrArg Digest.mk (Vector.toList_inj.mp same)

theorem length_toBytes (d : Digest) : d.toBytes.length = 32 :=
  d.bytes.length_toList

theorem frame_cons (part : Bytes) (parts : List Bytes) :
    frame (part :: parts) = Bytes.littleEndian 8 part.length ++ (part ++ frame parts) := by
  rw [frame, List.flatMap_cons, List.append_assoc]
  rfl

theorem frame_cons_ne_nil (part : Bytes) (parts : List Bytes) : frame (part :: parts) ≠ [] := by
  intro empty
  have count := congrArg List.length empty
  rw [frame_cons, List.length_append, Bytes.length_littleEndian, List.length_nil] at count
  omega

theorem framed_inj {a b rest rest' : Bytes} (short : a.length < 2 ^ 64) (short' : b.length < 2 ^ 64)
    (same : Bytes.littleEndian 8 a.length ++ (a ++ rest) =
      Bytes.littleEndian 8 b.length ++ (b ++ rest')) : a = b ∧ rest = rest' := by
  have eightBytes : 2 ^ 64 = 256 ^ 8 := by norm_num
  rw [eightBytes] at short short'
  have lengths : (Bytes.littleEndian 8 a.length).length = (Bytes.littleEndian 8 b.length).length := by
    rw [Bytes.length_littleEndian, Bytes.length_littleEndian]
  obtain ⟨length, contents⟩ := List.append_inj same lengths
  exact List.append_inj contents (Bytes.littleEndian_inj short short' length)

/-- A frame at the front of another holds the first parts of it, and what follows frames the
parts that are left. -/
theorem eq_append_of_frame_append {parts parts' : List Bytes} {rest : Bytes}
    (short : ∀ part ∈ parts, part.length < 2 ^ 64) (short' : ∀ part ∈ parts', part.length < 2 ^ 64)
    (same : frame parts ++ rest = frame parts') :
    ∃ more, parts' = parts ++ more ∧ rest = frame more := by
  -- Each step cuts one part off the front of both frames; what follows the first frame stays.
  induction parts generalizing parts' with
  | nil => exact ⟨parts', rfl, same⟩
  | cons part parts ih =>
    cases parts' with
    | nil =>
      obtain ⟨empty, -⟩ := List.append_eq_nil_iff.mp same
      exact absurd empty (frame_cons_ne_nil part parts)
    | cons part' parts' =>
      obtain ⟨first, later⟩ := List.forall_mem_cons.mp short
      obtain ⟨first', later'⟩ := List.forall_mem_cons.mp short'
      simp only [frame_cons, List.append_assoc] at same
      obtain ⟨rfl, tails⟩ := framed_inj first first' same
      obtain ⟨more, rfl, left⟩ := ih later later' tails
      exact ⟨more, rfl, left⟩

/-- The bytes that are hashed for several byte strings tell which they are, how many, and where
the empty ones stand. -/
theorem framing_unambiguous {parts parts' : List Bytes}
    (short : ∀ part ∈ parts, part.length < 2 ^ 64) (short' : ∀ part ∈ parts', part.length < 2 ^ 64)
    (same : frame parts = frame parts') : parts = parts' := by
  rw [← List.append_nil (frame parts)] at same
  obtain ⟨more, rfl, empty⟩ := eq_append_of_frame_append short short' same
  cases more with
  | nil => rw [List.append_nil]
  | cons part more => exact absurd empty.symm (frame_cons_ne_nil part more)

/-- A part that is itself a frame, and the same part byte by byte. -/
theorem framing_unambiguous_nested :
    let parts : List Bytes := [frame [[7], []], []]
    let parts' : List Bytes := [[1, 0, 0, 0, 0, 0, 0, 0, 7, 0, 0, 0, 0, 0, 0, 0, 0], []]
    (∀ part ∈ parts, part.length < 2 ^ 64) ∧ (∀ part ∈ parts', part.length < 2 ^ 64) ∧
      frame parts = frame parts' ∧ parts = parts' := by
  intro parts parts'
  have short : ∀ part ∈ parts, part.length < 2 ^ 64 := by decide
  have short' : ∀ part ∈ parts', part.length < 2 ^ 64 := by decide
  have same : frame parts = frame parts' := by decide
  exact ⟨short, short', same, framing_unambiguous short short' same⟩

-- "ab", "c" against "a", "bc".
example : frame [[97, 98], [99]] ≠ frame [[97], [98, 99]] := by decide

theorem frame_pair_inj {a b a' b' : Digest}
    (same : frame [a.toBytes, b.toBytes] = frame [a'.toBytes, b'.toBytes]) : a = a' ∧ b = b' := by
  have short (a b : Digest) : ∀ part ∈ [a.toBytes, b.toBytes], part.length < 2 ^ 64 := by
    simp [length_toBytes]
  rw [← List.append_nil (frame [a.toBytes, b.toBytes])] at same
  obtain ⟨more, equal, -⟩ := eq_append_of_frame_append (short a b) (short a' b') same
  obtain ⟨first, equal⟩ := List.cons.inj equal
  obtain ⟨second, -⟩ := List.cons.inj equal
  exact ⟨toBytes_injective first.symm, toBytes_injective second.symm⟩

end Digest

end VectorMemory
