import Mathlib.Data.List.Basic
import VectorMemory.Codec.Manifest
import VectorMemory.Proofs.Documents
import VectorMemory.Proofs.Framing

/-! The digest of the tables of inputs and outputs pins both tables down, short of a
collision among the byte strings that are hashed. -/
namespace VectorMemory

/-! ### Documents that tell values apart -/

theorem eq_zero_of_head_toDigits {n : Nat} (zero : (Nat.toDigits 10 n).head? = some '0') : n = 0 := by
  induction n using Nat.strongRecOn with
  | ind n ih =>
    by_cases small : n < 10
    · rw [Nat.toDigits_of_lt_base small, List.head?_cons] at zero
      exact Nat.digitChar_eq_zero.mp (Option.some.inj zero)
    · rw [Nat.toDigits_of_base_le (by decide) (Nat.le_of_not_lt small),
        List.head?_append_of_ne_nil _ Nat.toDigits_ne_nil] at zero
      have quotient := ih (n / 10) (by omega) zero
      omega

theorem Numeral.proper_ofNat (n : Nat) : (ofNat n).Proper where
  whole := ⟨Nat.toDigits_ne_nil, fun _ => Nat.isDigit_of_mem_toDigits (by decide) (by decide)⟩
  zero := fun zero => by
    rw [ofNat, eq_zero_of_head_toDigits zero]
    rfl
  fraction := nofun
  exponent := nofun

theorem Region.key_injective {a b : Region} (same : a.key = b.key) : a = b := by
  cases a <;> cases b <;> simp_all [key]

namespace Codec

/-- The documents of a type are proper and tell its values apart. -/
structure Faithful (α : Type) [Codec α] : Prop where
  proper : ∀ a : α, (encode a).Proper
  injective : Function.Injective (encode : α → Json)

theorem faithful_nat : Faithful Nat where
  proper n := .number (Numeral.proper_ofNat n)
  injective := by
    intro m n same
    have digits : Nat.toDigits 10 m = Nat.toDigits 10 n :=
      congrArg Numeral.whole (Json.number.inj same)
    rw [← @Nat.ofDigitChars_ten_toDigits m, digits, Nat.ofDigitChars_ten_toDigits]

theorem faithful_string : Faithful String where
  proper text := .string text
  injective := fun _ _ same => Json.string.inj same

theorem faithful_list [Codec α] (faithful : Faithful α) : Faithful (List α) where
  proper items := by
    apply Json.Proper.array
    intro j member
    obtain ⟨a, -, rfl⟩ := List.mem_map.mp member
    exact faithful.proper a
  injective := fun _ _ same => List.map_injective_iff.mpr faithful.injective (Json.array.inj same)

theorem faithful_region : Faithful Region where
  proper region := .string region.key
  injective := fun _ _ same => Region.key_injective (Json.string.inj same)

theorem faithful_run : Faithful Run where
  proper run := by
    apply Json.Proper.object
    simp only [List.forall_mem_cons, List.not_mem_nil, false_implies, implies_true, and_true]
    exact ⟨faithful_region.proper _, faithful_nat.proper _, faithful_nat.proper _⟩
  injective := by
    rintro ⟨region, start, length⟩ ⟨region', start', length'⟩ same
    have fields := Json.object.inj same
    simp only [List.cons.injEq, Prod.mk.injEq, true_and, and_true] at fields
    obtain ⟨regions, starts, lengths⟩ := fields
    cases faithful_region.injective regions
    cases faithful_nat.injective starts
    cases faithful_nat.injective lengths
    rfl

theorem faithful_span : Faithful Span where
  proper span := by
    apply Json.Proper.object
    simp only [List.forall_mem_cons, List.not_mem_nil, false_implies, implies_true, and_true]
    exact (faithful_list faithful_run).proper _
  injective := by
    rintro ⟨runs⟩ ⟨runs'⟩ same
    have fields := Json.object.inj same
    simp only [List.cons.injEq, Prod.mk.injEq, true_and, and_true] at fields
    cases (faithful_list faithful_run).injective fields
    rfl

theorem faithful_buffer : Faithful Buffer where
  proper buffer := by
    apply Json.Proper.object
    simp only [List.forall_mem_cons, List.not_mem_nil, false_implies, implies_true, and_true]
    exact ⟨faithful_string.proper _, faithful_region.proper _, faithful_span.proper _⟩
  injective := by
    rintro ⟨name, region, span⟩ ⟨name', region', span'⟩ same
    have fields := Json.object.inj same
    simp only [List.cons.injEq, Prod.mk.injEq, true_and, and_true] at fields
    obtain ⟨names, regions, spans⟩ := fields
    cases faithful_string.injective names
    cases faithful_region.injective regions
    cases faithful_span.injective spans
    rfl

theorem Faithful.bytes_injective [Codec α] (faithful : Faithful α) :
    Function.Injective fun a : α => Bytes.ofText (encode a).text := by
  intro a b same
  have printed := String.ofList_injective (Bytes.ofText_injective same)
  exact faithful.injective ((faithful.proper a).print_injective (faithful.proper b) printed)

/-! ### The digest of the tables -/

def tableBytes (table : List Buffer) : Bytes :=
  Bytes.ofText (encode table).text

def layoutFrame (inputs outputs : List Buffer) : Bytes :=
  Digest.frame
    [(Digest.ofBytes (tableBytes inputs)).toBytes, (Digest.ofBytes (tableBytes outputs)).toBytes]

/-- All byte strings that are hashed for the digest of two tables. -/
def layoutBytes (inputs outputs : List Buffer) : List Bytes :=
  [tableBytes inputs, tableBytes outputs, layoutFrame inputs outputs]

theorem layoutDigest_eq (inputs outputs : List Buffer) :
    layoutDigest inputs outputs = Digest.ofBytes (layoutFrame inputs outputs) :=
  rfl

theorem tableBytes_injective : Function.Injective tableBytes :=
  (faithful_list faithful_buffer).bytes_injective

theorem eq_or_collision {a b : Bytes} {as bs : List Bytes} (member : a ∈ as) (member' : b ∈ bs)
    (same : Digest.ofBytes a = Digest.ofBytes b) :
    a = b ∨ ∃ a ∈ as, ∃ b ∈ bs, a ≠ b ∧ Digest.ofBytes a = Digest.ofBytes b := by
  by_cases equal : a = b
  · exact .inl equal
  · exact .inr ⟨a, member, b, member', equal, same⟩

/-- Tables with the same digest are the same, or two different byte strings among those
hashed for them have the same digest. -/
theorem layout_pinned {inputs outputs inputs' outputs' : List Buffer}
    (same : layoutDigest inputs outputs = layoutDigest inputs' outputs') :
    (inputs = inputs' ∧ outputs = outputs') ∨
      ∃ a ∈ layoutBytes inputs outputs, ∃ b ∈ layoutBytes inputs' outputs',
        a ≠ b ∧ Digest.ofBytes a = Digest.ofBytes b := by
  rw [layoutDigest_eq, layoutDigest_eq] at same
  have own {inputs outputs : List Buffer} : layoutFrame inputs outputs ∈ layoutBytes inputs outputs :=
    .tail _ (.tail _ (.head _))
  have first' {inputs outputs : List Buffer} : tableBytes inputs ∈ layoutBytes inputs outputs :=
    .head _
  have second' {inputs outputs : List Buffer} : tableBytes outputs ∈ layoutBytes inputs outputs :=
    .tail _ (.head _)
  rcases eq_or_collision own own same with frames | collision
  · obtain ⟨first, second⟩ := Digest.frame_pair_inj frames
    rcases eq_or_collision first' first' first with equal | collision
    · rcases eq_or_collision second' second' second with equal' | collision
      · exact .inl ⟨tableBytes_injective equal, tableBytes_injective equal'⟩
      · exact .inr collision
    · exact .inr collision
  · exact .inr collision

/-- Two ways of building the same table of inputs, one by pushing a run and one directly. -/
theorem layout_pinned_pushed :
    let inputs := [(⟨"x", .dram0, Span.ofRuns [⟨.dram0, 0, 1⟩, ⟨.dram0, 1, 1⟩]⟩ : Buffer)]
    let inputs' := [(⟨"x", .dram0, ⟨[⟨.dram0, 0, 2⟩]⟩⟩ : Buffer)]
    layoutDigest inputs [] = layoutDigest inputs' [] ∧
      ((inputs = inputs' ∧ ([] : List Buffer) = []) ∨
        ∃ a ∈ layoutBytes inputs [], ∃ b ∈ layoutBytes inputs' [],
          a ≠ b ∧ Digest.ofBytes a = Digest.ofBytes b) := by
  have spans : Span.ofRuns [⟨.dram0, 0, 1⟩, ⟨.dram0, 1, 1⟩] = ⟨[⟨.dram0, 0, 2⟩]⟩ := by decide
  refine ⟨by rw [spans], layout_pinned (by rw [spans])⟩

end Codec

end VectorMemory
