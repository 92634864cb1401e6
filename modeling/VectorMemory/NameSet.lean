/-! Finite sets of names, as strictly increasing lists in the order of code points. -/
namespace VectorMemory

structure NameSet where
  names : List String
  ordered : names.Pairwise (· < ·)
deriving DecidableEq, Repr

namespace NameSet

instance : Coe NameSet (List String) := ⟨names⟩

instance : Membership String NameSet := ⟨fun s name => name ∈ s.names⟩

instance (name : String) (s : NameSet) : Decidable (name ∈ s) :=
  inferInstanceAs (Decidable (name ∈ s.names))

instance : EmptyCollection NameSet := ⟨⟨[], .nil⟩⟩

def place (name : String) : List String → List String
  | [] => [name]
  | first :: rest =>
      if name < first then name :: first :: rest
      else if name = first then first :: rest
      else first :: place name rest

theorem mem_place {name other : String} {names : List String} :
    other ∈ place name names ↔ other = name ∨ other ∈ names := by
  induction names with
  | nil => simp [place]
  | cons first rest ih =>
    rw [place]
    split
    · simp
    · split
      · next same => simp [same]
      · simp [ih, or_left_comm]

theorem ordered_place {name : String} {names : List String} (ordered : names.Pairwise (· < ·)) :
    (place name names).Pairwise (· < ·) := by
  induction names with
  | nil => simp [place]
  | cons first rest ih =>
    obtain ⟨least, tail⟩ := List.pairwise_cons.mp ordered
    rw [place]
    split
    · next below =>
      refine List.pairwise_cons.mpr ⟨fun other member => ?_, ordered⟩
      rcases List.mem_cons.mp member with rfl | member
      · exact below
      · exact String.lt_trans below (least other member)
    · split
      · exact ordered
      · next above other =>
        refine List.pairwise_cons.mpr ⟨fun later member => ?_, ih tail⟩
        rcases mem_place.mp member with rfl | member
        · refine String.not_le.mp fun under => other ?_
          exact String.le_antisymm under (String.not_lt.mp above)
        · exact least later member

def insert (name : String) (s : NameSet) : NameSet :=
  ⟨place name s.names, ordered_place s.ordered⟩

def ofList (names : List String) : NameSet :=
  names.foldr insert ∅

def filter (p : String → Bool) (s : NameSet) : NameSet :=
  ⟨s.names.filter p, s.ordered.filter p⟩

def any (s : NameSet) (p : String → Bool) : Bool :=
  s.names.any p

def isEmpty (s : NameSet) : Bool :=
  s.names.isEmpty

variable {s : NameSet} {name other : String} {p : String → Bool}

theorem mem_insert : other ∈ s.insert name ↔ other = name ∨ other ∈ s :=
  mem_place

theorem mem_ofList {names : List String} : other ∈ ofList names ↔ other ∈ names := by
  induction names with
  | nil => exact ⟨nofun, nofun⟩
  | cons first rest ih =>
    rw [ofList, List.foldr_cons, mem_insert, ← ofList, ih, List.mem_cons]

theorem mem_filter : name ∈ s.filter p ↔ name ∈ s ∧ p name = true :=
  List.mem_filter

theorem isEmpty_iff : s.isEmpty = true ↔ s = ∅ := by
  refine List.isEmpty_iff.trans ⟨fun none => ?_, fun same => same ▸ rfl⟩
  cases s
  cases none
  rfl

theorem any_eq_true : s.any p = true ↔ ∃ name ∈ s, p name = true :=
  List.any_eq_true

end NameSet

end VectorMemory
