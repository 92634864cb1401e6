/-! The four memories of the accelerator and the vectors in them. An address
counts vectors from the start of its region. -/
namespace VectorMemory

inductive Region where
  /-- Off-chip memory for program inputs, outputs and spilled activations. -/
  | dram0
  /-- Off-chip memory for constants, written once. -/
  | dram1
  /-- On-chip memory for intermediates of one layer. -/
  | scratch
  /-- Bookkeeping that never reaches the program. -/
  | temp
deriving DecidableEq, Repr

namespace Region

def all : List Region := [.dram0, .dram1, .scratch, .temp]

def label : Region → String
  | .dram0 => "DRAM0"
  | .dram1 => "DRAM1"
  | .scratch => "Local"
  | .temp => "Temp"

def key : Region → String
  | .dram0 => "dram0"
  | .dram1 => "dram1"
  | .scratch => "local"
  | .temp => "temp"

def rank : Region → Nat
  | .dram0 => 0
  | .dram1 => 1
  | .scratch => 2
  | .temp => 3

theorem rank_injective {a b : Region} (same : a.rank = b.rank) : a = b := by
  cases a <;> cases b <;> simp_all [rank]

end Region

structure Location where
  region : Region
  address : Nat
deriving DecidableEq, Repr

namespace Location

/-- Region first, then address. -/
def before (a b : Location) : Bool :=
  a.region.rank < b.region.rank || (a.region.rank == b.region.rank && a.address < b.address)

def label (l : Location) : String :=
  l.region.label ++ "@0x" ++ String.ofList (Nat.toDigits 16 l.address)

end Location

end VectorMemory
