import VectorMemory.Region
import VectorMemory.Architecture

/-! Settings of a plan: the accelerator and the tracepoints. -/
namespace VectorMemory

structure AddressRange where
  start : Nat
  stop : Nat
deriving DecidableEq, Repr

/-- A condition on freshly placed vectors. Each part that is present must hold;
without any part every vector meets it. -/
structure Tracepoint where
  region : Option Region
  addresses : Option AddressRange
  /-- The start of the object's name. -/
  named : Option String
deriving DecidableEq, Repr

def Tracepoint.accepts (t : Tracepoint) (l : Location) (name : String) : Bool :=
  t.region.all (· = l.region) &&
    t.addresses.all (fun range => range.start ≤ l.address && l.address < range.stop) &&
    t.named.all (fun start => start.toList.isPrefixOf name.toList)

structure Config where
  arch : Architecture
  tracepoints : List Tracepoint
deriving DecidableEq, Repr

namespace Config

def standard : Config := ⟨.standard, []⟩

def checkTracepoint (t : Tracepoint) : Except InputError Unit :=
  match t.addresses with
  | none => .ok ()
  | some range =>
      if range.start < range.stop then .ok () else .error (.emptyRange range.start range.stop)

def validate (config : Config) : Except InputError Unit := do
  config.arch.validate
  config.tracepoints.forM checkTracepoint

/-- A word in decimal digits, after at most one plus sign. -/
def wordOfText? (text : String) : Option Nat :=
  let digits := match text.toList with
    | '+' :: rest => rest
    | cs => cs
  if digits.isEmpty ∨ ¬ digits.all Char.isDigit then none
  else
    let n := digits.foldl (fun n c => 10 * n + (c.toNat - '0'.toNat)) 0
    if n < Word.limit then some n else none

/-- Settings from an environment. Variables that are missing, or that do not
read as what they set, leave the standard value. -/
def ofEnvironment (lookup : String → Option String) : Config :=
  let word (name : String) (standard : Nat) : Nat :=
    ((lookup name).bind wordOfText?).getD standard
  let format :=
    match (lookup "TPC_DATA_TYPE").map NativeFormat.ofName with
    | some (.ok format) => format
    | _ => Architecture.standard.format
  ⟨⟨format,
    word "TPC_ARRAY_SIZE" Architecture.standard.lanes,
    word "TPC_DRAM0_DEPTH" Architecture.standard.dram0Depth,
    word "TPC_DRAM1_DEPTH" Architecture.standard.dram1Depth,
    word "TPC_LOCAL_DEPTH" Architecture.standard.scratchDepth⟩, []⟩

end Config

end VectorMemory
