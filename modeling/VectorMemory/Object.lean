import VectorMemory.Span
import VectorMemory.Extent
import VectorMemory.NameSet

/-! Named memory objects. An object lives as long as it has consumers; the two
sentinel consumers are never retired and so pin it for good. -/
namespace VectorMemory

/-- The place of an object in its registry. Places are never used again. -/
abbrev ObjectId := Nat

/-- Pins program inputs and outputs. -/
def ioSentinel : String := "$io"

/-- Pins constants. -/
def constantSentinel : String := "$consts"

def isSentinel (consumer : String) : Bool :=
  consumer = ioSentinel || consumer = constantSentinel

structure Object where
  id : ObjectId
  name : String
  extent : Extent
  region : Region
  /-- What readers see, in logical order. -/
  span : Span
  consumers : NameSet
  /-- The vectors that go back to their spaces when the object is freed. -/
  owned : Span
  /-- The blend that took this object over. -/
  supersededBy : Option ObjectId
  /-- The objects that this one is a blend of. -/
  blendees : List ObjectId
deriving DecidableEq, Repr

namespace Object

def isConsumed (o : Object) : Bool :=
  o.consumers.isEmpty

def isPinned (o : Object) : Bool :=
  o.consumers.any isSentinel

def isBlend (o : Object) : Bool :=
  !o.blendees.isEmpty

def isLive (o : Object) : Bool :=
  o.supersededBy.isNone

/-- Retire consumers; sentinels stay. -/
def retire (consumers : List String) (o : Object) : Object :=
  { o with consumers := o.consumers.filter fun c => isSentinel c || !consumers.contains c }

def pin (sentinel : String) (o : Object) : Object :=
  { o with consumers := o.consumers.insert sentinel }

end Object

end VectorMemory
