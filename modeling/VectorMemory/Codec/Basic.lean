import VectorMemory.Json.Number
import VectorMemory.Word

/-! Reading values from documents and writing them. A record is an object with
its fields in any order, or an array of them in the order of declaration; a
variant is its name, or an object with its name as the only key. -/
namespace VectorMemory

class Codec (α : Type) where
  encode : α → Json
  decode : Json → Option α

export Codec (encode decode)

namespace Json

def valuesOf (key : String) (members : List (String × Json)) : List Json :=
  members.filterMap fun (k, value) => if k = key then some value else none

/-- The value of a key, which stands at most once. -/
def field? (key : String) (members : List (String × Json)) : Option (Option Json) :=
  match valuesOf key members with
  | [] => some none
  | [value] => some (some value)
  | _ => none

/-- The fields of a record in the order of `keys`, those that are missing as
`none`. Other keys are ignored. The array form may lack up to `missing` fields
at its end. -/
def fieldsUpTo (missing : Nat) (keys : List String) : Json → Option (List (Option Json))
  | .object members => keys.mapM fun key => field? key members
  | .array items =>
      if items.length ≤ keys.length ∧ keys.length ≤ items.length + missing then
        some (items.map some ++ List.replicate (keys.length - items.length) none)
      else none
  | _ => none

def fields (keys : List String) (j : Json) : Option (List (Option Json)) :=
  j.fieldsUpTo 0 keys

def exactFields (keys : List String) (j : Json) : Option (List (Option Json)) :=
  match j with
  | .object members =>
      if members.all fun (key, _) => keys.contains key then j.fields keys else none
  | _ => j.fields keys

def variant? : Json → Option (String × Option Json)
  | .string name => some (name, none)
  | .object [(name, content)] => some (name, some content)
  | _ => none

def bareVariant? (j : Json) : Option String :=
  match j.variant? with
  | some (name, none) => some name
  | some (name, some .null) => some name
  | _ => none

def content? (name : String) (j : Json) : Option Json :=
  match j.variant? with
  | some (found, some content) => if found = name then some content else none
  | _ => none

def ofNat (n : Nat) : Json :=
  .number (.ofNat n)

def ofInt (n : Int) : Json :=
  .number (.ofInt n)

def toInt? (least greatest : Int) : Json → Option Int
  | .number literal => literal.toInt?.filter fun n => least ≤ n && n ≤ greatest
  | _ => none

def toWord? (j : Json) : Option Nat :=
  (j.toInt? 0 Word.max).map Int.toNat

def toText? : Json → Option String
  | .string text => some text
  | _ => none

end Json

namespace Codec

instance : Codec Nat where
  encode := .ofNat
  decode := Json.toWord?

instance : Codec String where
  encode := .string
  decode := Json.toText?

instance [Codec α] : Codec (List α) where
  encode items := .array (items.map encode)
  decode
    | .array items => items.mapM decode
    | _ => none

/-- What may be absent is written as null. -/
instance [Codec α] : Codec (Option α) where
  encode
    | some value => encode value
    | none => .null
  decode
    | .null => some none
    | j => (decode j).map some

def required [Codec α] (field : Option Json) : Option α :=
  field.bind decode

def optional [Codec α] (field : Option Json) : Option (Option α) :=
  decode (field.getD .null)

end Codec

end VectorMemory
