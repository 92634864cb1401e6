import VectorMemory.Codec.Manifest
import VectorMemory.Json.Reader

/-! Values as JSON text. -/
namespace VectorMemory

def writeText [Codec α] (value : α) : String :=
  (encode value).text

def readText? [Codec α] (text : String) : Option α :=
  (Json.read? text).bind decode

inductive ConfigError where
  | unreadable
  | invalid (cause : InputError)
deriving DecidableEq, Repr

def Config.ofText (text : String) : Except ConfigError Config :=
  match (readText? text : Option Config) with
  | none => .error .unreadable
  | some config =>
      match config.validate with
      | .ok () => .ok config
      | .error cause => .error (.invalid cause)

end VectorMemory
