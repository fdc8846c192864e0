import Deriver.Text.Utf8

/-!
# JSON values

Reports, editor messages and recorded settings are JSON. The fields of an
object keep their order, because what is printed shows it.
-/

namespace Deriver

/-- A JSON value. A number that is no integer keeps its spelling. -/
inductive Json where
  | null
  | bool (value : Bool)
  | int (value : Int)
  | real (spelling : Text)
  | str (value : Text)
  | arr (items : List Json)
  | obj (fields : List (Text × Json))
  deriving Inhabited

namespace Json

instance : Coe Text Json := ⟨.str⟩

instance : Coe String Json := ⟨fun s => .str s⟩

instance : Coe Bool Json := ⟨.bool⟩

instance : Coe Nat Json := ⟨fun n => .int n⟩

instance : Coe Int Json := ⟨.int⟩

def field (name : String) (value : Json) : Text × Json := (name, value)

def texts (ts : List Text) : Json := .arr (ts.map .str)

/-- The value, or null. -/
def orNull : Option Json → Json
  | some j => j
  | none => .null

/-- The value of a field; of several fields of one name the last counts. -/
def get? (name : Text) : Json → Option Json
  | .obj fields => (fields.reverse.find? (·.1 == name)).map (·.2)
  | _ => none

def text? : Json → Option Text
  | .str t => some t
  | _ => none

def int? : Json → Option Int
  | .int n => some n
  | _ => none

def bool? : Json → Option Bool
  | .bool b => some b
  | _ => none

def items? : Json → Option (List Json)
  | .arr items => some items
  | _ => none

def fields? : Json → Option (List (Text × Json))
  | .obj fields => some fields
  | _ => none

def isNull : Json → Bool
  | .null => true
  | _ => false

end Json

end Deriver
