import Deriver.Json.Basic
import Deriver.Number.Binary64
import Deriver.Number.Timestamp

/-!
# YAML values

What a YAML document means, once its tags and the spellings of its scalars are
settled. The entries of a mapping keep their order. Settings are read into such
values and written from them; a date or a time is kept as it is displayed. The keys
of a mapping are texts, unless one of them is spelt as anything else.
-/

namespace Deriver

/-- What a date or a time tells: a point in time, or a day, a time of day or both wherever
one is. -/
inductive Yaml.Moment where
  | instant
  | day
  | time
  | dayTime
  deriving DecidableEq, Repr, Inhabited

/-- A YAML value. A float is its 64-bit pattern. -/
inductive Yaml where
  | null
  | bool (value : Bool)
  | int (value : Int)
  | float (bits : Nat)
  | date (kind : Yaml.Moment) (display : Text)
  | str (value : Text)
  | list (items : List Yaml)
  | map (entries : List (Text × Yaml))
  | keyed (entries : List (Yaml × Yaml))
  deriving Inhabited

namespace Yaml

/-- The value of an entry; of several entries of one name the last counts. -/
def get? (name : Text) : Yaml → Option Yaml
  | .map entries => (entries.reverse.find? (·.1 == name)).map (·.2)
  | _ => none

/-! ## The order of keys -/

/-- The place of a kind of key among the others. -/
def keyRank : Yaml → Nat
  | .null => 0
  | .bool _ => 1
  | .float _ => 2
  | .int n => if n < Nat.pow 2 63 then 3 else 5
  | .str _ => 4
  | .date _ _ | .list _ | .map _ | .keyed _ => 6

/-- The place of a float among the others. What is no number stands first. -/
def floatPlace (bits : Nat) : Int :=
  let size : Nat := bits % Nat.pow 2 63
  if size > 2047 * Nat.pow 2 52 then -Nat.pow 2 63
  else if bits < Nat.pow 2 63 then size else -(size : Int)

/-- Whether a key comes no later than another where a message shows them. -/
def keyLe : Yaml → Yaml → Bool
  | .bool a, .bool b => !a || b
  | .float a, .float b => floatPlace a ≤ floatPlace b
  | .int a, .int b => a ≤ b
  | .str a, .str b => Text.le a b
  | .date _ a, .date _ b => Text.le a b
  | a, b => keyRank a ≤ keyRank b

mutual

def display : Yaml → Text
  | .null => "<nil>"
  | .bool b => if b then "true" else "false"
  | .int n => .ofInt n
  | .float bits => Binary64.display bits
  | .date _ t => t
  | .str t => t
  | .list items => Text.concat ["[", Text.join " " (displayItems items), "]"]
  | .map entries =>
      Text.concat ["map[",
        Text.join " "
          (((displayEntries entries).mergeSort fun a b => Text.le a.1 b.1).map (·.2)), "]"]
  | .keyed entries =>
      Text.concat ["map[",
        Text.join " "
          (((displayKeyed entries).mergeSort fun a b => keyLe a.1 b.1).map (·.2)), "]"]

def displayItems : List Yaml → List Text
  | [] => []
  | y :: rest => display y :: displayItems rest

/-- The entries of a mapping as a message shows them, each with its name, by which
they are ordered. -/
def displayEntries : List (Text × Yaml) → List (Text × Text)
  | [] => []
  | (name, y) :: rest => (name, Text.concat [name, ":", display y]) :: displayEntries rest

/-- The entries of a mapping with keys of any kind as a message shows them, each
with its key, by which they are ordered. -/
def displayKeyed : List (Yaml × Yaml) → List (Yaml × Text)
  | [] => []
  | (key, y) :: rest =>
      (key, Text.concat [display key, ":", display y]) :: displayKeyed rest

end

def keyName : Yaml → Text
  | .null => []
  | .float bits => Binary64.positional bits
  | y => y.display

end Yaml

end Deriver

/-!
## One tree, two spellings

What is printed as YAML or as JSON is built once, as a YAML value, and changes
its spelling here.
-/

namespace Deriver.Yaml

mutual

def toJson : Yaml → Json
  | .null => .null
  | .bool b => .bool b
  | .int n => .int n
  | .float bits => .real (Binary64.display bits)
  | .date _ t => .str t
  | .str t => .str t
  | .list items => .arr (itemsToJson items)
  | .map entries => .obj (entriesToJson entries)
  | .keyed entries => .obj (keyedToJson entries)

def itemsToJson : List Yaml → List Json
  | [] => []
  | y :: rest => toJson y :: itemsToJson rest

def entriesToJson : List (Text × Yaml) → List (Text × Json)
  | [] => []
  | (name, y) :: rest => (name, toJson y) :: entriesToJson rest

def keyedToJson : List (Yaml × Yaml) → List (Text × Json)
  | [] => []
  | (key, y) :: rest => (keyName key, toJson y) :: keyedToJson rest

end

def entry (name : String) (y : Yaml) : List (Text × Yaml) := [(name, y)]

def textEntry (name : String) (t : Text) : List (Text × Yaml) :=
  if t.isEmpty then [] else entry name (.str t)

def flagEntry (name : String) (b : Bool) : List (Text × Yaml) :=
  if b then entry name (.bool true) else []

def listEntry (name : String) (items : List Yaml) : List (Text × Yaml) :=
  if items.isEmpty then [] else entry name (.list items)

/-- An entry with a list of texts, left out if there are none. -/
def textsEntry (name : String) (ts : List Text) : List (Text × Yaml) :=
  listEntry name (ts.map .str)

def someEntry (name : String) (y : Option Yaml) : List (Text × Yaml) :=
  match y with
  | some y => entry name y
  | none => []

end Deriver.Yaml

/-!
# Plain scalars

What a scalar without quotes means: nothing, a truth value, a number, a date, or
else the text it is. A text that would be read as something else has to be
written in quotes, so the writer asks the same question.
-/

namespace Deriver.Yaml

def words : List (List Text × Yaml) :=
  [(["", "~", "null", "Null", "NULL"], .null),
   (["true", "True", "TRUE"], .bool true),
   (["false", "False", "FALSE"], .bool false),
   ([".nan", ".NaN", ".NAN"], .float 0x7FF8000000000001),
   ([".inf", ".Inf", ".INF", "+.inf", "+.Inf", "+.INF"], .float 0x7FF0000000000000),
   (["-.inf", "-.Inf", "-.INF"], .float 0xFFF0000000000000)]

/-! ## Numbers -/

def float? (t : Text) : Option Nat := (Decimal.parse t).toOption

/-- Whether every underscore stands between two digits; `after` says that a digit
was the last byte. -/
def separatesDigits : Bool → Text → Bool
  | _, [] => true
  | after, 95 :: rest =>
      after && rest.head?.any Text.isDigitByte && separatesDigits false rest
  | _, b :: rest => separatesDigits (Text.isDigitByte b) rest

/-- The pattern of a number that begins with its point. Underscores may stand
between its digits. -/
def pointed? (t : Text) : Option Nat :=
  if separatesDigits false t then float? (t.filter (· != 95)) else none

/-- An integer that fits a word, signed or not, in the base that it names. -/
def integer? (t : Text) : Option Int :=
  match Integer.parseAnyBase t, Integer.magnitude t with
  | .ok n, _ => some n
  | .error _, .ok n => some n
  | .error _, .error _ => none

def lateSigned? (t : Text) : Option Int :=
  match t.dropStart? "0b", t.dropStart? "0o" with
  | some rest, _ => (Integer.parseIn 2 rest).toOption
  | none, some rest => (Integer.parseIn 8 rest).toOption
  | none, none => none

/-! ## Scalars -/

/-- What a text is that begins like a number, if it is no mere text. It is a date
only if `dated`. -/
def number? (dated : Bool) (t : Text) : Option Yaml :=
  let bare := t.filter (· != 95)
  match if dated then Timestamp.parse? t else none with
  | some m => some (.date .instant m.display)
  | none =>
      match integer? bare, float? bare with
      | some n, _ => some (.int n)
      | none, some bits => some (.float bits)
      | none, none => (lateSigned? bare).map .int

/-- What a scalar means whose text decides. -/
def resolve (dated : Bool) (t : Text) : Yaml :=
  match words.find? (·.1.contains t) with
  | some (_, y) => y
  | none =>
      match t with
      | b :: _ =>
          if Text.isDigitByte b || b == 43 || b == 45 then (number? dated t).getD (.str t)
          else if b == 46 then ((pointed? t).map .float).getD (.str t)
          else .str t
      | [] => .null

def ofPlain (t : Text) : Yaml := resolve true t

def isPlainText (t : Text) : Bool :=
  match ofPlain t with
  | .str _ => true
  | _ => false

def tag : Yaml → Text
  | .null => "!!null"
  | .bool _ => "!!bool"
  | .int _ => "!!int"
  | .float _ => "!!float"
  | .date _ _ => "!!timestamp"
  | .str _ => "!!str"
  | .list _ => "!!seq"
  | .map _ | .keyed _ => "!!map"

end Deriver.Yaml
