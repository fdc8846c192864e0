import Deriver.Toml.Clock
import Deriver.Toml.Syntax
import Deriver.Yaml.Basic

/-!
# TOML documents as values

A document is a mapping that is filled expression by expression: a key may name a place
deep in it, and a header says where the keys after it start. Of an expression first the
syntax is read, then its names are checked, and then the value is made out; the first
that fails is the fault of the document.
-/

/-!
## The names that are taken

No name of a document is given two values, and no table is described in two places. What
was described so far is a list of keys, each with what it names. A header makes its table
explicit; keys with points make tables in passing, and these become explicit too as soon as
the next header comes.
-/

namespace Deriver.Toml

/-- What a key names. -/
inductive Named where
  | value
  | table
  | list
  deriving DecidableEq, Repr

def Named.display : Named → Text
  | .value => "value"
  | .table => "table"
  | .list => "array table"

/-- What is known of a key. -/
structure Known where
  named : Named
  /-- Its table must not be extended by keys with points. -/
  explicit : Bool
  /-- It was made by a key and its value. -/
  byPair : Bool

/-- Why a key is refused. -/
inductive NameFault where
  | defined (name : Text)
  | noTable (name : Text) (known : Named)
  | closed (name : Text)
  | otherTable (name : Text) (known : Named)
  | twice (name : Text)
  | otherList (name : Text) (known : Named)

def NameFault.message : NameFault → Text
  | .defined name => Text.concat ["key ", name, " is already defined"]
  | .noTable name known =>
      Text.concat ["expected ", name, " to be a table, not a ", known.display]
  | .closed name => Text.concat ["cannot redefine table ", name,
      " that has already been explicitly defined"]
  | .otherTable name known =>
      Text.concat ["key ", name, " should be a table, not a ", known.display]
  | .twice name => Text.concat ["table ", name, " already exists"]
  | .otherList name known =>
      Text.concat ["key ", name, " already exists as a ", known.display,
      ",  but should be an array table"]

/-- The keys that were described, and the table that keys belong to now. -/
structure Seen where
  known : List (Key × Known) := []
  current : Key := []

namespace Seen

def set (s : Seen) (key : Key) (k : Known) : Seen :=
  { s with known := (key, k) :: s.known.filter (·.1 != key) }

def isBelow (above key : Key) : Bool := above.isPrefixOf key && above != key

/-- The keys once the current table is left: what pairs made in it is explicit. -/
def leave (s : Seen) : Seen :=
  { s with known := s.known.map fun (key, k) =>
      if isBelow s.current key && k.byPair then (key,
        { k with explicit := true, byPair := false })
      else (key, k) }

def clear (s : Seen) (above : Key) : Seen :=
  { s with known := s.known.filter fun (key, _) => !isBelow above key }

/-- Passes through the tables that the names lead to, below a key. -/
def pass (s : Seen) (above : Key) : Key → Except NameFault Seen
  | [] => .ok s
  | name :: names =>
      let key := above ++ [name]
      match s.known.lookup key with
      | none => (s.set key ⟨.table, false, false⟩).pass key names
      | some k =>
          if k.named = .value then .error (.noTable name k.named) else s.pass key names

def header (s : Seen) (key : Key) : Except NameFault Seen := do
  let s ← s.leave.pass [] key.dropLast
  let name := key.getLastD []
  match s.known.lookup key with
  | none => return { s.set key ⟨.table, true, false⟩ with current := key }
  | some k =>
      if k.named ≠ .table then throw (.otherTable name k.named)
      if k.explicit then throw (.twice name)
      return { s.set key { k with explicit := true } with current := key }

def item (s : Seen) (key : Key) : Except NameFault Seen := do
  let s ← s.leave.pass [] key.dropLast
  match s.known.lookup key with
  | none => return { s.set key ⟨.list, true, false⟩ with current := key }
  | some k =>
      if k.named ≠ .list then throw (.otherList (key.getLastD []) k.named)
      return { s.clear key with current := key }

/-- Describes the value of a key below another key. -/
def pairBelow (s : Seen) (above : Key) : Key → Except NameFault Seen
  | [] => .ok s
  | name :: names => do
      let key := above ++ [name]
      match s.known.lookup key with
      | none =>
          (s.set key ⟨if names.isEmpty then .value else .table, false, true⟩).pairBelow
            key names
      | some k =>
          if names.isEmpty then throw (.defined name)
          else if k.named ≠ .table then throw (.noTable name k.named)
          else if k.explicit then throw (.closed name)
          else s.pairBelow key names

def pair (s : Seen) (key : Key) : Except NameFault Seen := s.pairBelow s.current key

end Seen

mutual

def checkNames : Spelt → Except NameFault Unit
  | .table pairs => checkPairs {} pairs
  | .list items => checkItems items
  | _ => .ok ()

def checkItems : List Spelt → Except NameFault Unit
  | [] => .ok ()
  | v :: rest => do
      checkNames v
      checkItems rest

/-- Checks the keys of a table, and of all tables in it. -/
def checkPairs : Seen → List (Key × Spelt) → Except NameFault Unit
  | _, [] => .ok ()
  | s, (key, v) :: rest => do
      let s ← s.pair key
      checkNames v
      checkPairs s rest

end

def Seen.describe (s : Seen) : Expression → Except NameFault Seen
  | .table key => s.header key
  | .item key => s.item key
  | .pair key value => do
      let s ← s.pair key
      checkNames value
      return s

/-! ## Faults -/

/-- Why a document is refused. -/
inductive Fault where
  | malformed (fault : SyntaxFault)
  | taken (fault : NameFault)
  | number (fault : NumberFault)
  | clock (fault : ClockFault)

def Fault.message (f : Fault) : Text :=
  "toml: " ++ match f with
    | .malformed f => f.message
    | .taken f => f.message
    | .number f => f.message
    | .clock f => f.message

/-! ## Filling the mapping -/

/-- The entries of a mapping. -/
abbrev Entries := List (Text × Yaml)

def Entries.set (name : Text) (y : Yaml) : Entries → Entries
  | [] => [(name, y)]
  | (key, old) :: rest =>
      if key == name then (key, y) :: rest else (key, old) :: set name y rest

/-- Changes the table at a path, which is made if it is not there. Of a list of tables the
last is meant. -/
def Entries.within (change : Entries → Entries) : Key → Entries → Entries
  | [], entries => change entries
  | name :: path, entries =>
      entries.set name <|
        match entries.lookup name with
        | some (.map inner) => .map (within change path inner)
        | some (.list items) =>
            match items.getLast? with
            | some (.map inner) =>
                .list (items.dropLast ++ [.map (within change path inner)])
            | _ => .list (items ++ [.map (within change path [])])
        | _ => .map (within change path [])

def Entries.put (path : Key) (y : Yaml) (entries : Entries) : Entries :=
  entries.within (Entries.set (path.getLastD []) y) path.dropLast

/-- Adds an empty table to the list of tables at a path. -/
def Entries.extend (path : Key) (entries : Entries) : Entries :=
  let name := path.getLastD []
  entries.within (fun inner =>
    match inner.lookup name with
    | some (.list items) => inner.set name (.list (items ++ [.map []]))
    | _ => inner.set name (.list [.map []])) path.dropLast

/-! ## Values -/

def Clock.moment : Clock → Yaml.Moment
  | .instant => .instant
  | .day => .day
  | .time => .time
  | .dayTime => .dayTime

mutual

def meaning : Spelt → Except Fault Yaml
  | .str t => .ok (.str t)
  | .bool b => .ok (.bool b)
  | .integer t => ((integerOf t).map .int).mapError .number
  | .float t => ((floatOf t).map .float).mapError .number
  | .clock kind t => ((clockOf kind t).map (.date kind.moment)).mapError .clock
  | .list items => return .list (← meanings items)
  | .table pairs => return .map (← filled [] pairs)

def meanings : List Spelt → Except Fault (List Yaml)
  | [] => .ok []
  | v :: rest => return (← meaning v) :: (← meanings rest)

def filled (entries : Entries) : List (Key × Spelt) → Except Fault Entries
  | [] => .ok entries
  | (path, v) :: rest => do
      let y ← meaning v
      filled (entries.put path y) rest

end

/-! ## Documents -/

/-- What was read of a document. -/
structure State where
  entries : Entries := []
  seen : Seen := {}

/-- What was read with one more expression. -/
def State.add (s : State) (e : Expression) : Except Fault State := do
  let seen ← (s.seen.describe e).mapError .taken
  match e with
  | .table path => return ⟨s.entries.within id path, seen⟩
  | .item path => return ⟨s.entries.extend path, seen⟩
  | .pair path v => return ⟨s.entries.put (seen.current ++ path) (← meaning v), seen⟩

/-- What was read at the end of a text, which begins an expression if `first`, and else the
end of a line. -/
def State.lines (first : Bool) : Nat → State → Text → Except Fault State
  | 0, s, _ => .ok s
  | fuel + 1, s, t => do
      let start ← if first then .ok t else (passNewline t).mapError .malformed
      let (e, rest) ← (expression start).mapError .malformed
      let s ← match e with
        | some e => s.add e
        | none => .ok s
      if rest.isEmpty then return s
      State.lines false fuel s rest

def read (t : Text) : Except Fault (List (Text × Yaml)) := do
  return (← State.lines true (t.length + 1) {} t).entries

end Deriver.Toml
