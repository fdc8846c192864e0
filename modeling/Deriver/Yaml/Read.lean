import Deriver.Text.Base64
import Deriver.Text.Quoted
import Deriver.Yaml.Event
import Deriver.Yaml.Basic

/-!
# Reading a YAML document as settings

The root of a document has to be a mapping, or nothing. Its keys are texts,
however they are spelt; inside, a mapping whose keys are not all texts has keys of
any kind.

A document that is well formed can still say things that make no sense: a key
twice, or a root that is a list. Such complaints are collected and reported
together, each with its line. Other faults end the reading: a value that is not
what its tag says, a node that contains itself, or a document that consists of
little but aliases.
-/

/-!
## Nodes of a YAML document

The events of a document as one tree: scalars, sequences and mappings, each with
its tag and the line it begins on. A node with an anchor gets a number when it
begins, so that an alias can refer to a node that it stands in; what the number
means is said by the `Document`.

A tag is kept in its short form. What has none gets the one of its kind; a plain
scalar that of the value it spells.
-/

namespace Deriver.Yaml

/-- A node of a document. Lines count from one. -/
inductive Node where
  | scalar (line : Nat) (tag : Text) (text : Text)
  | sequence (line : Nat) (tag : Text) (items : List Node)
  | mapping (line : Nat) (tag : Text) (entries : List (Node × Node))
  /-- The number of the alias itself, and that of the node it refers to. -/
  | alias (line : Nat) (name : Text) (self target : Nat)
  deriving Inhabited

def shortTag (tag : Text) : Text :=
  match tag.dropStart? "tag:yaml.org,2002:" with
  | some name => "!!" ++ name
  | none => tag

/-- The tag of a node that is given one, or else the usual one. -/
def tagOr (given usual : Text) : Text :=
  if given.isEmpty || given == ("!" : Text) then usual else shortTag given

def scalarTag (given : Text) (plain : Bool) (text : Text) : Text :=
  tagOr given
    (if !plain then "!!str"
     else if text == ("<<" : Text) then "!!merge"
     else (ofPlain text).tag)

/-- A document: its root, and the nodes that have an anchor. -/
structure Document where
  root : Node
  anchored : List (Nat × Node)
  deriving Inhabited

/-- A collection that is being built, its parts in reverse. -/
inductive Frame where
  | sequence (anchor : Option Nat) (line : Nat) (tag : Text) (items : List Node)
  | mapping (anchor : Option Nat) (line : Nat) (tag : Text) (entries : List (Node × Node))
  /-- A mapping of which a key was read and its value is missing. -/
  | half (anchor : Option Nat) (line : Nat) (tag : Text)
    (entries : List (Node × Node)) (key : Node)

/-- The state between two events. -/
structure Builder where
  frames : List Frame
  root : Option Node
  /-- What anchors name, the latest first. -/
  names : List (Text × Nat)
  anchored : List (Nat × Node)
  /-- The next number for a node. -/
  fresh : Nat

namespace Builder

def start : Builder := ⟨[], none, [], [], 0⟩

/-- A number for a node, if it has an anchor. -/
def name (b : Builder) (anchor : Text) : Option Nat × Builder :=
  if anchor.isEmpty then (none, b)
  else (some b.fresh,
    { b with names := (anchor, b.fresh) :: b.names, fresh := b.fresh + 1 })

/-- The state with a finished node in its place. -/
def add (b : Builder) (anchor : Option Nat) (n : Node) : Builder :=
  let b := match anchor with
    | some i => { b with anchored := (i, n) :: b.anchored }
    | none => b
  match b.frames with
  | [] => { b with root := some n }
  | .sequence a line tag items :: rest =>
      { b with frames := .sequence a line tag (n :: items) :: rest }
  | .mapping a line tag entries :: rest =>
      { b with frames := .half a line tag entries n :: rest }
  | .half a line tag entries key :: rest =>
      { b with frames := .mapping a line tag ((key, n) :: entries) :: rest }

/-- The state with the innermost collection finished. -/
def close (b : Builder) : Builder :=
  match b.frames with
  | [] => b
  | .sequence a line tag items :: rest =>
      add { b with frames := rest } a (.sequence line tag items.reverse)
  | .mapping a line tag entries :: rest | .half a line tag entries _ :: rest =>
      add { b with frames := rest } a (.mapping line tag entries.reverse)

/-- The state behind an event. An alias must refer to something before it. -/
def step (b : Builder) : Event → Except Fault Builder
  | .alias mark name =>
      match b.names.lookup name with
      | some target =>
          .ok (add { b with fresh := b.fresh + 1 } none
            (.alias (mark.line + 1) name b.fresh target))
      | none => .error ⟨.node, 0, 0, Text.concat ["unknown anchor '", name, "' referenced"]⟩
  | .scalar p plain text =>
      let (anchor, b) := b.name p.anchor
      .ok (b.add anchor (.scalar (p.start.line + 1) (scalarTag p.tag plain text) text))
  | .sequenceStart p =>
      let (anchor, b) := b.name p.anchor
      .ok { b with
        frames := .sequence anchor (p.start.line + 1) (tagOr p.tag "!!seq") [] :: b.frames }
  | .mappingStart p =>
      let (anchor, b) := b.name p.anchor
      .ok { b with
        frames := .mapping anchor (p.start.line + 1) (tagOr p.tag "!!map") [] :: b.frames }
  | .sequenceEnd | .mappingEnd => .ok b.close

end Builder

/-- The first document of a text, if it has one. A fault of the text counts only
if the events before it are in order. -/
def Document.ofText? (t : Text) : Except Fault (Option Document) := do
  let stream := events t
  let b ← stream.events.foldlM Builder.step .start
  match stream.fault with
  | some f => throw f
  | none => return b.root.map fun root => ⟨root, b.anchored⟩

/-! ## Documents as settings -/

/-- Why a text cannot be read as a mapping. -/
inductive ReadFault where
  /-- The characters, the tokens or the nodes are wrong. -/
  | malformed (fault : Fault)
  /-- A node makes no sense. -/
  | senseless (reason : Text)
  /-- Everything that is wrong with an otherwise readable document. -/
  | complaints (lines : List Text)
  deriving Repr, Inhabited

def ReadFault.message : ReadFault → Text
  | .malformed f => f.message
  | .senseless reason => "yaml: " ++ reason
  | .complaints lines => "yaml: unmarshal errors:\n  " ++ Text.join "\n  " lines

/-! ## Keys -/

/-- Whether two keys of a mapping are the same. No number is the same as one that
is none. -/
def sameKey : Yaml → Yaml → Bool
  | .null, .null => true
  | .bool a, .bool b => a == b
  | .int a, .int b => a == b
  | .float a, .float b =>
      (a == b && a % Nat.pow 2 63 ≤ 2047 * Nat.pow 2 52) ||
        (a % Nat.pow 2 63 = 0 && b % Nat.pow 2 63 = 0)
  | .date j a, .date k b => j == k && a == b
  | .str a, .str b => a == b
  | _, _ => false

def isComposite : Yaml → Bool
  | .list _ | .map _ | .keyed _ => true
  | _ => false

mutual

/-- A value as a message about a key spells it. -/
def spelled : Yaml → Text
  | .null => "interface \x7b\x7d(nil)"
  | .str t => t.quoted
  | .list items =>
      Text.concat ["[]interface \x7b\x7d\x7b", Text.join ", " (spelledItems items), "\x7d"]
  | .map entries =>
      Text.concat ["map[string]interface \x7b\x7d\x7b",
        Text.join ", "
          (((spelledEntries entries).mergeSort fun a b => Text.le a.1 b.1).map (·.2)),
          "\x7d"]
  | .keyed entries =>
      Text.concat ["map[interface \x7b\x7d]interface \x7b\x7d\x7b",
        Text.join ", "
          (((spelledKeyed entries).mergeSort fun a b => keyLe a.1 b.1).map (·.2)), "\x7d"]
  | y => y.display

/-- The items of a list, spelled. -/
def spelledItems : List Yaml → List Text
  | [] => []
  | y :: rest => spelled y :: spelledItems rest

/-- The entries of a mapping, spelled, each with its name. -/
def spelledEntries : List (Text × Yaml) → List (Text × Text)
  | [] => []
  | (name, y) :: rest =>
      (name, Text.concat [name.quoted, ":", spelled y]) :: spelledEntries rest

/-- The entries of a mapping with keys of any kind, spelled, each with its key. -/
def spelledKeyed : List (Yaml × Yaml) → List (Yaml × Text)
  | [] => []
  | (key, y) :: rest =>
      (key, Text.concat [spelled key, ":", spelled y]) :: spelledKeyed rest

end

/-! ## Scalars -/

def scalarTags : List Text := ["!!bool", "!!int", "!!float", "!!null", "!!timestamp"]

/-- The value of a scalar. Bytes are taken from base sixty-four, and what has any
other unknown tag is the text it is. -/
def scalarValue (tag text : Text) : Except Text Yaml :=
  if tag == ("!!binary" : Text) then
    match text.ofBase64? with
    | some t => .ok (.str t)
    | none => .error "!!binary value contains invalid base64 data"
  else if !scalarTags.contains tag then .ok (.str text)
  else
    let y := resolve (tag == ("!!timestamp" : Text)) text
    if y.tag == tag then .ok y
    else
      let refused : Except Text Yaml :=
        .error (Text.concat ["cannot decode ", y.tag, " \x60", text, "\x60 as a ", tag])
      match y with
      | .int n =>
          if tag == ("!!float" : Text) && n < Nat.pow 2 63 then
            let bits := (Binary64.ofFraction? n.natAbs 1).getD 0
            .ok (.float (if n < 0 then bits + Nat.pow 2 63 else bits))
          else refused
      | _ => refused

/-! ## Nodes -/

/-- What a reading keeps account of. -/
structure Reading where
  complaints : List Text
  /-- How many nodes were read. -/
  nodes : Nat
  /-- How many of them were read through an alias. -/
  aliased : Nat
  /-- The aliases that are being read. -/
  inside : List Nat
  /-- The keys that a merged mapping cannot set any more. -/
  fixed : Option (List Yaml)

/-- Reading a node: complaints are collected, anything senseless ends it. -/
abbrev Valuation := StateT Reading (Except Text)

/-- Whether too many of the nodes that were read were read through an alias. The
larger a document becomes, the fewer may be. -/
def Reading.isExcessive (r : Reading) : Bool :=
  let (low, high) := (400000, 4000000)
  100 < r.aliased && 1000 < r.nodes &&
    if r.nodes ≤ low then 99 * r.nodes < 100 * r.aliased
    else if high ≤ r.nodes then r.nodes < 10 * r.aliased
    else r.nodes * (99 * (high - low) - 89 * (r.nodes - low)) < 100 *
      r.aliased * (high - low)

namespace Valuation

def complain (line : Text) : Valuation Unit :=
  modify fun r => { r with complaints := r.complaints ++ [line] }

def count : Valuation Unit := do
  modify fun r => { r with
    nodes := r.nodes + 1, aliased := if r.inside.isEmpty then r.aliased else r.aliased + 1 }
  if (← get).isExcessive then throw ("document contains excessive aliasing" : Text)

def through {α : Type} (self : Nat) (name : Text) (act : Valuation α) : Valuation α := do
  let inside := (← get).inside
  if inside.contains self then
    throw (Text.concat ["anchor '", name, "' value contains itself"])
  modify fun r => { r with inside := self :: inside }
  let result ← act
  modify fun r => { r with inside := inside }
  return result

/-- Complains about a node that cannot be what it has to be. -/
def mismatch (line : Nat) (tag text target : Text) : Valuation Unit :=
  let shown : Text :=
    if tag == ("!!seq" : Text) || tag == ("!!map" : Text) then text
    else
      Text.concat [" \x60", if text.length > 10 then text.take 7 ++ "..." else text, "\x60"]
  complain (Text.concat ["line ", .ofNat line, ": cannot unmarshal ", tag, shown,
    " into ", target])

end Valuation

def Document.node (d : Document) (target : Nat) : Node :=
  (d.anchored.lookup target).getD (.scalar 0 "!!null" [])

/-- The tag of a node; that of an alias is the one of the node it refers to. -/
def Document.tagOf (d : Document) : Node → Text
  | .scalar _ tag _ | .sequence _ tag _ | .mapping _ tag _ => tag
  | .alias _ _ _ target =>
      match d.node target with
      | .scalar _ tag _ | .sequence _ tag _ | .mapping _ tag _ => tag
      | .alias .. => []

/-- Whether a node is a mapping, or an alias of one. -/
def Document.isMapping (d : Document) : Node → Bool
  | .mapping .. => true
  | .alias _ _ _ target => match d.node target with
    | .mapping .. => true
    | _ => false
  | _ => false

def isMerge : Node → Bool
  | .scalar _ tag text => text == ("<<" : Text) && tag == ("!!merge" : Text)
  | _ => false

/-- What tells two keys apart before their values are known: the kind of the node
and its text. -/
def Node.face : Node → Nat × Nat × Text
  | .scalar line _ text => (line, 0, text)
  | .sequence line _ _ => (line, 1, [])
  | .mapping line _ _ => (line, 2, [])
  | .alias line name _ _ => (line, 3, name)

/-- The complaints about keys that stand twice in a mapping. -/
def repeated : List (Nat × Nat × Text) → List Text
  | [] => []
  | (line, kind, text) :: rest =>
      let again := (rest.filter fun other => other.2 == (kind, text)).map fun other =>
        Text.concat ["line ", .ofNat other.1, ": mapping key ", text.quoted,
          " already defined at line ", .ofNat line]
      again ++ repeated rest

/-- Whether a mapping has no key twice; else it is complained about. -/
def hasDistinctKeys (entries : List (Node × Node)) : Valuation Bool := do
  let lines := repeated (entries.map fun e => e.1.face)
  lines.forM Valuation.complain
  return lines.isEmpty

/-- The entries of a mapping that is being read. -/
abbrev Entries := List (Yaml × Yaml)

def Entries.put (key y : Yaml) : Entries → Entries
  | [] => [(key, y)]
  | (k, old) :: rest =>
      if sameKey k key then (k, y) :: rest else (k, old) :: Entries.put key y rest

def Entries.named (entries : Entries) : List (Text × Yaml) :=
  entries.map fun (key, y) => (keyName key, y)

/-- How far the entries of a mapping were read: what they gave, the keys that
they cannot set, and the value that is to be merged. -/
structure Filling where
  entries : Entries
  fixed : Option (List Yaml)
  merge : Option Node

def mergeRefusal : Text := "map merge requires map or sequence of maps as the value"

section

variable (d : Document)

mutual

/-- The value of a node, unless there is a complaint about it. -/
def valueOf : Nat → Node → Valuation (Option Yaml)
  | 0, _ => return none
  | fuel + 1, n => do
      Valuation.count
      match n with
      | .alias _ name self target =>
          Valuation.through self name (valueOf fuel (d.node target))
      | .scalar _ tag text => some <$> liftM (scalarValue tag text)
      | .sequence _ _ items => (some ∘ .list) <$> valuesOf fuel items
      | .mapping _ _ entries =>
          if ← hasDistinctKeys entries then
            let textual := entries.all fun (key, _) =>
              (["!!str", "!!merge"] : List Text).contains (d.tagOf key)
            let entries ← fill fuel textual entries []
            return some (if textual then .map entries.named else .keyed entries)
          else return none

def valuesOf : Nat → List Node → Valuation (List Yaml)
  | 0, _ | _, [] => return []
  | fuel + 1, n :: rest => do
      let y? ← valueOf fuel n
      return y?.toList ++ (← valuesOf fuel rest)

/-- The text of a key that has to be a text. Nothing at all is no text. -/
def textOf : Nat → Node → Valuation (Option Text)
  | 0, _ => return none
  | fuel + 1, n => do
      Valuation.count
      match n with
      | .alias _ name self target =>
          Valuation.through self name (textOf fuel (d.node target))
      | .scalar _ tag text =>
          match ← liftM (scalarValue tag text) with
          | .null => return none
          | .str t => return some t
          | _ => return some text
      | .sequence line tag _ => Valuation.mismatch line tag [] "string"; return none
      | .mapping line tag entries =>
          if ← hasDistinctKeys entries then Valuation.mismatch line tag [] "string"
          return none

/-- Entries with those of a mapping behind them, the merged ones last. -/
def fill : Nat → Bool → List (Node × Node) → Entries → Valuation Entries
  | 0, _, _, entries => return entries
  | fuel + 1, textual, nodes, entries => do
      let fixed := (← get).fixed
      modify fun r => { r with fixed := none }
      let f ← fillLoop fuel textual nodes ⟨entries, fixed, none⟩
      modify fun r => { r with fixed := f.fixed }
      match f.merge with
      | some m => mergeInto fuel textual nodes m f.entries
      | none => return f.entries

/-- The entries of a mapping but for what it merges. -/
def fillLoop : Nat → Bool → List (Node × Node) → Filling → Valuation Filling
  | 0, _, _, f | _, _, [], f => return f
  | fuel + 1, textual, (key, n) :: rest, f => do
      if isMerge key then fillLoop fuel textual rest { f with merge := some n }
      else
        let key? ← if textual then (·.map .str) <$> textOf fuel key else valueOf fuel key
        match key? with
        | none => fillLoop fuel textual rest f
        | some k =>
            if f.fixed.any fun ks => ks.any (sameKey k) then fillLoop fuel textual rest f
            else
              let f := { f with fixed := f.fixed.map (k :: ·) }
              if isComposite k then throw ("invalid map key: " ++ spelled k)
              match ← valueOf fuel n with
              | some y => fillLoop fuel textual rest { f with entries := f.entries.put k y }
              | none => fillLoop fuel textual rest f

/-- Entries with those of a merged value behind them, as far as they are new. -/
def mergeInto : Nat → Bool → List (Node × Node) → Node → Entries → Valuation Entries
  | 0, _, _, _, entries => return entries
  | fuel + 1, textual, nodes, m, entries => do
      let outermost := (← get).fixed.isNone
      if outermost then
        let own ← valuesOf fuel (nodes.map (·.1))
        modify fun r => { r with fixed := some own }
      let entries ← match m with
        | .sequence _ _ items => mergeAll fuel textual items entries
        | _ => mergeAll fuel textual [m] entries
      if outermost then modify fun r => { r with fixed := none }
      return entries

def mergeAll : Nat → Bool → List Node → Entries → Valuation Entries
  | 0, _, _, entries | _, _, [], entries => return entries
  | fuel + 1, textual, n :: rest, entries => do
      if !d.isMapping n then throw mergeRefusal
      mergeAll fuel textual rest (← mergeOne fuel textual n entries)

/-- Entries with those of a mapping behind them, unless it is complained about. -/
def mergeOne : Nat → Bool → Node → Entries → Valuation Entries
  | 0, _, _, entries => return entries
  | fuel + 1, textual, n, entries => do
      Valuation.count
      match n with
      | .alias _ name self target =>
          Valuation.through self name (mergeOne fuel textual (d.node target) entries)
      | .mapping _ _ nodes =>
          if ← hasDistinctKeys nodes then fill fuel textual nodes entries
            else return entries
      | _ => return entries

end

def rootOf (fuel : Nat) : Valuation Entries := do
  let target : Text := "map[string]interface \x7b\x7d"
  Valuation.count
  match d.root with
  | .mapping _ _ nodes =>
      if ← hasDistinctKeys nodes then fill d fuel true nodes [] else return []
  | .scalar line tag text =>
      match ← liftM (scalarValue tag text) with
      | .null => return []
      | _ => Valuation.mismatch line tag text target; return []
  | .sequence line tag _ => Valuation.mismatch line tag [] target; return []
  | .alias .. => return []

end

/-- The entries of the mapping that a text holds. -/
def read (t : Text) : Except ReadFault (List (Text × Yaml)) := do
  match ← (Document.ofText? t).mapError .malformed with
  | none => return []
  | some d =>
      let rounds := Nat.pow (8 * t.length + 64) 2
      let (entries, r) ← ((rootOf d rounds).run ⟨[], 1, 0, [], none⟩).mapError .senseless
      if r.complaints.isEmpty then return entries.named
        else throw (.complaints r.complaints)

end Deriver.Yaml
