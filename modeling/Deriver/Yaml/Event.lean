import Deriver.Yaml.Scan

/-!
# Events of a YAML document

The grammar of YAML turns tokens into *events*: a scalar, an alias, the start or
the end of a collection. What the grammar still has to find is a stack of
expectations, so documents may nest as deep as the tokens allow. Only the first
document of a text is read.
-/

namespace Deriver.Yaml

/-- What stands before a node: where it begins, its anchor and its tag. Either
text is empty if there is none. -/
structure Properties where
  start : Mark
  anchor : Text
  tag : Text
  deriving Inhabited

/-- A piece of a document. -/
inductive Event where
  | alias (start : Mark) (name : Text)
  | scalar (props : Properties) (plain : Bool) (text : Text)
  | sequenceStart (props : Properties)
  | sequenceEnd
  | mappingStart (props : Properties)
  | mappingEnd
  deriving Inhabited

/-- What the grammar has to find next. -/
inductive Expectation where
  | stream
  | document
  | root
  | content
  | documentEnd
  /-- An item of a block sequence, or its end. -/
  | blockItem (first : Bool)
  /-- An item of a sequence that is not deeper than the key before it. -/
  | looseItem
  | blockKey (first : Bool)
  | blockValue
  | flowItem (first : Bool)
  /-- The key of a mapping that is a single item of a flow sequence. -/
  | pairKey
  | pairValue
  | pairEnd
  | flowKey (first : Bool)
  | flowValue
  /-- The value of a key in a flow mapping that has none. -/
  | flowNothing
  deriving Repr

/-- The state of the grammar: what is expected, the innermost first; where the
open collections began; and what the handles of tags stand for. -/
structure Grammar where
  expected : List Expectation
  starts : List Mark
  handles : List (Text × Text)

/-- A rule of the grammar. -/
abbrev Rule := StateT Grammar Scan

namespace Rule

def peek : Rule Token := Scan.token

def skip : Rule Unit := Scan.takeToken

/-- A fault of the construct that began on a line, at the token `t`. -/
def fail {α : Type} (context : Nat) (t : Token) (reason : Text) : Rule α :=
  throw ⟨.node, context, t.start.line, reason⟩

/-- Something is expected next, before everything else. -/
def expect (e : Expectation) : Rule Unit :=
  modify fun g => { g with expected := e :: g.expected }

def nothing (start : Mark) : Event := .scalar ⟨start, [], []⟩ true []

/-- Takes the token that opens a collection, if the collection is only beginning. -/
def enter (first : Bool) : Rule Unit := do
  if first then
    let t ← peek
    modify fun g => { g with starts := t.start :: g.starts }
    skip

def leave : Rule Unit := do
  modify fun g => { g with starts := g.starts.drop 1 }
  skip

def misplaced {α : Type} (t : Token) (reason : Text) : Rule α := do
  fail ((← get).starts.headD default).line t reason

/-! ## Directives -/

/-- What handles of tags stand for unless a document says otherwise. -/
def usualHandles : List (Text × Text) := [("!", "!"), ("!!", "tag:yaml.org,2002:")]

def directives : Nat → Bool → Rule Unit
  | 0, _ => return
  | fuel + 1, versioned => do
      let t ← peek
      match t.kind with
      | .version major minor =>
          if versioned then fail 0 t "found duplicate %YAML directive"
          if major != 1 || minor != 1 then fail 0 t "found incompatible YAML document"
          skip
          directives fuel true
      | .tagRule handle target =>
          if ((← get).handles.lookup handle).isSome
            then fail 0 t "found duplicate %TAG directive"
          modify fun g => { g with handles := g.handles ++ [(handle, target)] }
          skip
          directives fuel versioned
      | _ => modify fun g => { g with handles := g.handles ++ usualHandles }

/-- The start of the first document, if there is one. -/
def document : Rule Unit := do
  let t ← peek
  let size := (← getThe Scanner).size
  match t.kind with
  | .streamEnd => skip
  | .version _ _ | .tagRule _ _ | .documentStart =>
      directives size false
      let t ← peek
      if t.kind != .documentStart then fail 0 t "did not find expected <document start>"
      expect .documentEnd
      expect .content
      skip
  | _ =>
      directives size false
      expect .documentEnd
      expect .root

/-! ## Nodes -/

/-- The tag that a handle and a suffix stand for. -/
def tagOf (start : Mark) (t : Token) (handle suffix : Text) : Rule Text := do
  if handle.isEmpty then return suffix
  match (← get).handles.lookup handle with
  | some target =>
      if target.isEmpty && suffix.isEmpty
        then fail start.line t "found undefined tag handle"
      return target ++ suffix
  | none => fail start.line t "found undefined tag handle"

/-- The anchor and the tag before a node, in either order. -/
def properties : Rule Properties := do
  let first ← peek
  let start := first.start
  match first.kind with
  | .anchor name =>
      skip
      let t ← peek
      match t.kind with
      | .tag handle suffix =>
          skip
          let _ ← peek
          return ⟨start, name, ← tagOf start t handle suffix⟩
      | _ => return ⟨start, name, []⟩
  | .tag handle suffix =>
      skip
      let t ← peek
      match t.kind with
      | .anchor name =>
          skip
          let _ ← peek
          return ⟨start, name, ← tagOf start first handle suffix⟩
      | _ => return ⟨start, [], ← tagOf start first handle suffix⟩
  | _ => return ⟨start, [], []⟩

/-- The first event of a node. Block collections are allowed if `block`; and a
sequence that is not deeper than the key before it, if `loose`. Properties with no
node behind them belong to nothing at all. -/
def node (block loose : Bool) : Rule Event := do
  let first ← peek
  if let .alias name := first.kind then
    skip
    return .alias first.start name
  let props ← properties
  let t ← peek
  match t.kind, block, loose with
  | .blockEntry, _, true => expect .looseItem; return .sequenceStart props
  | .scalar plain text, _, _ => skip; return .scalar props plain text
  | .flowSequenceStart, _, _ => expect (.flowItem true); return .sequenceStart props
  | .flowMappingStart, _, _ => expect (.flowKey true); return .mappingStart props
  | .blockSequenceStart, true, _ => expect (.blockItem true); return .sequenceStart props
  | .blockMappingStart, true, _ => expect (.blockKey true); return .mappingStart props
  | _, _, _ =>
      if props.anchor.isEmpty && props.tag.isEmpty then
        fail props.start.line t "did not find expected node content"
      return .scalar props true []

/-! ## Block collections -/

/-- An item of a block sequence, or its end. -/
def blockItem (first : Bool) : Rule Event := do
  enter first
  let t ← peek
  match t.kind with
  | .blockEntry =>
      skip
      expect (.blockItem false)
      match (← peek).kind with
      | .blockEntry | .blockEnd => return nothing t.start
      | _ => node true false
  | .blockEnd => leave; return .sequenceEnd
  | _ => misplaced t "did not find expected '-' indicator"

/-- An item of a sequence that is not deeper than the key before it, or its end. -/
def looseItem : Rule Event := do
  let t ← peek
  match t.kind with
  | .blockEntry =>
      skip
      expect .looseItem
      match (← peek).kind with
      | .blockEntry | .key | .value | .blockEnd => return nothing t.start
      | _ => node true false
  | _ => return .sequenceEnd

/-- A node of a block mapping, or nothing if another part of the mapping follows. -/
def blockPart (start : Mark) : Rule Event := do
  match (← peek).kind with
  | .key | .value | .blockEnd => return nothing start
  | _ => node true true

/-- A key of a block mapping, or the end of the mapping. -/
def blockKey (first : Bool) : Rule Event := do
  enter first
  let t ← peek
  match t.kind with
  | .key => skip; expect .blockValue; blockPart t.start
  | .blockEnd => leave; return .mappingEnd
  | _ => misplaced t "did not find expected key"

def blockValue : Rule Event := do
  expect (.blockKey false)
  let t ← peek
  match t.kind with
  | .value => skip; blockPart t.start
  | _ => return nothing t.start

/-! ## Flow collections -/

/-- Takes the comma before an item that is not the first, or fails for a reason. -/
def comma (first : Bool) (reason : Text) : Rule Token := do
  let t ← peek
  if first then return t
  if t.kind != .flowEntry then misplaced t reason
  skip
  peek

/-- An item of a flow sequence, or its end. -/
def flowItem (first : Bool) : Rule Event := do
  enter first
  if (← peek).kind == .flowSequenceEnd then leave; return .sequenceEnd
  let t ← comma first "did not find expected ',' or ']'"
  match t.kind with
  | .flowSequenceEnd => leave; return .sequenceEnd
  | .key =>
      expect (.flowItem false)
      expect .pairKey
      skip
      return .mappingStart ⟨t.start, [], []⟩
  | _ => expect (.flowItem false); node false false

/-- The key of a mapping that is a single item. -/
def pairKey : Rule Event := do
  expect .pairValue
  let t ← peek
  match t.kind with
  | .value | .flowEntry | .flowSequenceEnd => skip; return nothing t.start
  | _ => node false false

/-- The value of a mapping that is a single item. -/
def pairValue : Rule Event := do
  expect .pairEnd
  let t ← peek
  match t.kind with
  | .value =>
      skip
      match (← peek).kind with
      | .flowEntry | .flowSequenceEnd => return nothing t.start
      | _ => node false false
  | _ => return nothing t.start

def pairEnd : Rule Event := do
  let _ ← peek
  return .mappingEnd

/-- A key of a flow mapping, or the end of the mapping. -/
def flowKey (first : Bool) : Rule Event := do
  enter first
  if (← peek).kind == .flowMappingEnd then leave; return .mappingEnd
  let t ← comma first "did not find expected ',' or '\x7d'"
  match t.kind with
  | .flowMappingEnd => leave; return .mappingEnd
  | .key =>
      skip
      expect .flowValue
      let t ← peek
      match t.kind with
      | .value | .flowEntry | .flowMappingEnd => return nothing t.start
      | _ => node false false
  | _ => expect .flowNothing; node false false

def flowValue : Rule Event := do
  expect (.flowKey false)
  let t ← peek
  match t.kind with
  | .value =>
      skip
      let t ← peek
      match t.kind with
      | .flowEntry | .flowMappingEnd => return nothing t.start
      | _ => node false false
  | _ => return nothing t.start

def flowNothing : Rule Event := do
  expect (.flowKey false)
  return nothing (← peek).start

/-! ## All events -/

/-- What an expectation finds: an event, if it is a part of the root. -/
def find : Expectation → Rule (Option Event)
  | .stream => do let _ ← peek; skip; return none
  | .document => do document; return none
  | .root => some <$> node true false
  | .content => do
      let t ← peek
      match t.kind with
      | .version _ _ | .tagRule _ _ | .documentStart | .documentEnd | .streamEnd =>
          return some (nothing t.start)
      | _ => some <$> node true false
  | .documentEnd => do
      if (← peek).kind == .documentEnd then skip
      return none
  | .blockItem first => some <$> blockItem first
  | .looseItem => some <$> looseItem
  | .blockKey first => some <$> blockKey first
  | .blockValue => some <$> blockValue
  | .flowItem first => some <$> flowItem first
  | .pairKey => some <$> pairKey
  | .pairValue => some <$> pairValue
  | .pairEnd => some <$> pairEnd
  | .flowKey first => some <$> flowKey first
  | .flowValue => some <$> flowValue
  | .flowNothing => some <$> flowNothing

end Rule

/-- The events of a document, and the fault that ended them. -/
structure EventStream where
  events : List Event
  fault : Option Fault

/-- The events from a state on, behind those that were found. -/
def eventsLoop : Nat → Grammar → Scanner → List Event → EventStream
  | 0, _, _, found => ⟨found.reverse, none⟩
  | fuel + 1, g, s, found =>
      match g.expected with
      | [] => ⟨found.reverse, none⟩
      | e :: rest =>
          let step : Rule (Option Event) := do
            let event? ← Rule.find e
            Scan.settle
            return event?
          match (step.run { g with expected := rest }).run s with
          | .error f => ⟨found.reverse, some f⟩
          | .ok ((event?, g), s) => eventsLoop fuel g s (event?.toList ++ found)

def events (t : Text) : EventStream :=
  eventsLoop (8 * t.length + 64) ⟨[.stream, .document], [], []⟩ (.ofText t) []

end Deriver.Yaml
