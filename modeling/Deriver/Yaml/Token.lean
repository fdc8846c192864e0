import Deriver.Yaml.Source

/-!
# Tokens of a YAML text

Indentation is structure, so the tokens hold the starts and ends of block
collections, which no character of the text spells. A key needs no mark of its
own either: whether a scalar was one is only known when the colon behind it
comes. Until then the place where a key might begin is *pending*, and the colon
inserts the key token there.

This module holds the tokens, the state between two of them, and the steps that
every reader of a token takes: looking ahead, passing over characters, and
keeping account of keys and indentation. The readers themselves are in
`Deriver.Yaml.Scalar` and `Deriver.Yaml.Scan`.
-/

namespace Deriver.Yaml

/-- What a token is. -/
inductive TokenKind where
  | streamStart
  | streamEnd
  | version (major minor : Nat)
  | tagRule (handle target : Text)
  | documentStart
  | documentEnd
  | blockSequenceStart
  | blockMappingStart
  | blockEnd
  | flowSequenceStart
  | flowSequenceEnd
  | flowMappingStart
  | flowMappingEnd
  | blockEntry
  | flowEntry
  | key
  | value
  | alias (name : Text)
  | anchor (name : Text)
  | tag (handle suffix : Text)
  | scalar (plain : Bool) (text : Text)
  deriving DecidableEq, Repr, Inhabited

/-- A token and where it begins. -/
structure Token where
  kind : TokenKind
  start : Mark
  deriving DecidableEq, Repr, Inhabited

/-- A place where a key may begin: the number of the token there, and whether
nothing but a key can stand at that column. -/
structure PendingKey where
  possible : Bool
  required : Bool
  number : Nat
  mark : Mark
  deriving Repr, Inhabited

/-- The state between two tokens. -/
structure Scanner where
  source : Source
  mark : Mark
  /-- How many lines ended since the last character that was no blank. -/
  newlines : Nat
  /-- The tokens that were read and not taken yet. -/
  queue : List Token
  /-- How many tokens were taken. -/
  taken : Nat
  /-- Whether the first token of the queue may be taken. -/
  ready : Bool
  started : Bool
  /-- How many flow collections are open. -/
  flow : Nat
  indent : Int
  indents : List Int
  /-- The pending key of the block context and of each open flow collection. -/
  keys : Array PendingKey
  /-- Which pending key belongs to the token of a number. -/
  keyOf : List (Nat × Nat)
  keyAllowed : Bool
  /-- A fault that was only seen while looking for a comment. -/
  noted : Option Fault
  /-- A bound for all loops: more than the text has characters. -/
  size : Nat

/-- A step of the reader of tokens. -/
abbrev Scan := StateT Scanner (Except Fault)

def Scanner.ofText (t : Text) : Scanner where
  source := .ofText t
  mark := ⟨0, 0, 0⟩
  newlines := 0
  queue := []
  taken := 0
  ready := false
  started := false
  flow := 0
  indent := -1
  indents := []
  keys := #[⟨false, false, 0, ⟨0, 0, 0⟩⟩]
  keyOf := []
  keyAllowed := true
  noted := none
  size := t.length + 16

namespace Scan

/-- A fault of the token that began at `start` and cannot go on here. -/
def fail {α : Type} (start : Mark) (reason : Text) : Scan α := do
  throw ⟨.token, start.line, (← get).mark.line, reason⟩

/-! ## Characters -/

/-- Makes sure that `n` characters are ahead. -/
def need (n : Nat) : Scan Unit := do
  let s ← get
  let (source, reason) := s.source.fill n
  match reason with
  | none => set { s with source := source }
  | some reason => throw ⟨.source, 0, 0, reason⟩

/-- Whether `n` characters are ahead; a fault is only noted. -/
def tryNeed (n : Nat) : Scan Bool := do
  let s ← get
  let (source, reason) := s.source.fill n
  match reason with
  | none => set { s with source := source }; return true
  | some reason =>
      set { s with source := source, noted := some ⟨.source, 0, 0, reason⟩ }
      return false

/-- The character `n` places ahead. -/
def peek (n : Nat) : Scan Char := return (← get).source.peek n

/-- Passes over a character on this line and answers it. -/
def next : Scan Char := do
  let s ← get
  let c := s.source.peek 0
  set { s with
    source := s.source.drop 1
    mark := ⟨s.mark.line, s.mark.column + 1, s.mark.index + 1⟩
    newlines := if isGap c then s.newlines else 0 }
  return c

def skip : Scan Unit := do
  let _ ← next

/-- Passes over `n` characters on this line. -/
def skips : Nat → Scan Unit
  | 0 => return
  | n + 1 => do skip; skips n

/-- Passes over the end of this line, if it is here, and answers how it reads. -/
def newline : Scan (List Char) := do
  let s ← get
  let c := s.source.peek 0
  let move (n : Nat) : Scan Unit := set { s with
    source := s.source.drop n
    mark := ⟨s.mark.line + 1, 0, s.mark.index + n⟩
    newlines := s.newlines + 1 }
  if c == '\r' && s.source.peek 1 == '\n' then move 2; return ['\n']
  else if c.toNat == 0x2028 || c.toNat == 0x2029 then move 1; return [c]
  else if isBreak c then move 1; return ['\n']
  else return []

/-- Takes characters as long as they fulfil `p`. The next one is ahead before
and after. -/
def takeWhileLoop (p : Char → Bool) : Nat → List Char → Scan (List Char)
  | 0, cs => return cs.reverse
  | fuel + 1, cs => do
      if p (← peek 0) then
        let c ← next
        need 1
        takeWhileLoop p fuel (c :: cs)
      else return cs.reverse

/-- Takes characters as long as they fulfil `p`. -/
def takeWhile (p : Char → Bool) : Scan (List Char) := do
  need 1
  takeWhileLoop p (← get).size []

def skipGaps : Scan Unit := do
  let _ ← takeWhile isGap

/-- Whether a line of three `x` begins here, followed by a blank or nothing. Four
characters are ahead. -/
def seesMark (x : Char) : Scan Bool := do
  let s ← get
  return s.mark.column = 0 && s.source.peek 0 == x && s.source.peek 1 == x &&
    s.source.peek 2 == x && endsWord (s.source.peek 3)

def seesDocumentMark : Scan Bool := do
  return (← seesMark '-') || (← seesMark '.')

/-! ## The queue -/

def inFlow : Scan Bool := return 0 < (← get).flow

def nextNumber : Scan Nat := do
  let s ← get
  return s.taken + s.queue.length

def push (kind : TokenKind) (start : Mark) : Scan Unit :=
  modify fun s => { s with queue := s.queue ++ [⟨kind, start⟩] }

/-- Adds a token before the token of a number; at the end if that was taken. -/
def insert (number : Nat) (kind : TokenKind) (start : Mark) : Scan Unit := do
  let s ← get
  if number < s.taken then push kind start
  else
    let (front, back) := s.queue.splitAt (number - s.taken)
    let t : Token := ⟨kind, start⟩
    set { s with queue := front ++ t :: back }

/-- Adds a token for the next `n` characters. -/
def take (kind : TokenKind) (n : Nat) : Scan Unit := do
  let start := (← get).mark
  skips n
  push kind start

def allowKey (allowed : Bool) : Scan Unit :=
  modify fun s => { s with keyAllowed := allowed }

/-! ## Pending keys -/

def pendingAt (level : Nat) : Scan PendingKey := return (← get).keys.getD level default

def setPending (level : Nat) (k : PendingKey) : Scan Unit :=
  modify fun s => { s with keys := s.keys.setIfInBounds level k }

def forget (number : Nat) : Scan Unit :=
  modify fun s => { s with keyOf := s.keyOf.eraseP (·.1 == number) }

/-- The fault of a key that was required and that no colon follows. -/
def missingColon {α : Type} (k : PendingKey) : Scan α :=
  fail k.mark "could not find expected ':'"

/-- Drops the pending key of the innermost collection, which must not have been
required. -/
def dropKey : Scan Unit := do
  let level := (← get).flow
  let k ← pendingAt level
  if k.possible then
    if k.required then missingColon k
    setPending level { k with possible := false }
    forget k.number

/-- A key may begin here, if one may at all. It is required if a block mapping
has its keys at this column. -/
def saveKey : Scan Unit := do
  let s ← get
  if s.keyAllowed then
    let required := s.flow = 0 && s.indent == (s.mark.column : Int)
    let number ← nextNumber
    dropKey
    setPending s.flow ⟨true, required, number, s.mark⟩
    modify fun s => { s with keyOf := (number, s.flow) :: s.keyOf }

/-- Whether a colon here still completes the pending key of a level: a key stays
on its line and is no longer than 1024 characters. -/
def keyIsValid (level : Nat) : Scan Bool := do
  let k ← pendingAt level
  if !k.possible then return false
  let mark := (← get).mark
  if k.mark.line < mark.line || k.mark.index + 1024 < mark.index then
    if k.required then missingColon k
    setPending level { k with possible := false }
    return false
  return true

/-! ## Nesting -/

def maxDepth : Nat := 10000

def tooDeep {α : Type} (mark : Mark) : Scan α :=
  fail mark (Text.concat ["exceeded max depth of ", .ofNat maxDepth])

/-- Opens a block collection at a column that is deeper than the current one,
with its token before the token of a number, or at the end. -/
def roll (column : Nat) (number : Option Nat) (kind : TokenKind) (mark : Mark) :
    Scan Unit := do
  let s ← get
  if s.flow = 0 && s.indent < (column : Int) then
    set { s with indents := s.indent :: s.indents, indent := column }
    if maxDepth < s.indents.length + 1 then tooDeep (← pendingAt s.flow).mark
    match number with
    | some n => insert n kind mark
    | none => push kind mark

/-- Closes the block collections that are deeper than a column. -/
def unrollLoop (column : Int) (mark : Mark) : Nat → Scan Unit
  | 0 => return
  | fuel + 1 => do
      let s ← get
      if column < s.indent then
        push .blockEnd mark
        modify fun s => { s with
          indent := s.indents.headD (-1), indents := s.indents.drop 1 }
        unrollLoop column mark fuel

/-- Closes the block collections that are deeper than a column. Inside a flow
collection indentation means nothing. -/
def unroll (column : Int) (mark : Mark) : Scan Unit := do
  let s ← get
  if s.flow = 0 then unrollLoop column mark (s.indents.length + 1)

def openFlow (kind : TokenKind) : Scan Unit := do
  saveKey
  let number ← nextNumber
  let mark := (← get).mark
  modify fun s => { s with
    keys := s.keys.push ⟨false, false, number, mark⟩, flow := s.flow + 1 }
  if maxDepth < (← get).flow then tooDeep mark
  allowKey true
  take kind 1

def closeFlow (kind : TokenKind) : Scan Unit := do
  dropKey
  let s ← get
  if 0 < s.flow then
    forget (← pendingAt s.flow).number
    modify fun s => { s with keys := s.keys.pop, flow := s.flow - 1 }
  allowKey false
  take kind 1

end Scan

end Deriver.Yaml
