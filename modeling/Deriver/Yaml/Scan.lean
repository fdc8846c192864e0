import Deriver.Yaml.Scalar

/-!
# Reading the tokens of a YAML text

A token is read when the reader of nodes asks for one. It then finds at least
three tokens in the queue, and none of them stands where a key is still pending;
so the scanner runs a little ahead of the grammar, and of two faults in a text
the one that is met first is reported.

Comments mean nothing, but they are looked for behind every token. A fault of the
characters that is met there does not end the reading at once: it is noted, and
`settle` reports it when the current piece of the grammar is complete.
-/

namespace Deriver.Yaml.Scan

/-! ## Comments -/

def commentReach : Nat := 512

/-- Passes over everything up to the end of the line on which the character of
index `seen` stands. -/
def skipToLineEnd (seen : Nat) : Nat → Scan Unit
  | 0 => return
  | fuel + 1 => do
      need 1
      let s ← get
      if endsLine (s.source.peek 0) then
        if s.mark.index < seen then
          need 2
          let _ ← newline
          skipToLineEnd seen fuel
      else
        skip
        skipToLineEnd seen fuel

/-- Passes over a comment that stands behind a token on its line. -/
def lineComment : Nat → Nat → Scan Unit
  | 0, _ => return
  | fuel + 1, place => do
      if ← tryNeed (place + 1) then
        let s ← get
        let c := s.source.peek place
        if isGap c then lineComment fuel (place + 1)
        else if c == '#' then skipToLineEnd (s.mark.index + place) s.size

/-- Passes over a comment that stands behind the last token, if that ended on this
line. -/
def trailingComment : Scan Unit := do
  if (← get).newlines = 0 then lineComment commentReach 0

/-- Passes over the comments from here on, and over the empty lines between them,
up to the end of the last comment. -/
def comments : Nat → Nat → Scan Unit
  | 0, _ => return
  | fuel + 1, place => do
      if commentReach ≤ place then return
      if ← tryNeed (place + 1) then
        let s ← get
        let c := s.source.peek place
        if isGap c || isPlainBreak c then comments fuel (place + 1)
        else if c == '#' then
          skipToLineEnd (s.mark.index + place) s.size
          if isPlainBreak (← peek 0) then comments fuel 1
          else let _ ← tryNeed 2
        else if isBreak c then
          let _ ← tryNeed (place + 2)

/-- Passes over the spaces before a token. A tab may stand there if no key can
begin. -/
def skipSpaces : Nat → Scan Unit
  | 0 => return
  | fuel + 1 => do
      let s ← get
      let c := s.source.peek 0
      if c == ' ' || (c == '\t' && (0 < s.flow || !s.keyAllowed)) then
        skip
        need 1
        skipSpaces fuel

/-- Passes over everything between two tokens. As long as the characters in hand
begin with a byte order mark, the first character of every line is passed over
too. -/
def skipToToken : Nat → Scan Unit
  | 0 => return
  | fuel + 1 => do
      need 1
      let s ← get
      if s.mark.column = 0 && s.source.front.toNat = 0xFEFF then skip
      need 1
      skipSpaces s.size
      if (← peek 0) == '#' then comments (s.size + commentReach) 0
      if isBreak (← peek 0) then
        need 2
        let _ ← newline
        if (← get).flow = 0 then allowKey true
        skipToToken fuel

/-! ## Directives -/

/-- The name of a directive that began at `start`. -/
def directiveName (start : Mark) : Scan (List Char) := do
  let name ← takeWhile isNameChar
  if name.isEmpty then fail start "could not find expected directive name"
  if !endsWord (← peek 0) then fail start "found unexpected non-alphabetical character"
  return name

/-- The digits of a part of a version; there may be two of them. -/
def versionDigits (start : Mark) : Nat → Nat → Scan Nat
  | 0, n => do
      if (← peek 0).isDigit then fail start "found extremely long version number"
      return n
  | room + 1, n => do
      let c ← peek 0
      if c.isDigit then
        skip
        need 1
        versionDigits start room (n * 10 + (c.toNat - 48))
      else return n

def versionPart (start : Mark) : Scan Nat := do
  need 1
  if !(← peek 0).isDigit then fail start "did not find expected version number"
  versionDigits start 2 0

/-- The version that a text says it follows. -/
def version (start : Mark) : Scan TokenKind := do
  skipGaps
  let major ← versionPart start
  if (← peek 0) != '.' then fail start "did not find expected digit or '.' character"
  skip
  let minor ← versionPart start
  return .version major minor

/-! ## Tags -/

/-- Whether a character can stand in a tag; a percent sign begins an escape. -/
def isTagChar (c : Char) : Bool :=
  isNameChar c || [';', '/', '?', ':', '@', '&', '=', '+', '$', ',', '.', '!',
    '~', '*', '\x27', '(', ')', '[', ']', '%'].contains c

def escapedByte (start : Mark) : Scan UInt8 := do
  need 3
  let s ← get
  match hexValue? (s.source.peek 1), hexValue? (s.source.peek 2) with
  | some high, some low =>
      if s.source.peek 0 != '%' then fail start "did not find URI escaped octet"
      return (high * 16 + low).toUInt8
  | _, _ => fail start "did not find URI escaped octet"

/-- The further bytes of an escaped character. -/
def escapedTail (start : Mark) : Nat → Scan Text
  | 0 => return []
  | count + 1 => do
      let b ← escapedByte start
      if !Text.isTail b then fail start "found an incorrect trailing UTF-8 octet"
      skips 3
      return b :: (← escapedTail start count)

/-- A character of a tag that is escaped byte by byte. -/
def escapedChar (start : Mark) : Scan Text := do
  let b ← escapedByte start
  match width? b with
  | none => fail start "found an incorrect leading UTF-8 octet"
  | some width =>
      skips 3
      return b :: (← escapedTail start (width - 1))

/-- The characters of a tag, behind those that were read. -/
def tagChars (start : Mark) : Nat → Text → Scan Text
  | 0, text => return text
  | fuel + 1, text => do
      let c ← peek 0
      if isTagChar c then
        let piece ← if c == '%' then escapedChar start else do skip; pure (Text.ofChar c)
        need 1
        tagChars start fuel (text ++ piece)
      else return text

/-- The name in a tag. It may be empty only behind a `head`. -/
def tagName (start : Mark) (head : Text) : Scan Text := do
  need 1
  let empty := !isTagChar (← peek 0)
  if empty && head.isEmpty then fail start "did not find expected tag URI"
  tagChars start (← get).size (head.drop 1)

/-- The handle of a tag: an exclamation mark, or a name between two of them. What
else it is may only be the beginning of a tag, and not of a directive. -/
def tagHandle (start : Mark) (directive : Bool) : Scan Text := do
  need 1
  if (← peek 0) != '!' then fail start "did not find expected '!'"
  skip
  let name ← takeWhile isNameChar
  let handle := "!" ++ Text.ofChars name
  if (← peek 0) == '!' then
    skip
    return handle ++ "!"
  if directive && !name.isEmpty then fail start "did not find expected '!'"
  return handle

def tagRule (start : Mark) : Scan TokenKind := do
  skipGaps
  let handle ← tagHandle start true
  need 1
  if !isGap (← peek 0) then fail start "did not find expected whitespace"
  skipGaps
  let target ← tagName start []
  need 1
  if !endsWord (← peek 0) then fail start "did not find expected whitespace or line break"
  return .tagRule handle target

/-- The two parts of a tag. The one that is an exclamation mark alone has no
handle. -/
def tagParts (start : Mark) : Scan (Text × Text) := do
  need 2
  if (← peek 1) == '<' then
    skips 2
    let name ← tagName start []
    if (← peek 0) != '>' then fail start "did not find the expected '>'"
    skip
    return ([], name)
  let handle ← tagHandle start false
  if 1 < handle.length && handle.endsWith "!" then return (handle, ← tagName start [])
  let suffix ← tagName start handle
  return if suffix.isEmpty then ([], handle) else ("!", suffix)

/-! ## Tokens -/

/-- Reads a directive, up to the end of its line. -/
def directive : Scan Unit := do
  let start := (← get).mark
  unroll (-1) start
  dropKey
  allowKey false
  skip
  let name := Text.ofChars (← directiveName start)
  let kind ←
    if name == ("YAML" : Text) then version start
    else if name == ("TAG" : Text) then tagRule start
    else fail start "found unknown directive name"
  skipGaps
  if (← peek 0) == '#' then
    let _ ← takeWhile (!endsLine ·)
  if !endsLine (← peek 0) then fail start "did not find expected comment or line break"
  if isBreak (← peek 0) then
    need 2
    let _ ← newline
  push kind start

/-- Reads a mark between documents, which closes everything. -/
def documentMark (kind : TokenKind) : Scan Unit := do
  unroll (-1) (← get).mark
  dropKey
  allowKey false
  take kind 3

/-- Reads the end of the text, on a line of its own. -/
def finish : Scan Unit := do
  modify fun s =>
    if s.mark.column = 0 then s else { s with mark := ⟨s.mark.line + 1, 0, s.mark.index⟩ }
  let mark := (← get).mark
  unroll (-1) mark
  dropKey
  allowKey false
  push .streamEnd mark

def flowEntry : Scan Unit := do
  dropKey
  allowKey true
  take .flowEntry 1

/-- Opens a block collection here, or keeps the current one. -/
def rollHere (kind : TokenKind) (refusal : Text) : Scan Unit := do
  let s ← get
  if s.flow = 0 then
    if !s.keyAllowed then fail s.mark refusal
    roll s.mark.column none kind s.mark

def blockEntry : Scan Unit := do
  rollHere .blockSequenceStart "block sequence entries are not allowed in this context"
  dropKey
  allowKey true
  take .blockEntry 1

def keyMark : Scan Unit := do
  rollHere .blockMappingStart "mapping keys are not allowed in this context"
  dropKey
  allowKey !(← inFlow)
  take .key 1

/-- Reads the colon of a value. If a key is pending, its tokens are inserted now. -/
def valueMark : Scan Unit := do
  let level := (← get).flow
  if ← keyIsValid level then
    let k ← pendingAt level
    insert k.number .key k.mark
    roll k.mark.column (some k.number) .blockMappingStart k.mark
    setPending level { k with possible := false }
    forget k.number
    allowKey false
  else
    rollHere .blockMappingStart "mapping values are not allowed in this context"
    allowKey !(← inFlow)
  take .value 1

def anchor (kind : Text → TokenKind) : Scan Unit := do
  saveKey
  allowKey false
  let start := (← get).mark
  skip
  let name ← takeWhile isNameChar
  let c ← peek 0
  if name.isEmpty || !(endsWord c ||
    ['?', ':', ',', ']', '\x7d', '%', '@', '\x60'].contains c) then
    fail start "did not find expected alphabetic or numeric character"
  push (kind (.ofChars name)) start

/-- Reads a tag, which a blank has to follow. -/
def tag : Scan Unit := do
  saveKey
  allowKey false
  let start := (← get).mark
  let (handle, suffix) ← tagParts start
  need 1
  if !endsWord (← peek 0) then fail start "did not find expected whitespace or line break"
  push (.tag handle suffix) start

/-- The characters that a plain scalar cannot begin with, unless something makes
up for it. -/
def indicators : List Char :=
  ['-', '?', ':', ',', '[', ']', '\x7b', '\x7d', '#', '&', '*', '!', '|', '>',
    '\x27', '"', '%', '@', '\x60']

/-- Whether a plain scalar can begin with `c` before `follower`. -/
def startsPlain (inFlow : Bool) (c follower : Char) : Bool :=
  (!endsWord c && !indicators.contains c) || (c == '-' && !isGap follower) ||
    (!inFlow && (c == '?' || c == ':') && !endsWord follower)

/-- Reads a token that is no mark of a document. -/
def content : Scan Unit := do
  let s ← get
  let inFlow := 0 < s.flow
  let c := s.source.peek 0
  let follower := s.source.peek 1
  match c with
  | '[' => openFlow .flowSequenceStart
  | '\x7b' => openFlow .flowMappingStart
  | ']' => closeFlow .flowSequenceEnd
  | '\x7d' => closeFlow .flowMappingEnd
  | ',' => flowEntry
  | '*' => anchor .alias
  | '&' => anchor .anchor
  | '!' => tag
  | '\x27' => quotedScalar true
  | '"' => quotedScalar false
  | _ =>
      if c == '-' && endsWord follower then blockEntry
      else if c == '?' && (inFlow || endsWord follower) then keyMark
      else if c == ':' && (inFlow || endsWord follower) then valueMark
      else if c == '|' && !inFlow then blockScalar true
      else if c == '>' && !inFlow then blockScalar false
      else if startsPlain inFlow c follower then plainScalar
      else fail s.mark "found character that cannot start any token"
  if c != '-' || !endsWord follower then trailingComment

def fetch : Scan Unit := do
  need 1
  let s ← get
  if !s.started then
    set { s with started := true }
    push .streamStart s.mark
  else
    skipToToken s.size
    unroll (← get).mark.column s.mark
    need 4
    let s ← get
    let c := s.source.peek 0
    if c == endMark then finish
    else if s.mark.column = 0 && c == '%' then directive
    else if ← seesMark '-' then documentMark .documentStart
    else if ← seesMark '.' then documentMark .documentEnd
    else content

/-! ## For the reader of nodes -/

/-- Reads tokens until the first of the queue may be taken. -/
def fetchLoop : Nat → Scan Unit
  | 0 => return
  | fuel + 1 => do
      let s ← get
      let enough ←
        if 2 < s.queue.length then
          match s.keyOf.lookup s.taken with
          | none => pure true
          | some level => pure !(← keyIsValid level)
        else pure false
      if !enough then
        fetch
        fetchLoop fuel

def token : Scan Token := do
  if !(← get).ready then
    fetchLoop ((← get).size + 4)
    modify fun s => { s with ready := true }
  return (← get).queue.headD default

def takeToken : Scan Unit :=
  modify fun s => { s with queue := s.queue.drop 1, taken := s.taken + 1, ready := false }

def settle : Scan Unit := do
  match (← get).noted with
  | some f => throw f
  | none => return

end Deriver.Yaml.Scan
