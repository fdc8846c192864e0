import Deriver.Yaml.Token

/-!
# Scalars of a YAML text

A scalar may run over several lines. Between two words of it stands a *gap*:
blanks that count as written if they stay on one line, and else a line break
that is folded, one break into a space and more of them into all but the first.
Plain and quoted scalars share that rule; block scalars have their own, which
looks at the indentation of each line.

The text of a scalar is collected in reverse.
-/

namespace Deriver.Yaml

/-! ## Gaps -/

/-- What stands between two words: blanks before the first line break, that
break, and the breaks behind it. -/
structure Gap where
  spaces : List Char
  first : List Char
  further : List Char
  broken : Bool
  deriving Inhabited

namespace Gap

def none : Gap := ⟨[], [], [], false⟩

/-- The gap after a line break that was escaped and stands for nothing. -/
def escaped : Gap := ⟨[], [], [], true⟩

def text (g : Gap) : List Char :=
  if g.broken then
    if g.first == ['\n'] then if g.further.isEmpty then [' '] else g.further
    else g.first ++ g.further
  else g.spaces

/-- The gap with a blank more; blanks behind a line break do not count. -/
def addSpace (g : Gap) (c : Char) : Gap :=
  if g.broken then g else { g with spaces := g.spaces ++ [c] }

def addBreak (g : Gap) (b : List Char) : Gap :=
  if g.broken then { g with further := g.further ++ b }
  else ⟨[], b, [], true⟩

end Gap

namespace Scan

/-- The rest of a gap. Inside a plain scalar that began at `start`, a tab behind a
line break must not stand left of column `indent`. -/
def gap (start : Mark) (indent : Int) : Nat → Gap → Scan Gap
  | 0, g => return g
  | fuel + 1, g => do
      let c ← peek 0
      if isGap c then
        if g.broken && ((← get).mark.column : Int) < indent && c == '\t' then
          fail start "found a tab character that violates indentation"
        skip
        need 1
        gap start indent fuel (g.addSpace c)
      else if isBreak c then
        need 2
        let b ← newline
        need 1
        gap start indent fuel (g.addBreak b)
      else return g

/-! ## Plain scalars -/

def endsPlain : Scan Bool := do
  let s ← get
  let c := s.source.peek 0
  return endsWord c || (c == ':' && endsWord (s.source.peek 1)) ||
    (0 < s.flow && [',', '?', '[', ']', '\x7b', '\x7d'].contains c)

/-- A plain word behind `text`, the last characters first. -/
def plainWord : Nat → List Char → Scan (List Char)
  | 0, text => return text
  | fuel + 1, text => do
      if ← endsPlain then return text
      let c ← next
      need 2
      plainWord fuel (c :: text)

/-- The words of a plain scalar from here on, behind `text` and a gap, and whether
it ended behind a line break. -/
def plainWords (start : Mark) (indent : Int) :
    Nat → List Char → Gap → Scan (List Char × Bool)
  | 0, text, g => return (text, g.broken)
  | fuel + 1, text, g => do
      need 4
      if ← seesDocumentMark then return (text, g.broken)
      if (← peek 0) == '#' then return (text, g.broken)
      let size := (← get).size
      let (text, g) ←
        if ← endsPlain then pure (text, g)
        else pure (← plainWord size (g.text.reverse ++ text), Gap.none)
      let c ← peek 0
      if !(isGap c || isBreak c) then return (text, g.broken)
      let g ← gap start indent size g
      let s ← get
      if s.flow = 0 && (s.mark.column : Int) < indent then return (text, g.broken)
      plainWords start indent fuel text g

/-- Reads a plain scalar. A key may follow it on the next line. -/
def plainScalar : Scan Unit := do
  saveKey
  allowKey false
  let s ← get
  let (text, broken) ← plainWords s.mark (s.indent + 1) s.size [] .none
  if broken then allowKey true
  push (.scalar true (.ofChars text.reverse)) s.mark

/-! ## Quoted scalars -/

/-- What an escape of one letter stands for. -/
def escape? (c : Char) : Option Char :=
  match c with
  | '0' => some (Char.ofNat 0)
  | 'a' => some (Char.ofNat 7)
  | 'b' => some (Char.ofNat 8)
  | 't' | '\t' => some '\t'
  | 'n' => some '\n'
  | 'v' => some (Char.ofNat 11)
  | 'f' => some (Char.ofNat 12)
  | 'r' => some '\r'
  | 'e' => some (Char.ofNat 27)
  | ' ' | '"' | '\x27' | '\\' => some c
  | 'N' => some (Char.ofNat 0x85)
  | '_' => some (Char.ofNat 0xA0)
  | 'L' => some (Char.ofNat 0x2028)
  | 'P' => some (Char.ofNat 0x2029)
  | _ => none

/-- How many digits follow the letter of an escape by code point. -/
def escapeDigits? (c : Char) : Option Nat :=
  match c with
  | 'x' => some 2
  | 'u' => some 4
  | 'U' => some 8
  | _ => none

def hexValue? (c : Char) : Option Nat :=
  if c.toNat < 128 then Text.hexDigit? c.toNat.toUInt8 else none

/-- The number that the next `count` characters are in base sixteen. -/
def hexNumber? : Nat → Nat → Nat → Scan (Option Nat)
  | 0, _, n => return some n
  | count + 1, place, n => do
      match hexValue? (← peek place) with
      | some d => hexNumber? count (place + 1) (n * 16 + d)
      | none => return none

/-- The character of the escape here, which begins with its backslash. -/
def escaped (start : Mark) : Scan Char := do
  let letter ← peek 1
  match escape? letter, escapeDigits? letter with
  | some c, _ => skips 2; return c
  | none, none => fail start "found unknown escape character"
  | none, some count =>
      skips 2
      need count
      match ← hexNumber? count 0 0 with
      | none => fail start "did not find expected hexdecimal number"
      | some n =>
          if (0xD800 ≤ n && n ≤ 0xDFFF) || n > 0x10FFFF then
            fail start "found invalid Unicode character escape code"
          skips count
          return Char.ofNat n

/-- A word of a quoted scalar behind `text`, and the gap it opens if it ended with
an escaped line break. -/
def quotedWord (single : Bool) (start : Mark) : Nat → List Char → Scan (List Char × Gap)
  | 0, text => return (text, .none)
  | fuel + 1, text => do
      let c ← peek 0
      if endsWord c then return (text, .none)
      let follower ← peek 1
      let text ←
        if single && c == '\x27' then
          if follower == '\x27' then skips 2; pure ('\x27' :: text)
            else return (text, .none)
        else if !single && c == '"' then return (text, .none)
        else if !single && c == '\\' then
          if isBreak follower then
            need 3
            skip
            let _ ← newline
            return (text, .escaped)
          else pure ((← escaped start) :: text)
        else skip; pure (c :: text)
      need 2
      quotedWord single start fuel text

/-- The words of a quoted scalar from here to its closing quote. -/
def quotedWords (single : Bool) (start : Mark) : Nat → List Char → Scan (List Char)
  | 0, _ => fail start "found unexpected end of stream"
  | fuel + 1, text => do
      need 4
      if ← seesDocumentMark then fail start "found unexpected document indicator"
      if (← peek 0) == endMark then fail start "found unexpected end of stream"
      let size := (← get).size
      let (text, g) ← quotedWord single start size text
      need 1
      if (← peek 0) == (if single then '\x27' else '"') then return text
      let g ← gap start 0 size g
      quotedWords single start fuel (g.text.reverse ++ text)

def quotedScalar (single : Bool) : Scan Unit := do
  saveKey
  allowKey false
  let s ← get
  skip
  let text ← quotedWords single s.mark s.size []
  skip
  push (.scalar false (.ofChars text.reverse)) s.mark

/-! ## Block scalars -/

/-- What happens to the line breaks at the end of a block scalar. -/
inductive Chomp where
  | strip
  | clip
  | keep
  deriving DecidableEq, Repr

/-- How the end of a block scalar is chomped, if that is said here. -/
def chomp? : Scan (Option Chomp) := do
  let c ← peek 0
  if c == '+' then skip; return some .keep
  else if c == '-' then skip; return some .strip
  else return none

/-- How far a block scalar is indented, if that is said here. -/
def indentation? (start : Mark) : Scan (Option Nat) := do
  let c ← peek 0
  if c == '0' then fail start "found an indentation indicator equal to 0"
  else if c.isDigit then skip; return some (c.toNat - 48)
  else return none

/-- The header of a block scalar behind its first mark: how its end is chomped,
and how far it is indented. -/
def blockHeader (start : Mark) : Scan (Chomp × Option Nat) := do
  need 1
  match ← chomp? with
  | some chomp =>
      need 1
      return (chomp, ← indentation? start)
  | none =>
      match ← indentation? start with
      | some n =>
          need 1
          return ((← chomp?).getD .clip, some n)
      | none => return (.clip, none)

/-- Passes over the spaces of an indentation, which is not known if it is zero. -/
def skipIndent (indent : Nat) : Nat → Scan Unit
  | 0 => return
  | fuel + 1 => do
      let s ← get
      if (indent = 0 || s.mark.column < indent) && s.source.peek 0 == ' ' then
        skip
        need 1
        skipIndent indent fuel

/-- The empty lines here and the indentation of the next line: the line breaks
read and the widest indentation seen. -/
def blockBreaks (start : Mark) (indent : Nat) :
    Nat → Nat → List Char → Scan (List Char × Nat)
  | 0, widest, breaks => return (breaks, widest)
  | fuel + 1, widest, breaks => do
      need 1
      skipIndent indent (← get).size
      let column := (← get).mark.column
      let widest := max widest column
      let c ← peek 0
      if (indent = 0 || column < indent) && c == '\t' then
        fail start "found a tab character where an indentation space is expected"
      if isBreak c then
        need 2
        let b ← newline
        blockBreaks start indent fuel widest (breaks ++ b)
      else return (breaks, widest)

/-- The lines of a block scalar: its text, the line break behind the last line,
and the empty lines behind that. -/
def blockLines (literal : Bool) (start : Mark) (indent : Nat) :
    Nat → List Char → List Char → List Char → Bool →
    Scan (List Char × List Char × List Char)
  | 0, text, lead, trail, _ => return (text, lead, trail)
  | fuel + 1, text, lead, trail, blankBefore => do
      let c ← peek 0
      if (← get).mark.column = indent && c != endMark then
        let blank := isGap c
        let joint :=
          if !literal && !blankBefore && !blank && lead == ['\n'] then
            if trail.isEmpty then [' '] else []
          else lead
        let line ← takeWhile (!endsLine ·)
        need 2
        let lead ← newline
        let size := (← get).size
        let (trail', _) ← blockBreaks start indent size 0 []
        let text := line.reverse ++ trail.reverse ++ joint.reverse ++ text
        blockLines literal start indent fuel text lead trail' blank
      else return (text, lead, trail)

/-- Reads a block scalar. A key may follow it. -/
def blockScalar (literal : Bool) : Scan Unit := do
  dropKey
  allowKey true
  let s ← get
  let start := s.mark
  skip
  let (chomp, more) ← blockHeader start
  skipGaps
  if (← peek 0) == '#' then
    let _ ← takeWhile (!endsLine ·)
  if !endsLine (← peek 0) then fail start "did not find expected comment or line break"
  if isBreak (← peek 0) then
    need 2
    let _ ← newline
  let known := match more with
    | some n => (max s.indent 0).toNat + n
    | none => 0
  let (trail, widest) ← blockBreaks start known s.size 0 []
  let indent := if known = 0 then max widest (max (s.indent + 1) 1).toNat else known
  need 1
  let (text, lead, trail) ← blockLines literal start indent s.size [] [] trail false
  let ending := match chomp with
    | .strip => []
    | .clip => lead
    | .keep => lead ++ trail
  push (.scalar false (.ofChars (text.reverse ++ ending))) start

end Scan

end Deriver.Yaml
