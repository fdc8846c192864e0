import Deriver.Text.Utf8

/-!
# The characters of a YAML text

A text is UTF-8 unless it begins with the byte order mark of UTF-16. It is
decoded piece by piece, as the reader of tokens comes to need characters, so a
byte that is wrong far behind is not noticed before a fault that stands in front
of it. A piece that is decoded is decoded whole, though, and the first wrong byte
in it ends the reading.

The end of a text reads as NUL, which no text can hold, and reads so for ever.
-/

namespace Deriver.Yaml

/-! ## Places and faults -/

/-- A position in a text, all counts from zero. -/
structure Mark where
  line : Nat
  column : Nat
  index : Nat
  deriving DecidableEq, Repr, Inhabited

/-- What notices a fault: the reader of characters, of tokens or of nodes. -/
inductive Layer where
  | source
  | token
  | node
  deriving DecidableEq, Repr, Inhabited

/-- Why a text is no YAML document. A fault remembers two lines, where the
construct began and where it went wrong. -/
structure Fault where
  layer : Layer
  context : Nat
  problem : Nat
  reason : Text
  deriving DecidableEq, Repr, Inhabited

/-- The line a fault is reported at, if it is reported with one: the first of its
two lines that is not the first line of the text. A fault of a token counts the
lines from one. -/
def Fault.line? (f : Fault) : Option Nat :=
  let base := if f.context = 0 then f.problem else f.context
  if base = 0 then none
  else some (if f.layer = .token then base + 1 else base)

def Fault.message (f : Fault) : Text :=
  match f.line? with
  | some n => Text.concat ["yaml: line ", .ofNat n, ": ", f.reason]
  | none => "yaml: " ++ f.reason

/-! ## Classes of characters -/

def endMark : Char := Char.ofNat 0

def isAllowed (c : Char) : Bool :=
  let n := c.toNat
  n = 9 || n = 10 || n = 13 || (0x20 ≤ n && n ≤ 0x7E) || n = 0x85 ||
    (0xA0 ≤ n && n ≤ 0xFFFD) || 0x10000 ≤ n

def isBreak (c : Char) : Bool :=
  c == '\n' || c == '\r' || c.toNat == 0x85 || c.toNat == 0x2028 || c.toNat == 0x2029

def isPlainBreak (c : Char) : Bool := c == '\n' || c == '\r'

def isGap (c : Char) : Bool := c == ' ' || c == '\t'

def endsLine (c : Char) : Bool := c == endMark || isBreak c

def endsWord (c : Char) : Bool := isGap c || endsLine c

def isNameChar (c : Char) : Bool := c.isAlphanum || c == '_' || c == '-'

/-! ## Encodings -/

/-- How the characters of a text are encoded. -/
inductive Encoding where
  | utf8
  | utf16 (bigEndian : Bool)
  deriving DecidableEq, Repr

/-- What stands at the front of some bytes. -/
inductive Glyph where
  /-- A character, and how many bytes it takes. -/
  | char (c : Char) (width : Nat)
  /-- The beginning of a character; if nothing follows, it is a fault. -/
  | cut (reason : Text)
  | wrong (reason : Text)

/-- How many bytes a character of UTF-8 takes that begins with this byte. -/
def width? (b : UInt8) : Option Nat :=
  if b < 0x80 then some 1
  else if b < 0xC0 then none
  else if b < 0xE0 then some 2
  else if b < 0xF0 then some 3
  else if b < 0xF8 then some 4
  else none

def leastOfWidth : Nat → Nat
  | 2 => 0x80
  | 3 => 0x800
  | 4 => 0x10000
  | _ => 0

/-- The character of UTF-8 that `b` begins and `rest` continues. -/
def glyph8 (b : UInt8) (rest : Text) : Glyph :=
  match width? b with
  | none => .wrong "invalid leading UTF-8 octet"
  | some width =>
      let tail := rest.take (width - 1)
      if tail.length + 1 < width then .cut "incomplete UTF-8 octet sequence"
      else if tail.any (!Text.isTail ·) then .wrong "invalid trailing UTF-8 octet"
      else
        let lead := if width = 1 then b.toNat else b.toNat % Nat.pow 2 (7 - width)
        let n := tail.foldl (fun n x => n * 64 + Text.payload x) lead
        if n < leastOfWidth width then .wrong "invalid length of a UTF-8 sequence"
        else if n.isValidChar then .char (Char.ofNat n) width
        else .wrong "invalid Unicode character"

/-- The character of UTF-16 at the front of some bytes. -/
def glyph16 (bigEndian : Bool) (t : Text) : Glyph :=
  let word (a b : UInt8) : Nat :=
    if bigEndian then a.toNat * 256 + b.toNat else b.toNat * 256 + a.toNat
  match t with
  | a :: b :: rest =>
      let n := word a b
      if n / 0x400 = 0x37 then .wrong "unexpected low surrogate area"
      else if n / 0x400 = 0x36 then
        match rest with
        | c :: d :: _ =>
            let low := word c d
            if low / 0x400 = 0x37 then
              .char (Char.ofNat (0x10000 + n % 0x400 * 0x400 + low % 0x400)) 4
            else .wrong "expected low surrogate area"
        | _ => .cut "incomplete UTF-16 surrogate pair"
      else .char (Char.ofNat n) 2
  | _ => .cut "incomplete UTF-16 character"

/-- What stands at the front of the bytes `b :: rest`. -/
def Encoding.glyph (e : Encoding) (b : UInt8) (rest : Text) : Glyph :=
  match e with
  | .utf8 => glyph8 b rest
  | .utf16 bigEndian => glyph16 bigEndian (b :: rest)

/-- The characters of some bytes, the bytes from the first that was not decoded
on, and what is wrong with that one. A character that is not complete is only
wrong if the text has `ended`. `skip` bytes of a character are still to be passed
over. -/
def Encoding.decode (e : Encoding) (ended : Bool) :
    Nat → Text → List Char × Text × Option Text
  | _, [] => ([], [], none)
  | skip + 1, _ :: rest => e.decode ended skip rest
  | 0, b :: rest =>
      match e.glyph b rest with
      | .char c width =>
          if isAllowed c then
            let (cs, left, reason) := e.decode ended (width - 1) rest
            (c :: cs, left, reason)
          else ([], b :: rest, some "control characters are not allowed")
      | .cut reason => ([], b :: rest, if ended then some reason else none)
      | .wrong reason => ([], b :: rest, some reason)

/-! ## Reading on demand -/

/-- A text that is being read. -/
structure Source where
  encoding : Encoding
  /-- The characters that were decoded and not taken yet. -/
  ahead : List Char
  /-- How many those are. -/
  unread : Nat
  /-- The character that was the next one when characters were last decoded. -/
  front : Char
  /-- The bytes of the current piece that are not decoded. -/
  undecoded : Text
  /-- The bytes behind the current piece. -/
  later : Text
  /-- Whether the end of the text was seen. -/
  ended : Bool

namespace Source

def pieceSize : Nat := 512

/-- The start of a text. An empty text is an empty line. -/
def ofText (t : Text) : Source :=
  let t := if t.isEmpty then [10] else t
  let piece := t.take pieceSize
  let (encoding, body) : Encoding × Text := match piece with
    | 0xFF :: 0xFE :: rest => (.utf16 false, rest)
    | 0xFE :: 0xFF :: rest => (.utf16 true, rest)
    | 0xEF :: 0xBB :: 0xBF :: rest => (.utf8, rest)
    | _ => (.utf8, piece)
  ⟨encoding, [], 0, endMark, body, t.drop pieceSize, t.length < 3⟩

/-- Loads the next piece, behind the bytes that are not decoded yet. -/
def load (s : Source) : Source :=
  if s.later.isEmpty then { s with ended := true }
  else
    let room := pieceSize - s.undecoded.length
    { s with undecoded := s.undecoded ++ s.later.take room, later := s.later.drop room }

/-- Decodes the current piece as far as it goes, and says what is wrong with it. -/
def decode (s : Source) : Source × Option Text :=
  let (cs, left, reason) := s.encoding.decode s.ended 0 s.undecoded
  ({ s with ahead := s.ahead ++ cs, unread := s.unread + cs.length, undecoded := left },
    reason)

/-- Decodes until `n` characters are ahead, or the end of the text is the last of
them. Before the first round a piece is only loaded if none is left. -/
def fillLoop (n : Nat) : Nat → Source → Source × Option Text
  | 0, s => (s, none)
  | fuel + 1, s =>
      match s.decode with
      | (s, some reason) => (s, some reason)
      | (s, none) =>
          if n ≤ s.unread then (s, none)
          else if s.ended then
            ({ s with ahead := s.ahead ++ [endMark], unread := s.unread + 1 }, none)
          else fillLoop n fuel s.load

/-- Makes sure that `n` characters are ahead, or says why that cannot be. -/
def fill (n : Nat) (s : Source) : Source × Option Text :=
  if n ≤ s.unread then (s, none)
  else
    let (s, reason) := fillLoop n (s.later.length + 3) s
    ({ s with front := s.ahead.headD s.front }, reason)

/-- The character `n` places ahead. -/
def peek (s : Source) (n : Nat) : Char := s.ahead.getD n endMark

/-- The text behind its next `n` characters. -/
def drop (n : Nat) (s : Source) : Source :=
  { s with ahead := s.ahead.drop n, unread := s.unread - n }

end Source

end Deriver.Yaml
