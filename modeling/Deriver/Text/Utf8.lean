import Deriver.Text.Basic

/-!
# Characters in a text

UTF-8 is read leniently: a byte that begins no well-formed sequence stands for
one replacement character U+FFFD and decoding goes on with the next byte, so
every text has exactly one reading and no byte is lost from the count.
-/

namespace Deriver.Text

def replacement : Char := Char.ofNat 0xFFFD

def ofChar (c : Char) : Text := String.utf8EncodeChar c

/-- The encoding of a code point; one that is no scalar value is replaced. -/
def ofCodePoint (n : Nat) : Text :=
  if n.isValidChar then ofChar (Char.ofNat n) else ofChar replacement

def ofChars (cs : List Char) : Text := cs.flatMap ofChar

def isTail (b : UInt8) : Bool := 0x80 ≤ b && b ≤ 0xBF

/-- What a leading byte of a multi-byte sequence announces: how many bytes
follow it, and the range of the first of them, which excludes overlong forms,
surrogates and values past U+10FFFF. -/
def lead? (b : UInt8) : Option (Nat × UInt8 × UInt8) :=
  if 0xC2 ≤ b && b ≤ 0xDF then some (1, 0x80, 0xBF)
  else if b = 0xE0 then some (2, 0xA0, 0xBF)
  else if b = 0xED then some (2, 0x80, 0x9F)
  else if 0xE1 ≤ b && b ≤ 0xEF then some (2, 0x80, 0xBF)
  else if b = 0xF0 then some (3, 0x90, 0xBF)
  else if 0xF1 ≤ b && b ≤ 0xF3 then some (3, 0x80, 0xBF)
  else if b = 0xF4 then some (3, 0x80, 0x8F)
  else none

def payload (b : UInt8) : Nat := b.toNat % 64

/-- The code point of the well-formed multi-byte sequence that `b` begins and
`rest` continues, with the number of bytes taken from `rest`. -/
def multi? (b : UInt8) (rest : Text) : Option (Nat × Nat) :=
  match lead? b, rest with
  | some (1, lo, hi), x :: _ =>
      if lo ≤ x && x ≤ hi then some (b.toNat % 32 * 64 + payload x, 1) else none
  | some (2, lo, hi), x :: y :: _ =>
      if lo ≤ x && x ≤ hi && isTail y then
        some ((b.toNat % 16 * 64 + payload x) * 64 + payload y, 2)
      else none
  | some (3, lo, hi), x :: y :: z :: _ =>
      if lo ≤ x && x ≤ hi && isTail y && isTail z then
        some (((b.toNat % 8 * 64 + payload x) * 64 + payload y) * 64 + payload z, 3)
      else none
  | _, _ => none

/-- The character that `b` begins, with the number of bytes it takes from `rest`.
`none` in the first place says that `b` begins no character. -/
def char? (b : UInt8) (rest : Text) : Option Char × Nat :=
  if b < 0x80 then (some (Char.ofNat b.toNat), 0)
  else
    match multi? b rest with
    | some (n, k) => (some (Char.ofNat n), k)
    | none => (none, 0)

/-- The loop of `units`: `skip` bytes of the character just read are still to be
passed over. -/
def unitsLoop : Nat → Text → List (Char ⊕ UInt8)
  | _, [] => []
  | skip + 1, _ :: rest => unitsLoop skip rest
  | 0, b :: rest =>
      match char? b rest with
      | (some c, k) => .inl c :: unitsLoop k rest
      | (none, _) => .inr b :: unitsLoop 0 rest

/-- The reading of a text as units: a character, or a byte that belongs to none. -/
def units (t : Text) : List (Char ⊕ UInt8) := unitsLoop 0 t

/-- The characters of a text, each byte that belongs to none being replaced. -/
def chars (t : Text) : List Char :=
  (units t).map fun
    | .inl c => c
    | .inr _ => replacement

def isUtf8 (t : Text) : Bool :=
  (units t).all fun
    | .inl _ => true
    | .inr _ => false

/-- The text with each byte that belongs to no character replaced. -/
def repaired (t : Text) : Text := if t.isUtf8 then t else ofChars t.chars

/-- The text as a string, each byte that belongs to no character being replaced. -/
def display (t : Text) : String := String.ofList (chars t)

def charCount (t : Text) : Nat := (units t).length

/-- The first character, with the number of bytes it takes; `none` in the first
place if the text begins with a byte that belongs to no character. -/
def first? : Text → Option (Option Char × Nat)
  | [] => none
  | b :: rest =>
      let (c, k) := char? b rest
      some (c, k + 1)

def units16 (c : Char) : Nat := if c.toNat < 0x10000 then 1 else 2

/-! ## Blanks -/

def blanks : List Char :=
  ([9, 10, 11, 12, 13, 32, 0x85, 0xA0, 0x1680, 0x2000, 0x2001, 0x2002, 0x2003,
    0x2004, 0x2005,
    0x2006, 0x2007, 0x2008, 0x2009, 0x200A, 0x2028, 0x2029, 0x202F, 0x205F, 0x3000]).map
      Char.ofNat

def isBlank (c : Char) : Bool := blanks.contains c

/-- `t` without the marks it begins with; `n` bounds the number of rounds. -/
def dropMarks (marks : List Text) : Nat → Text → Text
  | 0, t => t
  | n + 1, t =>
      match marks.find? (·.isPrefixOf t) with
      | some mark => dropMarks marks n (t.drop mark.length)
      | none => t

/-- `t` without leading white space. -/
def trimStart (t : Text) : Text := dropMarks (blanks.map ofChar) t.length t

/-- `t` without trailing white space. -/
def trimEnd (t : Text) : Text :=
  (dropMarks (blanks.map fun c => (ofChar c).reverse) t.length t.reverse).reverse

/-- `t` without white space at either end. -/
def trim (t : Text) : Text := trimEnd (trimStart t)

/-!
## Texts in UTF-16

The characters of a sequence of UTF-16 units, and of bytes that hold such units. Two
surrogates that belong together are one character; one alone is replaced, and so is half
a unit at the end.
-/

def isHighSurrogate (n : Nat) : Bool := 0xD800 ≤ n && n < 0xDC00

def isLowSurrogate (n : Nat) : Bool := 0xDC00 ≤ n && n < 0xE000

def surrogatePair (hi lo : Nat) : Nat := 0x10000 + (hi - 0xD800) * 0x400 + (lo - 0xDC00)

def ofUnits16 : List Nat → Text
  | [] => []
  | hi :: lo :: rest =>
      if isHighSurrogate hi && isLowSurrogate lo then
        ofCodePoint (surrogatePair hi lo) ++ ofUnits16 rest
      else ofCodePoint hi ++ ofUnits16 (lo :: rest)
  | [n] => ofCodePoint n

/-- The units that bytes hold, in the order that `bigEndian` says. -/
def units16Of (bigEndian : Bool) : Text → List Nat
  | a :: b :: rest =>
      (if bigEndian then a.toNat * 256 + b.toNat else b.toNat * 256 + a.toNat)
        :: units16Of bigEndian rest
  | [_] => [0xFFFD]
  | [] => []

def ofUtf16 (bigEndian : Bool) (t : Text) : Text := ofUnits16 (units16Of bigEndian t)

end Deriver.Text
