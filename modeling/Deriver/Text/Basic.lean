/-!
# Texts are byte sequences

A source file need not be UTF-8, and every position the tool reports counts
bytes, so a text here is a list of bytes and stays one from the file that is
read to the file that is written. String literals become texts by their UTF-8
encoding; a text becomes characters only where a rule speaks of characters
(`Deriver.Text.Utf8`).

The operations below are the ones every later module leans on: searching,
splitting, joining and replacing. All of them recurse on the text itself.
-/

namespace Deriver

/-- A text: a sequence of bytes, in most places UTF-8 but never required to be. -/
abbrev Text := List UInt8

namespace Text

def ofString (s : String) : Text := s.toByteArray.data.toList

instance : Coe String Text := ⟨ofString⟩

instance : HAppend String Text Text := ⟨fun s t => ofString s ++ t⟩

instance : HAppend Text String Text := ⟨fun t s => t ++ ofString s⟩

def ofByte (b : UInt8) : Text := [b]

def ofNat (n : Nat) : Text := ofString (toString n)

/-- An integer in decimal, with a leading minus sign if it is negative. -/
def ofInt (n : Int) : Text := ofString (toString n)

/-- All the pieces, one after the other. -/
def concat (pieces : List Text) : Text := pieces.flatten

/-- `t` if the condition holds, else nothing. -/
def when (c : Bool) (t : Text) : Text := if c then t else []

/-- The pieces with `sep` between neighbours. -/
def join (sep : Text) : List Text → Text
  | [] => []
  | [piece] => piece
  | piece :: next :: rest => piece ++ sep ++ join sep (next :: rest)

def lines (pieces : List Text) : Text := (pieces.map (· ++ [10])).flatten

/-- `t` written `n` times. -/
def times (t : Text) (n : Nat) : Text := (List.replicate n t).flatten

/-- `n` spaces. -/
def spaces (n : Nat) : Text := List.replicate n 32

/-- Whether `t` begins with `start`. -/
def startsWith (t start : Text) : Bool := start.isPrefixOf t

/-- Whether `t` ends with `tail`. -/
def endsWith (t tail : Text) : Bool := tail.isSuffixOf t

/-- `t` without `start`, if it begins so. -/
def dropStart? (t start : Text) : Option Text :=
  if t.startsWith start then some (t.drop start.length) else none

/-- `t` without `start` if it begins so, else `t` itself. -/
def dropStart (t start : Text) : Text := (t.dropStart? start).getD t

/-- `t` without `tail`, if it ends so. -/
def dropTail? (t tail : Text) : Option Text :=
  if t.endsWith tail then some (t.take (t.length - tail.length)) else none

/-- `t` without `tail` if it ends so, else `t` itself. -/
def dropTail (t tail : Text) : Text := (t.dropTail? tail).getD t

/-- The offset of the first occurrence of `needle`. -/
def find? : Text → Text → Option Nat
  | [], needle => if needle.isEmpty then some 0 else none
  | b :: rest, needle =>
      if needle.isPrefixOf (b :: rest) then some 0
      else (find? rest needle).map (· + 1)

/-- The offset of the last occurrence of `needle`. -/
def findLast? : Text → Text → Option Nat
  | [], needle => if needle.isEmpty then some 0 else none
  | b :: rest, needle =>
      match findLast? rest needle with
      | some n => some (n + 1)
      | none => if needle.isPrefixOf (b :: rest) then some 0 else none

/-- Whether `needle` occurs in `t`. -/
def has (t needle : Text) : Bool := (t.find? needle).isSome

/-- What stands before and after the first occurrence of `sep`. -/
def cut? (t sep : Text) : Option (Text × Text) :=
  (t.find? sep).map fun n => (t.take n, t.drop (n + sep.length))

/-- The loop of `splitOn`: `skip` bytes of a separator are still to be passed
over, and `piece` is the current piece in reverse. -/
def splitLoop (sep : Text) : Nat → Text → Text → List Text
  | _, piece, [] => [piece.reverse]
  | skip + 1, piece, _ :: rest => splitLoop sep skip piece rest
  | 0, piece, b :: rest =>
      if sep.isPrefixOf (b :: rest) then piece.reverse ::
        splitLoop sep (sep.length - 1) [] rest
      else splitLoop sep 0 (b :: piece) rest

/-- The pieces between the occurrences of `sep`, which must not be empty. The
pieces joined by `sep` are the text again, so there is always at least one. -/
def splitOn (t sep : Text) : List Text := splitLoop sep 0 [] t

/-- `t` with every occurrence of `old`, which must not be empty, replaced. -/
def replace (t old new : Text) : Text := join new (t.splitOn old)

/-- `t` padded on the right with spaces to `width` bytes. -/
def padEnd (t : Text) (width : Nat) : Text := t ++ spaces (width - t.length)

/-- `t` padded on the left with spaces to `width` bytes. -/
def padStart (t : Text) (width : Nat) : Text := spaces (width - t.length) ++ t

def le : Text → Text → Bool
  | [], _ => true
  | _ :: _, [] => false
  | a :: s, b :: t => a < b || (a == b && le s t)

/-- The texts in byte-wise order; equal texts keep their order. -/
def sort (ts : List Text) : List Text := ts.mergeSort le

def distinct (ts : List Text) : List Text :=
  ts.foldl (fun seen t => if seen.contains t then seen else seen ++ [t]) []

def isDigitByte (b : UInt8) : Bool := 48 ≤ b && b ≤ 57

def isUpperByte (b : UInt8) : Bool := 65 ≤ b && b ≤ 90

def isLowerByte (b : UInt8) : Bool := 97 ≤ b && b ≤ 122

def hexDigit? (b : UInt8) : Option Nat :=
  if isDigitByte b then some (b.toNat - 48)
  else if 97 ≤ b && b ≤ 102 then some (b.toNat - 87)
  else if 65 ≤ b && b ≤ 70 then some (b.toNat - 55)
  else none

/-- The number a sequence of digits in `radix` denotes; `none` if a byte is no
such digit. The empty sequence denotes zero. -/
def digits? (radix : Nat) : Nat → Text → Option Nat
  | n, [] => some n
  | n, b :: rest =>
      match hexDigit? b with
      | some d => if d < radix then digits? radix (n * radix + d) rest else none
      | none => none

/-- The number a non-empty sequence of digits in `radix` denotes. -/
def toNat? (t : Text) (radix : Nat) : Option Nat :=
  if t.isEmpty then none else digits? radix 0 t

def hexByte (n : Nat) : UInt8 := if n < 10 then (48 + n).toUInt8 else (87 + n).toUInt8

/-- The last `width` hexadecimal digits of a number, in lower case. -/
def hex : Nat → Nat → Text
  | 0, _ => []
  | width + 1, n => hex width (n / 16) ++ [hexByte (n % 16)]

end Text

end Deriver
