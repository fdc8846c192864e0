import Deriver.Json.Basic
import Deriver.Text.Quoted
import Deriver.Text.Utf8

/-!
# Reading JSON

A text is read as one value with nothing but gaps around it. It is refused at the
first byte with which no value can go on, and the fault names that byte and what it
stands in. A text that ends too early is refused at its end; in the middle of a
number, a word or an escape that reads as if a gap stood there.

Values may nest ten thousand deep. The fuel of the readers is twice the length of the
text: each reader takes at least one byte for every two calls, so it never runs out.
-/

namespace Deriver.Json

/-! ## Faults -/

/-- What a byte was refused in. -/
inductive Spot where
  | value
  | name
  | afterName
  | afterField
  | afterItem
  | afterAll
  | string
  | escape
  | hexEscape
  | number
  | fraction
  | exponent
  /-- A word whose next byte had to be another. -/
  | word (all : Text) (wanted : UInt8)
  /-- A value that lies too deep. -/
  | depth

/-- How messages name what a byte was refused in. -/
def Spot.display : Spot → Text
  | .value => "looking for beginning of value"
  | .name => "looking for beginning of object key string"
  | .afterName => "after object key"
  | .afterField => "after object key:value pair"
  | .afterItem => "after array element"
  | .afterAll => "after top-level value"
  | .string => "in string literal"
  | .escape => "in string escape code"
  | .hexEscape => "in \\u hexadecimal character escape"
  | .number => "in numeric literal"
  | .fraction => "after decimal point in numeric literal"
  | .exponent => "in exponent of numeric literal"
  | .word all wanted => Text.concat ["in literal ", all, " (expecting '", [wanted], "')"]
  | .depth => "exceeded max depth"

/-- Why a text is no JSON value. -/
inductive Fault where
  | unexpected (b : UInt8) (spot : Spot)
  | ended

def Fault.message : Fault → Text
  | .unexpected b spot => Text.concat ["invalid character ", Text.quotedByte b,
  " ", spot.display]
  | .ended => "unexpected end of JSON input"

/-- A reader takes something from the front of a text and leaves the rest. -/
abbrev Reader (α : Type) := Text → Except Fault (α × Text)

/-- The fault of a text that cannot go on in the middle of a token. -/
def refusal (spot : Spot) : Text → Fault
  | b :: _ => .unexpected b spot
  | [] => .unexpected 32 spot

/-! ## Gaps -/

def isGap (b : UInt8) : Bool := b == 32 || b == 9 || b == 10 || b == 13

def skipGaps (t : Text) : Text := t.dropWhile isGap

/-! ## Strings -/

/-- One unit of a string: a byte as it stands, or a UTF-16 unit that was escaped. -/
abbrev StringUnit := UInt8 ⊕ Nat

/-- The byte that a letter stands for behind a backslash. -/
def escaped? (b : UInt8) : Option UInt8 :=
  match Char.ofNat b.toNat with
  | '"' => some 34
  | '\\' => some 92
  | '/' => some 47
  | 'b' => some 8
  | 'f' => some 12
  | 'n' => some 10
  | 'r' => some 13
  | 't' => some 9
  | _ => none

def isHexByte (b : UInt8) : Bool := (Text.hexDigit? b).isSome

/-- The units of a string from behind its opening quote, in reverse before those that
were read, and what follows the closing quote. -/
def readUnits (units : List StringUnit) : Reader (List StringUnit)
  | [] => .error .ended
  | 34 :: rest => .ok (units.reverse, rest)
  | 92 :: 117 :: a :: b :: c :: d :: rest =>
      match Text.toNat? [a, b, c, d] 16 with
      | some n => readUnits (.inr n :: units) rest
      | none =>
          .error (refusal .hexEscape (a :: b :: c :: d :: rest |>.dropWhile isHexByte))
  | 92 :: 117 :: rest => .error (refusal .hexEscape (rest.dropWhile isHexByte))
  | 92 :: e :: rest =>
      match escaped? e with
      | some b => readUnits (.inl b :: units) rest
      | none => .error (.unexpected e .escape)
  | [92] => .error (refusal .escape [])
  | b :: rest =>
      if b < 32 then .error (.unexpected b .string) else readUnits (.inl b :: units) rest

/-- The text of the units: two surrogates that belong together are one
character, and one alone is replaced. -/
def assemble : List StringUnit → Text
  | [] => []
  | .inl b :: rest => b :: assemble rest
  | .inr hi :: .inr lo :: rest =>
      if Text.isHighSurrogate hi && Text.isLowSurrogate lo then
        Text.ofCodePoint (Text.surrogatePair hi lo) ++ assemble rest
      else Text.ofCodePoint hi ++ assemble (.inr lo :: rest)
  | .inr n :: rest => Text.ofCodePoint n ++ assemble rest

/-- The string from behind its opening quote, and what follows it. A byte that
belongs to no character is replaced. -/
def readString : Reader Text := fun t => do
  let (units, rest) ← readUnits [] t
  return ((assemble units).repaired, rest)

/-! ## Numbers and words -/

/-- The digits at the front of a text, of which there has to be one. -/
def readDigits (spot : Spot) : Reader Text := fun t =>
  match t.span Text.isDigitByte with
  | ([], rest) => .error (refusal spot rest)
  | found => .ok found

/-- The whole part of a number. A zero at its front is all of it. -/
def readWhole : Reader Text := fun t =>
  match t with
  | 48 :: rest => .ok ([48], rest)
  | _ => readDigits .number t

/-- The fraction of a number with its point, if it has one. -/
def readFraction : Reader Text := fun t =>
  match t with
  | 46 :: rest => do
      let (digits, rest) ← readDigits .fraction rest
      return (46 :: digits, rest)
  | _ => .ok ([], t)

/-- The exponent of a number with its mark and sign, if it has one. -/
def readExponent : Reader Text := fun t =>
  match t with
  | b :: rest =>
      if b == 101 || b == 69 then do
        let (sign, rest) : Text × Text := match rest with
          | 43 :: rest => ([43], rest)
          | 45 :: rest => ([45], rest)
          | _ => ([], rest)
        let (digits, rest) ← readDigits .exponent rest
        return (b :: sign ++ digits, rest)
      else .ok ([], t)
  | [] => .ok ([], t)

/-- The number at the front of a text. It is an integer if it has neither a fraction nor
an exponent; a negative zero is none. -/
def readNumber : Reader Json := fun t => do
  let (sign, rest) : Text × Text := match t with
    | 45 :: rest => ([45], rest)
    | _ => ([], t)
  let (whole, rest) ← readWhole rest
  let (fraction, rest) ← readFraction rest
  let (exponent, rest) ← readExponent rest
  let n := (Text.toNat? whole 10).getD 0
  let json := if !(fraction ++ exponent).isEmpty || (!sign.isEmpty && n = 0) then
      .real (sign ++ whole ++ fraction ++ exponent)
    else if sign.isEmpty then .int n else .int (-(n : Int))
  return (json, rest)

/-- What follows a word, of which these bytes are still to come. -/
def readWord (word : Text) : Text → Text → Except Fault Text
  | [], t => .ok t
  | wanted :: more, t =>
      match t with
      | b :: rest =>
          if b == wanted then readWord word more rest
          else .error (.unexpected b (.word word wanted))
      | [] => .error (refusal (.word word wanted) [])

/-! ## Values -/

def maxDepth : Nat := 10000

mutual

/-- The value at the front of a text, in which values may still nest so deep. -/
def readValue : Nat → Nat → Reader Json
  | 0, _, _ => .error .ended
  | fuel + 1, depth, t =>
      match skipGaps t with
      | [] => .error .ended
      | b :: rest =>
          match Char.ofNat b.toNat with
          | '"' => do
              let (s, rest) ← readString rest
              return (.str s, rest)
          | '[' =>
              if depth = 0 then .error (.unexpected b .depth)
              else
                match skipGaps rest with
                | 93 :: rest => .ok (.arr [], rest)
                | rest => do
                    let (items, rest) ← readItems fuel (depth - 1) [] rest
                    return (.arr items, rest)
          | '\x7b' =>
              if depth = 0 then .error (.unexpected b .depth)
              else
                match skipGaps rest with
                | 125 :: rest => .ok (.obj [], rest)
                | rest => do
                    let (fields, rest) ← readFields fuel (depth - 1) [] rest
                    return (.obj fields, rest)
          | 'n' => do return (.null, ← readWord "null" "ull" rest)
          | 't' => do return (.bool true, ← readWord "true" "rue" rest)
          | 'f' => do return (.bool false, ← readWord "false" "alse" rest)
          | _ =>
              if b == 45 || Text.isDigitByte b then readNumber (b :: rest)
              else .error (.unexpected b .value)

/-- The items of an array that has at least one more, up to its end, behind those that
were read, which are in reverse. -/
def readItems : Nat → Nat → List Json → Reader (List Json)
  | 0, _, _, _ => .error .ended
  | fuel + 1, depth, items, t => do
      let (j, rest) ← readValue fuel depth t
      match skipGaps rest with
      | 44 :: rest => readItems fuel depth (j :: items) rest
      | 93 :: rest => return ((j :: items).reverse, rest)
      | b :: _ => .error (.unexpected b .afterItem)
      | [] => .error .ended

/-- The fields of an object that has at least one more, up to its end, behind those that
were read, which are in reverse. -/
def readFields : Nat → Nat → List (Text × Json) → Reader (List (Text × Json))
  | 0, _, _, _ => .error .ended
  | fuel + 1, depth, fields, t =>
      match skipGaps t with
      | 34 :: rest => do
          let (name, rest) ← readString rest
          match skipGaps rest with
          | 58 :: rest => do
              let (j, rest) ← readValue fuel depth rest
              match skipGaps rest with
              | 44 :: rest => readFields fuel depth ((name, j) :: fields) rest
              | 125 :: rest => return (((name, j) :: fields).reverse, rest)
              | b :: _ => .error (.unexpected b .afterField)
              | [] => .error .ended
          | b :: _ => .error (.unexpected b .afterName)
          | [] => .error .ended
      | b :: _ => .error (.unexpected b .name)
      | [] => .error .ended

end

def read (t : Text) : Except Fault Json := do
  let (j, rest) ← readValue (2 * t.length + 2) maxDepth t
  match skipGaps rest with
  | [] => return j
  | b :: _ => throw (.unexpected b .afterAll)

/-- The one value a text holds, if it holds one. -/
def parse? (t : Text) : Option Json := (read t).toOption

end Deriver.Json
