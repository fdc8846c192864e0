import Deriver.Text.Utf8
import Deriver.Text.Class.Letter
import Deriver.Token.Basic

/-!
# Scanning

One lexeme is scanned from its first byte and the bytes after it; where it
stands in the file plays no part. `Lexeme` says how many further bytes belong to
it, what token it is, if any, and what was wrong with it. The loop `scanLoop`
then walks the source byte by byte, keeping line and column, and asks for a
lexeme whenever the previous one is used up. White space and comments are
lexemes without a token.

Every loop here recurses on the bytes themselves; a piece of known length is
passed over by counting.
-/

namespace Deriver

/-- What was found from the first byte of a lexeme on. -/
structure Lexeme where
  /-- How many bytes after the first one belong to the lexeme. -/
  size : Nat
  /-- The kind and value of the token, if the lexeme is one. -/
  token : Option (TokenKind × Option Literal)
  /-- The faults, each with the number of bytes after the first one that had been
  read when it was noticed. -/
  faults : List (Fault × Nat)
  deriving Repr

namespace Lexeme

def plain (kind : TokenKind) (size : Nat) : Lexeme := ⟨size, some (kind, none), []⟩

def skipped (size : Nat) : Lexeme := ⟨size, none, []⟩

/-- A piece of source that is no token because of a fault noticed at its end. -/
def faulty (fault : Fault) (size : Nat) : Lexeme := ⟨size, none, [(fault, size)]⟩

/-- The lexeme with `n` more bytes read before it. -/
def shift (n : Nat) (l : Lexeme) : Lexeme :=
  { l with size := l.size + n, faults := l.faults.map fun (f, k) => (f, k + n) }

end Lexeme

namespace Scan

/-! ## Byte classes -/

/-- Whether a byte begins an identifier. Every byte of a multi-byte character
does, so names outside ASCII pass through whole. -/
def isAlpha (b : UInt8) : Bool :=
  Text.isLowerByte b || Text.isUpperByte b || b == 95 || 0x80 ≤ b

def isAlphaNum (b : UInt8) : Bool := isAlpha b || Text.isDigitByte b

def isDigitIn (radix : Nat) (b : UInt8) : Bool :=
  match Text.hexDigit? b with
  | some d => d < radix
  | none => false

def isSpace (b : UInt8) : Bool := b == 32 || b == 13 || b == 9 || b == 10

/-- How many bytes at the front satisfy `p`. -/
def run (p : UInt8 → Bool) (t : Text) : Nat := (t.takeWhile p).length

/-! ## Strings and characters -/

/-- What one escape sequence stands for, and how many bytes after the backslash
it takes. -/
structure Escape where
  size : Nat
  value : Text
  fault : Option Fault

/-- The escape that a backslash and the given bytes spell. -/
def escape : Text → Escape
  | [] => ⟨0, [], none⟩
  | b :: rest =>
      match Char.ofNat b.toNat with
      | 'n' => ⟨1, [10], none⟩
      | 't' => ⟨1, [9], none⟩
      | 'r' => ⟨1, [13], none⟩
      | '0' => ⟨1, [0], none⟩
      | '\\' => ⟨1, [b], none⟩
      | '"' => ⟨1, [b], none⟩
      | '\'' => ⟨1, [b], none⟩
      | 'x' =>
          let digits := rest.take 2
          match Text.toNat? digits 16 with
          | some n => ⟨digits.length + 1, [n.toUInt8], none⟩
          | none => ⟨digits.length + 1, [], some (.hexEscape digits)⟩
      | 'u' =>
          match rest with
          | 123 :: inner =>
              let digits := inner.takeWhile (· ≠ 125)
              let closing := if digits.length < inner.length then 1 else 0
              let size := digits.length + 2 + closing
              match Text.toNat? (digits.filter (· ≠ 95)) 16 with
              | some n =>
                  if n < Nat.pow 2 32 then ⟨size, Text.ofCodePoint n, none⟩
                  else ⟨size, [], some (.unicodeEscape digits)⟩
              | none => ⟨size, [], some (.unicodeEscape digits)⟩
          | _ => ⟨1, [], some .noUnicodeBrace⟩
      | '\n' => ⟨1 + run isSpace rest, [], none⟩
      | _ => ⟨1, [92, b], none⟩

/-- The part of a literal between its quotes. -/
structure Body where
  /-- How many bytes it takes. -/
  size : Nat
  /-- The bytes it stands for. -/
  value : Text
  faults : List (Fault × Nat)

/-- One more byte in front of a body, standing for `value`. -/
def Body.push (value : Text) (b : Body) : Body :=
  ⟨b.size + 1, value ++ b.value, b.faults.map fun (f, k) => (f, k + 1)⟩

/-- The body up to a byte that `stop` accepts, or to the end of the source.
`skip` bytes of an escape are still to be passed over. -/
def body (stop : UInt8 → Bool) : Nat → Text → Body
  | _, [] => ⟨0, [], []⟩
  | skip + 1, _ :: rest => (body stop skip rest).push []
  | 0, b :: rest =>
      if stop b then ⟨0, [], []⟩
      else if b = 92 then
        let e := escape rest
        let after := (body stop e.size rest).push e.value
        match e.fault with
        | some f => { after with faults := (f, e.size + 1) :: after.faults }
        | none => after
      else (body stop 0 rest).push [b]

/-- A character literal, from the bytes after its opening quote. -/
def charLiteral (rest : Text) : Lexeme :=
  let b := body (fun c => c == 39 || c == 10) 0 rest
  match rest.drop b.size with
  | 39 :: _ =>
      let c := ((b.value.first?.bind (·.1)).getD Text.replacement)
      ⟨b.size + 1, some (.char, some (.char c)), b.faults⟩
  | _ => ⟨b.size, none, b.faults ++ [(.openChar, b.size)]⟩

/-- A string literal, from the bytes after its opening quote. -/
def string (rest : Text) : Lexeme :=
  let b := body (· == 34) 0 rest
  match rest.drop b.size with
  | [] => ⟨b.size, none, b.faults ++ [(.openString, b.size)]⟩
  | _ :: _ => ⟨b.size + 1, some (.str, some (.str b.value)), b.faults⟩

/-- A raw string, from the bytes after its `r`: as many hashes as opened it must
close it, and nothing between the quotes is an escape. -/
def rawString (rest : Text) : Lexeme :=
  let hashes := run (· == 35) rest
  match rest.drop hashes with
  | 34 :: inner =>
      match Text.find? inner (34 :: List.replicate hashes 35) with
      | some n =>
          ⟨hashes + 1 + n + 1 + hashes, some (.str, some (.str (inner.take n))), []⟩
      | none => .faulty .openRawString rest.length
  | _ => .faulty .noRawQuote hashes

/-- Whether the bytes are hashes, if any, and then a quote. -/
def opensRaw (rest : Text) : Bool := (rest.dropWhile (· == 35)).head? == some 34

/-- A quote begins a character if a backslash or one character and a second
quote follow, and a lifetime if a letter does. -/
def quote (rest : Text) : Lexeme :=
  if rest.head? == some 92 then charLiteral rest
  else
    match rest.first? with
    | none => .faulty .openChar 0
    | some (c, size) =>
        if (rest.drop size).head? == some 39 then charLiteral rest
        else
          match c with
          | some ch =>
              if ch ≠ Text.replacement && (Text.isLetter ch || ch == '_') then
                .plain .lifetime (run isAlphaNum rest)
              else .faulty .openChar 0
          | none => .faulty .openChar 0

/-! ## Comments -/

/-- How many bytes a block comment takes after its first `/` and `*`, and whether
it is closed. Comments nest; `depth` more than one is open. -/
def blockComment : Nat → Text → Nat × Bool
  | _, [] => (0, false)
  | depth, 47 :: 42 :: rest =>
      let (n, closed) := blockComment (depth + 1) rest
      (n + 2, closed)
  | 0, 42 :: 47 :: _ => (2, true)
  | depth + 1, 42 :: 47 :: rest =>
      let (n, closed) := blockComment depth rest
      (n + 2, closed)
  | depth, _ :: rest =>
      let (n, closed) := blockComment depth rest
      (n + 1, closed)

def slash : Text → Lexeme
  | 47 :: rest => .skipped (1 + run (· ≠ 10) rest)
  | 42 :: rest =>
      let (n, closed) := blockComment 0 rest
      if closed then .skipped (n + 1) else .faulty .openComment (n + 1)
  | _ => .plain .slash 0

/-! ## Numbers -/

/-- The value of a decimal literal with a fraction or an exponent. -/
def decimal? (digits : Text) : Option Nat :=
  let mantissa := digits.takeWhile fun b => b ≠ 101 && b ≠ 69
  let exponent := (digits.drop mantissa.length).drop 1
  let whole := mantissa.takeWhile (· ≠ 46)
  let fraction := (mantissa.drop whole.length).drop 1
  let e : Int :=
    match exponent with
    | 45 :: ds => -(((Text.toNat? ds 10).getD 0 : Nat) : Int)
    | 43 :: ds => ((Text.toNat? ds 10).getD 0 : Nat)
    | ds => ((Text.toNat? ds 10).getD 0 : Nat)
  (Text.toNat? (whole ++ fraction) 10).bind fun m =>
    Binary64.ofDecimal? m (e - fraction.length)

/-- The radix a leading zero and the next byte announce. -/
def radixOf (first : UInt8) (rest : Text) : Nat :=
  if first = 48 then
    match rest.head? with
    | some 120 => 16
    | some 111 => 8
    | some 98 => 2
    | _ => 10
  else 10

def isDigitOrGap (b : UInt8) : Bool := Text.isDigitByte b || b == 95

/-- How many bytes after the first the whole digits take, with a radix mark. -/
def wholeSize (radix : Nat) (rest : Text) : Nat :=
  let mark := if radix = 10 then 0 else 1
  mark + run (fun b => isDigitIn radix b || b == 95) (rest.drop mark)

/-- How many bytes a fraction takes: a point counts only if a digit follows. -/
def fractionSize : Text → Nat
  | 46 :: b :: rest => if Text.isDigitByte b then 1 + run isDigitOrGap (b :: rest) else 0
  | _ => 0

/-- How many bytes an exponent takes, and whether it has the digits it needs;
`none` if there is no exponent. -/
def exponentSize? (t : Text) : Option (Nat × Bool) :=
  match t with
  | e :: rest =>
      if e = 101 || e = 69 then
        let sign := match rest.head? with
          | some 43 => 1
          | some 45 => 1
          | _ => 0
        let digits := rest.drop sign
        match digits.head? with
        | some d =>
            if Text.isDigitByte d then some (1 + sign + run isDigitOrGap digits, true)
            else some (1 + sign, false)
        | none => some (1 + sign, false)
      else none
  | [] => none

def suffixSize (t : Text) : Nat :=
  match t.head? with
  | some b => if isAlpha b then run isAlphaNum t else 0
  | none => 0

/-- An integer or float, from its first digit. An integer too large for 63 bits
is a token without a value. -/
def number (first : UInt8) (rest : Text) : Lexeme :=
  let radix := radixOf first rest
  let whole := wholeSize radix rest
  let fraction := if radix = 10 then fractionSize (rest.drop whole) else 0
  let mantissa := whole + fraction
  match if radix = 10 then exponentSize? (rest.drop mantissa) else none with
  | some (n, false) => .faulty .emptyExponent (mantissa + n)
  | exponent =>
      let size := mantissa + (exponent.map (·.1)).getD 0
      let suffix := (rest.drop size).take (suffixSize (rest.drop size))
      let total := size + suffix.length
      let digits := (first :: rest.take size).filter (· ≠ 95)
      let float := fraction ≠ 0 || exponent.isSome || suffix == "f32" || suffix == "f64"
      if float then
        match if radix = 10 then decimal? digits else none with
        | some bits => ⟨total, some (.float, some (.float bits)), []⟩
        | none => .faulty (.badFloat (first :: rest.take total)) total
      else
        let value := Text.toNat? (if radix = 10 then digits else digits.drop 2) radix
        ⟨total, some (.int, (value.filter (· < Nat.pow 2 63)).map .int), []⟩

/-! ## Names -/

/-- A name or reserved word, from its first byte. -/
def word (first : UInt8) (rest : Text) : Lexeme :=
  let size := run isAlphaNum rest
  match TokenKind.ofKeyword? (first :: rest.take size) with
  | some .trueKw => ⟨size, some (.trueKw, some (.bool true)), []⟩
  | some .falseKw => ⟨size, some (.falseKw, some (.bool false)), []⟩
  | some k => .plain k size
  | none => .plain .ident size

/-- What begins with a byte that is no punctuation: a number, a literal with a
letter in front, a name, or nothing. -/
def wordLike (first : UInt8) (rest : Text) : Lexeme :=
  let one := rest.head?
  let two := (rest.drop 1).head?
  if Text.isDigitByte first then number first rest
  else if first == 114 && (one == some 34 || (one == some 35 && opensRaw rest)) then
    rawString rest
  else if (first == 98 || first == 99) && one == some 34 then (string (rest.drop 1)).shift 1
  else if first == 98 && one == some 114 && (two == some 34 || two == some 35) then
    (rawString (rest.drop 1)).shift 1
  else if first == 98 && one == some 39 then (charLiteral (rest.drop 1)).shift 1
  else if first == 114 && one == some 35 && two.any isAlpha then
    .plain .ident (1 + run isAlphaNum (rest.drop 1))
  else if isAlpha first then word first rest
  else .faulty (.unexpected first) 0

/-! ## Punctuation -/

/-- The tokens of one byte that no second byte can extend. -/
def single? (b : UInt8) : Option TokenKind :=
  match Char.ofNat b.toNat with
  | '(' => some .lparen
  | ')' => some .rparen
  | '\x7b' => some .lbrace
  | '\x7d' => some .rbrace
  | '[' => some .lbracket
  | ']' => some .rbracket
  | ',' => some .comma
  | ';' => some .semicolon
  | '#' => some .hash
  | '?' => some .question
  | '@' => some .atSign
  | '$' => some .dollar
  | '~' => some .tilde
  | '+' => some .plus
  | '*' => some .star
  | '%' => some .percent
  | '^' => some .caret
  | '<' => some .lt
  | '>' => some .gt
  | '|' => some .pipe
  | _ => none

/-- The lexeme that a byte and what follows it begin. -/
def lexeme (first : UInt8) (rest : Text) : Lexeme :=
  match single? first with
  | some kind => .plain kind 0
  | none =>
      if isSpace first then .skipped 0
      else
        match Char.ofNat first.toNat, rest.head? with
        | '!', some 61 => .plain .notEq 1
        | '!', _ => .plain .bang 0
        | '=', some 61 => .plain .eqEq 1
        | '=', some 62 => .plain .fatArrow 1
        | '=', _ => .plain .equals 0
        | '&', some 38 => .plain .doubleAmp 1
        | '&', _ => .plain .amp 0
        | '-', some 62 => .plain .arrow 1
        | '-', _ => .plain .minus 0
        | '.', some 46 =>
            match (rest.drop 1).head? with
            | some 46 => .plain .dotDot 2
            | some 61 => .plain .dotDot 2
            | _ => .plain .dotDot 1
        | '.', _ => .plain .dot 0
        | ':', some 58 => .plain .doubleColon 1
        | ':', _ => .plain .colon 0
        | '/', _ => slash rest
        | '\'', _ => quote rest
        | '"', _ => string rest
        | _, _ => wordLike first rest

/-! ## The whole source -/

/-- What a scan yields: the tokens, the last one marking the end, and the errors. -/
structure Result where
  tokens : List Token
  errors : List LexError
  deriving Repr

/-- Scans the rest of a source from a position and offset. `skip` bytes of the
last lexeme are still to be passed over. -/
def scanLoop : Nat → Position → Nat → Text → Result
  | _, pos, offset, [] => ⟨[⟨.eof, [], none, pos, offset⟩], []⟩
  | skip + 1, pos, offset, b :: rest => scanLoop skip (pos.next b) (offset + 1) rest
  | 0, pos, offset, b :: rest =>
      let found := lexeme b rest
      let tokens : List Token :=
        match found.token with
        | some (kind, value) => [⟨kind, b :: rest.take found.size, value, pos, offset⟩]
        | none => []
      let errors : List LexError := found.faults.map fun (fault, n) =>
        ⟨fault, pos, (b :: rest.take n).take 20⟩
      let later := scanLoop found.size (pos.next b) (offset + 1) rest
      ⟨tokens ++ later.tokens, errors ++ later.errors⟩

end Scan

def scan (source : Text) : Scan.Result := Scan.scanLoop 0 .start 0 source

end Deriver
