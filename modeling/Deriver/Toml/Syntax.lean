import Deriver.Number.Binary64
import Deriver.Toml.Clock

/-!
# Reading TOML expressions

Strings have four spellings. Expressions stand on lines of their own. Values nest, so
their readers carry fuel; each takes at least one byte for every three calls, and the fuel
is a larger multiple of the length of the text.
-/

/-!
## Numbers in TOML

An integer is decimal, or names its base; a float has a point or an exponent, or is a
word. Underscores may stand between digits. The bytes of a number are taken from the
document first, and only then is asked what they denote.
-/

namespace Deriver.Toml

/-- Why some bytes are no number. -/
inductive NumberFault where
  | none
  /-- A letter does not begin the word that it promises. -/
  | letter (b : UInt8)
  | word (wanted : Text)
  | underscoreFirst
  | underscoreLast
  | underscores
  | underscoreBefore (what : Text)
  | underscoreAfter (what : Text)
  | pointFirst
  | pointLast
  | points
  | noDigitBefore
  | noDigitAfter
  | zeroFirst
  | leadingZero
  /-- Digits that are no integer in the base of that name. -/
  | integer (base digits : Text) (cause : Integer.Fault)
  | float (digits : Text) (cause : Integer.Fault)

def NumberFault.message : NumberFault → Text
  | .none => "incomplete number"
  | .letter b =>
      Text.concat ["unexpected character '", [b], "' while scanning for a number"]
  | .word w => Text.concat ["expected '", w, "'"]
  | .underscoreFirst => "number cannot start with underscore"
  | .underscoreLast => "number cannot end with underscore"
  | .underscores => "number must have at least one digit between underscores"
  | .underscoreBefore what => "cannot have underscore before " ++ what
  | .underscoreAfter what => "cannot have underscore after " ++ what
  | .pointFirst => "float cannot start with a dot"
  | .pointLast => "float cannot end with a dot"
  | .points => "float can have at most one decimal point"
  | .noDigitBefore => "float decimal point must be preceded by a digit"
  | .noDigitAfter => "float decimal point must be followed by a digit"
  | .zeroFirst => "float integer part cannot have leading zeroes"
  | .leadingZero => "leading zero not allowed on decimal number"
  | .integer base digits cause => Text.concat ["couldn't parse ", base, " number: ",
      cause.message "strconv.ParseInt" digits]
  | .float digits cause =>
      "unable to parse float: " ++ cause.message "strconv.ParseFloat" digits

/-! ### Taking -/

def isNumberByte (b : UInt8) : Bool := Text.isDigitByte b || ("+-_.eE" : Text).contains b

def isFraction (digits : Text) : Bool := digits.any fun b => (".eE" : Text).contains b

/-- The integer at the front of a text that begins with a zero, unless the zero belongs to
a longer decimal number. -/
def takeZero? : Text → Option (Spelt × Text)
  | 48 :: mark :: b :: rest =>
      let based (radix : Nat) : Spelt × Text :=
        let (digits, rest) := (b :: rest).span fun b =>
          b == 95 || (Text.hexDigit? b).any (· < radix)
        (.integer (48 :: mark :: digits), rest)
      match Char.ofNat mark.toNat with
      | 'x' => some (based 16)
      | 'o' => some (based 8)
      | 'b' => some (based 2)
      | '.' | 'e' | 'E' => none
      | _ => some (.integer [48], mark :: b :: rest)
  | _ => none

/-- The number at the front of a text, and what follows it. A word may end it. -/
def takeNumber (t : Text) : Except NumberFault (Spelt × Text) :=
  match takeZero? t with
  | some found => .ok found
  | none =>
      let (digits, rest) := t.span isNumberByte
      match rest with
      | 105 :: _ | 110 :: _ =>
          if Text.startsWith rest "inf" || Text.startsWith rest "nan" then
            .ok (.float (digits ++ rest.take 3), rest.drop 3)
          else .error (.letter (rest.headD 0))
      | _ =>
          if digits.isEmpty then .error .none
          else .ok (if isFraction digits then .float digits else .integer digits, rest)

/-- The flags that tell dates and times apart. -/
structure ClockFlags where
  date : Bool := false
  time : Bool := false
  zone : Bool := false
  space : Bool := false

def ClockFlags.kind (f : ClockFlags) : Clock :=
  if !f.time then .day
  else if !f.date then .time
  else if f.zone then .instant
  else .dayTime

/-- The bytes of a date or a time from its byte number `i` on, what they tell, and what
follows them. One blank may stand in it if a digit follows; the byte behind that digit is
taken whatever it is. -/
def takeClock (f : ClockFlags) : Nat → Text → Text × ClockFlags × Text
  | _, [] => ([], f, [])
  | i, 32 :: d :: rest =>
      if !f.space && Text.isDigitByte d then
        let f := { f with space := true, time := true }
        match rest with
        | [] => ([32, d], f, [])
        | x :: rest =>
            let (taken, f, rest) := takeClock f (i + 3) rest
            (32 :: d :: x :: taken, f, rest)
      else ([], f, 32 :: d :: rest)
  | i, b :: rest =>
      let go (f : ClockFlags) : Text × ClockFlags × Text :=
        let (taken, f, rest) := takeClock f (i + 1) rest
        (b :: taken, f, rest)
      if Text.isDigitByte b then go f
      else if b == 45 then go { f with date := true, zone := f.zone || 8 ≤ i }
      else if ("Tt:." : Text).contains b then go { f with time := true }
      else if ("+Zz" : Text).contains b then go { f with zone := true }
      else ([], f, b :: rest)

/-- Whether a text begins like a date or a time: the first byte that is no digit is a colon
in the third place or a hyphen in the fifth. -/
def beginsClock (t : Text) : Bool :=
  let (digits, rest) := t.span Text.isDigitByte
  3 ≤ t.length
    && ((digits.length = 2 && rest.head? == some 58)
      || (digits.length = 4 && rest.head? == some 45))

/-- The number, date or time at the front of a text that is not empty. -/
def takeDigits (t : Text) : Except NumberFault (Spelt × Text) :=
  if t.startsWith "i" then
    if t.startsWith "inf" then .ok (.float "inf", t.drop 3) else .error (.word "inf")
  else if t.startsWith "n" then
    if t.startsWith "nan" then .ok (.float "nan", t.drop 3) else .error (.word "nan")
  else if beginsClock t then
    let (taken, f, rest) := takeClock {} 0 t
    .ok (.clock f.kind taken, rest)
  else takeNumber t

/-! ### Integers -/

/-- Checks that underscores from the first one on have a digit between them. -/
def spaced : Bool → Text → Bool
  | _, [] => true
  | before, b :: rest => if b == 95 then before && spaced false rest else spaced true rest

/-- The digits of an integer without its underscores. -/
def integerDigits (t : Text) : Except NumberFault Text :=
  let bare := Integer.unsigned t
  if bare.isEmpty then .ok t
  else if bare.startsWith "_" then .error .underscoreFirst
  else if bare.endsWith "_" then .error .underscoreLast
  else if spaced true t then .ok (t.filter (· != 95))
  else .error .underscores

/-- What the spelling of an integer denotes. -/
def integerOf (t : Text) : Except NumberFault Int := do
  let based (base : Text) (radix : Nat) : Except NumberFault Int := do
    let digits ← integerDigits (t.drop 2)
    (Integer.parseIn radix digits).mapError (.integer base digits)
  match t with
  | 48 :: 120 :: _ :: _ => based "hexadecimal" 16
  | 48 :: 111 :: _ :: _ => based "octal" 8
  | 48 :: 98 :: _ :: _ => based "binary" 2
  | _ =>
      let digits ← integerDigits t
      let bare := Integer.unsigned digits
      if 1 < bare.length && bare.startsWith "0" then throw .leadingZero
      (Integer.parse digits).mapError (.integer "decimal" digits)

/-! ### Floats -/

/-- The digits of a float without its underscores; `before` is the byte before them, and
`digit` says that a digit came since the last underscore or sign. -/
def floatDigits : UInt8 → Bool → Text → Except NumberFault Text
  | _, _, [] => .ok []
  | before, digit, b :: rest =>
      let next := rest.headD 0
      match Char.ofNat b.toNat with
      | '_' =>
          if !digit then .error .underscores
          else if next == 101 || next == 69 then .error (.underscoreBefore "exponent")
          else floatDigits b false rest
      | '+' | '-' => return b :: (← floatDigits b false rest)
      | 'e' | 'E' =>
          if next == 95 then .error (.underscoreAfter "exponent")
          else return b :: (← floatDigits b digit rest)
      | '.' =>
          if next == 95 then .error (.underscoreAfter "decimal point")
          else if before == 95 then .error (.underscoreBefore "decimal point")
          else return b :: (← floatDigits b digit rest)
      | _ => return b :: (← floatDigits b true rest)

/-- Checks the points of a float, which neither begins nor ends with one; `before` is the
byte before the text, and `seen` says that there was a point. -/
def checkPoints : UInt8 → Bool → Text → Except NumberFault Unit
  | _, _, [] => .ok ()
  | before, seen, b :: rest =>
      if b == 46 then
        if seen then .error .points
        else if !Text.isDigitByte before then .error .noDigitBefore
        else if !Text.isDigitByte (rest.headD 0) then .error .noDigitAfter
        else checkPoints b true rest
      else checkPoints b seen rest

/-- The pattern of the double that a word or a decimal denotes. -/
def doubleOf (t : Text) : Except Integer.Fault Nat :=
  let infinity : Nat := 2047 * Nat.pow 2 52
  if t == "inf" || t == "+inf" then .ok infinity
  else if t == "-inf" then .ok (infinity + Nat.pow 2 63)
  else if t == "nan" then .ok 0x7FF8000000000001
  else Decimal.parse t

/-- What the spelling of a float denotes, as a pattern. -/
def floatOf (t : Text) : Except NumberFault Nat := do
  if t == "+nan" || t == "-nan" then return 0x7FF8000000000001
  if t.startsWith "_" then throw .underscoreFirst
  if t.endsWith "_" then throw .underscoreLast
  let digits ← if t.contains 95 then floatDigits 0 false t else .ok t
  if digits.startsWith "." then throw .pointFirst
  if digits.endsWith "." then throw .pointLast
  checkPoints 0 false digits
  let bare := Integer.unsigned digits
  if bare.startsWith "0" && (bare.drop 1).head?.any Text.isDigitByte then throw .zeroFirst
  (doubleOf digits).mapError (.float digits)

end Deriver.Toml

namespace Deriver.Toml

/-!
## Strings

There are four spellings of a string: with escapes or without, on one line or on several.
A string is first cut out of the document up to its closing quotes, and then its escapes
are replaced. Where several lines are allowed, up to two quotes may stand directly before
the closing ones, and a newline directly behind the opening ones does not count.
-/

/-- Why a text is no string. -/
inductive StringFault where
  | newlineInBasic
  | newlineInLiteral
  | openBasic
  | openLiteral
  | openLongBasic
  | openLongLiteral
  | openEscape
  | loneReturn
  | quotesInBasic
  | quotesInLiteral
  | notUtf8
  | unfit
  | unfitByte (b : UInt8)
  | escape (b : UInt8)
  /-- The number of a character has too few digits. -/
  | shortNumber (wanted given : Nat)
  | noDigit
  | noCharacter

def StringFault.message : StringFault → Text
  | .newlineInBasic => "basic strings cannot have new lines"
  | .newlineInLiteral => "literal strings cannot have new lines"
  | .openBasic => "basic string not terminated by \""
  | .openLiteral => "unterminated literal string"
  | .openLongBasic => "multiline basic string not terminated by \"\"\""
  | .openLongLiteral => "multiline literal string not terminated by '''"
  | .openEscape => "need a character after \\"
  | .loneReturn => "need a \\n after \\r"
  | .quotesInBasic => "\"\"\" not allowed in multiline basic string"
  | .quotesInLiteral => "''' not allowed in multiline literal string"
  | .notUtf8 => "invalid UTF-8"
  | .unfit => "invalid character"
  | .unfitByte b => "invalid character " ++ byteName b
  | .escape b => "invalid escaped character " ++ byteName b
  | .shortNumber wanted given => Text.concat ["unicode point needs ", .ofNat wanted,
      " character, not ", .ofNat given]
  | .noDigit => "non-hex character"
  | .noCharacter => "escape sequence is invalid Unicode code point"

/-- What stands between the quotes of a string, and what follows it. -/
abbrev Cut := Except StringFault (Text × Text)

def Cut.after (front : Text) (c : Cut) : Cut :=
  c.map fun (body, rest) => (front ++ body, rest)

/-! ### Cutting -/

/-- Cuts a string with escapes, from behind its opening quote. -/
def cutBasic : Text → Cut
  | [] => .error .openBasic
  | 34 :: rest => .ok ([], rest)
  | [92] => .error .openEscape
  | 92 :: b :: rest => (cutBasic rest).after [92, b]
  | b :: rest =>
      if b == 10 || b == 13 then .error .newlineInBasic else (cutBasic rest).after [b]

/-- Where a string of several lines ends whose closing quotes stand in front: up to two
more belong to it. -/
def cutQuotes (quote : UInt8) (fault : StringFault) (rest : Text) : Cut :=
  let more := (rest.takeWhile (· == quote)).length
  if 2 < more then .error fault else .ok (List.replicate more quote, rest.drop more)

/-- Cuts a string of several lines with escapes, from behind its opening quotes. -/
def cutLongBasic : Text → Cut
  | [] => .error .openLongBasic
  | 34 :: 34 :: 34 :: rest => cutQuotes 34 .quotesInBasic rest
  | [92] => .error .openEscape
  | 92 :: b :: rest => (cutLongBasic rest).after [92, b]
  | 13 :: 10 :: rest => (cutLongBasic rest).after [13, 10]
  | b :: rest => if b == 13 then .error .loneReturn else (cutLongBasic rest).after [b]

/-- Cuts a string without escapes, from behind its opening quote; `skip` bytes belong to
the character just seen. -/
def cutLiteral : Nat → Text → Cut
  | _, [] => .error .openLiteral
  | skip + 1, b :: rest => (cutLiteral skip rest).after [b]
  | 0, b :: rest =>
      if b == 39 then .ok ([], rest)
      else if b == 10 || b == 13 then .error .newlineInLiteral
      else
        match charSize? (b :: rest) with
        | some n => (cutLiteral (n - 1) rest).after [b]
        | none => .error .unfit

/-- Cuts a string of several lines without escapes, from behind its opening quotes; `skip`
bytes belong to the character just seen. -/
def cutLongLiteral : Nat → Text → Cut
  | _, [] => .error .openLongLiteral
  | skip + 1, b :: rest => (cutLongLiteral skip rest).after [b]
  | 0, 39 :: 39 :: 39 :: rest => cutQuotes 39 .quotesInLiteral rest
  | 0, 13 :: 10 :: rest => (cutLongLiteral 0 rest).after [13, 10]
  | 0, b :: rest =>
      if b == 13 then .error .loneReturn
      else
        match charSize? (b :: rest) with
        | some n => (cutLongLiteral (n - 1) rest).after [b]
        | none => .error .unfit

/-! ### Escapes -/

/-- The character whose number stands in so many digits at the front of a text. -/
def numbered (digits : Nat) (t : Text) : Except StringFault Text :=
  let given : Text := t.take digits
  if given.length < digits then .error (.shortNumber digits given.length)
  else
    match given.toNat? 16 with
    | none => .error .noDigit
    | some n => if n.isValidChar then .ok (Text.ofCodePoint n) else .error .noCharacter

/-- What an escape behind a backslash stands for, and what follows it. The digits of a
character's number are looked for up to the end of what encloses the text, `quotes`
included. -/
def escape (quotes : Text) : Text → Except StringFault (Text × Text)
  | [] => .error .openEscape
  | e :: rest =>
      match Char.ofNat e.toNat with
      | '"' => .ok ("\"", rest)
      | '\\' => .ok ("\\", rest)
      | 'b' => .ok ([8], rest)
      | 'e' => .ok ([27], rest)
      | 'f' => .ok ([12], rest)
      | 'n' => .ok ([10], rest)
      | 'r' => .ok ([13], rest)
      | 't' => .ok ([9], rest)
      | 'u' => do return (← numbered 4 (rest ++ quotes), rest.drop 4)
      | 'U' => do return (← numbered 8 (rest ++ quotes), rest.drop 8)
      | _ => .error (.escape e)

/-- The text from behind the blanks at its front, if a line ends there. -/
def lineEnd? : Text → Option Text
  | 32 :: rest | 9 :: rest => lineEnd? rest
  | 13 :: 10 :: rest => some rest
  | 10 :: rest => some rest
  | _ => none

/-- Replaces the escapes of a text; `fuel` is its length. Where several lines are allowed,
a backslash at the end of a line joins it to the next text. -/
def unescape (long : Bool) : Nat → Text → Except StringFault Text
  | 0, _ => .ok []
  | fuel + 1, t =>
      match t with
      | [] => .ok []
      | 92 :: rest =>
          match if long then lineEnd? rest else none with
          | some next =>
              unescape long fuel (next.dropWhile fun b =>
                b == 32 || b == 9 || b == 10 || b == 13)
          | none => do
              let (piece, rest) ← escape (if long then [34, 34, 34] else []) rest
              return piece ++ (← unescape long fuel rest)
      | b :: _ =>
          match charSize? t with
          | some n => do return t.take n ++ (← unescape long fuel (t.drop n))
          | none => .error (.unfitByte b)

def decode (long : Bool) (body : Text) : Except StringFault Text :=
  if body.contains 92 then unescape long body.length body
  else if isClean body then .ok body
  else .error .notUtf8

/-! ### Whole strings -/

def dropNewline : Text → Text
  | 10 :: rest => rest
  | 13 :: 10 :: rest => rest
  | t => t

/-- A string with escapes, from behind its opening quote. -/
def basic (t : Text) : Cut := do
  let (body, rest) ← cutBasic t
  return (← decode false body, rest)

/-- A string of several lines with escapes, from behind its opening quotes. -/
def longBasic (t : Text) : Cut := do
  let (body, rest) ← cutLongBasic t
  return (← decode true (dropNewline body), rest)

/-- A string without escapes, from behind its opening quote. -/
def literal (t : Text) : Cut := cutLiteral 0 t

/-- A string of several lines without escapes, from behind its opening quotes. -/
def longLiteral (t : Text) : Cut :=
  (cutLongLiteral 0 t).map fun (body, rest) => (dropNewline body, rest)

/-! ## Faults -/

/-- Why a text is no expression. -/
inductive SyntaxFault where
  | noKey
  | keyStart (b : UInt8)
  | keyAlone
  | noValue
  /-- Another character had to stand here. -/
  | mark (wanted : UInt8)
  | markAtEnd (wanted : UInt8)
  /-- A line goes on behind its expression. -/
  | lineGoesOn (b : UInt8)
  | loneReturn
  | returnAtEnd
  | comment
  | word (wanted : Text)
  | openList
  | listComma
  | listGap
  | openTable
  | string (fault : StringFault)
  | number (fault : NumberFault)

def SyntaxFault.message : SyntaxFault → Text
  | .noKey => "expected key but found none"
  | .keyStart b => "invalid character at start of key: " ++ Text.ofCodePoint b.toNat
  | .keyAlone => "expected = after a key, but the document ends there"
  | .noValue => "expected value, not eof"
  | .mark b => "expected character " ++ [b]
  | .markAtEnd b => Text.concat ["expected character ", [b], " but the document ended here"]
  | .lineGoesOn b => "expected newline but got " ++ byteName b
  | .loneReturn => "windows new line should be \\r\\n"
  | .returnAtEnd => "windows new line expected"
  | .comment => "invalid character in comment"
  | .word w => Text.concat ["expected '", w, "'"]
  | .openList => "array is incomplete"
  | .listComma => "array cannot start with comma"
  | .listGap => "array elements must be separated by commas"
  | .openTable => "inline table is incomplete"
  | .string f => f.message
  | .number f => f.message

/-- A reader takes something from the front of a text and leaves the rest. -/
abbrev Reader (α : Type) := Text → Except SyntaxFault (α × Text)

/-! ## Lines -/

/-- The text from behind the comment whose mark was passed, up to the end of its line;
`skip` bytes belong to the character just seen. -/
def skipComment : Nat → Text → Except SyntaxFault Text
  | _, [] => .ok []
  | skip + 1, _ :: rest => skipComment skip rest
  | 0, 10 :: rest => .ok (10 :: rest)
  | 0, 13 :: rest => if Text.startsWith rest [10] then .ok rest else .error .comment
  | 0, b :: rest =>
      match charSize? (b :: rest) with
      | some n => skipComment (n - 1) rest
      | none => .error .comment

/-- The text from behind a comment, if it begins with one. -/
def passComment (t : Text) : Except SyntaxFault Text :=
  match t with
  | 35 :: rest => skipComment 0 rest
  | _ => .ok t

/-- The text from behind the end of a line, with which it has to begin. -/
def passNewline : Text → Except SyntaxFault Text
  | [] => .ok []
  | 10 :: rest => .ok rest
  | 13 :: 10 :: rest => .ok rest
  | [13] => .error .returnAtEnd
  | 13 :: _ => .error .loneReturn
  | b :: _ => .error (.lineGoesOn b)

/-- The text from behind all blanks, comments and ends of lines; `fuel` is its length. -/
def passLines : Nat → Text → Except SyntaxFault Text
  | 0, t => .ok t
  | fuel + 1, t => do
      let rest ← passComment (skipBlanks t)
      match rest with
      | 10 :: _ | 13 :: _ => passLines fuel (← passNewline rest)
      | _ => return rest

def expect (wanted : UInt8) (t : Text) : Except SyntaxFault Text :=
  match t with
  | [] => .error (.markAtEnd wanted)
  | b :: rest => if b == wanted then .ok rest else .error (.mark wanted)

/-! ## Keys -/

def isKeyByte (b : UInt8) : Bool :=
  Text.isDigitByte b || Text.isUpperByte b || Text.isLowerByte b || b == 45 || b == 95

def name : Reader Text := fun t =>
  match t with
  | [] => .error .noKey
  | 34 :: rest => (basic rest).mapError .string
  | 39 :: rest => (literal rest).mapError .string
  | b :: _ => if isKeyByte b then .ok (t.span isKeyByte) else .error (.keyStart b)

/-- A key; `fuel` is the length of the text and one. -/
def key : Nat → Reader Key
  | 0, _ => .error .noKey
  | fuel + 1, t => do
      let (first, rest) ← name t
      match skipBlanks rest with
      | 46 :: rest => do
          let (names, rest) ← key fuel (skipBlanks rest)
          return (first :: names, rest)
      | rest => return ([first], rest)

/-! ## Values -/

def word (w : Text) (b : Bool) : Reader Spelt := fun t =>
  match t.dropStart? w with
  | some rest => .ok (.bool b, rest)
  | none => .error (.word w)

def string : Text → Cut
  | 34 :: 34 :: 34 :: rest => longBasic rest
  | 39 :: 39 :: 39 :: rest => longLiteral rest
  | 39 :: rest => literal rest
  | t => basic (t.drop 1)

mutual

def value : Nat → Reader Spelt
  | 0, _ => .error .noValue
  | fuel + 1, t =>
      match t with
      | [] => .error .noValue
      | b :: rest =>
          match Char.ofNat b.toNat with
          | '"' | '\'' => do
              let (s, rest) ← (string t).mapError .string
              return (.str s, rest)
          | 't' => word "true" true t
          | 'f' => word "false" false t
          | '[' => do
              let (items, rest) ← items fuel true rest
              return (.list items, rest)
          | '\x7b' => do
              let (pairs, rest) ← pairs fuel true rest
              return (.table pairs, rest)
          | _ => (takeDigits t).mapError .number

/-- The items of a list up to its end; `first` says that none was read yet. -/
def items : Nat → Bool → Reader (List Spelt)
  | 0, _, _ => .error .openList
  | fuel + 1, first, t =>
      if t.isEmpty then .error (.markAtEnd 93)
      else do
        match ← passLines t.length t with
        | [] => throw .openList
        | 93 :: rest => return ([], rest)
        | 44 :: rest =>
            if first then throw .listComma
            match ← passLines rest.length rest with
            | 93 :: rest => return ([], rest)
            | rest => item fuel rest
        | rest => if first then item fuel rest else throw .listGap

/-- One item of a list, and the items after it. -/
def item : Nat → Reader (List Spelt)
  | 0, _ => .error .openList
  | fuel + 1, t => do
      let (v, rest) ← value fuel t
      let (vs, rest) ← items fuel false (← passLines rest.length rest)
      return (v :: vs, rest)

/-- The pairs of a table between braces up to its end; `first` says that none was read
yet. -/
def pairs : Nat → Bool → Reader (List (Key × Spelt))
  | 0, _, _ => .error .openTable
  | fuel + 1, first, t =>
      if t.isEmpty then .error (.markAtEnd 125)
      else
        match skipBlanks t with
        | [] => .error .openTable
        | 125 :: rest => .ok ([], rest)
        | rest => do
            let rest ← if first then .ok rest else expect 44 rest
            let (p, rest) ← pair fuel (skipBlanks rest)
            let (ps, rest) ← pairs fuel false rest
            return (p :: ps, rest)

def pair : Nat → Reader (Key × Spelt)
  | 0, _ => .error .noKey
  | fuel + 1, t => do
      let (path, rest) ← key (t.length + 1) t
      let rest := skipBlanks rest
      if rest.isEmpty then throw .keyAlone
      let rest ← expect 61 rest
      let (v, rest) ← value fuel (skipBlanks rest)
      return ((path, v), rest)

end

/-! ## Expressions -/

/-- The header of a table, or of one more table of a list. -/
def header : Reader Expression := fun t => do
  let many := t.startsWith "[["
  let start := t.drop (if many then 2 else 1)
  let (path, rest) ← key (t.length + 1) (skipBlanks start)
  let rest ← expect 93 (skipBlanks rest)
  if many then return (.item path, ← expect 93 rest)
  return (.table path, rest)

/-- The expression at the front of a line, if there is one, and its comment. -/
def expression : Reader (Option Expression) := fun t => do
  match skipBlanks t with
  | [] => return (none, [])
  | 35 :: rest => return (none, ← skipComment 0 rest)
  | 10 :: rest => return (none, 10 :: rest)
  | 13 :: rest => return (none, 13 :: rest)
  | 91 :: rest =>
      let (e, rest) ← header (91 :: rest)
      return (some e, ← passComment (skipBlanks rest))
  | rest =>
      let ((path, v), rest) ← pair (4 * t.length + 4) rest
      return (some (.pair path v), ← passComment (skipBlanks rest))

end Deriver.Toml
