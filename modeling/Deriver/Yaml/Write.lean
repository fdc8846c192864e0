import Deriver.Text.Base64
import Deriver.Yaml.Basic
import Deriver.Yaml.Source

/-!
# Writing YAML

Values as block YAML: one entry or item on a line, an inner mapping or list
below its key and indented, an empty one in brackets behind it.

A text is written plain where that reads back as the same text, and otherwise
in the mildest form that does: single quotes, double quotes with escapes, or a
literal block if it has several lines. Bytes that are no text are written in base
sixty-four.
-/

namespace Deriver.Yaml

/-! ## How a text may be written -/

/-- What about a text decides how it may be written. -/
structure Traits where
  /-- It begins like some other construct, or holds a mark of one. -/
  indicators : Bool
  /-- It has a line break. -/
  lineBreaks : Bool
  /-- It begins or ends with a blank or a line break. -/
  ragged : Bool
  /-- It ends with a blank. -/
  trailingSpace : Bool
  /-- A line begins with a blank. -/
  breakSpace : Bool
  /-- A line ends with a blank. -/
  spaceBreak : Bool
  /-- It has a tab. -/
  tabs : Bool
  /-- It has a character that is not printed as itself. -/
  special : Bool

def isPrinted (c : Char) : Bool :=
  let n := c.toNat
  n = 10 || (0x20 ≤ n && n ≤ 0x7E) || (0xA0 ≤ n && n ≤ 0xFFFD && n != 0xFEFF)

/-- Whether a text cannot be plain because of the character `c`, which stands
first or not, behind `before` and in front of `after`. -/
def isIndicator (first : Bool) (before : Option Char) (c : Char) (after : Option Char) :
    Bool :=
  let ended := match after with
    | none => true
    | some x => isGap x
  if first then
    ['#', ',', '[', ']', '\x7b', '\x7d', '&', '*', '!', '|', '>', '\x27', '"', '%', '@',
      '\x60'].contains c || (['?', ':', '-'].contains c && ended)
  else (c == ':' && ended) || (c == '#' && before.all endsWord)

def hasIndicator : Bool → Option Char → List Char → Bool
  | _, _, [] => false
  | first, before, c :: rest =>
      isIndicator first before c rest.head? || hasIndicator false (some c) rest

/-- Whether some character that fulfils `p` stands right before one that
fulfils `q`. -/
def hasPair (p q : Char → Bool) : List Char → Bool
  | a :: b :: rest => (p a && q b) || hasPair p q (b :: rest)
  | _ => false

/-- The traits of a text that is not empty. -/
def traits (cs : List Char) : Traits where
  indicators := cs.take 3 == ['-', '-', '-'] || cs.take 3 == ['.', '.', '.'] ||
    hasIndicator true none cs
  lineBreaks := cs.any isBreak
  ragged := cs.head?.any (fun c => c == ' ' || isBreak c) ||
    cs.getLast?.any (fun c => c == ' ' || isBreak c)
  trailingSpace := cs.getLast? == some ' '
  breakSpace := hasPair isBreak (· == ' ') cs
  spaceBreak := hasPair (· == ' ') isBreak cs
  tabs := cs.contains '\t'
  special := cs.any fun c => c != '\t' && !isPrinted c

def Traits.plain (f : Traits) : Bool :=
  !(f.ragged || f.breakSpace || f.spaceBreak || f.tabs || f.special ||
    f.lineBreaks || f.indicators)

def Traits.single (f : Traits) : Bool :=
  !(f.breakSpace || f.spaceBreak || f.tabs || f.special)

def Traits.block (f : Traits) : Bool := !(f.trailingSpace || f.spaceBreak || f.special)

def oldBooleans : List Text :=
  ["y", "Y", "yes", "Yes", "YES", "on", "On", "ON", "n", "N", "no", "No", "NO",
    "off", "Off", "OFF"]

/-- Whether a text is a number with parts in base sixty, which other readers
know: a sign, digits, at least one part behind a colon, and perhaps a fraction. -/
def isSexagesimal (t : Text) : Bool :=
  let (whole, fraction) : Text × Text := match t.cut? "." with
    | some (w, f) => (w, f)
    | none => (t, [])
  let digits (p : UInt8 → Bool) (x : Text) : Bool :=
    x.all fun b => Text.isDigitByte b || p b
  match (Integer.unsigned whole).splitOn ":" with
  | first :: part :: parts =>
      first.head?.any Text.isDigitByte && digits (· == 95) first &&
        (part :: parts).all (fun (x : Text) => match x with
          | [a] => Text.isDigitByte a
          | [a, b] => 48 ≤ a && a ≤ 53 && Text.isDigitByte b
          | _ => false) && digits (· == 95) fraction
  | _ => false

/-- Whether a text written plain would be read as that text everywhere. -/
def staysText (t : Text) : Bool :=
  isPlainText t && !oldBooleans.contains t && !isSexagesimal t

/-! ## Scalars -/

/-- The escape of a character between double quotes. -/
def escapeOf (c : Char) : Text :=
  let n := c.toNat
  if c == '"' then "\\\""
  else if c == '\\' then "\\\\"
  else if n = 0 then "\\0"
  else if n = 7 then "\\a"
  else if n = 8 then "\\b"
  else if n = 9 then "\\t"
  else if n = 10 then "\\n"
  else if n = 11 then "\\v"
  else if n = 12 then "\\f"
  else if n = 13 then "\\r"
  else if n = 27 then "\\e"
  else if n = 0x85 then "\\N"
  else if n = 0xA0 then "\\_"
  else if n = 0x2028 then "\\L"
  else if n = 0x2029 then "\\P"
  else
    let digits (width : Nat) : Text :=
      (Text.hex width n).map fun b => if b ≥ 97 then b - 32 else b
    if n ≤ 0xFF then "\\x" ++ digits 2
    else if n ≤ 0xFFFF then "\\u" ++ digits 4
    else "\\U" ++ digits 8

/-- A text in double quotes. Behind a byte order mark every character is escaped. -/
def doubleQuoted (cs : List Char) : Text :=
  let marked := cs.head?.any fun c => c.toNat = 0xFEFF
  let write (c : Char) : Text :=
    if marked || !isPrinted c || isBreak c || c == '"' || c == '\\' then escapeOf c
    else .ofChar c
  Text.concat ["\"", cs.flatMap write, "\""]

/-- The characters of a text in single quotes. A line that begins inside it is
indented by `depth`; `fresh` says that one does. -/
def singleChars (depth : Nat) : Bool → List Char → Text
  | _, [] => []
  | fresh, c :: rest =>
      if isBreak c then Text.ofChar c ++ singleChars depth true rest
      else
        Text.concat [Text.when (fresh && c != ' ') (Text.spaces depth),
          Text.when (c == '\x27') "'", Text.ofChar c,
          singleChars depth (fresh && c == ' ') rest]

def singleQuoted (depth : Nat) (cs : List Char) : Text :=
  Text.concat ["'", singleChars depth false cs, "'"]

/-- The characters of a literal block. A line is indented by `depth`, and the first
ends the line of the header, unless a break has done so. -/
def literalChars (depth : Nat) : (header fresh : Bool) → List Char → Text
  | _, _, [] => []
  | header, fresh, c :: rest =>
      if isBreak c then Text.ofChar c ++ literalChars depth false true rest
      else
        Text.concat [Text.when (header && fresh) "\n", Text.when fresh (Text.spaces depth),
          Text.ofChar c, literalChars depth header false rest]

/-- A text as a literal block, up to the end of its last line. `step` is written if
the first line begins with a blank, so that the indentation is known. -/
def literal (depth step : Nat) (cs : List Char) : Text :=
  let blankFirst := cs.head?.any fun c => c == ' ' || isBreak c
  let chomp : Text := match cs.reverse with
    | c :: before =>
        if !isBreak c then "-"
        else if before.head?.all isBreak then "+"
        else []
    | [] => "-"
  Text.concat ["|", Text.when blankFirst (.ofNat step), chomp,
    literalChars depth true true cs, Text.when (!cs.getLast?.any isBreak) "\n"]

/-- The lines of bytes in base sixty-four; there is one only if it is short. -/
def binaryLines : Nat → Text → Text
  | 0, t => t
  | fuel + 1, t =>
      if t.isEmpty then [] else t.take 70 ++ "\n" ++ binaryLines fuel (t.drop 70)

/-- Bytes that are no text, up to the end of the line. -/
def binary (depth step : Nat) (t : Text) : Text :=
  let digits := t.base64
  "!!binary " ++
    if digits.length < 70 then digits ++ "\n"
    else literal depth step (binaryLines digits.length digits).chars

/-- A text as a scalar, up to the end of its line. Its further lines are indented
by `depth`. -/
def scalarText (depth step : Nat) (t : Text) : Text :=
  let cs := t.chars
  if cs.isEmpty then "\"\"\n"
  else if !t.isUtf8 then binary depth step t
  else
    let f := traits cs
    if cs.contains '\n' then
      if f.block then literal depth step cs else doubleQuoted cs ++ "\n"
    else if !staysText t then doubleQuoted cs ++ "\n"
    else if f.plain then t ++ "\n"
    else if f.single then singleQuoted depth cs ++ "\n"
    else doubleQuoted cs ++ "\n"

/-! ## Values -/

def innerColumn (step depth : Nat) : Nat := step * ((depth + step) / step)

mutual

/-- The lines of a value that stands alone at column `depth`, the first of them
without its indentation. -/
def block (step depth : Nat) : Yaml → Text
  | .list [] => "[]\n"
  | .map [] => "\x7b\x7d\n"
  | .list items => Text.join (Text.spaces depth) (blockItems step depth items)
  | .map entries => Text.join (Text.spaces depth) (blockEntries step depth entries)
  | .str t => scalarText depth step t
  | .null => "null\n"
  | y => y.display ++ [10]

/-- The items of a list at column `depth`. -/
def blockItems (step depth : Nat) : List Yaml → List Text
  | [] => []
  | y :: rest => ("- " ++ block step (depth + 2) y) :: blockItems step depth rest

/-- The entries of a mapping at column `depth`. -/
def blockEntries (step depth : Nat) : List (Text × Yaml) → List Text
  | [] => []
  | (name, y) :: rest =>
      let inner := innerColumn step depth
      let gap : Text := match y with
        | .list (_ :: _) | .map (_ :: _) => "\n" ++ Text.spaces inner
        | _ => " "
      Text.concat [name, ":", gap, block step inner y] :: blockEntries step depth rest

end

/-- A value as a document, with inner collections indented by `step`. -/
def write (step : Nat) (y : Yaml) : Text := block step 0 y

end Deriver.Yaml
