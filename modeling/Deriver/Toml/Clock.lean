import Deriver.Number.Timestamp
import Deriver.Text.Quoted

/-!
# The parts of a TOML document

A document is a sequence of expressions: a key with its value, the header of a table,
or the header of one more table of a list. A value is kept as it is spelt: what its
digits denote is asked only after the whole expression was read and its names were
found free.
-/

namespace Deriver.Toml

/-- The names of a key, with points between them. -/
abbrev Key := List Text

/-- What a date or a time leaves open. -/
inductive Clock where
  | instant
  | day
  | time
  | dayTime
  deriving DecidableEq, Repr

/-- A value as it is spelt. -/
inductive Spelt where
  | str (value : Text)
  | bool (value : Bool)
  | integer (digits : Text)
  | float (digits : Text)
  | clock (kind : Clock) (digits : Text)
  | list (items : List Spelt)
  | table (pairs : List (Key × Spelt))

/-- One expression of a document. -/
inductive Expression where
  | pair (key : Key) (value : Spelt)
  | table (key : Key)
  | item (key : Key)

/-- A byte with its number, as messages show it. -/
def byteName (b : UInt8) : Text :=
  let digits : Text := (Text.hex 4 b.toNat).map fun d => if 97 ≤ d then d - 32 else d
  let c := Char.ofNat b.toNat
  Text.concat ["U+", digits,
    if Text.isGraphic c then Text.concat [" '", Text.ofChar c, "'"] else []]

/-- Whether a byte may not stand in a document: a control byte other than a tab or one
that ends a line. -/
def isControl (b : UInt8) : Bool := (b < 32 && b != 9 && b != 10 && b != 13) || b == 127

/-- The number of bytes of the character that a text begins with; none if the text begins
with no character, or with one that may not stand in a document. -/
def charSize? : Text → Option Nat
  | [] => none
  | b :: rest =>
      match Text.char? b rest with
      | (some _, k) => if isControl b then none else some (k + 1)
      | (none, _) => none

/-- Whether a text has only characters that may stand in a document. -/
def isClean (t : Text) : Bool := t.isUtf8 && !t.any isControl

def skipBlanks (t : Text) : Text := t.dropWhile fun b => b == 32 || b == 9

end Deriver.Toml

/-!
# Dates and times in TOML

A day is written `YYYY-MM-DD` and a time of day `HH:MM:SS` with a fraction behind a point.
Together, with a `T` or a blank between them, they are a time wherever one is; a zone
makes it a point in time. A second may be the sixty-first of its minute.
-/

namespace Deriver.Toml

/-- Why some bytes are no date or time. -/
inductive ClockFault where
  | day
  | impossible
  | digit
  | dayTime
  | separator
  | time
  | hour
  | hourColon
  | minute
  | minuteColon
  | second
  | fraction
  | nanos
  | zone
  | zoneSign
  | zoneColon
  | zoneHours
  | zoneMinutes
  | afterZone
  | afterTime
  | afterDayTime
  deriving DecidableEq, Repr

def ClockFault.message : ClockFault → Text
  | .day => "dates are expected to have the format YYYY-MM-DD"
  | .impossible => "impossible date"
  | .digit => "expected digit (0-9)"
  | .dayTime =>
      "local datetimes are expected to have the format YYYY-MM-DDTHH:MM:SS[.NNNNNNNNN]"
  | .separator => "datetime separator is expected to be T or a space"
  | .time => "times are expected to have the format HH:MM:SS[.NNNNNN]"
  | .hour => "hour cannot be greater 23"
  | .hourColon => "expecting colon between hours and minutes"
  | .minute => "minutes cannot be greater 59"
  | .minuteColon => "expecting colon between minutes and seconds"
  | .second => "seconds cannot be greater 60"
  | .fraction => "need at least one digit after fraction point"
  | .nanos => "nanoseconds need at least one digit"
  | .zone => "invalid date-time timezone"
  | .zoneSign => "invalid timezone offset character"
  | .zoneColon => "expected a : separator"
  | .zoneHours => "invalid timezone offset hours"
  | .zoneMinutes => "invalid timezone offset minutes"
  | .afterZone => "extra bytes at the end of the timezone"
  | .afterTime => "extra characters at the end of a local time"
  | .afterDayTime => "extra characters at the end of a local date time"

def clockNumber (t : Text) : Except ClockFault Nat :=
  match t.toNat? 10 with
  | some n => .ok n
  | none => .error .digit

def clockCheck (c : Bool) (fault : ClockFault) : Except ClockFault Unit :=
  if c then .ok () else .error fault

/-- A day, at midnight of universal time. -/
def dayOf (t : Text) : Except ClockFault Timestamp :=
  match t with
  | [a, b, c, d, 45, e, f, 45, g, h] => do
      let year ← clockNumber [a, b, c, d]
      let month ← clockNumber [e, f]
      let day ← clockNumber [g, h]
      clockCheck (1 ≤ month && month ≤ 12 && 1 ≤ day && day ≤ Timestamp.daysIn year month)
        .impossible
      return ⟨year, month, day, 0, 0, 0, 0, 0⟩
  | _ => .error .day

/-- The fraction of a second at the front of a text: its nanoseconds, the number of its
digits that count, and what follows it. -/
def fractionOf (t : Text) : Except ClockFault (Nat × Nat × Text) :=
  match t with
  | 46 :: rest =>
      let (digits, after) := rest.span Text.isDigitByte
      let known : Text := digits.take 9
      if digits.isEmpty then .error (if rest.isEmpty then .nanos else .fraction)
      else .ok ((known.toNat? 10).getD 0 * Nat.pow 10 (9 - known.length),
        known.length, after)
  | _ => .ok (0, 0, t)

/-- A day with the time of day at the front of a text, the number of digits that the time's
fraction shows, and what follows it. -/
def timeOf (m : Timestamp) (t : Text) : Except ClockFault (Timestamp × Nat × Text) :=
  match t with
  | a :: b :: x :: c :: d :: y :: e :: f :: rest => do
      let hour ← clockNumber [a, b]
      clockCheck (hour ≤ 23) .hour
      clockCheck (x == 58) .hourColon
      let minute ← clockNumber [c, d]
      clockCheck (minute ≤ 59) .minute
      clockCheck (y == 58) .minuteColon
      let second ← clockNumber [e, f]
      clockCheck (second ≤ 60) .second
      let (nanos, places, rest) ← fractionOf rest
      return ({ m with hour, minute, second, nanos }, places, rest)
  | _ => .error .time

/-- A day and a time of day at the front of a text. -/
def dayTimeOf (t : Text) : Except ClockFault (Timestamp × Nat × Text) := do
  clockCheck (11 ≤ t.length) .dayTime
  let m ← dayOf (t.take 10)
  let separator := (t.drop 10).headD 0
  clockCheck (separator == 84 || separator == 116 || separator == 32) .separator
  timeOf m (t.drop 11)

def zoneOf (t : Text) : Except ClockFault Int :=
  match t with
  | 90 :: rest | 122 :: rest => if rest.isEmpty then .ok 0 else .error .afterZone
  | [sign, a, b, x, c, d] => do
      clockCheck (sign == 43 || sign == 45) .zoneSign
      clockCheck (x == 58) .zoneColon
      let hours ← clockNumber [a, b]
      clockCheck (hours ≤ 23) .zoneHours
      let minutes ← clockNumber [c, d]
      clockCheck (minutes ≤ 59) .zoneMinutes
      let offset : Int := hours * 60 + minutes
      return if sign == 45 then -offset else offset
  | _ => .error .zone

/-- A time of day as a message shows it, its fraction with so many digits. -/
def renderClockTime (m : Timestamp) (places : Nat) : Text :=
  m.renderTime ++ (if places = 0 then [] else
    "." ++ (Timestamp.padded 9 m.nanos).take places)

/-- What the spelling of a date or a time denotes, as a message shows it. -/
def clockOf (kind : Clock) (t : Text) : Except ClockFault Text :=
  match kind with
  | .day => return (← dayOf t).renderDay
  | .time => do
      let (m, places, rest) ← timeOf ⟨0, 1, 1, 0, 0, 0, 0, 0⟩ t
      clockCheck rest.isEmpty .afterTime
      return renderClockTime m places
  | .dayTime => do
      let (m, places, rest) ← dayTimeOf t
      clockCheck rest.isEmpty .afterDayTime
      return Text.concat [m.renderDay, "T", renderClockTime m places]
  | .instant => do
      let (m, _, rest) ← dayTimeOf t
      return ({ m with offset := ← zoneOf rest } : Timestamp).carried.display

end Deriver.Toml
