import Deriver.Text.Basic

/-!
# Points in time

A time stamp is written as a date, or as a date and a time of day. Fields may have one
digit less than usual. A time behind a `T` names its zone; one behind a blank is
universal time.
-/

namespace Deriver

/-- A day and a time of day at an offset of some minutes from universal time. -/
structure Timestamp where
  year : Nat
  month : Nat
  day : Nat
  hour : Nat
  minute : Nat
  second : Nat
  nanos : Nat
  offset : Int
  deriving DecidableEq, Repr

namespace Timestamp

def isLeap (y : Nat) : Bool := (y % 4 = 0 && y % 100 != 0) || y % 400 = 0

def daysIn (y m : Nat) : Nat :=
  if m = 2 then (if isLeap y then 29 else 28)
  else if [4, 6, 9, 11].contains m then 30 else 31

/-! ## Reading -/

/-- A number of one or two digits, and what follows it. -/
def short? : Text → Option (Nat × Text)
  | a :: b :: rest =>
      if !Text.isDigitByte a then none
      else if Text.isDigitByte b then some ((a.toNat - 48) * 10 + (b.toNat - 48), rest)
      else some (a.toNat - 48, b :: rest)
  | [a] => if Text.isDigitByte a then some (a.toNat - 48, []) else none
  | [] => none

/-- A number of one or two digits below a bound, and what follows it. -/
def below? (bound : Nat) (t : Text) : Option (Nat × Text) :=
  (short? t).filter (·.1 < bound)

/-- The date at the front of a text, and what follows it. -/
def date? (t : Text) : Option (Timestamp × Text) := do
  let digits : Text := t.take 4
  let year ← digits.toNat? 10
  if digits.length < 4 then none
  let rest ← Text.dropStart? (t.drop 4) "-"
  let (month, rest) ← short? rest
  let rest ← rest.dropStart? "-"
  let (day, rest) ← short? rest
  if 1 ≤ month && month ≤ 12 && 1 ≤ day && day ≤ daysIn year month then
    some (⟨year, month, day, 0, 0, 0, 0, 0⟩, rest)
  else none

/-- The nanoseconds of a fraction at the front of a text, and what follows it. -/
def fraction (t : Text) : Nat × Text :=
  match t with
  | mark :: rest =>
      let (digits, after) := rest.span Text.isDigitByte
      if (mark == 46 || mark == 44) && !digits.isEmpty then
        let known : Text := digits.take 9
        (((known.toNat? 10).getD 0) * Nat.pow 10 (9 - known.length), after)
      else (0, t)
  | [] => (0, [])

/-- A date with the time of day at the front of a text, and what follows that. -/
def time? (m : Timestamp) (t : Text) : Option (Timestamp × Text) := do
  let (hour, rest) ← below? 24 t
  let rest ← rest.dropStart? ":"
  let (minute, rest) ← below? 60 rest
  let rest ← rest.dropStart? ":"
  let (second, rest) ← below? 60 rest
  let (nanos, rest) := fraction rest
  return ({ m with hour := hour, minute := minute, second := second, nanos := nanos }, rest)

/-- The offset that a zone stands for: `Z`, or hours and minutes behind a sign. -/
def zone? (t : Text) : Option Int :=
  match t with
  | [90] => some 0
  | [sign, a, b, 58, c, d] => do
      let hours ← Text.toNat? [a, b] 10
      let minutes ← Text.toNat? [c, d] 10
      if hours > 24 || minutes > 60 then none
      let offset : Int := hours * 60 + minutes
      if sign == 43 then some offset else if sign == 45 then some (-offset) else none
  | _ => none

def parse? (t : Text) : Option Timestamp := do
  let (m, rest) ← date? t
  match rest with
  | [] => some m
  | mark :: rest =>
      if mark == 84 || mark == 116 then
        let (m, rest) ← time? m rest
        return { m with offset := ← zone? rest }
      else if mark == 32 then
        let (m, rest) ← time? m (rest.dropWhile (· == 32))
        if rest.isEmpty then some m else none
      else none

/-! ## Leap seconds -/

def tomorrow (m : Timestamp) : Timestamp :=
  if m.day < daysIn m.year m.month then { m with day := m.day + 1 }
  else if m.month < 12 then { m with month := m.month + 1, day := 1 }
  else { m with year := m.year + 1, month := 1, day := 1 }

def carried (m : Timestamp) : Timestamp :=
  if m.second < 60 then m
  else if m.minute < 59 then { m with minute := m.minute + 1, second := m.second - 60 }
  else if m.hour < 23 then
    { m with hour := m.hour + 1, minute := 0, second := m.second - 60 }
  else { m.tomorrow with hour := 0, minute := 0, second := m.second - 60 }

/-! ## Writing -/

def padded (width n : Nat) : Text :=
  let digits := Text.ofNat n
  Text.times "0" (width - digits.length) ++ digits

/-- A fraction of a second, without zeros at its end. -/
def renderFraction (nanos : Nat) : Text :=
  if nanos = 0 then []
  else "." ++ ((padded 9 nanos).reverse.dropWhile (· == 48)).reverse

def renderOffset (offset : Int) : Text :=
  let n := offset.natAbs
  Text.concat [if offset < 0 then "-" else "+", padded 2 (n / 60), padded 2 (n % 60)]

def renderDay (m : Timestamp) : Text :=
  Text.concat [padded 4 m.year, "-", padded 2 m.month, "-", padded 2 m.day]

/-- The time of day of a time stamp, in whole seconds. -/
def renderTime (m : Timestamp) : Text :=
  Text.concat [padded 2 m.hour, ":", padded 2 m.minute, ":", padded 2 m.second]

/-- A time stamp as a message shows it. A zone without a name is shown by its offset. -/
def display (m : Timestamp) : Text :=
  Text.concat [m.renderDay, " ", m.renderTime, renderFraction m.nanos, " ",
    renderOffset m.offset, " ", if m.offset = 0 then "UTC" else renderOffset m.offset]

end Timestamp

end Deriver
