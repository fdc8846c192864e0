import Deriver.Number.Binary64

/-!
# Spans of time

A span of time is a number of nanoseconds that fits a signed word of 64 bits. It
is written as numbers with units, such as `1h30m0s` or `2.5ms`, and read in the
same form.
-/

namespace Deriver.Duration

def units : List (Text × Nat) :=
  [("ns", 1), ("us", 1000), ("µs", 1000), ("μs", 1000), ("ms", 1000000), ("s", 1000000000),
   ("m", 60000000000), ("h", 3600000000000)]

def second : Nat := 1000000000

/-! ## Writing -/

/-- `n` over ten to the `places`, without zeros at the end. -/
def decimal (n places : Nat) : Text :=
  let digits := Text.ofNat (n % Nat.pow 10 places)
  let padded := Text.times "0" (places - digits.length) ++ digits
  let kept := (padded.reverse.dropWhile (· == 48)).reverse
  Text.ofNat (n / Nat.pow 10 places) ++
    (if places = 0 || kept.isEmpty then [] else "." ++ kept)

/-- A span that is not negative. Below a second the largest unit that fits is
used alone; from a second on it is hours, minutes and seconds. -/
def renderNat (n : Nat) : Text :=
  if n = 0 then "0s"
  else if n < 1000 then Text.ofNat n ++ "ns"
  else if n < 1000000 then decimal n 3 ++ "µs"
  else if n < second then decimal n 6 ++ "ms"
  else
    let minutes := n / (60 * second)
    let hours := minutes / 60
    Text.concat [
      if hours = 0 then [] else Text.ofNat hours ++ "h",
      if minutes = 0 then [] else Text.ofNat (minutes % 60) ++ "m",
      decimal (n % (60 * second)) 9, "s"]

def render (n : Int) : Text := Text.when (n < 0) "-" ++ renderNat n.natAbs

/-! ## Reading -/

/-- Why a text is no span of time. -/
inductive Fault where
  | malformed
  | noUnit
  | unknownUnit (unit : Text)
  deriving DecidableEq, Repr

/-- A text in quotes, every byte outside ASCII as an escape. -/
def quote (t : Text) : Text :=
  [34] ++ t.flatMap (fun b =>
    if b == 34 || b == 92 then [92, b]
    else if b < 32 || 128 ≤ b then "\\x" ++ Text.hex 2 b.toNat
    else [b]) ++ [34]

def Fault.message (t : Text) : Fault → Text
  | .malformed => "time: invalid duration " ++ quote t
  | .noUnit => "time: missing unit in duration " ++ quote t
  | .unknownUnit unit =>
      Text.concat ["time: unknown unit ", quote unit, " in duration ", quote t]

/-- One more than the largest length of a span, and the bound of each part. -/
def limit : Nat := Nat.pow 2 63

/-- The digits after the point that count: as many as keep the number in a word. -/
def fraction : Nat → Nat → Text → Nat × Nat
  | value, scale, [] => (value, scale)
  | value, scale, b :: rest =>
      if value > (limit - 1) / 10 || value * 10 + (b.toNat - 48) > limit then (value, scale)
      else fraction (value * 10 + (b.toNat - 48)) (scale * 10) rest

def wholePart (bits : Nat) : Nat :=
  let (m, q) := Binary64.unpack bits
  let (n, d) := Binary64.scale2 m q
  n / d

/-- `value / scale` units, computed in doubles and cut to whole nanoseconds. -/
def fractionOf (value scale unit : Nat) : Nat :=
  let (f, p) := Binary64.unpack ((Binary64.ofFraction? value 1).getD 0)
  let (g, q) := Binary64.unpack ((Binary64.ofFraction? unit scale).getD 0)
  let (n, d) := Binary64.scale2 (f * g) (p + q)
  wholePart ((Binary64.ofFraction? n d).getD 0)

/-- The parts of a span, each a number and a unit, added to `total`; `budget`
bounds how many there are. -/
def parts : Nat → Nat → Text → Except Fault Nat
  | 0, total, _ => .ok total
  | budget + 1, total, t =>
      if t.isEmpty then .ok total
      else do
        let whole := t.takeWhile Text.isDigitByte
        let afterWhole := t.dropWhile Text.isDigitByte
        let digits := match afterWhole with
          | 46 :: rest => rest.takeWhile Text.isDigitByte
          | _ => []
        let afterPoint := match afterWhole with
          | 46 :: rest => rest.dropWhile Text.isDigitByte
          | _ => afterWhole
        if whole.isEmpty && digits.isEmpty then throw .malformed
        let value := (Text.digits? 10 0 whole).getD 0
        if value > limit then throw .malformed
        let isUnitByte (b : UInt8) : Bool := b != 46 && !Text.isDigitByte b
        let unit := afterPoint.takeWhile isUnitByte
        if unit.isEmpty then throw .noUnit
        match units.lookup unit with
        | none => throw (.unknownUnit unit)
        | some length =>
            if value > limit / length then throw .malformed
            let (f, scale) := fraction 0 1 digits
            let part := value * length + if 0 < f then fractionOf f scale length else 0
            if part > limit || total + part > limit then throw .malformed
            parts budget (total + part) (afterPoint.dropWhile isUnitByte)

def parse (t : Text) : Except Fault Int := do
  let negative := t.startsWith "-"
  let body := if negative || t.startsWith "+" then t.drop 1 else t
  if body == "0" then return 0
  if body.isEmpty then throw .malformed
  let n ← parts body.length 0 body
  if negative then return -(n : Int)
  if n = limit then throw .malformed
  return n

end Deriver.Duration
