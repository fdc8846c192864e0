import Deriver.Number.Integer
import Deriver.Text.Basic

/-!
# Decimal fractions and 64-bit binary floating point

A float literal is kept as the bit pattern of the double nearest to what was
written, and is shown again with the fewest digits that read back as the same
double. Both directions are exact integer arithmetic: a double is
`m * 2 ^ q`, a decimal is `m * 10 ^ e`, and nothing is rounded twice.
-/

namespace Deriver.Binary64

/-! ## Reading -/

/-- `n / d` rounded to the nearest integer, a half going to the even neighbour. -/
def roundDiv (n d : Nat) : Nat :=
  let q := n / d
  let twice := 2 * (n % d)
  if twice < d then q
  else if d < twice then q + 1
  else if q % 2 == 0 then q else q + 1

/-- The fraction `m * 2 ^ q` as numerator and denominator. -/
def scale2 (m : Nat) (q : Int) : Nat × Nat :=
  if 0 ≤ q then (m * Nat.pow 2 q.toNat, 1) else (m, Nat.pow 2 (-q).toNat)

/-- The fraction `m * 10 ^ e` as numerator and denominator. -/
def scale10 (m : Nat) (e : Int) : Nat × Nat :=
  if 0 ≤ e then (m * Nat.pow 10 e.toNat, 1) else (m, Nat.pow 10 (-e).toNat)

/-- The largest `q`, not below the least exponent of a double, for which
`n / d` has at least 53 binary digits before the point of `n / (d * 2 ^ q)`. -/
def exponentOf (n d : Nat) : Int :=
  let guess : Int := (n.log2 : Int) - (d.log2 : Int) - 52
  let (s, t) := scale2 d guess
  let q := if n * t < Nat.pow 2 52 * s then guess - 1 else guess
  max q (-1074)

/-- The bit pattern of `m * 2 ^ q`, where `m < 2 ^ 53` has 53 digits unless `q` is
the least exponent; `none` if it is too large for a double. -/
def pack? (m : Nat) (q : Int) : Option Nat :=
  if m < Nat.pow 2 52 then some m
  else if 971 < q then none
  else some ((q + 1075).toNat * Nat.pow 2 52 + (m - Nat.pow 2 52))

/-- The bit pattern of the double nearest to the fraction `n / d`. -/
def ofFraction? (n d : Nat) : Option Nat :=
  if n = 0 then some 0
  else
    let q := exponentOf n d
    let (s, t) := scale2 d q
    let m := roundDiv (n * t) s
    if m = Nat.pow 2 53 then pack? (Nat.pow 2 52) (q + 1) else pack? m q

/-- The bit pattern of the double nearest to `m * 10 ^ e`; `none` if that is
beyond the largest double. The first two tests only keep the arithmetic small:
they decide values that are out of range by hundreds of digits. -/
def ofDecimal? (m : Nat) (e : Int) : Option Nat :=
  if m = 0 then some 0
  else
    let size : Int := (toString m).length
    if 400 < size + e then none
    else if size + e < -400 then some 0
    else
      let (n, d) := scale10 m e
      ofFraction? n d

/-! ## Writing -/

/-- A finite double as `m * 2 ^ q`, from the bits below the sign. -/
def unpack (bits : Nat) : Nat × Int :=
  let exponent : Nat := bits / Nat.pow 2 52 % 2048
  let fraction : Nat := bits % Nat.pow 2 52
  if exponent = 0 then (fraction, -1074)
  else (fraction + Nat.pow 2 52, (exponent : Int) - 1075)

/-- A decimal `0.d₁d₂… * 10 ^ point`. -/
structure Digits where
  /-- The digits as one number, its last digit not zero. -/
  value : Nat
  /-- How many digits stand before the decimal point. -/
  point : Int

/-- The `d` with `10 ^ (d - 1) ≤ n / d' < 10 ^ d`, searched upwards from `d`. -/
def pointOf (n d : Nat) : Nat → Int → Int
  | 0, k => k
  | fuel + 1, k =>
      let (s, t) := scale10 1 k
      if n * t < s * d then k else pointOf n d fuel (k + 1)

/-- The decimal with `count` digits nearest to the fraction among those that read
back as the double `bits`, if there is one. -/
def digitsWith? (bits n d : Nat) (point : Int) (count : Nat) : Option Digits :=
  let grid := point - count
  let (s, t) := scale10 1 grid
  let low := n * t / (d * s)
  let reads (v : Nat) : Bool := ofDecimal? v grid == some bits
  let nearest := roundDiv (n * t) (d * s)
  let other := if nearest = low then low + 1 else low
  let found :=
    if reads nearest then some nearest else if reads other then some other else none
  found.map fun v => if v = Nat.pow 10 count then ⟨1, point + 1⟩ else ⟨v, point⟩

/-- The fewest digits that read back as the positive finite double `bits`. -/
def shortest (bits : Nat) : Digits :=
  let (m, q) := unpack bits
  let (n, d) := scale2 m q
  let point := pointOf n d 700 (-330)
  match (List.range 17).findSome? fun k => digitsWith? bits n d point (k + 1) with
  | some ds => ds
  | none => ⟨m, point⟩

def exponentText (e : Int) : Text :=
  let digits := Text.ofNat e.natAbs
  (if e < 0 then "e-" else "e+") ++ (if digits.length < 2 then "0" ++ digits else digits)

/-- A double that is not negative, with the fewest digits; an exponent is written
below `10 ^ -4` and from `10 ^ 6` on. -/
def render (bits : Nat) : Text :=
  if bits = 0 then "0"
  else if bits = 2047 * Nat.pow 2 52 then "+Inf"
  else
    let ds := shortest bits
    let digits := Text.ofNat ds.value
    let e := ds.point - 1
    if e < -4 || 6 ≤ e then
      digits.take 1 ++ (if digits.length = 1 then [] else "." ++ digits.drop 1) ++
        exponentText e
    else if ds.point ≤ 0 then "0." ++ Text.times "0" (-ds.point).toNat ++ digits
    else
      let whole := ds.point.toNat
      if digits.length ≤ whole then digits ++ Text.times "0" (whole - digits.length)
      else digits.take whole ++ "." ++ digits.drop whole

/-- The sign of any double and how its magnitude is written, by a writer of
finite doubles that are not negative. -/
def signed (write : Nat → Text) (bits : Nat) : Text :=
  let magnitude := bits % Nat.pow 2 63
  let negative : Bool := Nat.pow 2 63 ≤ bits
  if 2047 * Nat.pow 2 52 < magnitude then "NaN"
  else if magnitude = 2047 * Nat.pow 2 52 then if negative then "-Inf" else "+Inf"
  else Text.when negative "-" ++ write magnitude

/-- Any double, with the fewest digits. -/
def display (bits : Nat) : Text := signed render bits

/-- A finite double that is not negative, with the fewest digits and never an
exponent. -/
def renderPositional (bits : Nat) : Text :=
  if bits = 0 then "0"
  else
    let ds := shortest bits
    let digits := Text.ofNat ds.value
    if ds.point ≤ 0 then "0." ++ Text.times "0" (-ds.point).toNat ++ digits
    else if digits.length ≤ ds.point.toNat then
      digits ++ Text.times "0" (ds.point.toNat - digits.length)
    else digits.take ds.point.toNat ++ "." ++ digits.drop ds.point.toNat

/-- Any double, with the fewest digits and never an exponent. -/
def positional (bits : Nat) : Text := signed renderPositional bits

/-- The whole part of a double, toward zero, as a signed word of 64 bits; what
does not fit is the least such word. -/
def toInt64 (bits : Nat) : Int :=
  let magnitude := bits % Nat.pow 2 63
  let (m, q) := unpack magnitude
  let (n, d) := scale2 m q
  let whole : Nat := n / d
  if 2047 * Nat.pow 2 52 ≤ magnitude || Nat.pow 2 63 ≤ whole then -(Nat.pow 2 63)
  else if Nat.pow 2 63 ≤ bits then -(whole : Int) else whole

end Deriver.Binary64

/-!
## Decimal numbers as texts

A decimal number has digits, perhaps a point among them, and perhaps an exponent.
It is read as the nearest double, and is refused if it is beyond the largest one.
-/

namespace Deriver.Decimal

/-- The digits at the front of a text, and what follows them. -/
def digitRun (t : Text) : Text × Text := t.span Text.isDigitByte

/-- The exponent that is all of a text; none is zero. -/
def exponent? (t : Text) : Option Int :=
  match t with
  | [] => some 0
  | 101 :: rest | 69 :: rest =>
      let body : Text := Integer.unsigned rest
      (body.toNat? 10).map fun n => if Text.startsWith rest "-" then -(n : Int) else n
  | _ => none

/-- The decimal `m * 10 ^ e` that an unsigned number spells. -/
def parts? (t : Text) : Option (Nat × Int) := do
  let (whole, rest) := digitRun t
  let (fraction, rest) := match rest with
    | 46 :: after => digitRun after
    | _ => ([], rest)
  let m ← (whole ++ fraction).toNat? 10
  let e ← exponent? rest
  some (m, e - fraction.length)

/-- The pattern of the double nearest to the number that a text spells. -/
def parse (t : Text) : Except Integer.Fault Nat :=
  match parts? (Integer.unsigned t) with
  | none => .error .malformed
  | some (m, e) =>
      match Binary64.ofDecimal? m e with
      | none => .error .outOfRange
      | some bits => .ok (if t.startsWith "-" then bits + Nat.pow 2 63 else bits)

end Deriver.Decimal
