import Deriver.Text.Basic

/-!
# Bytes in base sixty-four

Three bytes are four digits of six bits each; a text whose length is no multiple
of three is padded with equals signs. Ends of lines between the digits do not
count.
-/

namespace Deriver.Text

def digit64 (n : Nat) : UInt8 :=
  if n < 26 then (65 + n).toUInt8
  else if n < 52 then (71 + n).toUInt8
  else if n < 62 then (n - 4).toUInt8
  else if n = 62 then 43 else 47

def digit64? (b : UInt8) : Option Nat :=
  if isUpperByte b then some (b.toNat - 65)
  else if isLowerByte b then some (b.toNat - 71)
  else if isDigitByte b then some (b.toNat + 4)
  else if b == 43 then some 62
  else if b == 47 then some 63
  else none

def base64 : Text → Text
  | a :: b :: c :: rest =>
      let n := (a.toNat * 256 + b.toNat) * 256 + c.toNat
      [digit64 (n / 2 ^ 18), digit64 (n / 2 ^ 12 % 64), digit64 (n / 64 % 64),
        digit64 (n % 64)] ++
        base64 rest
  | [a, b] =>
      let n := (a.toNat * 256 + b.toNat) * 4
      [digit64 (n / 2 ^ 12), digit64 (n / 64 % 64), digit64 (n % 64), 61]
  | [a] =>
      let n := a.toNat * 16
      [digit64 (n / 64), digit64 (n % 64), 61, 61]
  | [] => []

/-- The text that digits without ends of lines stand for. -/
def digits64? : Text → Option Text
  | [] => some []
  | [a, b, 61, 61] => do
      let n := (← digit64? a) * 64 + (← digit64? b)
      some [(n / 16).toUInt8]
  | [a, b, c, 61] => do
      let n := ((← digit64? a) * 64 + (← digit64? b)) * 64 + (← digit64? c)
      some [(n / 2 ^ 10).toUInt8, (n / 4).toUInt8]
  | a :: b :: c :: d :: rest => do
      let n := (((← digit64? a) * 64 + (← digit64? b)) * 64 + (← digit64? c)) * 64 +
        (← digit64? d)
      let more ← digits64? rest
      some ((n / 2 ^ 16).toUInt8 :: (n / 2 ^ 8).toUInt8 :: n.toUInt8 :: more)
  | _ => none

def ofBase64? (t : Text) : Option Text := digits64? (t.filter fun b => b != 10 && b != 13)

end Deriver.Text
