import Deriver.Text.Quoted

/-!
# Integers as texts

An integer with an optional sign that has to fit a word of 64 bits. It is read in
a given base, or in the one that its own beginning names. Digits are taken from
left to right, and the first thing that goes wrong decides: a number that is too
large is so whatever follows.
-/

namespace Deriver.Integer

/-- Why a text is no such integer. -/
inductive Fault where
  | malformed
  | outOfRange
  deriving DecidableEq, Repr

/-- How a fault is worded, after the name of what was read and the text. -/
def Fault.message (reader t : Text) (f : Fault) : Text :=
  let reason : Text := match f with
    | .malformed => "invalid syntax"
    | .outOfRange => "value out of range"
  Text.concat [reader, ": parsing ", t.quoted, ": ", reason]

def unsigned (t : Text) : Text :=
  if t.startsWith "-" || t.startsWith "+" then t.drop 1 else t

def digit? (b : UInt8) : Option Nat :=
  let low := b ||| 32
  if Text.isDigitByte b then some (b.toNat - 48)
  else if Text.isLowerByte low then some (low.toNat - 87)
  else none

/-- The number that digits continue, if it fits a word. Underscores are passed
over if they are allowed. -/
def digits (radix : Nat) (underscores : Bool) : Nat → Text → Except Fault Nat
  | n, [] => .ok n
  | n, b :: rest =>
      if underscores && b == 95 then digits radix underscores n rest
      else
        match digit? b with
        | none => .error .malformed
        | some d =>
            if radix ≤ d then .error .malformed
            else if Nat.pow 2 64 ≤ n * radix + d then .error .outOfRange
            else digits radix underscores (n * radix + d) rest

def magnitudeIn (radix : Nat) (t : Text) : Except Fault Nat :=
  if t.isEmpty then .error .malformed else digits radix false 0 t

/-- The integer of that magnitude, negative if the text `t` has a minus sign. -/
def withSign (t : Text) (magnitude : Except Fault Nat) : Except Fault Int := do
  let n ← magnitude
  if t.startsWith "-" then if n ≤ Nat.pow 2 63 then .ok (-(n : Int)) else .error .outOfRange
  else if n < Nat.pow 2 63 then .ok n else .error .outOfRange

def parseIn (radix : Nat) (t : Text) : Except Fault Int :=
  withSign t (magnitudeIn radix (unsigned t))

def parse (t : Text) : Except Fault Int := parseIn 10 t

/-! ## In the base that the text names -/

/-- The base that the beginning of an unsigned number names, and its digits. A
leading zero alone means base eight. -/
def radixOf (t : Text) : Nat × Text :=
  match t with
  | 48 :: mark :: digit :: rest =>
      match Char.ofNat (mark.toNat ||| 32) with
      | 'b' => (2, digit :: rest)
      | 'o' => (8, digit :: rest)
      | 'x' => (16, digit :: rest)
      | _ => (8, mark :: digit :: rest)
  | 48 :: rest => (8, rest)
  | _ => (10, t)

/-- Whether every underscore stands behind a digit and before one. -/
def underscoresFit : Bool → Text → Bool
  | afterDigit, [] => afterDigit
  | afterDigit, 95 :: rest => afterDigit && !rest.isEmpty && underscoresFit false rest
  | _, _ :: rest => underscoresFit true rest

/-- The magnitude of an unsigned number in the base that it names. -/
def magnitude (t : Text) : Except Fault Nat := do
  if t.isEmpty then throw .malformed
  let (radix, body) := radixOf t
  let n ← digits radix true 0 body
  if body.contains 95 && !underscoresFit (radix != 10) body then throw .malformed
  return n

def parseAnyBase (t : Text) : Except Fault Int := withSign t (magnitude (unsigned t))

end Deriver.Integer
