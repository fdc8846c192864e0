import Deriver.Text.Basic

/-!
# Positions in a source text

A position is a line and a column, both counted from one and the column in
bytes. The position after a text is found by walking its bytes, so positions of
neighbouring pieces always fit together.
-/

namespace Deriver

/-- A line and a byte column, both from one; `0:0` where nothing is known. -/
structure Position where
  line : Nat
  column : Nat
  deriving DecidableEq, Repr, Inhabited

namespace Position

def start : Position := ⟨1, 1⟩

def unknown : Position := ⟨0, 0⟩

/-- The position after one more byte: a newline begins the next line. -/
def next (p : Position) (b : UInt8) : Position :=
  if b = 10 then ⟨p.line + 1, 1⟩ else ⟨p.line, p.column + 1⟩

/-- The position after a text that begins at `p`. -/
def after (p : Position) (t : Text) : Position := t.foldl next p

/-- The position as `line:column`. -/
def render (p : Position) : Text := Text.ofNat p.line ++ ":" ++ Text.ofNat p.column

end Position

end Deriver
