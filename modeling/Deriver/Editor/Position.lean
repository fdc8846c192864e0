import Deriver.Diagnostic.Basic

/-!
# Positions in an editor

An editor counts lines and characters from zero, where a source position counts
both from one. A character here is a byte of its line.
-/

namespace Deriver

/-- A line and a character, both from zero. -/
structure EditorPosition where
  line : Nat
  character : Nat
  deriving DecidableEq, Repr

/-- From a position up to another. -/
structure EditorRange where
  start : EditorPosition
  stop : EditorPosition
  deriving DecidableEq, Repr

/-- A range in a document. -/
structure EditorPlace where
  uri : Text
  range : EditorRange
  deriving DecidableEq, Repr

namespace EditorPosition

/-- A source position as an editor counts it; what is unknown is the start. -/
def ofPosition (p : Position) : EditorPosition := ⟨p.line - 1, p.column - 1⟩

def ofSite (s : Site) : EditorPosition := ⟨(s.line - 1).toNat, (s.column - 1).toNat⟩

def before (a b : EditorPosition) : Bool :=
  a.line < b.line || (a.line == b.line && a.character < b.character)

end EditorPosition

/-- The offsets behind the newlines of a text that starts at `offset`. -/
def lineStartsFrom (offset : Nat) : Text → List Nat
  | [] => []
  | b :: rest =>
      if b = 10 then (offset + 1) :: lineStartsFrom (offset + 1) rest
      else lineStartsFrom (offset + 1) rest

def lineStarts (t : Text) : List Nat := 0 :: lineStartsFrom 0 t

/-- The last line that starts at or before an offset: `line` with its start, or one
of the lines after it. -/
def lineAt (offset line start : Nat) : List Nat → EditorPosition
  | [] => ⟨line, offset - start⟩
  | next :: rest =>
      if next ≤ offset then lineAt offset (line + 1) next rest else ⟨line, offset - start⟩

/-- The position of an offset among lines that start at these offsets. -/
def EditorPosition.ofOffset (starts : List Nat) (offset : Nat) : EditorPosition :=
  lineAt offset 0 0 (starts.drop 1)

namespace EditorRange

/-- `width` characters from a source position on. -/
def ofWidth (p : Position) (width : Nat) : EditorRange :=
  let start := EditorPosition.ofPosition p
  ⟨start, ⟨start.line, start.character + width⟩⟩

/-- Whether a position is in a range, both ends included. -/
def contains (r : EditorRange) (p : EditorPosition) : Bool :=
  !p.before r.start && !r.stop.before p

/-- Whether a range spans fewer lines than another, or as many and fewer
characters from its first column to its last. -/
def narrower (a b : EditorRange) : Bool :=
  let la := a.stop.line - a.start.line
  let lb := b.stop.line - b.start.line
  let width (r : EditorRange) : Int := (r.stop.character : Int) - r.start.character
  if la ≠ lb then la < lb else width a < width b

def isWordByte (b : UInt8) : Bool :=
  b == 95 || Text.isLowerByte b || Text.isUpperByte b || Text.isDigitByte b

/-- The range of a diagnostic: the word that starts at its place, or one
character. -/
def ofSite (lines : List Text) (s : Site) : EditorRange :=
  let start := EditorPosition.ofSite s
  let word := (((lines[start.line]?).getD []).drop start.character).takeWhile isWordByte
  ⟨start, ⟨start.line, start.character + max 1 word.length⟩⟩

end EditorRange

end Deriver
