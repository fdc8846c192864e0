import Deriver.Console.Message
import Deriver.Text.Utf8

/-!
# Tables

Columns are as wide as their widest cell, counted in characters.
-/

namespace Deriver.Table

def pad (width : Nat) (t : Text) : Text := t ++ Text.spaces (width - t.charCount)

def fit (n : Nat) (row : List Text) : List Text :=
  row.take n ++ List.replicate (n - row.length) []

/-- The cells of a row, all but the last padded, with a gap behind those. -/
def cells (widths : List Nat) : List Text → List Text
  | [] => []
  | [last] => [last]
  | cell :: rest => pad (widths.headD 0) cell :: cells (widths.drop 1) rest

def trimSpaces (t : Text) : Text := (t.reverse.dropWhile (· == 32)).reverse

/-- A table with a header line and a rule below it. -/
def render (color : Bool) (headers : List Text) (rows : List (List Text)) : Text :=
  if headers.isEmpty then []
  else
    let rows := rows.map (fit headers.length)
    let widths := headers.mapIdx fun i h =>
      rows.foldl (fun w row => max w (Text.charCount ((row[i]?).getD []))) h.charCount
    let head := Text.join "  " ((cells widths headers).map (Style.paint color .boldCyan))
    let rule := Text.join (Style.paint color .grey "  ")
      (widths.map fun w => Style.paint color .grey (Text.times "─" w))
    Text.lines ([head, rule] ++ rows.map fun row =>
      trimSpaces (Text.join "  " (cells widths row)))

/-- Lines of a key and a value, the values aligned. -/
def keyValues (color : Bool) (rows : List (Text × Text)) : Text :=
  let width := rows.foldl (fun w (k, _) => max w k.charCount) 0
  Text.lines (rows.map fun (k, v) =>
    Text.concat [Style.paint color .cyan (pad (width + 1) (k ++ ":")), " ", v])

def heading (color : Bool) (title : Text) : Text :=
  Style.line color .boldCyan title ++ Style.line color .grey
    (Text.times "─" title.charCount)

end Deriver.Table
