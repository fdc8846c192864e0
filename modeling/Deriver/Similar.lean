import Deriver.Text.Casing

/-!
# Similar names

The suggestions behind a misspelled name: candidates are ranked by edit
distance, the number of characters to insert, delete or replace.
-/

namespace Deriver.Similar

/-- One row of the distance table from the row above it. `left` is the entry to
the left of the next one; the row above is walked as `diagonal` and what follows
it, beside the characters of the other word. -/
def nextRow {α : Type} [BEq α] (c : α) : Nat → Nat → List Nat → List α → List Nat
  | left, diagonal, above :: row, d :: ds =>
      let cost := if c == d then 0 else 1
      let entry := min (min (above + 1) (left + 1)) (diagonal + cost)
      entry :: nextRow c entry above row ds
  | _, _, _, _ => []

/-- The last row of the table, row by row from `row`, whose first entry is `n`. -/
def lastRow {α : Type} [BEq α] (b : List α) : Nat → List Nat → List α → List Nat
  | _, row, [] => row
  | n, row, c :: rest =>
      lastRow b (n + 1) ((n + 1) :: nextRow c (n + 1) n (row.drop 1) b) rest

/-- The least number of insertions, deletions and replacements that turn one sequence
into the other. -/
def distance {α : Type} [BEq α] (a b : List α) : Nat :=
  ((lastRow b 0 (List.range (b.length + 1)) a).getLast?).getD 0

/-- The edit distance of two texts, in characters. -/
def editDistance (s t : Text) : Nat := distance s.chars t.chars

/-- How far to look and how much to suggest. A limit of zero stands for three. -/
structure Options where
  maxDistance : Int := 0
  maxSuggestions : Int := 0
  caseSensitive : Bool := false

/-- A limit, or three in place of zero. -/
def orThree (n : Int) : Int := if n = 0 then 3 else n

/-- The candidates within the greatest distance, the closest first and candidates
at one distance in the given order. -/
def find (target : Text) (candidates : List Text) (options : Options) : List Text :=
  let key (t : Text) := if options.caseSensitive then t else t.fold
  let ranked := candidates.map fun c => (editDistance (key target) (key c), c)
  let near := ranked.filter fun (d, _) => (d : Int) ≤ orThree options.maxDistance
  ((near.mergeSort fun a b => a.1 ≤ b.1).map (·.2)).take
    (orThree options.maxSuggestions).toNat

def best? (target : Text) (candidates : List Text) (options : Options) : Option Text :=
  (find target candidates options).head?

end Deriver.Similar
