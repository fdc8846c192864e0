import Deriver.Proofs.Token.Fragment

/-!
# Integers are read as the numbers they are written for

Main statement: `scan_integer`. `IntegerText` says how a number is written in a radix:
behind the mark of the radix, with zeros in front or not, with digits of either case and
with gaps. However it is written, and whatever type stands behind it, the scanner makes
one integer of it whose value is the number, if 63 bits hold it.

The scanner measures the parts of a number one after the other (`number_eq`). A type
begins with a letter that is no digit in any radix, no mark of a radix and no exponent, so
that each part ends in front of it.
-/

namespace Deriver

open Scan

/-! ## How integers are written -/

/-- Whether a byte is written for a digit; for those from ten on it is a letter of either
case. -/
def IsGlyph (d : Nat) (b : UInt8) : Prop :=
  ("0123456789abcdef" : Text)[d]? = some b ∨ ("0123456789ABCDEF" : Text)[d]? = some b

/-- How a number may be written in a radix: its digits in order, zeros in front of them or
not, and behind the first digit gaps anywhere. -/
inductive Numeral (radix : Nat) : Nat → Text → Prop where
  | first {d : Nat} {b : UInt8} (hd : d < radix) (hb : IsGlyph d b) : Numeral radix d [b]
  | digit {n d : Nat} {t : Text} {b : UInt8} (h : Numeral radix n t) (hd : d < radix)
      (hb : IsGlyph d b) : Numeral radix (n * radix + d) (t ++ [b])
  | gap {n : Nat} {t : Text} (h : Numeral radix n t) : Numeral radix n (t ++ [95])

/-- The radixes other than ten, each with the letter that announces it behind a zero. -/
def radixMarks : List (Nat × UInt8) := [(2, 98), (8, 111), (16, 120)]

/-- How a number may be written as an integer without a type. Behind the mark of a radix
gaps may stand in front of the first digit too. -/
inductive IntegerText : Nat → Nat → Text → Prop where
  | decimal {n : Nat} {t : Text} (h : Numeral 10 n t) : IntegerText 10 n t
  | marked {radix n : Nat} {mark : UInt8} {t : Text} (hmark : (radix, mark) ∈ radixMarks)
      (gaps : Nat) (h : Numeral radix n t) :
      IntegerText radix n (48 :: mark :: (List.replicate gaps 95 ++ t))

/-- The types that an integer may name behind its digits. -/
def integerTypes : List Text :=
  ["u8", "u16", "u32", "u64", "u128", "usize", "i8", "i16", "i32", "i64", "i128", "isize"]

theorem IsGlyph.hexDigit? {d : Nat} {b : UInt8} (h : IsGlyph d b) :
    Text.hexDigit? b = some d := by
  have hall : ∀ d < 16, ("0123456789abcdef" : Text)[d]?.bind Text.hexDigit? = some d ∧
      ("0123456789ABCDEF" : Text)[d]?.bind Text.hexDigit? = some d := by decide
  rcases h with h | h
  all_goals
    have hlt : d < 16 := (List.getElem?_eq_some_iff.mp h).1
    have hd := hall d hlt
    rw [h] at hd
  · exact hd.1
  · exact hd.2

/-! ## Numerals -/

namespace Text

theorem digits?_append {radix : Nat} (n : Nat) (s t : Text) :
    digits? radix n (s ++ t) = (digits? radix n s).bind fun m => digits? radix m t := by
  induction s generalizing n with
  | nil => rfl
  | cons b s ih =>
      rw [List.cons_append, digits?, digits?]
      split
      · split
        · exact ih _
        · rfl
      · rfl

end Text

namespace Numeral

variable {radix n : Nat} {t : Text}

/-- Without its gaps a numeral is a row of digits that makes the number. -/
theorem value (h : Numeral radix n t) :
    Text.digits? radix 0 (t.filter (· ≠ 95)) = some n := by
  have hplain {d : Nat} {b : UInt8} (hb : IsGlyph d b) : b ≠ 95 := by
    rintro rfl
    cases hb.hexDigit?
  have hone {m d : Nat} {b : UInt8} (hd : d < radix) (hb : IsGlyph d b) :
      Text.digits? radix m [b] = some (m * radix + d) := by
    simp [Text.digits?, hb.hexDigit?, hd]
  induction h with
  | first hd hb =>
      simpa [hplain hb] using hone (m := 0) hd hb
  | digit h hd hb ih =>
      rw [List.filter_append, Text.digits?_append, ih]
      simpa [hplain hb] using hone hd hb
  | gap h ih => simpa [List.filter_append] using ih

/-- A numeral begins with a digit, and goes on with digits and gaps. -/
theorem cons (h : Numeral radix n t) : ∃ b u, t = b :: u ∧ isDigitIn radix b = true ∧
    ∀ c ∈ u, (isDigitIn radix c || c == 95) = true := by
  have hdigit {d : Nat} {b : UInt8} (hd : d < radix) (hb : IsGlyph d b) :
      isDigitIn radix b = true := by
    simp [isDigitIn, hb.hexDigit?, hd]
  induction h with
  | first hd hb => exact ⟨_, [], rfl, hdigit hd hb, List.forall_mem_nil _⟩
  | digit h hd hb ih =>
      obtain ⟨b, u, rfl, hfirst, hu⟩ := ih
      refine ⟨b, _, List.cons_append .., hfirst, List.forall_mem_append.mpr ⟨hu, ?_⟩⟩
      exact List.forall_mem_singleton.mpr (by rw [hdigit hd hb]; rfl)
  | gap h ih =>
      obtain ⟨b, u, rfl, hfirst, hu⟩ := ih
      refine ⟨b, _, List.cons_append .., hfirst, List.forall_mem_append.mpr ⟨hu, ?_⟩⟩
      exact List.forall_mem_singleton.mpr (by simp)

theorem toNat? (h : Numeral radix n t) :
    Text.toNat? (t.filter (· ≠ 95)) radix = some n := by
  obtain ⟨b, u, rfl, hb, -⟩ := h.cons
  have hplain : b ≠ 95 := by
    rintro rfl
    cases hb
  have hne : (b :: u).filter (· ≠ 95) ≠ [] := by simp [hplain]
  rw [Text.toNat?, List.isEmpty_eq_false_iff.mpr hne]
  exact h.value

end Numeral

namespace Scan

variable {radix : Nat} {first : UInt8} {whole suffix : Text}

/-! ## Suffixes -/

theorem integerType_head (h : suffix ∈ [] :: integerTypes) :
    ∀ c, suffix.head? = some c → c = 105 ∨ c = 117 := by
  have hall : (([] :: integerTypes).all fun s =>
      s.head?.all fun c => c == 105 || c == 117) = true := by decide
  intro c hc
  have hhead := List.all_eq_true.mp hall suffix h
  rw [hc] at hhead
  simpa using hhead

theorem integerType_size (h : suffix ∈ [] :: integerTypes) :
    suffixSize suffix = suffix.length := by
  have hall : ∀ s ∈ [] :: integerTypes, suffixSize s = s.length := by decide
  exact hall suffix h

theorem integerType_ne_float (h : suffix ∈ [] :: integerTypes) :
    (suffix == "f32") = false ∧ (suffix == "f64") = false := by
  have hall : ∀ s ∈ [] :: integerTypes, (s == "f32") = false ∧
      (s == "f64") = false := by decide
  exact hall suffix h

theorem run_whole {p : UInt8 → Bool} (hwhole : ∀ c ∈ whole, p c = true)
    (hsuffix : ∀ c, suffix.head? = some c → p c = false) :
    run p (whole ++ suffix) = whole.length := by
  rw [run, List.takeWhile_append_of_pos hwhole, List.length_append]
  cases suffix with
  | nil => rfl
  | cons c suffix => simp [hsuffix c rfl]

theorem lexeme_digit (h : Text.isDigitByte first = true) (rest : Text) :
    lexeme first rest = number first rest := by
  rw [lexeme_alphaNum (by rw [isAlphaNum, h, Bool.or_true]), wordLike, if_pos h]

/-- A number whose digits go up to a type is an integer without faults. -/
theorem number_of_whole (hradix : radixOf first (whole ++ suffix) = radix)
    (hsize : wholeSize radix (whole ++ suffix) = whole.length)
    (h : suffix ∈ [] :: integerTypes) : number first (whole ++ suffix) =
      ⟨(whole ++ suffix).length,
        some (.int, ((Text.toNat? (if radix = 10 then (first :: whole).filter (· ≠ 95)
          else ((first :: whole).filter (· ≠ 95)).drop 2) radix).filter
          (· < Nat.pow 2 63)).map .int),
        []⟩ := by
  have hhead := integerType_head h
  have hfraction : fractionOf first (whole ++ suffix) = 0 := by
    rw [fractionOf, hradix, hsize, List.drop_left]
    cases suffix with
    | nil => simp [fractionSize]
    | cons c s => rcases hhead c rfl with rfl | rfl <;> simp [fractionSize]
  have hmantissa : mantissaOf first (whole ++ suffix) = whole.length := by
    rw [mantissaOf, hradix, hsize, hfraction, Nat.add_zero]
  have hexponent : exponentOf first (whole ++ suffix) = none := by
    rw [exponentOf, hmantissa, List.drop_left, exponentSize?_other, ite_self]
    intro c hc
    rcases hhead c hc with rfl | rfl <;> decide
  have hbody : bodyOf first (whole ++ suffix) = whole.length := by
    rw [bodyOf, hmantissa, hexponent]
    rfl
  have hsuffix : suffixOf first (whole ++ suffix) = suffix := by
    rw [suffixOf, hbody, List.drop_left, integerType_size h, List.take_length]
  obtain ⟨h32, h64⟩ := integerType_ne_float h
  rw [number_eq, hexponent]
  dsimp only
  rw [hradix, hfraction, hbody, hsuffix, List.take_left, numberToken, h32, h64]
  simp

end Scan

theorem filter_value (n : Nat) :
    ((some n).filter (· < Nat.pow 2 63)).map Literal.int =
      if n < Nat.pow 2 63 then some (.int n) else none := by
  by_cases h : n < Nat.pow 2 63
  · rw [Option.filter_some, if_pos (decide_eq_true h), if_pos h]
    rfl
  · rw [Option.filter_some, if_neg (mt of_decide_eq_true h), if_neg h]
    rfl

theorem integerType_not_digit {radix : Nat} {suffix : Text}
    (h : suffix ∈ [] :: integerTypes) :
    ∀ c, suffix.head? = some c → (isDigitIn radix c || c == 95) = false := by
  intro c hc
  rcases integerType_head h c hc with rfl | rfl <;> rfl

namespace Numeral

variable {radix n : Nat} {t suffix : Text}

theorem lexeme_decimal (h : Numeral 10 n t) (hsuffix : suffix ∈ [] :: integerTypes) :
    ∃ b u, t = b :: u ∧ lexeme b (u ++ suffix) =
      ⟨(u ++ suffix).length, some (.int, if n < Nat.pow 2 63 then some (.int n) else none),
      []⟩ := by
  obtain ⟨b, u, rfl, hb, hu⟩ := h.cons
  have hdigit : Text.isDigitByte b = true := by
    have hall : ∀ b : UInt8, isDigitIn 10 b = true → Text.isDigitByte b = true :=
      forall_byte (by decide +kernel)
    exact hall b hb
  have hrest : ∀ c, (u ++ suffix).head? = some c → c ≠ 120 ∧ c ≠ 111 ∧ c ≠ 98 := by
    intro c hc
    rw [List.head?_append, Option.or_eq_some_iff] at hc
    rcases hc with hc | ⟨-, hc⟩
    · have := hu c (List.mem_of_mem_head? hc)
      refine ⟨?_, ?_, ?_⟩ <;> rintro rfl <;> exact absurd this (by decide)
    · rcases integerType_head hsuffix c hc with rfl | rfl <;> decide
  have hradix : radixOf b (u ++ suffix) = 10 := by
    unfold radixOf
    split
    · split
      · next hc => exact absurd rfl (hrest _ hc).1
      · next hc => exact absurd rfl (hrest _ hc).2.1
      · next hc => exact absurd rfl (hrest _ hc).2.2
      · rfl
    · rfl
  have hsize : wholeSize 10 (u ++ suffix) = u.length := by
    rw [wholeSize, if_pos rfl, Nat.zero_add]
    exact run_whole hu (integerType_not_digit hsuffix)
  refine ⟨b, u, rfl, ?_⟩
  rw [lexeme_digit hdigit, number_of_whole hradix hsize hsuffix, if_pos rfl,
    h.toNat?, filter_value]

end Numeral

namespace IntegerText

variable {radix n : Nat} {t suffix : Text}

theorem lexeme_marked {mark : UInt8} (hmark : (radix, mark) ∈ radixMarks) (gaps : Nat)
    (h : Numeral radix n t) (hsuffix : suffix ∈ [] :: integerTypes) :
    lexeme 48 (mark :: (List.replicate gaps 95 ++ t) ++ suffix) =
      ⟨(mark :: (List.replicate gaps 95 ++ t) ++ suffix).length,
        some (.int, if n < Nat.pow 2 63 then some (.int n) else none), []⟩ := by
  have hmarks : ∀ e ∈ radixMarks, e.1 ≠ 10 ∧ e.2 ≠ 95 ∧ radixOf 48 [e.2] = e.1 := by decide
  obtain ⟨hten, hgap, hradix⟩ := hmarks _ hmark
  have hwhole : ∀ c ∈ List.replicate gaps 95 ++ t,
      (isDigitIn radix c || c == 95) = true := by
    obtain ⟨b, u, rfl, hb, hu⟩ := h.cons
    refine List.forall_mem_append.mpr ⟨fun c hc => ?_, List.forall_mem_cons.mpr ⟨?_, hu⟩⟩
    · rw [List.eq_of_mem_replicate hc]
      exact Bool.or_true _
    · rw [hb, Bool.true_or]
  have hsize : wholeSize radix (mark :: (List.replicate gaps 95 ++ t) ++ suffix) =
      (mark :: (List.replicate gaps 95 ++ t)).length := by
    rw [wholeSize, if_neg hten, List.cons_append, List.drop_succ_cons, List.drop_zero,
      run_whole hwhole (integerType_not_digit hsuffix), List.length_cons, Nat.add_comm]
  have hdigits : ((48 :: mark :: (List.replicate gaps 95 ++ t)).filter (· ≠ 95)).drop 2 =
      t.filter (· ≠ 95) := by
    simp [hgap]
  rw [lexeme_digit (by decide), number_of_whole hradix hsize hsuffix, if_neg hten, hdigits,
    h.toNat?, filter_value]

theorem lexeme (h : IntegerText radix n t) (hsuffix : suffix ∈ [] :: integerTypes) :
    ∃ b u, t = b :: u ∧ lexeme b (u ++ suffix) =
      ⟨(u ++ suffix).length, some (.int, if n < Nat.pow 2 63 then some (.int n) else none),
      []⟩ := by
  cases h with
  | decimal h => exact h.lexeme_decimal hsuffix
  | marked hmark gaps h => exact ⟨48, _, rfl, lexeme_marked hmark gaps h hsuffix⟩

end IntegerText

/-- However a number is written as an integer, and with whatever type behind it or none,
it is scanned without error as one integer. The value is the number, if that is below `2 ^
63`, and there is none otherwise. -/
theorem scan_integer {radix n : Nat} {t suffix : Text} (h : IntegerText radix n t)
    (hsuffix : suffix ∈ [] :: integerTypes) :
    scan (t ++ suffix) =
      ⟨[⟨.int, t ++ suffix, if n < Nat.pow 2 63 then some (.int n) else none, .start, 0⟩,
        endOf (t ++ suffix)], []⟩ := by
  obtain ⟨b, u, rfl, hlexeme⟩ := h.lexeme hsuffix
  refine scan_of_pieces ?_
  rw [List.cons_append, pieces_cons, piece, hlexeme, List.take_length,
    List.drop_length, pieces_nil]
  rfl

/-- Gaps behind the mark and within, letters of either case, and a type. -/
theorem scan_integer_gaps :
    IntegerText 16 4080 "0x_fF_0" ∧ ("u128" : Text) ∈ [] :: integerTypes ∧
      scan "0x_fF_0u128" =
        ⟨[⟨.int, "0x_fF_0u128", some (.int 4080), .start, 0⟩, endOf "0x_fF_0u128"],
        []⟩ := by
  have hnumeral : Numeral 16 4080 "fF_0" :=
    (((Numeral.first (d := 15) (b := 102) (by decide) (.inl (by decide))).digit
      (d := 15) (b := 70) (by decide) (.inr (by decide))).gap).digit
      (d := 0) (b := 48) (by decide) (.inl (by decide))
  have h : IntegerText 16 4080 "0x_fF_0" := .marked (by decide) 1 hnumeral
  have hsuffix : ("u128" : Text) ∈ [] :: integerTypes := by decide
  exact ⟨h, hsuffix, scan_integer h hsuffix⟩

/-- The first number without a value, and the last one with one. -/
example : ((scan "9223372036854775808 0o777777777777777777777").tokens.map (·.value)) =
    [none, some (.int 9223372036854775807), none] := by decide

end Deriver
