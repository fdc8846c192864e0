import Deriver.Proofs.Token.Boundary

/-!
# A number ends where it ends

The scanner measures the parts of a number one after the other: digits, a
fraction, an exponent, a suffix. Each part is read from what the ones before it
have left, so each has a lemma of its own saying that it does not change when
the bytes behind the number do, and `number_replace` puts them together.
`number_eq` writes the scanner with these parts named.
-/

namespace Deriver.Scan

variable {r s s' : Text}

/-! ## The parts of a number -/

theorem wholeSize_replace {radix : Nat} (h : wholeSize radix (r ++ s) ≤ r.length)
    (hs : ∀ c, s'.head? = some c → c ∈ separators) :
    wholeSize radix (r ++ s') = wholeSize radix (r ++ s) := by
  have hstop : ∀ c, s'.head? = some c → (isDigitIn radix c || c == 95) = false :=
    fun c hc => by
    have hsep := hs c hc
    have h95 : c ≠ 95 := by rintro rfl; exact not_mark_of_separator hsep (by decide)
    simp [isDigitIn, not_hex_of_separator hsep, h95]
  by_cases hr : radix = 10
  · simp only [wholeSize, if_pos hr, List.drop_zero, Nat.zero_add] at h ⊢
    exact run_replace h hstop
  · simp only [wholeSize, if_neg hr] at h ⊢
    cases r with
    | nil => rw [List.length_nil] at h; omega
    | cons b r =>
        simp only [List.cons_append, List.drop_succ_cons, List.drop_zero,
          List.length_cons] at h ⊢
        have hrun : run (fun b => isDigitIn radix b || b == 95) (r ++ s) ≤ r.length := by
          omega
        rw [run_replace hrun hstop]

theorem isDigitByte_of_separator {c : UInt8} (h : c ∈ separators) :
    Text.isDigitByte c = false := by
  simpa using of_separator (p := fun c => !Text.isDigitByte c) (by decide) h

theorem isDigitOrGap_of_separator {c : UInt8} (h : c ∈ separators) :
    isDigitOrGap c = false := by
  simpa using of_separator (p := fun c => !isDigitOrGap c) (by decide) h

theorem fractionSize_replace (h : fractionSize (r ++ s) ≤ r.length)
    (hs : ∀ c, s'.head? = some c → c ∈ separators) :
    fractionSize (r ++ s') = fractionSize (r ++ s) := by
  have hpoint {t : Text} (ht : t.head? ≠ some 46) : fractionSize t = 0 := by
    unfold fractionSize
    split
    · exact absurd rfl ht
    · rfl
  match r with
  | [] =>
      rw [List.nil_append] at h
      rw [List.nil_append, List.nil_append, Nat.le_zero.mp h]
      refine hpoint fun hc => ?_
      exact absurd (hs 46 hc) (by decide)
  | [b] =>
      simp only [List.cons_append, List.nil_append] at h ⊢
      by_cases hb : b = 46
      · subst hb
        have hzero : fractionSize (46 :: s) = 0 := by
          cases s with
          | nil => rfl
          | cons c s =>
              rw [fractionSize] at h ⊢
              split
              · next hc =>
                  rw [if_pos hc] at h
                  have hgap : isDigitOrGap c = true := by
                    rw [isDigitOrGap, hc, Bool.true_or]
                  rw [run, List.takeWhile_cons_of_pos hgap, List.length_cons] at h
                  simp only [List.length_cons, List.length_nil] at h
                  omega
              · rfl
        rw [hzero]
        cases s' with
        | nil => rfl
        | cons c s' =>
            rw [fractionSize, isDigitByte_of_separator (hs c rfl), if_neg (by decide)]
      · rw [hpoint (by simpa using hb), hpoint (by simpa using hb)]
  | b :: c :: r =>
      simp only [List.cons_append] at h ⊢
      by_cases hb : b = 46
      · subst hb
        rw [fractionSize] at h ⊢
        rw [fractionSize]
        split
        · next hc =>
            rw [if_pos hc] at h
            have hrun : run isDigitOrGap ((c :: r) ++ s) ≤ (c :: r).length := by
              rw [List.cons_append, List.length_cons]
              simp only [List.length_cons] at h
              omega
            exact congrArg (1 + ·)
              (run_replace hrun fun c hc => isDigitOrGap_of_separator (hs c hc))
        · rfl
      · rw [hpoint (by simpa using hb), hpoint (by simpa using hb)]

theorem exponentSize?_other {t : Text} (h : ∀ c, t.head? = some c → c ≠ 101 ∧ c ≠ 69) :
    exponentSize? t = none := by
  cases t with
  | nil => rfl
  | cons c t =>
      obtain ⟨h1, h2⟩ := h c rfl
      simp [exponentSize?, h1, h2]

/-- How many bytes the sign at the front takes. -/
def signSize (t : Text) : Nat := if t.head? = some 43 ∨ t.head? = some 45 then 1 else 0

theorem exponentSize?_cons {e : UInt8} {t : Text} (h : e = 101 ∨ e = 69) :
    exponentSize? (e :: t) =
      some (if (t.drop (signSize t)).head?.any Text.isDigitByte then
          (1 + signSize t + run isDigitOrGap (t.drop (signSize t)), true)
        else (1 + signSize t, false)) := by
  have he : (decide (e = 101) || decide (e = 69)) = true := by simpa using h
  have hdigits (n : Nat) (hn : n = signSize t) (x : Option (Nat × Bool))
      (hnone : (t.drop n).head? = none → x = some (1 + n, false))
      (hsome : ∀ d, (t.drop n).head? = some d → x = if Text.isDigitByte d then
        some (1 + n + run isDigitOrGap (t.drop n), true) else some (1 + n, false)) :
      x = some (if (t.drop (signSize t)).head?.any Text.isDigitByte then
          (1 + signSize t + run isDigitOrGap (t.drop (signSize t)), true)
        else (1 + signSize t, false)) := by
    subst hn
    cases hd : (t.drop (signSize t)).head? with
    | none => exact hnone hd
    | some d =>
        rw [hsome d hd, Option.any_some]
        split <;> rfl
  unfold exponentSize?
  simp only [he, if_true]
  refine hdigits _ ?_ _ (fun hnone => by rw [hnone]) fun d hd => by rw [hd]
  unfold signSize
  split <;> simp_all

/-- An exponent that is complete takes its mark and at least one digit. -/
theorem exponentSize?_bounds {e : UInt8} {t : Text} (h : e = 101 ∨ e = 69) {m : Nat}
    (hb : ∀ n ok, exponentSize? (e :: t) = some (n, ok) → ok = true ∧ n ≤ m + 1) :
    signSize t + run isDigitOrGap (t.drop (signSize t)) ≤ m ∧
      0 < run isDigitOrGap (t.drop (signSize t)) := by
  rw [exponentSize?_cons h] at hb
  split at hb
  · next hdigit =>
      have hsize := (hb _ _ rfl).2
      refine ⟨by omega, ?_⟩
      cases hd : t.drop (signSize t) with
      | nil => rw [hd] at hdigit; cases hdigit
      | cons c u =>
          rw [hd] at hdigit
          have hgap : isDigitOrGap c = true := by
            rw [isDigitOrGap, show Text.isDigitByte c = true from hdigit, Bool.true_or]
          rw [run, List.takeWhile_cons_of_pos hgap]
          exact Nat.succ_pos _
  · exact absurd (hb _ _ rfl).1 (by decide)

theorem exponentSize?_replace
    (h : ∀ n ok, exponentSize? (r ++ s) = some (n, ok) → ok = true ∧ n ≤ r.length)
    (hs : ∀ c, s'.head? = some c → c ∈ separators) :
    exponentSize? (r ++ s') = exponentSize? (r ++ s) := by
  cases r with
  | nil =>
      rw [List.nil_append] at h
      rw [List.nil_append, List.nil_append, exponentSize?_other (t := s'),
        exponentSize?_other]
      · intro c hc
        rw [← not_or]
        intro he
        obtain ⟨t, rfl⟩ := List.head?_eq_some_iff.mp hc
        rw [exponentSize?_cons he] at h
        split at h
        · have := (h _ _ rfl).2
          rw [List.length_nil] at this
          omega
        · exact absurd (h _ _ rfl).1 (by decide)
      · intro c hc
        have := not_alphaNum_of_separator (hs c hc)
        refine ⟨?_, ?_⟩ <;> rintro rfl <;> revert this <;> decide
  | cons e r =>
      rw [List.cons_append] at h
      rw [List.cons_append, List.cons_append]
      by_cases he : e = 101 ∨ e = 69
      · obtain ⟨hsum, hpos⟩ := exponentSize?_bounds he h
        have hlt : signSize (r ++ s) < r.length := by omega
        have hsign : signSize (r ++ s') = signSize (r ++ s) := by
          cases r with
          | nil => rw [List.length_nil] at hlt; omega
          | cons y r => rfl
        obtain ⟨y, t, hlen, hdrop⟩ := exists_drop_append hlt
        have hrun : run isDigitOrGap (y :: t ++ s') = run isDigitOrGap (y :: t ++ s) := by
          refine run_replace ?_ fun c hc => isDigitOrGap_of_separator (hs c hc)
          rw [hdrop] at hsum
          rw [List.cons_append, List.length_cons]
          omega
        rw [exponentSize?_cons he, exponentSize?_cons he, hsign, hdrop, hdrop,
          ← List.cons_append, ← List.cons_append, hrun]
        rfl
      · have he' (t : Text) : ∀ c, (e :: t).head? = some c → c ≠ 101 ∧ c ≠ 69 := by
          rintro c hc
          cases hc
          exact not_or.mp he
        rw [exponentSize?_other (he' _), exponentSize?_other (he' _)]

theorem suffixSize_replace (h : suffixSize (r ++ s) ≤ r.length)
    (hs : ∀ c, s'.head? = some c → c ∈ separators) :
    suffixSize (r ++ s') = suffixSize (r ++ s) := by
  have halpha : ∀ c, s'.head? = some c → isAlphaNum c = false := fun c hc =>
    not_alphaNum_of_separator (hs c hc)
  cases r with
  | nil =>
      rw [List.nil_append] at h
      rw [List.nil_append, List.nil_append, Nat.le_zero.mp h]
      cases s' with
      | nil => rfl
      | cons c s' =>
          have hc : isAlpha c = false := by
            have := halpha c rfl
            rw [isAlphaNum, Bool.or_eq_false_iff] at this
            exact this.1
          simp [suffixSize, hc]
  | cons b r =>
      simp only [suffixSize, List.cons_append, List.head?_cons] at h ⊢
      split
      · next hb =>
          rw [if_pos hb] at h
          exact run_replace (r := b :: r) h halpha
      · rfl

theorem suffixSize_le (t : Text) : suffixSize t ≤ t.length := by
  unfold suffixSize
  split
  · split
    · exact run_le _ _
    · exact Nat.zero_le _
  · exact Nat.zero_le _

/-! ## The number as a whole -/

/-- The token of a number of `total` bytes behind its first, once its parts are
known: `written` is all but the suffix. -/
def numberToken (radix : Nat) (broken : Bool) (written suffix whole : Text) (total : Nat) :
    Lexeme :=
  let digits := written.filter (· ≠ 95)
  if broken || suffix == "f32" || suffix == "f64" then
    match if radix = 10 then decimal? digits else none with
    | some bits => ⟨total, some (.float, some (.float bits)), []⟩
    | none => .faulty (.badFloat whole) total
  else
    let value := Text.toNat? (if radix = 10 then digits else digits.drop 2) radix
    ⟨total, some (.int, (value.filter (· < Nat.pow 2 63)).map .int), []⟩

theorem numberToken_size (radix : Nat) (broken : Bool) (written suffix whole : Text)
    (total : Nat) : (numberToken radix broken written suffix whole total).size = total := by
  simp only [numberToken]
  split
  · split <;> rfl
  · rfl

/-- How many bytes the fraction of a number takes. -/
def fractionOf (first : UInt8) (rest : Text) : Nat :=
  if radixOf first rest = 10 then
    fractionSize (rest.drop (wholeSize (radixOf first rest) rest))
  else 0

/-- How many bytes a number takes in front of its exponent. -/
def mantissaOf (first : UInt8) (rest : Text) : Nat :=
  wholeSize (radixOf first rest) rest + fractionOf first rest

/-- The exponent of a number. -/
def exponentOf (first : UInt8) (rest : Text) : Option (Nat × Bool) :=
  if radixOf first rest = 10 then exponentSize? (rest.drop (mantissaOf first rest))
    else none

/-- How many bytes a number takes in front of its suffix. -/
def bodyOf (first : UInt8) (rest : Text) : Nat :=
  mantissaOf first rest + ((exponentOf first rest).map (·.1)).getD 0

/-- The suffix of a number. -/
def suffixOf (first : UInt8) (rest : Text) : Text :=
  (rest.drop (bodyOf first rest)).take (suffixSize (rest.drop (bodyOf first rest)))

theorem number_eq (first : UInt8) (rest : Text) :
    number first rest =
      match exponentOf first rest with
      | some (n, false) => .faulty .emptyExponent (mantissaOf first rest + n)
      | exponent =>
          numberToken (radixOf first rest) (fractionOf first rest ≠ 0 || exponent.isSome)
            (first :: rest.take (bodyOf first rest)) (suffixOf first rest)
            (first :: rest.take (bodyOf first rest + (suffixOf first rest).length))
            (bodyOf first rest + (suffixOf first rest).length) := by
  cases hexp : exponentOf first rest with
  | none =>
      simp only [bodyOf, suffixOf, hexp]
      simp only [exponentOf, mantissaOf, fractionOf] at hexp
      simp only [number, numberToken, mantissaOf, fractionOf, hexp]
      rfl
  | some e =>
      obtain ⟨n, ok⟩ := e
      simp only [bodyOf, suffixOf, hexp]
      simp only [exponentOf, mantissaOf, fractionOf] at hexp
      cases ok with
      | false => simp only [number, mantissaOf, fractionOf, hexp]
      | true =>
          simp only [number, numberToken, mantissaOf, fractionOf, hexp]
          rfl

theorem number_size {first : UInt8} {rest : Text} (hf : (number first rest).faults = []) :
    (∀ n ok, exponentOf first rest = some (n, ok) → ok = true) ∧
      (number first rest).size = bodyOf first rest +
      suffixSize (rest.drop (bodyOf first rest)) := by
  rw [number_eq] at hf ⊢
  split at hf
  · cases hf
  · next hexp =>
      refine ⟨fun n ok h => ?_, ?_⟩
      · cases ok with
        | true => rfl
        | false => exact absurd h (hexp n)
      · rw [numberToken_size, suffixOf, List.length_take, Nat.min_eq_left (suffixSize_le _)]

theorem radixOf_replace {first : UInt8} (h : r = [] → radixOf first s = 10)
    (hs : ∀ c, s'.head? = some c → c ∈ separators) :
    radixOf first (r ++ s') = radixOf first (r ++ s) := by
  cases r with
  | nil =>
      rw [List.nil_append, List.nil_append, h rfl]
      unfold radixOf
      split
      · split
        · next hc => exact absurd (hs _ hc) (by decide)
        · next hc => exact absurd (hs _ hc) (by decide)
        · next hc => exact absurd (hs _ hc) (by decide)
        · rfl
      · rfl
  | cons b r => rfl

theorem number_replace {first : UInt8} (hf : (number first (r ++ s)).faults = [])
    (hn : (number first (r ++ s)).size ≤ r.length)
    (hs : ∀ c, s'.head? = some c → c ∈ separators) :
    number first (r ++ s') = number first (r ++ s) := by
  obtain ⟨hok, hsize⟩ := number_size hf
  rw [hsize] at hn
  have hwholeSize : wholeSize (radixOf first (r ++ s)) (r ++ s) ≤ r.length := by
    simp only [bodyOf, mantissaOf] at hn
    omega
  have hradix : radixOf first (r ++ s') = radixOf first (r ++ s) := by
    refine radixOf_replace (fun hr => ?_) hs
    subst hr
    by_contra hne
    simp only [wholeSize, List.nil_append, if_neg hne, List.length_nil] at hwholeSize
    omega
  have hwhole : wholeSize (radixOf first (r ++ s')) (r ++ s')
      = wholeSize (radixOf first (r ++ s)) (r ++ s) := by
    rw [hradix]
    exact wholeSize_replace hwholeSize hs
  -- every part begins within `r`, so it is read from a rest of `r` and what follows
  have hdrop {n : Nat} (hle : n ≤ r.length) (t : Text) : (r ++ t).drop n = r.drop n ++ t :=
    List.drop_append_of_le_length hle
  have hfraction : fractionOf first (r ++ s') = fractionOf first (r ++ s) := by
    rw [fractionOf, fractionOf, hwhole, hradix]
    split
    · next h10 =>
        rw [hdrop hwholeSize, hdrop hwholeSize]
        refine fractionSize_replace ?_ hs
        rw [← hdrop hwholeSize, List.length_drop]
        simp only [bodyOf, mantissaOf, fractionOf, if_pos h10] at hn
        omega
    · rfl
  have hmantissa : mantissaOf first (r ++ s') = mantissaOf first (r ++ s) := by
    simp only [mantissaOf, hwhole, hfraction]
  have hexponent : exponentOf first (r ++ s') = exponentOf first (r ++ s) := by
    have hle : mantissaOf first (r ++ s) ≤ r.length := by
      simp only [bodyOf] at hn
      omega
    simp only [exponentOf, hmantissa, hradix]
    split
    · next h10 =>
        rw [hdrop hle, hdrop hle]
        refine exponentSize?_replace (fun n ok h => ?_) hs
        rw [← hdrop hle] at h
        have hexp : exponentOf first (r ++ s) = some (n, ok) := by
          rw [exponentOf, if_pos h10]
          exact h
        refine ⟨hok n ok hexp, ?_⟩
        simp only [bodyOf, hexp, Option.map_some, Option.getD_some] at hn
        rw [List.length_drop]
        omega
    · rfl
  have hbody : bodyOf first (r ++ s') = bodyOf first (r ++ s) := by
    simp only [bodyOf, hmantissa, hexponent]
  have hle : bodyOf first (r ++ s) ≤ r.length := by omega
  have hsuffixSize : suffixSize ((r ++ s').drop (bodyOf first (r ++ s)))
      = suffixSize ((r ++ s).drop (bodyOf first (r ++ s))) := by
    rw [hdrop hle, hdrop hle]
    refine suffixSize_replace ?_ hs
    rw [← hdrop hle, List.length_drop]
    omega
  have hsuffix : suffixOf first (r ++ s') = suffixOf first (r ++ s) := by
    rw [suffixOf, suffixOf, hbody, hsuffixSize, hdrop hle, hdrop hle]
    refine take_replace ?_
    rw [← hdrop hle, List.length_drop]
    omega
  have htotal : bodyOf first (r ++ s) + (suffixOf first (r ++ s)).length ≤ r.length := by
    rw [suffixOf, List.length_take]
    omega
  rw [number_eq, number_eq, hradix, hfraction, hmantissa, hexponent, hbody, hsuffix,
    take_replace (s := s) hle, take_replace (s := s) htotal]

end Deriver.Scan

