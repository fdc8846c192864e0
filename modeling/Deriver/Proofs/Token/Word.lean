import Mathlib.Data.List.TakeWhile
import Deriver.Proofs.Token.Number
import Deriver.Proofs.Token.Quote

/-!
# Names and lettered literals end where they end

An `r`, `b` or `c` begins a name unless a quote follows, or hashes and a quote,
or, behind the `b`, an `r` and one of these. Each of the three letters has an
equation of its own here; behind any other byte there is nothing to decide.
-/

namespace Deriver.Scan

variable {r s s' : Text}

/-! ## Names -/

theorem word_size (first : UInt8) (rest : Text) :
    (word first rest).size = run isAlphaNum rest := by
  simp only [word]
  split <;> rfl

theorem word_replace {first : UInt8} (hn : (word first (r ++ s)).size ≤ r.length)
    (hs : ∀ c, s'.head? = some c → c ∈ separators) :
    word first (r ++ s') = word first (r ++ s) := by
  rw [word_size] at hn
  have hrun := run_replace hn fun c hc => not_alphaNum_of_separator (hs c hc)
  have htake : (r ++ s').take _ = (r ++ s).take _ := take_replace hn
  simp only [word, hrun, htake]

/-! ## Raw strings -/

theorem rawString_size {t : Text} (hf : (rawString t).faults = []) :
    2 * run (· == 35) t + 2 ≤ (rawString t).size := by
  simp only [rawString] at hf ⊢
  split at hf
  · split at hf
    · simp only
      omega
    · cases hf
  · cases hf

theorem opensRaw_replace
    (h : opensRaw (r ++ s) = true → run (· == 35) (r ++ s) < r.length)
    (hs : ∀ c, s'.head? = some c → c ∈ separators) :
    opensRaw (r ++ s') = opensRaw (r ++ s) := by
  simp only [opensRaw, List.dropWhile_append] at h ⊢
  split
  · next hall =>
      rw [if_pos hall] at h
      have hle : r.length ≤ run (· == 35) (r ++ s) := by
        rw [List.isEmpty_iff, List.dropWhile_eq_nil_iff] at hall
        rw [run, List.takeWhile_append_of_pos hall, List.length_append]
        exact Nat.le_add_right _ _
      have hfalse : ((s.dropWhile (· == 35)).head? == some 34) = false := by
        rw [← Bool.not_eq_true]
        exact fun hopen => Nat.not_lt.mpr hle (h hopen)
      rw [hfalse]
      cases s' with
      | nil => rfl
      | cons c s' =>
          have hc := not_mark_of_separator (hs c rfl)
          have h35 : c ≠ 35 := by rintro rfl; exact hc (by decide)
          have h34 : c ≠ 34 := by rintro rfl; exact hc (by decide)
          simp [h35, h34]
  · next hall =>
      cases hrest : r.dropWhile (· == 35) with
      | nil => rw [hrest] at hall; exact absurd rfl hall
      | cons c t => rfl

theorem faults_of_shift {l : Lexeme} {n : Nat} (h : (l.shift n).faults = []) :
    l.faults = [] := by
  simpa [Lexeme.shift] using h

theorem head?_ne_of_separators {t : Text} (h : ∀ c, t.head? = some c → c ∈ separators) :
    (t.head? == some 34) = false ∧ (t.head? == some 35) = false ∧
      (t.head? == some 39) = false ∧ (t.head? == some 114) = false := by
  simp only [beq_eq_false_iff_ne]
  refine ⟨?_, ?_, ?_, ?_⟩ <;> exact fun hhead => absurd (h _ hhead) (by decide)

theorem any_isAlpha_of_separators {t : Text} (h : ∀ c, t.head? = some c → c ∈ separators) :
    t.head?.any isAlpha = false := by
  cases t with
  | nil => rfl
  | cons c t =>
      have := not_alphaNum_of_separator (h c rfl)
      rw [isAlphaNum, Bool.or_eq_false_iff] at this
      exact this.1

/-! ## Literals with a letter in front -/

/-- What an `r` begins. -/
theorem wordLike_r (rest : Text) :
    wordLike 114 rest =
      if rest.head? == some 34 || (rest.head? == some 35 && opensRaw rest)
      then rawString rest
      else if rest.head? == some 35 && (rest.drop 1).head?.any isAlpha then
        .plain .ident (1 + run isAlphaNum (rest.drop 1))
      else word 114 rest := rfl

/-- What a `b` begins. -/
theorem wordLike_b (rest : Text) :
    wordLike 98 rest =
      if rest.head? == some 34 then (string (rest.drop 1)).shift 1
      else if rest.head? == some 114 &&
          ((rest.drop 1).head? == some 34 || (rest.drop 1).head? == some 35) then
        (rawString (rest.drop 1)).shift 1
      else if rest.head? == some 39 then (charLiteral (rest.drop 1)).shift 1
      else word 98 rest := rfl

/-- What a `c` begins. -/
theorem wordLike_c (rest : Text) :
    wordLike 99 rest =
      if rest.head? == some 34 then (string (rest.drop 1)).shift 1 else word 99 rest := rfl

theorem wordLike_other {first : UInt8} (hr : first ≠ 114) (hb : first ≠ 98)
    (hc : first ≠ 99) (rest : Text) :
    wordLike first rest =
      if Text.isDigitByte first then number first rest
      else if isAlpha first then word first rest
      else .faulty (.unexpected first) 0 := by
  simp [wordLike, hr, hb, hc]

/-- Whether an `r` begins a raw string is seen from the bytes up to the quote. -/
theorem beginsRaw_replace
    (h : ((r ++ s).head? == some 34 || ((r ++ s).head? == some 35 && opensRaw (r ++ s))) =
    true → run (· == 35) (r ++ s) < r.length)
    (hs : ∀ c, s'.head? = some c → c ∈ separators) :
    ((r ++ s').head? == some 34 || ((r ++ s').head? == some 35 && opensRaw (r ++ s'))) =
      ((r ++ s).head? == some 34 || ((r ++ s).head? == some 35 && opensRaw (r ++ s))) := by
  cases r with
  | nil =>
      obtain ⟨h34, h35, -, -⟩ := head?_ne_of_separators hs
      rw [List.nil_append, h34, h35, Bool.false_and, Bool.or_self, eq_comm,
        ← Bool.not_eq_true]
      exact fun hraw => absurd (h hraw) (Nat.not_lt_zero _)
  | cons b r =>
      have hhead (t : Text) : (b :: r ++ t).head? = some b := rfl
      rw [hhead] at h
      rw [hhead, hhead]
      cases h35 : (some b == some (35 : UInt8)) with
      | false => rfl
      | true =>
          rw [opensRaw_replace (fun hopen => h ?_) hs]
          rw [h35, hopen, Bool.and_self, Bool.or_true]

/-- Behind an `r` that begins no raw string: a name with the raw mark, or another one. -/
def rawName (rest : Text) : Lexeme :=
  if rest.head? == some 35 && (rest.drop 1).head?.any isAlpha then
    .plain .ident (1 + run isAlphaNum (rest.drop 1))
  else word 114 rest

theorem rawName_replace (hn : (rawName (r ++ s)).size ≤ r.length)
    (hs : ∀ c, s'.head? = some c → c ∈ separators) :
    rawName (r ++ s') = rawName (r ++ s) := by
  unfold rawName at hn ⊢
  -- the mark and the letter behind it decide, so the bytes are told apart up to the second
  rcases r with _ | ⟨b, _ | ⟨c, r⟩⟩
  · rw [List.nil_append] at hn ⊢
    rw [List.nil_append, (head?_ne_of_separators hs).2.1, Bool.false_and,
      if_neg (by decide)]
    split
    · next hname =>
        rw [if_pos hname] at hn
        exact absurd hn (by simp [Lexeme.plain])
    · next hname =>
        rw [if_neg hname] at hn
        exact word_replace (r := []) hn hs
  · simp only [List.cons_append, List.nil_append, List.head?_cons, List.drop_succ_cons,
      List.drop_zero] at hn ⊢
    rw [any_isAlpha_of_separators hs, Bool.and_false, if_neg (by decide)]
    split
    · next hname =>
        rw [if_pos hname] at hn
        obtain ⟨c, t, rfl⟩ : ∃ c t, s = c :: t := by
          cases s with
          | nil => simp at hname
          | cons c t => exact ⟨c, t, rfl⟩
        rw [Bool.and_eq_true] at hname
        have hc := isAlphaNum_of_alpha hname.2
        simp only [Lexeme.plain, run, List.takeWhile_cons_of_pos hc] at hn
        rw [List.length_cons, List.length_cons, List.length_nil] at hn
        omega
    · next hname =>
        rw [if_neg hname] at hn
        exact word_replace (r := [b]) hn hs
  · simp only [List.cons_append, List.head?_cons, List.drop_succ_cons,
      List.drop_zero] at hn ⊢
    split
    · next hname =>
        rw [if_pos hname] at hn
        have hn : run isAlphaNum (c :: r ++ s) ≤ (c :: r).length := by
          simp only [Lexeme.plain, List.cons_append, List.length_cons] at hn ⊢
          omega
        have hrun := run_replace hn fun c hc => not_alphaNum_of_separator (hs c hc)
        rw [List.cons_append, List.cons_append] at hrun
        rw [hrun]
    · next hname =>
        rw [if_neg hname] at hn
        exact word_replace (r := b :: c :: r) hn hs

theorem wordLike_r_replace (hf : (wordLike 114 (r ++ s)).faults = [])
    (hn : (wordLike 114 (r ++ s)).size ≤ r.length)
    (hs : ∀ c, s'.head? = some c → c ∈ separators) :
    wordLike 114 (r ++ s') = wordLike 114 (r ++ s) := by
  rw [wordLike_r] at hf hn
  rw [wordLike_r, wordLike_r, beginsRaw_replace (fun hraw => ?_) hs]
  · by_cases hraw : ((r ++ s).head? == some 34 ||
      ((r ++ s).head? == some 35 && opensRaw (r ++ s)))
        = true
    · rw [if_pos hraw] at hf hn
      rw [if_pos hraw, if_pos hraw]
      exact rawString_replace hf hn
    · rw [if_neg hraw] at hn
      rw [if_neg hraw, if_neg hraw]
      exact rawName_replace hn hs
  · rw [if_pos hraw] at hf hn
    have := rawString_size hf
    omega

theorem wordLike_c_replace (hf : (wordLike 99 (r ++ s)).faults = [])
    (hn : (wordLike 99 (r ++ s)).size ≤ r.length)
    (hs : ∀ c, s'.head? = some c → c ∈ separators) :
    wordLike 99 (r ++ s') = wordLike 99 (r ++ s) := by
  rw [wordLike_c] at hf hn
  rw [wordLike_c, wordLike_c]
  cases r with
  | nil =>
      simp only [List.nil_append, List.length_nil] at hf hn
      rw [List.nil_append, List.nil_append, (head?_ne_of_separators hs).1,
        if_neg (by decide)]
      split at hf
      · next hstr => rw [if_pos hstr] at hn; exact absurd hn (Nat.not_succ_le_zero _)
      · next hstr =>
          rw [if_neg hstr] at hn
          rw [if_neg hstr]
          exact word_replace (r := []) hn hs
  | cons b r =>
      simp only [List.cons_append, List.head?_cons, List.drop_succ_cons,
        List.drop_zero] at hf hn ⊢
      split
      · next hstr =>
          rw [if_pos hstr] at hf hn
          exact congrArg (Lexeme.shift 1)
            (string_replace (faults_of_shift hf) (Nat.le_of_succ_le_succ hn))
      · next hstr =>
          rw [if_neg hstr] at hn
          exact word_replace (r := b :: r) hn hs

theorem wordLike_b_replace (hf : (wordLike 98 (r ++ s)).faults = [])
    (hn : (wordLike 98 (r ++ s)).size ≤ r.length)
    (hs : ∀ c, s'.head? = some c → c ∈ separators) :
    wordLike 98 (r ++ s') = wordLike 98 (r ++ s) := by
  rw [wordLike_b] at hf hn
  rw [wordLike_b, wordLike_b]
  cases r with
  | nil =>
      simp only [List.nil_append, List.length_nil] at hf hn
      rw [List.nil_append, List.nil_append]
      obtain ⟨h34, -, h39, h114⟩ := head?_ne_of_separators hs
      simp only [h34, h39, h114, Bool.false_and, Bool.false_eq_true, if_false]
      split at hf
      · next hstr => rw [if_pos hstr] at hn; exact absurd hn (Nat.not_succ_le_zero _)
      · next hstr =>
          rw [if_neg hstr] at hn
          split at hf
          · next hraw => rw [if_pos hraw] at hn; exact absurd hn (Nat.not_succ_le_zero _)
          · next hraw =>
              rw [if_neg hraw] at hn
              split at hf
              · next hchar =>
                  rw [if_pos hchar] at hn; exact absurd hn (Nat.not_succ_le_zero _)
              · next hchar =>
                  rw [if_neg hchar] at hn
                  rw [if_neg hstr, if_neg hraw, if_neg hchar]
                  exact word_replace (r := []) hn hs
  | cons b r =>
      simp only [List.cons_append, List.head?_cons, List.drop_succ_cons,
        List.drop_zero] at hf hn ⊢
      split
      · next hstr =>
          rw [if_pos hstr] at hf hn
          exact congrArg (Lexeme.shift 1)
            (string_replace (faults_of_shift hf) (Nat.le_of_succ_le_succ hn))
      · next hstr =>
          rw [if_neg hstr] at hf hn
          have hraw : (some b == some 114 &&
              ((r ++ s').head? == some 34 || (r ++ s').head? == some 35))
              = (some b == some 114 &&
                ((r ++ s).head? == some 34 || (r ++ s).head? == some 35)) := by
            cases r with
            | cons c r => rfl
            | nil =>
                obtain ⟨h34, h35, -, -⟩ := head?_ne_of_separators hs
                rw [List.nil_append, h34, h35, Bool.or_self, Bool.and_false]
                rw [eq_comm, ← Bool.not_eq_true]
                intro hraw
                rw [if_pos hraw] at hf hn
                have := rawString_size (faults_of_shift hf)
                simp only [Lexeme.shift, List.length_cons, List.length_nil] at hn
                omega
          rw [hraw]
          split
          · next hraw =>
              rw [if_pos hraw] at hf hn
              exact congrArg (Lexeme.shift 1)
                (rawString_replace (faults_of_shift hf) (Nat.le_of_succ_le_succ hn))
          · next hraw =>
              rw [if_neg hraw] at hf hn
              split
              · next hchar =>
                  rw [if_pos hchar] at hf hn
                  exact congrArg (Lexeme.shift 1)
                    (charLiteral_replace (faults_of_shift hf) (Nat.le_of_succ_le_succ hn))
              · next hchar =>
                  rw [if_neg hchar] at hn
                  exact word_replace (r := b :: r) hn hs

theorem wordLike_replace {first : UInt8} (hf : (wordLike first (r ++ s)).faults = [])
    (hn : (wordLike first (r ++ s)).size ≤ r.length)
    (hs : ∀ c, s'.head? = some c → c ∈ separators) :
    wordLike first (r ++ s') = wordLike first (r ++ s) := by
  by_cases hr : first = 114
  · subst hr
    exact wordLike_r_replace hf hn hs
  by_cases hb : first = 98
  · subst hb
    exact wordLike_b_replace hf hn hs
  by_cases hc : first = 99
  · subst hc
    exact wordLike_c_replace hf hn hs
  rw [wordLike_other hr hb hc] at hf hn
  rw [wordLike_other hr hb hc, wordLike_other hr hb hc]
  split
  · next hdigit =>
      rw [if_pos hdigit] at hf hn
      exact number_replace hf hn hs
  · next hdigit =>
      rw [if_neg hdigit] at hf hn
      split
      · next halpha =>
          rw [if_pos halpha] at hn
          exact word_replace hn hs
      · rfl

end Deriver.Scan
