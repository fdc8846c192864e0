import Deriver.Proofs.Token.Pieces

/-!
# A lexeme ends where it ends

The scanners look ahead, some of them one byte, some two, and a raw string any
number of hashes. Nevertheless a lexeme without faults does not depend on the
bytes behind it, as long as the byte that follows cannot be taken for a part of
it. `lexeme_replace` says so for every scanner: behind a lexeme that lies within
`r`, the bytes `s` may be replaced by any `s'` that begins with a separator.

Three things have to be excluded. An arrow or a double colon may be formed with
the byte that follows (`glues`). A line comment goes on to the end of its line,
whatever stands there. And two quotes are a character only if a third one
follows, so a lexeme that was cut off in front of a quote may change.
-/

namespace Deriver.Scan

/-- The bytes that are taken for white space or punctuation wherever they stand
outside a literal or comment. -/
def separators : List UInt8 := [10, 32, 40, 41, 44, 58, 59, 60, 62, 91, 93, 123, 125]

/-- Whether a byte at the end of a lexeme forms a longer one with a separator. -/
def glues (b c : UInt8) : Bool :=
  (c == 62 && (b == 45 || b == 61)) || (c == 58 && b == 58)

/-- Whether what begins with `b` and goes on in `r` ends there if `s` follows. -/
def Stops (b : UInt8) (r s : Text) : Prop :=
  ∀ c, s.head? = some c → c ∈ separators ∧ (r = [] → glues b c = false) ∧
    (c ≠ 10 → b = 47 → r.head? = some 47 → 10 ∈ r)

theorem of_separator {p : UInt8 → Bool} {c : UInt8} (hp : separators.all p = true)
    (h : c ∈ separators) : p c = true := List.all_eq_true.mp hp c h

theorem not_alphaNum_of_separator {c : UInt8} (h : c ∈ separators) :
    isAlphaNum c = false := by
  simpa using of_separator (p := fun c => !isAlphaNum c) (by decide) h

theorem not_hex_of_separator {c : UInt8} (h : c ∈ separators) :
    Text.hexDigit? c = none := by
  simpa using of_separator (p := fun c => (Text.hexDigit? c).isNone) (by decide) h

theorem lt_of_separator {c : UInt8} (h : c ∈ separators) : c < 0x80 := by
  simpa using of_separator (p := fun c => decide (c < 0x80)) (by decide) h

theorem not_mark_of_separator {c : UInt8} (h : c ∈ separators) :
    c ∉ ([33, 34, 35, 38, 39, 42, 43, 45, 46, 47, 61, 92, 95] : List UInt8) :=
  of_decide_eq_true (of_separator (p := fun c => decide (c ∉ _)) (by decide) h)

/-! ## Runs and prefixes -/

section Prefix

variable {r s s' : Text} {p : UInt8 → Bool}

theorem take_replace {n : Nat} (h : n ≤ r.length) : (r ++ s').take n = (r ++ s).take n := by
  rw [List.take_append_of_le_length h, List.take_append_of_le_length h]

/-- Within `r` the next byte does not depend on what stands behind. -/
theorem exists_drop_append {n : Nat} (h : n < r.length) :
    ∃ c t, t.length + n + 1 = r.length ∧ ∀ s, (r ++ s).drop n = c :: (t ++ s) := by
  refine ⟨r[n], r.drop (n + 1), ?_, fun s => ?_⟩
  · rw [List.length_drop]
    omega
  · rw [List.drop_append_of_le_length (Nat.le_of_lt h), List.drop_eq_getElem_cons h]
    rfl

theorem takeWhile_replace (h : ((r ++ s).takeWhile p).length < r.length) :
    (r ++ s').takeWhile p = (r ++ s).takeWhile p := by
  induction r with
  | nil => simp at h
  | cons b r ih =>
      simp only [List.cons_append, List.takeWhile_cons] at h ⊢
      split
      · next hb =>
          rw [hb] at h
          simp only [if_true, List.length_cons, Nat.add_lt_add_iff_right] at h
          rw [ih h]
      · rfl

theorem run_replace (h : run p (r ++ s) ≤ r.length)
    (hs : ∀ c, s'.head? = some c → p c = false) : run p (r ++ s') = run p (r ++ s) := by
  induction r with
  | nil =>
      have h0 : run p s = 0 := Nat.le_zero.mp h
      cases s' with
      | nil => rw [List.nil_append, List.nil_append, h0]; rfl
      | cons c s' =>
          rw [List.nil_append, List.nil_append, h0]
          simp [run, hs c rfl]
  | cons b r ih =>
      simp only [run, List.cons_append, List.takeWhile_cons] at h ⊢
      split
      · next hb =>
          rw [hb] at h
          simp only [if_true, List.length_cons, Nat.add_le_add_iff_right] at h
          exact congrArg (· + 1) (ih h)
      · rfl

theorem isPrefixOf_replace {needle : Text} (h : needle.length ≤ r.length) :
    needle.isPrefixOf (r ++ s') = needle.isPrefixOf (r ++ s) := by
  rw [Bool.eq_iff_iff, List.isPrefixOf_iff_prefix, List.isPrefixOf_iff_prefix,
    List.prefix_iff_eq_take, List.prefix_iff_eq_take, take_replace h]

theorem find?_replace {needle : Text} {n : Nat} (h : Text.find? (r ++ s) needle = some n)
    (hn : n + needle.length ≤ r.length) : Text.find? (r ++ s') needle = some n := by
  induction r generalizing n with
  | nil =>
      rw [List.length_nil] at hn
      have hneedle : needle = [] := List.length_eq_zero_iff.mp (by omega)
      have hzero : n = 0 := by omega
      subst hneedle hzero
      cases s' <;> simp [Text.find?]
  | cons b r ih =>
      rw [List.cons_append, Text.find?, ← List.cons_append] at h ⊢
      rw [isPrefixOf_replace (r := b :: r) (s := s) (by omega)]
      split
      · next hpre => rw [if_pos hpre] at h; exact h
      · next hpre =>
          rw [if_neg hpre] at h
          obtain ⟨m, hm, rfl⟩ := Option.map_eq_some_iff.mp h
          simp only [List.length_cons] at hn
          rw [ih hm (by omega)]
          rfl

end Prefix

/-! ## Strings and characters -/

theorem length_takeWhile_le (p : UInt8 → Bool) (t : Text) :
    (t.takeWhile p).length ≤ t.length :=
  (List.takeWhile_prefix p).length_le

theorem escape_size_le (t : Text) : (escape t).size ≤ t.length := by
  unfold escape
  split
  · exact Nat.le_refl _
  · next b rest =>
      rw [List.length_cons]
      split
      case h_8 =>
        have := List.length_take_le 2 rest
        extract_lets digits
        split <;> exact Nat.succ_le_succ (List.length_take_le' 2 rest)
      case h_9 =>
        split
        · next inner =>
            have hle := length_takeWhile_le (· ≠ 125) inner
            extract_lets digits closing size
            have hsize : size ≤ inner.length + 2 := by
              simp only [size, closing, digits]
              split <;> omega
            rw [List.length_cons]
            split
            · split <;> exact hsize
            · exact hsize
        · exact Nat.le_add_left _ _
      case h_10 =>
        have := run_le isSpace rest
        change 1 + run isSpace rest ≤ _
        omega
      all_goals exact Nat.le_add_left _ _

section Body

variable {r s s' : Text} {stop : UInt8 → Bool}

theorem escape_replace (h : (escape (r ++ s)).size < r.length) :
    escape (r ++ s') = escape (r ++ s) := by
  cases r with
  | nil => simp at h
  | cons b r =>
      simp only [List.cons_append, escape, List.length_cons] at h ⊢
      split at h
      case h_8 =>
        have hlen : ((r ++ s).take 2).length < r.length := by
          split at h <;> exact Nat.lt_of_succ_lt_succ h
        have htwo : 2 ≤ r.length := by
          rw [List.length_take, List.length_append] at hlen
          omega
        rw [take_replace (s := s) htwo]
      case h_9 =>
        cases r with
        | nil =>
            exfalso
            rw [List.nil_append, List.length_nil] at h
            split at h
            · split at h
              · split at h <;> simp at h
              · simp at h
            · exact absurd h (by decide)
        | cons c r =>
            simp only [List.cons_append, List.length_cons] at h ⊢
            by_cases hc : c = 123
            · subst hc
              simp only at h ⊢
              have hdigits : ((r ++ s).takeWhile (· ≠ 125)).length < r.length := by
                split at h
                · split at h <;> split at h <;> simp only at h <;> omega
                · split at h <;> simp only at h <;> omega
              have hclosed (t : Text) :
                  ((r ++ s).takeWhile (· ≠ 125)).length < (r ++ t).length := by
                rw [List.length_append]
                omega
              rw [takeWhile_replace (s := s) hdigits]
              simp only [if_pos (hclosed s), if_pos (hclosed s')]
            · split
              · next heq => cases heq; exact absurd rfl hc
              · split
                · next heq => cases heq; exact absurd rfl hc
                · rfl
      case h_10 =>
        have hrun : run isSpace (r ++ s) < r.length := by simp only at h; omega
        have hsame : (r ++ s').takeWhile isSpace = (r ++ s).takeWhile isSpace :=
          takeWhile_replace hrun
        simp only [run, hsame]
      all_goals rfl

theorem le_body_size {k : Nat} {t : Text} (h : k ≤ t.length) :
    k ≤ (body stop k t).size := by
  induction t generalizing k with
  | nil => rw [List.length_nil] at h; omega
  | cons b t ih =>
      cases k with
      | zero => exact Nat.zero_le _
      | succ k => exact Nat.succ_le_succ (ih (Nat.le_of_succ_le_succ h))

theorem body_replace {k : Nat} (h : (body stop k (r ++ s)).size < r.length) :
    body stop k (r ++ s') = body stop k (r ++ s) := by
  induction r generalizing k with
  | nil => rw [List.length_nil] at h; omega
  | cons b r ih =>
      rw [List.cons_append, List.length_cons] at h
      rw [List.cons_append, List.cons_append]
      cases k with
      | succ k =>
          rw [body] at h ⊢
          rw [body, ih (Nat.lt_of_succ_lt_succ h)]
      | zero =>
          rw [body] at h ⊢
          rw [body]
          split
          · rfl
          · next hstop =>
              rw [if_neg hstop] at h
              split
              · next hb =>
                  rw [if_pos hb] at h
                  have hsize :
                      (body stop (escape (r ++ s)).size (r ++ s)).size < r.length := by
                    revert h
                    extract_lets e after
                    intro h
                    split at h <;> exact Nat.lt_of_succ_lt_succ h
                  have hescape : (escape (r ++ s)).size < r.length :=
                    Nat.lt_of_le_of_lt (le_body_size (escape_size_le _)) hsize
                  have hsame : escape (r ++ s') = escape (r ++ s) := escape_replace hescape
                  simp only [hsame, ih hsize]
              · next hb =>
                  rw [if_neg hb] at h
                  rw [ih (Nat.lt_of_succ_lt_succ h)]

end Body

section Literals

variable {r s s' : Text}

theorem charLiteral_replace (hf : (charLiteral (r ++ s)).faults = [])
    (hn : (charLiteral (r ++ s)).size ≤ r.length) :
    charLiteral (r ++ s') = charLiteral (r ++ s) := by
  have hlt : (body (fun c => c == 39 || c == 10) 0 (r ++ s)).size < r.length := by
    simp only [charLiteral] at hf hn
    split at hf
    · next heq => simp only [heq] at hn; exact hn
    · simp at hf
  obtain ⟨c, t, -, hdrop⟩ := exists_drop_append hlt
  have hbody : body (fun c => c == 39 || c == 10) 0 (r ++ s')
      = body (fun c => c == 39 || c == 10) 0 (r ++ s) := body_replace hlt
  simp only [charLiteral, hbody, hdrop]
  by_cases hc : c = 39
  · subst hc
    rfl
  · split
    · next heq => cases heq; exact absurd rfl hc
    · split
      · next heq => cases heq; exact absurd rfl hc
      · rfl

theorem string_replace (hf : (string (r ++ s)).faults = [])
    (hn : (string (r ++ s)).size ≤ r.length) : string (r ++ s') = string (r ++ s) := by
  have hlt : (body (· == 34) 0 (r ++ s)).size < r.length := by
    simp only [string] at hf hn
    split at hf
    · simp at hf
    · next heq => simp only [heq] at hn; exact hn
  obtain ⟨c, t, -, hdrop⟩ := exists_drop_append hlt
  have hbody : body (· == 34) 0 (r ++ s') = body (· == 34) 0 (r ++ s) := body_replace hlt
  simp only [string, hbody, hdrop]

theorem rawString_replace (hf : (rawString (r ++ s)).faults = [])
    (hn : (rawString (r ++ s)).size ≤ r.length) :
    rawString (r ++ s') = rawString (r ++ s) := by
  have hlt : run (· == 35) (r ++ s) < r.length := by
    simp only [rawString] at hf hn
    split at hf
    · next heq =>
        simp only [heq] at hn
        split at hf
        · next hfind => simp only [hfind] at hn; omega
        · cases hf
    · cases hf
  obtain ⟨c, t, hlen, hdrop⟩ := exists_drop_append hlt
  have hrun : run (· == 35) (r ++ s') = run (· == 35) (r ++ s) :=
    congrArg List.length (takeWhile_replace hlt)
  simp only [rawString, hrun, hdrop] at hf hn ⊢
  split at hf
  · next inner heq =>
      cases heq
      split at hf
      · next n hfind =>
          simp only [hfind] at hn
          have hfit : n + (34 :: List.replicate (run (· == 35) (r ++ s))
              (35 : UInt8)).length
              ≤ t.length := by
            rw [List.length_cons, List.length_replicate]
            omega
          have hinner : n ≤ t.length := by omega
          have hfind' : Text.find? (t ++ s') _ = some n := find?_replace hfind hfit
          have htake : (t ++ s').take n = (t ++ s).take n := take_replace hinner
          simp only [hfind', htake]
      · cases hf
  · cases hf

end Literals
end Deriver.Scan
