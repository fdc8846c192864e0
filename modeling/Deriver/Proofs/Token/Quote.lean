import Deriver.Proofs.Text.Utf8
import Deriver.Proofs.Token.Boundary

/-!
# What a quote begins ends where it ends

A quote begins a character or a lifetime. The scanner decides by the quote after
the next character, which need not belong to the lexeme: it looks at most four
bytes ahead of a lifetime of one. A literal without faults, though, reaches past
the character it was recognized by (`lt_of_charLiteral`), and a lifetime takes
the whole of its first letter (`lt_run_of_letter`). So only a quote right behind
the lexeme could have made a difference.
-/

namespace Deriver.Scan

variable {r s s' : Text}

/-! ## One character -/

theorem le_lead? {b : UInt8} {j : Nat} {lo hi : UInt8}
    (h : Text.lead? b = some (j, lo, hi)) : 0x80 ≤ lo := by
  unfold Text.lead? at h
  split_ifs at h <;> cases h <;> decide

theorem le_isTail {b : UInt8} (h : Text.isTail b = true) : 0x80 ≤ b := by
  unfold Text.isTail at h
  rw [Bool.and_eq_true] at h
  exact of_decide_eq_true h.1

/-- The bytes that a character takes besides its first are none below 0x80. -/
theorem le_of_multi? {b : UInt8} {t : Text} {n k : Nat}
    (h : Text.multi? b t = some (n, k)) : k ≤ t.length ∧ ∀ x ∈ t.take k, 0x80 ≤ x := by
  unfold Text.multi? at h
  split at h
  · next lo hi x rest hlead =>
      split at h
      · next hx =>
          cases h
          rw [Bool.and_eq_true, decide_eq_true_eq, decide_eq_true_eq] at hx
          have := UInt8.le_trans (le_lead? hlead) hx.1
          simp [this]
      · cases h
  · next lo hi x y rest hlead =>
      split at h
      · next hx =>
          cases h
          simp only [Bool.and_eq_true, decide_eq_true_eq] at hx
          have := UInt8.le_trans (le_lead? hlead) hx.1.1
          simp [this, le_isTail hx.2]
      · cases h
  · next lo hi x y z rest hlead =>
      split at h
      · next hx =>
          cases h
          simp only [Bool.and_eq_true, decide_eq_true_eq] at hx
          have := UInt8.le_trans (le_lead? hlead) hx.1.1.1
          simp [this, le_isTail hx.2, le_isTail hx.1.2]
      · cases h
  · cases h

theorem multi?_some_replace {b : UInt8} {n k : Nat}
    (h : Text.multi? b (r ++ s) = some (n, k))
    (hk : k ≤ r.length) : Text.multi? b (r ++ s') = some (n, k) := by
  unfold Text.multi? at h ⊢
  split at h
  · next lo hi x rest hlead heq =>
      split at h
      · next hx =>
        cases h
        match r, hk with
        | y :: r, _ =>
          cases heq
          simp [hlead, hx]
      · cases h
  · next lo hi x y rest hlead heq =>
      split at h
      · next hx =>
        cases h
        match r, hk with
        | x' :: y' :: r, _ =>
          cases heq
          simp [hlead, hx]
      · cases h
  · next lo hi x y z rest hlead heq =>
      split at h
      · next hx =>
        cases h
        match r, hk with
        | x' :: y' :: z' :: r, _ =>
          cases heq
          simp [hlead, hx]
      · cases h
  · cases h

theorem multi?_none_replace {b : UInt8} (h : Text.multi? b (r ++ s) = none)
    (hs : ∀ c, s'.head? = some c → c < 0x80) : Text.multi? b (r ++ s') = none := by
  cases hm : Text.multi? b (r ++ s') with
  | none => rfl
  | some found =>
      obtain ⟨n, k⟩ := found
      obtain ⟨hk, hhigh⟩ := le_of_multi? hm
      have hkr : k ≤ r.length := by
        by_contra hlt
        cases s' with
        | nil => simp at hk; omega
        | cons c s' =>
          have hc := hs c rfl
          have hmem : c ∈ (r ++ c :: s').take k := by
            rw [List.take_append, List.mem_append]
            right
            obtain ⟨j, hj⟩ : ∃ j, k - r.length = j + 1 := ⟨k - r.length - 1, by omega⟩
            rw [hj]
            simp
          exact absurd (hhigh c hmem) (UInt8.not_le.mpr hc)
      rw [multi?_some_replace hm hkr] at h
      cases h

/-- The character at the front is the same behind a replacement, if its bytes
are. -/
theorem char?_replace {b : UInt8} (hk : (Text.char? b (r ++ s)).2 ≤ r.length)
    (hs : ∀ c, s'.head? = some c → c < 0x80) :
    Text.char? b (r ++ s') = Text.char? b (r ++ s) := by
  unfold Text.char? at hk ⊢
  split
  · rfl
  · next hb =>
      rw [if_neg hb] at hk
      split at hk
      · next n j hm => rw [multi?_some_replace hm hk]
      · next hm => rw [multi?_none_replace hm hs]

theorem le_of_char? {b : UInt8} {t : Text} {c : Option Char} {k : Nat}
    (h : Text.char? b t = (c, k)) (hk : 0 < k) :
    0x80 ≤ b ∧ k ≤ t.length ∧ ∀ x ∈ t.take k, 0x80 ≤ x := by
  unfold Text.char? at h
  split at h
  · cases h; omega
  · next hb =>
      split at h
      · next n j hm =>
          cases h
          exact ⟨UInt8.not_lt.mp hb, le_of_multi? hm⟩
      · cases h; omega

theorem isAlpha_of_letter {b : UInt8} (hb : b < 0x80)
    (h : (Text.isLetter (Char.ofNat b.toNat) || Char.ofNat b.toNat == '_') = true) :
    isAlpha b = true := by
  have hall : ∀ b : UInt8, b < 0x80 →
      (Text.isLetter (Char.ofNat b.toNat) || Char.ofNat b.toNat == '_') = true →
        isAlpha b = true := forall_byte (by decide +kernel)
  exact hall b hb h

/-! ## Character literals -/

/-- A body goes past the bytes that neither stop it nor begin an escape. -/
theorem le_body_size_of_plain {stop : UInt8 → Bool} {j : Nat} {t : Text} (hj : j ≤ t.length)
    (h : ∀ y ∈ t.take j, stop y = false ∧ y ≠ 92) : j ≤ (body stop 0 t).size := by
  induction j generalizing t with
  | zero => exact Nat.zero_le _
  | succ j ih =>
      cases t with
      | nil => rw [List.length_nil] at hj; omega
      | cons b t =>
          obtain ⟨hstop, hb⟩ := h b (by simp)
          rw [body, hstop, if_neg (by decide), if_neg hb]
          refine Nat.succ_le_succ (ih (Nat.le_of_succ_le_succ hj) fun y hy => h y ?_)
          rw [List.take_succ_cons]
          exact List.mem_cons_of_mem _ hy

theorem charLiteral_size {t : Text} (hf : (charLiteral t).faults = []) :
    (charLiteral t).size = (body (fun c => c == 39 || c == 10) 0 t).size + 1 ∧
      (t.drop (body (fun c => c == 39 || c == 10) 0 t).size).head? = some 39 := by
  simp only [charLiteral] at hf ⊢
  split at hf
  · next heq => exact ⟨rfl, by rw [heq]; rfl⟩
  · simp at hf

theorem ne_of_high {y : UInt8} (h : 0x80 ≤ y) : (y == 39 || y == 10) = false ∧ y ≠ 92 := by
  have : ∀ z ∈ ([39, 10, 92] : List UInt8), y ≠ z := by
    intro z hz hyz
    subst hyz
    revert h
    revert hz
    simp only [List.mem_cons, List.not_mem_nil, or_false]
    rintro (rfl | rfl | rfl) <;> decide
  simp [this 39 (by simp), this 10 (by simp), this 92 (by simp)]

/-- A character literal that lies within `r` reaches past the character it was
recognized by, unless that is the first of three quotes. -/
theorem lt_of_charLiteral {x : UInt8} {k : Nat} {c : Option Char} (hx : x ≠ 92)
    (hchar : Text.char? x (r ++ s) = (c, k))
    (hquote : ((x :: (r ++ s)).drop (k + 1)).head? = some 39)
    (h39 : x = 39 → r = [] → s.head? ≠ some 39)
    (hf : (charLiteral (x :: (r ++ s))).faults = [])
    (hn : (charLiteral (x :: (r ++ s))).size ≤ r.length + 1) : k < r.length := by
  by_contra hk
  obtain ⟨hsize, hend⟩ := charLiteral_size hf
  have hplain (hstop : ∀ y ∈ (x :: (r ++ s)).take (k + 1), (y == 39 || y == 10) =
      false ∧ y ≠ 92)
      (hlen : k ≤ (r ++ s).length) : False := by
    have : k + 1 ≤ (body (fun c => c == 39 || c == 10) 0 (x :: (r ++ s))).size :=
      le_body_size_of_plain (Nat.succ_le_succ hlen) hstop
    omega
  rcases Nat.eq_zero_or_pos k with rfl | hpos
  · obtain rfl : r = [] := List.length_eq_zero_iff.mp (by omega)
    by_cases h : (x == 39 || x == 10) = true
    · rw [Bool.or_eq_true, beq_iff_eq, beq_iff_eq] at h
      rcases h with rfl | rfl
      · exact h39 rfl rfl hquote
      · rw [body, if_pos (by decide)] at hend
        cases hend
    · refine hplain ?_ (Nat.zero_le _)
      simp only [List.take_succ_cons, List.take_zero, List.mem_singleton]
      rintro y rfl
      exact ⟨Bool.not_eq_true _ ▸ h, hx⟩
  · obtain ⟨hxhigh, hlen, hhigh⟩ := le_of_char? hchar hpos
    refine hplain ?_ hlen
    intro y hy
    rw [List.take_succ_cons] at hy
    rcases List.mem_cons.mp hy with rfl | hy
    · exact ne_of_high hxhigh
    · exact ne_of_high (hhigh y hy)

theorem isAlpha_of_high {b : UInt8} (h : 0x80 ≤ b) : isAlpha b = true := by
  unfold isAlpha
  rw [decide_eq_true h, Bool.or_true]

theorem le_run_of_take {p : UInt8 → Bool} {j : Nat} {t : Text} (hj : j ≤ t.length)
    (h : ∀ y ∈ t.take j, p y = true) : j ≤ run p t := by
  induction j generalizing t with
  | zero => exact Nat.zero_le _
  | succ j ih =>
      cases t with
      | nil => rw [List.length_nil] at hj; omega
      | cons b t =>
          rw [run, List.takeWhile_cons_of_pos (h b (by simp)), List.length_cons]
          refine Nat.succ_le_succ (ih (Nat.le_of_succ_le_succ hj) fun y hy => h y ?_)
          rw [List.take_succ_cons]
          exact List.mem_cons_of_mem _ hy

theorem isAlphaNum_of_alpha {b : UInt8} (h : isAlpha b = true) : isAlphaNum b = true := by
  rw [isAlphaNum, h, Bool.true_or]

theorem lt_run_of_letter {b : UInt8} {t : Text} {ch : Char} {k : Nat}
    (hchar : Text.char? b t = (some ch, k)) (h : (Text.isLetter ch || ch == '_') = true) :
    k < run isAlphaNum (b :: t) := by
  have hb : isAlpha b = true := by
    by_cases hb : b < 0x80
    · unfold Text.char? at hchar
      rw [if_pos hb] at hchar
      cases hchar
      exact isAlpha_of_letter hb h
    · exact isAlpha_of_high (UInt8.not_lt.mp hb)
  rw [run, List.takeWhile_cons_of_pos (isAlphaNum_of_alpha hb), List.length_cons]
  refine Nat.lt_succ_of_le ?_
  rcases Nat.eq_zero_or_pos k with rfl | hpos
  · exact Nat.zero_le _
  · obtain ⟨-, hlen, hhigh⟩ := le_of_char? hchar hpos
    exact le_run_of_take hlen fun y hy => isAlphaNum_of_alpha (isAlpha_of_high (hhigh y hy))

/-! ## Quotes -/

/-- What a quote begins, as one choice. -/
theorem quote_cons {x : UInt8} (t : Text) (hx : x ≠ 92) :
    quote (x :: t) =
      if ((x :: t).drop ((Text.char? x t).2 + 1)).head? = some 39 then charLiteral (x :: t)
      else
        match (Text.char? x t).1 with
        | some ch =>
            if ch ≠ Text.replacement && (Text.isLetter ch || ch == '_') then
              .plain .lifetime (run isAlphaNum (x :: t))
            else .faulty .openChar 0
        | none => .faulty .openChar 0 := by
  have hx' : (some x == some (92 : UInt8)) = false := by simpa using hx
  unfold quote
  rw [List.head?_cons, hx', if_neg Bool.false_ne_true]
  exact if_congr beq_iff_eq rfl rfl

theorem quote_size_pos {t : Text} (hf : (quote t).faults = []) : 0 < (quote t).size := by
  have hlit {u : Text} (h : (charLiteral u).faults = []) : 0 < (charLiteral u).size := by
    rw [(charLiteral_size h).1]
    exact Nat.succ_pos _
  cases t with
  | nil => cases hf
  | cons x t =>
      by_cases hx : x = 92
      · subst hx
        exact hlit (u := 92 :: t) hf
      · rw [quote_cons t hx] at hf ⊢
        split
        · next h39 => rw [if_pos h39] at hf; exact hlit hf
        · next h39 =>
            rw [if_neg h39] at hf
            split
            · next ch hch =>
                simp only [hch] at hf
                split
                · next hletter =>
                    rw [Bool.and_eq_true] at hletter
                    exact Nat.zero_lt_of_lt (lt_run_of_letter (Prod.ext hch rfl) hletter.2)
                · next hletter => rw [if_neg hletter] at hf; cases hf
            · next hch => simp only [hch] at hf; cases hf

/-- The character that decides what a quote begins lies within `r`. -/
theorem le_of_quote {x : UInt8} (hx : x ≠ 92) (hf : (quote (x :: (r ++ s))).faults = [])
    (hn : (quote (x :: (r ++ s))).size ≤ r.length + 1)
    (h39 : x = 39 → r = [] → s.head? ≠ some 39) :
    (Text.char? x (r ++ s)).2 ≤ r.length ∧
      (((x :: (r ++ s)).drop ((Text.char? x (r ++ s)).2 + 1)).head? = some 39 →
        (Text.char? x (r ++ s)).2 < r.length) := by
  rw [quote_cons _ hx] at hf hn
  split at hf
  · next hq =>
      rw [if_pos hq] at hn
      have := lt_of_charLiteral hx rfl hq h39 hf hn
      exact ⟨Nat.le_of_lt this, fun _ => this⟩
  · next hq =>
      rw [if_neg hq] at hn
      refine ⟨?_, fun h => absurd h hq⟩
      split at hf
      · next ch hch =>
          simp only [hch] at hn
          split at hf
          · next hletter =>
              rw [if_pos hletter] at hn
              rw [Bool.and_eq_true] at hletter
              have hrun := lt_run_of_letter (Prod.ext hch rfl) hletter.2
              exact Nat.le_of_lt_succ (Nat.lt_of_lt_of_le hrun hn)
          · cases hf
      · cases hf

theorem quote_replace (hf : (quote (r ++ s)).faults = [])
    (hn : (quote (r ++ s)).size ≤ r.length)
    (h39 : r = [39] → s.head? ≠ some 39) (hs : ∀ c, s'.head? = some c → c ∈ separators) :
    quote (r ++ s') = quote (r ++ s) := by
  cases r with
  | nil => exact absurd (quote_size_pos hf) (by simpa using hn)
  | cons x r =>
      by_cases hx : x = 92
      · subst hx
        exact charLiteral_replace (r := 92 :: r) hf hn
      · obtain ⟨hk, hlt⟩ := le_of_quote hx hf hn fun hx hr => h39 (by rw [hx, hr])
        have hlow : ∀ c, s'.head? = some c → c < 0x80 :=
          fun c hc => lt_of_separator (hs c hc)
        rw [List.cons_append] at hf hn
        rw [List.cons_append, List.cons_append, quote_cons _ hx, quote_cons _ hx,
          char?_replace hk hlow]
        rw [quote_cons _ hx] at hf hn
        rw [List.drop_succ_cons] at hlt hf hn
        rw [List.drop_succ_cons, List.drop_succ_cons]
        by_cases hq : ((r ++ s).drop (Text.char? x (r ++ s)).2).head? = some 39
        · obtain ⟨y, t, -, hdrop⟩ := exists_drop_append (hlt hq)
          rw [if_pos hq] at hf hn
          rw [if_pos hq, if_pos (by rw [hdrop] at hq ⊢; exact hq)]
          exact charLiteral_replace (r := x :: r) hf hn
        · have hq' : ((r ++ s').drop (Text.char? x (r ++ s)).2).head? ≠ some 39 := by
            rcases Nat.lt_or_eq_of_le hk with hk | hk
            · obtain ⟨y, t, -, hdrop⟩ := exists_drop_append hk
              rw [hdrop] at hq ⊢
              exact hq
            · rw [hk, List.drop_left]
              intro h
              exact absurd (hs 39 h) (by decide)
          rw [if_neg hq] at hf hn
          rw [if_neg hq, if_neg hq']
          cases hch : (Text.char? x (r ++ s)).1 with
          | none => rfl
          | some ch =>
              simp only [hch] at hn
              simp only
              split
              · next hletter =>
                  rw [if_pos hletter] at hn
                  have hrun := run_replace (r := x :: r) hn
                    fun c hc => not_alphaNum_of_separator (hs c hc)
                  rw [← List.cons_append, ← List.cons_append, hrun]
              · rfl

end Deriver.Scan

