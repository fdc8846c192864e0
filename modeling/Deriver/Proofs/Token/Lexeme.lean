import Deriver.Proofs.Token.Word

/-!
# What a byte begins ends where it ends

The scanners of comments and punctuation, and with them all of `lexeme`: for
each byte there is an equation saying what it looks at, and `lexeme_replace` goes
through the bytes.
-/

namespace Deriver.Scan

variable {r s s' : Text}

/-! ## Comments -/

theorem blockComment_byte {depth : Nat} {b : UInt8} {t : Text}
    (h : marks (b :: t) = false) :
    blockComment depth (b :: t) =
    ((blockComment depth t).1 + 1, (blockComment depth t).2) := by
  unfold marks at h
  split at h
  · cases h
  · cases h
  · next hopen hclose =>
      rw [blockComment]
      · exact fun rest hb ht => hopen rest (by rw [hb, ht])
      · exact fun rest _ hb ht => hclose rest (by rw [hb, ht])
      · exact fun _ rest _ hb ht => hclose rest (by rw [hb, ht])

theorem Closes.ne_nil {n : Nat} {t : Text} (h : Closes (n + 1) t) : t ≠ [] := by
  cases h <;> exact List.cons_ne_nil _ _

/-- The scanner finds the end of what closes the open comments, whatever stands
behind it. -/
theorem blockComment_of_closes {n : Nat} {u : Text} (h : Closes (n + 1) u) (t : Text) :
    blockComment n (u ++ t) = (u.length, true) := by
  generalize hm : n + 1 = m at h
  induction h generalizing n with
  | done => cases hm
  | opening _ ih =>
      cases hm
      simp only [List.cons_append, blockComment, ih rfl, List.length_cons]
  | @closing k u hu ih =>
      cases hm
      cases k with
      | zero => cases hu; rfl
      | succ k => simp only [List.cons_append, blockComment, ih rfl, List.length_cons]
  | @byte k b u hmarks hu ih =>
      cases hm
      have hmarks' : marks (b :: (u ++ t)) = false := by
        cases u with
        | nil => exact absurd rfl hu.ne_nil
        | cons c u =>
            unfold marks at hmarks ⊢
            split at hmarks <;> simp_all
      rw [List.cons_append, blockComment_byte hmarks', ih rfl, List.length_cons]

theorem blockComment_replace {depth n : Nat} (h : blockComment depth (r ++ s) = (n, true))
    (hn : n ≤ r.length) : blockComment depth (r ++ s') = (n, true) := by
  have hcloses := closes_of_blockComment h
  rw [List.take_append_of_le_length hn] at hcloses
  have := blockComment_of_closes hcloses (r.drop n ++ s')
  rwa [← List.append_assoc, List.take_append_drop, List.length_take,
    Nat.min_eq_left hn] at this

theorem slash_other {t : Text} (h : ∀ c, t.head? = some c → c ≠ 47 ∧ c ≠ 42) :
    slash t = .plain .slash 0 := by
  unfold slash
  split
  · exact absurd rfl (h 47 rfl).1
  · exact absurd rfl (h 42 rfl).2
  · rfl

theorem slash_size_pos {c : UInt8} {t : Text} (h : c = 47 ∨ c = 42) :
    0 < (slash (c :: t)).size := by
  rcases h with rfl | rfl
  · exact Nat.lt_of_lt_of_le Nat.zero_lt_one (Nat.le_add_right 1 _)
  · simp only [slash]
    split <;> exact Nat.succ_pos _

theorem slash_replace (hf : (slash (r ++ s)).faults = [])
    (hn : (slash (r ++ s)).size ≤ r.length) (hs : ∀ c, s'.head? = some c → c ∈ separators)
    (hline : ∀ c, s'.head? = some c → c ≠ 10 → r.head? = some 47 → 10 ∈ r) :
    slash (r ++ s') = slash (r ++ s) := by
  cases r with
  | nil =>
      rw [List.nil_append, slash_other (t := s'), List.nil_append, slash_other]
      · intro c hc
        rw [← not_or]
        intro hmark
        obtain ⟨t, rfl⟩ := List.head?_eq_some_iff.mp hc
        exact Nat.not_le_of_lt (slash_size_pos hmark) hn
      · intro c hc
        have := not_mark_of_separator (hs c hc)
        refine ⟨?_, ?_⟩ <;> rintro rfl <;> exact this (by decide)
  | cons b r =>
      rw [List.cons_append] at hf hn
      rw [List.cons_append, List.cons_append]
      by_cases hb : b = 47
      · subst hb
        have hrun : run (· ≠ 10) (r ++ s) ≤ r.length := by
          change 1 + run (· ≠ 10) (r ++ s) ≤ r.length + 1 at hn
          omega
        refine congrArg (fun n => Lexeme.skipped (1 + n)) ?_
        by_cases h10 : 10 ∈ r
        · refine congrArg List.length (takeWhile_replace ?_)
          refine Nat.lt_of_le_of_ne hrun fun heq => ?_
          have hall : r = (r ++ s).takeWhile (· ≠ 10) := by
            rw [← take_run, show run (· ≠ 10) (r ++ s) = r.length from heq, List.take_left]
          have hmem : (10 : UInt8) ∈ (r ++ s).takeWhile (· ≠ 10) := hall ▸ h10
          simpa using List.all_eq_true.mp List.all_takeWhile _ hmem
        · refine run_replace hrun fun c hc => ?_
          by_contra hne
          have hne : c ≠ 10 := by simpa using hne
          rcases List.mem_cons.mp (hline c hc hne rfl) with h | h
          · exact absurd h (by decide)
          · exact h10 h
      · by_cases hb' : b = 42
        · subst hb'
          simp only [slash] at hf hn ⊢
          rcases hblock : blockComment 0 (r ++ s) with ⟨n, closed⟩
          simp only [hblock] at hf hn
          cases closed with
          | false => cases hf
          | true =>
              have hn' : n ≤ r.length := Nat.le_of_succ_le_succ hn
              simp only [blockComment_replace hblock hn']
        · have hother (t : Text) : slash (b :: t) = .plain .slash 0 := by
            refine slash_other fun c hc => ?_
            cases hc
            exact ⟨hb, hb'⟩
          rw [hother, hother]

/-! ## Punctuation -/

/-- The marks that one second byte extends, with that byte and the two tokens. -/
def pairs : List (UInt8 × UInt8 × TokenKind × TokenKind) :=
  [(33, 61, .notEq, .bang), (38, 38, .doubleAmp, .amp), (45, 62, .arrow, .minus),
   (58, 58, .doubleColon, .colon)]

theorem lexeme_pair {b c : UInt8} {k k' : TokenKind} (h : (b, c, k, k') ∈ pairs)
    (rest : Text) :
    lexeme b rest = if rest.head? = some c then .plain k 1 else .plain k' 0 := by
  simp only [pairs, List.mem_cons, Prod.mk.injEq, List.not_mem_nil, or_false] at h
  cases rest with
  | nil => rcases h with h | h | h | h <;> obtain ⟨rfl, rfl, rfl, rfl⟩ := h <;> rfl
  | cons d t =>
      by_cases hd : d = c
      · subst hd
        rcases h with h | h | h | h <;> obtain ⟨rfl, rfl, rfl, rfl⟩ := h <;> rfl
      · rcases h with h | h | h | h <;> obtain ⟨rfl, rfl, rfl, rfl⟩ := h <;>
          simp [lexeme, single?, isSpace, hd]

theorem lexeme_equals (rest : Text) :
    lexeme 61 rest =
      if rest.head? = some 61 then .plain .eqEq 1
      else if rest.head? = some 62 then .plain .fatArrow 1
      else .plain .equals 0 := by
  cases rest with
  | nil => rfl
  | cons d t =>
      by_cases hd : d = 61
      · subst hd; rfl
      · by_cases hd' : d = 62
        · subst hd'; rfl
        · simp [lexeme, single?, isSpace, hd, hd']

theorem lexeme_dot (rest : Text) :
    lexeme 46 rest =
      if rest.head? = some 46 then
        if (rest.drop 1).head? = some 46 ∨ (rest.drop 1).head? = some 61
        then .plain .dotDot 2 else .plain .dotDot 1
      else .plain .dot 0 := by
  cases rest with
  | nil => rfl
  | cons d t =>
      by_cases hd : d = 46
      · subst hd
        cases t with
        | nil => rfl
        | cons e t =>
            by_cases he : e = 46
            · subst he; rfl
            · by_cases he' : e = 61
              · subst he'; rfl
              · simp [lexeme, single?, isSpace, he, he']
      · simp [lexeme, single?, isSpace, hd]

theorem lexeme_other {b : UInt8} (hsingle : single? b = none) (hspace : isSpace b = false)
    (hb : b ∉ ([33, 34, 38, 39, 45, 46, 47, 58, 61] : List UInt8)) (rest : Text) :
    lexeme b rest = wordLike b rest := by
  have hne {c : UInt8} (h : Char.ofNat b.toNat = Char.ofNat c.toNat) :
      c ∉ ([33, 34, 38, 39, 45, 46, 47, 58, 61] : List UInt8) := byte_ext h ▸ hb
  rw [lexeme, hsingle]
  simp only [hspace, Bool.false_eq_true, if_false]
  split
  case h_1 h _ | h_2 h _ => exact absurd (by decide) (hne (c := 33) h)
  case h_3 h _ | h_4 h _ | h_5 h _ _ => exact absurd (by decide) (hne (c := 61) h)
  case h_6 h _ | h_7 h _ => exact absurd (by decide) (hne (c := 38) h)
  case h_8 h _ | h_9 h _ => exact absurd (by decide) (hne (c := 45) h)
  case h_10 h _ | h_11 h _ => exact absurd (by decide) (hne (c := 46) h)
  case h_12 h _ | h_13 h _ => exact absurd (by decide) (hne (c := 58) h)
  case h_14 h => exact absurd (by decide) (hne (c := 47) h)
  case h_15 h => exact absurd (by decide) (hne (c := 39) h)
  case h_16 h => exact absurd (by decide) (hne (c := 34) h)
  case h_17 => rfl

section Replace

variable {b : UInt8}

theorem lexeme_pair_replace {c : UInt8} {k k' : TokenKind} (h : (b, c, k, k') ∈ pairs)
    (hn : (lexeme b (r ++ s)).size ≤ r.length) (hs : Stops b r s') :
    lexeme b (r ++ s') = lexeme b (r ++ s) := by
  rw [lexeme_pair h] at hn
  rw [lexeme_pair h, lexeme_pair h]
  cases r with
  | cons d r => rfl
  | nil =>
      have hs' : s'.head? ≠ some c := by
        intro hc
        obtain ⟨hsep, hglue, -⟩ := hs c hc
        have hglue := hglue rfl
        revert h hsep hglue
        simp only [pairs, List.mem_cons, Prod.mk.injEq, List.not_mem_nil, or_false]
        rintro (⟨rfl, rfl, -⟩ | ⟨rfl, rfl, -⟩ | ⟨rfl, rfl, -⟩ | ⟨rfl, rfl, -⟩) <;> decide
      simp only [List.nil_append] at hn ⊢
      rw [if_neg hs']
      split
      · next hc => rw [if_pos hc] at hn; exact absurd hn (Nat.not_succ_le_zero _)
      · rfl

theorem lexeme_equals_replace (hn : (lexeme 61 (r ++ s)).size ≤ r.length)
    (hs : Stops 61 r s') : lexeme 61 (r ++ s') = lexeme 61 (r ++ s) := by
  rw [lexeme_equals] at hn
  rw [lexeme_equals, lexeme_equals]
  cases r with
  | cons d r => rfl
  | nil =>
      have h61 : s'.head? ≠ some 61 := fun hc => absurd (hs _ hc).1 (by decide)
      have h62 : s'.head? ≠ some 62 := fun hc => absurd ((hs _ hc).2.1 rfl) (by decide)
      simp only [List.nil_append] at hn ⊢
      rw [if_neg h61, if_neg h62]
      split
      · next hc => rw [if_pos hc] at hn; exact absurd hn (Nat.not_succ_le_zero _)
      · next hc =>
          rw [if_neg hc] at hn
          split
          · next hc => rw [if_pos hc] at hn; exact absurd hn (Nat.not_succ_le_zero _)
          · rfl

theorem lexeme_dot_replace (hn : (lexeme 46 (r ++ s)).size ≤ r.length)
    (hs : ∀ c, s'.head? = some c → c ∈ separators) :
    lexeme 46 (r ++ s') = lexeme 46 (r ++ s) := by
  have h46 : s'.head? ≠ some 46 := fun hc => absurd (hs _ hc) (by decide)
  have h61 : s'.head? ≠ some 61 := fun hc => absurd (hs _ hc) (by decide)
  rw [lexeme_dot] at hn
  rw [lexeme_dot, lexeme_dot]
  match r with
  | [] =>
      simp only [List.nil_append] at hn ⊢
      rw [if_neg h46]
      split
      · next hc =>
          rw [if_pos hc] at hn
          split at hn <;> exact absurd hn (Nat.not_succ_le_zero _)
      · rfl
  | [d] =>
      simp only [List.cons_append, List.nil_append, List.head?_cons, List.drop_succ_cons,
        List.drop_zero] at hn ⊢
      split
      · next hd =>
          rw [if_pos hd] at hn
          rw [if_neg (not_or.mpr ⟨h46, h61⟩)]
          split
          · next hc => rw [if_pos hc] at hn; exact absurd hn (Nat.not_succ_le_self 1)
          · rfl
      · rfl
  | d :: e :: r => rfl

/-- A lexeme that lies within `b :: r` does not depend on what stands behind. -/
theorem lexeme_replace (hf : (lexeme b (r ++ s)).faults = [])
    (hn : (lexeme b (r ++ s)).size ≤ r.length) (hs : Stops b r s')
    (h39 : b = 39 → r = [39] → s.head? ≠ some 39) :
    lexeme b (r ++ s') = lexeme b (r ++ s) := by
  have hsep : ∀ c, s'.head? = some c → c ∈ separators := fun c hc => (hs c hc).1
  cases hsingle : single? b with
  | some kind => simp only [lexeme, hsingle]
  | none =>
      cases hspace : isSpace b with
      | true => simp only [lexeme, hsingle, hspace, if_true]
      | false =>
          by_cases hb : b ∈ ([33, 34, 38, 39, 45, 46, 47, 58, 61] : List UInt8)
          · simp only [List.mem_cons, List.not_mem_nil, or_false] at hb
            rcases hb with rfl | rfl | rfl | rfl | rfl | rfl | rfl | rfl | rfl
            · exact lexeme_pair_replace (by decide : (33, 61, .notEq, .bang) ∈ pairs) hn hs
            · exact string_replace hf hn
            · exact lexeme_pair_replace
                (by decide : (38, 38, .doubleAmp, .amp) ∈ pairs) hn hs
            · exact quote_replace hf hn (h39 rfl) hsep
            · exact lexeme_pair_replace (by decide : (45, 62, .arrow, .minus) ∈ pairs) hn hs
            · exact lexeme_dot_replace hn hsep
            · exact slash_replace hf hn hsep fun c hc hne => (hs c hc).2.2 hne rfl
            · exact lexeme_pair_replace
                (by decide : (58, 58, .doubleColon, .colon) ∈ pairs) hn hs
            · exact lexeme_equals_replace hn hs
          · rw [lexeme_other hsingle hspace hb] at hf hn
            rw [lexeme_other hsingle hspace hb, lexeme_other hsingle hspace hb]
            exact wordLike_replace hf hn hsep

end Replace
end Deriver.Scan

/-!
## No lexeme reaches past the end

Every scanner counts bytes that are there. This is what makes the size of a
lexeme that ends with the source a size the other lemmas can speak about.
-/

namespace Deriver.Scan

theorem body_size_le (stop : UInt8 → Bool) (k : Nat) (t : Text) :
    (body stop k t).size ≤ t.length := by
  induction t generalizing k with
  | nil => exact Nat.le_of_eq rfl
  | cons b t ih =>
      cases k with
      | succ k => exact Nat.succ_le_succ (ih k)
      | zero =>
          rw [body]
          split
          · exact Nat.zero_le _
          · split
            · extract_lets e after
              split <;> exact Nat.succ_le_succ (ih e.size)
            · exact Nat.succ_le_succ (ih 0)

theorem lt_length_of_drop {t u : Text} {b : UInt8} {n : Nat} (h : t.drop n = b :: u) :
    n < t.length := by
  rw [← List.drop_eq_nil_iff.not.trans Nat.not_le]
  simp [h]

theorem charLiteral_size_le (t : Text) : (charLiteral t).size ≤ t.length := by
  simp only [charLiteral]
  split
  · next h => exact lt_length_of_drop h
  · exact body_size_le _ _ _

theorem string_size_le (t : Text) : (string t).size ≤ t.length := by
  simp only [string]
  split
  · exact body_size_le _ _ _
  · next h => exact lt_length_of_drop h

theorem find?_le {t needle : Text} {n : Nat} (h : Text.find? t needle = some n) :
    n + needle.length ≤ t.length := by
  induction t generalizing n with
  | nil =>
      rw [Text.find?] at h
      split at h
      · next hempty =>
          cases h
          rw [List.isEmpty_iff.mp hempty]
          exact Nat.le_refl _
      · cases h
  | cons b t ih =>
      rw [Text.find?] at h
      split at h
      · next hpre =>
          cases h
          simpa using (List.isPrefixOf_iff_prefix.mp hpre).length_le
      · obtain ⟨m, hm, rfl⟩ := Option.map_eq_some_iff.mp h
        have := ih hm
        rw [List.length_cons]
        omega

theorem rawString_size_le (t : Text) : (rawString t).size ≤ t.length := by
  simp only [rawString]
  split
  · next inner h =>
      have hlen := congrArg List.length h
      rw [List.length_drop, List.length_cons] at hlen
      split
      · next n hn =>
          have := find?_le hn
          rw [List.length_cons, List.length_replicate] at this
          simp only
          omega
      · exact Nat.le_refl _
  · exact run_le _ _

theorem quote_size_le (t : Text) : (quote t).size ≤ t.length := by
  unfold quote
  split
  · exact charLiteral_size_le t
  · split
    · exact Nat.zero_le _
    · split
      · exact charLiteral_size_le t
      · split
        · split
          · exact run_le _ _
          · exact Nat.zero_le _
        · exact Nat.zero_le _

theorem slash_size_le (t : Text) : (slash t).size ≤ t.length := by
  unfold slash
  split
  · next u =>
      have := run_le (· ≠ 10) u
      simp only [Lexeme.skipped, List.length_cons]
      omega
  · next u =>
      rcases hb : blockComment 0 u with ⟨n, closed⟩
      have := Nat.succ_le_succ (blockComment_size_le hb)
      cases closed <;> exact this
  · exact Nat.zero_le _

theorem wholeSize_le (first : UInt8) (t : Text) :
    wholeSize (radixOf first t) t ≤ t.length := by
  by_cases hr : radixOf first t = 10
  · simp only [wholeSize, if_pos hr, List.drop_zero, Nat.zero_add]
    exact run_le _ _
  · cases t with
    | nil => exact absurd (by simp [radixOf]) hr
    | cons b t =>
        have := run_le (fun c => isDigitIn (radixOf first (b :: t)) c || c == 95) t
        simp only [wholeSize, if_neg hr, List.drop_succ_cons, List.drop_zero,
          List.length_cons]
        omega

theorem fractionSize_le (t : Text) : fractionSize t ≤ t.length := by
  unfold fractionSize
  split
  · next b u =>
      have := run_le isDigitOrGap (b :: u)
      split
      · rw [List.length_cons]; omega
      · exact Nat.zero_le _
  · exact Nat.zero_le _

theorem signSize_le (t : Text) : signSize t ≤ t.length := by
  cases t with
  | nil => exact Nat.le_of_eq rfl
  | cons b t =>
      unfold signSize
      split
      · exact Nat.succ_le_succ (Nat.zero_le _)
      · exact Nat.zero_le _

theorem exponentSize?_le {t : Text} {n : Nat} {ok : Bool}
    (h : exponentSize? t = some (n, ok)) : n ≤ t.length := by
  cases t with
  | nil => cases h
  | cons e t =>
      by_cases he : e = 101 ∨ e = 69
      · rw [exponentSize?_cons he, Option.some.injEq] at h
        have hsign := signSize_le t
        have hrun := run_le isDigitOrGap (t.drop (signSize t))
        rw [List.length_drop] at hrun
        rw [List.length_cons]
        split at h <;> cases h <;> omega
      · rw [exponentSize?_other] at h
        · cases h
        · intro c hc
          cases hc
          exact not_or.mp he

theorem number_size_le (first : UInt8) (t : Text) : (number first t).size ≤ t.length := by
  have hwhole := wholeSize_le first t
  have hmantissa : mantissaOf first t ≤ t.length := by
    unfold mantissaOf fractionOf
    split
    · have := fractionSize_le (t.drop (wholeSize (radixOf first t) t))
      rw [List.length_drop] at this
      omega
    · omega
  have hexponent {n : Nat} {ok : Bool} (h : exponentOf first t = some (n, ok)) :
      mantissaOf first t + n ≤ t.length := by
    unfold exponentOf at h
    split at h
    · have := exponentSize?_le h
      rw [List.length_drop] at this
      omega
    · cases h
  have hbody : bodyOf first t ≤ t.length := by
    unfold bodyOf
    cases h : exponentOf first t with
    | none => exact hmantissa
    | some e => exact hexponent h
  rw [number_eq]
  split
  · next n h => exact hexponent h
  · rw [numberToken_size, suffixOf, List.length_take, List.length_drop]
    omega

theorem wordLike_size_le (first : UInt8) (t : Text) :
    (wordLike first t).size ≤ t.length := by
  have hshift {c : UInt8} {l : Lexeme} (h : (t.head? == some c) = true)
      (hl : l.size ≤ (t.drop 1).length) : (l.shift 1).size ≤ t.length := by
    cases t with
    | nil => cases h
    | cons b t => exact Nat.succ_le_succ hl
  simp only [wordLike]
  split_ifs with h1 h2 h3 h4 h5 h6 h7
  · exact number_size_le first t
  · exact rawString_size_le t
  · exact hshift (Bool.and_eq_true_iff.mp h3).2 (string_size_le _)
  · exact hshift (Bool.and_eq_true_iff.mp (Bool.and_eq_true_iff.mp h4).1).2
      (rawString_size_le _)
  · exact hshift (Bool.and_eq_true_iff.mp h5).2 (charLiteral_size_le _)
  · cases t with
    | nil => simp at h6
    | cons b t =>
        have := run_le isAlphaNum t
        simp only [Lexeme.plain, List.drop_succ_cons, List.drop_zero, List.length_cons]
        omega
  · rw [word_size]
    exact run_le _ _
  · exact Nat.zero_le _

theorem lexeme_pair_size_le {b c : UInt8} {k k' : TokenKind} (h : (b, c, k, k') ∈ pairs)
    (t : Text) : (lexeme b t).size ≤ t.length := by
  rw [lexeme_pair h]
  split
  · next hc =>
      obtain ⟨u, rfl⟩ := List.head?_eq_some_iff.mp hc
      exact Nat.succ_le_succ (Nat.zero_le _)
  · exact Nat.zero_le _

theorem lexeme_equals_size_le (t : Text) : (lexeme 61 t).size ≤ t.length := by
  rw [lexeme_equals]
  cases t with
  | nil => exact Nat.zero_le _
  | cons b t => split_ifs <;> simp [Lexeme.plain]

theorem lexeme_dot_size_le (t : Text) : (lexeme 46 t).size ≤ t.length := by
  rw [lexeme_dot]
  match t with
  | [] => exact Nat.zero_le _
  | [b] => split_ifs <;> simp_all [Lexeme.plain]
  | b :: c :: t => split_ifs <;> simp [Lexeme.plain]

theorem lexeme_size_le (b : UInt8) (t : Text) : (lexeme b t).size ≤ t.length := by
  cases hsingle : single? b with
  | some kind => simp only [lexeme, hsingle, Lexeme.plain, Nat.zero_le]
  | none =>
      cases hspace : isSpace b with
      | true => simp only [lexeme, hsingle, hspace, if_true, Lexeme.skipped, Nat.zero_le]
      | false =>
          by_cases hb : b ∈ ([33, 34, 38, 39, 45, 46, 47, 58, 61] : List UInt8)
          · simp only [List.mem_cons, List.not_mem_nil, or_false] at hb
            rcases hb with rfl | rfl | rfl | rfl | rfl | rfl | rfl | rfl | rfl
            · exact lexeme_pair_size_le (by decide : (33, 61, .notEq, .bang) ∈ pairs) t
            · exact string_size_le t
            · exact lexeme_pair_size_le (by decide : (38, 38, .doubleAmp, .amp) ∈ pairs) t
            · exact quote_size_le t
            · exact lexeme_pair_size_le (by decide : (45, 62, .arrow, .minus) ∈ pairs) t
            · exact lexeme_dot_size_le t
            · exact slash_size_le t
            · exact lexeme_pair_size_le
                (by decide : (58, 58, .doubleColon, .colon) ∈ pairs) t
            · exact lexeme_equals_size_le t
          · rw [lexeme_other hsingle hspace hb]
            exact wordLike_size_le b t

end Deriver.Scan
