import Deriver.Proofs.Text.Utf8
import Deriver.Proofs.Token.Lexeme
import Deriver.Proofs.Token.Tiling

/-!
# What a token ends with

Main statement: `lasts_of_lexeme`. No token ends with white space, one that ends
with a quote is a character, and a word does not end with punctuation. So a text
that begins and ends with a token has no white space to trim (`trim_of_ends`),
and what follows a word cannot be taken for a part of it. What ends like a name has
no name directly behind it (`not_alpha_behind`).
-/

namespace Deriver

/-! ## White space around a text -/

namespace Text

/-- The bytes of white space below 0x80. -/
def blankBytes : List UInt8 := [9, 10, 11, 12, 13, 32]

theorem dropMarks_of_plain {marks : List Text} {t : Text} (n : Nat)
    (hmarks : marks.all (fun m => m.head?.any fun x =>
    blankBytes.contains x || 0x80 ≤ x) = true)
    (h : ∀ c, t.head? = some c → c < 0x80 ∧ c ∉ blankBytes) : dropMarks marks n t = t := by
  cases n with
  | zero => rfl
  | succ n =>
      have hnone : marks.find? (·.isPrefixOf t) = none := by
        rw [List.find?_eq_none]
        intro m hm hpre
        have hmark := List.all_eq_true.mp hmarks m hm
        obtain ⟨u, rfl⟩ := List.isPrefixOf_iff_prefix.mp hpre
        cases m with
        | nil => cases hmark
        | cons x m =>
            obtain ⟨hlow, hplain⟩ := h x rfl
            simp only [List.head?_cons, Option.any_some, Bool.or_eq_true,
              List.contains_iff_mem, decide_eq_true_eq] at hmark
            rcases hmark with hblank | hhigh
            · exact hplain hblank
            · exact absurd hlow (UInt8.not_lt.mpr hhigh)
      rw [dropMarks, hnone]

theorem trim_of_ends {t : Text} (hfirst : ∀ c, t.head? = some c → c < 0x80 ∧ c ∉ blankBytes)
    (hlast : ∀ c, t.getLast? = some c → c < 0x80 ∧ c ∉ blankBytes) : t.trim = t := by
  unfold trim trimStart trimEnd
  rw [dropMarks_of_plain _ (by decide) hfirst, dropMarks_of_plain _ (by decide),
    List.reverse_reverse]
  intro c hc
  rw [List.head?_reverse] at hc
  exact hlast c hc

end Text
/-! ## The last byte -/

/-- Whether tokens of a kind are names, reserved words, lifetimes or strings. -/
def TokenKind.isWord (k : TokenKind) : Bool :=
  k == .ident || k == .lifetime || k == .str || k.isKeyword

namespace Scan

/-- The bytes of punctuation, without the hash, which can end a string. -/
def points : List UInt8 :=
  [33, 36, 37, 38, 40, 41, 42, 43, 44, 45, 46, 47, 58, 59, 60, 61, 62, 63, 64, 91,
    93, 94, 123, 124,
   125, 126]

/-- Whether a token of a kind may end with a byte. -/
def lasts (k : TokenKind) (c : UInt8) : Bool :=
  isAlphaNum c || c == 34 || c == 35 || (c == 39 && k == .char) ||
    (points.contains c && !k.isWord)

/-- Whether the lexeme that `b` begins in front of `rest`, if it is a token, ends
as tokens of its kind do. -/
def EndsWell (b : UInt8) (rest : Text) (l : Lexeme) : Prop :=
  ∀ k v, l.token = some (k, v) → ∀ c, (b :: rest.take l.size).getLast? = some c →
    lasts k c = true

variable {b c : UInt8} {rest t u : Text} {k : TokenKind} {v : Option Literal}

/-- A digit is alphanumeric, space and the marks that are tokens of their own are not, and
such a token may end with its mark. -/
theorem classes : ∀ b : UInt8,
    ((Text.hexDigit? b).isSome = true → isAlphaNum b = true) ∧
    (isSpace b = true → isAlphaNum b = false) ∧
    ((single? b).isSome = true → isAlphaNum b = false) ∧
    ((single? b).all fun k => lasts k b) = true :=
  forall_byte (by decide +kernel)

theorem lexeme_alphaNum (h : isAlphaNum b = true) (rest : Text) :
    lexeme b rest = wordLike b rest := by
  refine lexeme_other ?_ ?_ ?_ rest
  · rw [← Option.not_isSome_iff_eq_none]
    intro hsingle
    exact Bool.false_ne_true ((classes b).2.2.1 hsingle ▸ h)
  · rw [← Bool.not_eq_true]
    intro hspace
    exact Bool.false_ne_true ((classes b).2.1 hspace ▸ h)
  · intro hmark
    have hmarks : ∀ c ∈ ([33, 34, 38, 39, 45, 46, 47, 58, 61] : List UInt8),
        isAlphaNum c = false := by decide +kernel
    rw [hmarks b hmark] at h
    cases h

theorem lasts_of_alphaNum (h : isAlphaNum c = true) : lasts k c = true := by simp [lasts, h]

theorem lasts_of_point (hc : c ∈ points) (hk : k.isWord = false) : lasts k c = true := by
  simp [lasts, hc, hk]

theorem getLast?_take_succ {n : Nat} (h : t.drop n = c :: u) :
    (t.take (n + 1)).getLast? = some c := by
  have hlt := lt_length_of_drop h
  rw [List.drop_eq_getElem_cons hlt, List.cons.injEq] at h
  rw [List.take_succ_eq_append_getElem hlt, List.getLast?_concat, h.1]

theorem last_eq_of_take {n : Nat} {d : UInt8} (h : (t.take n).getLast? = some d)
    (hc : (b :: t.take n).getLast? = some c) : c = d := by
  rw [List.getLast?_cons, h] at hc
  exact (Option.some.inj hc).symm

theorem mem_of_last (hc : (b :: u).getLast? = some c) : c = b ∨ c ∈ u :=
  List.mem_cons.mp (List.mem_of_getLast? hc)

theorem of_mem_take_run {p : UInt8 → Bool} (h : c ∈ t.take (run p t)) : p c = true := by
  rw [take_run] at h
  exact List.mem_takeWhile_imp h

theorem endsWell_none {n : Nat} {fs : List (Fault × Nat)} : EndsWell b rest ⟨n, none, fs⟩ :=
  fun _ _ h => nomatch h

theorem endsWell_single {fs : List (Fault × Nat)} (h : lasts k b = true) :
    EndsWell b rest ⟨0, some (k, v), fs⟩ := by
  rintro _ _ ⟨⟩ c hc
  cases hc
  exact h

theorem endsWell_pair {fs : List (Fault × Nat)} (hhead : rest.head? = some c)
    (h : lasts k c = true) : EndsWell b rest ⟨1, some (k, v), fs⟩ := by
  rintro _ _ ⟨⟩ d hd
  obtain ⟨t, rfl⟩ := List.head?_eq_some_iff.mp hhead
  cases hd
  exact h

/-! ## Quoted literals -/

/-- A body that does not go to the end of the source ends where it is told to. -/
theorem stop_of_body {stop : UInt8 → Bool} {n : Nat}
    (h : t.drop (body stop n t).size = c :: u) : stop c = true := by
  induction t generalizing n with
  | nil => simp at h
  | cons b t ih =>
      cases n with
      | succ n =>
          rw [body, Body.push, List.drop_succ_cons] at h
          exact ih h
      | zero =>
          rw [body] at h
          split at h
          · next hstop =>
              rw [List.drop_zero, List.cons.injEq] at h
              exact h.1 ▸ hstop
          · split at h
            · extract_lets e after at h
              split at h <;> exact ih h
            · exact ih h

theorem charLiteral_last (h : (charLiteral t).token = some (k, v)) :
    k = .char ∧ (t.take (charLiteral t).size).getLast? = some 39 := by
  simp only [charLiteral] at h ⊢
  split at h
  · next heq =>
      cases h
      exact ⟨rfl, getLast?_take_succ heq⟩
  · cases h

theorem string_last (h : (string t).token = some (k, v)) :
    k = .str ∧ (t.take (string t).size).getLast? = some 34 := by
  simp only [string] at h ⊢
  split at h
  · cases h
  · next c u heq =>
      cases h
      refine ⟨rfl, ?_⟩
      rw [getLast?_take_succ heq, show c = 34 by simpa using stop_of_body heq]

theorem drop_of_find? {needle : Text} {n : Nat} (h : Text.find? t needle = some n) :
    needle <+: t.drop n := by
  induction t generalizing n with
  | nil =>
      rw [Text.find?] at h
      split at h
      · next hempty =>
          rw [List.isEmpty_iff.mp hempty]
          exact List.nil_prefix
      · cases h
  | cons b t ih =>
      rw [Text.find?] at h
      split at h
      · next hpre =>
          cases h
          exact List.isPrefixOf_iff_prefix.mp hpre
      · obtain ⟨m, hm, rfl⟩ := Option.map_eq_some_iff.mp h
        exact ih hm

theorem rawString_last (h : (rawString t).token = some (k, v)) :
    k = .str ∧ ∃ c, (t.take (rawString t).size).getLast? = some c ∧ (c = 34 ∨ c = 35) := by
  simp only [rawString] at h ⊢
  split at h
  · next inner heq =>
      split at h
      · next n hn =>
          cases h
          refine ⟨rfl, ?_⟩
          -- the literal ends with the quote and the hashes that were looked for
          obtain ⟨w, hw⟩ := drop_of_find? hn
          have hlen : (34 :: List.replicate (run (· == 35) t) (35 : UInt8)).length =
              1 + run (· == 35) t := by
            rw [List.length_cons, List.length_replicate, Nat.add_comm]
          have hdrop : t.drop (run (· == 35) t + 1 + n) =
              34 :: List.replicate (run (· == 35) t) 35 ++ w := by
            rw [hw, ← List.drop_drop, ← List.drop_drop, heq]
            rfl
          rw [Nat.add_assoc _ 1, List.take_add, hdrop, ← hlen, List.take_left,
            List.getLast?_append_cons, List.getLast?_eq_some_getLast (List.cons_ne_nil _ _)]
          refine ⟨_, rfl, ?_⟩
          rcases List.mem_cons.mp (List.getLast_mem (List.cons_ne_nil _ _)) with h | h
          · exact Or.inl h
          · exact Or.inr (List.mem_replicate.mp h).2
      · cases h
  · cases h

theorem charLiteral_endsWell (rest : Text) : EndsWell b rest (charLiteral rest) := by
  intro k v h c hc
  obtain ⟨rfl, hlast⟩ := charLiteral_last h
  rw [last_eq_of_take hlast hc]
  rfl

theorem quote_endsWell (rest : Text) : EndsWell 39 rest (quote rest) := by
  cases rest with
  | nil => exact endsWell_none
  | cons x t =>
      by_cases hx : x = 92
      · subst hx
        exact charLiteral_endsWell (92 :: t)
      · rw [quote_cons t hx]
        split
        · exact charLiteral_endsWell (x :: t)
        · split
          · next ch hch =>
              split
              · next hletter =>
                  -- there is a letter behind the quote
                  rw [Bool.and_eq_true] at hletter
                  have hrun := lt_run_of_letter (Prod.ext hch rfl) hletter.2
                  rintro _ _ ⟨⟩ c hc
                  have hne : (x :: t).take (run isAlphaNum (x :: t)) ≠ [] := by
                    rw [ne_eq, List.take_eq_nil_iff]
                    exact not_or.mpr ⟨Nat.ne_of_gt (Nat.zero_lt_of_lt hrun),
                      List.cons_ne_nil _ _⟩
                  have hlast := List.getLast?_eq_some_getLast hne
                  rw [last_eq_of_take hlast hc]
                  exact lasts_of_alphaNum (of_mem_take_run (List.getLast_mem hne))
              · exact endsWell_none
          · exact endsWell_none

/-! ## Numbers -/

/-- Whether a byte can stand in a number behind its first digit. -/
def isNumberPart (c : UInt8) : Bool := isAlphaNum c || c == 43 || c == 45 || c == 46

theorem isNumberPart_of_alphaNum (h : isAlphaNum c = true) : isNumberPart c = true := by
  simp [isNumberPart, h]

theorem isAlphaNum_of_digitOrGap (h : isDigitOrGap c = true) : isAlphaNum c = true := by
  rw [isDigitOrGap, Bool.or_eq_true, beq_iff_eq] at h
  rcases h with h | rfl
  · rw [isAlphaNum, h, Bool.or_true]
  · rfl

theorem isAlphaNum_of_digitIn {radix : Nat} (h : (isDigitIn radix c || c == 95) = true) :
    isAlphaNum c = true := by
  rw [Bool.or_eq_true, beq_iff_eq] at h
  rcases h with h | rfl
  · have hhex : (Text.hexDigit? c).isSome = true := by
      unfold isDigitIn at h
      split at h
      · next hd => rw [hd]; rfl
      · cases h
    exact (classes c).1 hhex
  · rfl

theorem mem_take_add {m n : Nat} (h : c ∈ t.take (m + n)) :
    c ∈ t.take m ∨ c ∈ (t.drop m).take n := by
  rwa [List.take_add, List.mem_append] at h

theorem isNumberPart_of_whole {first : UInt8}
    (h : c ∈ t.take (wholeSize (radixOf first t) t)) : isNumberPart c = true := by
  refine isNumberPart_of_alphaNum ?_
  unfold wholeSize at h
  rcases mem_take_add h with h | h
  · -- the mark of the radix
    unfold radixOf at h
    cases t with
    | nil => simp at h
    | cons d t =>
        rw [List.head?_cons] at h
        split at h
        · split at h
          · next hd => cases hd; simp_all; rfl
          · next hd => cases hd; simp_all; rfl
          · next hd => cases hd; simp_all; rfl
          · simp at h
        · simp at h
  · exact isAlphaNum_of_digitIn (of_mem_take_run h)

theorem isNumberPart_of_fraction (h : c ∈ t.take (fractionSize t)) :
    isNumberPart c = true := by
  unfold fractionSize at h
  split at h
  · next d u =>
      split at h
      · rw [Nat.add_comm, List.take_succ_cons] at h
        rcases List.mem_cons.mp h with rfl | h
        · rfl
        · exact isNumberPart_of_alphaNum (isAlphaNum_of_digitOrGap (of_mem_take_run h))
      · simp at h
  · simp at h

theorem isNumberPart_of_exponent {n : Nat} (hn : exponentSize? t = some (n, true))
    (h : c ∈ t.take n) : isNumberPart c = true := by
  cases t with
  | nil => cases hn
  | cons e t =>
      by_cases he : e = 101 ∨ e = 69
      · rw [exponentSize?_cons he, Option.some.injEq] at hn
        split at hn
        · cases hn
          rw [Nat.add_assoc, Nat.add_comm 1, List.take_succ_cons] at h
          rcases List.mem_cons.mp h with rfl | h
          · rcases he with rfl | rfl <;> rfl
          · rcases mem_take_add h with h | h
            · -- the sign
              unfold signSize at h
              split at h
              · next hsign =>
                  cases t with
                  | nil => simp at h
                  | cons d t =>
                      simp only [List.head?_cons, Option.some.injEq] at hsign
                      rw [List.take_succ_cons, List.take_zero, List.mem_singleton] at h
                      rcases hsign with rfl | rfl <;> rw [h] <;> rfl
              · simp at h
            · exact isNumberPart_of_alphaNum (isAlphaNum_of_digitOrGap (of_mem_take_run h))
        · cases hn
      · rw [exponentSize?_other] at hn
        · cases hn
        · rintro _ ⟨⟩
          exact not_or.mp he

theorem isNumberPart_of_suffix (h : c ∈ t.take (suffixSize t)) : isNumberPart c = true := by
  unfold suffixSize at h
  split at h
  · split at h
    · exact isNumberPart_of_alphaNum (of_mem_take_run h)
    · simp at h
  · simp at h

theorem isNumberPart_of_number {first : UInt8} (hf : (number first t).faults = [])
    (h : c ∈ t.take (number first t).size) : isNumberPart c = true := by
  obtain ⟨hok, hsize⟩ := number_size hf
  rw [hsize] at h
  rcases mem_take_add h with h | h
  · rcases mem_take_add h with h | h
    · rcases mem_take_add h with h | h
      · exact isNumberPart_of_whole h
      · unfold fractionOf at h
        split at h
        · exact isNumberPart_of_fraction h
        · simp at h
    · cases he : exponentOf first t with
      | none => rw [he] at h; simp at h
      | some e =>
          obtain ⟨n, ok⟩ := e
          obtain rfl := hok n ok he
          rw [he] at h
          unfold exponentOf at he
          split at he
          · exact isNumberPart_of_exponent he h
          · cases he
  · exact isNumberPart_of_suffix h

theorem numberToken_token {radix n : Nat} {broken : Bool} {written suffix whole : Text}
    (h : (numberToken radix broken written suffix whole n).token = some (k, v)) :
    (k = .int ∨ k = .float) ∧ (numberToken radix broken written suffix whole n).faults =
    [] := by
  simp only [numberToken] at h ⊢
  split at h
  · next hfloat =>
      rw [if_pos hfloat]
      split at h
      · cases h
        exact ⟨Or.inr rfl, rfl⟩
      · cases h
  · next hint =>
      rw [if_neg hint]
      cases h
      exact ⟨Or.inl rfl, rfl⟩

theorem number_endsWell {first : UInt8} (hfirst : Text.isDigitByte first = true)
    (rest : Text) : EndsWell first rest (number first rest) := by
  intro k v h c hc
  obtain ⟨hkind, hclean⟩ : (k = .int ∨ k = .float) ∧ (number first rest).faults = [] := by
    rw [number_eq] at h ⊢
    split at h
    · cases h
    · exact numberToken_token h
  rcases mem_of_last hc with rfl | hmem
  · refine lasts_of_alphaNum ?_
    rw [isAlphaNum, hfirst, Bool.or_true]
  · have hpart := isNumberPart_of_number hclean hmem
    unfold isNumberPart at hpart
    simp only [Bool.or_eq_true, beq_iff_eq] at hpart
    rcases hpart with ((hpart | rfl) | rfl) | rfl
    · exact lasts_of_alphaNum hpart
    all_goals
      refine lasts_of_point (by decide) ?_
      rcases hkind with rfl | rfl <;> rfl

/-! ## Words and marks -/

theorem word_endsWell {first : UInt8} (hfirst : isAlpha first = true) (rest : Text) :
    EndsWell first rest (word first rest) := by
  intro k v _ c hc
  rw [word_size] at hc
  refine lasts_of_alphaNum ?_
  rcases mem_of_last hc with rfl | hmem
  · exact isAlphaNum_of_alpha hfirst
  · exact of_mem_take_run hmem

theorem endsWell_shift {q : UInt8} {l : Lexeme} (h : rest.head? = some q)
    (hl : EndsWell q (rest.drop 1) l) : EndsWell b rest (l.shift 1) := by
  obtain ⟨t, rfl⟩ := List.head?_eq_some_iff.mp h
  intro k v hk c hc
  refine hl k v hk c ?_
  rw [← hc, Lexeme.shift, List.take_succ_cons, List.getLast?_cons_cons]
  rfl

theorem string_endsWell (rest : Text) : EndsWell b rest (string rest) := by
  intro k v h c hc
  obtain ⟨rfl, hlast⟩ := string_last h
  rw [last_eq_of_take hlast hc]
  rfl

theorem rawString_endsWell (rest : Text) : EndsWell b rest (rawString rest) := by
  intro k v h c hc
  obtain ⟨rfl, d, hlast, hd⟩ := rawString_last h
  rw [last_eq_of_take hlast hc]
  rcases hd with rfl | rfl <;> rfl

theorem rawName_endsWell (h : ((rest.drop 1).head?).any isAlpha = true) :
    EndsWell b rest (.plain .ident (1 + run isAlphaNum (rest.drop 1))) := by
  rintro _ _ ⟨⟩ c hc
  obtain ⟨q, d, t, rfl⟩ : ∃ q d t, rest = q :: d :: t := by
    match rest with
    | [] | [_] => cases h
    | q :: d :: t => exact ⟨q, d, t, rfl⟩
  have hd : isAlphaNum d = true := isAlphaNum_of_alpha h
  refine lasts_of_alphaNum ?_
  rw [Lexeme.plain, Nat.add_comm, List.take_succ_cons, List.drop_succ_cons,
    List.drop_zero, take_run, List.takeWhile_cons_of_pos hd, List.getLast?_cons_cons,
    List.getLast?_cons_cons] at hc
  rcases mem_of_last hc with rfl | hmem
  · exact hd
  · exact List.mem_takeWhile_imp hmem

theorem wordLike_endsWell (first : UInt8) (rest : Text) :
    EndsWell first rest (wordLike first rest) := by
  simp only [wordLike]
  split_ifs with h1 h2 h3 h4 h5 h6 h7
  · exact number_endsWell h1 rest
  · exact rawString_endsWell rest
  · rw [Bool.and_eq_true, beq_iff_eq] at h3
    exact endsWell_shift h3.2 (string_endsWell _)
  · simp only [Bool.and_eq_true, beq_iff_eq] at h4
    exact endsWell_shift h4.1.2 (rawString_endsWell _)
  · rw [Bool.and_eq_true, beq_iff_eq, beq_iff_eq] at h5
    exact endsWell_shift h5.2 (charLiteral_endsWell _)
  · rw [Bool.and_eq_true] at h6
    exact rawName_endsWell h6.2
  · exact word_endsWell h7 rest
  · exact endsWell_none

theorem single?_endsWell (h : single? b = some k) : EndsWell b rest (.plain k 0) := by
  have hb := (classes b).2.2.2
  rw [h] at hb
  exact endsWell_single hb

theorem lexeme_pair_endsWell {k' : TokenKind} (h : (b, c, k, k') ∈ pairs) (rest : Text) :
    EndsWell b rest (lexeme b rest) := by
  have hlasts : ∀ x ∈ pairs, lasts x.2.2.1 x.2.1 = true ∧
      lasts x.2.2.2 x.1 = true := by decide
  rw [lexeme_pair h]
  split
  · next hhead => exact endsWell_pair hhead (hlasts _ h).1
  · exact endsWell_single (hlasts _ h).2

theorem lexeme_equals_endsWell (rest : Text) : EndsWell 61 rest (lexeme 61 rest) := by
  rw [lexeme_equals]
  split
  · next hhead => exact endsWell_pair hhead (by decide)
  · split
    · next hhead => exact endsWell_pair hhead (by decide)
    · exact endsWell_single (by decide)

theorem lexeme_dot_endsWell (rest : Text) : EndsWell 46 rest (lexeme 46 rest) := by
  rw [lexeme_dot]
  split
  · next hhead =>
      split
      · next hnext =>
          -- the third byte is a dot or an equals sign
          match rest with
          | [] | [_] => rcases hnext with h | h <;> cases h
          | d :: e :: t =>
              rintro _ _ ⟨⟩ c hc
              replace hc : some e = some c := hc
              cases hc
              rcases hnext with h | h <;> cases h <;> decide
      · exact endsWell_pair hhead (by decide)
  · exact endsWell_single (by decide)

theorem slash_endsWell (rest : Text) : EndsWell 47 rest (slash rest) := by
  unfold slash
  split
  · exact endsWell_none
  · split
    split <;> exact endsWell_none
  · exact endsWell_single (by decide)

theorem lasts_of_lexeme (b : UInt8) (rest : Text) : EndsWell b rest (lexeme b rest) := by
  cases hsingle : single? b with
  | some kind =>
      simp only [lexeme, hsingle]
      exact single?_endsWell hsingle
  | none =>
      cases hspace : isSpace b with
      | true =>
          simp only [lexeme, hsingle, hspace, if_true]
          exact endsWell_none
      | false =>
          by_cases hb : b ∈ ([33, 34, 38, 39, 45, 46, 47, 58, 61] : List UInt8)
          · simp only [List.mem_cons, List.not_mem_nil, or_false] at hb
            rcases hb with rfl | rfl | rfl | rfl | rfl | rfl | rfl | rfl | rfl
            · exact lexeme_pair_endsWell (by decide : (33, 61, .notEq, .bang) ∈ pairs) rest
            · exact string_endsWell rest
            · exact lexeme_pair_endsWell
                (by decide : (38, 38, .doubleAmp, .amp) ∈ pairs) rest
            · exact quote_endsWell rest
            · exact lexeme_pair_endsWell (by decide : (45, 62, .arrow, .minus) ∈ pairs) rest
            · exact lexeme_dot_endsWell rest
            · exact slash_endsWell rest
            · exact lexeme_pair_endsWell
                (by decide : (58, 58, .doubleColon, .colon) ∈ pairs) rest
            · exact lexeme_equals_endsWell rest
          · rw [lexeme_other hsingle hspace hb]
            exact wordLike_endsWell b rest

/-! ## What follows from it -/

theorem token_of_blank (h : b ∈ Text.blankBytes) (rest : Text) :
    (lexeme b rest).token = none := by
  simp only [Text.blankBytes, List.mem_cons, List.not_mem_nil, or_false] at h
  rcases h with rfl | rfl | rfl | rfl | rfl | rfl <;> rfl

theorem not_blank_of_lasts (h : lasts k c = true) : c ∉ Text.blankBytes := by
  intro hc
  simp only [Text.blankBytes, List.mem_cons, List.not_mem_nil, or_false] at hc
  rcases hc with rfl | rfl | rfl | rfl | rfl | rfl <;> cases h

theorem char_of_lasts (h : lasts k 39 = true) : k = .char := by
  simpa [lasts, points, isAlphaNum, isAlpha, Text.isLowerByte, Text.isUpperByte,
    Text.isDigitByte] using h

theorem not_point_of_lasts (hk : k.isWord = true) (h : lasts k c = true) : c ∉ points := by
  intro hc
  have hpoints : ∀ c ∈ points, (isAlphaNum c || c == 34 || c == 35 || c == 39) = false := by
    decide +kernel
  have hplain := hpoints c hc
  simp only [Bool.or_eq_false_iff] at hplain
  simp [lasts, hplain, hk] at h

/-! ## What stands behind -/

/-- Whether the lexeme that `b` begins in front of `rest`, if it is a token and ends like a
name, has no name directly behind it. -/
def Parted (b : UInt8) (rest : Text) (l : Lexeme) : Prop :=
  ∀ kv, l.token = some kv → ∀ c, (b :: rest.take l.size).getLast? = some c →
    isAlphaNum c = true →
    ∀ d, (rest.drop l.size).head? = some d → isAlpha d = false

theorem parted_none {n : Nat} {fs : List (Fault × Nat)} : Parted b rest ⟨n, none, fs⟩ :=
  fun _ h => nomatch h

theorem parted_last {l : Lexeme} (h : ∀ kv, l.token = some kv →
    ∀ c, (b :: rest.take l.size).getLast? = some c →
    isAlphaNum c = false) : Parted b rest l := by
  intro kv hkv c hc halpha
  rw [h kv hkv c hc] at halpha
  cases halpha

theorem not_alpha_of_not_alphaNum (h : isAlphaNum c = false) : isAlpha c = false := by
  rw [isAlphaNum, Bool.or_eq_false_iff] at h
  exact h.1

theorem parted_run {n : Nat} {kv : Option (TokenKind × Option Literal)}
    {fs : List (Fault × Nat)} :
    Parted b rest ⟨n + run isAlphaNum (rest.drop n), kv, fs⟩ := by
  intro _ _ _ _ _ d hd
  rw [← List.drop_drop, drop_run] at hd
  have hnot := List.head?_dropWhile_not isAlphaNum (rest.drop n)
  rw [hd] at hnot
  exact not_alpha_of_not_alphaNum hnot

theorem parted_single {fs : List (Fault × Nat)} (h : isAlphaNum b = false) :
    Parted b rest ⟨0, some (k, v), fs⟩ := by
  refine parted_last fun _ _ c hc => ?_
  cases hc
  exact h

theorem parted_pair {fs : List (Fault × Nat)} (hhead : rest.head? = some c)
    (h : isAlphaNum c = false) : Parted b rest ⟨1, some (k, v), fs⟩ := by
  refine parted_last fun _ _ d hd => ?_
  obtain ⟨t, rfl⟩ := List.head?_eq_some_iff.mp hhead
  cases hd
  exact h

theorem parted_shift {q : UInt8} {l : Lexeme} (h : rest.head? = some q)
    (hl : Parted q (rest.drop 1) l) : Parted b rest (l.shift 1) := by
  obtain ⟨t, rfl⟩ := List.head?_eq_some_iff.mp h
  intro kv hkv c hc
  rw [Lexeme.shift, List.take_succ_cons, List.getLast?_cons_cons] at hc
  exact hl kv hkv c hc

theorem parted_charLiteral (rest : Text) : Parted b rest (charLiteral rest) := by
  refine parted_last fun kv hkv c hc => ?_
  rw [last_eq_of_take (charLiteral_last hkv).2 hc]
  rfl

theorem parted_string (rest : Text) : Parted b rest (string rest) := by
  refine parted_last fun kv hkv c hc => ?_
  rw [last_eq_of_take (string_last hkv).2 hc]
  rfl

theorem parted_rawString (rest : Text) : Parted b rest (rawString rest) := by
  refine parted_last fun kv hkv c hc => ?_
  obtain ⟨-, d, hlast, hd⟩ := rawString_last hkv
  rw [last_eq_of_take hlast hc]
  rcases hd with rfl | rfl <;> rfl

theorem parted_quote (rest : Text) : Parted 39 rest (quote rest) := by
  unfold quote
  split
  · exact parted_charLiteral rest
  split
  · exact parted_none
  split
  · exact parted_charLiteral rest
  split
  · split
    · have hrun : Parted 39 rest ⟨0 + run isAlphaNum (rest.drop 0),
          some (.lifetime, none), []⟩ :=
        parted_run
      rwa [List.drop_zero, Nat.zero_add] at hrun
    · exact parted_none
  · exact parted_none

theorem not_alpha_behind_suffix {d : UInt8} (h : (t.drop (suffixSize t)).head? = some d) :
    isAlpha d = false := by
  unfold suffixSize at h
  split at h
  · next x hx =>
      split at h
      · have hnot := List.head?_dropWhile_not isAlphaNum t
        rw [← drop_run, h] at hnot
        exact not_alpha_of_not_alphaNum hnot
      · next halpha =>
          rw [List.drop_zero, hx] at h
          exact Option.some.inj h ▸ Bool.not_eq_true _ ▸ halpha
  · next hnone =>
      rw [List.drop_zero, hnone] at h
      cases h

/-- The suffix of a number, if it has one, takes all that could be a name behind it. -/
theorem parted_number (first : UInt8) (rest : Text) :
    Parted first rest (number first rest) := by
  rw [number_eq]
  split
  · exact parted_none
  · intro _ _ _ _ _ d hd
    rw [numberToken_size, suffixOf, List.length_take, Nat.min_eq_left (suffixSize_le _),
      ← List.drop_drop] at hd
    exact not_alpha_behind_suffix hd

theorem parted_word (rest : Text) : Parted b rest (word b rest) := by
  intro kv hkv c hc halpha d hd
  rw [word_size] at hd
  have hnot := List.head?_dropWhile_not isAlphaNum rest
  rw [← drop_run, hd] at hnot
  exact not_alpha_of_not_alphaNum hnot

theorem parted_wordLike (first : UInt8) (rest : Text) :
    Parted first rest (wordLike first rest) := by
  simp only [wordLike]
  split_ifs with h1 h2 h3 h4 h5 h6 h7
  · exact parted_number first rest
  · exact parted_rawString rest
  · rw [Bool.and_eq_true, beq_iff_eq] at h3
    exact parted_shift h3.2 (parted_string _)
  · simp only [Bool.and_eq_true, beq_iff_eq] at h4
    exact parted_shift h4.1.2 (parted_rawString _)
  · rw [Bool.and_eq_true, beq_iff_eq, beq_iff_eq] at h5
    exact parted_shift h5.2 (parted_charLiteral _)
  · exact parted_run
  · exact parted_word rest
  · exact parted_none

theorem parted_equals (rest : Text) : Parted 61 rest (lexeme 61 rest) := by
  rw [lexeme_equals]
  split
  · next hhead => exact parted_pair hhead (by decide)
  · split
    · next hhead => exact parted_pair hhead (by decide)
    · exact parted_single (by decide)

theorem parted_dot (rest : Text) : Parted 46 rest (lexeme 46 rest) := by
  rw [lexeme_dot]
  split
  · next hhead =>
      split
      · next hnext =>
          match rest with
          | [] | [_] => rcases hnext with h | h <;> cases h
          | d :: e :: t =>
              refine parted_last fun _ _ c hc => ?_
              replace hc : some e = some c := hc
              cases hc
              rcases hnext with h | h <;> cases h <;> decide
      · exact parted_pair hhead (by decide)
  · exact parted_single (by decide)

theorem parted_slash (rest : Text) : Parted 47 rest (slash rest) := by
  unfold slash
  split
  · exact parted_none
  · split
    split <;> exact parted_none
  · exact parted_single (by decide)

theorem parted_lexeme (b : UInt8) (rest : Text) : Parted b rest (lexeme b rest) := by
  cases hsingle : single? b with
  | some kind =>
      simp only [lexeme, hsingle]
      exact parted_single ((classes b).2.2.1 (by rw [hsingle]; rfl))
  | none =>
      cases hspace : isSpace b with
      | true =>
          simp only [lexeme, hsingle, hspace, if_true]
          exact parted_none
      | false =>
          by_cases hb : b ∈ ([33, 34, 38, 39, 45, 46, 47, 58, 61] : List UInt8)
          · have hpair {c : UInt8} {k k' : TokenKind} (h : (b, c, k, k') ∈ pairs) :
                Parted b rest (lexeme b rest) := by
              have hmarks : ∀ x ∈ pairs, isAlphaNum x.2.1 = false ∧
                  isAlphaNum x.1 = false := by
                decide
              rw [lexeme_pair h]
              split
              · next hhead => exact parted_pair hhead (hmarks _ h).1
              · exact parted_single (hmarks _ h).2
            simp only [List.mem_cons, List.not_mem_nil, or_false] at hb
            rcases hb with rfl | rfl | rfl | rfl | rfl | rfl | rfl | rfl | rfl
            · exact hpair (by decide : (33, 61, .notEq, .bang) ∈ pairs)
            · exact parted_string rest
            · exact hpair (by decide : (38, 38, .doubleAmp, .amp) ∈ pairs)
            · exact parted_quote rest
            · exact hpair (by decide : (45, 62, .arrow, .minus) ∈ pairs)
            · exact parted_dot rest
            · exact parted_slash rest
            · exact hpair (by decide : (58, 58, .doubleColon, .colon) ∈ pairs)
            · exact parted_equals rest
          · rw [lexeme_other hsingle hspace hb]
            exact parted_wordLike b rest

theorem last_of_closes {n : Nat} (h : Closes n t) (hn : 0 < n) : t.getLast? = some 47 := by
  have hcons {c : UInt8} {u : Text} (h : u.getLast? = some 47) :
      (c :: u).getLast? = some 47 := by
    rw [List.getLast?_cons, h, Option.getD_some]
  induction h with
  | done => cases hn
  | opening _ ih => exact hcons (hcons (ih (Nat.succ_pos _)))
  | byte _ _ ih => exact hcons (ih (Nat.succ_pos _))
  | @closing m t ht ih =>
      cases m with
      | zero =>
          cases ht
          rfl
      | succ m => exact hcons (hcons (ih (Nat.succ_pos _)))

/-- Where nothing is wrong, what ends like a name has no name directly behind it. -/
theorem not_alpha_behind {s : Text} {qs rs : List Piece} {q : Piece}
    (h : pieces s = qs ++ q :: rs)
    (hclean : q.faults = []) (hlast : q.text.getLast? = some c)
    (hc : isAlphaNum c = true) {d : UInt8}
    (hd : (bytes rs).head? = some d) : isAlpha d = false := by
  obtain ⟨b, rest, -, rfl, rfl⟩ := pieces_split h
  rw [bytes_pieces] at hd
  cases htoken : (lexeme b rest).token with
  | some kv => exact parted_lexeme b rest kv htoken c hlast hc d hd
  | none =>
      change (b :: rest.take (lexeme b rest).size).getLast? = some c at hlast
      rcases gap_of_lexeme htoken (List.map_eq_nil_iff.mp hclean) with
        ⟨hspace, hsize⟩ | ⟨-, hend⟩ | ⟨u, hu, hcloses⟩
      · rw [hsize, List.take_zero, List.getLast?_singleton] at hlast
        obtain rfl := Option.some.inj hlast
        rw [(classes _).2.1 hspace] at hc
        cases hc
      · rw [hend d hd]
        rfl
      · have hslash : (47 :: 42 :: u).getLast? = some 47 := by
          rw [List.getLast?_cons, List.getLast?_cons, last_of_closes hcloses Nat.one_pos]
          rfl
        rw [hu, hslash] at hlast
        cases hlast
        cases hc

end Scan
end Deriver
