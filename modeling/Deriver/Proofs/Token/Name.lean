import Deriver.Proofs.Parse.Names
import Deriver.Proofs.Token.Fragment
import Deriver.Token.Identifier

/-!
# Names and literals as tokens

Main statements: `scan_identifier`, `Word.last_of_literal` and `Solid.join`. What an
identifier is, is said by its characters: letters, digits and underscores. The scanner
looks at bytes, takes every byte beyond ASCII into a name and has literals that begin like
names. Both agree: each byte of a character that continues a name continues it for the
scanner, and what would begin a literal has a mark behind the letter that is none of them.

A literal ends in ASCII unless it is a number with a suffix that does not. Texts that
begin and end with a token make another such text if the scanner cuts between them.
-/

namespace Deriver

open Scan

/-! ## Names and reserved words are words -/

namespace Scan

variable {b : UInt8} {u : Text}

theorem not_digit_of_alpha (h : isAlpha b = true) : Text.isDigitByte b = false := by
  rw [← Bool.not_eq_true]
  intro hdigit
  simp only [Text.isDigitByte, Bool.and_eq_true, decide_eq_true_eq,
    UInt8.le_iff_toNat_le] at hdigit
  simp only [isAlpha, Text.isLowerByte, Text.isUpperByte, Bool.or_eq_true, Bool.and_eq_true,
    decide_eq_true_eq, beq_iff_eq, UInt8.le_iff_toNat_le] at h
  rcases h with ((h | h) | rfl) | h
  · exact absurd (h.1.trans hdigit.2) (by decide)
  · exact absurd (h.1.trans hdigit.2) (by decide)
  · exact absurd hdigit.2 (by decide)
  · exact absurd (h.trans hdigit.2) (by decide)

theorem lexeme_alpha (h : isAlpha b = true) (rest : Text) :
    lexeme b rest = wordLike b rest :=
  lexeme_alphaNum (isAlphaNum_of_alpha h) rest

theorem wordLike_of_wordy (hb : isAlpha b = true) (hu : u.Wordy) :
    wordLike b u = word b u := by
  have hne {t : Text} (ht : t.Wordy) {c : UInt8} (hc : isAlphaNum c = false) :
      (t.head? == some c) = false := by
    rw [beq_eq_false_iff_ne]
    intro hhead
    rw [ht c (List.mem_of_mem_head? hhead)] at hc
    cases hc
  have hdrop : Text.Wordy (u.drop 1) := fun c hc => hu c (List.mem_of_mem_drop hc)
  simp only [wordLike, not_digit_of_alpha hb, hb, hne hu (c := 34) rfl,
    hne hu (c := 35) rfl, hne hu (c := 39) rfl, hne hdrop (c := 34) rfl,
    hne hdrop (c := 35) rfl, Bool.false_eq_true, Bool.and_false, Bool.false_and,
    Bool.or_false, if_false, if_true]

theorem run_of_wordy (hu : u.Wordy) : run isAlphaNum u = u.length := by
  rw [run, List.takeWhile_eq_self_iff.mpr hu]

end Scan

section Names

variable {w : Text}

/-- The kind of a text that is a name or a reserved word. -/
def nameKind (w : Text) : TokenKind := (TokenKind.ofKeyword? w).getD .ident

theorem word_of_isWord (h : IsWord w) : Word (nameKind w) w := by
  obtain ⟨b, u, rfl, hb, hu⟩ := h
  have htoken : ∃ v, word b u = ⟨u.length, some (nameKind (b :: u), v), []⟩ := by
    simp only [word, run_of_wordy hu, List.take_length, nameKind]
    split <;> next hk => exact ⟨_, by rw [hk]; rfl⟩
  obtain ⟨v, hv⟩ := htoken
  refine ⟨v, ?_⟩
  rw [pieces_cons, piece, lexeme_alpha hb, wordLike_of_wordy hb hu, hv]
  simp [pieces_nil]

theorem exists_of_ofKeyword? {k : TokenKind} (h : TokenKind.ofKeyword? w = some k) :
    ∃ e ∈ TokenKind.keywords, (e.1 : Text) = w ∧ e.2 = k := by
  obtain ⟨e, he, hk⟩ := Option.map_eq_some_iff.mp h
  exact ⟨e, List.mem_of_find?_eq_some he, by simpa using List.find?_some he, hk⟩

theorem nameKind_raw {w : Text} (h : "r#" <+: w) : nameKind w = .ident := by
  have hmark : ∀ e ∈ TokenKind.keywords, 35 ∉ (e.1 : Text) := by decide
  cases hk : TokenKind.ofKeyword? w with
  | none => rw [nameKind, hk]; rfl
  | some k =>
      obtain ⟨e, he, heq, -⟩ := exists_of_ofKeyword? hk
      exact absurd (heq ▸ h.subset (by decide)) (hmark e he)

/-- A name with the raw mark is a name, whatever stands behind the mark. -/
theorem word_of_raw (h : IsWord w) : Word (nameKind ("r#" ++ w)) ("r#" ++ w) := by
  obtain ⟨b, u, rfl, hb, hu⟩ := h
  have hne {c : UInt8} (hc : isAlpha c = false) : b ≠ c := by
    rintro rfl
    rw [hb] at hc
    cases hc
  have hopens : opensRaw (35 :: b :: u) = false := by
    simp [opensRaw, hne (c := 35) rfl, hne (c := 34) rfl]
  have hlexeme : lexeme 114 (35 :: b :: u) = .plain .ident (b :: u).length.succ := by
    rw [lexeme_alpha rfl, wordLike_r, hopens]
    have hword : Text.Wordy (b :: u) :=
      List.forall_mem_cons.mpr ⟨isAlphaNum_of_alpha hb, hu⟩
    simp [hb, run_of_wordy hword, Nat.add_comm]
  rw [nameKind_raw (List.prefix_append _ _)]
  refine ⟨none, ?_⟩
  change pieces (114 :: 35 :: b :: u) = _
  rw [pieces_cons, piece, hlexeme]
  simp [Lexeme.plain, pieces_nil]
  rfl

theorem word_of_isIdent (h : IsIdent w) : Word (nameKind w) w := by
  unfold IsIdent Text.dropStart Text.dropStart? at h
  split at h
  · next hmark =>
      obtain ⟨v, rfl⟩ := List.isPrefixOf_iff_prefix.mp hmark
      exact word_of_raw h
  · exact word_of_isWord h

/-! ## Identifiers -/

/-- A character that continues a name is written in bytes that continue one. -/
theorem wordy_of_letter {c : Char}
    (h : (Text.isLetter c || Text.isDecimal c || c == '_') = true) :
    Text.Wordy (Text.ofChar c) := by
  have hlow : ∀ c, c.toNat < 128 →
      (Text.isLetter c || Text.isDecimal c || c == '_') = true →
      (Text.ofChar c).all isAlphaNum = true := forall_ascii (by decide +kernel)
  by_cases hc : c.toNat < 128
  · exact List.all_eq_true.mp (hlow c hc h)
  · exact Text.wordy_ofChar_of_high (Nat.le_of_not_lt hc)

/-- Characters that make a name are written in bytes that make one. A byte that is no
character cannot be told from a part of one by the scanner. -/
theorem isWord_of_chars {t : Text} {c : Char} {cs : List Char} (hchars : t.chars = c :: cs)
    (hfirst : (Text.isLetter c || c == '_') = true)
    (hall : ∀ d ∈ c :: cs, (Text.isLetter d || Text.isDecimal d || d == '_') = true) :
    IsWord t := by
  have hwordy : t.Wordy := by
    rw [← Text.ofLetters_units t, Text.wordy_ofLetters]
    intro l hl
    cases l with
    | inl d => exact wordy_of_letter (hall d (hchars ▸ List.mem_map_of_mem hl))
    | inr b =>
        exact List.forall_mem_singleton.mpr
          (Text.isAlphaNum_of_high (Text.high_of_stray hl))
  cases t with
  | nil => cases hchars
  | cons b u =>
      refine ⟨b, u, rfl, ?_, (List.forall_mem_cons.mp hwordy).2⟩
      by_cases hb : b < 0x80
      · have hc : c = Char.ofNat b.toNat := by
          have hread : Text.chars (b :: u) = Char.ofNat b.toNat :: Text.chars u := by
            simp [Text.chars, Text.units, Text.unitsLoop, Text.char?, hb]
          exact (List.cons.inj (hchars.symm.trans hread)).1
        exact isAlpha_of_letter hb (hc ▸ hfirst)
      · exact isAlpha_of_high (UInt8.not_lt.mp hb)

theorem isIdent_of_isIdentifier {name : Text} (h : isIdentifier name = true) :
    IsIdent name := by
  unfold isIdentifier at h
  dsimp only at h
  split at h
  · cases h
  · next c cs hchars =>
      rw [Bool.and_eq_true, Bool.and_eq_true, List.all_eq_true] at h
      exact isWord_of_chars hchars h.1.1 h.1.2

/-- An identifier is scanned without error as one token with all of its bytes. It is a
reserved word if it is spelled as one, and with the raw mark it is none. -/
theorem scan_identifier {name : Text} (h : isIdentifier name = true) :
    ∃ t, scan name = ⟨[t, endOf name], []⟩ ∧ t.lexeme = name ∧
      (∀ k, TokenKind.ofKeyword? name = some k → t.kind = k) ∧
      (isReserved name = false → t.kind = .ident) ∧ ("r#" <+: name → t.kind = .ident) := by
  obtain ⟨v, hpieces⟩ := word_of_isIdent (isIdent_of_isIdentifier h)
  refine ⟨_, scan_of_pieces hpieces, rfl, fun k hk => ?_, fun hk => ?_, nameKind_raw⟩
  · change nameKind name = k
    rw [nameKind, hk]
    rfl
  · change nameKind name = .ident
    rw [isReserved, Option.isSome_eq_false_iff, Option.isNone_iff_eq_none] at hk
    rw [nameKind, hk]
    rfl

/-- Letters and digits outside ASCII behind the two letters that begin raw byte strings. -/
theorem scan_identifier_accented :
    isIdentifier "br\u00e9\u0663_" = true ∧ isReserved "br\u00e9\u0663_" = false ∧
      ∃ t, scan "br\u00e9\u0663_" = ⟨[t, endOf "br\u00e9\u0663_"], []⟩ ∧
        t.lexeme = "br\u00e9\u0663_" ∧ t.kind = .ident := by
  have h : isIdentifier "br\u00e9\u0663_" = true := by decide +kernel
  have hfree : isReserved "br\u00e9\u0663_" = false := by decide +kernel
  obtain ⟨t, hscan, hlexeme, -, hkind, -⟩ := scan_identifier h
  exact ⟨h, hfree, t, hscan, hlexeme, hkind hfree⟩

end Names

namespace Scan

/-! ## How literals end -/

/-- The kinds of literals that are no numbers. -/
def plainLiterals : List TokenKind := [.str, .char, .trueKw, .falseKw]

/-- Whether a lexeme, if it is a literal and no number, ends in ASCII. -/
def EndsPlain (b : UInt8) (rest : Text) (l : Lexeme) : Prop :=
  ∀ k v, l.token = some (k, v) → k ∈ plainLiterals →
    ∀ c, (b :: rest.take l.size).getLast? = some c → c < 0x80

variable {b : UInt8} {rest : Text} {k : TokenKind} {v : Option Literal} {l : Lexeme}

theorem endsPlain_none {n : Nat} {fs : List (Fault × Nat)} :
    EndsPlain b rest ⟨n, none, fs⟩ :=
  fun _ _ h => by cases h

theorem endsPlain_other {n : Nat} {fs : List (Fault × Nat)} (h : k ∉ plainLiterals) :
    EndsPlain b rest ⟨n, some (k, v), fs⟩ := by
  rintro _ _ ⟨⟩ hk
  exact absurd hk h

theorem endsPlain_of_last (h : ∀ k v, l.token = some (k, v) →
    ∃ c, (rest.take l.size).getLast? = some c ∧ c < 0x80) : EndsPlain b rest l := by
  intro k v hl _ c hc
  obtain ⟨d, hd, hlt⟩ := h k v hl
  rwa [last_eq_of_take hd hc]

theorem endsPlain_charLiteral (b : UInt8) (rest : Text) :
    EndsPlain b rest (charLiteral rest) :=
  endsPlain_of_last fun _ _ h => ⟨39, (charLiteral_last h).2, by decide⟩

theorem endsPlain_string (b : UInt8) (rest : Text) : EndsPlain b rest (string rest) :=
  endsPlain_of_last fun _ _ h => ⟨34, (string_last h).2, by decide⟩

theorem endsPlain_rawString (b : UInt8) (rest : Text) :
    EndsPlain b rest (rawString rest) := by
  refine endsPlain_of_last fun _ _ h => ?_
  obtain ⟨-, c, hc, hmark⟩ := rawString_last h
  refine ⟨c, hc, ?_⟩
  rcases hmark with rfl | rfl <;> decide

theorem endsPlain_shift {q : UInt8} (h : rest.head? = some q)
    (hl : EndsPlain q (rest.drop 1) l) : EndsPlain b rest (l.shift 1) := by
  obtain ⟨t, rfl⟩ := List.head?_eq_some_iff.mp h
  intro k v hk hplain c hc
  refine hl k v hk hplain c ?_
  rw [← hc, Lexeme.shift, List.take_succ_cons, List.getLast?_cons_cons]
  rfl

theorem endsPlain_number (b : UInt8) (rest : Text) : EndsPlain b rest (number b rest) := by
  intro k v h hk
  rw [number_eq] at h
  split at h
  · cases h
  · rcases (numberToken_token h).1 with rfl | rfl <;> exact absurd hk (by decide)

theorem endsPlain_word (b : UInt8) (rest : Text) : EndsPlain b rest (word b rest) := by
  have hall : (TokenKind.keywords.all fun e => (e.1 : Text).all fun c => c < 0x80) =
      true := by
    decide +kernel
  intro k v hk hplain c hc
  simp only [word] at hk hc
  cases hword : TokenKind.ofKeyword? (b :: rest.take (run isAlphaNum rest)) with
  | none =>
      rw [hword] at hk
      cases hk
      exact absurd hplain (by decide)
  | some k' =>
      unfold TokenKind.ofKeyword? at hword
      obtain ⟨e, he, -⟩ := Option.map_eq_some_iff.mp hword
      have hsame : (e.1 : Text) = b :: rest.take (run isAlphaNum rest) := by
        simpa using List.find?_some he
      have hascii := List.all_eq_true.mp hall e (List.mem_of_find?_eq_some he)
      refine of_decide_eq_true (List.all_eq_true.mp hascii c ?_)
      rw [hsame]
      refine List.mem_of_getLast? ?_
      rw [← hc]
      split <;> rfl

theorem endsPlain_wordLike (b : UInt8) (rest : Text) :
    EndsPlain b rest (wordLike b rest) := by
  simp only [wordLike]
  split_ifs with h1 h2 h3 h4 h5 h6 h7
  · exact endsPlain_number b rest
  · exact endsPlain_rawString b rest
  · rw [Bool.and_eq_true, beq_iff_eq] at h3
    exact endsPlain_shift h3.2 (endsPlain_string _ _)
  · simp only [Bool.and_eq_true, beq_iff_eq] at h4
    exact endsPlain_shift h4.1.2 (endsPlain_rawString _ _)
  · rw [Bool.and_eq_true, beq_iff_eq, beq_iff_eq] at h5
    exact endsPlain_shift h5.2 (endsPlain_charLiteral _ _)
  · exact endsPlain_other (by decide)
  · exact endsPlain_word b rest
  · exact endsPlain_none

theorem endsPlain_quote (b : UInt8) (rest : Text) : EndsPlain b rest (quote rest) := by
  unfold quote
  split
  · exact endsPlain_charLiteral b rest
  split
  · exact endsPlain_none
  split
  · exact endsPlain_charLiteral b rest
  split
  · split
    · exact endsPlain_other (by decide)
    · exact endsPlain_none
  · exact endsPlain_none

theorem endsPlain_slash (b : UInt8) (rest : Text) : EndsPlain b rest (slash rest) := by
  unfold slash
  split
  · exact endsPlain_none
  · split
    split <;> exact endsPlain_none
  · exact endsPlain_other (by decide)

theorem single?_not_literal (h : single? b = some k) : k ∉ plainLiterals := by
  unfold single? at h
  split at h <;> first | cases h; decide | cases h

theorem endsPlain_lexeme (b : UInt8) (rest : Text) : EndsPlain b rest (lexeme b rest) := by
  unfold lexeme
  split
  · next hk => exact endsPlain_other (single?_not_literal hk)
  split
  · exact endsPlain_none
  split
  case h_10 => split <;> exact endsPlain_other (by decide)
  case h_14 => exact endsPlain_slash b rest
  case h_15 => exact endsPlain_quote b rest
  case h_16 => exact endsPlain_string b rest
  case h_17 => exact endsPlain_wordLike b rest
  all_goals exact endsPlain_other (by decide)

end Scan

variable {k : TokenKind} {w x y z m : Text} {b c : UInt8} {ps : List Piece}

theorem Word.last_of_literal (h : Word k w) (hk : k ∈ plainLiterals)
    (hc : w.getLast? = some c) : c < 0x80 := by
  obtain ⟨b, u, v, rfl, htoken, hsize⟩ := h.cons
  refine endsPlain_lexeme b u k v htoken hk c ?_
  rwa [hsize, List.take_length]

theorem word_of_scan {t : Token} (h : scan t.lexeme = ⟨[t, endOf t.lexeme], []⟩) :
    Word t.kind t.lexeme := by
  have hown : ownTokens t.lexeme = [t] := by
    rw [ownTokens, h]
    rfl
  obtain ⟨qs, p, rs, hsplit, htoken, htext, -, -⟩ :=
    exists_of_mem_ownTokens (s := t.lexeme) (t := t)
      (by rw [hown]; exact List.mem_singleton_self t)
  have hclean : ∀ q ∈ pieces t.lexeme, q.faults = [] :=
    errorsAt_eq_nil.mp (scan_errors t.lexeme ▸ congrArg Result.errors h)
  -- the piece of the token leaves no bytes for others
  have hlen := congrArg List.length (bytes_pieces t.lexeme)
  rw [hsplit, bytes_append, bytes_cons, List.length_append, List.length_append,
    ← htext] at hlen
  have hnil (us : List Piece) (hus : us ⊆ pieces t.lexeme)
      (hbytes : (bytes us).length = 0) :
      us = [] := by
    cases us with
    | nil => rfl
    | cons u us =>
        rw [bytes_cons, List.length_append] at hbytes
        have hu := List.length_eq_zero_iff.mp (Nat.eq_zero_of_add_eq_zero_right hbytes)
        exact absurd hu (piece_text_ne_nil (hus (List.mem_cons_self ..)))
  obtain rfl := hnil qs (by rw [hsplit]; simp) (by omega)
  obtain rfl := hnil rs (by rw [hsplit]; simp) (by omega)
  refine ⟨t.value, ?_⟩
  rw [hsplit, List.nil_append, htext, ← htoken, ← hclean p (by rw [hsplit]; simp)]

/-! ## Texts that begin and end with a token -/

theorem solid_mark (h : single? c = some k) : Solid [c] := by
  have hword : Word k [c] := ⟨none, (pieces_mark h []).trans (congrArg _ pieces_nil)⟩
  exact hword.solid

/-- A separator that is part of no longer token may stand behind anything. -/
theorem fits_of_separator (hc : c ∈ separators) (hcolon : c ≠ 58) (hgt : c ≠ 62)
    (x y : Text) : Fits x (c :: y) :=
  ⟨c, y, rfl, hc, fun b _ => by simp [glues, hcolon, hgt]⟩

namespace Solid

theorem join (hx : Solid x) (hz : Solid z) (hps : ∀ p ∈ ps, p.faults = [])
    (h : pieces (x ++ (m ++ z)) = pieces x ++ (ps ++ pieces z)) :
    Solid (x ++ (m ++ z)) := by
  refine ⟨?_, ?_, ?_⟩
  · have hclean {s : Text} (hs : Solid s) : ∀ p ∈ pieces s, p.faults = [] :=
      errorsAt_eq_nil.mp (scan_errors s ▸ hs.clean)
    rw [scan_errors, h, errorsAt_eq_nil]
    intro p hp
    simp only [List.mem_append] at hp
    rcases hp with hp | hp | hp
    · exact hclean hx p hp
    · exact hps p hp
    · exact hclean hz p hp
  · obtain ⟨t, us, hown, hoffset⟩ := hx.first
    rw [ownTokens_eq] at hown
    exact ⟨t, _, by rw [ownTokens_eq, h, tokensAt_append, hown]; rfl, hoffset⟩
  · obtain ⟨us, t, hown, hstop⟩ := hz.last
    have hm : m = bytes ps := by
      have hbytes := congrArg bytes h
      simp only [bytes_append, bytes_pieces] at hbytes
      exact List.append_cancel_right (List.append_cancel_left hbytes)
    rw [ownTokens_eq] at hown
    rw [ownTokens_eq, h, ← List.append_assoc, tokensAt_append,
      tokensAt_shift _ _ (pieces z), hown,
      List.map_append, ← List.append_assoc, bytes_append, bytes_pieces, ← hm]
    refine ⟨_, _, rfl, ?_⟩
    rw [Token.stop] at hstop
    simp only [Token.stop, Token.place, List.length_append]
    omega

theorem append (hx : Solid x) (hz : Solid z) (h : pieces (x ++ z) = pieces x ++ pieces z) :
    Solid (x ++ z) :=
  @join x z [] [] hx hz (List.forall_mem_nil _) h

/-- Two texts with something between them that is cut off whatever stands behind it. -/
theorem join_of_fits (hx : Solid x) (hz : Solid z) (hfits : Fits x (m ++ z))
    (hps : ∀ p ∈ ps, p.faults = []) (hm : pieces (m ++ z) = ps ++ pieces z) :
    Solid (x ++ (m ++ z)) :=
  hx.join hz hps (by rw [hx.pieces_append hfits, hm])

end Solid

end Deriver
