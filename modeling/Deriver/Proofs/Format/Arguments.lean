import Deriver.Format.Use
import Deriver.Proofs.Parse.Names
import Deriver.Proofs.Token.Fragment

/-!
# Arguments of a format string

Main statements: `namedArg?_eq` and `standsIn_of_mem`. By its tokens an argument is named if
a name and a lone equals sign begin it; the code looks at bytes instead. The two agree where
the name is in ASCII, no comment stands behind it, and the expression ends on its line.
Names in an argument are looked for in the bytes too. Those that are tokens are found if
they are in ASCII and without the raw mark.
-/

namespace Deriver.Format

open Scan

/-! ## Arguments in tokens -/

/-- A name in ASCII, without a mark. -/
def IsPlain (n : Text) : Prop :=
  ∃ b u, n = b :: u ∧ FormatSpec.isNameStart b = true ∧ ∀ c ∈ u, isWordByte c = true

theorem isAlphaNum_of_wordByte : ∀ {c : UInt8}, isWordByte c = true → isAlphaNum c = true :=
  @(forall_byte (by decide +kernel))

theorem isWordByte_of_nameStart :
    ∀ {c : UInt8}, FormatSpec.isNameStart c = true → isWordByte c = true :=
  @(forall_byte (by decide +kernel))

theorem lexeme_nameStart {b : UInt8} (h : FormatSpec.isNameStart b = true) (rest : Text) :
    lexeme b rest = wordLike b rest ∧ Text.isDigitByte b = false ∧ isAlpha b = true := by
  have hall : ∀ b, FormatSpec.isNameStart b = true →
      (single? b = none ∧ isSpace b = false ∧
        b ∉ ([33, 34, 38, 39, 45, 46, 47, 58, 61] : List UInt8)) ∧
        Text.isDigitByte b = false ∧ isAlpha b = true :=
    forall_byte (by decide +kernel)
  obtain ⟨⟨hsingle, hspace, hmarks⟩, hkind⟩ := hall b h
  exact ⟨lexeme_other hsingle hspace hmarks rest, hkind⟩

/-- Whether tokens of a kind can name an argument. -/
def isArgName (k : TokenKind) : Bool := k == .ident || k.isKeyword

theorem isKeyword_of_ofKeyword? {w : Text} {k : TokenKind}
    (h : TokenKind.ofKeyword? w = some k) : k.isKeyword = true := by
  obtain ⟨e, he, rfl⟩ := Option.map_eq_some_iff.mp h
  exact List.any_eq_true.mpr ⟨e, List.mem_of_find?_eq_some he, beq_self_eq_true _⟩

theorem word_token (b : UInt8) (rest : Text) : ∃ k v,
    word b rest = ⟨run isAlphaNum rest, some (k, v), []⟩ ∧ isArgName k = true := by
  unfold word
  dsimp only
  split
  · exact ⟨_, _, rfl, rfl⟩
  · exact ⟨_, _, rfl, rfl⟩
  · next k hk => 
      exact ⟨_, _, rfl, by rw [isArgName, isKeyword_of_ofKeyword? hk, Bool.or_true]⟩
  · exact ⟨_, _, rfl, rfl⟩

/-- A plain name is looked at as a name if nothing behind it makes it the mark of a
literal. -/
theorem wordLike_plain {b : UInt8} {u s : Text} (hb : FormatSpec.isNameStart b = true)
    (hu : ∀ c ∈ u, isWordByte c = true)
    (hs : ∀ c, s.head? = some c → isAlphaNum c = false ∧ c ∉ ([34, 35, 39] : List UInt8)) :
    wordLike b (u ++ s) = word b (u ++ s) := by
  -- neither a byte of the name nor the one behind it is a quote or a hash
  have hne {t : Text} (ht : ∀ c ∈ t, isWordByte c = true) {c : UInt8}
      (hc : c ∈ ([34, 35, 39] : List UInt8)) : ((t ++ s).head? == some c) = false := by
    rw [beq_eq_false_iff_ne]
    intro hhead
    cases t with
    | nil => exact (hs c hhead).2 hc
    | cons d t =>
        have hd := ht d (List.mem_cons_self ..)
        rw [Option.some.inj hhead] at hd
        exact absurd hd (by
          simp only [List.mem_cons, List.not_mem_nil, or_false] at hc
          rcases hc with rfl | rfl | rfl <;> decide)
  have h34 := hne hu (c := 34) (by decide)
  have h35 := hne hu (c := 35) (by decide)
  have h39 := hne hu (c := 39) (by decide)
  by_cases hr : b = 114
  · subst hr
    rw [wordLike_r, h34, h35]
    rfl
  by_cases hb' : b = 98
  · subst hb'
    have hraw : ((u ++ s).head? == some 114 && (((u ++ s).drop 1).head? == some 34 ||
        ((u ++ s).drop 1).head? == some 35)) = false := by
      cases u with
      | nil =>
          have hletter : (s.head? == some 114) = false :=
            beq_eq_false_iff_ne.mpr fun hhead => absurd (hs _ hhead).1 (by decide)
          rw [List.nil_append, hletter, Bool.false_and]
      | cons c u =>
          have hu' : ∀ c ∈ u, isWordByte c = true :=
            fun c hc => hu c (List.mem_cons_of_mem _ hc)
          rw [List.cons_append, List.drop_one, List.tail_cons, hne hu' (by decide),
            hne hu' (by decide), Bool.or_self, Bool.and_false]
    rw [wordLike_b, h34, hraw, h39]
    rfl
  by_cases hc : b = 99
  · subst hc
    rw [wordLike_c, h34]
    rfl
  · obtain ⟨-, hdigit, halpha⟩ := lexeme_nameStart hb (u ++ s)
    rw [wordLike_other hr hb' hc, hdigit, halpha]
    rfl

/-- A plain name is a token if nothing behind it continues it or makes it the mark of a
literal. -/
theorem pieces_plain {n s : Text} (hn : IsPlain n)
    (hs : ∀ c, s.head? = some c → isAlphaNum c = false ∧ c ∉ ([34, 35, 39] : List UInt8)) :
    ∃ k v, pieces (n ++ s) = ⟨n, some (k, v), []⟩ :: pieces s ∧ isArgName k = true := by
  obtain ⟨b, u, rfl, hb, hu⟩ := hn
  have hrun : run isAlphaNum (u ++ s) = u.length := by
    rw [run, List.takeWhile_append_of_pos fun c hc => isAlphaNum_of_wordByte (hu c hc)]
    cases s with
    | nil => rw [List.takeWhile_nil, List.append_nil]
    | cons c s => rw [List.takeWhile_cons_of_neg (by simp [(hs c rfl).1]), List.append_nil]
  obtain ⟨k, v, hw, hk⟩ := word_token b (u ++ s)
  refine ⟨k, v, ?_, hk⟩
  rw [List.cons_append, pieces_cons, piece, (lexeme_nameStart hb (u ++ s)).1,
    wordLike_plain hb hu hs, hw, hrun, List.take_left, List.drop_left]
  rfl

/-- The bytes that may stand between the name of an argument and the equals sign are, where
they are tokens' neighbours, white space. -/
theorem pieces_blanks {gap s : Text} (hgap : ∀ c ∈ gap, FormatSpec.isArgBlank c = true)
    (hclean : ∀ p ∈ pieces (gap ++ s), p.faults = []) :
    ∃ qs, pieces (gap ++ s) = qs ++ pieces s ∧ bytes qs = gap ∧
    ∀ q ∈ qs, q.token = none := by
  induction gap with
  | nil => exact ⟨[], rfl, rfl, List.forall_mem_nil _⟩
  | cons c gap ih =>
      obtain ⟨hc, hgap⟩ := List.forall_mem_cons.mp hgap
      have hlex : lexeme c (gap ++ s) = .skipped 0 := by
        have hall : ∀ c, FormatSpec.isArgBlank c = true →
            c = 12 ∨ (single? c = none ∧ isSpace c = true) :=
          forall_byte (by decide +kernel)
        rcases hall c hc with rfl | ⟨hsingle, hspace⟩
        · have hfaults := hclean (piece 12 (gap ++ s)) (by
            rw [List.cons_append, pieces_cons]
            exact List.mem_cons_self ..)
          cases hfaults
        · rw [lexeme, hsingle]
          exact if_pos hspace
      rw [List.cons_append, pieces_cons] at hclean ⊢
      rw [hlex] at hclean ⊢
      obtain ⟨qs, hqs, hbytes, hnone⟩ :=
        ih hgap fun p hp => hclean p (List.mem_cons_of_mem _ hp)
      refine ⟨piece c (gap ++ s) :: qs, ?_, ?_, ?_⟩
      · exact congrArg _ hqs
      · rw [bytes_cons, hbytes, piece, hlex]
        rfl
      · refine List.forall_mem_cons.mpr ⟨?_, hnone⟩
        rw [piece, hlex]
        rfl

/-! ## Two ways to read an argument -/

/-- The name and the expression of an argument, if a name and a lone equals sign begin
it. -/
def nameAndExpr? (a : Text) : Option (Text × Text) :=
  match ownTokens a with
  | name :: mark :: _ =>
      if isArgName name.kind && mark.lexeme == [61] then
        some (plainName name.lexeme, Text.trim (a.drop mark.stop))
      else none
  | _ => none

/-- Whether a named argument is so at once, in ASCII, without a comment and within a line.
No expression begins with a name and an arrow. -/
def Legible (a : Text) : Prop :=
  (scan a).errors = [] ∧
    match ownTokens a with
    | name :: mark :: _ =>
        isArgName name.kind = true → mark.lexeme ≠ [61, 62] ∧ (mark.lexeme = [61] →
          name.offset = 0 ∧ name.lexeme.all isWordByte = true ∧
          (slice a name.stop mark.offset).all FormatSpec.isArgBlank = true ∧
          a.drop mark.stop ≠ [] ∧ 10 ∉ (a.drop mark.stop).drop 1)
    | _ => True

instance (a : Text) : Decidable (Legible a) :=
  @instDecidableAnd _ _ inferInstance <|
    match ownTokens a with
    | _ :: _ :: _ => inferInstanceAs (Decidable (_ → _))
    | [] | [_] => .isTrue trivial

theorem takeWhile_plain {n s : Text} (hn : IsPlain n)
    (hs : ∀ c, s.head? = some c → isWordByte c = false) :
    (n ++ s).takeWhile isWordByte = n := by
  obtain ⟨b, u, rfl, hb, hu⟩ := hn
  rw [List.takeWhile_append_of_pos
    (List.forall_mem_cons.mpr ⟨isWordByte_of_nameStart hb, hu⟩)]
  cases s with
  | nil => rw [List.takeWhile_nil, List.append_nil]
  | cons c s =>
      rw [List.takeWhile_cons_of_neg (by rw [hs c rfl]; exact Bool.false_ne_true),
        List.append_nil]

theorem gap_head {gap s : Text} (hgap : ∀ c ∈ gap, FormatSpec.isArgBlank c = true)
    {c : UInt8} (hc : (gap ++ 61 :: s).head? = some c) :
    isWordByte c = false ∧ isAlphaNum c = false ∧ c ∉ ([34, 35, 39] : List UInt8) := by
  have hall : ∀ c, FormatSpec.isArgBlank c = true ∨ c = 61 →
      isWordByte c = false ∧ isAlphaNum c = false ∧ c ∉ ([34, 35, 39] : List UInt8) :=
    forall_byte (by decide +kernel)
  refine hall c ?_
  cases gap with
  | nil => exact .inr (Option.some.inj hc).symm
  | cons d gap => exact .inl (Option.some.inj hc ▸ hgap d (List.mem_cons_self ..))

theorem namedArg?_eq_some {a n e : Text} : FormatSpec.namedArg? a = some (n, e) ↔
    ∃ gap b rest, a = n ++ (gap ++ 61 :: b :: rest) ∧ IsPlain n ∧
      (∀ c ∈ gap, FormatSpec.isArgBlank c = true) ∧ b ≠ 61 ∧ 10 ∉ rest ∧
      e = Text.trim (b :: rest) := by
  constructor
  · intro h
    cases a with
    | nil => cases h
    | cons first t =>
        rw [FormatSpec.namedArg?] at h
        split at h
        · cases h
        next hstart =>
        have hstart : FormatSpec.isNameStart first = true := by simpa using hstart
        have hname : (first :: t).takeWhile isWordByte = first :: t.takeWhile isWordByte :=
          List.takeWhile_cons_of_pos (isWordByte_of_nameStart hstart)
        dsimp only at h
        rw [hname, List.length_cons, List.drop_succ_cons] at h
        split at h
        next mark b rest hrest =>
          split at h
          next hcond =>
            simp only [Bool.and_eq_true, beq_iff_eq, bne_iff_ne, Bool.not_eq_true',
              List.contains_eq_mem, decide_eq_false_iff_not] at hcond
            obtain ⟨⟨rfl, hb⟩, hline⟩ := hcond
            obtain ⟨rfl, rfl⟩ := Prod.mk.inj (Option.some.inj h)
            have hdrop : t.drop (t.takeWhile isWordByte).length = t.dropWhile isWordByte :=
              drop_run isWordByte t
            rw [hdrop] at hrest
            refine ⟨(t.dropWhile isWordByte).takeWhile FormatSpec.isArgBlank, b, rest, ?_,
              ⟨first, _, rfl, hstart, fun c hc => List.mem_takeWhile_imp hc⟩,
              fun c hc => List.mem_takeWhile_imp hc, hb, hline, rfl⟩
            rw [← hrest, List.takeWhile_append_dropWhile, List.cons_append,
              List.takeWhile_append_dropWhile]
          · cases h
        · cases h
  · rintro ⟨gap, b, rest, rfl, hn, hgap, hb, hline, rfl⟩
    have hword := takeWhile_plain hn fun c hc => (gap_head (s := b :: rest) hgap hc).1
    have hdrop : (gap ++ 61 :: b :: rest).dropWhile FormatSpec.isArgBlank =
        61 :: b :: rest := by
      rw [List.dropWhile_append_of_pos hgap]
      exact List.dropWhile_cons_of_neg (by decide)
    obtain ⟨first, u, rfl, hstart, hu⟩ := hn
    rw [List.cons_append] at hword ⊢
    rw [FormatSpec.namedArg?, hstart]
    dsimp only
    rw [hword, List.length_cons, List.drop_succ_cons, List.drop_left, hdrop]
    simp [hb, hline]

theorem isPlain_of_mem {a : Text} {t : Token} (ht : t ∈ ownTokens a)
    (hkind : isArgName t.kind = true) (hword : t.lexeme.all isWordByte = true) :
    IsPlain t.lexeme := by
  obtain ⟨qs, p, rs, hsplit, htoken, htext, -, -⟩ := exists_of_mem_ownTokens ht
  obtain ⟨b, rest, -, rfl, -⟩ := pieces_split hsplit
  rw [htext] at hword ⊢
  obtain ⟨hb, hu⟩ := List.forall_mem_cons.mp (List.all_eq_true.mp hword)
  refine ⟨b, _, rfl, ?_, hu⟩
  have hall : ∀ b, isWordByte b = true → FormatSpec.isNameStart b = true ∨
      (Text.isDigitByte b = true ∧ single? b = none ∧ isSpace b = false ∧
        b ∉ ([33, 34, 38, 39, 45, 46, 47, 58, 61] : List UInt8)) :=
    forall_byte (by decide +kernel)
  refine (hall b hb).resolve_right ?_
  -- a number is none of the tokens in question
  rintro ⟨hdigit, hsingle, hspace, hmarks⟩
  change (lexeme b rest).token = some (t.kind, t.value) at htoken
  rw [lexeme_other hsingle hspace hmarks, wordLike, if_pos hdigit, number_eq] at htoken
  split at htoken
  · cases htoken
  · rcases (numberToken_token htoken).1 with hk | hk <;> rw [hk] at hkind <;> cases hkind

theorem eq_of_two_tokens {a : Text} {t u : Token} {us : List Token}
    (h : ownTokens a = t :: u :: us) (hfirst : t.offset = 0) :
    a = t.lexeme ++ (slice a t.stop u.offset ++ (u.lexeme ++ a.drop u.stop)) := by
  have htokens : (scan a).tokens = t :: u :: (us ++ [endOf a]) := by
    rw [scan_tokens_own, h]; rfl
  have hpair := scan_pairwise a
  rw [htokens] at hpair
  have hgap : t.stop ≤ u.offset :=
    ((List.pairwise_cons.mp hpair).1 u (List.mem_cons_self ..)).2
  have hcut {i j : Nat} (hle : i ≤ j) : a.drop i = slice a i j ++ a.drop j := by
    have hdrop : a.drop j = (a.drop i).drop (j - i) := by
      rw [List.drop_drop, Nat.add_sub_cancel' hle]
    rw [slice, hdrop, List.take_append_drop]
  have hlex {v : Token} (hv : v ∈ ownTokens a) : slice a v.offset v.stop = v.lexeme :=
    (take_offset (by rw [scan_tokens_own]; exact List.mem_append_left _ hv)).2.2.symm
  have ht : t ∈ ownTokens a := h ▸ List.mem_cons_self ..
  have hu : u ∈ ownTokens a := h ▸ List.mem_cons_of_mem _ (List.mem_cons_self ..)
  calc a = a.drop t.offset := by rw [hfirst, List.drop_zero]
    _ = t.lexeme ++ a.drop t.stop := by rw [hcut (offset_lt_stop ht).le, hlex ht]
    _ = t.lexeme ++ (slice a t.stop u.offset ++ a.drop u.offset) := by rw [← hcut hgap]
    _ = _ := by rw [hcut (offset_lt_stop hu).le, hlex hu]

theorem IsPlain.isWord {n : Text} (h : IsPlain n) : IsWord n := by
  obtain ⟨b, u, rfl, hb, hu⟩ := h
  exact ⟨b, u, rfl, (lexeme_nameStart hb u).2.2,
    fun c hc => isAlphaNum_of_wordByte (hu c hc)⟩

theorem head_behind_equals {a : Text} {t : Token} (ht : t ∈ ownTokens a)
    (htext : t.lexeme = [61]) : (a.drop t.stop).head? ≠ some 61 := by
  obtain ⟨qs, p, rs, hsplit, -, hl, ho, -⟩ := exists_of_mem_ownTokens ht
  obtain ⟨b, rest, ha, rfl, -⟩ := pieces_split hsplit
  rw [htext] at hl
  obtain ⟨rfl, hsize⟩ := List.cons.inj hl
  have hdrop : a.drop t.stop = rest := by
    rw [Token.stop, ho, htext, ha, ← List.drop_drop, List.drop_left]
    rfl
  rw [hdrop]
  intro hhead
  obtain ⟨rest, rfl⟩ := List.head?_eq_some_iff.mp hhead
  rw [lexeme_equals, if_pos hhead] at hsize
  cases hsize

theorem tokensAt_of_gaps {qs : List Scan.Piece} (h : ∀ q ∈ qs, q.token = none)
    {pos : Position} {offset : Nat} : tokensAt pos offset qs = [] := by
  induction qs generalizing pos offset with
  | nil => rfl
  | cons q qs ih =>
      obtain ⟨hq, hqs⟩ := List.forall_mem_cons.mp h
      rw [tokensAt_gap hq, ih hqs]

/-- A plain name, a gap and an equals sign are two tokens, the second perhaps with the angle
bracket that stands behind it. -/
theorem ownTokens_named {n gap rest : Text} {b : UInt8} (hn : IsPlain n)
    (hgap : ∀ c ∈ gap, FormatSpec.isArgBlank c = true) (hb : b ≠ 61)
    (hclean : (scan (n ++ (gap ++ 61 :: b :: rest))).errors = []) :
    ∃ first mark us, ownTokens (n ++ (gap ++ 61 :: b :: rest)) = first :: mark :: us ∧
      isArgName first.kind = true ∧ first.lexeme = n ∧
      mark.lexeme = (if b = 62 then [61, 62] else [61]) ∧
      mark.offset = (n ++ gap).length := by
  obtain ⟨k, v, hname, hk⟩ :=
    pieces_plain (s := gap ++ 61 :: b :: rest) hn fun c hc => (gap_head hgap hc).2
  have hfaults := errorsAt_eq_nil.mp (scan_errors _ ▸ hclean)
  rw [hname] at hfaults
  obtain ⟨qs, hqs, hbytes, hnone⟩ :=
    pieces_blanks (s := 61 :: b :: rest) hgap fun p hp =>
      hfaults p (List.mem_cons_of_mem _ hp)
  obtain ⟨kind, size, hlex, htake⟩ : ∃ kind size, lexeme 61 (b :: rest) = .plain kind size ∧
      61 :: (b :: rest).take size = if b = 62 then [61, 62] else [61] := by
    rw [lexeme_equals, if_neg (by simpa using hb)]
    by_cases harrow : b = 62
    · exact ⟨_, _, if_pos (congrArg some harrow), by rw [if_pos harrow, harrow]; rfl⟩
    · exact ⟨_, _, if_neg (by simpa using harrow), by rw [if_neg harrow]; rfl⟩
  rw [ownTokens_eq, hname, hqs, tokensAt_token rfl, tokensAt_append, tokensAt_of_gaps hnone,
    List.nil_append, pieces_cons, tokensAt_token (k := kind) (v := none)
      (by rw [piece, hlex]; rfl)]
  refine ⟨_, _, _, rfl, hk, rfl, ?_, ?_⟩
  · rw [piece, hlex]
    exact htake
  · rw [hbytes, List.length_append, Nat.zero_add]

theorem nameAndExpr?_of_namedArg? {a n e : Text} (h : Legible a)
    (hnamed : FormatSpec.namedArg? a = some (n, e)) : nameAndExpr? a = some (n, e) := by
  obtain ⟨hclean, hform⟩ := h
  obtain ⟨gap, b, rest, rfl, hn, hgap, hb, -, rfl⟩ := namedArg?_eq_some.mp hnamed
  obtain ⟨first, mark, us, htokens, hk, hfirst, hlexeme, hoffset⟩ :=
    ownTokens_named hn hgap hb hclean
  rw [htokens] at hform
  have harrow : b ≠ 62 := fun harrow => (hform hk).1 (by rw [hlexeme, if_pos harrow])
  rw [if_neg harrow] at hlexeme
  have hrest : (n ++ (gap ++ 61 :: b :: rest)).drop mark.stop = b :: rest := by
    rw [Token.stop, hoffset, hlexeme, ← List.append_assoc, ← List.drop_drop, List.drop_left]
    rfl
  rw [nameAndExpr?, htokens]
  dsimp only
  rw [hk, hlexeme, hrest, hfirst, plainName, hn.isWord.dropStart]
  rfl

theorem namedArg?_of_nameAndExpr? {a n e : Text} (h : Legible a)
    (hmeant : nameAndExpr? a = some (n, e)) : FormatSpec.namedArg? a = some (n, e) := by
  obtain ⟨-, hform⟩ := h
  rw [nameAndExpr?] at hmeant
  split at hmeant
  next name mark _ htokens =>
    rw [htokens] at hform
    split at hmeant
    next hcond =>
      rw [Bool.and_eq_true, beq_iff_eq] at hcond
      obtain ⟨rfl, rfl⟩ := Prod.mk.inj (Option.some.inj hmeant)
      obtain ⟨hfirst, hword, hgap, hrest, hline⟩ := (hform hcond.1).2 hcond.2
      have hplain := isPlain_of_mem (htokens ▸ List.mem_cons_self ..) hcond.1 hword
      obtain ⟨b, rest, hb⟩ := List.exists_cons_of_ne_nil hrest
      have ha := eq_of_two_tokens htokens hfirst
      rw [plainName, hplain.isWord.dropStart, namedArg?_eq_some]
      refine ⟨_, b, rest, ?_, hplain, List.all_eq_true.mp hgap, ?_, ?_, ?_⟩
      · rw [hcond.2, hb] at ha
        exact ha
      · rintro rfl
        exact head_behind_equals
          (htokens ▸ List.mem_cons_of_mem _ (List.mem_cons_self ..)) hcond.2
          (by rw [hb]; rfl)
      · rwa [hb] at hline
      · rw [hb]
    · cases hmeant
  · cases hmeant

/-- Where an argument is legible, the code reads it as its tokens say. -/
theorem namedArg?_eq {a : Text} (h : Legible a) :
    FormatSpec.namedArg? a = nameAndExpr? a := by
  cases hcode : FormatSpec.namedArg? a with
  | some ne => exact (nameAndExpr?_of_namedArg? h hcode).symm
  | none =>
      cases htokens : nameAndExpr? a with
      | none => rfl
      | some ne =>
          rw [namedArg?_of_nameAndExpr? h htokens] at hcode
          cases hcode

/-! ## Names in an argument -/

/-- Whether no name at the end of a text goes on behind it. -/
def Fresh (u : Text) : Prop :=
  ∀ b ∈ u.reverse.takeWhile isWordByte, FormatSpec.isNameStart b = false

/-- Whether a plain name stands in a text and is no part of a longer one. -/
def StandsIn (n a : Text) : Prop :=
  ∃ u w, a = u ++ (n ++ w) ∧ IsPlain n ∧ Fresh u ∧ ∀ c, w.head? = some c →
    isWordByte c = false

theorem fresh_nil : Fresh [] := nofun

theorem Fresh.of_append {u v : Text} (h : Fresh (u ++ v)) : Fresh v := by
  intro b hb
  refine h b ?_
  rw [List.reverse_append, List.takeWhile_append]
  split
  · exact List.mem_append_left _ (List.takeWhile_subset _ hb)
  · exact hb

/-- In front of what no name goes on to, bytes do not matter if one of them parts. -/
theorem Fresh.append {u v : Text} (hv : Fresh v)
    (h : ∀ b ∈ u, FormatSpec.isNameStart b = false) : Fresh (u ++ v) := by
  intro b hb
  rw [List.reverse_append, List.takeWhile_append] at hb
  split at hb
  · next hall =>
      rcases List.mem_append.mp hb with hb | hb
      · refine hv b ?_
        rwa [(List.takeWhile_prefix isWordByte).eq_of_length hall]
      · exact h b (List.mem_reverse.mp (List.takeWhile_subset _ hb))
  · exact hv b hb

theorem Fresh.append_parted {u v : Text} {c : UInt8} (hv : Fresh v) (hc : v.head? = some c)
    (hword : isWordByte c = false) : Fresh (u ++ v) := by
  intro b hb
  rw [List.reverse_append, List.takeWhile_append] at hb
  split at hb
  · next hall =>
      have hmem : c ∈ v.reverse.takeWhile isWordByte := by
        rw [(List.takeWhile_prefix isWordByte).eq_of_length hall]
        exact List.mem_reverse.mpr (List.mem_of_head? hc)
      rw [List.mem_takeWhile_imp hmem] at hword
      cases hword
  · exact hv b hb

theorem nameLoop_word (word : Text) (hword : word ≠ []) (a : Text) :
    FormatSpec.nameLoop word a =
      (word.reverse ++ a.takeWhile isWordByte) :: FormatSpec.nameLoop []
      (a.dropWhile isWordByte) := by
  induction a generalizing word with
  | nil =>
      obtain ⟨c, word, rfl⟩ := List.exists_cons_of_ne_nil hword
      simp [FormatSpec.nameLoop]
  | cons b a ih =>
      obtain ⟨c, word, rfl⟩ := List.exists_cons_of_ne_nil hword
      rw [FormatSpec.nameLoop]
      cases hb : isWordByte b with
      | true =>
          rw [if_pos rfl, ih _ (List.cons_ne_nil _ _), List.takeWhile_cons_of_pos hb,
            List.dropWhile_cons_of_pos hb, List.reverse_cons, List.append_assoc]
          rfl
      | false =>
          have hstart : FormatSpec.isNameStart b = false := by
            rw [← Bool.not_eq_true]
            intro hstart
            rw [isWordByte_of_nameStart hstart] at hb
            cases hb
          rw [if_neg Bool.false_ne_true,
            List.takeWhile_cons_of_neg (by rw [hb]; exact Bool.false_ne_true),
            List.dropWhile_cons_of_neg (by rw [hb]; exact Bool.false_ne_true),
            List.append_nil, FormatSpec.nameLoop, hstart]
          rfl

theorem nameLoop_cons (b : UInt8) (a : Text) : FormatSpec.nameLoop [] (b :: a) =
    if FormatSpec.isNameStart b then
      (b :: a.takeWhile isWordByte) :: FormatSpec.nameLoop [] (a.dropWhile isWordByte)
    else FormatSpec.nameLoop [] a := by
  rw [FormatSpec.nameLoop]
  split
  · rw [nameLoop_word [b] (List.cons_ne_nil _ _)]
    rfl
  · rfl

theorem standsIn_cons {x a : Text} {b : UInt8} (hb : FormatSpec.isNameStart b = false) :
    StandsIn x (b :: a) ↔ StandsIn x a := by
  constructor
  · rintro ⟨u, w, h, hx, hu, hw⟩
    cases u with
    | nil =>
        obtain ⟨c, t, rfl, hc, -⟩ := hx
        rw [(List.cons.inj h).1, hc] at hb
        cases hb
    | cons c u => exact ⟨u, w, (List.cons.inj h).2, hx, hu.of_append (u := [c]), hw⟩
  · rintro ⟨u, w, rfl, hx, hu, hw⟩
    exact ⟨b :: u, w, rfl, hx, hu.append (List.forall_mem_singleton.mpr hb), hw⟩

theorem standsIn_name {x a : Text} {b : UInt8} (hb : FormatSpec.isNameStart b = true) :
    StandsIn x (b :: a) ↔
      x = b :: a.takeWhile isWordByte ∨ StandsIn x (a.dropWhile isWordByte) := by
  have hsplit : a.takeWhile isWordByte ++ a.dropWhile isWordByte = a :=
    List.takeWhile_append_dropWhile
  have hrun : ∀ c ∈ a.takeWhile isWordByte, isWordByte c = true :=
    fun c hc => List.mem_takeWhile_imp hc
  have hrest : ∀ c, (a.dropWhile isWordByte).head? = some c → isWordByte c = false := by
    intro c hc
    have hnot := List.head?_dropWhile_not isWordByte a
    rwa [hc] at hnot
  constructor
  · rintro ⟨u, w, h, hx, hu, hw⟩
    cases u with
    | nil =>
        left
        have hname := takeWhile_plain hx hw
        rw [List.nil_append] at h
        rw [← h, List.takeWhile_cons_of_pos (isWordByte_of_nameStart hb)] at hname
        exact hname.symm
    | cons c u =>
        right
        obtain ⟨rfl, htail⟩ := List.cons.inj h
        replace htail : a = u ++ (x ++ w) := htail
        rw [← hsplit, List.append_eq_append_iff] at htail
        rcases htail with ⟨v, rfl, hv⟩ | ⟨v, hv, -⟩
        · exact ⟨v, w, hv, hx, hu.of_append (u := b :: a.takeWhile isWordByte), hw⟩
        · -- otherwise the name in front would go on
          have hall : ∀ c ∈ (b :: u).reverse, isWordByte c = true := by
            intro c hc
            rcases List.mem_cons.mp (List.mem_reverse.mp hc) with rfl | hc
            · exact isWordByte_of_nameStart hb
            · exact hrun c (hv ▸ List.mem_append_left v hc)
          have hfresh := hu b
          rw [List.takeWhile_eq_self_iff.mpr hall, hb] at hfresh
          exact absurd (hfresh (List.mem_reverse.mpr (List.mem_cons_self ..)))
            Bool.noConfusion
  · rintro (rfl | ⟨u, w, h, hx, hu, hw⟩)
    · exact ⟨[], _, by rw [List.nil_append, List.cons_append, hsplit],
        ⟨b, _, rfl, hb, hrun⟩, fresh_nil, hrest⟩
    · refine ⟨(b :: a.takeWhile isWordByte) ++ u, w, ?_, hx, ?_, hw⟩
      · rw [List.append_assoc, ← h, List.cons_append, hsplit]
      · rw [h] at hrest
        cases u with
        | nil =>
            obtain ⟨c, t, rfl, hc, -⟩ := hx
            have hnot := hrest c rfl
            rw [isWordByte_of_nameStart hc] at hnot
            cases hnot
        | cons c u => exact hu.append_parted rfl (hrest c rfl)

theorem mem_nameLoop {x a : Text} : x ∈ FormatSpec.nameLoop [] a ↔ StandsIn x a := by
  induction hn : a.length using Nat.strong_induction_on generalizing a with
  | _ n ih =>
      subst hn
      cases a with
      | nil =>
          refine iff_of_false List.not_mem_nil ?_
          rintro ⟨u, w, h, ⟨b, t, rfl, -⟩, -⟩
          simp at h
      | cons b a =>
          rw [nameLoop_cons]
          split
          · next hb =>
              have hshort : (a.dropWhile isWordByte).length < (b :: a).length :=
                Nat.lt_succ_of_le (List.dropWhile_suffix isWordByte).length_le
              rw [List.mem_cons, ih _ hshort rfl, standsIn_name hb]
          · next hb =>
              rw [ih _ (Nat.lt_succ_self _) rfl, standsIn_cons (Bool.not_eq_true _ ▸ hb)]

theorem fresh_of_last {u : Text} (h : ∀ c, u.getLast? = some c → isWordByte c = false) :
    Fresh u := by
  cases hr : u.reverse with
  | nil =>
      intro b hb
      rw [hr] at hb
      cases hb
  | cons c v =>
      have hc := h c (by rw [← List.head?_reverse, hr]; rfl)
      intro b hb
      rw [hr, List.takeWhile_cons_of_neg (by rw [hc]; exact Bool.false_ne_true)] at hb
      cases hb

theorem not_alphaNum_behind_ident {b : UInt8} {rest : Text} {v : Option Literal}
    (hb : FormatSpec.isNameStart b = true)
    (h : (lexeme b rest).token = some (.ident, v)) {c : UInt8}
    (hc : (rest.drop (lexeme b rest).size).head? = some c) : isAlphaNum c = false := by
  have hrun (n : Nat) (hc : (rest.drop (n + run isAlphaNum (rest.drop n))).head? = some c) :
      isAlphaNum c = false := by
    have hnot := List.head?_dropWhile_not isAlphaNum (rest.drop n)
    rwa [← drop_run, List.drop_drop, hc] at hnot
  obtain ⟨hlex, hdigit, halpha⟩ := lexeme_nameStart hb rest
  have hstring {t : Text} : (string t).token ≠ some (.ident, v) :=
    fun h => nomatch (string_last h).1
  have hraw {t : Text} : (rawString t).token ≠ some (.ident, v) :=
    fun h => nomatch (rawString_last h).1
  have hchar {t : Text} : (charLiteral t).token ≠ some (.ident, v) := fun h =>
    nomatch (charLiteral_last h).1
  rw [hlex] at h hc
  simp only [wordLike, hdigit, halpha, if_true, Bool.false_eq_true, if_false] at h hc
  split_ifs at h hc
  · exact absurd h hraw
  · exact absurd h hstring
  · exact absurd h hraw
  · exact absurd h hchar
  · exact hrun 1 hc
  · rw [word_size] at hc
    exact hrun 0 (by rwa [List.drop_zero, Nat.zero_add])

/-- In a clean text no byte of a word stands next to a token that is a name, if the name
begins with a byte of a word. -/
theorem parted_of_ident {a : Text} {t : Token} (hclean : (scan a).errors = [])
    (ht : t ∈ ownTokens a) (hkind : t.kind = .ident)
    (hfirst : t.lexeme.head?.any FormatSpec.isNameStart = true) :
    ∃ u w, a = u ++ (t.lexeme ++ w) ∧ (∀ c, u.getLast? = some c → isWordByte c = false) ∧
      ∀ c, w.head? = some c → isWordByte c = false := by
  obtain ⟨qs, p, rs, hsplit, htoken, htext, -, -⟩ := exists_of_mem_ownTokens ht
  have hfaults := errorsAt_eq_nil.mp (scan_errors a ▸ hclean)
  have ha : a = bytes qs ++ (p.text ++ bytes rs) := by
    rw [← bytes_cons, ← bytes_append, ← hsplit, bytes_pieces]
  rw [htext] at hfirst ⊢
  obtain ⟨b, hhead, hb⟩ := (Option.any_eq_true ..).mp hfirst
  refine ⟨bytes qs, bytes rs, ha, fun c hc => ?_, fun c hc => ?_⟩
  · rcases List.eq_nil_or_concat qs with rfl | ⟨front, q, rfl⟩
    · cases hc
    rw [List.concat_eq_append] at hsplit hc
    rw [← Bool.not_eq_true]
    intro hword
    have hq : q ∈ pieces a := by rw [hsplit]; simp
    rw [getLast?_bytes (piece_text_ne_nil hq)] at hc
    have hfront : pieces a = front ++ q :: (p :: rs) := by
      rw [hsplit, List.append_assoc, List.singleton_append]
    have hnext : (bytes (p :: rs)).head? = some b := by
      rw [bytes_cons, List.head?_append, hhead]
      rfl
    have hnot :=
      not_alpha_behind hfront (hfaults q hq) hc (isAlphaNum_of_wordByte hword) hnext
    rw [(lexeme_nameStart hb []).2.2] at hnot
    cases hnot
  · obtain ⟨b', rest, -, rfl, rfl⟩ := pieces_split hsplit
    rw [bytes_pieces] at hc
    obtain rfl : b' = b := Option.some.inj hhead
    rw [hkind] at htoken
    have hnot := not_alphaNum_behind_ident hb htoken hc
    rw [← Bool.not_eq_true]
    intro hword
    rw [isAlphaNum_of_wordByte hword] at hnot
    cases hnot

/-- A name in a clean text that is a token of its own, is in ASCII and has no mark stands
in it. -/
theorem standsIn_of_mem {a : Text} {t : Token} (hclean : (scan a).errors = [])
    (ht : t ∈ ownTokens a) (hplain : IsPlain t.lexeme) (hkind : t.kind = .ident) :
    StandsIn t.lexeme a := by
  obtain ⟨b, u, htext, hb, -⟩ := id hplain
  obtain ⟨u, w, ha, hfront, hbehind⟩ :=
    parted_of_ident hclean ht hkind (by rw [htext]; exact hb)
  exact ⟨u, w, ha, hplain, fresh_of_last hfront, hbehind⟩

end Deriver.Format
