import Deriver.Text.Round
import Mathlib.Data.List.DropRight
import Mathlib.Tactic.SplitIfs

/-!
# Reading a text loses no byte

Main statement: `ofLetters_units`. A text is read as characters and stray bytes, and
written again they are the text. So what holds of the bytes of a text holds of the bytes
of its letters, and the other way round.
-/

namespace Deriver

theorem forall_byte {P : UInt8 → Prop} (h : ∀ n < 256, P (UInt8.ofNat n)) (b : UInt8) :
    P b := by
  have hb := h b.toNat b.toNat_lt
  rwa [UInt8.ofNat_toNat] at hb

/-- What holds of the characters of all numbers up to 0x80 holds of all of ASCII. -/
theorem forall_ascii {P : Char → Prop} (h : ∀ n < 128, P (Char.ofNat n)) (c : Char)
    (hc : c.toNat < 128) : P c := by
  have hn := h c.toNat hc
  rwa [Char.ofNat_toNat] at hn

namespace Text

/-! ## Well-formed sequences -/

/-- What a leading byte announces, by the number of bytes behind it. -/
theorem lead?_cases {b lo hi : UInt8} {k : Nat} (h : lead? b = some (k, lo, hi)) :
    (k = 1 ∧ 0xC2 ≤ b ∧ b ≤ 0xDF ∧ 0x80 ≤ lo ∧ hi ≤ 0xBF) ∨
    (k = 2 ∧ 0xE0 ≤ b ∧ b ≤ 0xEF ∧ 0x80 ≤ lo ∧ hi ≤ 0xBF ∧ (b = 0xE0 → lo = 0xA0) ∧
      (b = 0xED → hi = 0x9F)) ∨
    (k = 3 ∧ 0xF0 ≤ b ∧ b ≤ 0xF4 ∧ 0x80 ≤ lo ∧ hi ≤ 0xBF ∧ (b = 0xF0 → lo = 0x90) ∧
      (b = 0xF4 → hi = 0x8F)) := by
  unfold lead? at h
  split_ifs at h with h1 h2 h3 h4 h5 h6 h7
  all_goals cases h
  · rw [Bool.and_eq_true, decide_eq_true_eq, decide_eq_true_eq] at h1
    exact .inl ⟨rfl, h1.1, h1.2, by decide, by decide⟩
  · subst h2
    exact .inr (.inl (by decide))
  · subst h3
    exact .inr (.inl (by decide))
  · rw [Bool.and_eq_true, decide_eq_true_eq, decide_eq_true_eq] at h4
    exact .inr (.inl ⟨rfl, UInt8.le_trans (by decide) h4.1, h4.2, by decide, by decide,
      (absurd · h2), (absurd · h3)⟩)
  · subst h5
    exact .inr (.inr (by decide))
  · rw [Bool.and_eq_true, decide_eq_true_eq, decide_eq_true_eq] at h6
    exact .inr (.inr ⟨rfl, UInt8.le_trans (by decide) h6.1, UInt8.le_trans h6.2 (by decide),
      by decide, by decide, (absurd · h5), fun heq => absurd h6.2 (by rw [heq]; decide)⟩)
  · subst h7
    exact .inr (.inr (by decide))

theorem toNat_ofNat {n : Nat} (h : n.isValidChar) : (Char.ofNat n).toNat = n := by
  rw [Char.ofNat, dif_pos h]
  rfl

/-- The encoding of a code point, byte by byte. -/
theorem ofChar_ofNat {n : Nat} (h : n.isValidChar) : ofChar (Char.ofNat n) =
    if n ≤ 127 then [UInt8.ofNat n]
    else if n ≤ 2047 then [UInt8.ofNat (n / 64 % 32 + 192), UInt8.ofNat (n % 64 + 128)]
    else if n ≤ 65535 then
      [UInt8.ofNat (n / 4096 % 16 + 224), UInt8.ofNat (n / 64 % 64 + 128),
        UInt8.ofNat (n % 64 + 128)]
    else
      [UInt8.ofNat (n / 262144 % 8 + 240), UInt8.ofNat (n / 4096 % 64 + 128),
        UInt8.ofNat (n / 64 % 64 + 128), UInt8.ofNat (n % 64 + 128)] := by
  have hval : (Char.ofNat n).val.toNat = n := toNat_ofNat h
  rw [ofChar, String.utf8EncodeChar, hval]

theorem ofNat_eq_byte {n : Nat} {b : UInt8} (h : n = b.toNat) : UInt8.ofNat n = b := by
  rw [h, UInt8.ofNat_toNat]

/-- A well-formed sequence of several bytes is the encoding of the code point it stands
for. -/
theorem ofChar_of_multi? {b : UInt8} {rest : Text} {n k : Nat}
    (h : multi? b rest = some (n, k)) :
    0x80 ≤ n ∧ n.isValidChar ∧ ofChar (Char.ofNat n) = b :: rest.take k := by
  unfold multi? at h
  split at h
  case h_1 lo hi x t hlead =>
    split at h
    case isFalse => cases h
    case isTrue hx =>
      cases h
      rcases lead?_cases hlead with ⟨-, hb⟩ | ⟨hk, -⟩ | ⟨hk, -⟩
      · simp only [Bool.and_eq_true, decide_eq_true_eq, UInt8.le_iff_toNat_le,
          UInt8.reduceToNat] at hx hb
        have hvalid : (b.toNat % 32 * 64 + x.toNat % 64).isValidChar := .inl (by omega)
        refine ⟨?_, hvalid, ?_⟩
        · unfold payload
          omega
        · unfold payload
          rw [ofChar_ofNat hvalid, if_neg (by omega), if_pos (by omega)]
          rw [ofNat_eq_byte (b := b) (by omega), ofNat_eq_byte (b := x) (by omega)]
          rfl
      all_goals cases hk
  case h_2 lo hi x y t hlead =>
    split at h
    case isFalse => cases h
    case isTrue hx =>
      cases h
      rcases lead?_cases hlead with ⟨hk, -⟩ | ⟨-, hb⟩ | ⟨hk, -⟩
      · cases hk
      · simp only [Bool.and_eq_true, decide_eq_true_eq, isTail, UInt8.le_iff_toNat_le,
          ← UInt8.toNat_inj, UInt8.reduceToNat] at hx hb
        have hvalid : ((b.toNat % 16 * 64 + x.toNat % 64) * 64 +
            y.toNat % 64).isValidChar := by
          simp only [Nat.isValidChar]
          omega
        refine ⟨?_, hvalid, ?_⟩
        · unfold payload
          omega
        · unfold payload
          rw [ofChar_ofNat hvalid, if_neg (by omega), if_neg (by omega), if_pos (by omega)]
          rw [ofNat_eq_byte (b := b) (by omega), ofNat_eq_byte (b := x) (by omega),
            ofNat_eq_byte (b := y) (by omega)]
          rfl
      · cases hk
  case h_3 lo hi x y z t hlead =>
    split at h
    case isFalse => cases h
    case isTrue hx =>
      cases h
      rcases lead?_cases hlead with ⟨hk, -⟩ | ⟨hk, -⟩ | ⟨-, hb⟩
      · cases hk
      · cases hk
      · simp only [Bool.and_eq_true, decide_eq_true_eq, isTail, UInt8.le_iff_toNat_le,
          ← UInt8.toNat_inj, UInt8.reduceToNat] at hx hb
        have hvalid : (((b.toNat % 8 * 64 + x.toNat % 64) * 64 + y.toNat % 64) * 64 +
            z.toNat % 64).isValidChar := by
          simp only [Nat.isValidChar]
          omega
        refine ⟨?_, hvalid, ?_⟩
        · unfold payload
          omega
        · unfold payload
          rw [ofChar_ofNat hvalid, if_neg (by omega), if_neg (by omega), if_neg (by omega)]
          rw [ofNat_eq_byte (b := b) (by omega), ofNat_eq_byte (b := x) (by omega),
            ofNat_eq_byte (b := y) (by omega), ofNat_eq_byte (b := z) (by omega)]
          rfl
  case h_4 => cases h

theorem high_of_mem_ofChar {c : Char} {b : UInt8} (h : 0x80 ≤ c.toNat) (hb : b ∈ ofChar c) :
    0x80 ≤ b := by
  have hbyte {n : Nat} (hn : 128 ≤ n ∧ n < 256) : 0x80 ≤ UInt8.ofNat n := by
    rw [UInt8.le_iff_toNat_le, UInt8.toNat_ofNat_of_lt' (show n < 2 ^ 8 from hn.2)]
    exact hn.1
  rw [← Char.ofNat_toNat c, ofChar_ofNat (n := c.toNat) c.valid, if_neg (by omega)] at hb
  split_ifs at hb <;> simp only [List.mem_cons, List.not_mem_nil, or_false] at hb
  · rcases hb with rfl | rfl <;> exact hbyte (by omega)
  · rcases hb with rfl | rfl | rfl <;> exact hbyte (by omega)
  · rcases hb with rfl | rfl | rfl | rfl <;> exact hbyte (by omega)

theorem ofChar_of_low {b : UInt8} (h : b < 0x80) : ofChar (Char.ofNat b.toNat) = [b] := by
  have hlt : b.toNat < 128 := UInt8.lt_iff_toNat_lt.mp h
  rw [ofChar_ofNat (.inl (by omega)), if_pos (by omega), ofNat_eq_byte rfl]

theorem ofChar_low {c : Char} (h : c.toNat < 0x80) : ofChar c = [UInt8.ofNat c.toNat] := by
  rw [← Char.ofNat_toNat c, ofChar_ofNat (n := c.toNat) c.valid, if_pos (by omega),
    Char.ofNat_toNat]

theorem ofChar_of_char? {b : UInt8} {rest : Text} {c : Char} {k : Nat}
    (h : char? b rest = (some c, k)) : ofChar c = b :: rest.take k := by
  unfold char? at h
  split at h
  · next hlow =>
      cases h
      exact ofChar_of_low hlow
  · split at h
    · next hmulti =>
        cases h
        exact (ofChar_of_multi? hmulti).2.2
    · cases h

/-! ## Whole texts -/

theorem ofLetters_unitsLoop (skip : Nat) (t : Text) :
    ofLetters (unitsLoop skip t) = t.drop skip := by
  induction t generalizing skip with
  | nil => cases skip <;> rfl
  | cons b rest ih =>
      cases skip with
      | succ skip => rw [unitsLoop, ih, List.drop_succ_cons]
      | zero =>
          rw [unitsLoop]
          split
          · next c k hchar =>
              rw [ofLetters, List.flatMap_cons, ← ofLetters, ih, ofLetter,
                ofChar_of_char? hchar]
              rw [List.cons_append, List.take_append_drop, List.drop_zero]
          · rw [ofLetters, List.flatMap_cons, ← ofLetters, ih]
            rfl

theorem ofLetters_units (t : Text) : ofLetters t.units = t := ofLetters_unitsLoop 0 t

/-! ## Where a character begins -/

theorem ofChar_injective : Function.Injective ofChar := by
  intro c d heq
  have hread (c : Char) :=
    @ByteArray.utf8DecodeChar?_utf8EncodeChar_append ByteArray.empty c
  unfold ofChar at heq
  have hd := hread d
  rw [← heq, hread c] at hd
  exact Option.some.inj hd

/-- How many bytes stand behind a leading byte. -/
def tailCount (b : UInt8) : Nat :=
  if b < 0x80 then 0 else if b < 0xE0 then 1 else if b < 0xF0 then 2 else 3

/-- A character is a leading byte and as many bytes behind it as that says, none of which
could lead. -/
theorem ofChar_shape (c : Char) : ∃ b t, ofChar c = b :: t ∧ isTail b = false ∧
    (∀ x ∈ t, isTail x = true) ∧ t.length = tailCount b := by
  have hscalar := c.valid
  have htail (n : Nat) : isTail (UInt8.ofNat (n % 64 + 128)) = true := by
    have hbyte : (UInt8.ofNat (n % 64 + 128)).toNat = n % 64 + 128 :=
      UInt8.toNat_ofNat_of_lt' (show n % 64 + 128 < 2 ^ 8 by omega)
    simp only [isTail, Bool.and_eq_true, decide_eq_true_eq, UInt8.le_iff_toNat_le, hbyte,
      UInt8.reduceToNat]
    omega
  have hlead {n : Nat} (hn : n < 256) (h : n < 128 ∨ 191 < n) : isTail
      (UInt8.ofNat n) = false ∧
      tailCount (UInt8.ofNat n) =
        if n < 0x80 then 0 else if n < 0xE0 then 1 else if n < 0xF0 then 2 else 3 := by
    have hbyte : (UInt8.ofNat n).toNat = n :=
      UInt8.toNat_ofNat_of_lt' (show n < 2 ^ 8 from hn)
    simp only [isTail, tailCount, Bool.and_eq_false_iff, decide_eq_false_iff_not,
      UInt8.le_iff_toNat_le, UInt8.lt_iff_toNat_lt, hbyte, UInt8.reduceToNat, and_true]
    omega
  rw [← Char.ofNat_toNat c, ofChar_ofNat (n := c.toNat) c.valid]
  split_ifs
  · obtain ⟨hfirst, hcount⟩ := hlead (n := c.toNat) (by omega) (by omega)
    rw [if_pos (by omega)] at hcount
    exact ⟨_, [], rfl, hfirst, List.forall_mem_nil _, hcount.symm⟩
  · obtain ⟨hfirst, hcount⟩ := hlead (n := c.toNat / 64 % 32 + 192) (by omega) (by omega)
    rw [if_neg (by omega), if_pos (by omega)] at hcount
    refine ⟨_, _, rfl, hfirst, ?_, hcount.symm⟩
    exact List.forall_mem_singleton.mpr (htail _)
  · obtain ⟨hfirst, hcount⟩ := hlead (n := c.toNat / 4096 % 16 + 224) (by omega) (by omega)
    rw [if_neg (by omega), if_neg (by omega), if_pos (by omega)] at hcount
    refine ⟨_, _, rfl, hfirst, ?_, hcount.symm⟩
    exact List.forall_mem_cons.mpr ⟨htail _, List.forall_mem_singleton.mpr (htail _)⟩
  · obtain ⟨hfirst, hcount⟩ := hlead (n := c.toNat / 262144 % 8 + 240) (by omega) (by omega)
    rw [if_neg (by omega), if_neg (by omega), if_neg (by omega)] at hcount
    refine ⟨_, _, rfl, hfirst, ?_, hcount.symm⟩
    exact List.forall_mem_cons.mpr ⟨htail _,
      List.forall_mem_cons.mpr ⟨htail _, List.forall_mem_singleton.mpr (htail _)⟩⟩

theorem eq_of_prefix {c d : Char} {t : Text} (h : ofChar c <+: ofChar d ++ t) : c = d := by
  obtain ⟨b, u, hc, -, -, hcount⟩ := ofChar_shape c
  obtain ⟨b', u', hd, -, -, hcount'⟩ := ofChar_shape d
  obtain ⟨s, hs⟩ := h
  rw [hc, hd, List.cons_append, List.cons_append, List.cons.injEq] at hs
  obtain ⟨rfl, hs⟩ := hs
  have hu := (List.append_inj hs (hcount.trans hcount'.symm)).1
  exact ofChar_injective (by rw [hc, hd, hu])

theorem eq_of_suffix {c d : Char} {t : Text} (h : ofChar c <:+ t ++ ofChar d) : c = d := by
  obtain ⟨b, u, hc, hfirst, htails, -⟩ := ofChar_shape c
  obtain ⟨b', u', hd, hfirst', htails', -⟩ := ofChar_shape d
  have hboth : ofChar d <:+ t ++ ofChar d := List.suffix_append _ _
  -- the longer one would have a leading byte among the others
  have hshort {b : UInt8} {u v : Text} (hb : isTail b = false)
      (hv : ∀ x ∈ v, isTail x = true)
      {b' : UInt8} (hsuffix : b :: u <:+ b' :: v) : b :: u = b' :: v := by
    rcases List.suffix_cons_iff.mp hsuffix with heq | hsuffix
    · exact heq
    · exact absurd (hv b (hsuffix.subset (List.mem_cons_self ..)))
        (by rw [hb]; exact Bool.false_ne_true)
  refine ofChar_injective ?_
  rcases List.suffix_or_suffix_of_suffix h hboth with hsuffix | hsuffix
  · rw [hc, hd] at hsuffix ⊢
    exact hshort hfirst htails' hsuffix
  · rw [hc, hd] at hsuffix ⊢
    exact (hshort hfirst' htails hsuffix).symm

/-! ## White space -/

theorem ofChars_cons (c : Char) (cs : List Char) :
    ofChars (c :: cs) = ofChar c ++ ofChars cs :=
  List.flatMap_cons

theorem ofChars_append (cs ds : List Char) :
    ofChars (cs ++ ds) = ofChars cs ++ ofChars ds :=
  List.flatMap_append

theorem length_le_ofChars (cs : List Char) : cs.length ≤ (ofChars cs).length := by
  induction cs with
  | nil => exact Nat.le_refl 0
  | cons c cs ih =>
      obtain ⟨b, t, hc, -⟩ := ofChar_shape c
      rw [ofChars_cons, List.length_append, hc, List.length_cons, List.length_cons]
      omega

theorem dropMarks_step (mark : Char → Text) {c : Char} {t : Text} (n : Nat)
    (hbegins : ∀ d, mark d <+: mark c ++ t → d = c) :
    dropMarks (blanks.map mark) (n + 1) (mark c ++ t) =
      if isBlank c then dropMarks (blanks.map mark) n t else mark c ++ t := by
  cases hblank : isBlank c with
  | true =>
      obtain ⟨m, hm⟩ : ∃ m, (blanks.map mark).find? (·.isPrefixOf (mark c ++ t)) =
          some m := by
        rw [← Option.isSome_iff_exists, List.find?_isSome]
        refine ⟨mark c, List.mem_map_of_mem (List.contains_iff_mem.mp hblank), ?_⟩
        exact List.isPrefixOf_iff_prefix.mpr (List.prefix_append _ _)
      obtain ⟨d, -, rfl⟩ := List.mem_map.mp (List.mem_of_find?_eq_some hm)
      have hpre := List.find?_some (p := fun m : Text => m.isPrefixOf (mark c ++ t)) hm
      rw [dropMarks, hm, hbegins d (List.isPrefixOf_iff_prefix.mp hpre), if_pos rfl]
      exact congrArg (dropMarks _ n) List.drop_left
  | false =>
      have hnone : (blanks.map mark).find? (·.isPrefixOf (mark c ++ t)) = none := by
        rw [List.find?_eq_none]
        intro m hm hpre
        obtain ⟨d, hd, rfl⟩ := List.mem_map.mp hm
        rw [hbegins d (List.isPrefixOf_iff_prefix.mp hpre)] at hd
        rw [isBlank, List.contains_iff_mem.mpr hd] at hblank
        cases hblank
      rw [dropMarks, hnone]
      rfl

theorem dropMarks_nil {mark : Char → Text} (hmark : ∀ c, mark c ≠ []) (n : Nat) :
    dropMarks (blanks.map mark) n [] = [] := by
  cases n with
  | zero => rfl
  | succ n =>
      have hnone : (blanks.map mark).find? (·.isPrefixOf []) = none := by
        rw [List.find?_eq_none]
        intro m hm hpre
        obtain ⟨c, -, rfl⟩ := List.mem_map.mp hm
        exact hmark c (List.prefix_nil.mp (List.isPrefixOf_iff_prefix.mp hpre))
      rw [dropMarks, hnone]

theorem ofChar_ne_nil (c : Char) : ofChar c ≠ [] := by
  obtain ⟨b, t, hc, -⟩ := ofChar_shape c
  rw [hc]
  exact List.cons_ne_nil b t

theorem trimStart_ofChars (cs : List Char) :
    trimStart (ofChars cs) = ofChars (cs.dropWhile isBlank) := by
  have hloop (n : Nat) (hn : cs.length ≤ n) :
      dropMarks (blanks.map ofChar) n (ofChars cs) = ofChars (cs.dropWhile isBlank) := by
    induction cs generalizing n with
    | nil => exact dropMarks_nil ofChar_ne_nil n
    | cons c cs ih =>
        obtain ⟨n, rfl⟩ := Nat.exists_eq_add_of_le' (Nat.lt_of_lt_of_le (Nat.succ_pos _) hn)
        rw [ofChars_cons, dropMarks_step ofChar n fun d hd => eq_of_prefix hd,
          List.dropWhile_cons, ih n (Nat.le_of_succ_le_succ hn)]
        split
        · rfl
        · exact (ofChars_cons c cs).symm
  exact hloop _ (length_le_ofChars cs)

theorem trimEnd_ofChars (cs : List Char) :
    trimEnd (ofChars cs) = ofChars (cs.rdropWhile isBlank) := by
  have hloop (n : Nat) (hn : cs.length ≤ n) :
      dropMarks (blanks.map fun c => (ofChar c).reverse) n (ofChars cs).reverse =
        (ofChars (cs.rdropWhile isBlank)).reverse := by
    induction cs using List.reverseRecOn generalizing n with
    | nil => exact dropMarks_nil (fun c => List.reverse_ne_nil_iff.mpr (ofChar_ne_nil c)) n
    | append_singleton cs c ih =>
        rw [List.length_append] at hn
        obtain ⟨n, rfl⟩ := Nat.exists_eq_add_of_le' (Nat.lt_of_lt_of_le (Nat.succ_pos _) hn)
        have hlast : ofChars [c] = ofChar c := List.append_nil _
        have hsuffix (d : Char) (hd : (ofChar d).reverse <+: (ofChar c).reverse ++
            (ofChars cs).reverse) :
            d = c := by
          rw [← List.reverse_append, List.reverse_prefix] at hd
          exact eq_of_suffix hd
        rw [ofChars_append, hlast, List.reverse_append,
          dropMarks_step (fun c => (ofChar c).reverse) n hsuffix,
          List.rdropWhile_concat, ih n (Nat.le_of_succ_le_succ hn)]
        split
        · rfl
        · rw [ofChars_append, hlast, List.reverse_append]
  rw [trimEnd, hloop _ (length_le_ofChars cs), List.reverse_reverse]

/-- A text of characters is trimmed by leaving out white space at both ends. -/
theorem trim_ofChars (cs : List Char) :
    trim (ofChars cs) = ofChars ((cs.dropWhile isBlank).rdropWhile isBlank) := by
  rw [trim, trimStart_ofChars, trimEnd_ofChars]

/-- White space behind a text without any is trimmed, and nothing else. -/
theorem trim_append_blanks {cs bs : List Char} (hcs : ∀ c ∈ cs, isBlank c = false)
    (hbs : ∀ c ∈ bs, isBlank c = true) : trim (ofChars (cs ++ bs)) = ofChars cs := by
  have hkeep {ds : List Char} (hds : ∀ c ∈ ds, isBlank c = false) :
      ds.dropWhile isBlank = ds := by
    cases ds with
    | nil => rfl
    | cons d ds =>
        rw [List.dropWhile_cons, hds d (List.mem_cons_self ..)]
        rfl
  have hstart : (cs ++ bs).dropWhile isBlank = cs ++ if cs = [] then [] else bs := by
    cases cs with
    | nil => simpa using hbs
    | cons c cs =>
        rw [List.cons_append, List.dropWhile_cons, hcs c (List.mem_cons_self ..)]
        rfl
  have hend (ds : List Char) (hds : ∀ c ∈ ds, isBlank c = true) :
      (cs ++ ds).rdropWhile isBlank = cs := by
    rw [List.rdropWhile, List.reverse_append,
      List.dropWhile_append_of_pos fun c hc => hds c (List.mem_reverse.mp hc),
      hkeep fun c hc => hcs c (List.mem_reverse.mp hc), List.reverse_reverse]
  rw [trim_ofChars, hstart, hend]
  split
  · exact List.forall_mem_nil _
  · exact hbs

theorem dropMarks_suffix (marks : List Text) (n : Nat) (t : Text) :
    dropMarks marks n t <:+ t := by
  induction n generalizing t with
  | zero => exact List.suffix_refl t
  | succ n ih =>
      rw [dropMarks]
      split
      · exact (ih _).trans (List.drop_suffix _ _)
      · exact List.suffix_refl t

/-- Nothing is dropped of a text if and only if it begins with none of the marks. -/
theorem dropMarks_eq_self_iff {marks : List Text}
    (hmarks : ∀ m ∈ marks, m ≠ []) {t : Text} :
    dropMarks marks t.length t = t ↔ ∀ m ∈ marks, ¬ m <+: t := by
  cases t with
  | nil => exact iff_of_true rfl fun m hm hpre => hmarks m hm (List.prefix_nil.mp hpre)
  | cons b t =>
      rw [List.length_cons, dropMarks]
      cases hfind : marks.find? (·.isPrefixOf (b :: t)) with
      | none => exact iff_of_true rfl fun m hm hpre =>
          List.find?_eq_none.mp hfind m hm (List.isPrefixOf_iff_prefix.mpr hpre)
      | some m =>
          have hm := List.mem_of_find?_eq_some hfind
          have hpre := List.find?_some (p := fun m : Text => m.isPrefixOf (b :: t)) hfind
          dsimp only
          refine iff_of_false (fun heq => ?_) fun h =>
            h m hm (List.isPrefixOf_iff_prefix.mp hpre)
          have hlength :=
            (dropMarks_suffix marks t.length ((b :: t).drop m.length)).length_le
          rw [heq, List.length_drop, List.length_cons] at hlength
          have hpos := List.length_pos_iff.mpr (hmarks m hm)
          omega

/-- A text has nothing to trim if and only if it neither begins nor ends with white
space. -/
theorem trim_eq_self_iff {t : Text} :
    t.trim = t ↔ ∀ c ∈ blanks, ¬ ofChar c <+: t ∧ ¬ ofChar c <:+ t := by
  have hstart : trimStart t = t ↔ ∀ c ∈ blanks, ¬ ofChar c <+: t := by
    rw [trimStart, dropMarks_eq_self_iff
      (List.forall_mem_map.mpr fun c _ => ofChar_ne_nil c), List.forall_mem_map]
  have hend : trimEnd t = t ↔ ∀ c ∈ blanks, ¬ ofChar c <:+ t := by
    have hmarks : ∀ m ∈ blanks.map fun c => (ofChar c).reverse, m ≠ [] :=
      List.forall_mem_map.mpr fun c _ => List.reverse_ne_nil_iff.mpr (ofChar_ne_nil c)
    rw [trimEnd, List.reverse_eq_iff, ← List.length_reverse, dropMarks_eq_self_iff hmarks,
      List.forall_mem_map]
    simp only [List.reverse_prefix]
  have hsplit : t.trim = t ↔ trimStart t = t ∧ trimEnd t = t := by
    refine ⟨fun h => ?_, fun h => by rw [trim, h.1, h.2]⟩
    have hle : (trimEnd (trimStart t)).length ≤ (trimStart t).length := by
      have := (dropMarks_suffix (blanks.map fun c => (ofChar c).reverse)
        (trimStart t).length (trimStart t).reverse).length_le
      rw [trimEnd]
      rwa [List.length_reverse] at this ⊢
    have hsuffix : trimStart t <:+ t := dropMarks_suffix _ _ t
    have hstart : trimStart t = t := hsuffix.eq_of_length_le (by rwa [trim, h] at *)
    exact ⟨hstart, by rwa [trim, hstart] at h⟩
  rw [hsplit, hstart, hend]
  exact ⟨fun h c hc => ⟨h.1 c hc, h.2 c hc⟩,
    fun h => ⟨fun c hc => (h c hc).1, fun c hc => (h c hc).2⟩⟩

/-- A mark that a text begins with ends in front of a byte that is not in the mark. -/
theorem prefix_of_not_mem {m x t : Text} {b : UInt8} (h : m <+: x ++ b :: t)
    (hb : b ∉ m) : m <+: x := by
  rcases List.prefix_or_prefix_of_prefix h (List.prefix_append x _) with hx | ⟨u, rfl⟩
  · exact hx
  · cases u with
    | nil => simp
    | cons c u =>
        obtain ⟨rfl, -⟩ := List.cons_prefix_cons.mp ((List.prefix_append_right_inj x).mp h)
        exact absurd (List.mem_append_right x (List.mem_cons_self ..)) hb

theorem trim_colons {x y : Text} (hx : x.trim = x) (hy : y.trim = y) :
    (x ++ ("::" ++ y)).trim = x ++ ("::" ++ y) := by
  have hcolon : ∀ c ∈ blanks, 58 ∉ ofChar c := by
    have hall : ∀ c ∈ blanks, (!(ofChar c).contains 58) = true := List.all_eq_true.mp rfl
    intro c hc
    simpa using hall c hc
  rw [trim_eq_self_iff] at hx hy ⊢
  intro c hc
  refine ⟨fun hpre => (hx c hc).1 (prefix_of_not_mem hpre (hcolon c hc)),
    fun hsuf => (hy c hc).2 ?_⟩
  have hreverse : (x ++ (Text.ofString "::" ++ y)).reverse =
      y.reverse ++ 58 :: 58 :: x.reverse := by
    rw [List.reverse_append, List.reverse_append, List.append_assoc]
    rfl
  rw [← List.reverse_prefix, hreverse] at hsuf
  rw [← List.reverse_prefix]
  exact prefix_of_not_mem hsuf (by rw [List.mem_reverse]; exact hcolon c hc)

/-! ## The last character -/

theorem high_of_stray {skip : Nat} {b : UInt8} {t : Text}
    (h : .inr b ∈ unitsLoop skip t) : 0x80 ≤ b := by
  induction t generalizing skip with
  | nil => cases skip <;> cases h
  | cons c rest ih =>
      cases skip with
      | succ skip => exact ih h
      | zero =>
          rw [unitsLoop] at h
          split at h
          · exact ih ((List.mem_cons.mp h).resolve_left nofun)
          · next hchar =>
              rcases List.mem_cons.mp h with heq | h
              · obtain rfl := Sum.inr.inj heq
                rw [char?] at hchar
                split at hchar
                · cases hchar
                · next hhigh => exact UInt8.not_lt.mp hhigh
              · exact ih h

/-- The last byte of a text is its last character, or else belongs to one beyond ASCII. -/
theorem getLast?_chars {b : UInt8} {t : Text} (h : t.getLast? = some b) :
    ∃ c, t.chars.getLast? = some c ∧ if b < 0x80 then c =
    Char.ofNat b.toNat else 0x80 ≤ c.toNat := by
  have ht := ofLetters_units t
  rcases List.eq_nil_or_concat' t.units with hnil | ⟨before, l, hls⟩
  · rw [hnil] at ht
    rw [← ht] at h
    cases h
  · -- the last letter is not empty, so its last byte is that of the text
    have hb : (ofLetter l).getLast? = some b := by
      have hne : ofLetter l ≠ [] := by
        cases l with
        | inl c => exact ofChar_ne_nil c
        | inr b => exact List.cons_ne_nil b []
      rw [hls, ofLetters, List.flatMap_append, List.flatMap_singleton] at ht
      rw [← ht, List.getLast?_append_of_ne_nil _ hne] at h
      exact h
    rw [chars, hls, List.map_append]
    refine ⟨_, List.getLast?_concat, ?_⟩
    cases l with
    | inr x =>
        obtain rfl : x = b := Option.some.inj hb
        have hstray : (.inr x) ∈ unitsLoop 0 t :=
          (show unitsLoop 0 t = _ from hls) ▸ List.mem_append_right _
            (List.mem_singleton_self _)
        rw [if_neg (UInt8.not_lt.mpr (high_of_stray hstray))]
        exact (by decide : 0x80 ≤ replacement.toNat)
    | inl c =>
        by_cases hc : 0x80 ≤ c.toNat
        · rw [if_neg (UInt8.not_lt.mpr (high_of_mem_ofChar hc (List.mem_of_getLast? hb)))]
          exact hc
        · have hbyte := ofChar_low (Nat.lt_of_not_le hc)
          obtain rfl : UInt8.ofNat c.toNat = b :=
            Option.some.inj ((congrArg _ hbyte).symm.trans hb)
          have hval : (UInt8.ofNat c.toNat).toNat = c.toNat :=
            UInt8.toNat_ofNat_of_lt' (show c.toNat < 2 ^ 8 by omega)
          rw [if_pos (UInt8.lt_iff_toNat_lt.mpr
            (by rw [hval]; exact Nat.lt_of_not_le hc)), hval, Char.ofNat_toNat]

end Text

end Deriver
