import Deriver.Proofs.Text.Ascii
import Deriver.Proofs.Text.Casing
import Deriver.Token.Identifier

/-!
# Words are all there is in a name

Main statement: `words_snakeCase`. A name is its words and the separators between them, so
the words hold every other character of it, in order. In snake case there are no capitals
left, so a word begins at an underscore and nowhere else, and a name in snake case is one
already.

Only a second raw mark is in the way of that: in lower case it would be taken for the mark
of a raw name, and no identifier has one.
-/

namespace Deriver

namespace Text

/-! ## Characters of well-formed texts -/

theorem ofChars_chars {t : Text} (h : t.isUtf8 = true) : ofChars t.chars = t := by
  have hletters : ofLetters t.units = ofChars t.chars := by
    rw [chars, ofChars, ofLetters, List.flatMap_map]
    refine List.flatMap_congr fun l hl => ?_
    cases l with
    | inl c => rfl
    | inr b => exact absurd (List.all_eq_true.mp h _ hl) Bool.false_ne_true
  rw [← hletters, ofLetters_units]

theorem isUtf8_dropStart {t : Text} (h : t.isUtf8 = true) :
    (t.dropStart "r#").isUtf8 = true := by
  unfold dropStart dropStart?
  split
  · next hstart =>
      obtain ⟨rest, rfl⟩ := List.isPrefixOf_iff_prefix.mp hstart
      have hunits : units ("r#" ++ rest) = .inl 'r' :: .inl '#' :: units rest := rfl
      rw [isUtf8, hunits, List.all_cons, List.all_cons, Bool.true_and, Bool.true_and] at h
      rw [Option.getD_some, List.drop_left]
      exact h
  · exact h

theorem filter_ofChars {p : UInt8 → Bool} {q : Char → Bool}
    (hhigh : ∀ b, 0x80 ≤ b → p b = true)
    (hhigh' : ∀ c : Char, 0x80 ≤ c.toNat → q c = true)
    (hlow : ∀ c : Char, c.toNat < 0x80 → p (UInt8.ofNat c.toNat) = q c) (cs : List Char) :
    (ofChars cs).filter p = ofChars (cs.filter q) := by
  induction cs with
  | nil => rfl
  | cons c cs ih =>
      rw [ofChars_cons, List.filter_append, ih, List.filter_cons]
      by_cases hc : c.toNat < 0x80
      · rw [ofChar_low hc, List.filter_cons, hlow c hc, List.filter_nil]
        split
        · rw [ofChars_cons, ofChar_low hc]
        · rfl
      · have hc := Nat.not_lt.mp hc
        rw [if_pos (hhigh' c hc), ofChars_cons]
        rw [List.filter_eq_self.mpr fun b hb => hhigh b (high_of_mem_ofChar hc hb)]

theorem concat_ofChars (ws : List (List Char)) :
    concat (ws.map ofChars) = ofChars ws.flatten := by
  induction ws with
  | nil => rfl
  | cons w ws ih =>
      rw [List.map_cons, List.flatten_cons, ofChars_append, ← ih]
      rfl

end Text

namespace Casing

/-! ## Words -/

/-- A word has characters, and none of them is a separator. -/
def IsWord (w : List Char) : Prop := w ≠ [] ∧ ∀ c ∈ w, isSeparator c = false

/-- What is found are words, whatever part of one has been read. -/
theorem isWord_of_mem_wordLoop {word cs w : List Char}
    (hword : ∀ c ∈ word, isSeparator c = false)
    (hw : w ∈ wordLoop word cs) : IsWord w := by
  have hread {word : List Char} (hne : word ≠ [])
      (hword : ∀ c ∈ word, isSeparator c = false) :
      IsWord word.reverse :=
    ⟨fun h => hne (List.reverse_eq_nil_iff.mp h),
      fun c hc => hword c (List.mem_reverse.mp hc)⟩
  have hsingle {d : Char} (hsep : ¬isSeparator d = true) : ∀ c ∈ [d],
      isSeparator c = false :=
    List.forall_mem_singleton.mpr (Bool.eq_false_iff.mpr hsep)
  induction word, cs using wordLoop.induct with
  | case1 => cases hw
  | case2 word hne =>
      rw [wordLoop.eq_2 word hne, List.mem_singleton] at hw
      exact hw ▸ hread hne hword
  | case3 d rest hsep ih =>
      rw [wordLoop, if_pos hsep] at hw
      exact ih hword hw
  | case4 d rest hsep head tail ih =>
      rw [wordLoop, if_pos hsep] at hw
      rcases List.mem_cons.mp hw with rfl | hw
      · exact hread (List.cons_ne_nil _ _) hword
      · exact ih (List.forall_mem_nil _) hw
  | case5 d rest hsep ih =>
      rw [wordLoop, if_neg hsep] at hw
      exact ih (hsingle hsep) hw
  | case6 d rest hsep head tail hupper ih =>
      rw [wordLoop, if_neg hsep, if_pos hupper] at hw
      rcases List.mem_cons.mp hw with rfl | hw
      · exact hread (List.cons_ne_nil _ _) hword
      · exact ih (hsingle hsep) hw
  | case7 d rest hsep head tail hlower ih =>
      rw [wordLoop, if_neg hsep, if_neg hlower] at hw
      exact ih (List.forall_mem_cons.mpr ⟨Bool.eq_false_iff.mpr hsep, hword⟩) hw

theorem flatten_wordLoop (word cs : List Char) :
    (wordLoop word cs).flatten = word.reverse ++ cs.filter (!isSeparator ·) := by
  induction word, cs using wordLoop.induct with
  | case1 => rfl
  | case2 word hne =>
      rw [wordLoop.eq_2 word hne, List.flatten_singleton, List.filter_nil, List.append_nil]
  | case3 d rest hsep ih =>
      rw [wordLoop, if_pos hsep, ih, List.filter_cons_of_neg (by simpa using hsep)]
  | case4 d rest hsep head tail ih =>
      rw [wordLoop, if_pos hsep, List.flatten_cons, ih,
        List.filter_cons_of_neg (by simpa using hsep)]
      rfl
  | case5 d rest hsep ih =>
      rw [wordLoop, if_neg hsep, ih, List.filter_cons_of_pos (by simpa using hsep)]
      rfl
  | case6 d rest hsep head tail hupper ih =>
      rw [wordLoop, if_neg hsep, if_pos hupper, List.flatten_cons, ih,
        List.filter_cons_of_pos (by simpa using hsep)]
      rfl
  | case7 d rest hsep head tail hlower ih =>
      rw [wordLoop, if_neg hsep, if_neg hlower, ih,
        List.filter_cons_of_pos (by simpa using hsep),
        List.reverse_cons, List.append_assoc]
      rfl

theorem wordLoop_append {w : List Char} (hw : ∀ c ∈ w, isSeparator c = false)
    (hsmall : ∀ c ∈ w, Text.isUpperCase c = false) (word rest : List Char) :
    wordLoop word (w ++ rest) = wordLoop (w.reverse ++ word) rest := by
  induction w generalizing word with
  | nil => rfl
  | cons c w ih =>
      obtain ⟨hc, hw⟩ := List.forall_mem_cons.mp hw
      obtain ⟨hcsmall, hsmall⟩ := List.forall_mem_cons.mp hsmall
      have hnext : wordLoop word (c :: (w ++ rest)) = wordLoop (c :: word) (w ++ rest) := by
        cases word with
        | nil => rw [wordLoop, hc, if_neg Bool.false_ne_true]
        | cons prev word =>
            rw [wordLoop, hc, hcsmall, Bool.false_and, if_neg Bool.false_ne_true,
              if_neg Bool.false_ne_true]
      rw [List.cons_append, hnext, ih hw hsmall, List.reverse_cons, List.append_assoc]
      rfl

theorem wordLoop_intercalate {ws : List (List Char)} (hws : ∀ w ∈ ws, IsWord w)
    (hsmall : ∀ w ∈ ws, ∀ c ∈ w, Text.isUpperCase c = false) :
    wordLoop [] (['_'].intercalate ws) = ws := by
  have hend {w : List Char} (hw : w ≠ []) (rest : List Char) :
      wordLoop w.reverse ('_' :: rest) = w :: wordLoop [] rest := by
    obtain ⟨c, w', hrev⟩ := List.exists_cons_of_ne_nil (mt List.reverse_eq_nil_iff.mp hw)
    rw [hrev, wordLoop, if_pos (show isSeparator '_' = true from rfl)]
    rw [← hrev, List.reverse_reverse]
  induction ws with
  | nil => rfl
  | cons w ws ih =>
      obtain ⟨hw, hws⟩ := List.forall_mem_cons.mp hws
      obtain ⟨hwsmall, hsmall⟩ := List.forall_mem_cons.mp hsmall
      cases ws with
      | nil =>
          have hloop := wordLoop_append hw.2 hwsmall [] []
          rw [List.append_nil, List.append_nil] at hloop
          rw [List.intercalate_singleton, hloop,
            wordLoop.eq_2 _ (mt List.reverse_eq_nil_iff.mp hw.1), List.reverse_reverse]
      | cons v vs =>
          rw [List.intercalate_cons_cons, List.append_assoc, wordLoop_append hw.2 hwsmall,
            List.append_nil, List.singleton_append, hend hw.1, ih hws hsmall]

/-! ## Separators between words -/

/-- Between pieces that are not empty and do not hold it, a separator neither begins nor
ends the whole, and no two of them stand together. -/
theorem intercalate_single {α : Type} [BEq α] [LawfulBEq α] {x : α} {ls : List (List α)}
    (h : ∀ l ∈ ls, l ≠ [] ∧ x ∉ l) :
    ([x].intercalate ls).head? ≠ some x ∧ ([x].intercalate ls).getLast? ≠ some x ∧
      ¬[x, x] <:+: [x].intercalate ls := by
  rcases List.eq_nil_or_concat' ls with rfl | ⟨before, last, hls⟩
  · rw [List.intercalate_nil]
    exact ⟨nofun, nofun, fun hinfix => List.cons_ne_nil x [x] (List.infix_nil.mp hinfix)⟩
  · have hne : ls ≠ [] := by
      rw [hls]
      exact List.append_ne_nil_of_right_ne_nil _ (List.cons_ne_nil _ _)
    have hpieces := List.splitOn_intercalate x (fun l hl => (h l hl).2) hne
    -- a separator in a wrong place leaves an empty piece
    have hwrong (s t : List α) (heq : [x].intercalate ls = s ++ x :: t) :
        [] ∉ s.splitOn x ∧ [] ∉ t.splitOn x := by
      rw [heq, List.splitOn_append_cons_self] at hpieces
      rw [← not_or, ← List.mem_append, hpieces]
      exact fun hnil => (h [] hnil).1 rfl
    have hempty : [] ∈ ([] : List α).splitOn x := by
      rw [List.splitOn_nil]
      exact List.mem_singleton_self []
    refine ⟨fun hhead => ?_, fun hlast => ?_, fun ⟨s, t, hdouble⟩ => ?_⟩
    · obtain ⟨t, ht⟩ := List.head?_eq_some_iff.mp hhead
      exact (hwrong [] t ht).1 hempty
    · obtain ⟨s, hs⟩ := List.getLast?_eq_some_iff.mp hlast
      exact (hwrong s [] hs).2 hempty
    · rw [List.append_assoc] at hdouble
      have hsecond := (hwrong s (x :: t) hdouble.symm).2
      rw [← List.nil_append (x :: t), List.splitOn_append_cons_self, List.mem_append,
        not_or] at hsecond
      exact hsecond.1 hempty

theorem join_underscore (ws : List (List Char)) :
    Text.join "_" (ws.map Text.ofChars) = Text.ofChars (['_'].intercalate ws) := by
  induction ws with
  | nil => rfl
  | cons w ws ih =>
      cases ws with
      | nil => rw [List.intercalate_singleton, List.map_singleton, Text.join]
      | cons v vs =>
          rw [List.intercalate_cons_cons, Text.ofChars_append, Text.ofChars_append, ← ih]
          rfl

theorem map_intercalate {α β : Type} (f : α → β) (x : α) (ls : List (List α)) :
    ([x].intercalate ls).map f = [f x].intercalate (ls.map (List.map f)) := by
  induction ls with
  | nil => rfl
  | cons l ls ih =>
      cases ls with
      | nil =>
          rw [List.intercalate_singleton, List.map_singleton, List.intercalate_singleton]
      | cons m ms =>
          rw [List.intercalate_cons_cons, List.map_append, List.map_append, ih]
          exact List.intercalate_cons_cons.symm

theorem mem_intercalate {α : Type} {x a : α} {ls : List (List α)}
    (h : a ∈ [x].intercalate ls) : a = x ∨ ∃ l ∈ ls, a ∈ l := by
  induction ls with
  | nil => cases h
  | cons l ls ih =>
      cases ls with
      | nil =>
          rw [List.intercalate_singleton] at h
          exact .inr ⟨l, List.mem_singleton_self l, h⟩
      | cons m ms =>
          rw [List.intercalate_cons_cons, List.mem_append, List.mem_append,
            List.mem_singleton] at h
          rcases h with (h | h) | h
          · exact .inr ⟨l, List.mem_cons_self .., h⟩
          · exact .inl h
          · exact (ih h).imp_right fun ⟨k, hk, ha⟩ => ⟨k, List.mem_cons_of_mem l hk, ha⟩

/-! ## Snake case -/

open Text (IsAscii smallAscii ofChars)

theorem smallAscii_low {c : Char} (h : c.toNat < 128) : (smallAscii c).toNat < 128 ∧
    Text.isUpperCase (smallAscii c) = false ∧ isSeparator (smallAscii c) = isSeparator c ∧
    smallAscii (smallAscii c) = smallAscii c ∧ (smallAscii c = '#' → c = '#') := by
  have hall : ∀ n < 128, (smallAscii (Char.ofNat n)).toNat < 128 ∧
      Text.isUpperCase (smallAscii (Char.ofNat n)) = false ∧
      isSeparator (smallAscii (Char.ofNat n)) = isSeparator (Char.ofNat n) ∧
      smallAscii (smallAscii (Char.ofNat n)) = smallAscii (Char.ofNat n) ∧
      (smallAscii (Char.ofNat n) = '#' → Char.ofNat n = '#') := by decide +kernel
  have hc := hall c.toNat h
  rwa [Char.ofNat_toNat] at hc

variable {ident : Text}

/-- The words of a name in small letters. -/
def smallWords (ident : Text) : List (List Char) :=
  (wordLoop [] (ident.dropStart "r#").chars).map (List.map smallAscii)

theorem isAscii_dropStart (h : IsAscii ident) (mark : Text) :
    IsAscii (ident.dropStart mark) := by
  unfold Text.dropStart Text.dropStart?
  split
  · exact h.drop _
  · exact h

theorem low_of_mem_wordLoop (h : IsAscii ident) {w : List Char}
    (hw : w ∈ wordLoop [] (ident.dropStart "r#").chars) {c : Char} (hc : c ∈ w) :
    c.toNat < 128 :=
  Text.low_of_mem_chars (isAscii_dropStart h _) c
    ((mem_of_wordLoop hw hc).resolve_left List.not_mem_nil)

theorem of_mem_smallWords (h : IsAscii ident) {w : List Char} (hw : w ∈ smallWords ident) :
    IsWord w ∧ ∀ c ∈ w, c.toNat < 128 ∧ Text.isUpperCase c = false ∧ smallAscii c = c ∧
      (c = '#' → '#' ∈ (ident.dropStart "r#").chars) := by
  obtain ⟨v, hv, rfl⟩ := List.mem_map.mp hw
  obtain ⟨hne, hsep⟩ := isWord_of_mem_wordLoop (List.forall_mem_nil _) hv
  refine ⟨⟨mt List.map_eq_nil_iff.mp hne, fun c hc => ?_⟩, fun c hc => ?_⟩
  · obtain ⟨d, hd, rfl⟩ := List.mem_map.mp hc
    rw [(smallAscii_low (low_of_mem_wordLoop h hv hd)).2.2.1]
    exact hsep d hd
  · obtain ⟨d, hd, rfl⟩ := List.mem_map.mp hc
    obtain ⟨hlow, hsmall, -, hagain, hmark⟩ := smallAscii_low (low_of_mem_wordLoop h hv hd)
    exact ⟨hlow, hsmall, hagain, fun heq =>
      hmark heq ▸ (mem_of_wordLoop hv hd).resolve_left List.not_mem_nil⟩

theorem low_of_mem_intercalate {ws : List (List Char)}
    (h : ∀ w ∈ ws, ∀ c ∈ w, c.toNat < 128) :
    ∀ c ∈ ['_'].intercalate ws, c.toNat < 128 := by
  intro c hc
  rcases mem_intercalate hc with rfl | ⟨w, hw, hc⟩
  · decide
  · exact h w hw c hc

theorem low_of_mem_snake (h : IsAscii ident) :
    ∀ c ∈ ['_'].intercalate (smallWords ident), c.toNat < 128 :=
  low_of_mem_intercalate fun _ hw c hc => ((of_mem_smallWords h hw).2 c hc).1

theorem snakeCase_eq (h : IsAscii ident) :
    snakeCase ident = ofChars (['_'].intercalate (smallWords ident)) := by
  have hlow : ∀ c ∈ ['_'].intercalate (wordLoop [] (ident.dropStart "r#").chars),
      c.toNat < 128 :=
    low_of_mem_intercalate fun _ hw _ hc => low_of_mem_wordLoop h hw hc
  have hsnake : snakeCase ident = (Text.join "_" (words ident)).lower := rfl
  rw [hsnake, words, join_underscore, Text.lower_ofChars hlow, map_intercalate]
  rfl

theorem dropStart_of_not_mem {t : Text} (h : 35 ∉ t) : t.dropStart "r#" = t := by
  unfold Text.dropStart Text.dropStart?
  split
  · next hstart =>
      have hmark : (35 : UInt8) ∈ Text.ofString "r#" := by decide
      exact absurd ((List.isPrefixOf_iff_prefix.mp hstart).subset hmark) h
  · rfl

/-- In snake case no raw mark comes up that the name did not have behind its own. -/
theorem not_mem_snakeCase (h : IsAscii ident) (hmark : 35 ∉ ident.dropStart "r#") :
    35 ∉ snakeCase ident := by
  intro hmem
  rw [snakeCase_eq h, Text.ofChars_low (low_of_mem_snake h)] at hmem
  obtain ⟨c, hc, heq⟩ := List.mem_map.mp hmem
  obtain rfl : c = '#' := Text.byte_inj (low_of_mem_snake h c hc) (by decide) heq
  rcases mem_intercalate hc with hc | ⟨w, hw, hc⟩
  · exact absurd hc (by decide)
  · have hchar := ((of_mem_smallWords h hw).2 '#' hc).2.2.2 rfl
    exact hmark (Text.byte_mem_of_mem_chars (isAscii_dropStart h _) hchar)

theorem smallWords_snakeCase (h : IsAscii ident) (hmark : 35 ∉ ident.dropStart "r#") :
    smallWords (snakeCase ident) = smallWords ident := by
  have hwords : ∀ w ∈ smallWords ident, w.map smallAscii = w := fun w hw =>
    (List.map_congr_left fun c hc => ((of_mem_smallWords h hw).2 c hc).2.2.1).trans
      (List.map_id w)
  rw [smallWords, dropStart_of_not_mem (not_mem_snakeCase h hmark), snakeCase_eq h,
    Text.chars_ofChars (low_of_mem_snake h),
    wordLoop_intercalate (fun w hw => (of_mem_smallWords h hw).1)
      fun w hw c hc => ((of_mem_smallWords h hw).2 c hc).2.1]
  exact (List.map_congr_left hwords).trans (List.map_id _)

theorem snakeCase_snakeCase (h : IsAscii ident) (hmark : 35 ∉ ident.dropStart "r#") :
    snakeCase (snakeCase ident) = snakeCase ident := by
  have hsnake : IsAscii (snakeCase ident) := by
    rw [snakeCase_eq h]
    exact Text.isAscii_ofChars (low_of_mem_snake h)
  rw [snakeCase_eq hsnake, smallWords_snakeCase h hmark, ← snakeCase_eq h]

theorem snakeCase_underscores (h : IsAscii ident) :
    (snakeCase ident).head? ≠ some 95 ∧ (snakeCase ident).getLast? ≠ some 95 ∧
      ¬[95, 95] <:+: snakeCase ident := by
  have hbytes : snakeCase ident =
      [95].intercalate ((smallWords ident).map
        (List.map fun c => UInt8.ofNat c.toNat)) := by
    rw [snakeCase_eq h, Text.ofChars_low (low_of_mem_snake h), map_intercalate]
    rfl
  rw [hbytes]
  refine intercalate_single fun l hl => ?_
  obtain ⟨w, hw, rfl⟩ := List.mem_map.mp hl
  obtain ⟨⟨hne, hsep⟩, hlow⟩ := of_mem_smallWords h hw
  refine ⟨mt List.map_eq_nil_iff.mp hne, fun hmem => ?_⟩
  obtain ⟨c, hc, heq⟩ := List.mem_map.mp hmem
  obtain rfl : c = '_' := Text.byte_inj (hlow c hc).1 (by decide) heq
  exact absurd (hsep '_' hc) (by decide)

/-! ## Names -/

theorem filter_separators (cs : List Char) :
    (ofChars cs).filter (fun b => b != 95 && b != 45) =
    ofChars (cs.filter (!isSeparator ·)) := by
  have hhigh : ∀ b : UInt8, 0x80 ≤ b → (b != 95 && b != 45) = true :=
    forall_byte (by decide +kernel)
  have hlow : ∀ n < 128,
      (UInt8.ofNat (Char.ofNat n).toNat != 95 && UInt8.ofNat (Char.ofNat n).toNat != 45) =
      !isSeparator (Char.ofNat n) := by decide +kernel
  refine Text.filter_ofChars hhigh (fun c hc => ?_) (fun c hc => ?_) cs
  · have hne {d : Char} (hd : d.toNat < 0x80) : (c == d) = false :=
      beq_eq_false_iff_ne.mpr fun heq => absurd (heq ▸ hd) (Nat.not_lt.mpr hc)
    rw [isSeparator, hne (by decide), hne (by decide)]
    rfl
  · have hc := hlow c.toNat hc
    rwa [Char.ofNat_toNat] at hc

/-- No word is empty or has a separator, and the words are the name without its
separators. -/
theorem words_lossless (h : ident.isUtf8 = true) :
    (∀ w ∈ words ident, w ≠ [] ∧ 95 ∉ w ∧ 45 ∉ w) ∧
      Text.concat (words ident) = (ident.dropStart "r#").filter fun b =>
      b != 95 && b != 45 := by
  have hchars := Text.ofChars_chars (Text.isUtf8_dropStart h)
  constructor
  · intro w hw
    obtain ⟨v, hv, rfl⟩ := List.mem_map.mp hw
    obtain ⟨hne, hsep⟩ := isWord_of_mem_wordLoop (List.forall_mem_nil _) hv
    have hkept : (ofChars v).filter (fun b => b != 95 && b != 45) = ofChars v := by
      rw [filter_separators, List.filter_eq_self.mpr fun c hc => by rw [hsep c hc]; rfl]
    have hbytes := List.filter_eq_self.mp hkept
    refine ⟨fun hnil => ?_, fun hmem => absurd (hbytes _ hmem) (by decide),
      fun hmem => absurd (hbytes _ hmem) (by decide)⟩
    have hlength := Text.length_le_ofChars v
    rw [hnil] at hlength
    exact hne (List.eq_nil_of_length_eq_zero (Nat.le_zero.mp hlength))
  · rw [words, Text.concat_ofChars, flatten_wordLoop, List.reverse_nil, List.nil_append,
      ← filter_separators, hchars]

/-- An identifier of ASCII has no other raw mark than the one that is left out. -/
theorem mark_not_mem_of_isIdentifier (hascii : IsAscii ident)
    (h : isIdentifier ident = true) : 35 ∉ ident.dropStart "r#" := by
  intro hmem
  have hmark : '#' ∈ (ident.dropStart "r#").chars := by
    rw [Text.chars_ascii (isAscii_dropStart hascii _)]
    exact List.mem_map.mpr ⟨35, hmem, rfl⟩
  have hnone : (Text.isLetter '#' || Text.isDecimal '#' || '#' == '_') = false := by
    decide +kernel
  unfold isIdentifier at h
  dsimp only at h
  split at h
  · cases h
  · next c cs hchars =>
      rw [Bool.and_eq_true, Bool.and_eq_true, List.all_eq_true, ← hchars] at h
      exact absurd (h.1.2 _ hmark) (ne_true_of_eq_false hnone)

/-- Splitting a name into words loses nothing but its raw mark and its separators. An
identifier of ASCII, or any other name without a second raw mark, is put in snake case
once and for all, and its underscores stand one by one between other characters. -/
theorem words_snakeCase (ident : Text) (h : ident.isUtf8 = true) :
    ((∀ w ∈ words ident, w ≠ [] ∧ 95 ∉ w ∧ 45 ∉ w) ∧
      Text.concat (words ident) = (ident.dropStart "r#").filter fun b =>
      b != 95 && b != 45) ∧
    ((∀ b ∈ ident, b < 0x80) → isIdentifier ident = true ∨ 35 ∉ ident.dropStart "r#" →
      snakeCase (snakeCase ident) = snakeCase ident ∧
      (snakeCase ident).head? ≠ some 95 ∧ (snakeCase ident).getLast? ≠ some 95 ∧
      ¬[95, 95] <:+: snakeCase ident) :=
  ⟨words_lossless h, fun hascii hname =>
    ⟨snakeCase_snakeCase hascii (hname.elim (mark_not_mem_of_isIdentifier hascii) id),
      snakeCase_underscores hascii⟩⟩

/-- A raw name with underscores at both ends, and a name with a hyphen, which is no
identifier. -/
theorem words_snakeCase_server :
    let server : Text := "r#_HTTPServer2__"
    let kebab : Text := "-get-HTTP"
    (server.isUtf8 = true ∧ isIdentifier server = true ∧
      Text.concat (words server) = "HTTPServer2" ∧
      snakeCase (snakeCase server) = snakeCase server) ∧
    kebab.isUtf8 = true ∧ isIdentifier kebab = false ∧
      Text.concat (words kebab) = "getHTTP" ∧
      snakeCase (snakeCase kebab) = snakeCase kebab := by
  intro server kebab
  have hserver : server.isUtf8 = true := by decide +kernel
  have hkebab : kebab.isUtf8 = true := by decide +kernel
  have hname : isIdentifier server = true := by decide +kernel
  have hother : isIdentifier kebab = false := by decide +kernel
  have hascii {t : Text} (ht : t.all (· < 0x80) = true) : ∀ b ∈ t, b < 0x80 := fun b hb =>
    of_decide_eq_true (List.all_eq_true.mp ht b hb)
  obtain ⟨⟨-, hconcat⟩, hsnake⟩ := words_snakeCase server hserver
  obtain ⟨⟨-, hconcat'⟩, hsnake'⟩ := words_snakeCase kebab hkebab
  exact ⟨⟨hserver, hname, hconcat, (hsnake (hascii (by decide)) (.inl hname)).1⟩,
    hkebab, hother, hconcat', (hsnake' (hascii (by decide)) (.inr (by decide))).1⟩

end Casing

end Deriver
