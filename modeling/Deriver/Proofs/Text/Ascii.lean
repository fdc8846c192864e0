import Deriver.Proofs.Text.Utf8
import Deriver.Text.Casing
import Mathlib.Data.List.Basic
import Mathlib.Tactic.NthRewrite

/-!
# The case of ASCII letters

Main statements: `fold_congr` and `lower_ascii`. Texts that differ only in the case of ASCII
letters are the same text without case. A text of ASCII is put in lower case letter by
letter, wherever its rounds end: every letter is settled by itself and takes a single
byte, so a round only stops where its window or its room does, and the next one goes on
from there.
-/

namespace Deriver.Text

/-! ## Small letters -/

/-- The small letter of an ASCII capital; any other byte stays as it is. -/
def smallByte (b : UInt8) : UInt8 := if isUpperByte b then b + 32 else b

/-- The small letter of an ASCII capital; any other character stays as it is. -/
def smallAscii (c : Char) : Char :=
  if 65 ≤ c.toNat ∧ c.toNat ≤ 90 then Char.ofNat (c.toNat + 32) else c

theorem smallByte_low : ∀ b : UInt8, b < 0x80 → smallByte b < 0x80 ∧
    Char.ofNat (smallByte b).toNat = smallAscii (Char.ofNat b.toNat) :=
  forall_byte (by decide +kernel)

/-- In a table whose first entry is for the capitals of ASCII and whose others lie beyond
ASCII, the capitals go to their small letters and all else of ASCII stays. -/
theorem shiftBy_ascii (table : List Shift) (htable : ∀ e ∈ table, 128 ≤ e.1) {n : Nat}
    (hn : n < 128) :
    shiftBy ((0x41, 0x5a, 1, 0x61) :: table) n = if 65 ≤ n ∧ n ≤ 90 then n + 32 else n := by
  have hrest {p : Shift → Bool} (hp : ∀ e, p e = true → e.1 ≤ n) :
      table.find? p = none := by
    refine List.find?_eq_none.mpr fun e he hmatch => ?_
    have := htable e he
    have := hp e hmatch
    omega
  rw [shiftBy, List.find?_cons]
  by_cases hcapital : 65 ≤ n ∧ n ≤ 90
  · rw [if_pos hcapital]
    simp [hcapital, Nat.mod_one]
    omega
  · have hnot : (decide (65 ≤ n) && decide (n ≤ 90)) = false := by
      rw [← Bool.decide_and]
      exact decide_eq_false hcapital
    rw [if_neg hcapital, hrest fun e he => ?_]
    · simp only [hnot, Bool.false_and]
    · simp only [Bool.and_eq_true, decide_eq_true_eq] at he
      exact he.1.1

theorem toNat_smallAscii (c : Char) :
    (smallAscii c).toNat = if 65 ≤ c.toNat ∧ c.toNat ≤ 90 then c.toNat + 32
    else c.toNat := by
  unfold smallAscii
  split
  · exact toNat_ofNat (.inl (by omega))
  · rfl

/-- The letters of a text of ASCII. -/
def asciiLetters (t : Text) : List Letter := t.map fun b => .inl (Char.ofNat b.toNat)

/-- Every byte is one of ASCII. -/
def IsAscii (t : Text) : Prop := ∀ b ∈ t, b < 0x80

variable {t : Text}

theorem IsAscii.take (h : IsAscii t) (n : Nat) : IsAscii (t.take n) :=
  fun b hb => h b (List.mem_of_mem_take hb)

theorem IsAscii.drop (h : IsAscii t) (n : Nat) : IsAscii (t.drop n) :=
  fun b hb => h b (List.mem_of_mem_drop hb)

theorem units_ascii (h : IsAscii t) : t.units = asciiLetters t := by
  induction t with
  | nil => rfl
  | cons b t ih =>
      obtain ⟨hb, ht⟩ := List.forall_mem_cons.mp h
      have hchar : char? b t = (some (Char.ofNat b.toNat), 0) := if_pos hb
      rw [units, unitsLoop, hchar]
      exact congrArg (_ :: ·) (ih ht)

theorem ofLetters_ascii (h : IsAscii t) : ofLetters (asciiLetters t) = t := by
  rw [← units_ascii h, ofLetters_units]

theorem fitting_ascii (h : IsAscii t) (n : Nat) :
    fitting n (asciiLetters t) = (asciiLetters (t.take n), asciiLetters (t.drop n)) := by
  induction t generalizing n with
  | nil =>
      rw [List.take_nil, List.drop_nil]
      rfl
  | cons b t ih =>
      obtain ⟨hb, ht⟩ := List.forall_mem_cons.mp h
      have hsize : (ofLetter (.inl (Char.ofNat b.toNat))).length = 1 :=
        congrArg List.length (ofChar_of_low hb)
      rw [asciiLetters, List.map_cons, ← asciiLetters, fitting]
      dsimp only
      rw [hsize]
      cases n with
      | zero => rfl
      | succ n =>
          rw [if_pos (Nat.succ_le_succ (Nat.zero_le n)), Nat.add_sub_cancel, ih ht]
          rfl

/-- A round that puts small letters for a text of ASCII, as far as there is room. -/
def smallRound (room : Nat) (t : Text) : Round Unit :=
  ⟨(t.take room).map smallByte, asciiLetters (t.drop room), (),
    if room < t.length then .room else .window⟩

theorem lowerForm_ascii {b : UInt8} (h : b < 0x80) :
    lowerForm (Char.ofNat b.toNat) = [smallByte b] := by
  have hb : b.toNat < 128 := UInt8.lt_iff_toNat_lt.mp h
  have hval : (Char.ofNat b.toNat).toNat = b.toNat := toNat_ofNat (.inl (by omega))
  have hshift := shiftBy_ascii lowerShifts.tail (by decide +kernel) hb
  have hsmall : lowerChar (Char.ofNat b.toNat) = smallAscii (Char.ofNat b.toNat) := by
    rw [lowerChar, hval, smallAscii, hval]
    exact (congrArg Char.ofNat hshift).trans (apply_ite ..)
  rw [lowerForm, hval, if_neg (by omega), hsmall, ← (smallByte_low b h).2]
  exact ofChar_of_low (smallByte_low b h).1

theorem lowerRound_ascii (h : IsAscii t) {fuel : Nat} (hfuel : t.length ≤ fuel)
    (inWord : Bool) (room : Nat) (atEnd : Bool) :
    lowerRound fuel inWord room (asciiLetters t) atEnd = smallRound room t := by
  induction t generalizing fuel inWord room with
  | nil => cases fuel <;> simp [lowerRound, smallRound, asciiLetters]
  | cons b t ih =>
      obtain ⟨hb, ht⟩ := List.forall_mem_cons.mp h
      obtain ⟨fuel, rfl⟩ :=
        Nat.exists_eq_add_of_le' (Nat.lt_of_lt_of_le (Nat.succ_pos _) hfuel)
      have hsigma : (Char.ofNat b.toNat == sigma) = false := by
        have hlow : ∀ b : UInt8, b < 0x80 → (Char.ofNat b.toNat == sigma) = false :=
          forall_byte (by decide +kernel)
        exact hlow b hb
      have hplain : isCased (Char.ofNat b.toNat) = false →
          ofChar (Char.ofNat b.toNat) = [smallByte b] := by
        have hlow : ∀ b : UInt8, b < 0x80 → isCased (Char.ofNat b.toNat) = false →
            smallByte b = b :=
          forall_byte (by decide +kernel)
        intro hcase
        rw [ofChar_of_low hb, hlow b hb hcase]
      have hsettle (inWord : Bool) :
          (if [smallByte b].length > room then
            ⟨[], .inl (Char.ofNat b.toNat) :: asciiLetters t, (), .room⟩
            else (lowerRound fuel inWord (room - [smallByte b].length)
              (asciiLetters t) atEnd).before
              [smallByte b]) = smallRound room (b :: t) := by
        cases room with
        | zero => simp [smallRound, asciiLetters]
        | succ room =>
            rw [if_neg (by simp), ih ht (Nat.le_of_succ_le_succ hfuel)]
            simp [smallRound, Round.before]
      rw [asciiLetters, List.map_cons, ← asciiLetters, lowerRound]
      dsimp only
      rw [hsigma, Bool.and_false, if_neg Bool.false_ne_true]
      split
      · rw [lowerForm_ascii hb]
        exact hsettle true
      · next hcase =>
          rw [hplain (Bool.not_eq_true _ ▸ hcase)]
          exact hsettle _

/-- The rule of lower case. -/
abbrev lowerRule : RoundRule Unit :=
  fun _ room ls atEnd => lowerRound ls.length false room ls atEnd

theorem length_asciiLetters (t : Text) : (asciiLetters t).length = t.length :=
  List.length_map _

theorem lowerRule_ascii (h : IsAscii t) (room : Nat) (atEnd : Bool) :
    lowerRule () room (asciiLetters t) atEnd = smallRound room t :=
  lowerRound_ascii h (Nat.le_of_eq (length_asciiLetters t).symm) false room atEnd

/-- A round takes as many letters as there is room for and as its window holds. -/
theorem oneRound_ascii (h : IsAscii t) (room : Nat) :
    oneRound lowerRule () room (asciiLetters t) =
      ((t.take (min room windowSize)).map smallByte,
      asciiLetters (t.drop (min room windowSize)), (),
        if room < min windowSize t.length then .room else .window) := by
  have hleft : (t.take windowSize).drop room ++ t.drop windowSize =
      t.drop (min room windowSize) := by
    rcases Nat.le_total room windowSize with hle | hle
    · rw [Nat.min_eq_left hle, List.drop_take]
      nth_rewrite 2 [← Nat.add_sub_cancel' hle]
      rw [← List.drop_drop, List.take_append_drop]
    · rw [Nat.min_eq_right hle, List.drop_eq_nil_of_le, List.nil_append]
      exact Nat.le_trans (List.length_take_le _ _) hle
  rw [oneRound, fitting_ascii h]
  dsimp only
  rw [lowerRule_ascii (h.take _), smallRound, List.take_take,
    List.length_take, asciiLetters, asciiLetters, ← List.map_append, hleft, asciiLetters]

theorem lt_grown (n : Nat) : n < grown n := by
  unfold grown
  split_ifs <;> omega

/-- From the first change on the rounds put small letters for the rest. The space is never
smaller than what is written, so a round that finds no room for a letter is followed by
one that does. -/
theorem changedRounds_ascii (h : IsAscii t) {size fuel : Nat} {done : Text}
    (hsize : done.length ≤ size)
    (hfuel : 2 * t.length + (if size = done.length then 1 else 0) ≤ fuel) :
    changedRounds lowerRule fuel () size done (asciiLetters t) =
    done ++ t.map smallByte := by
  induction fuel generalizing t size done with
  | zero =>
      obtain rfl : t = [] := List.eq_nil_of_length_eq_zero (by omega)
      rw [changedRounds, List.map_nil, List.append_nil]
  | succ fuel ih =>
      cases t with
      | nil =>
          rw [changedRounds, List.map_nil, List.append_nil]
          rfl
      | cons b t =>
          have hmore : (asciiLetters (b :: t)).isEmpty = false := rfl
          rw [changedRounds, hmore, if_neg Bool.false_ne_true, oneRound_ascii h]
          dsimp only
          by_cases hfull : size = done.length
          · -- nothing is written, and the space grows
            have hroom : 0 < min windowSize (b :: t).length := by
              rw [List.length_cons, windowSize]
              omega
            have hgrown := lt_grown size
            have hgrows : (decide (RoundEnd.room = .room) && ([] : Text).isEmpty) =
                true := rfl
            rw [if_pos hfull] at hfuel
            rw [hfull, Nat.sub_self, Nat.zero_min, if_pos hroom, List.take_zero,
              List.drop_zero, List.map_nil, List.append_nil, ← hfull, if_pos hgrows]
            refine ih h (by omega) ?_
            rw [if_neg (by omega)]
            omega
          · obtain ⟨m, hm⟩ : ∃ m, min (size - done.length) windowSize = m + 1 :=
              ⟨min (size - done.length) windowSize - 1, by rw [windowSize]; omega⟩
            have hfits : m + 1 ≤ size - done.length := hm ▸ Nat.min_le_left _ _
            have hstays (ending : RoundEnd) :
                ¬(decide (ending = .room) &&
                  (((b :: t).take (m + 1)).map smallByte).isEmpty) = true := by
              rw [List.take_succ_cons, List.map_cons, List.isEmpty_cons, Bool.and_false]
              exact Bool.false_ne_true
            rw [hm, if_neg (hstays _), ih (h.drop _), List.append_assoc, ← List.map_append,
              List.take_append_drop]
            · rw [List.length_append, List.length_map, List.length_take]
              omega
            · rw [List.drop_succ_cons, List.length_drop]
              rw [List.length_cons] at hfuel
              split <;> omega

/-- The part of a text of ASCII that a round with a whole window has taken. -/
theorem taken_ascii (h : IsAscii t) (n : Nat) :
    ofLetters ((asciiLetters t).take
    ((asciiLetters t).length - (asciiLetters (t.drop n)).length)) = t.take n := by
  have hcount : t.take (t.length - (t.drop n).length) = t.take n := by
    rw [List.take_eq_take_iff, List.length_drop]
    omega
  rw [length_asciiLetters, length_asciiLetters, asciiLetters, ← List.map_take,
    ← asciiLetters, ofLetters_ascii (h.take _), hcount]

/-- The space that the rounds begin with at the first change has room for what is written:
it is as large as the text, or as a window if nothing is kept in front. -/
theorem length_le_space {total : Nat} {kept same written taken : Text}
    (hlength : written.length = taken.length) (htotal : same.length + taken.length ≤ total)
    (hkept : kept = [] → (same ++ written).length ≤ windowSize) :
    (same ++ written).length ≤
      if (!kept.isEmpty && decide ((same ++ written).length > windowSize)) = true
      then total + written.length - taken.length else windowSize := by
  split
  · rw [List.length_append]
    omega
  · next hsmall =>
      by_contra hlong
      refine hsmall ?_
      rw [Bool.and_eq_true, Bool.not_eq_true', List.isEmpty_eq_false_iff, decide_eq_true_eq]
      exact ⟨fun hnone => hlong (hkept hnone), Nat.not_le.mp hlong⟩

/-- Up to the first change the rounds put small letters for what already is small. -/
theorem unchangedRounds_ascii (h : IsAscii t) {total fuel : Nat} {same : Text}
    (htotal : total = same.length + t.length) (hfuel : t.length < fuel) :
    unchangedRounds lowerRule total fuel () same (asciiLetters t) =
    same ++ t.map smallByte := by
  induction fuel generalizing t same with
  | zero => exact absurd hfuel (Nat.not_lt_zero _)
  | succ fuel ih =>
      cases t with
      | nil =>
          rw [unchangedRounds, List.map_nil, List.append_nil]
          rfl
      | cons b t =>
          have hmore : (asciiLetters (b :: t)).isEmpty = false := rfl
          have hwindow : ¬windowSize < min windowSize (b :: t).length := by omega
          rw [unchangedRounds, hmore, if_neg Bool.false_ne_true,
            oneRound_ascii h, Nat.min_self, if_neg hwindow]
          dsimp only
          rw [taken_ascii h]
          split
          · rw [ih (h.drop _), List.append_assoc, ← List.map_append, List.take_append_drop]
            · rw [htotal, List.length_append, List.length_map, List.length_take,
                List.length_drop]
              omega
            · rw [List.length_drop, windowSize]
              rw [List.length_cons] at *
              omega
          · have hspace : ((b :: t).take windowSize).length ≤ windowSize :=
              List.length_take_le _ _
            rw [changedRounds_ascii (h.drop _), List.append_assoc, ← List.map_append,
              List.take_append_drop]
            · refine length_le_space (List.length_map _) ?_ fun hnone => ?_
              · rw [htotal]
                exact Nat.add_le_add_left (List.length_take_le' _ _) _
              · split at hnone
                · rw [hnone]
                  exact Nat.zero_le _
                · rwa [hnone, List.nil_append, List.length_map]
            · have hone (p : Prop) [Decidable p] : (if p then 1 else 0) ≤ 1 := by
                split <;> omega
              rw [length_asciiLetters]
              exact Nat.add_le_add_left (hone _) _

theorem lower_ascii (h : IsAscii t) : lower t = t.map smallByte := by
  have hrounds : unchangedRounds lowerRule t.length (t.length + 1) () [] (asciiLetters t) =
      [] ++ t.map smallByte :=
    unchangedRounds_ascii h (Nat.zero_add _).symm (Nat.lt_succ_self _)
  rw [lower, inRounds, units_ascii h]
  exact hrounds

/-! ## Characters of ASCII -/

theorem chars_ascii (h : IsAscii t) : t.chars = t.map fun b => Char.ofNat b.toNat := by
  rw [chars, units_ascii h, asciiLetters, List.map_map]
  rfl

theorem low_of_mem_chars (h : IsAscii t) : ∀ c ∈ t.chars, c.toNat < 0x80 := by
  intro c hc
  rw [chars_ascii h] at hc
  obtain ⟨b, hb, rfl⟩ := List.mem_map.mp hc
  have hlow : b.toNat < 128 := UInt8.lt_iff_toNat_lt.mp (h b hb)
  rwa [toNat_ofNat (.inl (by omega))]

variable {cs : List Char}

theorem ofChars_low (h : ∀ c ∈ cs, c.toNat < 0x80) :
    ofChars cs = cs.map fun c => UInt8.ofNat c.toNat := by
  induction cs with
  | nil => rfl
  | cons c cs ih =>
      obtain ⟨hc, hcs⟩ := List.forall_mem_cons.mp h
      rw [ofChars_cons, ofChar_low hc, ih hcs]
      rfl

theorem toNat_ofNat_low {c : Char} (h : c.toNat < 0x80) :
    (UInt8.ofNat c.toNat).toNat = c.toNat :=
  UInt8.toNat_ofNat_of_lt' (show c.toNat < 2 ^ 8 by omega)

theorem byte_inj {c d : Char} (hc : c.toNat < 0x80) (hd : d.toNat < 0x80)
    (h : UInt8.ofNat c.toNat = UInt8.ofNat d.toNat) : c = d := by
  have hnat := congrArg UInt8.toNat h
  rw [toNat_ofNat_low hc, toNat_ofNat_low hd] at hnat
  rw [← Char.ofNat_toNat c, hnat, Char.ofNat_toNat]

theorem byte_mem_of_mem_chars (h : IsAscii t) {c : Char} (hc : c ∈ t.chars) :
    UInt8.ofNat c.toNat ∈ t := by
  rw [chars_ascii h] at hc
  obtain ⟨b, hb, rfl⟩ := List.mem_map.mp hc
  have hlow : b.toNat < 128 := UInt8.lt_iff_toNat_lt.mp (h b hb)
  rwa [toNat_ofNat (.inl (by omega)), UInt8.ofNat_toNat]

theorem isAscii_ofChars (h : ∀ c ∈ cs, c.toNat < 0x80) : IsAscii (ofChars cs) := by
  intro b hb
  rw [ofChars_low h] at hb
  obtain ⟨c, hc, rfl⟩ := List.mem_map.mp hb
  rw [UInt8.lt_iff_toNat_lt, toNat_ofNat_low (h c hc)]
  exact h c hc

theorem chars_ofChars (h : ∀ c ∈ cs, c.toNat < 0x80) : (ofChars cs).chars = cs := by
  rw [chars_ascii (isAscii_ofChars h), ofChars_low h, List.map_map]
  refine (List.map_congr_left fun c hc => ?_).trans (List.map_id cs)
  rw [Function.comp_apply, toNat_ofNat_low (h c hc), Char.ofNat_toNat, id]

theorem lower_ofChars (h : ∀ c ∈ cs, c.toNat < 0x80) :
    lower (ofChars cs) = ofChars (cs.map smallAscii) := by
  have hlow : ∀ c ∈ cs.map smallAscii, c.toNat < 0x80 := by
    intro c hc
    obtain ⟨d, hd, rfl⟩ := List.mem_map.mp hc
    have := h d hd
    rw [toNat_smallAscii]
    split <;> omega
  rw [lower_ascii (isAscii_ofChars h), ofChars_low h, ofChars_low hlow,
    List.map_map, List.map_map]
  refine List.map_congr_left fun c hc => ?_
  have hbyte : ∀ n < 128, smallByte (UInt8.ofNat (Char.ofNat n).toNat) =
      UInt8.ofNat (smallAscii (Char.ofNat n)).toNat := by decide +kernel
  have hc := hbyte c.toNat (h c hc)
  rwa [Char.ofNat_toNat] at hc

/-! ## Numbers -/

theorem ofNat_eq_ofChars (n : Nat) : ofNat n = ofChars (Nat.toDigits 10 n) := by
  unfold ofNat ofString
  rw [Nat.toString_eq_ofList_toDigits, String.toByteArray_ofList]
  exact List.toList_data_toByteArray

theorem isDigit_of_mem_toDigits {n : Nat} {c : Char} (hc : c ∈ Nat.toDigits 10 n) :
    c.isDigit = true :=
  Nat.isDigit_of_mem_toDigits (by decide) (by decide) hc

theorem digit_of_mem_toDigits {n : Nat} {c : Char} (hc : c ∈ Nat.toDigits 10 n) :
    48 ≤ c.toNat ∧ c.toNat ≤ 57 := by
  have hdigit := isDigit_of_mem_toDigits hc
  rw [Char.isDigit, Bool.and_eq_true, decide_eq_true_eq, decide_eq_true_eq] at hdigit
  exact hdigit

theorem ofNat_eq_map (n : Nat) :
    ofNat n = (Nat.toDigits 10 n).map fun c => UInt8.ofNat c.toNat := by
  rw [ofNat_eq_ofChars]
  refine ofChars_low fun c hc => ?_
  have := digit_of_mem_toDigits hc
  omega

theorem length_ofNat_mono {m n : Nat} (h : m ≤ n) :
    (ofNat m).length ≤ (ofNat n).length := by
  rw [ofNat_eq_map, ofNat_eq_map, List.length_map, List.length_map]
  have hpos : 0 < (Nat.toDigits 10 n).length := Nat.length_toDigits_pos
  have hlt := (Nat.length_toDigits_le_iff (by decide) hpos).mp (Nat.le_refl _)
  exact (Nat.length_toDigits_le_iff (by decide) hpos).mpr (Nat.lt_of_le_of_lt h hlt)

theorem newline_notMem_ofNat (n : Nat) : 10 ∉ ofNat n := by
  intro h
  rw [ofNat_eq_map] at h
  obtain ⟨c, hc, hbyte⟩ := List.mem_map.mp h
  have hdigit := digit_of_mem_toDigits hc
  have hnat := congrArg UInt8.toNat hbyte
  rw [toNat_ofNat_low (by omega)] at hnat
  have : c.toNat = 10 := hnat
  omega

end Deriver.Text
