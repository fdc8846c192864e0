import Deriver.Casing
import Deriver.Proofs.Text.Utf8
import Deriver.Token.Scan
import Mathlib.Tactic.NthRewrite

/-!
# Casing keeps names

Main statement: `wordy_snakeCase`. The bytes of a name go into names only: what a rule
writes in its rounds is made of what it writes for single letters, and the small form of
a letter of a name is made of letters of names.
-/

namespace Deriver

namespace Text

open Scan (isAlphaNum)

/-- Whether every byte can continue a name. -/
def Wordy (t : Text) : Prop := ∀ b ∈ t, isAlphaNum b = true

variable {s t : Text}

theorem wordy_nil : Wordy [] := List.forall_mem_nil _

theorem wordy_append : Wordy (s ++ t) ↔ Wordy s ∧ Wordy t := List.forall_mem_append

theorem isAlphaNum_of_high {b : UInt8} (h : 0x80 ≤ b) : isAlphaNum b = true := by
  simp [isAlphaNum, Scan.isAlpha, h]

theorem wordy_ofChar_of_high {c : Char} (h : 0x80 ≤ c.toNat) : Wordy (ofChar c) :=
  fun _ hb => isAlphaNum_of_high (high_of_mem_ofChar h hb)

theorem wordy_ofLetters {ls : List Letter} :
    Wordy (ofLetters ls) ↔ ∀ l ∈ ls, Wordy (ofLetter l) :=
  ⟨fun h l hl _ hb => h _ (List.mem_flatMap.mpr ⟨l, hl, hb⟩), fun h b hb =>
    have ⟨l, hl, hb⟩ := List.mem_flatMap.mp hb
    h l hl b hb⟩

theorem wordy_ofLetters_append {ls ks : List Letter} :
    Wordy (ofLetters (ls ++ ks)) ↔ Wordy (ofLetters ls) ∧ Wordy (ofLetters ks) := by
  rw [ofLetters, List.flatMap_append, wordy_append]
  rfl

theorem wordy_ofLetters_cons {l : Letter} {ls : List Letter} :
    Wordy (ofLetters (l :: ls)) ↔ Wordy (ofLetter l) ∧ Wordy (ofLetters ls) := by
  rw [ofLetters, List.flatMap_cons, wordy_append]
  rfl

/-! ## Rounds -/

/-- Whether a round writes and leaves bytes of names only. -/
def Round.Wordy {σ : Type} (r : Round σ) : Prop :=
  Text.Wordy r.written ∧ Text.Wordy (ofLetters r.left)

/-- Whether the rounds of a rule are made of names where the letters are. -/
def KeepsWords {σ : Type} (rule : RoundRule σ) : Prop :=
  ∀ s room ls atEnd, Wordy (ofLetters ls) → (rule s room ls atEnd).Wordy

theorem fitting_append (n : Nat) (ls : List Letter) :
    (fitting n ls).1 ++ (fitting n ls).2 = ls := by
  induction ls generalizing n with
  | nil => rfl
  | cons l ls ih =>
      rw [fitting]
      dsimp only
      split
      · exact congrArg (l :: ·) (ih _)
      · rfl

section

variable {σ : Type} {rule : RoundRule σ} (h : KeepsWords rule)
include h

theorem KeepsWords.oneRound (st : σ) (room : Nat) {ls : List Letter}
    (hls : Wordy (ofLetters ls)) :
    Wordy (oneRound rule st room ls).1 ∧
    Wordy (ofLetters (oneRound rule st room ls).2.1) := by
  rw [← fitting_append windowSize ls, wordy_ofLetters_append] at hls
  have hround := h st room _ (fitting windowSize ls).2.isEmpty hls.1
  exact ⟨hround.1, wordy_ofLetters_append.mpr ⟨hround.2, hls.2⟩⟩

theorem KeepsWords.changedRounds (fuel : Nat) (st : σ) (size : Nat) {done : Text}
    {ls : List Letter} (hdone : Wordy done) (hls : Wordy (ofLetters ls)) :
    Wordy (changedRounds rule fuel st size done ls) := by
  induction fuel generalizing st size done ls with
  | zero => exact hdone
  | succ fuel ih =>
      rw [Text.changedRounds]
      split
      · exact hdone
      · have hround := h.oneRound st (size - done.length) hls
        exact ih _ _ (wordy_append.mpr ⟨hdone, hround.1⟩) hround.2

theorem KeepsWords.unchangedRounds (total fuel : Nat) (st : σ) {same : Text}
    {ls : List Letter} (hsame : Wordy same) (hls : Wordy (ofLetters ls)) :
    Wordy (unchangedRounds rule total fuel st same ls) := by
  induction fuel generalizing st same ls with
  | zero => exact hsame
  | succ fuel ih =>
      rw [Text.unchangedRounds]
      split
      · exact hsame
      · have hround := h.oneRound st windowSize hls
        have hdone := wordy_append.mpr ⟨hsame, hround.1⟩
        dsimp only
        split
        · exact ih _ hdone hround.2
        · exact h.changedRounds _ _ _ hdone hround.2

theorem KeepsWords.inRounds (st : σ) (ht : Wordy t) : Wordy (inRounds rule st t) :=
  h.unchangedRounds _ _ st wordy_nil (by rwa [ofLetters_units])

end

/-! ## Small letters -/

theorem shiftBy_cases (table : List Shift) (n : Nat) : shiftBy table n = n ∨
    ∃ first last step image, (first, last, step, image) ∈ table ∧ first ≤ n ∧ n ≤ last ∧
      shiftBy table n = image + (n - first) := by
  unfold shiftBy
  split
  · next first last step image hfind =>
      have hbounds := List.find?_some hfind
      simp only [Bool.and_eq_true, decide_eq_true_eq] at hbounds
      exact .inr ⟨first, last, step, image, List.mem_of_find?_eq_some hfind, hbounds.1.1,
        hbounds.1.2, rfl⟩
  · exact .inl rfl

/-- The shifts to small letters lead to scalar values, from beyond ASCII either beyond ASCII
again or to one letter. -/
theorem lowerShifts_images : ∀ e ∈ lowerShifts, 0x80 ≤ e.2.1 →
    (e.2.2.2 + (e.2.1 - e.1) < 0xD800 ∨ 0xDFFF < e.2.2.2 ∧
    e.2.2.2 + (e.2.1 - e.1) < 0x110000) ∧
      (0x80 ≤ e.2.2.2 ∨ e.1 = e.2.1 ∧
      (ofChar (Char.ofNat e.2.2.2)).all isAlphaNum = true) := by
  decide +kernel

theorem wordy_lowerChar_of_high {c : Char} (h : 0x80 ≤ c.toNat) :
    Wordy (ofChar (lowerChar c)) := by
  unfold lowerChar
  obtain heq | ⟨first, last, step, image, hmem, hle, hle', heq⟩ :=
    shiftBy_cases lowerShifts c.toNat
  · rw [heq, Char.ofNat_toNat]
    exact wordy_ofChar_of_high h
  · obtain ⟨hvalid, himage⟩ := lowerShifts_images _ hmem (Nat.le_trans h hle')
    dsimp only at hvalid himage
    have hscalar : (image + (c.toNat - first)).isValidChar := by
      simp only [Nat.isValidChar]
      omega
    rw [heq]
    rcases himage with himage | ⟨rfl, himage⟩
    · refine wordy_ofChar_of_high ?_
      rw [toNat_ofNat hscalar]
      omega
    · obtain rfl : first = c.toNat := Nat.le_antisymm hle hle'
      rw [Nat.sub_self, Nat.add_zero]
      exact List.all_eq_true.mp himage

theorem wordy_lowerForm_ascii : ∀ n < 128, isAlphaNum (UInt8.ofNat n) = true →
    (lowerForm (Char.ofNat n)).all isAlphaNum = true := by
  decide +kernel

theorem wordy_lowerForm {c : Char} (h : Wordy (ofChar c)) : Wordy (lowerForm c) := by
  by_cases hhigh : 0x80 ≤ c.toNat
  · unfold lowerForm
    split
    · exact List.all_eq_true.mp (by decide)
    · exact wordy_lowerChar_of_high hhigh
  · have hlow : c.toNat < 128 := Nat.lt_of_not_le hhigh
    rw [← Char.ofNat_toNat c] at h ⊢
    rw [ofChar_ofNat (n := c.toNat) c.valid, if_pos (by omega)] at h
    exact List.all_eq_true.mp
      (wordy_lowerForm_ascii _ hlow (h _ (List.mem_singleton_self _)))

/-! ## Whole texts -/

theorem passedOver_append (ls : List Letter) :
    (passedOver ls).1 ++ (passedOver ls).2 = ls := by
  have hprefix : (ls.take sigmaReach).takeWhile isPassed <+: ls :=
    (List.takeWhile_prefix _).trans (List.take_prefix _ _)
  unfold passedOver
  dsimp only
  nth_rewrite 1 [List.prefix_iff_eq_take.mp hprefix]
  exact List.take_append_drop _ _

theorem wordy_sigmaForm {room : Nat} {ls rest : List Letter} {atEnd : Bool} {form : Text}
    (hls : Wordy (ofLetters ls)) (h : sigmaForm room ls atEnd = .settled form rest) :
    Wordy form ∧ Wordy (ofLetters rest) := by
  rw [← passedOver_append ls, wordy_ofLetters_append] at hls
  have hform (n : Nat) (hn : 0x80 ≤ n ∧ n < 0x800) :
      Wordy (ofCodePoint n ++ ofLetters (passedOver ls).1) := by
    have hvalid : n.isValidChar := .inl (by omega)
    rw [ofCodePoint, if_pos hvalid, wordy_append]
    refine ⟨wordy_ofChar_of_high ?_, hls.1⟩
    rw [toNat_ofNat hvalid]
    exact hn.1
  unfold sigmaForm at h
  dsimp only at h
  split at h
  · cases h
  split at h
  · cases h
    exact ⟨hform _ (by decide), hls.2⟩
  split at h
  · split at h
    · cases h
      exact ⟨hform _ (by decide), wordy_nil⟩
    · cases h
  · cases h
    refine ⟨hform _ ?_, hls.2⟩
    split <;> decide

theorem Round.Wordy.before {σ : Type} {r : Round σ} (h : r.Wordy) (ht : Text.Wordy t) :
    (r.before t).Wordy :=
  ⟨wordy_append.mpr ⟨ht, h.1⟩, h.2⟩

theorem wordy_lowerRound (fuel : Nat) (inWord : Bool) (room : Nat) {ls : List Letter}
    (atEnd : Bool)
    (h : Wordy (ofLetters ls)) : (lowerRound fuel inWord room ls atEnd).Wordy := by
  induction fuel generalizing inWord room ls with
  | zero => exact ⟨wordy_nil, h⟩
  | succ fuel ih =>
      cases ls with
      | nil => exact ⟨wordy_nil, h⟩
      | cons l rest =>
          obtain ⟨hl, hrest⟩ := wordy_ofLetters_cons.mp h
          have hleft (ending : RoundEnd) {after : List Letter}
              (hafter : Wordy (ofLetters after)) :
              (Round.mk [] (l :: after) () ending).Wordy :=
            ⟨wordy_nil, wordy_ofLetters_cons.mpr ⟨hl, hafter⟩⟩
          have hsettle (inWord : Bool) {form : Text} {after : List Letter}
              (hform : Wordy form)
              (hafter : Wordy (ofLetters after)) :
              (if form.length > room then Round.mk [] (l :: after) () .room
                else (lowerRound fuel inWord (room - form.length) after atEnd).before
                  form).Wordy := by
            split
            · exact hleft _ hafter
            · exact (ih _ _ hafter).before hform
          unfold lowerRound
          dsimp only
          split
          · exact hsettle _ hl hrest
          · split
            · split
              · next hsigma =>
                  obtain ⟨hform, hafter⟩ := wordy_sigmaForm hrest hsigma
                  exact hsettle _ hform hafter
              · exact hleft _ hrest
              · exact hleft _ hrest
            · split
              · exact hsettle _ (wordy_lowerForm hl) hrest
              · exact hsettle _ hl hrest

theorem wordy_lower (h : Wordy t) : Wordy (lower t) :=
  KeepsWords.inRounds (fun _ room _ atEnd hls =>
    wordy_lowerRound _ false room atEnd hls) () h

/-! ## Words -/

theorem wordy_of_mem_chars {c : Char} (ht : Wordy t) (hc : c ∈ t.chars) :
    Wordy (ofChar c) := by
  rw [← ofLetters_units t, wordy_ofLetters] at ht
  obtain ⟨l, hl, rfl⟩ := List.mem_map.mp hc
  cases l with
  | inl c => exact ht _ hl
  | inr b => exact wordy_ofChar_of_high (c := replacement) (by decide)

theorem wordy_ofChars {cs : List Char} : Wordy (ofChars cs) ↔ ∀ c ∈ cs, Wordy (ofChar c) :=
  ⟨fun h c hc _ hb => h _ (List.mem_flatMap.mpr ⟨c, hc, hb⟩), fun h b hb =>
    have ⟨c, hc, hb⟩ := List.mem_flatMap.mp hb
    h c hc b hb⟩

theorem wordy_join {sep : Text} (hsep : Wordy sep) {ts : List Text}
    (h : ∀ t ∈ ts, Wordy t) : Wordy (join sep ts) := by
  induction ts using join.induct with
  | case1 => exact wordy_nil
  | case2 t => exact h t (List.mem_singleton_self t)
  | case3 t next rest ih =>
      obtain ⟨ht, hrest⟩ := List.forall_mem_cons.mp h
      rw [join, wordy_append, wordy_append]
      exact ⟨⟨ht, hsep⟩, ih hrest⟩

end Text

namespace Casing

open Text

theorem mem_of_wordLoop {word cs w : List Char} {c : Char} (hw : w ∈ wordLoop word cs)
    (hc : c ∈ w) : c ∈ word ∨ c ∈ cs := by
  induction word, cs using wordLoop.induct with
  | case1 => cases hw
  | case2 word hne =>
      rw [wordLoop.eq_2 word hne, List.mem_singleton] at hw
      exact .inl (List.mem_reverse.mp (hw ▸ hc))
  | case3 d rest hsep ih =>
      rw [wordLoop, if_pos hsep] at hw
      exact (ih hw).imp_right (List.mem_cons_of_mem d)
  | case4 d rest hsep head tail ih =>
      rw [wordLoop, if_pos hsep] at hw
      rcases List.mem_cons.mp hw with rfl | hw
      · exact .inl (List.mem_reverse.mp hc)
      · exact .inr (List.mem_cons_of_mem d ((ih hw).resolve_left List.not_mem_nil))
  | case5 d rest hsep ih =>
      rw [wordLoop, if_neg hsep] at hw
      exact .inr (List.mem_cons.mpr ((ih hw).imp_left List.mem_singleton.mp))
  | case6 d rest hsep head tail hupper ih =>
      rw [wordLoop, if_neg hsep, if_pos hupper] at hw
      rcases List.mem_cons.mp hw with rfl | hw
      · exact .inl (List.mem_reverse.mp hc)
      · exact .inr (List.mem_cons.mpr ((ih hw).imp_left List.mem_singleton.mp))
  | case7 d rest hsep head tail hlower ih =>
      rw [wordLoop, if_neg hsep, if_neg hlower] at hw
      rcases ih hw with hmem | hmem
      · rcases List.mem_cons.mp hmem with rfl | hmem
        · exact .inr (List.mem_cons_self ..)
        · exact .inl hmem
      · exact .inr (List.mem_cons_of_mem d hmem)

theorem wordy_snakeCase {ident : Text} (h : Wordy (ident.dropStart "r#")) :
    Wordy (snakeCase ident) := by
  have hsep : Wordy "_" := List.all_eq_true.mp rfl
  refine wordy_lower (wordy_join hsep fun w hw => ?_)
  obtain ⟨cs, hcs, rfl⟩ := List.mem_map.mp hw
  refine wordy_ofChars.mpr fun c hc => wordy_of_mem_chars h ?_
  exact (mem_of_wordLoop hcs hc).resolve_left List.not_mem_nil

end Casing

end Deriver
