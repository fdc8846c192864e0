import Deriver.Proofs.Text.Utf8
import Deriver.Text.Quoted

/-!
# What is quoted can be told apart

Main statement: `Text.quoted_injective`. Between quotes a letter is written as it is or as
an escape. An escape says by its second byte how many digits follow, and what is written
as it is does not begin with a backslash, so the letters can be read off one by one.
-/

namespace Deriver.Text

/-! ## Hexadecimal digits -/

theorem hexByte_inj : ∀ m < 16, ∀ n < 16, hexByte m = hexByte n → m = n := by decide

@[simp] theorem length_hex (width n : Nat) : (hex width n).length = width := by
  induction width generalizing n with
  | zero => rfl
  | succ width ih => rw [hex, List.length_append, ih, List.length_singleton]

theorem hex_inj {width m n : Nat} (hm : m < Nat.pow 16 width) (hn : n < Nat.pow 16 width)
    (h : hex width m = hex width n) : m = n := by
  induction width generalizing m n with
  | zero => rw [Nat.lt_one_iff.mp hm, Nat.lt_one_iff.mp hn]
  | succ width ih =>
      obtain ⟨hfront, hlast⟩ := List.append_inj' h rfl
      change m < Nat.pow 16 width * 16 at hm
      change n < Nat.pow 16 width * 16 at hn
      rw [Nat.mul_comm] at hm hn
      have hdiv := ih (Nat.div_lt_of_lt_mul hm) (Nat.div_lt_of_lt_mul hn) hfront
      have hmod := hexByte_inj _ (Nat.mod_lt m (by decide)) _ (Nat.mod_lt n (by decide))
        (List.cons.inj hlast).1
      rw [← Nat.div_add_mod m 16, ← Nat.div_add_mod n 16, hdiv, hmod]

/-! ## Escapes -/

/-- An escape: the byte behind the backslash, and the number it stands for. -/
structure Escape where
  kind : UInt8
  number : Nat

namespace Escape

/-- How many digits stand behind the byte of a kind. -/
def digits (kind : UInt8) : Nat :=
  if kind = 120 then 2 else if kind = 117 then 4 else if kind = 85 then 8 else 0

/-- The number that a kind without digits stands for. -/
def named (kind : UInt8) : Nat :=
  match kind with
  | 97 => 7
  | 98 => 8
  | 116 => 9
  | 110 => 10
  | 118 => 11
  | 102 => 12
  | 114 => 13
  | k => k.toNat

/-- The spelling of an escape. -/
def text (e : Escape) : Text := 92 :: e.kind :: hex (digits e.kind) e.number

/-- Whether the number of an escape can be read off. -/
def Legible (e : Escape) : Prop :=
  if digits e.kind = 0 then e.number =
    named e.kind else e.number < Nat.pow 16 (digits e.kind)

instance (e : Escape) : Decidable e.Legible := inferInstanceAs (Decidable (ite _ _ _))

/-- What an escape stands for. -/
def letter (e : Escape) : Letter :=
  if e.kind = 120 ∧ 0x80 ≤ e.number then .inr (UInt8.ofNat e.number)
  else .inl (Char.ofNat e.number)

theorem eq_of_append {e f : Escape} (he : e.Legible) (hf : f.Legible) {t u : Text}
    (h : e.text ++ t = f.text ++ u) : e = f := by
  obtain ⟨k, m⟩ := e
  obtain ⟨k', n⟩ := f
  obtain ⟨rfl, h⟩ := List.cons.inj (List.cons.inj h).2
  have hhex := (List.append_inj h (by simp)).1
  unfold Legible at he hf
  dsimp only at he hf hhex
  congr 1
  split at he
  · next hnone =>
      rw [if_pos hnone] at hf
      exact he.trans hf.symm
  · next hsome =>
      rw [if_neg hsome] at hf
      exact hex_inj he hf hhex

end Escape

/-- What is written between quotes for a letter. -/
def quotedLetter : Letter → Text
  | .inl c => quotedChar c
  | .inr b => "\\x" ++ hex 2 b.toNat

theorem quoted_eq (t : Text) : quoted t = [34] ++ t.units.flatMap quotedLetter ++ [34] :=
  rfl

/-- A letter is written as it is, and is no backslash, or it is written as an escape. -/
theorem quotedLetter_cases {l : Letter} (hstray : ∀ b, l = .inr b → 0x80 ≤ b) :
    (∃ c, l = .inl c ∧ c ≠ '\\' ∧ quotedLetter l = ofChar c) ∨
    ∃ e : Escape, e.Legible ∧ e.letter = l ∧ quotedLetter l = e.text := by
  cases l with
  | inr b =>
      refine .inr ⟨⟨120, b.toNat⟩, b.toNat_lt, ?_, rfl⟩
      have hhigh : 0x80 ≤ b.toNat := hstray b rfl
      rw [Escape.letter, if_pos ⟨rfl, hhigh⟩, UInt8.ofNat_toNat]
  | inl c =>
      have hc {n : Nat} (h : c.toNat = n) : Char.ofNat n = c := h ▸ Char.ofNat_toNat c
      rw [quotedLetter]
      unfold quotedChar
      split
      · exact .inr ⟨⟨34, 34⟩, by decide, rfl, rfl⟩
      · exact .inr ⟨⟨92, 92⟩, by decide, rfl, rfl⟩
      · exact .inr ⟨⟨110, 10⟩, by decide, rfl, rfl⟩
      · exact .inr ⟨⟨114, 13⟩, by decide, rfl, rfl⟩
      · exact .inr ⟨⟨116, 9⟩, by decide, rfl, rfl⟩
      · next hslash _ _ _ =>
          dsimp only
          split_ifs with hgraphic h7 h8 h11 h12 hlow hshort
          · exact .inl ⟨c, rfl, hslash, rfl⟩
          · exact .inr ⟨⟨97, 7⟩, by decide, congrArg _ (hc h7), rfl⟩
          · exact .inr ⟨⟨98, 8⟩, by decide, congrArg _ (hc h8), rfl⟩
          · exact .inr ⟨⟨118, 11⟩, by decide, congrArg _ (hc h11), rfl⟩
          · exact .inr ⟨⟨102, 12⟩, by decide, congrArg _ (hc h12), rfl⟩
          · rw [Bool.or_eq_true, decide_eq_true_eq, decide_eq_true_eq] at hlow
            refine .inr ⟨⟨120, c.toNat⟩, (by omega : c.toNat < 256), ?_, rfl⟩
            have hascii : ¬ 0x80 ≤ c.toNat := by omega
            rw [Escape.letter, if_neg (hascii ·.2), hc rfl]
          · exact .inr ⟨⟨117, c.toNat⟩, hshort, congrArg _ (hc rfl), rfl⟩
          · have hscalar : c.toNat < Nat.pow 16 8 := c.val.toNat_lt
            exact .inr ⟨⟨85, c.toNat⟩, hscalar, congrArg _ (hc rfl), rfl⟩

/-- The first letter is read off a text that is written letter by letter. -/
theorem eq_of_quotedLetter_append {l k : Letter} (hl : ∀ b, l = .inr b → 0x80 ≤ b)
    (hk : ∀ b, k = .inr b → 0x80 ≤ b) {t u : Text}
    (h : quotedLetter l ++ t = quotedLetter k ++ u) : l = k := by
  have hplain {c : Char} {e : Escape} {t u : Text} (hc : c ≠ '\\') :
      ofChar c ++ t ≠ e.text ++ u := by
    intro heq
    have hmark : '\\' = c := eq_of_prefix ⟨_, heq.symm⟩
    exact hc hmark.symm
  rcases quotedLetter_cases hl with ⟨c, rfl, hc, htext⟩ | ⟨e, he, rfl, htext⟩ <;>
  rcases quotedLetter_cases hk with ⟨d, rfl, hd, htext'⟩ | ⟨f, hf, rfl, htext'⟩ <;>
  rw [htext, htext'] at h
  · have hsame := eq_of_prefix ⟨t, h⟩
    rw [hsame]
  · exact absurd h (hplain hc)
  · exact absurd h.symm (hplain hd)
  · rw [Escape.eq_of_append he hf h]

theorem quotedLetter_ne_nil {l : Letter} (hl : ∀ b, l = .inr b → 0x80 ≤ b) :
    quotedLetter l ≠ [] := by
  rcases quotedLetter_cases hl with ⟨c, -, -, htext⟩ | ⟨e, -, -, htext⟩
  · rw [htext]
    exact ofChar_ne_nil c
  · rw [htext]
    exact List.cons_ne_nil _ _

theorem flatMap_quotedLetter_inj {ls ks : List Letter} (hls : ∀ b, .inr b ∈ ls → 0x80 ≤ b)
    (hks : ∀ b, .inr b ∈ ks → 0x80 ≤ b)
    (h : ls.flatMap quotedLetter = ks.flatMap quotedLetter) : ls = ks := by
  induction ls generalizing ks with
  | nil =>
      cases ks with
      | nil => rfl
      | cons k ks =>
          rw [List.flatMap_cons] at h
          have hk : ∀ b, k = .inr b → 0x80 ≤ b :=
            fun b hb => hks b (hb ▸ List.mem_cons_self)
          exact absurd (List.append_eq_nil_iff.mp h.symm).1 (quotedLetter_ne_nil hk)
  | cons l ls ih =>
      have hl : ∀ b, l = .inr b → 0x80 ≤ b := fun b hb => hls b (hb ▸ List.mem_cons_self)
      cases ks with
      | nil =>
          rw [List.flatMap_cons] at h
          exact absurd (List.append_eq_nil_iff.mp h).1 (quotedLetter_ne_nil hl)
      | cons k ks =>
          rw [List.flatMap_cons, List.flatMap_cons] at h
          obtain rfl := eq_of_quotedLetter_append hl
            (fun b hb => hks b (hb ▸ List.mem_cons_self)) h
          rw [ih (fun b hb => hls b (List.mem_cons_of_mem _ hb))
            (fun b hb => hks b (List.mem_cons_of_mem _ hb)) (List.append_cancel_left h)]

theorem quoted_injective : Function.Injective quoted := by
  intro s t h
  rw [quoted_eq, quoted_eq] at h
  have hunits := flatMap_quotedLetter_inj (fun _ => high_of_stray) (fun _ => high_of_stray)
    (List.append_cancel_left (List.append_cancel_right h))
  exact (ofLetters_units s).symm.trans
    ((congrArg ofLetters hunits).trans (ofLetters_units t))

end Deriver.Text
