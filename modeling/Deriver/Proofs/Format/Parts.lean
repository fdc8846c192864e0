import Deriver.Proofs.Format.Grammar
import Mathlib.Data.List.Forall2

/-!
# Format strings as they are scanned

Main statement: `placeholders_grammar`. A text is scanned without a fault if and only if
it is a sequence of parts: bytes that are no brace, doubled braces, and placeholders, whose
inner text goes up to the first closing brace and does not begin with an opening one. There
is then one such sequence, and what is found are its placeholders.

That the scan never misses a sequence rests on one fact: the first byte of a text, and the
one behind it, say which part comes first, and a placeholder ends with the first brace that
closes it. The same fact makes the sequence unique.
-/

namespace Deriver.Format

open Placeholder

/-- A part of a format string. -/
inductive Part where
  | byte (b : UInt8) (plain : b ≠ 123 ∧ b ≠ 125)
  /-- An opening brace, doubled. -/
  | opening
  /-- A closing brace, doubled. -/
  | closing
  /-- A placeholder, by what stands between its braces. -/
  | placeholder (inner : Text) (closed : 125 ∉ inner) (single : inner.head? ≠ some 123)

namespace Part

/-- The spelling of a part. -/
def text : Part → Text
  | .byte b _ => [b]
  | .opening => [123, 123]
  | .closing => [125, 125]
  | .placeholder inner _ _ => 123 :: (inner ++ [125])

/-- What stands between the braces of a placeholder. -/
def inner? : Part → Option Text
  | .placeholder inner _ _ => some inner
  | _ => none

end Part

/-- The spelling of a sequence of parts. -/
def spell (parts : List Part) : Text := parts.flatMap Part.text

/-- The inner texts of the placeholders, in order. -/
def inners (parts : List Part) : List Text := parts.filterMap Part.inner?

/-- The trait that a value is formatted through, by the last character of the
specification. -/
def traitOf : Option Char → Text
  | some '?' => "Debug"
  | some 'x' => "LowerHex"
  | some 'X' => "UpperHex"
  | some 'o' => "Octal"
  | some 'b' => "Binary"
  | some 'e' => "LowerExp"
  | some 'E' => "UpperExp"
  | some 'p' => "Pointer"
  | _ => "Display"

/-- What a placeholder says by its inner text: the argument stands before the first colon,
and all behind that is the specification. -/
structure Says (inner : Text) (p : Placeholder) : Prop where
  arg : p.arg = Text.trim (inner.takeWhile (· ≠ 58))
  spec : p.spec = (inner.dropWhile (· ≠ 58)).tail
  trait : p.trait = traitOf p.spec.chars.getLast?

variable {s t : Text} {offset : Nat}

/-! ## What is found -/

theorem spell_cons (p : Part) (parts : List Part) :
    spell (p :: parts) = p.text ++ spell parts :=
  List.flatMap_cons

theorem allLoop_spell (parts : List Part) (offset : Nat) :
    allLoop 0 offset (spell parts) = .ok ((inners parts).map ofInner) := by
  induction parts generalizing offset with
  | nil => rfl
  | cons p parts ih =>
      rw [spell_cons]
      cases p with
      | byte b plain =>
          rw [Part.text, allLoop_unbraced (List.forall_mem_singleton.mpr plain), ih]
          rfl
      | opening => exact ih _
      | closing => exact ih _
      | placeholder inner closed single =>
          rw [Part.text, List.cons_append, List.append_assoc, List.singleton_append,
            allLoop_braced single closed, ih]
          rfl

theorem exists_parts {found : List Placeholder} (h : allLoop 0 offset s = .ok found) :
    ∃ parts, spell parts = s := by
  induction hn : s.length using Nat.strong_induction_on generalizing s offset found with
  | _ n ih =>
    subst hn
    -- what stands behind the first part is scanned without a fault too
    have hpart (p : Part) {rest : Text} (hs : s = p.text ++ rest) {offset : Nat}
        {found : List Placeholder} (hrest : allLoop 0 offset rest = .ok found) :
        ∃ parts, spell parts = s := by
      have hlt : rest.length < s.length := by
        rw [hs, List.length_append]
        cases p <;> simp [Part.text]
      obtain ⟨parts, hparts⟩ := ih _ hlt hrest rfl
      exact ⟨p :: parts, by rw [spell_cons, hparts, hs]⟩
    cases s with
    | nil => exact ⟨[], rfl⟩
    | cons b rest =>
        by_cases hopen : b = 123
        · subst hopen
          by_cases htwice : rest.head? = some 123
          · obtain ⟨rest, rfl⟩ := List.head?_eq_some_iff.mp htwice
            exact hpart .opening rfl h
          · by_cases hclosed : 125 ∈ rest
            · obtain ⟨inner, rest, rfl, hinner⟩ := List.eq_append_cons_of_mem hclosed
              have hsingle : inner.head? ≠ some 123 := by
                cases inner with
                | nil => exact nofun
                | cons b inner => exact htwice
              rw [allLoop_braced hsingle hinner] at h
              cases hrest : allLoop 0 (offset + (inner.length + 2)) rest with
              | error e => rw [hrest] at h; cases h
              | ok _ =>
                  exact hpart (.placeholder inner hinner hsingle)
                    (by simp [Part.text]) hrest
            · rw [allLoop, if_pos rfl, if_neg htwice,
                if_neg fun hmem => hclosed (List.contains_iff_mem.mp hmem)] at h
              cases h
        · by_cases hclose : b = 125
          · subst hclose
            by_cases htwice : rest.head? = some 125
            · obtain ⟨rest, rfl⟩ := List.head?_eq_some_iff.mp htwice
              exact hpart .closing rfl h
            · rw [allLoop, if_neg hopen, if_pos rfl, if_neg htwice] at h
              cases h
          · rw [allLoop, if_neg hopen, if_neg hclose] at h
            exact hpart (.byte b ⟨hopen, hclose⟩) rfl h

/-! ## One sequence -/

theorem takeWhile_cut {b : UInt8} (hs : b ∉ s) : (s ++ b :: t).takeWhile (· ≠ b) = s := by
  rw [List.takeWhile_append_of_pos fun _ hx => decide_eq_true (ne_of_mem_of_not_mem hx hs),
    List.takeWhile_cons_of_neg (by simp), List.append_nil]

/-- The first byte of a kind, and what stands behind it. -/
theorem dropWhile_cut {b : UInt8} (hs : b ∉ s) :
    (s ++ b :: t).dropWhile (· ≠ b) = b :: t := by
  rw [List.dropWhile_append_of_pos fun _ hx => decide_eq_true (ne_of_mem_of_not_mem hx hs),
    List.dropWhile_cons_of_neg (by simp)]

theorem inner_ne_doubled {inner : Text} (single : inner.head? ≠ some 123) :
    inner ++ [125] ++ s ≠ 123 :: t := by
  intro h
  cases inner with
  | nil => cases (List.cons.inj h).1
  | cons b inner => exact single (congrArg some (List.cons.inj h).1)

theorem inner_append_inj {inner inner' : Text} (closed : 125 ∉ inner)
    (closed' : 125 ∉ inner')
    (h : inner ++ [125] ++ s = inner' ++ [125] ++ t) : inner = inner' ∧ s = t := by
  simp only [List.append_assoc, List.singleton_append] at h
  have hinner := congrArg (List.takeWhile (· ≠ 125)) h
  rw [takeWhile_cut closed, takeWhile_cut closed'] at hinner
  subst hinner
  exact ⟨rfl, (List.cons.inj (List.append_cancel_left h)).2⟩

theorem text_append_inj {p q : Part} (h : p.text ++ s = q.text ++ t) : p = q ∧ s = t := by
  cases p with
  | byte b plain =>
      cases q with
      | byte c _ =>
          obtain ⟨rfl, rfl⟩ := List.cons.inj h
          exact ⟨rfl, rfl⟩
      | opening | placeholder => exact absurd (List.cons.inj h).1 plain.1
      | closing => exact absurd (List.cons.inj h).1 plain.2
  | opening =>
      cases q with
      | byte c plain => exact absurd (List.cons.inj h).1.symm plain.1
      | opening => exact ⟨rfl, (List.cons.inj (List.cons.inj h).2).2⟩
      | closing => cases (List.cons.inj h).1
      | placeholder inner _ single =>
          exact absurd (List.cons.inj h).2.symm (inner_ne_doubled single)
  | closing =>
      cases q with
      | byte c plain => exact absurd (List.cons.inj h).1.symm plain.2
      | closing => exact ⟨rfl, (List.cons.inj (List.cons.inj h).2).2⟩
      | opening | placeholder => cases (List.cons.inj h).1
  | placeholder inner closed single =>
      cases q with
      | byte c plain => exact absurd (List.cons.inj h).1.symm plain.1
      | closing => cases (List.cons.inj h).1
      | opening => exact absurd (List.cons.inj h).2 (inner_ne_doubled single)
      | placeholder inner' closed' _ =>
          obtain ⟨rfl, rfl⟩ := inner_append_inj closed closed' (List.cons.inj h).2
          exact ⟨rfl, rfl⟩

theorem spell_injective : Function.Injective spell := by
  intro parts
  induction parts with
  | nil =>
      intro parts' h
      cases parts' with
      | nil => rfl
      | cons q parts' => cases q <;> cases h
  | cons p parts ih =>
      intro parts' h
      cases parts' with
      | nil => cases p <;> cases h
      | cons q parts' =>
          rw [spell_cons, spell_cons] at h
          obtain ⟨rfl, hrest⟩ := text_append_inj h
          rw [ih hrest]

/-! ## What a placeholder says -/

theorem traitOf_high {c : Char} (h : 0x80 ≤ c.toNat) : traitOf (some c) = "Display" := by
  unfold traitOf
  split <;> first | rfl | next heq => cases heq; exact absurd h (by decide)

/-- The trait of a placeholder, which goes by the last byte, goes by the last character. -/
theorem trait_eq (p : Placeholder) : p.trait = traitOf p.spec.chars.getLast? := by
  have hlow : ∀ n < 128, (traits.lookup (UInt8.ofNat n)).getD "Display" =
      traitOf (some (Char.ofNat n)) := by
    decide +kernel
  have hhigh : ∀ n < 256, 0x80 ≤ n → traits.lookup (UInt8.ofNat n) = none := by
    decide +kernel
  cases hlast : p.spec.getLast? with
  | none =>
      rw [Placeholder.trait, hlast, List.getLast?_eq_none_iff.mp hlast]
      rfl
  | some b =>
      obtain ⟨c, hc, hb⟩ := Text.getLast?_chars hlast
      rw [Placeholder.trait, hlast, hc]
      dsimp only
      split at hb
      · next hb' =>
          rw [hb, ← hlow b.toNat (UInt8.lt_iff_toNat_lt.mp hb'), UInt8.ofNat_toNat]
      · next hb' =>
          have hnone :=
            hhigh b.toNat b.toNat_lt (UInt8.le_iff_toNat_le.mp (UInt8.not_lt.mp hb'))
          rw [UInt8.ofNat_toNat] at hnone
          rw [hnone, traitOf_high hb]
          rfl

theorem ofInner_says (inner : Text) : Says inner (ofInner inner) := by
  by_cases hcolon : 58 ∈ inner
  · obtain ⟨arg, spec, rfl, harg⟩ := List.eq_append_cons_of_mem hcolon
    have hof := ofInner_colon (t := spec) harg
    refine ⟨?_, ?_, trait_eq _⟩
    · rw [hof, takeWhile_cut harg]
    · rw [hof, dropWhile_cut harg]
      rfl
  · have hne : ∀ b ∈ inner, decide (b ≠ 58) = true := fun b hb =>
      decide_eq_true (ne_of_mem_of_not_mem hb hcolon)
    have hof := ofInner_plain hcolon
    refine ⟨?_, ?_, trait_eq _⟩
    · rw [hof, List.takeWhile_eq_self_iff.mpr hne]
    · rw [hof, List.dropWhile_eq_nil_iff.mpr hne]
      rfl

/-- A text is scanned without a fault if and only if it is a sequence of parts. There is
then one such sequence, and its placeholders are found, in order. -/
theorem placeholders_grammar (s : Text) :
    ((∃ found, Placeholder.all s = .ok found) ↔ ∃ parts, spell parts = s) ∧
    (∀ parts parts', spell parts = s → spell parts' = s → parts = parts') ∧
    ∀ parts, spell parts = s → ∃ found, Placeholder.all s = .ok found ∧
      List.Forall₂ Says (inners parts) found := by
  refine ⟨⟨fun ⟨_, h⟩ => exists_parts h, ?_⟩, ?_, ?_⟩
  · rintro ⟨parts, rfl⟩
    exact ⟨_, allLoop_spell parts 0⟩
  · intro parts parts' h h'
    exact spell_injective (h.trans h'.symm)
  · rintro parts rfl
    refine ⟨_, allLoop_spell parts 0, ?_⟩
    exact List.forall₂_map_right_iff.mpr
      (List.forall₂_same.mpr fun inner _ => ofInner_says inner)

/-- A placeholder between doubled braces, in the text `{{{a :x}}}`. -/
def tripled : List Part :=
  [.opening, .placeholder "a :x" (by decide) (by decide), .closing]

/-- Of three braces in a row, the first two are one part, and so are the last two. -/
theorem placeholders_grammar_tripled :
    spell tripled = "\x7b\x7b\x7ba :x\x7d\x7d\x7d" ∧
    (∀ parts, spell parts = spell tripled → parts = tripled) ∧
    ∃ p, Placeholder.all (spell tripled) = .ok [p] ∧ Says "a :x" p ∧ p = ⟨"a", "x"⟩ ∧
      p.trait = "LowerHex" := by
  obtain ⟨-, hunique, hfound⟩ := placeholders_grammar (spell tripled)
  obtain ⟨found, hall, hsays⟩ := hfound tripled rfl
  obtain ⟨p, rest, hp, hrest, rfl⟩ := List.forall₂_cons_left_iff.mp hsays
  obtain rfl := List.forall₂_nil_left_iff.mp hrest
  refine ⟨by decide +kernel, fun parts h => hunique parts tripled h rfl, p, hall, hp, ?_⟩
  have heq : [p] = [⟨"a", "x"⟩] := Except.ok.inj (hall.symm.trans (by decide +kernel))
  rw [(List.cons.inj heq).1]
  exact ⟨rfl, by decide +kernel⟩

end Deriver.Format
