import Deriver.Format.Use
import Deriver.Proofs.Text.Basic
import Deriver.Proofs.Text.Casing

/-!
# The grammar of format strings

Main statement: `placeholders_of_all`. A format string is made of pieces: text, doubled
braces, and holes, which say what is written there and how. Where the placeholders of a
format string are found at all, they are its holes, one for one; what is found in the
specification of a hole is its kind, unless white space stands behind it.
-/

namespace Deriver.Format

/-! ## What stands in a hole -/

/-- Whether a character can stand in a name. Beyond ASCII that is more than names are
made of. -/
def isNameChar (c : Char) : Bool :=
  if c.toNat < 0x80 then c.isAlphanum || c == '_' else !Text.isBlank c

/-- A number in decimal. -/
structure Digits where
  chars : List Char
  ne_nil : chars ≠ []
  digits : ∀ c ∈ chars, c.isDigit = true

/-- The number that the digits denote. -/
def Digits.value (n : Digits) : Nat := n.chars.foldl (fun m c => m * 10 + (c.toNat - 48)) 0

/-- A name. -/
structure Name where
  first : Char
  rest : List Char
  begins : isNameChar first = true ∧ first.isDigit = false
  continues : ∀ c ∈ rest, isNameChar c = true

/-- An argument, by its place or by its name. -/
inductive Argument where
  | index (n : Digits)
  | name (n : Name)

namespace Argument

def chars : Argument → List Char
  | .index n => n.chars
  | .name n => n.first :: n.rest

/-- The spelling of an argument. -/
def text (a : Argument) : Text := Text.ofChars a.chars

end Argument

/-- A width or a precision. -/
inductive Count where
  | literal (n : Digits)
  /-- `argument$` -/
  | parameter (a : Argument)

/-- The spelling of a count. -/
def Count.text : Count → Text
  | .literal n => Text.ofChars n.chars
  | .parameter a => a.text ++ [36]

/-- What stands behind the point. -/
inductive Precision where
  | count (c : Count)
  /-- `*`, for the next argument in order -/
  | star

/-- The spelling of a precision. -/
def Precision.text : Precision → Text
  | .count c => 46 :: c.text
  | .star => [46, 42]

/-- The side on which a value stands in its width. -/
inductive Side where
  | left
  | center
  | right
  deriving DecidableEq, Repr

/-- The mark of a side. -/
def Side.byte : Side → UInt8
  | .left => 60
  | .center => 94
  | .right => 62

/-- What a value is written as. -/
inductive Kind where
  | display
  | debug
  | debugLowerHex
  | debugUpperHex
  | lowerHex
  | upperHex
  | octal
  | binary
  | lowerExp
  | upperExp
  | pointer
  deriving DecidableEq, Repr

namespace Kind

/-- The spelling of a kind. -/
def text : Kind → Text
  | .display => ""
  | .debug => "?"
  | .debugLowerHex => "x?"
  | .debugUpperHex => "X?"
  | .lowerHex => "x"
  | .upperHex => "X"
  | .octal => "o"
  | .binary => "b"
  | .lowerExp => "e"
  | .upperExp => "E"
  | .pointer => "p"

/-- The trait that writes a kind. -/
def trait : Kind → Text
  | .display => "Display"
  | .debug | .debugLowerHex | .debugUpperHex => "Debug"
  | .lowerHex => "LowerHex"
  | .upperHex => "UpperHex"
  | .octal => "Octal"
  | .binary => "Binary"
  | .lowerExp => "LowerExp"
  | .upperExp => "UpperExp"
  | .pointer => "Pointer"

end Kind

/-- How a value is written. A character to fill up with needs a side. -/
structure Spec where
  alignment : Option (Option Char × Side) := none
  sign : Option Bool := none
  alternate : Bool := false
  zero : Bool := false
  width : Option Count := none
  precision : Option Precision := none
  kind : Kind := .display

namespace Spec

/-- The character to fill up with. -/
def fill (s : Spec) : Option Char := s.alignment.bind (·.1)

/-- What stands in front of the kind, without the character to fill up with. -/
def flags (s : Spec) : Text :=
  Text.concat [
    (s.alignment.map fun (_, side) => [side.byte]).getD [],
    (s.sign.map fun plus => if plus then [43] else [45]).getD [],
    Text.when s.alternate [35],
    Text.when s.zero [48],
    (s.width.map Count.text).getD [],
    (s.precision.map Precision.text).getD []]

/-- The spelling of a specification. -/
def text (s : Spec) : Text := (s.fill.map Text.ofChar).getD [] ++ (s.flags ++ s.kind.text)

end Spec

/-- A hole: an argument or the next one, a specification if there is a colon, and
white space. -/
structure Hole where
  argument : Option Argument := none
  spec : Option Spec := none
  blanks : List Char := []
  blank : ∀ c ∈ blanks, Text.isBlank c = true

namespace Hole

def argText (h : Hole) : Text := (h.argument.map Argument.text).getD []

def blankText (h : Hole) : Text := Text.ofChars h.blanks

/-- What stands between the braces. -/
def inner (h : Hole) : Text :=
  h.argText ++ ((h.spec.map fun s => 58 :: s.text).getD [] ++ h.blankText)

/-- The character to fill up with. -/
def fill (h : Hole) : Option Char := h.spec.bind Spec.fill

/-- What the value is written as. -/
def kind (h : Hole) : Kind := (h.spec.map Spec.kind).getD .display

/-- Whether the next argument in order is the precision. -/
def star (h : Hole) : Bool := h.spec.any fun s => s.precision matches some .star

/-- The names of the arguments that a width or a precision asks for. -/
def parameters (h : Hole) : List Text :=
  match h.spec with
  | none => []
  | some s =>
      (s.width.toList ++ s.precision.toList.filterMap fun
        | .count c => some c
        | .star => none).filterMap fun
          | .parameter (.name n) => some (Argument.name n).text
          | _ => none

end Hole

/-- A piece of a format string. -/
inductive Piece where
  | text (t : Text) (plain : ∀ b ∈ t, b ≠ 123 ∧ b ≠ 125)
  /-- `{` -/
  | opening
  /-- `}` -/
  | closing
  | hole (h : Hole)

/-- The spelling of a piece. -/
def Piece.render : Piece → Text
  | .text t _ => t
  | .opening => [123, 123]
  | .closing => [125, 125]
  | .hole h => 123 :: (h.inner ++ [125])

/-- The spelling of a format string. -/
def render (ps : List Piece) : Text := ps.flatMap Piece.render

/-- The holes of a format string, in order. -/
def holes (ps : List Piece) : List Hole :=
  ps.filterMap fun
    | .hole h => some h
    | _ => none

/-! ## Bytes that decide -/

/-- Whether a text has no braces. -/
def Unbraced (t : Text) : Prop := ∀ b ∈ t, b ≠ 123 ∧ b ≠ 125

instance (t : Text) : Decidable (Unbraced t) := List.decidableBAll _ t

theorem unbraced_append {s t : Text} : Unbraced (s ++ t) ↔ Unbraced s ∧ Unbraced t :=
  List.forall_mem_append

theorem unbraced_of_wordy {t : Text} (h : t.Wordy) : Unbraced t := by
  intro b hb
  refine ⟨?_, ?_⟩ <;> rintro rfl <;> exact absurd (h _ hb) (by decide)

/-- Of the characters of ASCII, those of names are letters, digits and underscores, and
digits are among them; letters and digits are no blanks; and the closing brace is a byte
of no other. -/
theorem ascii_facts : ∀ c, c.toNat < 128 →
    (isNameChar c = true → (Text.ofChar c).all Scan.isAlphaNum = true) ∧
    (c.isDigit = true → isNameChar c = true) ∧
    ((c.isAlphanum || c == '_') = true → Text.isBlank c = false) ∧
    (125 ∈ Text.ofChar c → c = '}') :=
  forall_ascii (by decide +kernel)

theorem wordy_ofChar_of_nameChar {c : Char} (h : isNameChar c = true) :
    Text.Wordy (Text.ofChar c) := by
  by_cases hc : c.toNat < 128
  · exact List.all_eq_true.mp ((ascii_facts c hc).1 h)
  · exact Text.wordy_ofChar_of_high (Nat.le_of_not_lt hc)

theorem toNat_lt_of_digit {c : Char} (h : c.isDigit = true) :
    48 ≤ c.toNat ∧ c.toNat ≤ 57 := by
  rw [Char.isDigit, Bool.and_eq_true, decide_eq_true_eq, decide_eq_true_eq] at h
  exact ⟨UInt32.le_iff_toNat_le.mp h.1, UInt32.le_iff_toNat_le.mp h.2⟩

theorem isNameChar_of_digit {c : Char} (h : c.isDigit = true) : isNameChar c = true := by
  have hc := toNat_lt_of_digit h
  exact (ascii_facts c (by omega)).2.1 h

theorem not_blank_of_nameChar {c : Char} (h : isNameChar c = true) :
    Text.isBlank c = false := by
  unfold isNameChar at h
  split at h
  · next hc => exact (ascii_facts c hc).2.2.1 h
  · simpa using h

namespace Argument

variable (a : Argument)

theorem isNameChar_of_mem {c : Char} (h : c ∈ a.chars) : isNameChar c = true := by
  cases a with
  | index n => exact isNameChar_of_digit (n.digits c h)
  | name n =>
      rcases List.mem_cons.mp h with rfl | h
      · exact n.begins.1
      · exact n.continues c h

theorem chars_ne_nil : a.chars ≠ [] := by
  cases a with
  | index n => exact n.ne_nil
  | name n => exact List.cons_ne_nil _ _

theorem wordy_text : a.text.Wordy :=
  Text.wordy_ofChars.mpr fun _ hc => wordy_ofChar_of_nameChar (a.isNameChar_of_mem hc)

end Argument

theorem unbraced_blanks {cs : List Char} (h : ∀ c ∈ cs, Text.isBlank c = true) :
    ∀ b ∈ Text.ofChars cs, b ≠ 58 ∧ b ≠ 123 ∧ b ≠ 125 := by
  have hall : Text.blanks.all
      (fun c => (Text.ofChar c).all fun b => b ≠ 58 ∧ b ≠ 123 ∧ b ≠ 125) = true := by
    decide +kernel
  intro b hb
  obtain ⟨c, hc, hb⟩ := List.mem_flatMap.mp hb
  have hc := List.all_eq_true.mp hall c (List.contains_iff_mem.mp (h c hc))
  exact of_decide_eq_true (List.all_eq_true.mp hc b hb)

theorem eq_of_closing_mem {c : Char} (h : 125 ∈ Text.ofChar c) : c = '}' := by
  by_cases hc : c.toNat < 128
  · exact (ascii_facts c hc).2.2.2 h
  · exact absurd (Text.high_of_mem_ofChar (Nat.le_of_not_lt hc) h) (by decide)

theorem unbraced_count (c : Count) : Unbraced c.text := by
  cases c with
  | literal n => exact unbraced_of_wordy (Argument.index n).wordy_text
  | parameter a =>
      exact unbraced_append.mpr ⟨unbraced_of_wordy a.wordy_text, by decide⟩

theorem unbraced_precision (p : Precision) : Unbraced p.text := by
  cases p with
  | count c => exact List.forall_mem_cons.mpr ⟨by decide, unbraced_count c⟩
  | star => exact (show Unbraced [46, 42] by decide)

theorem unbraced_getD {α : Type} (o : Option α) {text : α → Text}
    (h : ∀ a, Unbraced (text a)) : Unbraced ((o.map text).getD []) := by
  cases o with
  | none => exact List.forall_mem_nil _
  | some a => exact h a

theorem unbraced_when (c : Bool) {t : Text} (h : Unbraced t) :
    Unbraced (Text.when c t) := by
  cases c with
  | false => exact List.forall_mem_nil _
  | true => exact h

theorem unbraced_flags (s : Spec) : Unbraced s.flags := by
  have hside : ∀ side : Side, Unbraced [side.byte] := by
    intro side
    cases side <;> decide
  have hsign : ∀ plus : Bool, Unbraced (if plus then [43] else [45]) := by decide
  simp only [Spec.flags, Text.concat, List.flatten_cons, List.flatten_nil, List.append_nil,
    unbraced_append]
  exact ⟨unbraced_getD _ fun a => hside a.2, unbraced_getD _ hsign,
    unbraced_when _ (by decide), unbraced_when _ (by decide),
    unbraced_getD _ unbraced_count, unbraced_getD _ unbraced_precision⟩

theorem unbraced_kind (k : Kind) : Unbraced k.text := by
  cases k <;> decide

/-! ## Placeholders -/

open Placeholder

variable {offset : Nat} {t rest : Text}

theorem allLoop_skip (offset : Nat) (s t : Text) : allLoop s.length offset (s ++ t) =
    allLoop 0 (offset + s.length) t := by
  induction s generalizing offset with
  | nil => rfl
  | cons b s ih =>
      rw [List.length_cons, List.cons_append, allLoop, ih]
      congr 1
      omega

theorem allLoop_unbraced {s : Text} (h : Unbraced s) : allLoop 0 offset (s ++ t) =
    allLoop 0 (offset + s.length) t := by
  induction s generalizing offset with
  | nil => rfl
  | cons b s ih =>
      obtain ⟨hb, hs⟩ := List.forall_mem_cons.mp h
      rw [List.cons_append, allLoop, if_neg hb.1, if_neg hb.2, ih hs, List.length_cons]
      congr 1
      omega

/-- A brace that closes a hole without its partner is never passed over: those behind it
come in pairs. -/
theorem allLoop_stray (offset : Nat) (ps : List Piece) :
    ∃ e, allLoop 0 offset (125 :: render ps) = .error e := by
  have hlone {n : Nat} {t : Text} (ht : t.head? ≠ some 125) :
      ∃ e, allLoop 0 n (125 :: t) = .error e := by
    refine ⟨.unmatched n, ?_⟩
    rw [allLoop, if_neg (by decide), if_pos rfl, if_neg ht]
  induction ps generalizing offset with
  | nil => exact hlone nofun
  | cons p ps ih =>
      rw [render, List.flatMap_cons, ← render]
      cases p with
      | text s hs =>
          cases s with
          | nil => exact ih _
          | cons b s =>
              exact hlone fun hb => (hs b (List.mem_cons_self ..)).2 (Option.some.inj hb)
      | opening => exact hlone (show some 123 ≠ some 125 by decide)
      | closing =>
          rw [allLoop, if_neg (by decide), if_pos rfl]
          exact ih _
      | hole h => exact hlone (show some 123 ≠ some 125 by decide)

section

variable (h : Hole)

theorem wordy_argText : h.argText.Wordy := by
  unfold Hole.argText
  cases h.argument with
  | none => exact Text.wordy_nil
  | some a => exact a.wordy_text

/-- The placeholder that a hole is found as. -/
def Hole.placeholder : Placeholder :=
  ⟨h.argText, (h.spec.map fun s => s.text ++ h.blankText).getD []⟩

theorem cut?_colon {s t : Text} (hs : 58 ∉ s) : (s ++ 58 :: t).cut? ":" = some (s, t) := by
  rw [List.append_cons]
  exact Text.cut?_append hs

theorem ofInner_colon {s t : Text} (hs : 58 ∉ s) :
    ofInner (s ++ 58 :: t) = ⟨s.trim, t⟩ := by
  rw [ofInner, cut?_colon hs]

theorem ofInner_plain {s : Text} (hs : 58 ∉ s) : ofInner s = ⟨s.trim, []⟩ := by
  have hcut : s.cut? ":" = none := Text.cut?_eq_none hs
  rw [ofInner, hcut]

theorem ofInner_inner : ofInner h.inner = h.placeholder := by
  obtain ⟨cs, hcs, hname⟩ : ∃ cs, h.argText = Text.ofChars cs ∧
      ∀ c ∈ cs, Text.isBlank c = false := by
    unfold Hole.argText
    cases h.argument with
    | none => exact ⟨[], rfl, List.forall_mem_nil _⟩
    | some a =>
        exact ⟨a.chars, rfl, fun c hc => not_blank_of_nameChar (a.isNameChar_of_mem hc)⟩
  have hcolon : 58 ∉ h.argText := fun hmem => absurd (wordy_argText h 58 hmem) (by decide)
  unfold Hole.inner Hole.placeholder
  cases h.spec with
  | none =>
      have hblank : 58 ∉ h.blankText := fun hmem => (unbraced_blanks h.blank 58 hmem).1 rfl
      have hnone : 58 ∉ h.argText ++ h.blankText := fun hmem =>
        (List.mem_append.mp hmem).elim hcolon hblank
      have htrim : (h.argText ++ h.blankText).trim = h.argText := by
        rw [hcs, Hole.blankText, ← Text.ofChars_append]
        exact Text.trim_append_blanks hname h.blank
      exact (ofInner_plain hnone).trans (by rw [htrim]; rfl)
  | some s =>
      have htrim : h.argText.trim = h.argText := by
        rw [hcs]
        have htrim := Text.trim_append_blanks hname (List.forall_mem_nil _)
        rwa [List.append_nil] at htrim
      exact (ofInner_colon hcolon).trans (by rw [htrim]; rfl)

end

theorem allLoop_braced {inner : Text} (hopen : inner.head? ≠ some 123)
    (hclose : 125 ∉ inner) : allLoop 0 offset (123 :: (inner ++ 125 :: t)) =
      (allLoop 0 (offset + (inner.length + 2)) t).map (ofInner inner :: ·) := by
  have hhead : (inner ++ 125 :: t).head? ≠ some 123 := by
    cases inner with
    | nil => exact (show some 125 ≠ some 123 by decide)
    | cons b s => exact hopen
  have hends : (inner ++ 125 :: t).contains 125 = true :=
    List.contains_iff_mem.mpr (List.mem_append_right _ (List.mem_cons_self ..))
  have htake : (inner ++ 125 :: t).takeWhile (· ≠ 125) = inner := by
    rw [List.takeWhile_append_of_pos fun b hb =>
      decide_eq_true (ne_of_mem_of_not_mem hb hclose),
      List.takeWhile_cons_of_neg (by decide), List.append_nil]
  have hskip : allLoop (inner.length + 1) (offset + 1) (inner ++ 125 :: t) =
      allLoop 0 (offset + (inner.length + 2)) t := by
    have hskip := allLoop_skip (offset + 1) (inner ++ [125]) t
    rw [List.append_assoc, List.length_append] at hskip
    exact hskip.trans (congrArg (fun n => allLoop 0 n t)
      (by simp only [List.length_singleton]; omega))
  rw [allLoop, if_pos rfl, if_neg hhead, if_pos hends]
  dsimp only
  rw [htake, hskip]
  cases allLoop 0 (offset + (inner.length + 2)) t <;> rfl

section

variable (h : Hole)

theorem head_argText_ne : h.argText.head? ≠ some 123 := by
  intro hb
  exact absurd (wordy_argText h 123 (List.mem_of_head? hb)) (by decide)

theorem head_inner_ne : h.inner.head? ≠ some 123 := by
  have hblank : h.blankText.head? ≠ some 123 := fun hb =>
    (unbraced_blanks h.blank 123 (List.mem_of_head? hb)).2.1 rfl
  have hhead := head_argText_ne h
  unfold Hole.inner
  cases harg : h.argText with
  | nil =>
      cases h.spec with
      | none => exact hblank
      | some s => exact (show some 58 ≠ some 123 by decide)
  | cons b s => exact (harg ▸ hhead : (b :: s).head? ≠ some 123)

/-- A hole that is not filled up with the closing brace has no such brace in it. -/
theorem not_mem_inner (hfill : h.fill ≠ some '}') : 125 ∉ h.inner := by
  have hblank : 125 ∉ h.blankText := fun hb => (unbraced_blanks h.blank 125 hb).2.2 rfl
  have harg : 125 ∉ h.argText := fun hb => absurd (wordy_argText h 125 hb) (by decide)
  unfold Hole.inner
  cases hs : h.spec with
  | none => exact fun hb => (List.mem_append.mp hb).elim harg hblank
  | some s =>
      have hunbraced : 125 ∉ s.flags ++ s.kind.text := fun hb =>
        (unbraced_append.mpr ⟨unbraced_flags s, unbraced_kind s.kind⟩ 125 hb).2 rfl
      have hfilled : 125 ∉ (s.fill.map Text.ofChar).getD [] := by
        cases hc : s.fill with
        | none => exact List.not_mem_nil
        | some c =>
            rw [Hole.fill, hs, Option.bind_some, hc] at hfill
            exact fun hb => hfill (congrArg some (eq_of_closing_mem hb))
      change 125 ∉ h.argText ++
        (58 :: ((s.fill.map Text.ofChar).getD [] ++ (s.flags ++ s.kind.text)) ++
          h.blankText)
      simp only [List.mem_append, List.mem_cons, not_or]
      exact ⟨harg, ⟨by decide, hfilled, fun hb => hunbraced (List.mem_append_left _ hb),
        fun hb => hunbraced (List.mem_append_right _ hb)⟩, hblank⟩

end

/-- What is filled up with the closing brace is cut short there, and the brace at its end
has no partner. -/
theorem allLoop_hole_closing (offset : Nat) (h : Hole) (hfill : h.fill = some '}')
    (ps : List Piece) :
    ∃ e, allLoop 0 offset ((Piece.hole h).render ++ render ps) = .error e := by
  obtain ⟨s, hs, hfill⟩ : ∃ s, h.spec = some s ∧ s.fill = some '}' :=
    Option.bind_eq_some_iff.mp hfill
  have hcut : (Piece.hole h).render ++ render ps =
      123 :: ((h.argText ++ [58]) ++ 125 :: ((s.flags ++ s.kind.text ++ h.blankText) ++
        125 :: render ps)) := by
    have hbytes : (s.fill.map Text.ofChar).getD [] = [125] := by
      rw [hfill]
      decide +kernel
    simp only [Piece.render, Hole.inner, hs, Option.map_some, Option.getD_some,
      Spec.text, hbytes, List.append_assoc, List.cons_append, List.nil_append]
  have hopen : (h.argText ++ [58]).head? ≠ some 123 := by
    have hhead := head_argText_ne h
    cases harg : h.argText with
    | nil => exact (show some 58 ≠ some 123 by decide)
    | cons b t => exact (harg ▸ hhead : (b :: t).head? ≠ some 123)
  have hclose : 125 ∉ h.argText ++ [58] := fun hb => by
    rcases List.mem_append.mp hb with hb | hb
    · exact absurd (wordy_argText h 125 hb) (by decide)
    · exact absurd (List.mem_singleton.mp hb) (by decide)
  have hrest : Unbraced (s.flags ++ s.kind.text ++ h.blankText) :=
    unbraced_append.mpr ⟨unbraced_append.mpr ⟨unbraced_flags s, unbraced_kind s.kind⟩,
      fun b hb => (unbraced_blanks h.blank b hb).2⟩
  rw [hcut, allLoop_braced hopen hclose, allLoop_unbraced hrest]
  obtain ⟨e, he⟩ := allLoop_stray (offset + ((h.argText ++ [58]).length + 2) +
    (s.flags ++ s.kind.text ++ h.blankText).length) ps
  exact ⟨e, by rw [he]; rfl⟩

/-- The placeholders of a format string, where they are found, are its holes. -/
theorem placeholders_of_all {ps : List Piece} {found : List Placeholder}
    (h : allLoop 0 offset (render ps) = .ok found) :
    found = (holes ps).map Hole.placeholder := by
  induction ps generalizing offset found with
  | nil => exact (Except.ok.inj h).symm
  | cons p ps ih =>
      rw [render, List.flatMap_cons, ← render] at h
      cases p with
      | text s hs => exact ih (allLoop_unbraced (t := render ps) hs ▸ h)
      | opening => exact ih h
      | closing => exact ih h
      | hole hole =>
          by_cases hfill : hole.fill = some '}'
          · obtain ⟨e, he⟩ := allLoop_hole_closing offset hole hfill ps
            rw [he] at h
            cases h
          · rw [Piece.render, List.cons_append, List.append_assoc, List.singleton_append,
              allLoop_braced (head_inner_ne hole) (not_mem_inner hole hfill)] at h
            cases hrest : allLoop 0 (offset + (hole.inner.length + 2)) (render ps) with
            | error e => rw [hrest] at h; cases h
            | ok rest =>
                rw [hrest] at h
                rw [← Except.ok.inj h, ih hrest, ofInner_inner]
                rfl

end Deriver.Format
