import Deriver.Proofs.Text.Quoted
import Deriver.Proofs.Token.Fragment

/-!
# Texts as string literals

Main statements: `pieces_quoted_iff`, `scan_quoted_iff` and `scan_literal`. Quoting and
reading a string literal know different escapes. What quoting writes for a character that
has a glyph, for a byte that is no part of a character and for most of ASCII is read as
that character or byte. For four control characters and every character outside ASCII
without a glyph it writes an escape that a string literal does not know, and the text is
then not read back. `Decodes` says what the scanner makes of a part of a literal, whatever
stands behind it; the parts are put together from there.

A text with a backslash in front of quotes and backslashes alone is read back whatever its
bytes are, and so is one in a raw literal, unless the text itself ends it.
-/

namespace Deriver

open Scan

namespace Text

/-- Whether what is written between quotes for a letter stands for it in a string literal. A
string literal knows no escape for the bell, the backspace, the vertical tab and the form
feed, and wants braces around the number of a character outside ASCII. -/
def Letter.Readable : Letter → Prop
  | .inl c => isGraphic c = true ∨ c.toNat < 0x80 ∧ c.toNat ∉ [7, 8, 11, 12]
  | .inr _ => True

instance : (l : Letter) → Decidable l.Readable
  | .inl _ => inferInstanceAs (Decidable (_ ∨ _))
  | .inr _ => isTrue trivial

/-- Whether every letter of a text stands for itself between quotes. -/
def Readable (t : Text) : Prop := ∀ l ∈ t.units, Letter.Readable l

instance (t : Text) : Decidable t.Readable := inferInstanceAs (Decidable (∀ l ∈ _, _))

end Text

namespace Scan

/-! ## Parts of a string literal -/

/-- The part of a string literal before its closing quote. -/
abbrev stringBody (t : Text) : Body := body (· == 34) 0 t

/-- Whether a part of a string literal is read as `v`, whatever stands behind it, and
without a fault just if `clean` holds. -/
structure Decodes (w v : Text) (clean : Prop) : Prop where
  size : ∀ u, (stringBody (w ++ u)).size = (stringBody u).size + w.length
  value : ∀ u, (stringBody (w ++ u)).value = v ++ (stringBody u).value
  faults : ∀ u, (stringBody (w ++ u)).faults = [] ↔ clean ∧ (stringBody u).faults = []

theorem Decodes.nil : Decodes [] [] True :=
  ⟨fun _ => rfl, fun _ => rfl, fun _ => (and_iff_right trivial).symm⟩

theorem Decodes.append {w w' v v' : Text} {c c' : Prop} (h : Decodes w v c)
    (h' : Decodes w' v' c') : Decodes (w ++ w') (v ++ v') (c ∧ c') := by
  refine ⟨fun u => ?_, fun u => ?_, fun u => ?_⟩
  · rw [List.append_assoc, h.size, h'.size, List.length_append]
    omega
  · rw [List.append_assoc, h.value, h'.value, List.append_assoc]
  · rw [List.append_assoc, h.faults, h'.faults, and_assoc]

/-- Bytes that stand for themselves in a string literal. -/
def Bare (w : Text) : Prop := ∀ b ∈ w, b ≠ 34 ∧ b ≠ 92

/-- Bytes that are neither a quote nor a backslash stand for themselves. -/
theorem decodes_plain {w : Text} (h : Bare w) : Decodes w w True := by
  induction w with
  | nil => exact .nil
  | cons b w ih =>
      obtain ⟨⟨hquote, hslash⟩, hw⟩ := List.forall_mem_cons.mp h
      have hb : Decodes [b] [b] True := by
        have hbody (u : Text) : stringBody ([b] ++ u) = (stringBody u).push [b] := by
          change body _ 0 (b :: u) = _
          rw [body, if_neg (by simpa using hquote), if_neg hslash]
        refine ⟨fun u => ?_, fun u => ?_, fun u => ?_⟩ <;> rw [hbody]
        · rfl
        · rfl
        · simp [Body.push]
      have happend := hb.append (ih hw)
      rw [and_self] at happend
      exact happend

theorem body_skip (w u : Text) :
    (body (· == 34) w.length (w ++ u)).size = (stringBody u).size + w.length ∧
    (body (· == 34) w.length (w ++ u)).value = (stringBody u).value ∧
    ((body (· == 34) w.length (w ++ u)).faults = [] ↔ (stringBody u).faults = []) := by
  induction w with
  | nil => exact ⟨rfl, rfl, Iff.rfl⟩
  | cons b w ih =>
      obtain ⟨hsize, hvalue, hfaults⟩ := ih
      rw [List.length_cons, List.cons_append, body]
      refine ⟨?_, hvalue, ?_⟩
      · rw [Body.push, hsize]
        rfl
      · rw [Body.push, List.map_eq_nil_iff, hfaults]

/-- An escape, and plain bytes behind it, of which it may look at the first. -/
theorem decodes_escape {e w v : Text} {f : Option Fault} (hw : Bare w)
    (h : ∀ u, escape (e ++ (w ++ u)) = ⟨e.length, v, f⟩) :
    Decodes (92 :: e ++ w) (v ++ w) (f = none) := by
  have hplain := decodes_plain hw
  have hbody (u : Text) : stringBody (92 :: e ++ w ++ u) =
      match f with
      | some f =>
          let after := (body (· == 34) e.length (e ++ (w ++ u))).push v
          { after with faults := (f, e.length + 1) :: after.faults }
      | none => (body (· == 34) e.length (e ++ (w ++ u))).push v := by
    rw [List.append_assoc, List.cons_append]
    change body _ 0 (92 :: _) = _
    rw [body, if_neg (by decide), if_pos rfl, h]
    cases f <;> rfl
  refine ⟨fun u => ?_, fun u => ?_, fun u => ?_⟩
  all_goals
    obtain ⟨hsize, hvalue, hfaults⟩ := body_skip e (w ++ u)
    rw [hbody]
  · cases f <;> simp [Body.push, hsize, hplain.size u] <;> omega
  · cases f <;> simp [Body.push, hvalue, hplain.value u]
  · cases f <;> simp [Body.push, hfaults, hplain.faults u]

theorem bare_hex (width n : Nat) : Bare (Text.hex width n) := by
  have hdigit : ∀ m < 16, Text.hexByte m ≠ 34 ∧ Text.hexByte m ≠ 92 := by decide
  induction width generalizing n with
  | zero => exact List.forall_mem_nil _
  | succ width ih =>
      exact List.forall_mem_append.mpr ⟨ih _,
        List.forall_mem_singleton.mpr (hdigit _ (Nat.mod_lt n (by decide)))⟩

theorem head?_hex (width n : Nat) : (Text.hex (width + 1) n).head? ≠ some 123 := by
  have hdigit : ∀ m < 16, Text.hexByte m ≠ 123 := by decide
  induction width generalizing n with
  | zero =>
      intro h
      exact hdigit _ (Nat.mod_lt n (by decide)) (Option.some.inj h)
  | succ width ih =>
      rw [Text.hex, List.head?_append_of_ne_nil _ (by simp [Text.hex])]
      exact ih (n / 16)

theorem bare_ofChar {c : Char} (hquote : c ≠ '"') (hslash : c ≠ '\\') :
    Bare (Text.ofChar c) := by
  by_cases h : c.toNat < 0x80
  · rw [Text.ofChar_low h]
    have hne {d : Char} (hd : d.toNat < 256) (hcd : c ≠ d) :
        UInt8.ofNat c.toNat ≠ UInt8.ofNat d.toNat := by
      intro heq
      have hnat := congrArg UInt8.toNat heq
      rw [UInt8.toNat_ofNat_of_lt' (Nat.lt_trans h (by decide)),
        UInt8.toNat_ofNat_of_lt' hd] at hnat
      exact hcd (Char.toNat_inj.mp hnat)
    exact List.forall_mem_singleton.mpr ⟨hne (d := '"') (by decide) hquote,
      hne (d := '\\') (by decide) hslash⟩
  · intro b hb
    have hhigh := Text.high_of_mem_ofChar (Nat.le_of_not_lt h) hb
    exact ⟨by rintro rfl; exact absurd hhigh (by decide), by
      rintro rfl; exact absurd hhigh (by decide)⟩

theorem toNat?_hex : ∀ n < 256, Text.toNat? (Text.hex 2 n) 16 = some n := by decide +kernel

theorem decodes_byte {n : Nat} (hn : n < 256) :
    Decodes ("\\x" ++ Text.hex 2 n) [n.toUInt8] True := by
  have h (u : Text) : escape ((120 :: Text.hex 2 n) ++ ([] ++ u)) =
      ⟨(120 :: Text.hex 2 n).length, [n.toUInt8], none⟩ := by
    change escape (120 :: (Text.hex 2 n ++ u)) = _
    have htake : (Text.hex 2 n ++ u).take 2 = Text.hex 2 n := by
      rw [List.take_append_of_le_length (by simp), List.take_of_length_le (by simp)]
    have hchar : Char.ofNat (120 : UInt8).toNat = 'x' := rfl
    simp only [escape, hchar, htake, toNat?_hex n hn, Text.length_hex, List.length_cons]
  have hbyte := decodes_escape (List.forall_mem_nil _) h
  rw [List.append_nil, List.append_nil, eq_self] at hbyte
  exact hbyte

/-! ## Letters -/

/-- An escape that stands for itself, as does the byte behind the backslash. -/
theorem decodes_named {b c : UInt8} (h : ∀ u, escape (b :: u) = ⟨1, [c], none⟩) :
    Decodes [92, b] [c] True := by
  have hescape := decodes_escape (e := [b]) (List.forall_mem_nil _) fun u => h u
  rwa [List.append_nil, List.append_nil, eq_self] at hescape

/-- A character of ASCII has a glyph, or is one of the controls. -/
theorem control_of_low {c : Char} (h : c.toNat < 0x80) (hnone : ¬ Text.isGraphic c = true) :
    (c.toNat < 32 || c.toNat = 127) = true := by
  unfold Text.isGraphic at hnone
  rw [if_pos h, Bool.and_eq_true, decide_eq_true_eq, decide_eq_true_eq] at hnone
  rw [Bool.or_eq_true, decide_eq_true_eq, decide_eq_true_eq]
  omega

theorem decodes_readable {l : Text.Letter} (h : l.Readable) :
    Decodes (Text.quotedLetter l) (Text.ofLetter l) True := by
  cases l with
  | inr b =>
      have hbyte := decodes_byte b.toNat_lt
      rwa [Nat.toUInt8, UInt8.ofNat_toNat] at hbyte
  | inl c =>
      rw [Text.quotedLetter]
      unfold Text.quotedChar
      split
      · exact decodes_named fun _ => rfl
      · exact decodes_named fun _ => rfl
      · exact decodes_named fun _ => rfl
      · exact decodes_named fun _ => rfl
      · exact decodes_named fun _ => rfl
      · next hquote hslash _ _ _ =>
          dsimp only
          split_ifs with hgraphic h7 h8 h11 h12 hlow hshort
          · exact decodes_plain (bare_ofChar hquote hslash)
          all_goals
            obtain ⟨hascii, hnone⟩ := Or.resolve_left h hgraphic
            simp only [List.mem_cons, List.not_mem_nil, or_false, not_or] at hnone
          · exact absurd h7 hnone.1
          · exact absurd h8 hnone.2.1
          · exact absurd h11 hnone.2.2.1
          · exact absurd h12 hnone.2.2.2
          · rw [Text.ofLetter, Text.ofChar_low hascii]
            exact decodes_byte (Nat.lt_trans hascii (by decide))
          · exact absurd (control_of_low hascii hgraphic) hlow
          · exact absurd (control_of_low hascii hgraphic) hlow

/-- An escape for a control that a string literal does not know: the backslash stays. -/
theorem decodes_kept {b : UInt8} (h : ∀ u, escape (b :: u) = ⟨1, [92, b], none⟩) (w : Text)
    (hw : Bare w) : Decodes (92 :: b :: w) (92 :: b :: w) True := by
  have hescape := decodes_escape (e := [b]) hw fun u => h (w ++ u)
  rwa [eq_self] at hescape

theorem decodes_braceless (n : Nat) :
    Decodes (92 :: 117 :: Text.hex 4 n) (Text.hex 4 n) False := by
  have hfault (u : Text) : escape (117 :: (Text.hex 4 n ++ u)) =
      ⟨1, [], some .noUnicodeBrace⟩ := by
    have hhead := head?_hex 3 n
    cases hhex : Text.hex 4 n with
    | nil => exact absurd (congrArg List.length hhex) (by simp)
    | cons d ds =>
        rw [hhex] at hhead
        have hd : d ≠ 123 := fun heq => hhead (congrArg some heq)
        have hchar : Char.ofNat (117 : UInt8).toNat = 'u' := rfl
        simp only [escape, hchar, List.cons_append]
        split
        · next heq => exact absurd (List.cons.inj heq).1 hd
        · rfl
  have hescape := decodes_escape (e := [117]) (bare_hex 4 n) hfault
  rwa [eq_false (Option.some_ne_none _)] at hescape

/-- A letter that is not readable is read with a fault or as more bytes. -/
theorem decodes_unreadable {l : Text.Letter} (h : ¬ l.Readable) :
    ∃ v clean, Decodes (Text.quotedLetter l) v clean ∧
      (clean → (Text.ofLetter l).length < v.length) := by
  cases l with
  | inr b => exact absurd trivial h
  | inl c =>
      obtain ⟨hgraphic, hascii⟩ := not_or.mp h
      have hcontrol {b : UInt8} (hkept : ∀ u, escape (b :: u) = ⟨1, [92, b], none⟩)
          (hlow : c.toNat < 0x80) : ∃ v clean, Decodes [92, b] v clean ∧
            (clean → (Text.ofLetter (.inl c)).length < v.length) := by
        refine ⟨_, _, decodes_kept hkept [] (List.forall_mem_nil _), fun _ => ?_⟩
        rw [Text.ofLetter, Text.ofChar_low hlow]
        exact Nat.lt_add_one 1
      rw [Text.quotedLetter]
      unfold Text.quotedChar
      split
      · exact absurd (by decide) hascii
      · exact absurd (by decide) hascii
      · exact absurd (by decide) hascii
      · exact absurd (by decide) hascii
      · exact absurd (by decide) hascii
      · dsimp only
        split_ifs with h7 h8 h11 h12 hlow hfour
        · exact hcontrol (fun _ => rfl) (by omega)
        · exact hcontrol (fun _ => rfl) (by omega)
        · exact hcontrol (fun _ => rfl) (by omega)
        · exact hcontrol (fun _ => rfl) (by omega)
        · refine absurd ⟨?_, ?_⟩ hascii
          · rw [Bool.or_eq_true, decide_eq_true_eq, decide_eq_true_eq] at hlow
            omega
          · simp [h7, h8, h11, h12]
        · exact ⟨_, _, decodes_braceless c.toNat, False.elim⟩
        · refine ⟨_, _, decodes_kept (b := 85) (fun _ => rfl) _ (bare_hex 8 c.toNat),
            fun _ => ?_⟩
          have hlength : (92 :: 85 :: Text.hex 8 c.toNat).length = 10 := by simp
          rw [Text.ofLetter, Text.ofChar, String.length_utf8EncodeChar]
          exact Nat.lt_of_le_of_lt c.utf8Size_le_four (hlength ▸ (by decide))

/-! ## Whole texts -/

theorem decodes_readables {ls : List Text.Letter} (h : ∀ l ∈ ls, Text.Letter.Readable l) :
    Decodes (ls.flatMap Text.quotedLetter) (Text.ofLetters ls) True := by
  induction ls with
  | nil => exact .nil
  | cons l ls ih =>
      obtain ⟨hl, hls⟩ := List.forall_mem_cons.mp h
      have happend := (decodes_readable hl).append (ih hls)
      rwa [and_self] at happend

/-- A list of letters that are not all readable is read with a fault or as more bytes. -/
theorem decodes_letters (ls : List Text.Letter) : ∃ v clean,
    Decodes (ls.flatMap Text.quotedLetter) v clean ∧
      (clean → (Text.ofLetters ls).length ≤ v.length ∧
        ((∃ l ∈ ls, ¬ Text.Letter.Readable l) →
        (Text.ofLetters ls).length < v.length)) := by
  induction ls with
  | nil => exact ⟨_, _, .nil, fun _ => ⟨Nat.le_refl _, by rintro ⟨l, hl, -⟩; cases hl⟩⟩
  | cons l ls ih =>
      obtain ⟨v, clean, hdecodes, hlength⟩ := ih
      have hcons : Text.ofLetters (l :: ls) = Text.ofLetter l ++ Text.ofLetters ls := rfl
      simp only [hcons, List.length_append, List.flatMap_cons, List.mem_cons,
        exists_eq_or_imp]
      by_cases hl : l.Readable
      · refine ⟨_, _, (decodes_readable hl).append hdecodes, fun hclean => ?_⟩
        obtain ⟨hle, hlt⟩ := hlength hclean.2
        rw [List.length_append]
        exact ⟨by omega, fun hany => Nat.add_lt_add_left (hlt (hany.resolve_left (· hl))) _⟩
      · obtain ⟨w, clean', hdecodes', hlt⟩ := decodes_unreadable hl
        refine ⟨_, _, hdecodes'.append hdecodes, fun hclean => ?_⟩
        have hle := (hlength hclean.2).1
        have hlt := hlt hclean.1
        rw [List.length_append]
        exact ⟨by omega, fun _ => by omega⟩

theorem piece_of_decodes {w v : Text} {clean : Prop} (h : Decodes w v clean) (rest : Text) :
    ∃ fs, pieces (34 :: w ++ 34 :: rest) =
        ⟨34 :: w ++ [34], some (.str, some (.str v)), fs⟩ :: pieces rest ∧
        (fs = [] ↔ clean) := by
  have hstop : stringBody (34 :: rest) = ⟨0, [], []⟩ := by
    change body _ 0 (34 :: rest) = _
    rw [body, if_pos (by decide)]
  have hsize : (stringBody (w ++ 34 :: rest)).size = w.length := by
    rw [h.size, hstop, Nat.zero_add]
  have hvalue : (stringBody (w ++ 34 :: rest)).value = v := by
    rw [h.value, hstop, List.append_nil]
  have hfaults := h.faults (34 :: rest)
  rw [hstop, and_iff_left rfl] at hfaults
  have hlexeme : lexeme 34 (w ++ 34 :: rest) =
      ⟨w.length + 1, some (.str, some (.str v)),
        (stringBody (w ++ 34 :: rest)).faults⟩ := by
    change string (w ++ 34 :: rest) = _
    unfold string
    dsimp only
    rw [hsize, List.drop_left, hvalue]
  have htake : (w ++ 34 :: rest).take (w.length + 1) = w ++ [34] := by
    rw [List.take_append, List.take_of_length_le (Nat.le_succ _), Nat.add_sub_cancel_left]
    rfl
  have hdrop : (w ++ 34 :: rest).drop (w.length + 1) = rest := by
    rw [List.drop_append]
    simp
  refine ⟨(piece 34 (w ++ 34 :: rest)).faults, ?_, ?_⟩
  · rw [List.cons_append, pieces_cons, piece, hlexeme]
    dsimp only
    rw [htake, hdrop]
    rfl
  · rw [piece, hlexeme, List.map_eq_nil_iff]
    exact hfaults

end Scan

/-- A quoted text is read as one string literal that stands for it, whatever follows, just
if all its letters are readable. -/
theorem pieces_quoted_iff (t rest : Text) :
    pieces (t.quoted ++ rest) = ⟨t.quoted, some (.str, some (.str t)), []⟩ :: pieces rest ↔
      t.Readable := by
  have hquoted (u : Text) : t.quoted ++ u =
      34 :: t.units.flatMap Text.quotedLetter ++ 34 :: u := by
    rw [Text.quoted_eq]
    simp
  have htext : t.quoted = 34 :: t.units.flatMap Text.quotedLetter ++ [34] := by
    rw [← hquoted, List.append_nil]
  rw [hquoted, htext]
  constructor
  · intro h
    by_contra hread
    obtain ⟨v, clean, hdecodes, hlength⟩ := decodes_letters t.units
    obtain ⟨fs, hpieces, hclean⟩ := piece_of_decodes hdecodes rest
    rw [hpieces] at h
    obtain ⟨-, htoken, hfs⟩ := Piece.mk.inj (List.cons.inj h).1
    have hv : v = t := by simpa using htoken
    have hany : ∃ l ∈ t.units, ¬ Text.Letter.Readable l :=
      by_contra fun hnone => hread fun l hl => by_contra fun h => hnone ⟨l, hl, h⟩
    have hlt := (hlength (hclean.mp hfs)).2 hany
    rw [Text.ofLetters_units, hv] at hlt
    exact Nat.lt_irrefl _ hlt
  · intro hread
    obtain ⟨fs, hpieces, hclean⟩ := piece_of_decodes (decodes_readables hread) rest
    rw [hpieces, hclean.mpr trivial, Text.ofLetters_units]

/-- By itself it is scanned without error as the one token for it, under the same
condition. -/
theorem scan_quoted_iff (t : Text) :
    scan t.quoted = ⟨[⟨.str, t.quoted, some (.str t), .start, 0⟩, endOf t.quoted], []⟩ ↔
      t.Readable := by
  have hpieces := pieces_quoted_iff t []
  rw [List.append_nil, pieces_nil] at hpieces
  rw [← hpieces]
  constructor
  · intro h
    have hown : ownTokens t.quoted = [⟨.str, t.quoted, some (.str t), .start, 0⟩] := by
      rw [ownTokens, h]
      rfl
    refine pieces_of_mem (congrArg Result.errors h) (hown ▸ List.mem_singleton_self _) ?_
    intro heq
    have hhead : some (34 : UInt8) = some 39 := congrArg List.head? heq
    exact absurd hhead (by decide)
  · exact scan_of_pieces

/-! ## Literals for a text -/

namespace Text

/-- A text with a backslash in front of each quote and backslash. -/
def escaped (v : Text) : Text := v.flatMap fun b => if b = 34 ∨ b = 92 then [92, b] else [b]

/-- What ends a raw string that `n` hashes opened. -/
def rawEnd (n : Nat) : Text := 34 :: List.replicate n 35

/-- A string literal for a text. -/
def literal (v : Text) : Text := 34 :: v.escaped ++ [34]

/-- A raw string literal for a text, with `n` hashes. -/
def rawLiteral (n : Nat) (v : Text) : Text :=
  114 :: (List.replicate n 35 ++ 34 :: (v ++ rawEnd n))

/-- The end of a raw string does not begin with the text in front of it: it would reach to
the quote behind the text, where it has a hash. -/
theorem not_prefix_rawEnd {n : Nat} {v : Text} (hv : v ≠ []) (h : ¬ rawEnd n <+: v) :
    ¬ rawEnd n <+: v ++ rawEnd n := by
  intro hpre
  rcases List.prefix_or_prefix_of_prefix hpre (List.prefix_append v _) with hin | ⟨u, hu⟩
  · exact h hin
  · have htail : u <+: rawEnd n := by
      conv at hpre => lhs; rw [← hu]
      exact (List.prefix_append_right_inj v).mp hpre
    cases u with
    | nil => exact h ⟨[], by rw [List.append_nil, ← hu, List.append_nil]⟩
    | cons c u =>
        obtain ⟨b, v, rfl⟩ := List.exists_cons_of_ne_nil hv
        have hc : c = 34 := (List.cons_prefix_cons.mp htail).1
        have hmem : c ∈ List.replicate n (35 : UInt8) := by
          rw [← (List.cons.inj hu).2]
          simp
        rw [hc] at hmem
        exact absurd (List.eq_of_mem_replicate hmem) (by decide)

theorem find?_rawEnd {n : Nat} {v : Text} (h : ¬ rawEnd n <:+: v) :
    find? (v ++ rawEnd n) (rawEnd n) = some v.length := by
  induction v with
  | nil => simp [rawEnd, find?]
  | cons b v ih =>
      have hfirst := not_prefix_rawEnd (List.cons_ne_nil b v) fun hpre => h hpre.isInfix
      rw [← List.isPrefixOf_iff_prefix, Bool.not_eq_true] at hfirst
      rw [List.cons_append] at hfirst ⊢
      rw [find?, hfirst, ih fun hin => h (List.infix_cons hin)]
      rfl

end Text

namespace Scan

theorem decodes_escaped (v : Text) : Decodes v.escaped v True := by
  induction v with
  | nil => exact .nil
  | cons b v ih =>
      have hb : Decodes (if b = 34 ∨ b = 92 then [92, b] else [b]) [b] True := by
        split
        · next hmark =>
            rcases hmark with rfl | rfl <;> exact decodes_named fun _ => rfl
        · next hplain =>
            exact decodes_plain (List.forall_mem_singleton.mpr (not_or.mp hplain))
      have happend := hb.append ih
      rw [and_self] at happend
      exact happend

theorem run_hashes (n : Nat) (t : Text) :
    run (· == 35) (List.replicate n 35 ++ 34 :: t) = n := by
  rw [run, List.takeWhile_append_of_pos (by simp +contextual)]
  simp

/-- What an `r` begins in front of hashes, a quote, a text and what ends it. -/
theorem lexeme_rawLiteral {n : Nat} {v : Text} (h : ¬ Text.rawEnd n <:+: v) :
    lexeme 114 (List.replicate n 35 ++ 34 :: (v ++ Text.rawEnd n)) =
      ⟨n + 1 + v.length + 1 + n, some (.str, some (.str v)), []⟩ := by
  have hdrop : (List.replicate n 35 ++ 34 :: (v ++ Text.rawEnd n)).drop n =
      34 :: (v ++ Text.rawEnd n) := List.drop_left' (List.length_replicate ..)
  have hraw : rawString (List.replicate n 35 ++ 34 :: (v ++ Text.rawEnd n)) =
      ⟨n + 1 + v.length + 1 + n, some (.str, some (.str v)), []⟩ := by
    simp only [rawString, run_hashes, hdrop]
    rw [← Text.rawEnd, Text.find?_rawEnd h]
    simp
  have hopens : opensRaw (List.replicate n 35 ++ 34 :: (v ++ Text.rawEnd n)) = true := by
    rw [opensRaw, List.dropWhile_append_of_pos (by simp +contextual)]
    rfl
  rw [lexeme_alphaNum rfl, wordLike_r, ← hraw, if_pos]
  cases n with
  | zero => rfl
  | succ n => rw [hopens]; rfl

end Scan

/-- Every text is the value of a string literal, whatever its bytes are, and of a raw one
with any number of hashes that does not end within it. -/
theorem scan_literal (v : Text) :
    scan v.literal = ⟨[⟨.str, v.literal, some (.str v), .start, 0⟩, endOf v.literal], []⟩ ∧
      ∀ n, ¬ Text.rawEnd n <:+: v →
        scan (v.rawLiteral n) =
          ⟨[⟨.str, v.rawLiteral n, some (.str v), .start, 0⟩, endOf (v.rawLiteral n)],
          []⟩ := by
  constructor
  · obtain ⟨fs, hpieces, hfs⟩ := piece_of_decodes (decodes_escaped v) []
    rw [hfs.mpr trivial, pieces_nil] at hpieces
    exact scan_of_pieces hpieces
  · intro n h
    refine scan_of_pieces ?_
    rw [Text.rawLiteral, pieces_cons, piece, lexeme_rawLiteral h]
    have hlen : (List.replicate n 35 ++ 34 :: (v ++ Text.rawEnd n)).length =
        n + 1 + v.length + 1 + n := by
      simp [Text.rawEnd]
      omega
    dsimp only
    rw [← hlen, List.take_length, List.drop_length, pieces_nil]
    rfl

/-- Quotes with fewer hashes, a backslash and a stray byte. -/
theorem scan_literal_hashes :
    let v : Text := "\"\"#\\" ++ [(0xFF : UInt8)]
    ¬ Text.rawEnd 2 <:+: v ∧ v.rawLiteral 2 = "r##\"\"\"#\\" ++ [(0xFF : UInt8)] ++ "\"##" ∧
      scan (v.rawLiteral 2) =
        ⟨[⟨.str, v.rawLiteral 2, some (.str v), .start, 0⟩, endOf (v.rawLiteral 2)],
          []⟩ := by
  intro v
  have h : ¬ Text.rawEnd 2 <:+: v := by decide
  exact ⟨h, rfl, (scan_literal v).2 2 h⟩

end Deriver
