import Deriver.Server.Basic
import Deriver.Proofs.Editor.Session
import Deriver.Proofs.Parse.Reparse
import Deriver.Proofs.Text.Utf8
import Mathlib.Data.List.DropRight

/-!
# Editors and the server count differently

Main statements: `EditorPosition.counts_agree` and `Session.positions_in_bytes`. A
position is counted in two ways: the scanner counts lines and columns on its way through
the text, and an offset is looked up among the starts of lines. Both come to the same, for
tokens on several lines too, so a range may take one end from the one and one from the
other.

An editor counts the characters of a line in UTF-16 units, unless it is told otherwise,
and the server does not tell it. The server counts bytes, in what it sends and in what it
is sent, so the two agree where a line has nothing but single-byte characters, and nowhere
behind a wider one. A character beyond the end of its line is the end of the line for an
editor; completions go on counting in the lines below.

A position that the server counts is that behind a text (`EditorPosition.behindBytes`). It
grows with the text, so comparing positions is comparing offsets, and it leads back to its
offset through the starts of the lines.
-/

namespace Deriver

/-! ## Widths -/

namespace Text

/-- What stands behind the last newline. -/
def lastLine (t : Text) : Text := t.rtakeWhile (· ≠ 10)

/-- The number of UTF-16 units of a letter. A stray byte is shown as a character of one
unit. -/
def letterUnits : Letter → Nat
  | .inl c => units16 c
  | .inr _ => 1

/-- The number of UTF-16 units of some letters. -/
def lettersUnits : List Letter → Nat
  | [] => 0
  | l :: ls => letterUnits l + lettersUnits ls

/-- The number of UTF-16 units of a text. -/
def size16 (t : Text) : Nat := lettersUnits t.units

/-- Every letter is a single byte. -/
def Narrow (t : Text) : Prop := ∀ l ∈ t.units, (ofLetter l).length = 1

instance (t : Text) : Decidable t.Narrow := inferInstanceAs (Decidable (∀ l ∈ t.units, _))

/-- A letter has a unit for every byte if it is one byte, and else fewer. -/
theorem letterUnits_le (l : Letter) :
    letterUnits l ≤ (ofLetter l).length ∧
      (letterUnits l = (ofLetter l).length ↔ (ofLetter l).length = 1) := by
  cases l with
  | inr b => exact ⟨Nat.le_refl 1, Iff.rfl⟩
  | inl c =>
      have hbytes : (ofLetter (.inl c)).length =
          if c.toNat ≤ 127 then 1 else if c.toNat ≤ 2047 then 2
            else if c.toNat ≤ 65535 then 3 else 4 := by
        rw [ofLetter, ← Char.ofNat_toNat c, ofChar_ofNat (n := c.toNat) c.valid,
          Char.ofNat_toNat]
        split_ifs <;> rfl
      have hunits : letterUnits (.inl c) = if c.toNat < 0x10000 then 1 else 2 := rfl
      rw [hbytes, hunits]
      split_ifs <;> omega

theorem lettersUnits_le (ls : List Letter) :
    lettersUnits ls ≤ (ofLetters ls).length ∧
      (lettersUnits ls = (ofLetters ls).length ↔ ∀ l ∈ ls, (ofLetter l).length = 1) := by
  induction ls with
  | nil => exact ⟨Nat.le_refl 0, iff_of_true rfl (List.forall_mem_nil _)⟩
  | cons l ls ih =>
      obtain ⟨hle, heq⟩ := letterUnits_le l
      rw [lettersUnits, ofLetters, List.flatMap_cons, ← ofLetters, List.length_append,
        List.forall_mem_cons, ← heq, ← ih.2]
      omega

theorem size16_le (t : Text) : t.size16 ≤ t.length := by
  have h := (lettersUnits_le t.units).1
  rwa [ofLetters_units] at h

theorem size16_eq_length_iff (t : Text) : t.size16 = t.length ↔ t.Narrow := by
  have h := (lettersUnits_le t.units).2
  rwa [ofLetters_units] at h

theorem lastLine_append {u : Text} (h : 10 ∉ u) (t : Text) :
    lastLine (t ++ u) = t.lastLine ++ u := by
  have hall : ∀ b ∈ u.reverse, decide (b ≠ 10) = true := fun b hb =>
    decide_eq_true fun heq => h (heq ▸ List.mem_reverse.mp hb)
  rw [lastLine, List.rtakeWhile, List.reverse_append, List.takeWhile_append_of_pos hall,
    List.reverse_append, List.reverse_reverse, lastLine, List.rtakeWhile]

theorem not_mem_lastLine (t : Text) : 10 ∉ t.lastLine := by
  intro h
  have hline := List.mem_rtakeWhile_imp (p := fun b : UInt8 => decide (b ≠ 10)) h
  exact absurd hline (by decide)

theorem length_lastLine_le (t : Text) : t.lastLine.length ≤ t.length :=
  (List.rtakeWhile_suffix _ t).length_le

theorem take_of_split {content before after : Text} (h : content = before ++ after) :
    before.length ≤ content.length ∧ content.take before.length = before := by
  rw [h, List.length_append, List.take_left]
  exact ⟨Nat.le_add_right _ _, rfl⟩

end Text

/-! ## Positions and offsets -/

namespace EditorPosition

/-- The position behind a text for an editor: the newlines, and the UTF-16 units behind the
last one. -/
def behind (before : Text) : EditorPosition := ⟨before.count 10, before.lastLine.size16⟩

/-- The position behind a text with the bytes behind the last newline. -/
def behindBytes (before : Text) : EditorPosition :=
  ⟨before.count 10, before.lastLine.length⟩

end EditorPosition

/-- The range from one offset of a text to another, with bytes for characters. -/
def EditorRange.ofBytes (content : Text) (i j : Nat) : EditorRange :=
  ⟨.behindBytes (content.take i), .behindBytes (content.take j)⟩

namespace EditorPosition

theorem behindBytes_append {u : Text} (h : 10 ∉ u) (t : Text) :
    behindBytes (t ++ u) = ⟨t.count 10, t.lastLine.length + u.length⟩ := by
  rw [behindBytes, List.count_append, List.count_eq_zero_of_not_mem h,
    Text.lastLine_append h, List.length_append]
  rfl

theorem before_append {u : Text} (h : u ≠ []) (t : Text) :
    (behindBytes t).before (behindBytes (t ++ u)) = true := by
  rw [before_iff]
  by_cases hline : 10 ∈ u
  · have hcount : 0 < u.count 10 := List.count_pos_iff.mpr hline
    refine .inl ?_
    show t.count 10 < (t ++ u).count 10
    rw [List.count_append]
    omega
  · rw [behindBytes_append hline]
    exact .inr ⟨rfl, Nat.lt_add_of_pos_right (List.length_pos_iff.mpr h)⟩

section Offsets

variable {content : Text} {i j : Nat}

theorem before_take (h : i < j) (hj : j ≤ content.length) :
    (behindBytes (content.take i)).before (behindBytes (content.take j)) = true := by
  have hsplit : content.take j = content.take i ++ (content.drop i).take (j - i) := by
    rw [← List.take_add, Nat.add_sub_cancel' (Nat.le_of_lt h)]
  rw [hsplit]
  refine before_append (List.ne_nil_of_length_pos ?_) _
  rw [List.length_take, List.length_drop]
  omega

theorem before_take_iff (hi : i ≤ content.length) (hj : j ≤ content.length) :
    (behindBytes (content.take i)).before (behindBytes (content.take j)) = true ↔
    i < j := by
  refine ⟨fun h => ?_, fun h => before_take h hj⟩
  rcases Nat.lt_trichotomy i j with hlt | rfl | hgt
  · exact hlt
  · rw [before_iff] at h
    omega
  · have hback := before_take hgt hi
    rw [before_iff] at h hback
    omega

/-- A range between two offsets contains the positions of the offsets between them. -/
theorem contains_iff {k : Nat} (hi : i ≤ content.length) (hj : j ≤ content.length)
    (hk : k ≤ content.length) :
    (EditorRange.ofBytes content i j).contains (behindBytes (content.take k)) = true ↔
      i ≤ k ∧ k ≤ j := by
  rw [EditorRange.contains_iff_not_before, EditorRange.ofBytes, before_take_iff hk hi,
    before_take_iff hj hk, Nat.not_lt, Nat.not_lt]

/-- A position beyond the end of a line comes behind all offsets up to the end and before
all others. -/
theorem before_beyond_iff {before after : Text} (hsplit : content = before ++ after)
    (hend : ∀ b ∈ after.head?, b = 10) {n : Nat} (hn : 0 < n) (hi : i ≤ content.length) :
    ((⟨before.count 10, before.lastLine.length + n⟩ : EditorPosition).before
        (behindBytes (content.take i)) = true ↔ before.length < i) ∧
      ((behindBytes (content.take i)).before
        ⟨before.count 10, before.lastLine.length + n⟩ = true ↔ i ≤ before.length) := by
  have hcount : before.length < i → before.count 10 < (content.take i).count 10 := by
    intro hlt
    obtain ⟨k, rfl⟩ := Nat.exists_eq_add_of_lt hlt
    rw [hsplit, Nat.add_assoc, List.take_length_add_append, List.count_append]
    cases after with
    | nil =>
        rw [hsplit, List.append_nil] at hi
        omega
    | cons b after =>
        obtain rfl := hend b rfl
        rw [List.take_succ_cons, List.count_cons_self]
        omega
  obtain ⟨hle, hbefore⟩ := Text.take_of_split hsplit
  have horder := before_take_iff hle hi
  rw [hbefore, before_iff, behindBytes, behindBytes] at horder
  rw [before_iff, before_iff, behindBytes]
  dsimp only at horder ⊢
  omega

end Offsets

/-- As many bytes less, as long as they are on the line. -/
theorem behindBytes_take {t : Text} {n : Nat} (h : n ≤ t.lastLine.length) :
    behindBytes (t.take (t.length - n)) = ⟨t.count 10, t.lastLine.length - n⟩ := by
  have hlen := t.length_lastLine_le
  have hsuffix : t.drop (t.length - n) <:+ t.lastLine := by
    refine List.suffix_of_suffix_length_le (List.drop_suffix _ _)
      (List.rtakeWhile_suffix _ t) ?_
    rw [List.length_drop]
    omega
  have hline : 10 ∉ t.drop (t.length - n) :=
    fun hmem => t.not_mem_lastLine (hsuffix.subset hmem)
  have hwhole := behindBytes_append hline (t.take (t.length - n))
  rw [List.take_append_drop, List.length_drop, behindBytes, mk.injEq] at hwhole
  rw [behindBytes, mk.injEq]
  omega

/-- What an editor counts is, in bytes, the position of an earlier offset: earlier by as
much as the line has more bytes than units. -/
theorem behind_eq (before : Text) :
    behind before = behindBytes
      (before.take
      (before.length - (before.lastLine.length - before.lastLine.size16))) := by
  have hle := before.lastLine.size16_le
  rw [behindBytes_take (Nat.sub_le _ _), behind, Nat.sub_sub_self hle]

theorem behind_eq_behindBytes_iff (before : Text) :
    behind before = behindBytes before ↔ before.lastLine.Narrow := by
  rw [behind, behindBytes, mk.injEq, Text.size16_eq_length_iff]
  exact and_iff_right rfl

end EditorPosition

/-! ## Starts of lines -/

theorem lineStartsFrom_append (offset : Nat) (t u : Text) :
    lineStartsFrom offset (t ++ u) =
      lineStartsFrom offset t ++ lineStartsFrom (offset + t.length) u := by
  induction t generalizing offset with
  | nil => rfl
  | cons b t ih =>
      rw [List.cons_append, lineStartsFrom, lineStartsFrom, ih, List.length_cons,
        Nat.add_comm t.length, ← Nat.add_assoc]
      split <;> rfl

theorem lineStarts_append (t u : Text) :
    lineStarts (t ++ u) = lineStarts t ++ lineStartsFrom t.length u := by
  rw [lineStarts, lineStartsFrom_append, Nat.zero_add]
  rfl

/-- A text has a line more than newlines, and the last one starts in front of
`Text.lastLine`. -/
theorem lineStarts_last (t : Text) : ∃ starts, lineStarts t =
    starts ++ [t.length - t.lastLine.length] ∧ starts.length = t.count 10 := by
  induction t using List.reverseRecOn with
  | nil => exact ⟨[], rfl, rfl⟩
  | append_singleton t b ih =>
      obtain ⟨starts, heq, hlen⟩ := ih
      by_cases hb : b = 10
      · subst hb
        refine ⟨lineStarts t, ?_, ?_⟩
        · have hlast : Text.lastLine (t ++ [10]) = [] :=
            List.rtakeWhile_concat_neg _ _ _ (by decide)
          rw [lineStarts_append, hlast, List.length_append]
          rfl
        · rw [heq, List.length_append, hlen, List.count_append]
          rfl
      · have hline : 10 ∉ [b] := fun h => hb (List.mem_singleton.mp h).symm
        refine ⟨starts, ?_, ?_⟩
        · rw [lineStarts_append, heq, lineStartsFrom, if_neg hb, lineStartsFrom,
            List.append_nil, Text.lastLine_append hline, List.length_append,
            List.length_append, Nat.add_sub_add_right]
        · rw [hlen, List.count_append, List.count_eq_zero_of_not_mem hline, Nat.add_zero]

/-- The start of the line on which a text ends, among the lines of a longer one. -/
theorem getElem?_lineStarts (before after : Text) :
    (lineStarts (before ++ after))[before.count 10]? =
      some (before.length - before.lastLine.length) := by
  obtain ⟨starts, heq, hlen⟩ := lineStarts_last before
  rw [lineStarts_append, heq, List.append_assoc, ← hlen,
    List.getElem?_append_right (Nat.le_refl _), Nat.sub_self]
  rfl

theorem lt_of_mem_lineStartsFrom {offset start : Nat} {t : Text}
    (h : start ∈ lineStartsFrom offset t) : offset < start ∧ start ≤ offset + t.length := by
  induction t generalizing offset with
  | nil => cases h
  | cons b t ih =>
      rw [List.length_cons]
      rw [lineStartsFrom] at h
      split at h
      · rcases List.mem_cons.mp h with rfl | h
        · omega
        · have := ih h
          omega
      · have := ih h
        omega

theorem lineAt_eq {offset first last : Nat} {starts later rest : List Nat}
    (heq : first :: rest = starts ++ last :: later)
    (hle : ∀ n ∈ starts ++ [last], n ≤ offset)
    (hlater : ∀ n ∈ later, offset < n) (line : Nat) :
    lineAt offset line first rest = ⟨line + starts.length, offset - last⟩ := by
  induction starts generalizing line first rest with
  | nil =>
      obtain ⟨rfl, rfl⟩ := List.cons.inj heq
      cases rest with
      | nil => rfl
      | cons n rest =>
          rw [lineAt, if_neg (Nat.not_le.mpr (hlater n List.mem_cons_self))]
          rfl
  | cons m starts ih =>
      rw [List.cons_append, List.forall_mem_cons] at hle
      obtain ⟨-, hrest⟩ := List.cons.inj heq
      cases rest with
      | nil => cases starts <;> cases hrest
      | cons n rest =>
          have hn : n ∈ starts ++ [last] := by
            cases starts with
            | nil => exact List.mem_singleton.mpr (List.cons.inj hrest).1
            | cons k starts => exact (List.cons.inj hrest).1 ▸ List.mem_cons_self
          rw [lineAt, if_pos (hle.2 n hn), ih hrest hle.2, List.length_cons]
          congr 1
          omega

theorem le_of_mem_lineStarts {start : Nat} {t : Text} (h : start ∈ lineStarts t) :
    start ≤ t.length := by
  rcases List.mem_cons.mp h with rfl | h
  · exact Nat.zero_le _
  · have := (lt_of_mem_lineStartsFrom h).2
    omega

/-- An offset is found on the line that the newlines before it say, as many bytes on. -/
theorem ofOffset_eq {content : Text} {i : Nat} (h : i ≤ content.length) :
    EditorPosition.ofOffset (lineStarts content) i = .behindBytes (content.take i) := by
  have hlen : (content.take i).length = i := List.length_take_of_le h
  have hwhole := lineStarts_append (content.take i) (content.drop i)
  obtain ⟨starts, heq, hcount⟩ := lineStarts_last (content.take i)
  have hle : ∀ n ∈ starts ++
      [(content.take i).length - (Text.lastLine (content.take i)).length],
      n ≤ i := fun n hn => hlen ▸ le_of_mem_lineStarts (heq ▸ hn)
  have hlast := Text.length_lastLine_le (content.take i)
  rw [List.take_append_drop, heq, hlen, List.append_assoc, List.singleton_append] at hwhole
  rw [hlen] at hle hlast
  rw [EditorPosition.ofOffset, lineStarts, List.drop_one, List.tail_cons,
    lineAt_eq hwhole hle
    (fun n hn => (lt_of_mem_lineStartsFrom hn).1) 0, hcount, EditorPosition.behindBytes,
    Nat.zero_add, Nat.sub_sub_self hlast]

/-! ## Two counts of one position -/

theorem ofPosition_token {content : Text} {t : Token} (h : t ∈ (scan content).tokens) :
    EditorPosition.ofPosition t.pos = .behindBytes (content.take t.offset) := by
  rw [(take_offset h).1, Position.after_start, EditorPosition.ofPosition,
    lineBehind, columnBehind, Nat.add_sub_cancel_left, Nat.add_sub_cancel_left,
    EditorPosition.behindBytes, Text.lastLine, List.rtakeWhile, List.length_reverse]

theorem slice_lastLine {content : Text} {i : Nat} (h : i ≤ content.length) :
    slice content (i - (Text.lastLine (content.take i)).length) i =
      Text.lastLine (content.take i) := by
  have hlast :=
    List.suffix_iff_eq_drop.mp (List.rtakeWhile_suffix (· ≠ 10) (content.take i))
  rw [List.length_take_of_le h] at hlast
  rw [slice, ← List.drop_take]
  exact hlast.symm

/-- The range of a declaration goes from the offset of its keyword to that of its end. -/
theorem declRange_eq {content : Text} {d : Decl} {keyword : Token}
    (hkeyword : keyword ∈ (scan content).tokens) (hpos : d.pos = keyword.pos)
    (hlt : keyword.offset < d.stop) (hstop : d.stop ≤ content.length) :
    Symbol.declRange (lineStarts content) d = .ofBytes content keyword.offset d.stop := by
  have hle := Nat.le_trans (Nat.le_of_lt hlt) hstop
  have hordered : ¬(EditorPosition.behindBytes (content.take d.stop)).before
      (.behindBytes (content.take keyword.offset)) = true := by
    rw [EditorPosition.before_take_iff hstop hle]
    exact Nat.lt_asymm hlt
  rw [Symbol.declRange, hpos, ofPosition_token hkeyword, ofOffset_eq hstop, if_neg hordered,
    EditorRange.ofBytes]

/-- The two counts agree: the line and column that a token was given on the way through
the text are those its offset has among the starts of lines. Every offset up to the end of
the text stands as many characters behind the start of its line, with no newline in
between, and later offsets have later positions. So the range of a declaration, which
begins where its keyword was counted and ends where an offset was looked up, goes from the
offset of the keyword to that of the end. -/
theorem EditorPosition.counts_agree (content : Text) :
    let position (i : Nat) := ofOffset (lineStarts content) i
    (∀ t ∈ (scan content).tokens, ofPosition t.pos = position t.offset) ∧
      (∀ i ≤ content.length, ∃ start,
        (lineStarts content)[(position i).line]? = some start ∧
          start + (position i).character = i ∧ 10 ∉ slice content start i) ∧
      (∀ i ≤ content.length, ∀ j ≤ content.length,
        ((position i).before (position j) = true ↔ i < j)) ∧
      ∀ d ∈ (parse content).file.decls, ∃ keyword ∈ (scan content).tokens,
        d.pos = keyword.pos ∧ keyword.offset < d.stop ∧ d.stop ≤ content.length ∧
          Symbol.declRange (lineStarts content) d =
            ⟨position keyword.offset, position d.stop⟩ := by
  intro position
  have hposition {i : Nat} (h : i ≤ content.length) : position i =
      behindBytes (content.take i) :=
    ofOffset_eq h
  refine ⟨fun t ht => ?_, fun i hi => ?_, fun i hi j hj => ?_, fun d hd => ?_⟩
  · obtain ⟨-, hstop, -⟩ := take_offset ht
    rw [hposition (Nat.le_trans (Nat.le_add_right _ _) hstop), ofPosition_token ht]
  · have hlen : (content.take i).length = i := List.length_take_of_le hi
    have hlast := Text.length_lastLine_le (content.take i)
    have hstart := getElem?_lineStarts (content.take i) (content.drop i)
    rw [List.take_append_drop, hlen] at hstart
    rw [hlen] at hlast
    rw [hposition hi]
    refine ⟨i - (Text.lastLine (content.take i)).length, hstart,
      Nat.sub_add_cancel hlast, ?_⟩
    rw [slice_lastLine hi]
    exact Text.not_mem_lastLine _
  · rw [hposition hi, hposition hj]
    exact before_take_iff hi hj
  · obtain ⟨keyword, hmem, hpos, -, hlt, hstop⟩ := keyword_of_mem_decls hd
    refine ⟨keyword, hmem, hpos, hlt, hstop, ?_⟩
    rw [hposition (Nat.le_trans (Nat.le_of_lt hlt) hstop), hposition hstop,
      declRange_eq hmem hpos hlt hstop, EditorRange.ofBytes]

/-- A declaration behind an attribute whose string goes over two lines. -/
theorem EditorPosition.counts_agree_twoLines :
    let content : Text := "#[doc = \"a\nb\"] struct S;"
    (∃ t ∈ (scan content).tokens, t.pos = ⟨2, 5⟩ ∧ t.offset = 15 ∧
      ofPosition t.pos = ofOffset (lineStarts content) 15) ∧
    (∃ start, (lineStarts content)[(ofOffset (lineStarts content) 15).line]? = some start ∧
      start + (ofOffset (lineStarts content) 15).character = 15 ∧
      10 ∉ slice content start 15) ∧
    (ofOffset (lineStarts content) 10).before (ofOffset (lineStarts content) 11) = true ∧
    ∃ d ∈ (parse content).file.decls, ∃ keyword ∈ (scan content).tokens,
      d.pos = keyword.pos ∧ keyword.offset < d.stop ∧ d.stop ≤ content.length ∧
        Symbol.declRange (lineStarts content) d =
          ⟨ofOffset (lineStarts content) keyword.offset,
            ofOffset (lineStarts content) d.stop⟩ := by
  intro content
  obtain ⟨htokens, hoffsets, hordered, hdecls⟩ := counts_agree content
  have hmem : (⟨.structKw, "struct", .none, ⟨2, 5⟩, 15⟩ : Token) ∈
      (scan content).tokens := by
    decide +kernel
  have hlen : content.length = 24 := by decide +kernel
  have hparsed : (parse content).file.decls = [_] := rfl
  have hd := hparsed ▸ List.mem_singleton.mpr rfl
  refine ⟨⟨_, hmem, rfl, rfl, htokens _ hmem⟩, hoffsets 15 (by omega), ?_, _,
    hd, hdecls _ hd⟩
  exact (hordered 10 (by omega) 11 (by omega)).mpr (by decide)

/-! ## What is sent and what comes in -/

theorem Server.position_inj {p q : EditorPosition} :
    Server.position p = Server.position q ↔ p = q := by
  cases p
  cases q
  simp [Server.position, Json.field]

/-- A token on one line is between the offsets where it begins and ends. -/
theorem ofWidth_token {content : Text} {t : Token} (h : t ∈ (scan content).tokens)
    (hline : 10 ∉ t.lexeme) :
    EditorRange.ofWidth t.pos t.lexeme.length = .ofBytes content t.offset t.stop := by
  have hle : t.offset ≤ t.stop := Nat.le_add_right _ _
  have hstop : content.take t.stop = content.take t.offset ++ t.lexeme := by
    rw [(take_offset h).2.2, ← List.take_add, Nat.add_sub_cancel' hle]
  rw [EditorRange.ofWidth, ofPosition_token h, EditorRange.ofBytes, hstop,
    EditorPosition.behindBytes_append hline]
  rfl

/-- As many bytes behind the start of a line as a position says are in front of a
completion, whether they are on the line or not. -/
theorem complete_counts {s : Session} {uri : Text} {d : Document}
    (hd : s.document uri = .ok d)
    {before after : Text} (h : d.content = before ++ after) (n : Nat) :
    s.complete uri ⟨before.count 10, n⟩ = .ok (Completion.inContext
      (.ofPrefix (d.content.take (before.length - before.lastLine.length + n)))) := by
  rw [Session.complete, hd]
  show Except.ok (Completion.inContext (.ofPosition d.content ⟨before.count 10, n⟩)) = _
  rw [CompletionContext.ofPosition, h, getElem?_lineStarts]

namespace Session

/-- A position is taken for the one behind `before`: that is what a completion looks at,
and a range between two offsets contains the position if `before` ends between them. -/
structure Takes (s : Session) (uri content : Text) (p : EditorPosition) (before : Text) :
    Prop where
  complete : s.complete uri p = .ok (Completion.inContext (.ofPrefix before))
  contains : ∀ i ≤ content.length, ∀ j ≤ content.length,
    ((EditorRange.ofBytes content i j).contains p = true ↔
      i ≤ before.length ∧ before.length ≤ j)

section Incoming

variable {s : Session} {uri : Text} {d : Document} (hd : s.document uri = .ok d)
  {before after : Text} (hsplit : d.content = before ++ after)

include hd hsplit

theorem takes_behindBytes : s.Takes uri d.content (.behindBytes before) before where
  complete := by
    have hlen := before.length_lastLine_le
    rw [EditorPosition.behindBytes, complete_counts hd hsplit,
      Nat.sub_add_cancel hlen, hsplit, List.take_left]
  contains i hi j hj := by
    obtain ⟨hle, hbefore⟩ := Text.take_of_split hsplit
    have h := EditorPosition.contains_iff hi hj hle
    rwa [hbefore] at h

theorem takes_behind : s.Takes uri d.content (.behind before)
    (before.take (before.length - (before.lastLine.length - before.lastLine.size16))) := by
  rw [EditorPosition.behind_eq]
  generalize before.length - (before.lastLine.length - before.lastLine.size16) = k
  have hearlier : d.content = before.take k ++ (before.drop k ++ after) := by
    rw [← List.append_assoc, List.take_append_drop, hsplit]
  exact takes_behindBytes hd hearlier

theorem takes_behind_iff :
    s.Takes uri d.content (.behind before) before ↔ before.lastLine.Narrow := by
  rw [← EditorPosition.behind_eq_behindBytes_iff]
  refine ⟨fun h => ?_, fun h => h ▸ takes_behindBytes hd hsplit⟩
  obtain ⟨hle, -⟩ := Text.take_of_split hsplit
  -- the range from the end of `before` to itself contains no other position
  have hat := (h.contains _ hle _ hle).mpr ⟨Nat.le_refl _, Nat.le_refl _⟩
  have hearlier := ((takes_behind hd hsplit).contains _ hle _ hle).mp hat
  rw [List.length_take] at hearlier
  have hlast := before.length_lastLine_le
  have hsize := before.lastLine.size16_le
  rw [EditorPosition.behind, EditorPosition.behindBytes, EditorPosition.mk.injEq]
  omega

/-- Beyond the end of a line completions count on in the text behind it, and no range that
ends on the line contains the position. So it is not taken for the end of the line. -/
theorem beyond_line (hend : ∀ b ∈ after.head?, b = 10) {n : Nat} (hn : 0 < n) :
    let p : EditorPosition := ⟨before.count 10, before.lastLine.length + n⟩
    s.complete uri p = .ok (Completion.inContext (.ofPrefix (before ++ after.take n))) ∧
      (∀ i ≤ d.content.length, ∀ j ≤ d.content.length,
        ((EditorRange.ofBytes d.content i j).contains p = true ↔
          i ≤ before.length ∧ before.length < j)) ∧
      ¬s.Takes uri d.content p before := by
  intro p
  have hlen := before.length_lastLine_le
  have hcontains : ∀ i ≤ d.content.length, ∀ j ≤ d.content.length,
      ((EditorRange.ofBytes d.content i j).contains p = true ↔
        i ≤ before.length ∧ before.length < j) := by
    intro i hi j hj
    obtain ⟨hstart, -⟩ := EditorPosition.before_beyond_iff hsplit hend hn hi
    obtain ⟨-, hstop⟩ := EditorPosition.before_beyond_iff hsplit hend hn hj
    rw [EditorRange.contains_iff_not_before, EditorRange.ofBytes, hstart, hstop, Nat.not_lt,
      Nat.not_le]
  refine ⟨?_, hcontains, fun h => ?_⟩
  · rw [complete_counts hd hsplit, ← Nat.add_assoc, Nat.sub_add_cancel hlen, hsplit,
      List.take_length_add_append]
  · obtain ⟨hle, -⟩ := Text.take_of_split hsplit
    have hat := (h.contains _ hle _ hle).mpr ⟨Nat.le_refl _, Nat.le_refl _⟩
    exact Nat.lt_irrefl _ ((hcontains _ hle _ hle).mp hat).2

end Incoming

/-- The server counts bytes. The position it sends of a token is what an editor counts
just when no letter in front of the token on its line is wider than a byte. What an editor
counts is taken for an earlier position, earlier by as many bytes as those letters have
more than units, and so for the right one under the same condition. Beyond the end of a
line completions count on in the lines below and symbols that end with the line are not
found; such a position is never taken for the end of the line. A lookup finds a symbol if
the range of one contains the position. -/
theorem positions_in_bytes {s : Session} {uri : Text} {d : Document}
    (hd : s.document uri = .ok d) :
    (∀ t ∈ (scan d.content).tokens,
      Server.position (.ofPosition t.pos) =
          Server.position (.behindBytes (d.content.take t.offset)) ∧
        (Server.position (.ofPosition t.pos) =
            Server.position (.behind (d.content.take t.offset)) ↔
          (Text.lastLine (d.content.take t.offset)).Narrow) ∧
        (10 ∉ t.lexeme →
          EditorRange.ofWidth t.pos t.lexeme.length = .ofBytes d.content t.offset t.stop)) ∧
    (∀ before after : Text, d.content = before ++ after →
      Server.position (.ofOffset (lineStarts d.content) before.length) =
          Server.position (.behindBytes before) ∧
        s.Takes uri d.content (.behindBytes before) before ∧
        s.Takes uri d.content (.behind before)
          (before.take
          (before.length - (before.lastLine.length - before.lastLine.size16))) ∧
        (s.Takes uri d.content (.behind before) before ↔ before.lastLine.Narrow)) ∧
    (∀ before after : Text, d.content = before ++ after →
    (∀ b ∈ after.head?, b = 10) → ∀ n > 0,
      let p : EditorPosition := ⟨before.count 10, before.lastLine.length + n⟩
      s.complete uri p = .ok (Completion.inContext (.ofPrefix (before ++ after.take n))) ∧
        (∀ i ≤ d.content.length, ∀ j ≤ d.content.length,
          ((EditorRange.ofBytes d.content i j).contains p = true ↔
            i ≤ before.length ∧ before.length < j)) ∧
        ¬s.Takes uri d.content p before) ∧
    ∀ p, (s.symbolAt uri p = .ok (d, none) ∧ ∀ x ∈ d.symbols, x.range.contains p = false) ∨
      ∃ x ∈ d.symbols, x.range.contains p = true ∧ s.symbolAt uri p = .ok (d, some x) := by
  refine ⟨fun t ht => ?_, fun before after hsplit => ⟨?_, takes_behindBytes hd hsplit,
    takes_behind hd hsplit, takes_behind_iff hd hsplit⟩,
    fun before after hsplit hend n hn =>
    beyond_line hd hsplit hend hn, fun p => ?_⟩
  · rw [ofPosition_token ht]
    refine ⟨rfl, ?_, ofWidth_token ht⟩
    rw [Server.position_inj, eq_comm, EditorPosition.behind_eq_behindBytes_iff]
  · obtain ⟨hle, hbefore⟩ := Text.take_of_split hsplit
    rw [ofOffset_eq hle, hbefore]
  · have hlookup : s.symbolAt uri p = .ok (d, Symbol.at? d.symbols p) := by
      rw [symbolAt, hd]
      rfl
    rcases Symbol.at?_cases d.symbols p with ⟨hnone, hall⟩ | ⟨x, hmem, hin, hsome⟩
    · exact .inl ⟨by rw [hlookup, hnone], hall⟩
    · exact .inr ⟨x, hmem, hin, by rw [hlookup, hsome]⟩

/-- Behind a comment of wide letters a declaration stands at byte 13, and at unit 10 for an
editor. The server sends the one and takes the other for the tenth byte. -/
theorem positions_in_bytes_wide :
    let d := Document.fresh { support := {} } "file:///a.rs" "/* é😀 */ struct S;" 1
    let s : Session := { options := { support := {} }, documents := [d] }
    s.document "file:///a.rs" = .ok d ∧
      (∃ t ∈ (scan d.content).tokens, t.lexeme = "struct" ∧ t.offset = 13 ∧
        Server.position (.ofPosition t.pos) = Server.position ⟨0, 13⟩ ∧
        Server.position (.ofPosition t.pos) ≠ Server.position ⟨0, 10⟩) ∧
      EditorPosition.behind "/* é😀 */ " = ⟨0, 10⟩ ∧
      s.Takes "file:///a.rs" d.content ⟨0, 10⟩ (d.content.take 10) ∧
      ¬s.Takes "file:///a.rs" d.content ⟨0, 10⟩ (d.content.take 13) := by
  intro d s
  have hd : s.document "file:///a.rs" = .ok d := rfl
  obtain ⟨hsent, htaken, -⟩ := positions_in_bytes hd
  have hmem : (⟨.structKw, "struct", .none, ⟨1, 14⟩, 13⟩ : Token) ∈
      (scan d.content).tokens := by
    decide +kernel
  have hbehind : EditorPosition.behind "/* é😀 */ " = ⟨0, 10⟩ := by decide +kernel
  have hsplit : d.content = ("/* é😀 */ " : Text) ++ ("struct S;" : Text) := by
    decide +kernel
  obtain ⟨hbytes, heditor, -⟩ := hsent _ hmem
  obtain ⟨-, -, hearlier, hexact⟩ := htaken _ _ hsplit
  rw [hbehind] at hearlier hexact
  have hwide : ¬("/* é😀 */ " : Text).lastLine.Narrow := by decide +kernel
  refine ⟨hd, ⟨_, hmem, rfl, rfl, hbytes, ?_⟩, hbehind, hearlier, ?_⟩
  · exact fun heq => hwide (heditor.mp heq)
  · exact fun htakes => hwide (hexact.mp htakes)

end Session

end Deriver
