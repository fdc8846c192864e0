import Mathlib.Data.List.Induction
import Deriver.Proofs.Token.Pieces

/-!
# The tokens tile the source

Main statement: `scan_tiled`. Whatever the bytes of a source are, its tokens
stand one behind the other without overlapping, each is the piece of source it
claims to be and knows its line and column, and the last one marks the end. If
nothing is wrong with the source, what lies between the tokens is white space
and comments.

The tokens of a list of pieces are known from the ways to split the list
(`exists_of_mem_tokensAt`), so each part of the statement is a fact about one
piece and the bytes in front of it.
-/

namespace Deriver

/-- The line of the byte behind `t`. -/
def lineBehind (t : Text) : Nat := 1 + t.count 10

/-- The column of the byte behind `t`: one more than the bytes since the last
newline. -/
def columnBehind (t : Text) : Nat := 1 + (t.reverse.takeWhile (· ≠ 10)).length

theorem Position.after_start (t : Text) :
    Position.start.after t = ⟨lineBehind t, columnBehind t⟩ := by
  induction t using List.reverseRecOn with
  | nil => rfl
  | append_singleton t b ih =>
      rw [Position.after_append, ih, Position.after_cons, Position.after_nil, Position.next]
      unfold lineBehind columnBehind
      split
      · next h =>
          subst h
          simp [List.count_append, Nat.add_assoc]
      · next h =>
          have hb : b ≠ 10 := h
          simp [List.count_append, hb, Nat.add_comm]

theorem Position.after_ne {t u : Text} (hu : u ≠ []) :
    Position.start.after (t ++ u) ≠ Position.start.after t := by
  intro h
  rw [after_start, after_start, Position.mk.injEq, lineBehind, lineBehind,
    List.count_append] at h
  have hline : ∀ b ∈ u.reverse, decide (b ≠ 10) = true := by
    intro b hb
    have hcount : u.count 10 = 0 := by omega
    rw [List.count_eq_zero] at hcount
    exact decide_eq_true fun heq => hcount (heq ▸ List.mem_reverse.mp hb)
  have hcolumn := h.2
  rw [columnBehind, columnBehind, List.reverse_append, List.takeWhile_append_of_pos hline,
    List.length_append, List.length_reverse] at hcolumn
  exact hu (List.length_eq_zero_iff.mp (by omega))

namespace Scan

theorem tokensAt_append (pos : Position) (offset : Nat) (ps qs : List Piece) :
    tokensAt pos offset (ps ++ qs) =
      tokensAt pos offset ps ++
        tokensAt (pos.after (bytes ps)) (offset + (bytes ps).length) qs := by
  induction ps generalizing pos offset with
  | nil => simp [tokensAt, bytes_nil, Position.after_nil]
  | cons p ps ih =>
      rw [List.cons_append, tokensAt, tokensAt, ih, bytes_cons, Position.after_append,
        List.length_append, List.append_assoc, Nat.add_assoc]

theorem exists_of_mem_tokensAt {pos : Position} {offset : Nat} {ps : List Piece} {t : Token}
    (h : t ∈ tokensAt pos offset ps) :
    ∃ qs p rs, ps = qs ++ p :: rs ∧ p.token = some (t.kind, t.value) ∧ t.lexeme = p.text ∧
      t.offset = offset + (bytes qs).length ∧ t.pos = pos.after (bytes qs) := by
  induction ps generalizing pos offset with
  | nil => cases h
  | cons p ps ih =>
      rw [tokensAt] at h
      rcases List.mem_append.mp h with hp | hps
      · refine ⟨[], p, ps, rfl, ?_⟩
        unfold Piece.tokens at hp
        split at hp
        · next kind value hv =>
            rw [List.mem_singleton] at hp
            subst hp
            exact ⟨hv, rfl, rfl, rfl⟩
        · cases hp
      · obtain ⟨qs, q, rs, rfl, hv, hl, ho, hpos⟩ := ih hps
        refine ⟨p :: qs, q, rs, rfl, hv, hl, ?_, ?_⟩
        · rw [ho, bytes_cons, List.length_append, Nat.add_assoc]
        · rw [hpos, bytes_cons, Position.after_append]

theorem errorsAt_eq_nil {pos : Position} {ps : List Piece} :
    errorsAt pos ps = [] ↔ ∀ p ∈ ps, p.faults = [] := by
  induction ps generalizing pos with
  | nil => simp [errorsAt]
  | cons q ps ih =>
      rw [errorsAt, List.append_eq_nil_iff, ih, List.forall_mem_cons]
      simp [Piece.errors]

/-- A piece in the middle is the piece that its own bytes and the bytes behind
it begin. -/
theorem pieces_split {s : Text} {qs rs : List Piece} {p : Piece}
    (h : pieces s = qs ++ p :: rs) :
    ∃ b rest, s = bytes qs ++ b :: rest ∧ p = piece b rest ∧
      rs = pieces (rest.drop (lexeme b rest).size) := by
  induction s using pieces_induction generalizing qs with
  | nil => rw [pieces_nil] at h; simp at h
  | cons b rest ih =>
      rw [pieces_cons] at h
      cases qs with
      | nil =>
          rw [List.nil_append, List.cons.injEq] at h
          exact ⟨b, rest, rfl, h.1.symm, h.2.symm⟩
      | cons q qs =>
          rw [List.cons_append, List.cons.injEq] at h
          obtain ⟨rfl, h⟩ := h
          obtain ⟨c, rest', hs, hp, hrs⟩ := ih h
          refine ⟨c, rest', ?_, hp, hrs⟩
          rw [bytes_cons, List.append_assoc, ← hs]
          simp [piece]

theorem exists_piece_at {ps : List Piece} {i : Nat} (h : i < (bytes ps).length) :
    ∃ qs p rs, ps = qs ++ p :: rs ∧ (bytes qs).length ≤ i ∧
      i < (bytes qs).length + p.text.length := by
  induction ps generalizing i with
  | nil => simp [bytes_nil] at h
  | cons p ps ih =>
      by_cases hi : i < p.text.length
      · exact ⟨[], p, ps, rfl, Nat.zero_le _, by simpa [bytes_nil] using hi⟩
      · rw [bytes_cons, List.length_append] at h
        obtain ⟨qs, q, rs, rfl, hlo, hhi⟩ := ih (i := i - p.text.length) (by omega)
        refine ⟨p :: qs, q, rs, rfl, ?_, ?_⟩ <;>
          rw [bytes_cons, List.length_append] <;> omega

theorem tokensAt_bounds {pos : Position} {offset : Nat} {ps : List Piece} {t : Token}
    (h : t ∈ tokensAt pos offset ps) :
    offset ≤ t.offset ∧ t.stop ≤ offset + (bytes ps).length := by
  obtain ⟨qs, p, rs, rfl, -, hl, ho, -⟩ := exists_of_mem_tokensAt h
  rw [Token.stop, hl, ho, bytes_append, bytes_cons]
  simp only [List.length_append]
  omega

theorem tokensAt_pairwise {pos : Position} {offset : Nat} {ps : List Piece}
    (hne : ∀ p ∈ ps, p.text ≠ []) :
    (tokensAt pos offset ps).Pairwise fun t u => t.offset < u.offset ∧
    t.stop ≤ u.offset := by
  induction ps generalizing pos offset with
  | nil => exact List.Pairwise.nil
  | cons p ps ih =>
      rw [tokensAt, List.pairwise_append]
      refine ⟨?_, ih fun q hq => hne q (List.mem_cons_of_mem _ hq), ?_⟩
      · unfold Piece.tokens
        split
        · exact List.pairwise_singleton _ _
        · exact List.Pairwise.nil
      · intro t ht u hu
        have hpos : 0 < p.text.length := List.length_pos_iff.mpr (hne p List.mem_cons_self)
        have hu := (tokensAt_bounds hu).1
        have hstop : t.offset = offset ∧ t.stop = offset + p.text.length := by
          unfold Piece.tokens at ht
          split at ht
          · rw [List.mem_singleton] at ht
            subst ht
            exact ⟨rfl, rfl⟩
          · cases ht
        omega

end Scan

/-! ## The tokens of a source -/

/-- The tokens of a source but for the one that marks the end. -/
def ownTokens (s : Text) : List Token := (scan s).tokens.dropLast

/-- The token that marks the end of a source. -/
def endOf (s : Text) : Token := Scan.endToken (Position.start.after s) s.length

theorem ownTokens_eq (s : Text) : ownTokens s = Scan.tokensAt .start 0 (Scan.pieces s) := by
  rw [ownTokens, scan_tokens, List.dropLast_concat]

theorem scan_tokens_own (s : Text) : (scan s).tokens = ownTokens s ++ [endOf s] := by
  rw [ownTokens_eq, scan_tokens]
  rfl

variable {s : Text} {t : Token}

theorem exists_of_mem_ownTokens (h : t ∈ ownTokens s) :
    ∃ qs p rs, Scan.pieces s = qs ++ p :: rs ∧ p.token = some (t.kind, t.value) ∧
      t.lexeme = p.text ∧ t.offset = (Scan.bytes qs).length ∧
      t.pos = Position.start.after (Scan.bytes qs) := by
  rw [ownTokens_eq] at h
  have := Scan.exists_of_mem_tokensAt h
  simpa only [Nat.zero_add] using this

theorem kind_ne_eof (h : t ∈ ownTokens s) : t.kind ≠ .eof := by
  obtain ⟨qs, p, rs, hsplit, hv, -, -, -⟩ := exists_of_mem_ownTokens h
  obtain ⟨b, rest, -, rfl, -⟩ := Scan.pieces_split hsplit
  exact Scan.lexeme_ne_eof hv

theorem lexeme_ne_nil (h : t ∈ ownTokens s) : t.lexeme ≠ [] := by
  obtain ⟨qs, p, rs, hsplit, -, hl, -, -⟩ := exists_of_mem_ownTokens h
  rw [hl]
  exact Scan.piece_text_ne_nil (by rw [hsplit]; simp)

theorem offset_lt_stop (h : t ∈ ownTokens s) : t.offset < t.stop :=
  Nat.lt_add_of_pos_right (List.length_pos_iff.mpr (lexeme_ne_nil h))

theorem stop_le_length (h : t ∈ ownTokens s) : t.stop ≤ s.length := by
  rw [ownTokens_eq] at h
  have := (Scan.tokensAt_bounds h).2
  rwa [Scan.bytes_pieces, Nat.zero_add] at this

theorem take_offset (h : t ∈ (scan s).tokens) :
    t.pos = Position.start.after (s.take t.offset) ∧ t.stop ≤ s.length ∧
      t.lexeme = (s.drop t.offset).take (t.stop - t.offset) := by
  rw [scan_tokens_own, List.mem_append, List.mem_singleton] at h
  rcases h with h | rfl
  · obtain ⟨qs, p, rs, hsplit, -, hl, ho, hpos⟩ := exists_of_mem_ownTokens h
    have hs : s = Scan.bytes qs ++ (p.text ++ Scan.bytes rs) := by
      rw [← Scan.bytes_cons, ← Scan.bytes_append, ← hsplit, Scan.bytes_pieces]
    refine ⟨?_, stop_le_length h, ?_⟩
    · rw [hpos, ho, hs, List.take_left]
    · rw [Token.stop, hl, ho, Nat.add_sub_cancel_left, hs, List.drop_left, List.take_left]
  · simp [endOf, Scan.endToken, Token.stop]

theorem scan_pairwise (s : Text) :
    (scan s).tokens.Pairwise fun t u => t.offset < u.offset ∧ t.stop ≤ u.offset := by
  rw [scan_tokens_own, List.pairwise_append]
  refine ⟨?_, List.pairwise_singleton _ _, fun t ht u hu => ?_⟩
  · rw [ownTokens_eq]
    exact Scan.tokensAt_pairwise fun p hp => Scan.piece_text_ne_nil hp
  · rw [List.mem_singleton] at hu
    subst hu
    have hstop := stop_le_length ht
    exact ⟨Nat.lt_of_lt_of_le (offset_lt_stop ht) hstop, hstop⟩

/-! ## The statement -/

/-- The bytes of a source from one offset to another. -/
def slice (s : Text) (first stop : Nat) : Text := (s.drop first).take (stop - first)

/-- What may stand between tokens: one byte of white space, a line comment up to
the end of its line, or a block comment. -/
def IsGap (s : Text) (first stop : Nat) : Prop :=
  (∃ b, slice s first stop = [b] ∧ Scan.isSpace b = true) ∨
    (Scan.IsLineComment (slice s first stop) ∧ ∀ c, s[stop]? = some c → c = 10) ∨
    Scan.IsBlockComment (slice s first stop)

/-- How the tokens of a scan cover the source. -/
structure Tiled (s : Text) (r : Scan.Result) : Prop where
  /-- The last token marks the end of the source and no other does; the others
  are not empty. -/
  ends : ∃ ts pos, r.tokens = ts ++ [⟨.eof, [], none, pos, s.length⟩] ∧
    ∀ t ∈ ts, t.kind ≠ .eof ∧ t.lexeme ≠ []
  /-- Of two tokens the later begins behind the start of the earlier, and not
  before its end. -/
  apart : r.tokens.Pairwise fun t u => t.offset < u.offset ∧ t.stop ≤ u.offset
  /-- A token is the piece of source between its offsets. -/
  lexeme : ∀ t ∈ r.tokens, t.stop ≤ s.length ∧ t.lexeme = slice s t.offset t.stop
  /-- Its line and column are those of its first byte. -/
  pos : ∀ t ∈ r.tokens,
    t.pos = ⟨lineBehind (s.take t.offset), columnBehind (s.take t.offset)⟩
  /-- If there is no error, a byte outside all tokens lies in a gap, which no
  token reaches into. -/
  gaps : r.errors = [] → ∀ i < s.length,
    (∃ t ∈ r.tokens, t.offset ≤ i ∧ i < t.stop) ∨
      ∃ first stop, first ≤ i ∧ i < stop ∧ stop ≤ s.length ∧ IsGap s first stop ∧
        ∀ t ∈ r.tokens, t.stop ≤ first ∨ stop ≤ t.offset

namespace Scan

theorem isGap_of_piece {s : Text} {qs rs : List Piece} {p : Piece}
    (h : pieces s = qs ++ p :: rs) (htoken : p.token = none) (hfaults : p.faults = []) :
    IsGap s (bytes qs).length ((bytes qs).length + p.text.length) := by
  obtain ⟨b, rest, hs, rfl, -⟩ := pieces_split h
  have htext : slice s (bytes qs).length ((bytes qs).length + (piece b rest).text.length)
      = (piece b rest).text := by
    rw [slice, hs, List.drop_left, Nat.add_sub_cancel_left]
    simp [piece, List.take_take]
  unfold IsGap
  rw [htext]
  rcases gap_of_lexeme htoken (List.map_eq_nil_iff.mp hfaults) with
    ⟨hspace, hsize⟩ | ⟨hline, hend⟩ | hblock
  · exact .inl ⟨b, by simp [piece, hsize], hspace⟩
  · refine .inr (.inl ⟨hline, fun c hc => hend c ?_⟩)
    rw [← hc, hs, List.getElem?_append_right (Nat.le_add_right _ _),
      Nat.add_sub_cancel_left, List.head?_drop]
    simp only [piece, List.length_cons, List.length_take, List.getElem?_cons_succ]
    by_cases hle : (lexeme b rest).size ≤ rest.length
    · rw [Nat.min_eq_left hle]
    · rw [Nat.min_eq_right (by omega), List.getElem?_eq_none (by omega),
        List.getElem?_eq_none (Nat.le_refl _)]
  · exact .inr (.inr hblock)

theorem gaps_of_pieces {s : Text} (h : errorsAt .start (pieces s) = []) {i : Nat}
    (hi : i < s.length) :
    (∃ t ∈ tokensAt .start 0 (pieces s), t.offset ≤ i ∧ i < t.stop) ∨
      ∃ first stop, first ≤ i ∧ i < stop ∧ stop ≤ s.length ∧ IsGap s first stop ∧
        ∀ t ∈ tokensAt .start 0 (pieces s), t.stop ≤ first ∨ stop ≤ t.offset := by
  have hlen : i < (bytes (pieces s)).length := by rw [bytes_pieces]; exact hi
  obtain ⟨qs, p, rs, hsplit, hlo, hhi⟩ := exists_piece_at hlen
  have htokens : tokensAt .start 0 (pieces s) =
      tokensAt .start 0 qs ++
        (p.tokens (Position.start.after (bytes qs)) (bytes qs).length ++
        tokensAt ((Position.start.after (bytes qs)).after p.text)
          ((bytes qs).length + p.text.length) rs) := by
    rw [hsplit, tokensAt_append, tokensAt, Nat.zero_add]
  rw [htokens]
  cases hp : p.token with
  | some found =>
      refine .inl ⟨⟨found.1, p.text, found.2, Position.start.after (bytes qs),
        (bytes qs).length⟩, ?_, hlo, hhi⟩
      refine List.mem_append_right _ (List.mem_append_left _ ?_)
      unfold Piece.tokens
      rw [hp]
      exact List.mem_singleton.mpr rfl
  | none =>
      have hfaults : p.faults = [] := errorsAt_eq_nil.mp h p (by simp [hsplit])
      refine .inr ⟨_, _, hlo, hhi, ?_, isGap_of_piece hsplit hp hfaults, ?_⟩
      · rw [← bytes_pieces s, hsplit, bytes_append, bytes_cons]
        simp only [List.length_append]
        omega
      · intro t ht
        have hnone : p.tokens (Position.start.after (bytes qs)) (bytes qs).length = [] := by
          unfold Piece.tokens
          rw [hp]
        rw [hnone, List.nil_append] at ht
        rcases List.mem_append.mp ht with hq | hr
        · have := (tokensAt_bounds hq).2
          exact .inl (by omega)
        · exact .inr (tokensAt_bounds hr).1

end Scan

theorem eq_of_pos {us vs : List Token} (hus : us <:+ (scan s).tokens)
    (hvs : vs <:+ (scan s).tokens) (hne : us ≠ []) (hne' : vs ≠ [])
    (h : (us.headD Token.none).pos = (vs.headD Token.none).pos) : us = vs := by
  wlog hsub : us <:+ vs generalizing us vs
  · have hsub' := (List.suffix_or_suffix_of_suffix hus hvs).resolve_left hsub
    exact (this hvs hus hne' hne h.symm hsub').symm
  obtain ⟨ws, rfl⟩ := hsub
  cases ws with
  | nil => rfl
  | cons w ws =>
      exfalso
      obtain ⟨u, us, rfl⟩ := List.exists_cons_of_ne_nil hne
      have hpairs := (scan_pairwise s).sublist hvs.sublist
      have hlt := (List.rel_of_pairwise_cons hpairs
        (List.mem_append_right ws (List.mem_cons_self ..))).1
      obtain ⟨hw, -, -⟩ := take_offset (hvs.subset (List.mem_cons_self ..))
      obtain ⟨hu, hstop, -⟩ := take_offset (hus.subset (List.mem_cons_self ..))
      have hle : u.offset ≤ s.length := Nat.le_trans (Nat.le_add_right _ _) hstop
      have hsplit : s.take u.offset = s.take w.offset ++
          (s.drop w.offset).take (u.offset - w.offset) := by
        rw [← List.take_add, Nat.add_sub_cancel' (Nat.le_of_lt hlt)]
      refine Position.after_ne (t := s.take w.offset)
        (u := (s.drop w.offset).take (u.offset - w.offset)) ?_ ?_
      · intro hnil
        have hlen := congrArg List.length hnil
        rw [List.length_take, List.length_drop, List.length_nil] at hlen
        omega
      · rw [← hsplit, ← hu, ← hw]
        exact h

/-- A scan tiles its source, whatever the bytes are. -/
theorem scan_tiled (s : Text) : Tiled s (scan s) := by
  refine ⟨⟨ownTokens s, _, scan_tokens_own s, ?_⟩, scan_pairwise s, ?_, ?_, ?_⟩
  · exact fun t ht => ⟨kind_ne_eof ht, lexeme_ne_nil ht⟩
  · exact fun t ht => (take_offset ht).2
  · intro t ht
    rw [← Position.after_start]
    exact (take_offset ht).1
  · intro herr i hi
    rw [scan_errors] at herr
    rw [scan_tokens_own, ownTokens_eq]
    rcases Scan.gaps_of_pieces herr hi with ⟨t, ht, hcover⟩ | ⟨first, stop, h⟩
    · exact .inl ⟨t, List.mem_append_left _ ht, hcover⟩
    · obtain ⟨hlo, hhi, hstop, hgap, hfree⟩ := h
      refine .inr ⟨first, stop, hlo, hhi, hstop, hgap, fun t ht => ?_⟩
      rcases List.mem_append.mp ht with ht | ht
      · exact hfree t ht
      · rw [List.mem_singleton] at ht
        subst ht
        exact .inr hstop

end Deriver
