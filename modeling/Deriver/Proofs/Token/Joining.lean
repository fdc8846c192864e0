import Deriver.Proofs.Token.Lexeme
import Deriver.Proofs.Token.Tiling

/-!
# Texts put one behind the other

Main statements: `pieces_replace` and `tokensAt_shift`. Pieces without faults are
the same whatever follows, as long as it begins with a separator, and the tokens
of a text that stands somewhere in a source are its tokens when it stands alone,
moved by the text in front. So two clean texts with a newline between them have
the tokens of the first and, moved, those of the second.
-/

namespace Deriver

namespace Position

/-- The position in a text that begins at `e` of what would be at `p` in a text by
itself. -/
def shift (e p : Position) : Position :=
  ⟨e.line + (p.line - 1), if p.line = 1 then e.column + (p.column - 1) else p.column⟩

theorem shift_next {e p : Position} (hline : 0 < p.line)
    (hcolumn : 0 < p.column) (b : UInt8) : e.shift (p.next b) = (e.shift p).next b := by
  obtain ⟨line, column⟩ := p
  by_cases hb : b = 10
  · simp only [next, shift, if_pos hb, Position.mk.injEq] at hline ⊢
    rw [if_neg (by omega)]
    omega
  · simp only [next, shift, if_neg hb, Position.mk.injEq, true_and] at hcolumn ⊢
    split <;> omega

theorem after_eq_shift (e : Position) (t : Text) : e.after t = e.shift (start.after t) := by
  induction t using List.reverseRecOn with
  | nil => rfl
  | append_singleton t b ih =>
      have hline : 0 < (start.after t).line := by
        rw [after_start]
        exact Nat.lt_of_lt_of_le Nat.zero_lt_one (Nat.le_add_right 1 _)
      have hcolumn : 0 < (start.after t).column := by
        rw [after_start]
        exact Nat.lt_of_lt_of_le Nat.zero_lt_one (Nat.le_add_right 1 _)
      rw [after_append, ih, after_append, after_cons, after_nil, after_cons, after_nil,
        shift_next hline hcolumn]

end Position

/-- The token with another position, `n` bytes further on. -/
def Token.place (f : Position → Position) (n : Nat) (t : Token) : Token :=
  { t with pos := f t.pos, offset := n + t.offset }

namespace Scan

/-! ## Pieces and what follows them -/

/-- Whether what begins with `s` may stand behind the pieces without changing
them. -/
def Ends (ps : List Piece) (s : Text) : Prop :=
  ∀ c, s.head? = some c → c ∈ separators ∧
    (∀ p b, ps.getLast? = some p → p.text = [b] → glues b c = false) ∧
    (c ≠ 10 → ∀ p, ps.getLast? = some p → ¬ [47, 47] <+: p.text)

theorem Ends.tail {p : Piece} {ps : List Piece} {s : Text} (h : Ends (p :: ps) s) :
    Ends ps s := by
  intro c hc
  obtain ⟨hsep, hglue, hcomment⟩ := h c hc
  have hlast {q : Piece} (hq : ps.getLast? = some q) : (p :: ps).getLast? = some q := by
    rw [List.getLast?_cons, hq]
    rfl
  exact ⟨hsep, fun q b hq => hglue q b (hlast hq),
    fun hne q hq => hcomment hne q (hlast hq)⟩

/-- The first piece of a source, with the bytes behind it. -/
theorem piece_of_cons {s : Text} {p : Piece} {ps : List Piece} (h : pieces s = p :: ps) :
    ∃ b r, s = p.text ++ r ∧ p.text = b :: p.text.tail ∧ p = piece b (p.text.tail ++ r) ∧
      ps = pieces r ∧ (lexeme b (p.text.tail ++ r)).size = p.text.tail.length := by
  cases s with
  | nil => rw [pieces_nil] at h; cases h
  | cons b rest =>
      rw [pieces_cons, List.cons.injEq] at h
      obtain ⟨rfl, rfl⟩ := h
      have hrest : (piece b rest).text.tail ++ rest.drop (lexeme b rest).size = rest :=
        List.take_append_drop _ _
      refine ⟨b, rest.drop (lexeme b rest).size, ?_, rfl, ?_, rfl, ?_⟩
      · change b :: rest = b :: ((piece b rest).text.tail ++ _)
        rw [hrest]
      · rw [hrest]
      · rw [hrest]
        simp only [piece, List.tail_cons, List.length_take]
        rw [Nat.min_eq_left (lexeme_size_le b rest)]

/-- A line comment that something stands behind is followed by a newline. -/
theorem newline_of_comment {u v : Text} {b : UInt8} (hb : b = 47)
    (hu : (u ++ v).head? = some 47)
    (hsize : (lexeme b (u ++ v)).size = u.length) : v.head? = none ∨ v.head? = some 10 := by
  subst hb
  obtain ⟨w, hw⟩ := List.head?_eq_some_iff.mp hu
  have hlen : u.length = 1 + run (· ≠ 10) w := by rw [← hsize, hw]; rfl
  have hv : v = w.dropWhile (· ≠ 10) := by
    have hdrop : (u ++ v).drop u.length = v := List.drop_left
    rw [← drop_run, ← hdrop, hw, hlen, Nat.add_comm, List.drop_succ_cons]
  cases hv' : v with
  | nil => exact Or.inl rfl
  | cons c v =>
      right
      rw [hv] at hv'
      have := List.head?_dropWhile_not (p := (· ≠ 10)) w
      rw [hv'] at this
      simpa using this

/-- Behind a piece and the bytes up to the end of `u` may stand what begins with a
separator, if it may stand behind the pieces where `u` is empty. -/
theorem stops_within {p : Piece} {ps : List Piece} {b : UInt8} {u s s' : Text}
    (htext : p.text = b :: p.text.tail)
    (hsize : (lexeme b (p.text.tail ++ (bytes ps ++ (u ++ s)))).size = p.text.tail.length)
    (hne : ∀ q ∈ ps, q.text ≠ []) (hs : ∀ c, s'.head? = some c → c ∈ separators)
    (hends : u = [] → Ends (p :: ps) s') :
    Stops b (p.text.tail ++ (bytes ps ++ u)) s' := by
  intro c hc
  have hlast (hps : bytes ps = []) : (p :: ps).getLast? = some p := by
    cases ps with
    | nil => rfl
    | cons q ps =>
        rw [bytes_cons, List.append_eq_nil_iff] at hps
        exact absurd hps.1 (hne q (List.mem_cons_self ..))
  refine ⟨hs c hc, fun hnil => ?_, fun h10 h47 hhead => ?_⟩
  · obtain ⟨htail, hrest⟩ := List.append_eq_nil_iff.mp hnil
    obtain ⟨hps, hu⟩ := List.append_eq_nil_iff.mp hrest
    exact (hends hu c hc).2.1 p b (hlast hps) (by rw [htext, htail])
  · have hhead' : (p.text.tail ++ (bytes ps ++ (u ++ s))).head? = some 47 := by
      rw [← List.append_assoc (bytes ps), ← List.append_assoc, List.head?_append, hhead]
      rfl
    cases hbehind : bytes ps ++ u with
    | nil =>
        -- the last piece is no line comment
        obtain ⟨hps, hu⟩ := List.append_eq_nil_iff.mp hbehind
        obtain ⟨w, hw⟩ := List.head?_eq_some_iff.mp hhead
        rw [hbehind, List.append_nil] at hw
        refine absurd ⟨w, ?_⟩ ((hends hu c hc).2.2 h10 p (hlast hps))
        rw [htext, hw, h47]
        rfl
    | cons d t =>
        have hd : (bytes ps ++ (u ++ s)).head? = some d := by
          rw [← List.append_assoc, hbehind]
          rfl
        rcases newline_of_comment h47 hhead' hsize with h | h
        · rw [hd] at h; cases h
        · rw [hd] at h
          cases h
          simp

/-- Pieces without faults stay what they are if other bytes follow, at once or further
on. -/
theorem pieces_within {ps qs : List Piece} {u s s' : Text}
    (h : pieces (bytes ps ++ (u ++ s)) = ps ++ qs) (hclean : ∀ p ∈ ps, p.faults = [])
    (h39 : [39, 39] <:+ bytes ps ++ u → s.head? ≠ some 39)
    (hs : ∀ c, s'.head? = some c → c ∈ separators) (hends : u = [] → Ends ps s') :
    pieces (bytes ps ++ (u ++ s')) = ps ++ pieces (u ++ s') := by
  induction ps with
  | nil => rfl
  | cons p ps ih =>
      have hne : ∀ q ∈ ps, q.text ≠ [] := fun q hq =>
        piece_text_ne_nil (h ▸ List.mem_append_left _ (List.mem_cons_of_mem p hq))
      rw [List.cons_append] at h
      obtain ⟨b, rest, hcut, htext, hp, hqs, hsize⟩ := piece_of_cons h
      obtain rfl : bytes ps ++ (u ++ s) = rest := by
        rw [bytes_cons, List.append_assoc] at hcut
        exact List.append_cancel_left hcut
      have hfaults : (lexeme b (p.text.tail ++ (bytes ps ++ (u ++ s)))).faults = [] := by
        have := hclean p (List.mem_cons_self ..)
        rw [hp] at this
        exact List.map_eq_nil_iff.mp this
      have hstops := stops_within htext hsize hne hs hends
      have hlexeme : lexeme b (p.text.tail ++ (bytes ps ++ (u ++ s')))
          = lexeme b (p.text.tail ++ (bytes ps ++ (u ++ s))) := by
        simp only [← List.append_assoc] at hfaults hsize hstops ⊢
        refine lexeme_replace hfaults ?_ hstops fun hb hr => h39 ?_
        · rw [hsize, List.append_assoc, List.length_append]
          exact Nat.le_add_right _ _
        · have hquotes : bytes (p :: ps) ++ u = [39, 39] := by
            rw [bytes_cons, htext, List.cons_append, List.cons_append, hb, hr]
          exact hquotes ▸ List.suffix_refl _
      have hpiece : piece b (p.text.tail ++ (bytes ps ++ (u ++ s')))
          = piece b (p.text.tail ++ (bytes ps ++ (u ++ s))) := by
        simp only [piece, hlexeme, hfaults, hsize, List.take_left, List.map_nil]
      have htail := ih hqs.symm (fun q hq => hclean q (List.mem_cons_of_mem p hq))
        (fun hsuffix => h39 (hsuffix.trans
          (by rw [bytes_cons, List.append_assoc]; exact List.suffix_append _ _)))
        fun hu => (hends hu).tail
      rw [bytes_cons, List.append_assoc, htext, List.cons_append, pieces_cons,
        hpiece, hlexeme, hsize, List.drop_left, htail, ← hp, List.cons_append]

theorem pieces_replace {ps qs : List Piece} {s s' : Text}
    (h : pieces (bytes ps ++ s) = ps ++ qs)
    (hclean : ∀ p ∈ ps, p.faults = []) (h39 : [39, 39] <:+ bytes ps → s.head? ≠ some 39)
    (hs : Ends ps s') : pieces (bytes ps ++ s') = ps ++ pieces s' :=
  pieces_within (u := []) h hclean (by rwa [List.append_nil])
    (fun c hc => (hs c hc).1) fun _ => hs

/-- A clean text is cut as before if the text behind it begins with a separator
that fits. -/
theorem pieces_append {u s : Text} (h : (scan u).errors = []) (hs : Ends (pieces u) s) :
    pieces (u ++ s) = pieces u ++ pieces s := by
  have hclean : ∀ p ∈ pieces u, p.faults = [] := fun p hp =>
    errorsAt_eq_nil.mp (scan_errors u ▸ h) p hp
  have hwhole : pieces (bytes (pieces u) ++ []) = pieces u ++ [] := by
    rw [bytes_pieces, List.append_nil, List.append_nil]
  have := pieces_replace hwhole hclean (by simp) hs
  rwa [bytes_pieces] at this

theorem ends_newline (ps : List Piece) (t : Text) : Ends ps (10 :: t) := by
  rintro c hc
  cases hc
  refine ⟨by decide, fun p b _ _ => ?_, fun h => absurd rfl h⟩
  simp [glues]

theorem pieces_newline (t : Text) : pieces (10 :: t) = ⟨[10], none, []⟩ :: pieces t := by
  rw [pieces_cons]
  rfl

/-- The piece that a byte of punctuation is. -/
def mark (c : UInt8) (k : TokenKind) : Piece := ⟨[c], some (k, none), []⟩

theorem pieces_mark {c : UInt8} {k : TokenKind} (h : single? c = some k) (t : Text) :
    pieces (c :: t) = mark c k :: pieces t := by
  have hlexeme : lexeme c t = .plain k 0 := by
    unfold lexeme
    rw [h]
  rw [pieces_cons, piece, hlexeme]
  rfl

theorem token_of_comment {s : Text} {p : Piece} (hp : p ∈ pieces s)
    (h : [47, 47] <+: p.text) : p.token = none := by
  obtain ⟨qs, rs, hsplit⟩ := List.append_of_mem hp
  obtain ⟨c, rest, -, rfl, -⟩ := pieces_split hsplit
  obtain ⟨u, hu⟩ := h
  obtain ⟨hc, hrest⟩ := List.cons.inj hu
  obtain ⟨w, rfl⟩ : ∃ w, rest = 47 :: w := by
    have hhead := congrArg List.head? hrest
    rw [List.head?_take] at hhead
    split at hhead
    · cases hhead
    · exact List.head?_eq_some_iff.mp hhead.symm
  rw [← hc]
  rfl

theorem pieces_of_stop {s : Text} {t : Token} (h : t ∈ ownTokens s)
    (hstop : t.stop = s.length) :
    ∃ qs p, pieces s = qs ++ [p] ∧ p.token = some (t.kind, t.value) := by
  obtain ⟨qs, p, rs, hsplit, hp, hl, ho, -⟩ := exists_of_mem_ownTokens h
  have hlen := congrArg List.length (bytes_pieces s)
  rw [hsplit, bytes_append, bytes_cons, List.length_append, List.length_append, ← hstop,
    Token.stop, hl, ho] at hlen
  -- what stands behind the piece of the token has no bytes
  cases rs with
  | nil => exact ⟨qs, p, hsplit, hp⟩
  | cons r rs =>
      have hne := piece_text_ne_nil (s := s) (p := r) (by rw [hsplit]; simp)
      rw [bytes_cons, List.length_append] at hlen
      exact absurd (List.length_eq_zero_iff.mp (by omega)) hne

theorem not_comment_of_stop {s : Text} {t : Token} {p : Piece} (h : t ∈ ownTokens s)
    (hstop : t.stop = s.length) (hp : (pieces s).getLast? = some p) :
    ¬ [47, 47] <+: p.text := by
  obtain ⟨qs, q, hsplit, hq⟩ := pieces_of_stop h hstop
  rw [hsplit, List.getLast?_concat] at hp
  cases hp
  intro hcomment
  rw [token_of_comment (s := s) (by rw [hsplit]; simp) hcomment] at hq
  cases hq

/-! ## Moved tokens -/

theorem tokens_shift (p : Piece) (e : Position) (n : Nat) (t : Text) (m : Nat) :
    p.tokens (e.after t) (n + m) =
    (p.tokens (Position.start.after t) m).map (Token.place e.shift n) := by
  unfold Piece.tokens
  split
  · simp only [List.map_cons, List.map_nil, Token.place, ← Position.after_eq_shift]
  · rfl

theorem tokensAt_shift_after (e : Position) (n : Nat) (t : Text) (m : Nat)
    (ps : List Piece) : tokensAt (e.after t) (n + m) ps =
      (tokensAt (Position.start.after t) m ps).map (Token.place e.shift n) := by
  induction ps generalizing t m with
  | nil => rfl
  | cons p ps ih =>
      rw [tokensAt, tokensAt, List.map_append, tokens_shift, ← Position.after_append,
        ← Position.after_append, Nat.add_assoc, ih]

theorem tokensAt_shift (e : Position) (n : Nat) (ps : List Piece) :
    tokensAt e n ps = (tokensAt .start 0 ps).map (Token.place e.shift n) :=
  tokensAt_shift_after e n [] 0 ps

theorem endToken_shift (e : Position) (n : Nat) (t : Text) :
    endToken (e.after t) (n + t.length) =
      (endToken (Position.start.after t) t.length).place e.shift n := by
  simp only [endToken, Token.place, ← Position.after_eq_shift]

end Scan
end Deriver
