import Deriver.Proofs.Text.Basic
import Deriver.Proofs.Token.Ending
import Deriver.Proofs.Token.Joining

/-!
# Fragments of a source

Main statements: `pieces_of_mem` and `exists_solid`. A token of a source without
lexical errors is that token also by itself, and the text from one token of it to
another has the tokens that the source has there. Such a text keeps them wherever
it is written, as long as what follows begins with a separator that it does not
form a longer token with (`Fits`).
-/

namespace Deriver

open Scan

/-- A text that is one token of a kind. -/
def Word (k : TokenKind) (w : Text) : Prop := ∃ v, pieces w = [⟨w, some (k, v), []⟩]

/-- Whether `s` may stand behind a text that ends with a token. -/
def Fits (x s : Text) : Prop :=
  ∃ c t, s = c :: t ∧ c ∈ separators ∧ ∀ b, x.getLast? = some b → glues b c = false

/-- Whether `w` is read as a token of a kind when `s` stands behind it. -/
def Lexes (k : TokenKind) (w s : Text) : Prop :=
  ∃ v, pieces (w ++ s) = ⟨w, some (k, v), []⟩ :: pieces s

variable {s x w : Text} {k : TokenKind} {t : Token}

/-- A text that is one piece, a token without faults, is scanned as that token. -/
theorem scan_of_pieces {v : Option Literal} (h : pieces w = [⟨w, some (k, v), []⟩]) :
    scan w = ⟨[⟨k, w, v, .start, 0⟩, endOf w], []⟩ := by
  have htokens : (scan w).tokens = [⟨k, w, v, .start, 0⟩, endOf w] := by
    rw [scan_tokens_own, ownTokens_eq, h]
    rfl
  have herrors : (scan w).errors = [] := by
    rw [scan_errors, h]
    rfl
  rw [← htokens, ← herrors]

/-! ## What stands behind a token -/

theorem pieces_fit (hx : (scan x).errors = [])
    (hlast : ∃ t ∈ ownTokens x, t.stop = x.length)
    (hs : Fits x s) : pieces (x ++ s) = pieces x ++ pieces s := by
  obtain ⟨t, ht, hstop⟩ := hlast
  obtain ⟨c, u, rfl, hsep, hglue⟩ := hs
  refine pieces_append hx ?_
  rintro _ ⟨⟩
  refine ⟨hsep, fun p b hp hb => hglue b ?_, fun _ p hp => not_comment_of_stop ht hstop hp⟩
  obtain ⟨qs, hqs⟩ := List.getLast?_eq_some_iff.mp hp
  rw [← bytes_pieces x, hqs, bytes_append, bytes_cons, hb, bytes_nil, List.append_nil,
    List.getLast?_concat]

theorem Word.ownTokens (h : Word k w) : ∃ v, ownTokens w = [⟨k, w, v, .start, 0⟩] := by
  obtain ⟨v, hw⟩ := h
  exact ⟨v, by rw [ownTokens_eq, hw]; rfl⟩

theorem Word.clean (h : Word k w) : (scan w).errors = [] := by
  obtain ⟨v, hw⟩ := h
  rw [scan_errors, hw]
  rfl

theorem Word.lexes (h : Word k w) (hs : Fits w s) : Lexes k w s := by
  obtain ⟨v, hown⟩ := h.ownTokens
  have hcut :=
    pieces_fit h.clean ⟨_, by rw [hown]; exact List.mem_singleton_self _, Nat.zero_add _⟩ hs
  obtain ⟨v, hw⟩ := h
  exact ⟨v, by rw [hcut, hw]; rfl⟩

theorem Word.cons (h : Word k w) : ∃ b u v, w = b :: u ∧ (lexeme b u).token = some (k, v) ∧
    (lexeme b u).size = u.length := by
  obtain ⟨v, hw⟩ := h
  obtain ⟨b, r, hr, htext, hp, -, hsize⟩ := piece_of_cons hw
  obtain rfl : r = [] := List.self_eq_append_right.mp hr
  rw [List.append_nil] at hp hsize
  refine ⟨b, w.tail, v, htext, ?_, hsize⟩
  have htoken := congrArg Piece.token hp
  exact htoken.symm

theorem Word.lasts (h : Word k w) {c : UInt8} (hc : w.getLast? = some c) :
    lasts k c = true := by
  obtain ⟨b, u, v, rfl, htoken, hsize⟩ := h.cons
  refine lasts_of_lexeme b u k v htoken c ?_
  rwa [hsize, List.take_length]

theorem Word.fits (h : Word k w) (hk : k.isWord = true) {c : UInt8} (hc : c ∈ separators) :
    Fits w (c :: s) := by
  refine ⟨c, s, rfl, hc, fun b hb => ?_⟩
  have hb := not_point_of_lasts hk (h.lasts hb)
  have hne {d : UInt8} (hd : d ∈ points) : (b == d) = false := by
    rw [beq_eq_false_iff_ne]
    rintro rfl
    exact hb hd
  simp [glues, hne (d := 45) (by decide), hne (d := 61) (by decide),
    hne (d := 58) (by decide)]

/-! ## Marks -/

theorem lexes_mark {c : UInt8} (h : single? c = some k) (s : Text) : Lexes k [c] s :=
  ⟨none, pieces_mark h s⟩

theorem lexes_colons (s : Text) : Lexes .doubleColon "::" s :=
  ⟨none, pieces_cons 58 (58 :: s)⟩

theorem lexes_arrow (s : Text) : Lexes .arrow "->" s := ⟨none, pieces_cons 45 (62 :: s)⟩

theorem lexes_amps (s : Text) : Lexes .doubleAmp "&&" s := ⟨none, pieces_cons 38 (38 :: s)⟩

theorem lexes_dots (s : Text) : Lexes .dotDot "..." s :=
  ⟨none, pieces_cons 46 (46 :: 46 :: s)⟩

theorem lexes_amp (h : s.head? ≠ some 38) : Lexes .amp "&" s := by
  refine ⟨none, ?_⟩
  change pieces (38 :: s) = _
  rw [pieces_cons, piece, lexeme_pair (by decide : (38, 38, .doubleAmp, .amp) ∈ pairs),
    if_neg h]
  rfl

/-! ## Pieces and the tokens in them -/

namespace Scan

variable {pos : Position} {offset : Nat} {ps qs rs : List Piece}
  {vs us : List Token} {t : Token}

theorem tokensAt_token {q : Piece} {k : TokenKind} {v : Option Literal}
    (h : q.token = some (k, v)) : tokensAt pos offset (q :: rs) =
      ⟨k, q.text, v, pos, offset⟩ :: tokensAt (pos.after q.text)
      (offset + q.text.length) rs := by
  rw [tokensAt, Piece.tokens, h]
  rfl

theorem tokensAt_gap {q : Piece} (h : q.token = none) :
    tokensAt pos offset (q :: rs) = tokensAt (pos.after q.text)
    (offset + q.text.length) rs := by
  rw [tokensAt, Piece.tokens, h]
  rfl

theorem pieces_of_suffix (h : t :: us <:+ tokensAt pos offset ps) :
    ∃ qs q rs, ps = qs ++ q :: rs ∧ q.token = some (t.kind, t.value) ∧
      t :: us = tokensAt (pos.after (bytes qs)) (offset + (bytes qs).length) (q :: rs) := by
  induction ps generalizing pos offset with
  | nil => simp [tokensAt] at h
  | cons p ps ih =>
      -- the piece is passed over, unless the tokens begin with it
      have hlater (h : t :: us <:+ tokensAt (pos.after p.text)
          (offset + p.text.length) ps) :
          ∃ qs q rs, p :: ps = qs ++ q :: rs ∧ q.token = some (t.kind, t.value) ∧
            t :: us = tokensAt (pos.after (bytes qs)) (offset + (bytes qs).length)
              (q :: rs) := by
        obtain ⟨qs, q, rs, rfl, hq, htokens⟩ := ih h
        refine ⟨p :: qs, q, rs, rfl, hq, ?_⟩
        rw [htokens, bytes_cons, Position.after_append, List.length_append, Nat.add_assoc]
      cases hp : p.token with
      | none => exact hlater (tokensAt_gap hp ▸ h)
      | some kv =>
          rw [tokensAt_token hp, List.suffix_cons_iff] at h
          rcases h with h | h
          · refine ⟨[], p, ps, rfl, ?_, ?_⟩
            · rw [(List.cons.inj h).1, hp]
            · rw [h]
              exact (tokensAt_token hp).symm
          · exact hlater h

/-- The pieces up to the last of some tokens, and the tokens behind it. -/
theorem split_tokensAt (h : tokensAt pos offset ps = vs ++ us) (hvs : vs ≠ []) :
    ∃ qs q rs kv, ps = qs ++ q :: rs ∧ q.token = some kv ∧
    tokensAt pos offset (qs ++ [q]) = vs ∧
      ∃ pos' offset', tokensAt pos' offset' rs = us := by
  induction ps generalizing pos offset vs with
  | nil => exact absurd (List.append_eq_nil_iff.mp h.symm).1 hvs
  | cons p ps ih =>
      cases hp : p.token with
      | none =>
          rw [tokensAt_gap hp] at h
          obtain ⟨qs, q, rs, kv, rfl, hq, htokens, hrest⟩ := ih h hvs
          exact ⟨p :: qs, q, rs, kv, rfl, hq, by
            rw [List.cons_append, tokensAt_gap hp, htokens], hrest⟩
      | some kv =>
          obtain ⟨k, v⟩ := kv
          rw [tokensAt_token hp] at h
          obtain ⟨t, vs, rfl⟩ := List.exists_cons_of_ne_nil hvs
          obtain ⟨rfl, htail⟩ := List.cons.inj h
          cases vs with
          | nil => exact ⟨[], p, ps, _, rfl, hp, tokensAt_token hp, _, _, htail⟩
          | cons t vs =>
              obtain ⟨qs, q, rs, kv, rfl, hq, htokens, hrest⟩ :=
                ih htail (List.cons_ne_nil _ _)
              refine ⟨p :: qs, q, rs, kv, rfl, hq, ?_, hrest⟩
              rw [List.cons_append, tokensAt_token hp, htokens]

/-- What is left of the pieces of a source are the pieces of what is left. -/
theorem pieces_behind {s : Text} (h : pieces s = qs ++ rs) : pieces (bytes rs) = rs := by
  induction qs generalizing s with
  | nil => rw [← List.nil_append rs, ← h, bytes_pieces]
  | cons q qs ih =>
      cases s with
      | nil => rw [pieces_nil] at h; cases h
      | cons b rest =>
          rw [pieces_cons] at h
          exact ih (List.cons.inj h).2

theorem lasts_of_piece {s : Text} {p : Piece} {k : TokenKind}
    {v : Option Literal} {c : UInt8}
    (hp : p ∈ pieces s) (htoken : p.token = some (k, v)) (hc : p.text.getLast? = some c) :
    lasts k c = true := by
  obtain ⟨qs, rs, hsplit⟩ := List.append_of_mem hp
  obtain ⟨b, rest, -, rfl, -⟩ := pieces_split hsplit
  exact lasts_of_lexeme b rest k v htoken c hc

theorem getLast?_bytes {p : Piece} (h : p.text ≠ []) :
    (bytes (qs ++ [p])).getLast? = p.text.getLast? := by
  rw [bytes_append, bytes_cons, bytes_nil, List.append_nil, List.getLast?_append,
    List.getLast?_eq_some_getLast h]
  rfl

/-- What a quote begins is a character or a lifetime, or something is wrong with it. -/
theorem quote_kind {rest : Text} (hf : (quote rest).faults = []) :
    ∃ k v, (quote rest).token = some (k, v) ∧ (k = .char ∨ k = .lifetime) := by
  have hlit {u : Text} (h : (charLiteral u).faults = []) :
      ∃ k v, (charLiteral u).token = some (k, v) ∧ (k = .char ∨ k = .lifetime) := by
    simp only [charLiteral] at h ⊢
    split at h
    · exact ⟨_, _, rfl, Or.inl rfl⟩
    · simp at h
  cases rest with
  | nil => cases hf
  | cons x t =>
      by_cases hx : x = 92
      · subst hx
        exact hlit (u := 92 :: t) hf
      · rw [quote_cons t hx] at hf ⊢
        split
        · next h39 =>
            rw [if_pos h39] at hf
            exact hlit hf
        · next h39 =>
            rw [if_neg h39] at hf
            split
            · next ch hch =>
                simp only [hch] at hf
                split
                · exact ⟨_, _, rfl, Or.inr rfl⟩
                · next hletter =>
                    rw [if_neg hletter] at hf
                    cases hf
            · next hch =>
                simp only [hch] at hf
                cases hf

end Scan

/-! ## Fragments of a clean source -/

/-- A text that begins and ends with a token and has no lexical errors. -/
structure Solid (x : Text) : Prop where
  clean : (scan x).errors = []
  first : ∃ t us, ownTokens x = t :: us ∧ t.offset = 0
  last : ∃ us t, ownTokens x = us ++ [t] ∧ t.stop = x.length

theorem Word.solid (h : Word k w) : Solid w := by
  obtain ⟨v, hown⟩ := h.ownTokens
  exact ⟨h.clean, ⟨_, [], hown, rfl⟩, [], _, hown, Nat.zero_add _⟩

theorem Solid.pieces_append (h : Solid x) (hs : Fits x s) :
    pieces (x ++ s) = pieces x ++ pieces s := by
  obtain ⟨us, t, hown, hstop⟩ := h.last
  exact pieces_fit h.clean ⟨t, by rw [hown]; simp, hstop⟩ hs

theorem Solid.ne_nil (h : Solid x) : x ≠ [] := by
  rintro rfl
  obtain ⟨t, us, hown, -⟩ := h.first
  cases hown

theorem Solid.head_not_blank (h : Solid x) {c : UInt8} (hc : x.head? = some c) :
    c ∉ Text.blankBytes := by
  obtain ⟨t, us, hown, hoffset⟩ := h.first
  obtain ⟨qs, p, rs, hsplit, htoken, -, ho, -⟩ :=
    exists_of_mem_ownTokens (s := x) (t := t) (by rw [hown]; exact List.mem_cons_self ..)
  -- nothing stands in front of the piece of the token
  have hqs : bytes qs = [] := List.length_eq_zero_iff.mp (ho ▸ hoffset)
  obtain ⟨b, rest, hx, rfl, -⟩ := pieces_split hsplit
  rw [hqs, List.nil_append] at hx
  rw [hx, List.head?_cons, Option.some.injEq] at hc
  intro hblank
  have hnone := token_of_blank hblank rest
  rw [← hc] at hnone
  exact absurd (hnone.symm.trans htoken) nofun

theorem Solid.last_not_blank (h : Solid x) {c : UInt8} (hc : x.getLast? = some c) :
    c ∉ Text.blankBytes := by
  obtain ⟨us, t, hown, hstop⟩ := h.last
  obtain ⟨qs, p, hsplit, htoken⟩ := pieces_of_stop (t := t) (by rw [hown]; simp) hstop
  have hmem : p ∈ pieces x := by rw [hsplit]; simp
  refine not_blank_of_lasts (lasts_of_piece hmem htoken ?_)
  rw [← hc, ← bytes_pieces x, hsplit, getLast?_bytes (piece_text_ne_nil hmem)]

/-- The piece that a token is. -/
def Token.piece (t : Token) : Piece := ⟨t.lexeme, some (t.kind, t.value), []⟩

/-- A token of a source without errors is that token by itself. Two quotes are left out:
they are a character in front of a third one only. -/
theorem pieces_of_mem (hs : (scan s).errors = []) (ht : t ∈ ownTokens s)
    (hquotes : t.lexeme ≠ "''") : pieces t.lexeme = [t.piece] := by
  obtain ⟨qs, p, rs, hsplit, htoken, htext, -, -⟩ := exists_of_mem_ownTokens ht
  have hclean : p.faults = [] :=
    errorsAt_eq_nil.mp (scan_errors s ▸ hs) p (by rw [hsplit]; simp)
  obtain ⟨b, r, -, hcons, hp, -, hsize⟩ := piece_of_cons (pieces_behind hsplit)
  have hfaults : (lexeme b (p.text.tail ++ r)).faults = [] := by
    rw [hp] at hclean
    exact List.map_eq_nil_iff.mp hclean
  have halone : lexeme b p.text.tail = lexeme b (p.text.tail ++ r) := by
    rw [← List.append_nil p.text.tail, List.append_assoc]
    refine lexeme_replace hfaults (Nat.le_of_eq hsize) nofun fun hb htail =>
      absurd ?_ hquotes
    rw [htext, hcons, hb, htail]
    rfl
  have hpiece : piece b p.text.tail = p := by
    refine Eq.trans ?_ hp.symm
    simp only [piece, halone, hfaults, hsize, List.take_left,
      List.take_length, List.map_nil]
  rw [Token.piece, htext, ← htoken, ← hclean]
  conv_lhs => rw [hcons]
  rw [pieces_cons, hpiece, halone, hsize, List.drop_length, pieces_nil]

theorem word_of_mem (hs : (scan s).errors = []) (ht : t ∈ ownTokens s)
    (hk : t.kind ≠ .char) : Word t.kind t.lexeme := by
  refine ⟨t.value, pieces_of_mem hs ht fun hquotes => hk ?_⟩
  obtain ⟨qs, p, rs, hsplit, htoken, htext, -, -⟩ := exists_of_mem_ownTokens ht
  -- only a character ends with a quote
  refine char_of_lasts (lasts_of_piece (s := s) (by rw [hsplit]; simp) htoken ?_)
  rw [← htext, hquotes]
  rfl

theorem Solid.of_pieces {ps : List Piece} {q p : Piece} {rs : List Piece}
    {kv kv' : TokenKind × Option Literal}
    (hx : pieces (bytes (ps ++ [p])) = ps ++ [p]) (hclean : ∀ r ∈ ps ++ [p], r.faults = [])
    (hfirst : ps ++ [p] = q :: rs) (hq : q.token = some kv) (hp : p.token = some kv') :
    Solid (bytes (ps ++ [p])) := by
  refine ⟨?_, ?_, ?_⟩
  · rw [scan_errors, hx]
    exact errorsAt_eq_nil.mpr hclean
  · rw [ownTokens_eq, hx, hfirst, tokensAt_token (k := kv.1) (v := kv.2) hq]
    exact ⟨_, _, rfl, rfl⟩
  · rw [ownTokens_eq, hx, tokensAt_append, tokensAt_token (k := kv'.1) (v := kv'.2) hp]
    refine ⟨_, _, rfl, ?_⟩
    rw [bytes_append, List.length_append, bytes_cons, bytes_nil,
      List.append_nil, Token.stop, Nat.zero_add]

/-- The text from one token of a clean source to another one. No quote must stand
behind a character, since it might belong to it. -/
theorem exists_solid {vs us : List Token} (hs : (scan s).errors = [])
    (hown : vs ++ us <:+ ownTokens s) (hvs : vs ≠ [])
    (hquote : ∀ t u, vs.getLast? = some t → us.head? = some u → t.kind = .char →
      u.kind ≠ .char ∧ u.kind ≠ .lifetime) :
    ∃ pre x post, Solid x ∧ s = pre ++ (x ++ post) ∧
      vs = (ownTokens x).map (Token.place (Position.start.after pre).shift pre.length) := by
  -- the pieces from the first token on, and in them those up to the last
  obtain ⟨t, vs', rfl⟩ := List.exists_cons_of_ne_nil hvs
  rw [ownTokens_eq] at hown
  obtain ⟨qs, q, rs, hpieces, hq, htokens⟩ := pieces_of_suffix hown
  obtain ⟨ps, p, post, kv, hsplit, hp, hvs', pos, offset, hpost⟩ :=
    split_tokensAt htokens.symm hvs
  have hwhole : pieces s = qs ++ ((ps ++ [p]) ++ post) := by rw [hpieces, hsplit]; simp
  have hclean : ∀ r ∈ pieces s, r.faults = [] := errorsAt_eq_nil.mp (scan_errors s ▸ hs)
  rw [hwhole] at hclean
  have hin : ∀ r ∈ ps ++ [p], r.faults = [] := fun r hr =>
    hclean r (List.mem_append_right _ (List.mem_append_left _ hr))
  have hbehind := pieces_behind hwhole
  rw [bytes_append] at hbehind
  have hx : pieces (bytes (ps ++ [p]) ++ []) = ps ++ [p] ++ pieces [] := by
    refine pieces_replace hbehind hin (fun ⟨w, hw⟩ h39 => ?_) nofun
    -- the last token would be a character, and a quote behind it would begin another one
    have hchar : kv.1 = .char := by
      have hmem : p ∈ pieces s := by rw [hwhole]; simp
      refine char_of_lasts (lasts_of_piece hmem hp ?_)
      rw [← getLast?_bytes (piece_text_ne_nil hmem), ← hw, List.getLast?_append]
      rfl
    obtain ⟨u, hu⟩ := List.head?_eq_some_iff.mp h39
    have hrest := pieces_behind (hwhole.trans (List.append_assoc ..).symm)
    rw [hu, pieces_cons] at hrest
    have hf : (piece 39 u).faults = [] := hclean _ (by rw [← hrest]; simp)
    have hquoted : (quote u).faults = [] := List.map_eq_nil_iff.mp hf
    obtain ⟨k, v, hk, hkv⟩ := quote_kind hquoted
    rw [← hrest, tokensAt_token (k := k) (v := v) hk] at hpost
    obtain ⟨t', hlast, hkind⟩ : ∃ t', (t :: vs').getLast? = some t' ∧ t'.kind = kv.1 := by
      rw [← hvs', tokensAt_append, tokensAt_token (k := kv.1) (v := kv.2) hp]
      exact ⟨_, List.getLast?_concat, rfl⟩
    have := hquote t' _ hlast (by rw [← hpost]; rfl) (hkind.trans hchar)
    tauto
  rw [List.append_nil, pieces_nil, List.append_nil] at hx
  have hfirst : ∃ r, ps ++ [p] = q :: r := by
    cases ps with
    | nil => exact ⟨[], by rw [(List.cons.inj hsplit).1]; rfl⟩
    | cons r ps => exact ⟨ps ++ [p], by rw [(List.cons.inj hsplit).1]; rfl⟩
  obtain ⟨r, hr⟩ := hfirst
  refine ⟨bytes qs, bytes (ps ++ [p]), bytes post, ?_, ?_, ?_⟩
  · exact .of_pieces hx hin hr hq hp
  · rw [← bytes_append, ← bytes_append, ← hwhole, bytes_pieces]
  · rw [← hvs', Nat.zero_add, tokensAt_shift, ownTokens_eq, hx]

end Deriver

/-!
## Tokens written apart

Main statement: `scan_spaced`. The lexemes of a clean source with a blank or a newline
between neighbours are its tokens again. What stood between two of them decided
nothing: a token is itself alone (`pieces_of_mem`), and white space behind it leaves it as
it is. Two quotes are the exception. They are a character in front of a third quote
only, and the white space takes it from them.
-/

namespace Deriver

open Scan

/-- What a token says, wherever it stands. -/
def Token.content (t : Token) : TokenKind × Text × Option Literal :=
  (t.kind, t.lexeme, t.value)

namespace Scan

/-- A byte of white space that stands between tokens written apart. -/
def Spaces (c : UInt8) : Prop := c = 32 ∨ c = 10

/-- The piece that one byte of white space is. -/
def gap (c : UInt8) : Piece := ⟨[c], none, []⟩

variable {c : UInt8} {t : Token} {ts : List Token} {z : Text}

theorem pieces_gap (hc : Spaces c) (y : Text) : pieces (c :: y) = gap c :: pieces y := by
  rw [pieces_cons]
  rcases hc with rfl | rfl <;> rfl

theorem fits_gap (hc : Spaces c) (x y : Text) : Fits x (c :: y) := by
  refine ⟨c, y, rfl, ?_, fun b _ => ?_⟩
  · rcases hc with rfl | rfl <;> decide
  · rcases hc with rfl | rfl <;> simp [glues]

theorem pieces_word_gap (hc : Spaces c) (h : pieces t.lexeme = [t.piece]) (y : Text) :
    pieces (t.lexeme ++ c :: y) = t.piece :: gap c :: pieces y := by
  have hword : Word t.kind t.lexeme := ⟨t.value, h⟩
  rw [hword.solid.pieces_append (fits_gap hc _ _), h, pieces_gap hc]
  rfl

/-- Tokens written apart are cut between them. `z` is what may stand behind the last one. -/
theorem pieces_join (hc : Spaces c) (h : ∀ t ∈ ts, pieces t.lexeme = [t.piece])
    (hz : z = [] ∨ z = [c]) :
    pieces (Text.join [c] (ts.map (·.lexeme)) ++ z) =
      (ts.map Token.piece).intersperse (gap c) ++ pieces z := by
  induction ts with
  | nil => rfl
  | cons t ts ih =>
      have ht := h t (List.mem_cons_self ..)
      cases ts with
      | nil =>
          simp only [List.map_cons, List.map_nil, Text.join]
          rcases hz with rfl | rfl
          · rw [List.append_nil, ht, pieces_nil]
            rfl
          · rw [pieces_word_gap hc ht, pieces_gap hc]
            rfl
      | cons u ts =>
          have hrest := ih fun v hv => h v (List.mem_cons_of_mem t hv)
          simp only [List.map_cons, Text.join, List.append_assoc] at hrest ⊢
          rw [List.singleton_append, pieces_word_gap hc ht, hrest]
          rfl

theorem clean_intersperse {p : Piece} (h : p ∈ (ts.map Token.piece).intersperse (gap c)) :
    p.faults = [] := by
  induction ts with
  | nil => cases h
  | cons t ts ih =>
      cases ts with
      | nil =>
          rw [List.mem_singleton.mp h]
          rfl
      | cons u ts =>
          change p ∈ t.piece :: gap c :: _ at h
          rcases List.mem_cons.mp h with rfl | h
          · rfl
          · rcases List.mem_cons.mp h with rfl | h
            · rfl
            · exact ih h

theorem content_intersperse {pos : Position} {offset : Nat} :
    (tokensAt pos offset ((ts.map Token.piece).intersperse (gap c))).map Token.content =
      ts.map Token.content := by
  induction ts generalizing pos offset with
  | nil => rfl
  | cons t ts ih =>
      cases ts with
      | nil => rfl
      | cons u ts =>
          change (tokensAt pos offset (t.piece :: gap c :: _)).map _ = _
          rw [tokensAt_token rfl, tokensAt_gap rfl, List.map_cons]
          exact congrArg _ ih

theorem yields_nothing (hc : Spaces c) (hz : z = [] ∨ z = [c]) (pos : Position)
    (offset : Nat) :
    tokensAt pos offset (pieces z) = [] ∧ ∀ p ∈ pieces z, p.faults = [] := by
  rcases hz with rfl | rfl
  · rw [pieces_nil]
    exact ⟨rfl, List.forall_mem_nil _⟩
  · rw [pieces_gap hc, pieces_nil]
    refine ⟨?_, fun p hp => ?_⟩
    · rw [tokensAt_gap (q := gap c) rfl]
      rfl
    · rw [List.mem_singleton.mp hp]
      rfl

/-- Tokens that are themselves alone are themselves when written apart. -/
theorem scan_words (hc : Spaces c) (h : ∀ t ∈ ts, pieces t.lexeme = [t.piece])
    (hz : z = [] ∨ z = [c]) :
    (scan (Text.join [c] (ts.map (·.lexeme)) ++ z)).errors = [] ∧
      (scan (Text.join [c] (ts.map (·.lexeme)) ++ z)).tokens.map Token.content =
        ts.map Token.content ++ [(.eof, [], none)] := by
  have hend := yields_nothing hc hz
  rw [scan_errors, scan_tokens, pieces_join hc h hz, errorsAt_eq_nil, tokensAt_append,
    (hend _ _).1, List.append_nil, List.map_append, content_intersperse]
  refine ⟨fun p hp => ?_, rfl⟩
  rcases List.mem_append.mp hp with hp | hp
  · exact clean_intersperse hp
  · exact (hend .start 0).2 p hp

/-- The end of a source has no lexeme; written apart from the last token, it leaves the
separator. -/
theorem join_end (c : UInt8) (ts : List Text) :
    ∃ z, (z = [] ∨ z = [c]) ∧ Text.join [c] (ts ++ [[]]) = Text.join [c] ts ++ z := by
  induction ts using Text.join.induct with
  | case1 => exact ⟨[], .inl rfl, rfl⟩
  | case2 t => exact ⟨[c], .inr rfl, by simp [Text.join]⟩
  | case3 t u ts ih =>
      obtain ⟨z, hz, hjoin⟩ := ih
      refine ⟨z, hz, ?_⟩
      simp only [List.cons_append, Text.join, List.append_assoc] at hjoin ⊢
      rw [hjoin]

end Scan

/-- The tokens of a clean source, written apart, are the tokens of what is written, with
or without the one that marks the end. -/
theorem scan_spaced {s sep : Text} (hs : (scan s).errors = [])
    (hquotes : ∀ t ∈ (scan s).tokens, t.lexeme ≠ "''") (hsep : sep = " " ∨ sep = "\n") :
    ∀ ts, ts = (scan s).tokens ∨ ts = ownTokens s →
      (scan (Text.join sep (ts.map (·.lexeme)))).errors = [] ∧
        (scan (Text.join sep (ts.map (·.lexeme)))).tokens.map Token.content =
          (scan s).tokens.map Token.content := by
  obtain ⟨c, hc, rfl⟩ : ∃ c, Spaces c ∧ sep = [c] := by
    rcases hsep with rfl | rfl
    · exact ⟨32, .inl rfl, rfl⟩
    · exact ⟨10, .inr rfl, rfl⟩
  have hwords : ∀ t ∈ ownTokens s, pieces t.lexeme = [t.piece] := fun t ht =>
    pieces_of_mem hs ht (hquotes t (scan_tokens_own s ▸ List.mem_append_left _ ht))
  have hcontent : (scan s).tokens.map Token.content =
      (ownTokens s).map Token.content ++ [(.eof, [], none)] := by
    rw [scan_tokens_own, List.map_append]
    rfl
  rw [hcontent]
  rintro ts (rfl | rfl)
  · obtain ⟨z, hz, hjoin⟩ := join_end c ((ownTokens s).map (·.lexeme))
    have hlexemes : (scan s).tokens.map (·.lexeme) =
        (ownTokens s).map (·.lexeme) ++ [[]] := by
      rw [scan_tokens_own, List.map_append]
      rfl
    rw [hlexemes, hjoin]
    exact scan_words hc hwords hz
  · have hscan := scan_words hc hwords (.inl rfl)
    rwa [List.append_nil] at hscan

/-- A lifetime, characters, a range between numbers, a raw string, a raw name and a method
on a number, with comments for white space. -/
theorem scan_spaced_tight :
    let s : Text :=
    "'a='b'..'\\''/*c*/0..2.5e3f32 1.max(r#\"q\"#,r#type)b'x'\"\\u\x7b41\x7d\"//!"
    (scan s).errors = [] ∧ (∀ t ∈ (scan s).tokens, t.lexeme ≠ "''") ∧
      (scan s).tokens.length = 19 ∧
      (scan (Text.join "\n" ((scan s).tokens.map (·.lexeme)))).tokens.map Token.content =
        (scan s).tokens.map Token.content := by
  intro s
  have hs : (scan s).errors = [] := by decide
  have hquotes : ∀ t ∈ (scan s).tokens, t.lexeme ≠ "''" := by decide
  exact ⟨hs, hquotes, by decide, (scan_spaced hs hquotes (.inr rfl) _ (.inl rfl)).2⟩

/-- Two quotes take the third one for a character, and are none without it. -/
example : (scan "'''a").errors = [] ∧
    (scan (Text.join " " ((scan "'''a").tokens.map (·.lexeme)))).errors ≠ [] := by decide

end Deriver
