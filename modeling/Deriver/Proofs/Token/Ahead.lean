import Deriver.Proofs.Parse.Forward
import Deriver.Proofs.Token.Fragment

/-!
# What is left of a source

A text that is left of a source is followed by its tokens, each in its place: `ahead`.
`Next` says which token comes next in such a text and what is left behind it, blanks
aside. That is a matter of the text alone; `Next.ahead` puts it in its place.
-/

namespace Deriver

open Scan

/-- The tokens of a source from where `y` is left of it. -/
def ahead (source y : Text) : List Token :=
  tokensAt (Position.start.after (source.take (source.length - y.length)))
    (source.length - y.length) (pieces y) ++ [endOf source]

/-- The number of tokens of a text, the end included. -/
def sizeAhead (y : Text) : Nat := (tokensAt .start 0 (pieces y)).length + 1

/-- Whether nothing in a text is a lexical error. -/
def Faultless (y : Text) : Prop := ∀ p ∈ pieces y, p.faults = []

/-- The first token of `y` is `w`, of the kind `k`, and `s` is left behind it, up to
blanks. -/
inductive Next : Text → TokenKind → Text → Text → Prop where
  | here {k : TokenKind} {w s : Text} (h : Lexes k w s) : Next (w ++ s) k w s
  | before {k : TokenKind} {y w s : Text} (h : Next y k w s) : Next (32 :: y) k w s
  | behind {k : TokenKind} {y w s : Text} (h : Next y k w (32 :: s)) : Next y k w s

variable {source s w y : Text} {k : TokenKind}

theorem faultless_iff : Faultless y ↔ (scan y).errors = [] := by
  rw [scan_errors, errorsAt_eq_nil]
  rfl

theorem ahead_self : ahead source source = (scan source).tokens := by
  rw [scan_tokens_own, ownTokens_eq, ahead, Nat.sub_self]
  rfl

theorem ahead_append (pre y : Text) :
    ahead (pre ++ y) y =
      tokensAt (Position.start.after pre) pre.length (pieces y) ++ [endOf (pre ++ y)] := by
  rw [ahead, List.length_append, Nat.add_sub_cancel, List.take_left]

theorem ended_ahead (source y : Text) : Parse.Ended (ahead source y) :=
  ⟨endOf source, List.getLast?_concat, rfl⟩

theorem length_tokensAt {pos pos' : Position} {offset offset' : Nat} {ps : List Piece} :
    (tokensAt pos offset ps).length = (tokensAt pos' offset' ps).length := by
  rw [tokensAt_shift pos, tokensAt_shift pos', List.length_map, List.length_map]

theorem length_ahead (source y : Text) : (ahead source y).length = sizeAhead y := by
  rw [ahead, List.length_append, length_tokensAt, sizeAhead]
  rfl

/-! ## Blanks -/

theorem pieces_blank (s : Text) : pieces (32 :: s) = ⟨[32], none, []⟩ :: pieces s := by
  rw [pieces_cons]
  rfl

theorem sizeAhead_blank (s : Text) : sizeAhead (32 :: s) = sizeAhead s := by
  rw [sizeAhead, pieces_blank, tokensAt_gap rfl, length_tokensAt]
  rfl

theorem ahead_blank (h : 32 :: s <:+ source) : ahead source (32 :: s) = ahead source s := by
  obtain ⟨pre, rfl⟩ := h
  rw [ahead_append, pieces_blank, tokensAt_gap rfl, ← Position.after_append]
  rw [show pre ++ 32 :: s = (pre ++ [32]) ++ s by simp, ahead_append, List.length_append]

theorem faultless_blank (h : Faultless s) : Faultless (32 :: s) := by
  rw [Faultless, pieces_blank]
  exact List.forall_mem_cons.mpr ⟨rfl, h⟩

/-! ## The next token -/

namespace Lexes

theorem sizeAhead (h : Lexes k w s) :
    Deriver.sizeAhead (w ++ s) = Deriver.sizeAhead s + 1 := by
  obtain ⟨v, hv⟩ := h
  rw [Deriver.sizeAhead, hv, tokensAt_token rfl, List.length_cons, length_tokensAt]
  rfl

theorem ahead (h : Lexes k w s) (hsub : w ++ s <:+ source) :
    ∃ t, t.kind = k ∧ t.lexeme = w ∧ Deriver.ahead source (w ++ s) =
      t :: Deriver.ahead source s := by
  obtain ⟨pre, rfl⟩ := hsub
  obtain ⟨v, hv⟩ := h
  refine ⟨⟨k, w, v, Position.start.after pre, pre.length⟩, rfl, rfl, ?_⟩
  rw [ahead_append, hv, tokensAt_token rfl, ← Position.after_append, ← List.append_assoc,
    ahead_append, List.length_append]
  rfl

theorem faultless (h : Lexes k w s) (hs : Faultless s) : Faultless (w ++ s) := by
  obtain ⟨v, hv⟩ := h
  rw [Faultless, hv]
  exact List.forall_mem_cons.mpr ⟨rfl, hs⟩

end Lexes

namespace Next

theorem suffix (h : Next y k w s) : s <:+ y := by
  induction h with
  | here => exact List.suffix_append _ _
  | before _ ih => exact ih.trans (List.suffix_cons _ _)
  | behind _ ih => exact (List.suffix_cons _ _).trans ih

theorem faultless (h : Next y k w s) : Faultless s → Faultless y := by
  induction h with
  | here h => exact h.faultless
  | before _ ih => exact fun hs => faultless_blank (ih hs)
  | behind _ ih => exact fun hs => ih (faultless_blank hs)

theorem sizeAhead (h : Next y k w s) : Deriver.sizeAhead y = Deriver.sizeAhead s + 1 := by
  induction h with
  | here h => exact h.sizeAhead
  | before _ ih => rw [sizeAhead_blank, ih]
  | behind _ ih => rw [ih, sizeAhead_blank]

theorem ne_eof (h : Next y k w s) : k ≠ .eof := by
  induction h with
  | @here k w s h =>
      obtain ⟨v, hv⟩ := h
      refine kind_ne_eof (s := w ++ s) (t := ⟨k, w, v, .start, 0⟩) ?_
      rw [ownTokens_eq, hv, tokensAt_token rfl]
      exact List.mem_cons_self ..
  | before _ ih | behind _ ih => exact ih

theorem ahead (h : Next y k w s) (hsub : y <:+ source) :
    ∃ t, t.kind = k ∧ t.lexeme = w ∧ Deriver.ahead source y =
    t :: Deriver.ahead source s := by
  induction h with
  | here h => exact h.ahead hsub
  | before _ ih =>
      rw [ahead_blank hsub]
      exact ih ((List.suffix_cons _ _).trans hsub)
  | behind h ih =>
      rw [← ahead_blank (h.suffix.trans hsub)]
      exact ih hsub

theorem kindOf (h : Next y k w s) (hsub : y <:+ source) :
    Parse.kindOf (Deriver.ahead source y) 0 = k := by
  obtain ⟨t, hk, -, hahead⟩ := h.ahead hsub
  rw [hahead]
  exact hk

end Next

/-! ## Words and marks -/

/-- Whether a text begins with a byte that no word takes in. -/
def Separated (y : Text) : Prop := ∃ c t, y = c :: t ∧ c ∈ separators

theorem next_word (h : Word k w) (hk : k.isWord = true) (hy : Separated y) :
    Next (w ++ y) k w y := by
  obtain ⟨c, t, rfl, hc⟩ := hy
  exact .here (h.lexes (h.fits hk hc))

theorem next_spaced (h : Word k w) (hk : k.isWord = true) (y : Text) :
    Next (w ++ (" " ++ y)) k w y :=
  .behind (next_word h hk ⟨32, y, rfl, by decide⟩)

theorem next_mark {c : UInt8} (h : single? c = some k) (y : Text) : Next (c :: y) k [c] y :=
  .here (lexes_mark h y)

section

variable (y : Text)

theorem next_lparen : Next ("(" ++ y) .lparen "(" y := next_mark rfl y
theorem next_rparen : Next (")" ++ y) .rparen ")" y := next_mark rfl y
theorem next_lbracket : Next ("[" ++ y) .lbracket "[" y := next_mark rfl y
theorem next_rbracket : Next ("]" ++ y) .rbracket "]" y := next_mark rfl y
theorem next_lt : Next ("<" ++ y) .lt "<" y := next_mark rfl y
theorem next_gt : Next (">" ++ y) .gt ">" y := next_mark rfl y
theorem next_star : Next ("*" ++ y) .star "*" y := next_mark rfl y
theorem next_question : Next ("?" ++ y) .question "?" y := next_mark rfl y
theorem next_comma : Next (", " ++ y) .comma "," y := .behind (next_mark rfl (32 :: y))
theorem next_semicolon : Next ("; " ++ y) .semicolon ";" y :=
  .behind (next_mark rfl (32 :: y))
theorem next_plus : Next (" + " ++ y) .plus "+" y :=
  .before (.behind (next_mark rfl (32 :: y)))

theorem next_colons : Next ("::" ++ y) .doubleColon "::" y := .here (lexes_colons y)
theorem next_dots : Next ("..." ++ y) .dotDot "..." y := .here (lexes_dots y)
theorem next_amps : Next ("&&" ++ y) .doubleAmp "&&" y := .here (lexes_amps y)

theorem next_arrow : Next (" -> " ++ y) .arrow "->" y :=
  .before (.behind (.here (lexes_arrow (32 :: y))))

theorem next_colon : Next (": " ++ y) .colon ":" y :=
  .behind (.here (w := ":") ⟨none, pieces_cons 58 (32 :: y)⟩)

theorem next_equals : Next (" = " ++ y) .equals "=" y :=
  .before (.behind (.here (w := "=") ⟨none, pieces_cons 61 (32 :: y)⟩))

theorem next_mut : Next ("mut " ++ y) .mutKw "mut" y :=
  .behind (.here (w := "mut") ⟨none, pieces_cons 109 (117 :: 116 :: 32 :: y)⟩)

theorem next_const : Next ("const " ++ y) .constKw "const" y :=
  .behind (.here (w := "const")
    ⟨none, pieces_cons 99 (111 :: 110 :: 115 :: 116 :: 32 :: y)⟩)

theorem next_dyn : Next ("dyn " ++ y) .dynKw "dyn" y :=
  .behind (.here (w := "dyn") ⟨none, pieces_cons 100 (121 :: 110 :: 32 :: y)⟩)

theorem next_impl : Next ("impl " ++ y) .implKw "impl" y :=
  .behind (.here (w := "impl") ⟨none, pieces_cons 105 (109 :: 112 :: 108 :: 32 :: y)⟩)

theorem next_as : Next (" as " ++ y) .asKw "as" y :=
  .before (.behind (.here (w := "as") ⟨none, pieces_cons 97 (115 :: 32 :: y)⟩))

theorem next_for : Next ("for<" ++ y) .forKw "for" ("<" ++ y) :=
  .here (w := "for") ⟨none, pieces_cons 102 (111 :: 114 :: 60 :: y)⟩

theorem next_unsafeKw : Next ("unsafe " ++ y) .unsafeKw "unsafe" y :=
  .behind (.here (w := "unsafe")
    ⟨none, pieces_cons 117 (110 :: 115 :: 97 :: 102 :: 101 :: 32 :: y)⟩)

theorem next_extern : Next ("extern " ++ y) .externKw "extern" y :=
  .behind (.here (w := "extern")
    ⟨none, pieces_cons 101 (120 :: 116 :: 101 :: 114 :: 110 :: 32 :: y)⟩)

theorem next_fn : Next ("fn(" ++ y) .fnKw "fn" ("(" ++ y) :=
  .here (w := "fn") ⟨none, pieces_cons 102 (110 :: 40 :: y)⟩

end

theorem next_amp (h : y.head? ≠ some 38) : Next ("&" ++ y) .amp "&" y := .here (lexes_amp h)

theorem next_bang (h : Separated y) : Next ("!" ++ y) .bang "!" y := by
  obtain ⟨c, t, rfl, hc⟩ := h
  refine .here (w := "!") ⟨none, ?_⟩
  change pieces (33 :: c :: t) = _
  rw [pieces_cons, piece, lexeme_pair (by decide : (33, 61, .notEq, .bang) ∈ pairs), if_neg]
  · rfl
  · rintro ⟨⟩
    exact absurd hc (by decide)

theorem next_infer (h : Separated y) : Next ("_" ++ y) .ident "_" y :=
  next_word ⟨none, (pieces_cons 95 []).trans (congrArg _ pieces_nil)⟩ rfl h

/-! ## Names among the tokens -/

/-- Whether tokens of a kind are names: identifiers, with the reserved words that can
stand in a path, and lifetimes. -/
def TokenKind.isName (k : TokenKind) : Bool := Parse.isPathIdent k || k == .lifetime

namespace Scan

/-- The name that a piece is, if it is one. -/
def Piece.name? (p : Piece) : Option Text :=
  p.token.bind fun (k, _) => if k.isName then some p.text else none

end Scan

theorem TokenKind.isWord_of_isName {k : TokenKind} (h : k.isName = true) :
    k.isWord = true := by
  cases k <;> first | rfl | cases h

/-- The names among the tokens of a text. -/
def nameTokens (x : Text) : List Text :=
  ((ownTokens x).filter (·.kind.isName)).map (·.lexeme)

theorem nameTokens_pieces (x : Text) : nameTokens x = (pieces x).filterMap Piece.name? := by
  have hall (pos : Position) (offset : Nat) (ps : List Piece) :
      ((tokensAt pos offset ps).filter (·.kind.isName)).map (·.lexeme) =
        ps.filterMap Piece.name? := by
    induction ps generalizing pos offset with
    | nil => rfl
    | cons p ps ih =>
        cases hp : p.token with
        | none => rw [tokensAt_gap hp, ih, List.filterMap_cons, Piece.name?, hp]; rfl
        | some kv =>
            obtain ⟨k, v⟩ := kv
            rw [tokensAt_token hp, List.filterMap_cons, Piece.name?, hp, Option.bind_some]
            cases hk : k.isName <;> simp [hk, ih]
  rw [nameTokens, ownTokens_eq, hall]

@[simp] theorem nameTokens_nil : nameTokens [] = [] := by
  rw [nameTokens_pieces, pieces_nil]
  rfl

theorem point_of_glues {b c : UInt8} (h : glues b c = true) : b ∈ points := by
  simp only [glues, Bool.or_eq_true, Bool.and_eq_true, beq_iff_eq] at h
  rcases h with ⟨-, rfl | rfl⟩ | ⟨-, rfl⟩ <;> decide

theorem Word.nameTokens (h : Word k w) : nameTokens w = if k.isName then [w] else [] := by
  obtain ⟨v, hown⟩ := h.ownTokens
  rw [Deriver.nameTokens, hown]
  cases hk : k.isName <;> simp [hk]

end Deriver
