import Deriver.Token.Scan
import Mathlib.Data.List.Basic

/-!
# A scan is a list of pieces, each in its place

`scanLoop` counts bytes: it walks the source one byte at a time and looks for a
lexeme whenever the last one is used up. Seen from outside, it cuts the source
into pieces, one for each lexeme, and then gives every piece the position and
offset at which it begins. The two halves are separated here. `pieces` cuts,
`tokensAt` and `errorsAt` count, and `scan_tokens` and `scan_errors` say that
together they are the scan.

What a token is depends on the cut alone, where it stands on the count alone.
Everything said later of tokens, of the gaps between them and of texts put one
behind the other is a statement about the list of pieces.
-/

namespace Deriver

namespace Position

theorem after_nil (p : Position) : p.after [] = p := rfl

theorem after_cons (p : Position) (b : UInt8) (t : Text) :
    p.after (b :: t) = (p.next b).after t := rfl

theorem after_append (p : Position) (t u : Text) :
    p.after (t ++ u) = (p.after t).after u := List.foldl_append

end Position

namespace Scan

/-- One lexeme of a source: the bytes it takes, the token it is, if any, and its
faults, each with the bytes that its message shows. -/
structure Piece where
  text : Text
  token : Option (TokenKind × Option Literal)
  faults : List (Fault × Text)

/-- The piece that a byte and the bytes behind it begin. -/
def piece (b : UInt8) (rest : Text) : Piece :=
  let found := lexeme b rest
  ⟨b :: rest.take found.size, found.token,
    found.faults.map fun (fault, n) => (fault, (b :: rest.take n).take 20)⟩

/-- The pieces of a source, one for each lexeme. -/
def pieces : Text → List Piece
  | [] => []
  | b :: rest => piece b rest :: pieces (rest.drop (lexeme b rest).size)
termination_by s => s.length
decreasing_by simp only [List.length_drop, List.length_cons]; omega

/-- The token of a piece that begins at a position and offset, if it is one. -/
def Piece.tokens (p : Piece) (pos : Position) (offset : Nat) : List Token :=
  match p.token with
  | some (kind, value) => [⟨kind, p.text, value, pos, offset⟩]
  | none => []

/-- The errors of a piece that begins at a position. -/
def Piece.errors (p : Piece) (pos : Position) : List LexError :=
  p.faults.map fun (fault, shown) => ⟨fault, pos, shown⟩

/-- The tokens of pieces that follow each other from a position and offset on. -/
def tokensAt : Position → Nat → List Piece → List Token
  | _, _, [] => []
  | pos, offset, p :: ps =>
      p.tokens pos offset ++ tokensAt (pos.after p.text) (offset + p.text.length) ps

/-- The errors of pieces that follow each other from a position on. -/
def errorsAt : Position → List Piece → List LexError
  | _, [] => []
  | pos, p :: ps => p.errors pos ++ errorsAt (pos.after p.text) ps

/-- The token that marks the end of a source. -/
def endToken (pos : Position) (offset : Nat) : Token := ⟨.eof, [], none, pos, offset⟩

/-- The bytes of the pieces, one after the other. -/
def bytes (ps : List Piece) : Text := (ps.map (·.text)).flatten

theorem bytes_nil : bytes [] = [] := rfl

theorem bytes_cons (p : Piece) (ps : List Piece) :
    bytes (p :: ps) = p.text ++ bytes ps := by simp [bytes]

theorem bytes_append (ps qs : List Piece) :
    bytes (ps ++ qs) = bytes ps ++ bytes qs := by simp [bytes]

theorem pieces_nil : pieces [] = [] := by rw [pieces]

theorem pieces_cons (b : UInt8) (rest : Text) :
    pieces (b :: rest) = piece b rest :: pieces (rest.drop (lexeme b rest).size) := by
  rw [pieces]

theorem pieces_induction {motive : Text → Prop} (nil : motive [])
    (cons : ∀ b rest, motive (rest.drop (lexeme b rest).size) → motive (b :: rest)) :
    ∀ s, motive s
  | [] => nil
  | b :: rest => cons b rest (pieces_induction nil cons (rest.drop (lexeme b rest).size))
termination_by s => s.length
decreasing_by simp only [List.length_drop, List.length_cons]; omega

theorem bytes_pieces (s : Text) : bytes (pieces s) = s := by
  induction s using pieces_induction with
  | nil => rw [pieces_nil, bytes_nil]
  | cons b rest ih =>
      rw [pieces_cons, bytes_cons, ih]
      simp only [piece, List.cons_append, List.take_append_drop]

theorem piece_text_ne_nil {s : Text} {p : Piece} (h : p ∈ pieces s) : p.text ≠ [] := by
  induction s using pieces_induction with
  | nil => rw [pieces_nil] at h; cases h
  | cons b rest ih =>
      rw [pieces_cons] at h
      rcases List.mem_cons.mp h with rfl | hmem
      · exact List.cons_ne_nil _ _
      · exact ih hmem

/-- Passing over the rest of a lexeme moves the position and nothing else. -/
theorem scanLoop_skip (skip : Nat) (pos : Position) (offset : Nat) (s : Text) :
    scanLoop skip pos offset s =
      scanLoop 0 (pos.after (s.take skip)) (offset + (s.take skip).length)
      (s.drop skip) := by
  induction skip generalizing pos offset s with
  | zero => simp [Position.after_nil]
  | succ n ih =>
      cases s with
      | nil => simp [scanLoop, Position.after_nil]
      | cons b rest =>
          rw [scanLoop, ih]
          simp only [List.take_succ_cons, List.drop_succ_cons, List.length_cons,
            Position.after_cons]
          congr 1
          omega

theorem scanLoop_eq (pos : Position) (offset : Nat) (s : Text) :
    scanLoop 0 pos offset s =
      ⟨tokensAt pos offset (pieces s) ++ [endToken (pos.after s) (offset + s.length)],
        errorsAt pos (pieces s)⟩ := by
  induction s using pieces_induction generalizing pos offset with
  | nil => rw [pieces_nil]; rfl
  | cons b rest ih =>
      have hsplit : b :: rest =
          (piece b rest).text ++ rest.drop (lexeme b rest).size := by simp [piece]
      have hlen := congrArg List.length hsplit
      rw [List.length_append] at hlen
      have hoff : offset + 1 + (rest.take (lexeme b rest).size).length
          = offset + (piece b rest).text.length := by
        simp only [piece, List.length_cons]; omega
      rw [pieces_cons, scanLoop, scanLoop_skip, hoff]
      rw [show (pos.next b).after (rest.take (lexeme b rest).size)
          = pos.after (piece b rest).text from rfl, ih, tokensAt, errorsAt]
      rw [← Position.after_append, ← hsplit, Nat.add_assoc, ← hlen, List.append_assoc]
      simp only [Piece.errors, Piece.tokens, piece, List.map_map]
      cases (lexeme b rest).token <;> rfl

end Scan

theorem scan_tokens (s : Text) :
    (scan s).tokens =
      Scan.tokensAt .start 0 (Scan.pieces s) ++
        [Scan.endToken (Position.start.after s) s.length] := by
  rw [scan, Scan.scanLoop_eq, Nat.zero_add]

theorem scan_errors (s : Text) :
    (scan s).errors = Scan.errorsAt .start (Scan.pieces s) := by
  rw [scan, Scan.scanLoop_eq]

end Deriver

/-!
## What a lexeme yields

Every scanner of the table either yields a token or complains. The only pieces
of source that do neither are white space and complete comments, which is what
makes the gaps between the tokens of a clean scan harmless. The table is gone
through once here; `lexeme_yields` is the summary the rest relies on.

A comment is described without the scanner. A line comment is two slashes and
bytes other than a newline. The inside of a block comment is read as a count of
open comments, by `Closes`, which goes up at a slash and a star, down at a star
and a slash, and has to reach zero at the very last byte.
-/

namespace Deriver.Scan

/-- Two slashes and no newline. -/
def IsLineComment (t : Text) : Prop := ∃ u, t = 47 :: 47 :: u ∧ 10 ∉ u

/-- Whether a comment mark, opening or closing, stands at the front. -/
def marks : Text → Bool
  | 47 :: 42 :: _ => true
  | 42 :: 47 :: _ => true
  | _ => false

/-- A text that closes exactly so many open comments, the last one at its end. -/
inductive Closes : Nat → Text → Prop where
  | done : Closes 0 []
  | opening {n : Nat} {t : Text} : Closes (n + 2) t → Closes (n + 1) (47 :: 42 :: t)
  | closing {n : Nat} {t : Text} : Closes n t → Closes (n + 1) (42 :: 47 :: t)
  | byte {n : Nat} {b : UInt8} {t : Text} :
      marks (b :: t) = false → Closes (n + 1) t → Closes (n + 1) (b :: t)

/-- A slash and a star, and a text that closes what they opened. -/
def IsBlockComment (t : Text) : Prop := ∃ u, t = 47 :: 42 :: u ∧ Closes 1 u

end Scan

namespace Lexeme

/-- The lexeme is a token that does not mark the end, or something is wrong
with it. -/
def Yields (l : Lexeme) : Prop :=
  match l.token with
  | some (kind, _) => kind ≠ .eof
  | none => l.faults ≠ []

theorem yields_plain {k : TokenKind} {n : Nat} (h : k ≠ .eof) : (plain k n).Yields := h

theorem yields_some {n : Nat} {k : TokenKind} {v : Option Literal}
    {fs : List (Fault × Nat)} (h : k ≠ .eof) : Yields ⟨n, some (k, v), fs⟩ := h

theorem yields_faulty (f : Fault) (n : Nat) : (faulty f n).Yields :=
  List.cons_ne_nil _ _

theorem yields_shift {l : Lexeme} (n : Nat) (h : l.Yields) : (l.shift n).Yields := by
  unfold Yields at h ⊢
  simp only [shift]
  split
  · next kind v hk => rw [hk] at h; exact h
  · next hk =>
      rw [hk] at h
      simpa using h

end Lexeme

namespace Scan

theorem single?_ne_eof {b : UInt8} {k : TokenKind} (h : single? b = some k) : k ≠ .eof := by
  unfold single? at h
  split at h <;> first | cases h; decide | cases h

theorem ofKeyword?_ne_eof {w : Text} {k : TokenKind} (h : TokenKind.ofKeyword? w = some k) :
    k ≠ .eof := by
  unfold TokenKind.ofKeyword? at h
  obtain ⟨entry, hfind, rfl⟩ := Option.map_eq_some_iff.mp h
  have hall : ∀ e ∈ TokenKind.keywords, e.2 ≠ .eof := by decide
  exact hall entry (List.mem_of_find?_eq_some hfind)

theorem charLiteral_yields (rest : Text) : (charLiteral rest).Yields := by
  simp only [charLiteral]
  split
  · exact Lexeme.yields_some (by decide)
  · exact List.append_ne_nil_of_right_ne_nil _ (List.cons_ne_nil _ _)

theorem string_yields (rest : Text) : (string rest).Yields := by
  simp only [string]
  split
  · exact List.append_ne_nil_of_right_ne_nil _ (List.cons_ne_nil _ _)
  · exact Lexeme.yields_some (by decide)

theorem rawString_yields (rest : Text) : (rawString rest).Yields := by
  simp only [rawString]
  split
  · split
    · exact Lexeme.yields_some (by decide)
    · exact Lexeme.yields_faulty _ _
  · exact Lexeme.yields_faulty _ _

theorem quote_yields (rest : Text) : (quote rest).Yields := by
  unfold quote
  split
  · exact charLiteral_yields rest
  · split
    · exact Lexeme.yields_faulty _ _
    · split
      · exact charLiteral_yields rest
      · split
        · split
          · exact Lexeme.yields_plain (by decide)
          · exact Lexeme.yields_faulty _ _
        · exact Lexeme.yields_faulty _ _

theorem number_yields (first : UInt8) (rest : Text) : (number first rest).Yields := by
  unfold number
  extract_lets radix whole fraction mantissa
  split
  · exact Lexeme.yields_faulty _ _
  · extract_lets size suffix total digits float value
    split
    · split
      · exact Lexeme.yields_some (by decide)
      · exact Lexeme.yields_faulty _ _
    · exact Lexeme.yields_some (by decide)

theorem word_yields (first : UInt8) (rest : Text) : (word first rest).Yields := by
  simp only [word]
  split
  · exact Lexeme.yields_some (by decide)
  · exact Lexeme.yields_some (by decide)
  · next k hk => exact Lexeme.yields_plain (ofKeyword?_ne_eof hk)
  · exact Lexeme.yields_plain (by decide)

theorem wordLike_yields (first : UInt8) (rest : Text) : (wordLike first rest).Yields := by
  simp only [wordLike]
  split
  · exact number_yields first rest
  · split
    · exact rawString_yields rest
    · split
      · exact Lexeme.yields_shift 1 (string_yields _)
      · split
        · exact Lexeme.yields_shift 1 (rawString_yields _)
        · split
          · exact Lexeme.yields_shift 1 (charLiteral_yields _)
          · split
            · exact Lexeme.yields_plain (by decide)
            · split
              · exact word_yields first rest
              · exact Lexeme.yields_faulty _ _

/-! ## Comments

The scanner takes a comment to be what the definitions above say it is. A line
comment ends where the text or the line does; a block comment that is closed
ends at the mark that closes it. -/

theorem marks_of_take {t : Text} {n : Nat} (h : marks (t.take n) = true) :
    marks t = true := by
  match n, t with
  | 0, _ => cases h
  | 1, [] => cases h
  | 1, b :: _ => simp [marks] at h
  | _ + 2, [] => cases h
  | _ + 2, [b] => simp [marks] at h
  | n + 2, b :: c :: t =>
      simp only [List.take_succ_cons] at h
      unfold marks at h ⊢
      split at h <;> simp_all

/-- The bytes that a closed block comment takes close one comment more than
`depth`. -/
theorem closes_of_blockComment {depth n : Nat} {t : Text}
    (h : blockComment depth t = (n, true)) : Closes (depth + 1) (t.take n) := by
  fun_induction blockComment depth t generalizing n with
  | case1 => cases h
  | case2 depth rest m closed hm ih =>
      cases h
      exact .opening (ih hm)
  | case3 rest =>
      cases h
      exact .closing .done
  | case4 depth rest m closed hm ih =>
      cases h
      exact .closing (ih hm)
  | case5 depth b rest hopen hzero hsucc m closed hm ih =>
      cases h
      refine .byte ?_ (ih hm)
      rw [← Bool.not_eq_true]
      intro hmark
      have hmarks : marks (b :: rest) = true := marks_of_take (n := m + 1) hmark
      unfold marks at hmarks
      split at hmarks
      · next heq => cases heq; exact hopen _ rfl rfl
      · next heq =>
          cases heq
          cases depth with
          | zero => exact hzero _ rfl rfl rfl
          | succ d => exact hsucc d _ rfl rfl rfl
      · cases hmarks

theorem blockComment_size_le {depth n : Nat} {closed : Bool} {t : Text}
    (h : blockComment depth t = (n, closed)) : n ≤ t.length := by
  fun_induction blockComment depth t generalizing n closed with
  | case1 => cases h; exact Nat.le_refl _
  | case2 _ _ m c hm ih | case4 _ _ m c hm ih | case5 _ _ _ _ _ _ m c hm ih =>
      cases h
      have := ih hm
      simp only [List.length_cons]
      omega
  | case3 => cases h; simp

theorem run_le (p : UInt8 → Bool) (t : Text) : run p t ≤ t.length := by
  unfold run
  exact (List.takeWhile_prefix p).length_le

theorem take_run (p : UInt8 → Bool) (t : Text) : t.take (run p t) = t.takeWhile p := by
  unfold run
  exact List.prefix_iff_eq_take.mp (List.takeWhile_prefix p) |>.symm

theorem drop_run (p : UInt8 → Bool) (t : Text) : t.drop (run p t) = t.dropWhile p := by
  have h := List.takeWhile_append_dropWhile (p := p) (l := t)
  calc t.drop (run p t) = (t.takeWhile p ++ t.dropWhile p).drop (run p t) := by rw [h]
    _ = t.dropWhile p := by unfold run; rw [List.drop_left]

theorem toNat_charOf (b : UInt8) : (Char.ofNat b.toNat).toNat = b.toNat := by
  have hb : b.toNat.isValidChar := .inl (by have := b.toNat_lt; omega)
  rw [Char.ofNat, dif_pos hb]
  rfl

theorem byte_ext {b c : UInt8} (h : Char.ofNat b.toNat = Char.ofNat c.toNat) : b = c := by
  have hn := congrArg Char.toNat h
  rw [toNat_charOf, toNat_charOf] at hn
  exact UInt8.toNat_inj.mp hn

/-- What `b` and the bytes behind it begin is white space or a comment, `n` bytes
of it behind `b`. A line comment goes up to the end of its line. -/
def Gap (b : UInt8) (rest : Text) (n : Nat) : Prop :=
  (isSpace b = true ∧ n = 0) ∨
    (IsLineComment (b :: rest.take n) ∧ ∀ c, (rest.drop n).head? = some c → c = 10) ∨
    IsBlockComment (b :: rest.take n)

theorem slash_yields (rest : Text) :
    (slash rest).Yields ∨
      ((slash rest).token = none ∧ Gap 47 rest (slash rest).size) := by
  unfold slash
  split
  · next rest =>
      refine .inr ⟨rfl, .inr (.inl ⟨⟨rest.takeWhile (· ≠ 10), ?_, ?_⟩, ?_⟩)⟩
      · simp only [Lexeme.skipped, Nat.add_comm 1, List.take_succ_cons, take_run]
      · intro h
        simpa using List.all_eq_true.mp List.all_takeWhile _ h
      · intro c hc
        simp only [Lexeme.skipped, Nat.add_comm 1, List.drop_succ_cons, drop_run] at hc
        have hnot := List.head?_dropWhile_not (· ≠ (10 : UInt8)) rest
        rw [hc] at hnot
        simpa using hnot
  · next rest =>
      split
      next n closed hn =>
      cases closed with
      | true =>
          refine .inr ⟨rfl, .inr (.inr ⟨rest.take n, ?_, closes_of_blockComment hn⟩)⟩
          simp [Lexeme.skipped]
      | false => exact .inl (Lexeme.yields_faulty _ _)
  · exact .inl (Lexeme.yields_plain (by decide))

/-- A lexeme yields, unless it is white space or a comment. -/
theorem lexeme_yields (b : UInt8) (rest : Text) :
    (lexeme b rest).Yields ∨
      ((lexeme b rest).token = none ∧ Gap b rest (lexeme b rest).size) := by
  unfold lexeme
  split
  · next k hk => exact .inl (Lexeme.yields_plain (single?_ne_eof hk))
  · split
    · next hs => exact .inr ⟨rfl, .inl ⟨hs, rfl⟩⟩
    · split
      case h_10 => split <;> exact .inl (Lexeme.yields_plain (by decide))
      case h_14 hb =>
        obtain rfl : b = 47 := byte_ext hb
        exact slash_yields rest
      case h_15 => exact .inl (quote_yields rest)
      case h_16 => exact .inl (string_yields rest)
      case h_17 => exact .inl (wordLike_yields b rest)
      all_goals exact .inl (Lexeme.yields_plain (by decide))

theorem lexeme_ne_eof {b : UInt8} {rest : Text} {kind : TokenKind} {v : Option Literal}
    (h : (lexeme b rest).token = some (kind, v)) : kind ≠ .eof := by
  rcases lexeme_yields b rest with hy | ⟨hnone, -⟩
  · unfold Lexeme.Yields at hy
    rwa [h] at hy
  · rw [hnone] at h
    cases h

theorem gap_of_lexeme {b : UInt8} {rest : Text} (htoken : (lexeme b rest).token = none)
    (hfaults : (lexeme b rest).faults = []) : Gap b rest (lexeme b rest).size := by
  rcases lexeme_yields b rest with hy | ⟨-, hgap⟩
  · unfold Lexeme.Yields at hy
    rw [htoken] at hy
    exact absurd hfaults hy
  · exact hgap

end Scan
end Deriver
