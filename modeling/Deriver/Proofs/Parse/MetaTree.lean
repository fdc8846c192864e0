import Deriver.Proofs.Helper.Order
import Deriver.Proofs.Parse.Arguments
import Deriver.Proofs.Parse.Reads
import Deriver.Proofs.Text.Basic
import Deriver.Proofs.Token.Name

/-!
# Attribute arguments and how they are written

Main statement: `MetaTree.reads`. A tree of paths, values and lists is written in one way,
and where a comma or a closing bracket stands behind it, it is read as that tree: each part
has the kind, the path, the literal and the text that it was written with.
-/

namespace Deriver

open Scan Parse

/-! ## Trees and how they are written -/

namespace MetaTree

/-- A segment of a path: a name, perhaps a raw one, or a reserved word, but no literal. -/
structure Segment where
  text : Text
  name : IsIdent text
  ascii : ∀ b ∈ text, b < 0x80
  ne_true : text ≠ "true"
  ne_false : text ≠ "false"

/-- A path of one segment or more. -/
structure Path where
  /-- Whether the path begins with `::`. -/
  rooted : Bool
  first : Segment
  rest : List Segment

/-- A literal, as the token that its text is by itself. The suffix of a number is in
ASCII. -/
structure Literal where
  token : Token
  literal : isLiteral token.kind = true
  alone : scan token.lexeme = ⟨[token, endOf token.lexeme], []⟩
  ascii : token.kind = .int ∨ token.kind = .float → ∀ b ∈ token.lexeme, b < 0x80

/-- The segments with `::` between them. -/
def segmentsText (segments : List Segment) : Text := Text.join "::" (segments.map (·.text))

/-- The path as it is written. -/
def Path.text (p : Path) : Text :=
  Text.when p.rooted "::" ++ segmentsText (p.first :: p.rest)

/-- The literal as it is written. -/
def Literal.text (l : Literal) : Text := l.token.lexeme

/-- The literal that an attribute says. -/
def Literal.lit (l : Literal) : Lit := litOf l.token

end MetaTree

/-- The argument of an attribute, or one of its parts. -/
inductive MetaTree where
  | path (p : MetaTree.Path)
  | value (p : MetaTree.Path) (literal : MetaTree.Literal)
  | list (p : MetaTree.Path) (items : List MetaTree)
  | literal (l : MetaTree.Literal)

mutual

/-- The argument as it is written. -/
def MetaTree.render : MetaTree → Text
  | .path p => p.text
  | .value p l => p.text ++ (" = " ++ l.text)
  | .list p items => p.text ++ ("(" ++ (Text.join ", " (renderTrees items) ++ ")"))
  | .literal l => l.text

/-- The arguments as they are written. -/
def renderTrees : List MetaTree → List Text
  | [] => []
  | t :: ts => t.render :: renderTrees ts

end

mutual

/-- What is read of the argument, wherever it stands. -/
def MetaTree.toMeta : MetaTree → Meta
  | .path p => .path .unknown p.text
  | .value p l => .nameValue .unknown p.text l.lit (MetaTree.value p l).render
  | .list p items => .list .unknown p.text (metasOf items) (MetaTree.list p items).render
  | .literal l => .lit .unknown l.lit

/-- What is read of the arguments. -/
def metasOf : List MetaTree → List Meta
  | [] => []
  | t :: ts => t.toMeta :: metasOf ts

end

theorem renderTrees_eq (ts : List MetaTree) : renderTrees ts = ts.map MetaTree.render := by
  induction ts with
  | nil => rfl
  | cons t ts ih => rw [renderTrees, ih, List.map_cons]

theorem metasOf_eq (ts : List MetaTree) : metasOf ts = ts.map MetaTree.toMeta := by
  induction ts with
  | nil => rfl
  | cons t ts ih => rw [metasOf, ih, List.map_cons]

namespace MetaTree

variable {x y source : Text}

theorem induction {motive : MetaTree → Prop} (path : ∀ p, motive (.path p))
    (value : ∀ p l, motive (.value p l))
    (list : ∀ p items, (∀ t ∈ items, motive t) → motive (.list p items))
    (literal : ∀ l, motive (.literal l)) : ∀ t, motive t
  | .path p => path p
  | .value p l => value p l
  | .literal l => literal l
  | .list p items => list p items fun t _ => induction path value list literal t

/-! ## The tokens of a tree -/

namespace Segment

variable (s : Segment)

/-- The kind of the token that the segment is. -/
def kind : TokenKind := nameKind s.text

theorem word : Word s.kind s.text := word_of_isIdent s.name

theorem kind_cases : s.kind = .ident ∨
    ∃ e ∈ TokenKind.keywords, (e.1 : Text) = s.text ∧ e.2 = s.kind := by
  unfold kind nameKind
  cases h : TokenKind.ofKeyword? s.text with
  | none => exact .inl rfl
  | some k => exact .inr (exists_of_ofKeyword? h)

theorem isSegment : isSegment s.kind = true := by
  have hwords : ∀ e ∈ TokenKind.keywords, (e.1 : Text) ≠ "true" → (e.1 : Text) ≠ "false" →
      Parse.isSegment e.2 = true := by decide
  rcases s.kind_cases with h | ⟨e, he, htext, h⟩
  · rw [h]
    rfl
  · rw [← h]
    exact hwords e he (htext ▸ s.ne_true) (htext ▸ s.ne_false)

theorem isWord : s.kind.isWord = true := by
  have hwords : ∀ e ∈ TokenKind.keywords, e.2.isWord = true := by decide
  rcases s.kind_cases with h | ⟨e, he, -, h⟩
  · rw [h]
    rfl
  · rw [← h]
    exact hwords e he

/-- The segment is the next token where something else than a name follows. -/
theorem next (hy : Separated y) : Next (s.text ++ y) s.kind s.text y :=
  next_word s.word s.isWord hy

end Segment

theorem solid_segments (first : Segment) (rest : List Segment) :
    Solid (segmentsText (first :: rest)) := by
  induction rest generalizing first with
  | nil => exact first.word.solid
  | cons s rest ih =>
      have hjoin : segmentsText (first :: s :: rest) =
          first.text ++ ("::" ++ segmentsText (s :: rest)) := List.append_assoc ..
      have hcut : pieces ("::" ++ segmentsText (s :: rest)) =
          [⟨"::", some (.doubleColon, none), []⟩] ++ pieces (segmentsText (s :: rest)) :=
        pieces_cons 58 (58 :: segmentsText (s :: rest))
      rw [hjoin]
      refine first.word.solid.join_of_fits (ih s) ?_ ?_ hcut
      · exact first.word.fits first.isWord (by decide)
      · exact List.forall_mem_singleton.mpr rfl

theorem Path.solid (p : Path) : Solid p.text := by
  have hsegments := solid_segments p.first p.rest
  have hcut (s : Text) : pieces ("::" ++ s) =
      ⟨"::", some (.doubleColon, none), []⟩ :: pieces s :=
    pieces_cons 58 (58 :: s)
  have hcolons : pieces "::" = [⟨"::", some (.doubleColon, none), []⟩] :=
    (hcut []).trans (congrArg _ pieces_nil)
  unfold Path.text
  cases p.rooted with
  | false => exact hsegments
  | true =>
      refine (Word.solid ⟨none, hcolons⟩).append hsegments ?_
      rw [hcolons]
      exact hcut _

theorem Path.ascii (p : Path) : ∀ b ∈ p.text, b < 0x80 := by
  have hcolons : ∀ b ∈ Text.ofString "::", b < 0x80 := by decide +kernel
  have hsegments : ∀ segments : List Segment, ∀ b ∈ segmentsText segments, b < 0x80 := by
    intro segments b hb
    unfold segmentsText at hb
    rcases Text.mem_join hb with hb | ⟨t, ht, hb⟩
    · exact hcolons b hb
    · obtain ⟨s, -, rfl⟩ := List.mem_map.mp ht
      exact s.ascii b hb
  intro b hb
  rcases List.mem_append.mp hb with hb | hb
  · unfold Text.when at hb
    split at hb
    · exact hcolons b hb
    · cases hb
  · exact hsegments _ b hb

namespace Literal

variable (l : Literal)

theorem word : Word l.token.kind l.text := word_of_scan l.alone

theorem ownTokens_text : ownTokens l.text = [l.token] := by
  unfold ownTokens text
  rw [l.alone]
  rfl

theorem last_lt {c : UInt8} (hc : l.text.getLast? = some c) : c < 0x80 := by
  have hkinds : ∀ k, isLiteral k = true → k = .int ∨ k = .float ∨ k ∈ plainLiterals := by
    intro k hk
    cases k <;> first | decide | cases hk
  rcases hkinds _ l.literal with h | h | h
  · exact l.ascii (.inl h) c (List.mem_of_getLast? hc)
  · exact l.ascii (.inr h) c (List.mem_of_getLast? hc)
  · exact l.word.last_of_literal h hc

end Literal

theorem solid_join {ts : List Text} (hne : ts ≠ []) (h : ∀ t ∈ ts, Solid t) :
    Solid (Text.join ", " ts) := by
  induction ts with
  | nil => exact absurd rfl hne
  | cons t ts ih =>
      cases ts with
      | nil => exact h t (List.mem_cons_self ..)
      | cons u ts =>
          have hjoin : Text.join ", " (t :: u :: ts) =
              t ++ (", " ++ Text.join ", " (u :: ts)) :=
            List.append_assoc ..
          have hcut : pieces (", " ++ Text.join ", " (u :: ts)) =
              [⟨",", some (.comma, none), []⟩, ⟨[32], none, []⟩] ++
                pieces (Text.join ", " (u :: ts)) :=
            (pieces_mark rfl _).trans (congrArg _ (pieces_blank _))
          rw [hjoin]
          refine (h t (List.mem_cons_self ..)).join_of_fits
            (ih (List.cons_ne_nil u ts) fun x hx => h x (List.mem_cons_of_mem t hx))
              ?_ ?_ hcut
          · exact fits_of_separator (by decide) (by decide) (by decide) t _
          · exact List.forall_mem_cons.mpr ⟨rfl, List.forall_mem_singleton.mpr rfl⟩

theorem solid_items {ts : List Text} (h : ∀ t ∈ ts, Solid t) :
    Solid (Text.join ", " ts ++ ")") := by
  have hparen : Solid ")" := solid_mark (c := 41) rfl
  rcases eq_or_ne ts [] with rfl | hne
  · exact hparen
  · have hfits : Fits (Text.join ", " ts) ")" :=
      fits_of_separator (c := 41) (by decide) (by decide) (by decide) _ _
    exact (solid_join hne h).append hparen ((solid_join hne h).pieces_append hfits)

theorem solid (t : MetaTree) : Solid t.render := by
  induction t using MetaTree.induction with
  | path p => exact p.solid
  | literal l => exact l.word.solid
  | value p l =>
      have hcut : pieces (" = " ++ l.text) =
          [⟨[32], none, []⟩, ⟨"=", some (.equals, none), []⟩, ⟨[32], none, []⟩] ++
            pieces l.text :=
        (pieces_blank _).trans
          (congrArg _ ((pieces_cons 61 _).trans (congrArg _ (pieces_blank _))))
      refine p.solid.join_of_fits l.word.solid ?_ ?_ hcut
      · exact fits_of_separator (c := 32) (by decide) (by decide) (by decide) _ _
      · simp
  | list p items ih =>
      have hitems : Solid (Text.join ", " (renderTrees items) ++ ")") := by
        refine solid_items fun t ht => ?_
        rw [renderTrees_eq] at ht
        obtain ⟨i, hi, rfl⟩ := List.mem_map.mp ht
        exact ih i hi
      have hcut : pieces ("(" ++ (Text.join ", " (renderTrees items) ++ ")")) =
          [⟨"(", some (.lparen, none), []⟩] ++
            pieces (Text.join ", " (renderTrees items) ++ ")") :=
        pieces_mark rfl _
      refine p.solid.join_of_fits hitems ?_ ?_ hcut
      · exact fits_of_separator (c := 40) (by decide) (by decide) (by decide) _ _
      · exact List.forall_mem_singleton.mpr rfl

theorem trim {t : MetaTree} (h : ∀ l, t ≠ .literal l) : t.render.trim = t.render := by
  have hfirst {p : Path} {u : Text} {c : UInt8}
      (hc : (p.text ++ u).head? = some c) : c < 0x80 := by
    rw [List.head?_append_of_ne_nil _ p.solid.ne_nil] at hc
    exact p.ascii c (List.mem_of_mem_head? hc)
  have hends : (∀ c, t.render.head? = some c → c < 0x80) ∧
      ∀ c, t.render.getLast? = some c → c < 0x80 := by
    cases t with
    | literal l => exact absurd rfl (h l)
    | path p =>
        exact ⟨fun c hc => p.ascii c (List.mem_of_mem_head? hc),
          fun c hc => p.ascii c (List.mem_of_getLast? hc)⟩
    | value p l =>
        refine ⟨fun c hc => hfirst hc, fun c hc => l.last_lt ?_⟩
        rw [render, List.getLast?_append, List.getLast?_append,
          List.getLast?_eq_some_getLast l.word.solid.ne_nil] at hc
        rw [List.getLast?_eq_some_getLast l.word.solid.ne_nil]
        exact hc
    | list p items =>
        refine ⟨fun c hc => hfirst hc, fun c hc => ?_⟩
        rw [render, List.getLast?_append, List.getLast?_append, List.getLast?_append] at hc
        cases hc
        decide
  exact Text.trim_of_ends (fun c hc => ⟨hends.1 c hc, t.solid.head_not_blank hc⟩)
    fun c hc => ⟨hends.2 c hc, t.solid.last_not_blank hc⟩

/-! ## Reading a path -/

theorem segmentsText_append (first s : Segment) (rest : List Segment) (y : Text) :
    segmentsText (first :: s :: rest) ++ y =
      first.text ++ ("::" ++ (segmentsText (s :: rest) ++ y)) := by
  simp [segmentsText, Text.join]

theorem next_segments (first : Segment) (rest : List Segment) (hy : Separated y) :
    ∃ w s, Next (segmentsText (first :: rest) ++ y) first.kind w s := by
  cases rest with
  | nil => exact ⟨_, _, first.next hy⟩
  | cons s rest =>
      rw [segmentsText_append]
      exact ⟨_, _, first.next ⟨58, _, rfl, by decide⟩⟩

theorem metaSegments?_text (first : Segment) (rest : List Segment) {n : Nat}
    (hn : sizeAhead (segmentsText (first :: rest) ++ y) ≤ n) (hy : Separated y)
    (hcolon : Avoids source y .doubleColon)
    (hsub : segmentsText (first :: rest) ++ y <:+ source) :
    metaSegments? n (ahead source (segmentsText (first :: rest) ++ y)) =
      some (segmentsText (first :: rest), ahead source y) := by
  obtain ⟨n, rfl⟩ := Nat.exists_eq_add_one.mpr (sizeAhead_pos.trans_le hn)
  induction rest generalizing first n with
  | nil =>
      have hnext := first.next hy
      obtain ⟨t, hk, hw, hahead⟩ := hnext.ahead hsub
      change metaSegments? (n + 1) (ahead source (first.text ++ y)) = _
      rw [hahead, metaSegments?]
      have hseg : Parse.isSegment t.kind = true := hk ▸ first.isSegment
      dsimp only
      rw [List.headD_cons, if_neg (fun h => isSegment_iff.mp h hseg),
        behind_cons (ne_eof_of_isSegment hseg),
        beq_eq_false_iff_ne.mpr (hcolon (hnext.suffix.trans hsub)), hw]
      rfl
  | cons s rest ih =>
      rw [segmentsText_append] at hn hsub ⊢
      have hnext := first.next (y := "::" ++ (segmentsText (s :: rest) ++ y))
        ⟨58, _, rfl, by decide⟩
      have hcolons := next_colons (segmentsText (s :: rest) ++ y)
      have hsub' := hnext.suffix.trans hsub
      obtain ⟨t, hk, hw, hahead⟩ := hnext.ahead hsub
      obtain ⟨c, hc, -, hahead'⟩ := hcolons.ahead hsub'
      have hseg : Parse.isSegment t.kind = true := hk ▸ first.isSegment
      obtain ⟨w, u, hsecond⟩ := next_segments s rest hy
      have hgoes : (kindOf (c :: ahead source (segmentsText (s :: rest) ++ y)) 0 ==
          .doubleColon &&
          startsMetaPath (kindOf (c :: ahead source (segmentsText (s :: rest) ++ y)) 1) &&
          kindOf (c :: ahead source (segmentsText (s :: rest) ++ y)) 1 != .doubleColon) =
            true := by
        have hkind : kindOf (c :: ahead source (segmentsText (s :: rest) ++ y)) 1 =
            s.kind :=
          hsecond.kindOf (hcolons.suffix.trans hsub')
        rw [hkind, Bool.and_assoc, Bool.and_eq_true]
        exact ⟨beq_iff_eq.mpr hc, s.isSegment⟩
      have hsize := hnext.sizeAhead
      have hsize' := hcolons.sizeAhead
      have hpos := sizeAhead_pos (y := segmentsText (s :: rest) ++ y)
      obtain ⟨n, rfl⟩ : ∃ m, n = m + 1 := Nat.exists_eq_add_one.mpr (by omega)
      rw [hahead, hahead', metaSegments?]
      dsimp only
      rw [List.headD_cons, if_neg (fun h => isSegment_iff.mp h hseg),
        behind_cons (ne_eof_of_isSegment hseg), if_pos hgoes,
        behind_cons (by rw [hc]; decide),
        ih s (hcolons.suffix.trans hsub') n (by omega), hw]
      simp [segmentsText, Text.join, Text.concat]

theorem Path.next (p : Path) (hy : Separated y) :
    ∃ k w s, Next (p.text ++ y) k w s ∧ startsMetaPath k = true := by
  obtain ⟨w, s, hnext⟩ := next_segments p.first p.rest hy
  unfold Path.text
  cases p.rooted with
  | false => exact ⟨_, w, s, hnext, (Bool.and_eq_true_iff.mp p.first.isSegment).1⟩
  | true => exact ⟨_, _, _, next_colons (segmentsText (p.first :: p.rest) ++ y), rfl⟩

theorem pathAhead_text (p : Path) (hy : Separated y) (hcolon : Avoids source y .doubleColon)
    (hsub : p.text ++ y <:+ source) :
    pathAhead (ahead source (p.text ++ y)) = some (p.text, ahead source y) := by
  obtain ⟨k, w, s, hnext, hk⟩ := p.next hy
  have hstarts : startsMetaPath ((ahead source (p.text ++ y)).headD Token.none).kind =
      true := by
    obtain ⟨t, rfl, -, hahead⟩ := hnext.ahead hsub
    rwa [hahead]
  rw [pathAhead, if_pos hstarts, metaPath?]
  cases hrooted : p.rooted with
  | false =>
      have htext : p.text = segmentsText (p.first :: p.rest) := by
        rw [Path.text, hrooted]
        rfl
      rw [htext] at hsub ⊢
      obtain ⟨w, s, hsegment⟩ := next_segments p.first p.rest hy
      have hne : p.first.kind ≠ .doubleColon := by
        intro h
        have hseg := p.first.isSegment
        rw [h] at hseg
        cases hseg
      rw [hsegment.kindOf hsub, if_neg (by simpa using hne)]
      exact metaSegments?_text p.first p.rest (length_ahead ..).ge hy hcolon hsub
  | true =>
      have htext : p.text = "::" ++ segmentsText (p.first :: p.rest) := by
        rw [Path.text, hrooted]
        rfl
      have hcolons := next_colons (segmentsText (p.first :: p.rest) ++ y)
      rw [htext, List.append_assoc] at hsub ⊢
      obtain ⟨c, hc, -, hahead⟩ := hcolons.ahead hsub
      have hsize := hcolons.sizeAhead
      rw [hcolons.kindOf hsub, if_pos (beq_self_eq_true _), length_ahead, hahead,
        behind_cons (by rw [hc]; decide),
        metaSegments?_text p.first p.rest (by omega) hy hcolon
          (hcolons.suffix.trans hsub)]
      rfl

theorem not_literal_ahead (p : Path) (hy : Separated y) (hsub : p.text ++ y <:+ source) :
    isLiteral ((ahead source (p.text ++ y)).headD Token.none).kind = false := by
  obtain ⟨k, w, s, hnext, hk⟩ := p.next hy
  obtain ⟨t, rfl, -, hahead⟩ := hnext.ahead hsub
  rw [hahead]
  exact not_literal_of_startsMetaPath hk

/-! ## Reading a tree -/

/-- Whether what is left begins with a mark that ends an argument. -/
def Ends (y : Text) : Prop :=
  ∃ c k s, y = c :: s ∧ c ∈ separators ∧ single? c = some k ∧ endsMeta k = true

namespace Ends

theorem comma (y : Text) : Ends (", " ++ y) := ⟨44, .comma, _, rfl, by decide, rfl, rfl⟩

theorem rparen (y : Text) : Ends (")" ++ y) := ⟨41, .rparen, _, rfl, by decide, rfl, rfl⟩

theorem rbracket (y : Text) : Ends ("]" ++ y) :=
  ⟨93, .rbracket, _, rfl, by decide, rfl, rfl⟩

variable (h : Ends y)

include h

theorem separated : Separated y := by
  obtain ⟨c, k, s, rfl, hc, -⟩ := h
  exact ⟨c, s, rfl, hc⟩

theorem fits (x : Text) : Fits x y := by
  obtain ⟨c, k, s, rfl, hc, hk, hends⟩ := h
  refine fits_of_separator hc ?_ ?_ x s
  · rintro rfl
    cases hk
  · rintro rfl
    cases hk
    cases hends

theorem endsMeta_ahead (hsub : y <:+ source) :
    endsMeta (kindOf (ahead source y) 0) = true := by
  obtain ⟨c, k, s, rfl, hc, hk, hends⟩ := h
  rwa [(next_mark hk s).kindOf hsub]

theorem avoids {k : TokenKind} (hk : endsMeta k = false) : Avoids source y k := by
  intro hsub hkind
  have hends := h.endsMeta_ahead hsub
  rw [hkind, hk] at hends
  cases hends

end Ends

/-- The literal is the next token, with its value. -/
theorem Literal.ahead (l : Literal) (hy : Ends y) (hsub : l.text ++ y <:+ source) :
    ∃ t, t.kind = l.token.kind ∧ litOf t = l.lit ∧
      ahead source (l.text ++ y) = t :: ahead source y := by
  obtain ⟨pre, -, hahead⟩ := l.word.solid.ahead (hy.fits _) hsub
  rw [l.ownTokens_text] at hahead
  exact ⟨behindText pre l.token, rfl, rfl, hahead⟩

theorem reads_path (p : Path) {fuel : Nat} (hy : Ends y) :
    Reads source (metaItem source (fuel + 1)) (p.text ++ y) fun m u =>
      m.stripped = (MetaTree.path p).toMeta ∧ u = y := by
  refine p.solid.reads (hy.fits _) fun hsub => ?_
  have hsub' := (List.suffix_append p.text y).trans hsub
  have hends := hy.endsMeta_ahead hsub'
  have hp := pathAhead_text p hy.separated (hy.avoids rfl) hsub
  refine ⟨.path ((ahead source (p.text ++ y)).headD Token.none).pos p.text, ⟨rfl, rfl⟩, ?_⟩
  rw [metaItem_of_pathAhead fuel (not_literal_ahead p hy.separated hsub) hp]
  dsimp only
  rw [if_neg (by simpa using hy.avoids rfl hsub'),
    if_neg (by simpa using hy.avoids rfl hsub'), if_pos hends]

theorem reads_value (p : Path) (l : Literal) {fuel : Nat} (hy : Ends y) :
    Reads source (metaItem source (fuel + 1)) ((MetaTree.value p l).render ++ y) fun m u =>
      m.stripped = (MetaTree.value p l).toMeta ∧ u = y := by
  refine (MetaTree.value p l).solid.reads (hy.fits _) fun hsub => ?_
  have htext :=
    (MetaTree.value p l).solid.textOf_between (trim fun l h => by cases h) (hy.fits _) hsub
  have hsplit : (MetaTree.value p l).render ++ y = p.text ++ (" = " ++ (l.text ++ y)) := by
    rw [render, List.append_assoc, List.append_assoc]
  rw [hsplit] at hsub htext ⊢
  have hequals := next_equals (l.text ++ y)
  have hsub' := (List.suffix_append p.text _).trans hsub
  have hsub'' := hequals.suffix.trans hsub'
  have hseparated : Separated (" = " ++ (l.text ++ y)) := ⟨32, _, rfl, by decide⟩
  have hp := pathAhead_text p hseparated (.of_next hequals (by decide)) hsub
  obtain ⟨e, he, -, hahead⟩ := hequals.ahead hsub'
  obtain ⟨t, ht, hlit, hahead'⟩ := l.ahead hy hsub''
  have hliteral : isLiteral t.kind = true := ht ▸ l.literal
  have hne : t.kind ≠ .eof := by
    intro h
    rw [h] at hliteral
    cases hliteral
  have hends := hy.endsMeta_ahead ((List.suffix_append l.text y).trans hsub'')
  have hmeta (pos : Position) : (Meta.nameValue pos p.text (litOf t)
      (value p l).render).stripped =
      (value p l).toMeta := by
    rw [hlit]
    rfl
  refine ⟨_, ⟨hmeta ((ahead source (p.text ++ (" = " ++ (l.text ++ y)))).headD
    Token.none).pos, rfl⟩, ?_⟩
  rw [metaItem_of_pathAhead fuel (not_literal_ahead p hseparated hsub) hp]
  dsimp only
  rw [hahead, kindOf_cons, he, if_neg (by decide), if_pos (beq_self_eq_true _),
    behind_cons (by rw [he]; decide), hahead', behind_cons hne, htext]
  exact if_pos (by rw [List.headD_cons, hliteral]; exact hends)

theorem first (t : MetaTree) (hy : Ends y) :
    ∃ k w s, Next (t.render ++ y) k w s ∧
    (isLiteral k = true ∨ startsMetaPath k = true) := by
  have hpath (p : Path) {u : Text} (hu : Separated u) :
      ∃ k w s, Next (p.text ++ u) k w s ∧
        (isLiteral k = true ∨ startsMetaPath k = true) := by
    obtain ⟨k, w, s, hnext, hk⟩ := p.next hu
    exact ⟨k, w, s, hnext, .inr hk⟩
  cases t with
  | literal l => exact ⟨_, _, _, .here (l.word.lexes (hy.fits _)), .inl l.literal⟩
  | path p => exact hpath p hy.separated
  | value p l =>
      rw [render, List.append_assoc]
      exact hpath p ⟨32, _, rfl, by decide⟩
  | list p items =>
      rw [render, List.append_assoc]
      exact hpath p ⟨40, _, rfl, by decide⟩

theorem avoids_first (t : MetaTree) (hy : Ends y) {k : TokenKind}
    (hlit : isLiteral k = false)
    (hpath : startsMetaPath k = false) : Avoids source (t.render ++ y) k := by
  obtain ⟨k', w, s, hnext, hk⟩ := t.first hy
  refine .of_next hnext ?_
  rintro rfl
  rcases hk with hk | hk
  · rw [hk] at hlit
    cases hlit
  · rw [hk] at hpath
    cases hpath

theorem reads_list (p : Path) (items : List MetaTree) {fuel : Nat} (hy : Ends y)
    (hitems : ∀ t ∈ items, ∀ u, Ends u → sizeAhead (t.render ++ u) ≤ fuel →
      Reads source (metaItem source fuel) (t.render ++ u) fun m s => m.stripped =
      t.toMeta ∧ s = u)
    (hfuel : sizeAhead ((MetaTree.list p items).render ++ y) ≤ fuel + 1) :
    Reads source (metaItem source (fuel + 1))
    ((MetaTree.list p items).render ++ y) fun m u =>
      m.stripped = (MetaTree.list p items).toMeta ∧ u = y := by
  refine (MetaTree.list p items).solid.reads (hy.fits _) fun hsub => ?_
  have htext :=
    (MetaTree.list p items).solid.textOf_between (trim fun l h => by cases h)
      (hy.fits _) hsub
  have hsplit : (MetaTree.list p items).render ++ y =
      p.text ++ ("(" ++ (Text.join ", " (items.map render) ++ (")" ++ y))) := by
    rw [render, renderTrees_eq, List.append_assoc, List.append_assoc, List.append_assoc]
  rw [hsplit] at hsub htext hfuel ⊢
  have hopen := next_lparen (Text.join ", " (items.map render) ++ (")" ++ y))
  have hclose := next_rparen y
  have hsub' := (List.suffix_append p.text _).trans hsub
  have hsub'' := hopen.suffix.trans hsub'
  have hseparated : Separated ("(" ++ (Text.join ", " (items.map render) ++ (")" ++ y))) :=
    ⟨40, _, rfl, by decide⟩
  have hp := pathAhead_text p hseparated (.of_next hopen (by decide)) hsub
  have hle : sizeAhead (Text.join ", " (items.map render) ++ (")" ++ y)) ≤ fuel := by
    have hfits : Fits p.text ("(" ++ (Text.join ", " (items.map render) ++ (")" ++ y))) :=
      fits_of_separator (c := 40) (by decide) (by decide) (by decide) _ _
    have hpath := p.solid.sizeAhead_le hfits
    have hparen := hopen.sizeAhead
    omega
  have hread : Reads source (commaList .rparen (metaItem source fuel))
      (Text.join ", " (items.map render) ++ (")" ++ y)) fun ms u =>
        ms.map Meta.stripped = items.map toMeta ∧ u = ")" ++ y := by
    refine reads_elements hclose (by decide) (fun t ht u hu hsize => ?_) hle
    have hends : Ends u := by
      rcases hu with rfl | ⟨v, rfl⟩
      · exact .rparen y
      · exact .comma v
    exact ⟨hitems t ht u hends hsize, t.avoids_first hends rfl rfl,
      t.avoids_first hends rfl rfl⟩
  obtain ⟨o, ho, -, hahead⟩ := hopen.ahead hsub'
  obtain ⟨ms, u, ⟨hms, rfl⟩, hu, -, -, hlist⟩ := hread hsub''
  obtain ⟨c, hc, -, hahead'⟩ := hclose.ahead (hu.trans hsub'')
  have hexpect : expect .rparen "')' to close attribute arguments" (c :: ahead source y) =
      .ok (c, ahead source y) := expect_cons (by decide) hc
  have hmeta (pos : Position) : (Meta.list pos p.text ms (list p items).render).stripped =
      (list p items).toMeta := by
    rw [toMeta, metasOf_eq, ← hms, Meta.stripped, Meta.place, placeMetas_eq]
  refine ⟨_, ⟨hmeta ((ahead source (p.text ++ ("(" ++ (Text.join ", " (items.map render) ++
    (")" ++ y))))).headD Token.none).pos, rfl⟩, ?_⟩
  rw [metaItem_of_pathAhead fuel (not_literal_ahead p hseparated hsub) hp]
  dsimp only
  rw [hahead, kindOf_cons, ho, if_pos (beq_self_eq_true _),
    behind_cons (by rw [ho]; decide), hlist]
  dsimp only
  rw [hahead', hexpect]
  dsimp only
  rw [htext]

/-- In front of what ends an argument the tree is read again as it was written. -/
theorem reads (t : MetaTree) {fuel : Nat} (hy : Ends y)
    (hfuel : sizeAhead (t.render ++ y) ≤ fuel) :
    Reads source (metaItem source fuel) (t.render ++ y) fun m u =>
      m.stripped = t.toMeta ∧ u = y := by
  induction t using MetaTree.induction generalizing fuel y with
  | path p =>
      obtain ⟨fuel, rfl⟩ := Nat.exists_eq_add_one.mpr (sizeAhead_pos.trans_le hfuel)
      exact reads_path p hy
  | value p l =>
      obtain ⟨fuel, rfl⟩ := Nat.exists_eq_add_one.mpr (sizeAhead_pos.trans_le hfuel)
      exact reads_value p l hy
  | list p items ih =>
      obtain ⟨fuel, rfl⟩ := Nat.exists_eq_add_one.mpr (sizeAhead_pos.trans_le hfuel)
      exact reads_list p items hy (fun t ht u hu hsize => ih t ht hu hsize) hfuel
  | literal l =>
      obtain ⟨fuel, rfl⟩ := Nat.exists_eq_add_one.mpr (sizeAhead_pos.trans_le hfuel)
      refine l.word.solid.reads (hy.fits _) fun hsub => ?_
      obtain ⟨t, ht, hlit, hahead⟩ := l.ahead hy hsub
      have hliteral : isLiteral t.kind = true := ht ▸ l.literal
      have hmeta : (Meta.lit t.pos (litOf t)).stripped = (literal l).toMeta := by
        rw [hlit]
        rfl
      refine ⟨_, ⟨hmeta, rfl⟩, ?_⟩
      rw [hahead, metaItem_of_literal hliteral]

end MetaTree

end Deriver
