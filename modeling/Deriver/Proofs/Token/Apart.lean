import Deriver.Proofs.Text.Ascii
import Deriver.Proofs.Token.Ahead
import Deriver.Proofs.Token.Integer
import Deriver.Proofs.Token.Name
import Deriver.Proofs.Token.Quoted

/-!
# Where a text is cut off from what stands behind it

Main statements: `Solid.shows`, `word_ofNat` and `sealed_quoted`. `Crosses x s ns` says of
two texts that a scan of the one with the other behind it comes to the place where they
meet: no lexeme begins in the first and ends in the second. That is weaker than having the
same pieces as when the text stands alone, and it is what can be put together: two marks
that meet may form a longer one and still be cut off from what stands behind both. On its
way the scan meets the names `ns`, which no mark has a part in.

Generated code writes few things behind the texts it takes from a declaration. `Tail`
lists them, and a text that any of them ends `Shows` its names.
-/

namespace Deriver

open Scan

variable {x y s w m : Text} {k : TokenKind} {ns ms : List Text}

/-- Whether a piece on one line is read from its bytes alone, whatever is wrong with it. -/
def Scan.Piece.IsRigid (p : Piece) : Prop :=
  ∃ b w, p.text = b :: w ∧ b ≠ 10 ∧ 10 ∉ w ∧ ∀ s, piece b (w ++ s) = p ∧
    (lexeme b (w ++ s)).size = w.length

/-- Whether what stands behind a piece on a later line does not matter for it. -/
def Scan.Piece.IsFirm (p : Piece) : Prop := p.faults = [] ∨ p.IsRigid

theorem Scan.pieces_replace_firm {ps qs : List Piece} {s s' : Text}
    (h : pieces (bytes ps ++ s) = ps ++ qs) (hfirm : ∀ p ∈ ps, p.IsFirm)
    (h39 : [39, 39] <:+ bytes ps → s.head? ≠ some 39) (hs : Ends ps s') :
    pieces (bytes ps ++ s') = ps ++ pieces s' := by
  induction ps with
  | nil => rfl
  | cons p ps ih =>
      have hne : ∀ q ∈ ps, q.text ≠ [] := fun q hq =>
        piece_text_ne_nil (h ▸ List.mem_append_left _ (List.mem_cons_of_mem p hq))
      rw [List.cons_append] at h
      obtain ⟨b, rest, hcut, htext, hp, hqs, hsize⟩ := piece_of_cons h
      obtain rfl : bytes ps ++ s = rest := by
        rw [bytes_cons, List.append_assoc] at hcut
        exact List.append_cancel_left hcut
      have htail := ih hqs.symm (fun q hq => hfirm q (List.mem_cons_of_mem p hq))
        (fun hsuffix => h39 (hsuffix.trans (bytes_cons p ps ▸ List.suffix_append _ _)))
          hs.tail
      obtain ⟨hpiece, hlexeme⟩ : piece b (p.text.tail ++ (bytes ps ++ s')) = p ∧
          (lexeme b (p.text.tail ++ (bytes ps ++ s'))).size = p.text.tail.length := by
        rcases hfirm p (List.mem_cons_self ..) with hclean | ⟨c, w, hw, -, -, hrigid⟩
        · have hfaults : (lexeme b (p.text.tail ++ (bytes ps ++ s))).faults = [] := by
            rw [hp] at hclean
            exact List.map_eq_nil_iff.mp hclean
          have hlexeme : lexeme b (p.text.tail ++ (bytes ps ++ s'))
              = lexeme b (p.text.tail ++ (bytes ps ++ s)) := by
            have hstops : Stops b (p.text.tail ++ bytes ps) s' := by
              have hwithin :=
                  stops_within (u := []) htext hsize hne
                    (fun c hc => (hs c hc).1) fun _ => hs
              rwa [List.append_nil] at hwithin
            rw [← List.append_assoc] at hfaults hsize
            rw [← List.append_assoc, ← List.append_assoc]
            refine lexeme_replace hfaults ?_ hstops fun hb hr => h39 ?_
            · rw [hsize, List.length_append]
              exact Nat.le_add_right _ _
            · have hquotes : bytes (p :: ps) = [39, 39] := by
                rw [bytes_cons, htext, List.cons_append, hb, hr]
              exact hquotes ▸ List.suffix_refl _
          have hsame : piece b (p.text.tail ++ (bytes ps ++ s'))
              = piece b (p.text.tail ++ (bytes ps ++ s)) := by
            simp only [piece, hlexeme, hfaults, hsize, List.take_left, List.map_nil]
          exact ⟨hsame.trans hp.symm, hlexeme ▸ hsize⟩
        · obtain ⟨rfl, htail⟩ := List.cons.inj (htext.symm.trans hw)
          rw [htail]
          exact hrigid _
      rw [bytes_cons, List.append_assoc, htext, List.cons_append, pieces_cons,
        hpiece, hlexeme, List.drop_left, htail, List.cons_append]

/-- Whether a scan of `x` with `s` behind it comes to the front of `s`, and meets some
names. -/
def Crosses (x s : Text) (ns : List Text) : Prop :=
  ∃ ps, pieces (x ++ s) = ps ++ pieces s ∧ (∀ p ∈ ps, p.IsFirm) ∧
    ns ⊆ ps.filterMap Piece.name?

/-- Whether a scan of `x` with `s` behind it comes to the front of `s`. -/
def Apart (x s : Text) : Prop := Crosses x s []

namespace Crosses

theorem of_pieces {ps : List Piece} (h : pieces (x ++ s) = ps ++ pieces s)
    (hclean : ∀ p ∈ ps, p.faults = []) : Crosses x s (ps.filterMap Piece.name?) :=
  ⟨ps, h, fun p hp => .inl (hclean p hp), List.Subset.refl _⟩

theorem mono (h : Crosses x s ns) (hsub : ms ⊆ ns) : Crosses x s ms := by
  obtain ⟨ps, hps, hfirm, hns⟩ := h
  exact ⟨ps, hps, hfirm, List.Subset.trans hsub hns⟩

theorem apart (h : Crosses x s ns) : Apart x s := h.mono (List.nil_subset _)

theorem append (hx : Crosses x (y ++ s) ns) (hy : Crosses y s ms) :
    Crosses (x ++ y) s (ns ++ ms) := by
  obtain ⟨ps, hps, hfirm, hns⟩ := hx
  obtain ⟨qs, hqs, hfirm', hms⟩ := hy
  refine ⟨ps ++ qs, ?_, List.forall_mem_append.mpr ⟨hfirm, hfirm'⟩, ?_⟩
  · rw [List.append_assoc, hps, hqs, List.append_assoc]
  · rw [List.filterMap_append]
    exact List.append_subset.mpr ⟨List.subset_append_of_subset_left _ hns,
      List.subset_append_of_subset_right _ hms⟩

theorem ahead (hx : Crosses x (y ++ s) ns) (hy : Apart y s) : Crosses (x ++ y) s ns := by
  simpa using hx.append hy

end Crosses

namespace Apart

theorem of_pieces {ps : List Piece} (h : pieces (x ++ s) = ps ++ pieces s)
    (hclean : ∀ p ∈ ps, p.faults = []) : Apart x s := (Crosses.of_pieces h hclean).apart

theorem of_piece {p : Piece} (h : pieces (x ++ s) = p :: pieces s)
    (hclean : p.faults = []) :
    Apart x s := @of_pieces _ _ [p] h (List.forall_mem_singleton.mpr hclean)

theorem nil : Apart [] s := @of_pieces _ _ [] rfl (List.forall_mem_nil _)

theorem append (hx : Apart x (y ++ s)) (hy : Apart y s) : Apart (x ++ y) s :=
  Crosses.append hx hy

theorem lexes (h : Lexes k w s) : Apart w s := by
  obtain ⟨v, hv⟩ := h
  exact of_piece hv rfl

theorem mark {c : UInt8} (h : single? c = some k) (s : Text) : Apart [c] s :=
  .lexes (lexes_mark h s)

theorem blank (s : Text) : Apart [32] s := of_piece (pieces_cons 32 s) rfl

theorem colons (s : Text) : Apart "::" s := .lexes (lexes_colons s)

theorem colon (h : s.head? ≠ some 58) : Apart ":" s := by
  refine of_piece (p := ⟨[58], some (.colon, none), []⟩) ?_ rfl
  change pieces (58 :: s) = _
  rw [pieces_cons, piece, lexeme_pair
    (by decide : (58, 58, .doubleColon, .colon) ∈ pairs), if_neg h]
  rfl

/-- Blanks in front of a text, as many as there are. -/
theorem spaces (n : Nat) (s : Text) : Apart (Text.spaces n) s := by
  induction n with
  | zero => exact nil
  | succ n ih => exact (blank _).append ih

end Apart

namespace Crosses

theorem of_lexes (h : Crosses (w ++ x) s ns) (hw : Lexes k w (x ++ s))
    (hk : k.isName = false) : Crosses x s ns := by
  obtain ⟨ps, hps, hfirm, hns⟩ := h
  obtain ⟨v, hv⟩ := hw
  rw [List.append_assoc] at hps
  cases ps with
  | nil =>
      have hne : w ≠ [] :=
          piece_text_ne_nil (p := ⟨w, some (k, v), []⟩) (hv ▸ List.mem_cons_self ..)
      have hbytes := congrArg bytes hps
      rw [List.nil_append, bytes_pieces, bytes_pieces, ← List.append_assoc] at hbytes
      exact absurd (List.append_eq_nil_iff.mp (List.append_left_eq_self.mp hbytes)).1 hne
  | cons p ps =>
      rw [hv, List.cons_append, List.cons.injEq] at hps
      obtain ⟨rfl, hps⟩ := hps
      have hname : Piece.name? ⟨w, some (k, v), []⟩ = none := if_neg (by rw [hk]; decide)
      rw [List.filterMap_cons, hname] at hns
      exact ⟨ps, hps, fun q hq => hfirm q (List.mem_cons_of_mem _ hq), hns⟩

/-- An ampersand in front of a text, however many of them the text begins with. -/
theorem amp (h : Crosses x s ns) (hs : (∀ b ∈ x, b = 38) → s.head? ≠ some 38) :
    Crosses ("&" ++ x) s ns := by
  induction hn : x.length using Nat.strong_induction_on generalizing x with
  | _ n ih =>
      subst hn
      have hfront {w y : Text} {k : TokenKind} (hw : Lexes k w (y ++ s))
          (hy : Crosses y s ns) :
          Crosses (w ++ y) s ns := @Crosses.append _ _ _ [] _ (Apart.lexes hw) hy
      have hhead {y : Text} (hy : y.head? ≠ some 38)
          (hs : (∀ b ∈ y, b = 38) → s.head? ≠ some 38) : (y ++ s).head? ≠ some 38 := by
        cases y with
        | nil => exact hs nofun
        | cons c y => exact hy
      have htail {y : Text} (hs : (∀ b ∈ (38 : UInt8) :: y, b = 38) → s.head? ≠ some 38) :
          (∀ b ∈ y, b = 38) → s.head? ≠ some 38 :=
        fun hy => hs (List.forall_mem_cons.mpr ⟨rfl, hy⟩)
      by_cases hx : x.head? = some 38
      · obtain ⟨x, rfl⟩ := List.head?_eq_some_iff.mp hx
        by_cases hx : x.head? = some 38
        · obtain ⟨x, rfl⟩ := List.head?_eq_some_iff.mp hx
          have hrest : Crosses ("&" ++ x) s ns :=
            ih x.length (by simp only [List.length_cons]; omega)
            (h.of_lexes (w := "&&") (lexes_amps _) rfl) (htail (htail hs)) rfl
          exact hfront (w := "&&") (lexes_amps _) hrest
        · have hsingle := hhead hx (htail hs)
          exact hfront (w := "&&") (lexes_amps _)
            (h.of_lexes (w := "&") (lexes_amp hsingle) rfl)
      · exact hfront (lexes_amp (hhead hx hs)) h

end Crosses

/-! ## What is written behind a text -/

/-- The separators that form no longer token with what stands in front of them. -/
def stopBytes : List UInt8 := [10, 32, 40, 41, 44, 59, 60, 91, 93, 123, 125]

/-- Whether a text is empty or begins with such a byte. -/
def Stopped (s : Text) : Prop := ∀ c, s.head? = some c → c ∈ stopBytes

/-- What is written behind a text, and what stands behind that: nothing in front of
one of the bytes above, an angle bracket, or one or two colons. -/
inductive Tail : Text → Text → Prop where
  | stop {s : Text} (h : Stopped s) : Tail [] s
  | gt (s : Text) : Tail [62] s
  | colon {s : Text} (h : s.head? ≠ some 58) : Tail [58] s
  | colons {s : Text} (h : s.head? ≠ some 58) : Tail [58, 58] s

theorem separator_of_stop {c : UInt8} (h : c ∈ stopBytes) : c ∈ separators := by
  have hall : ∀ c ∈ stopBytes, separators.contains c = true := List.all_eq_true.mp rfl
  exact List.contains_iff_mem.mp (hall c h)

theorem glues_of_stop {b c : UInt8} (h : c ∈ stopBytes) : glues b c = false := by
  have hall : ∀ c ∈ stopBytes, (c != 62 && c != 58) = true := List.all_eq_true.mp rfl
  have hne := hall c h
  simp only [Bool.and_eq_true, bne_iff_ne] at hne
  simp [glues, hne.1, hne.2]

theorem Tail.apart {f : Text} (h : Tail f s) : Apart f s := by
  cases h with
  | stop => exact .nil
  | gt => exact .mark rfl s
  | colon h => exact .colon h
  | colons => exact .colons s

theorem Tail.head_ne {f : Text} {b : UInt8} (h : Tail f s) (hb : b ∉ 58 :: 62 :: stopBytes)
    (hx : x.head? ≠ some b) : (x ++ (f ++ s)).head? ≠ some b := by
  simp only [List.mem_cons, not_or] at hb
  cases x with
  | cons c x => exact hx
  | nil =>
      cases h with
      | stop h => exact fun hhead => hb.2.2 (by simpa [stopBytes] using h b hhead)
      | gt => exact fun hhead => hb.2.1 (Option.some.inj hhead).symm
      | colon | colons => exact fun hhead => hb.1 (Option.some.inj hhead).symm

theorem stopped_nil : Stopped [] := nofun

theorem stopped_cons {c : UInt8} (h : c ∈ stopBytes) : Stopped (c :: s) := by
  rintro _ ⟨⟩
  exact h

theorem stopped_space (t : Text) : Stopped (" " ++ t) := stopped_cons (by decide)

theorem Stopped.append (hx : Stopped x) (hy : Stopped y) : Stopped (x ++ y) := by
  cases x with
  | nil => exact hy
  | cons c x => exact stopped_cons (hx c rfl)

/-- Texts with a separator in front of each. -/
def Text.following (sep : Text) (ts : List Text) : Text :=
  if ts.isEmpty then [] else sep ++ Text.join sep ts

theorem Text.join_cons (sep t : Text) (ts : List Text) :
    Text.join sep (t :: ts) = t ++ Text.following sep ts := by
  cases ts with
  | nil => simp [Text.join, Text.following]
  | cons u ts => simp [Text.join, Text.following]

/-- Whether a text is cut off by all that is written behind texts, and some names are among
its tokens. -/
def Shows (x : Text) (ns : List Text) : Prop := ∀ f s, Tail f s → Crosses (x ++ f) s ns

/-- Whether a text is cut off by all that is written behind texts. -/
def Closed (x : Text) : Prop := Shows x []

/-- Whether a text is cut off from all that can stand behind it. -/
def Sealed (x : Text) : Prop := ∀ s, Apart x s

/-- Whether a text ends what stands in front of it and is cut off from all that can stand
behind it. -/
def Divides (m : Text) : Prop := ∀ x ns, Shows x ns → ∀ s, Crosses (x ++ m) s ns

namespace Shows

theorem mono (h : Shows x ns) (hsub : ms ⊆ ns) : Shows x ms :=
  fun f s htail => (h f s htail).mono hsub

theorem closed (h : Shows x ns) : Closed x := h.mono (List.nil_subset _)

theorem crosses (h : Shows x ns) (hs : Stopped s) : Crosses x s ns := by
  simpa using h [] s (.stop hs)

theorem subset (h : Shows x ns) : ns ⊆ nameTokens x := by
  obtain ⟨ps, hps, -, hns⟩ := h.crosses stopped_nil
  rw [List.append_nil, pieces_nil, List.append_nil] at hps
  rwa [nameTokens_pieces, hps]

theorem of_crosses (h : ∀ s, Crosses x s ns) : Shows x ns :=
  fun _ _ htail => (h _).ahead htail.apart

theorem nil : Shows [] [] := of_crosses fun _ => Apart.nil

theorem prepend (hy : Shows y ms) (hx : ∀ f s, Tail f s → Crosses x (y ++ (f ++ s)) ns) :
    Shows (x ++ y) (ns ++ ms) := by
  intro f s htail
  rw [List.append_assoc]
  refine Crosses.append ?_ (hy f s htail)
  rw [List.append_assoc]
  exact hx f s htail

theorem append (hx : Shows x ns) (hy : Shows y ms) (hstop : Stopped y) :
    Shows (x ++ y) (ns ++ ms) := by
  cases y with
  | nil =>
      have hnone : ms = [] := List.subset_nil.mp (nameTokens_nil ▸ hy.subset)
      rwa [hnone, List.append_nil, List.append_nil]
  | cons c y => exact hy.prepend fun f s _ => hx.crosses (stopped_cons (hstop c rfl))

theorem behind (hm : Sealed m) (hx : Shows x ns) : Shows (m ++ x) ns :=
  hx.prepend fun _ _ _ => hm _

theorem divided (hx : Shows x ns) (hm : Divides m) (hy : Shows y ms) :
    Shows (x ++ (m ++ y)) (ns ++ ms) := by
  rw [← List.append_assoc]
  exact hy.prepend fun f s _ => hm x ns hx _

theorem ended (hx : Shows x ns) (hm : Divides m) : Shows (x ++ m) ns :=
  of_crosses (hm x ns hx)

/-- Two colons do not end a text that ends with one, unless they end there themselves. -/
theorem colons (hx : Shows x ns) (hy : Shows y ms) (hhead : ∃ b u, y = b :: u ∧ b ≠ 58) :
    Shows (x ++ ("::" ++ y)) (ns ++ ms) := by
  obtain ⟨b, y, rfl, hb⟩ := hhead
  rw [← List.append_assoc]
  exact hy.prepend fun f s _ => hx _ _ (.colons fun h58 => hb (Option.some.inj h58))

theorem amp (h : Shows x ns) : Shows ("&" ++ x) ns := by
  intro f s htail
  rw [List.append_assoc]
  refine (h f s htail).amp fun hamps => ?_
  cases htail with
  | stop hs => exact fun h38 => absurd (hs 38 h38) (by decide)
  | gt | colon | colons =>
      exact absurd (hamps _ (List.mem_append_right _ (List.mem_cons_self ..))) (by decide)

theorem joined {xs : List Text} {nss : List (List Text)} (hm : Divides m)
    (h : List.Forall₂ Shows xs nss) : Shows (Text.join m xs) nss.flatten := by
  induction h with
  | nil => exact nil
  | cons hx hxs ih =>
      rw [List.flatten_cons]
      cases hxs with
      | nil =>
          rw [List.flatten_nil, List.append_nil]
          exact hx
      | cons hy hys =>
          rw [Text.join, List.append_assoc]
          exact hx.divided hm ih

theorem join {α : Type} {f : α → Text} {g : α → List Text} {as : List α} (hm : Divides m)
    (h : ∀ a ∈ as, Shows (f a) (g a)) : Shows (Text.join m (as.map f)) (as.flatMap g) := by
  rw [List.flatMap_def]
  exact joined hm (List.forall₂_map_left_iff.mpr (List.forall₂_map_right_iff.mpr
    (List.forall₂_same.mpr h)))

theorem following_colons {α : Type} {f : α → Text} {g : α → List Text} {as : List α}
    (hx : Shows x ns) (h : ∀ a ∈ as, Shows (f a) (g a))
    (hhead : ∀ a ∈ as, ∃ b u, f a = b :: u ∧ b ≠ 58) :
    Shows (x ++ Text.following "::" (as.map f)) (ns ++ as.flatMap g) := by
  induction as generalizing x ns with
  | nil => simpa [Text.following] using hx
  | cons a as ih =>
      obtain ⟨ha, has⟩ := List.forall_mem_cons.mp h
      obtain ⟨hfirst, hrest⟩ := List.forall_mem_cons.mp hhead
      have htext : x ++ Text.following "::" ((a :: as).map f) =
          (x ++ ("::" ++ f a)) ++ Text.following "::" (as.map f) := by
        rw [List.map_cons, Text.following, List.isEmpty_cons, if_neg Bool.false_ne_true,
          Text.join_cons]
        simp only [List.append_assoc]
      rw [htext, List.flatMap_cons, ← List.append_assoc ns]
      exact ih (hx.colons ha hfirst) has hrest

/-- Texts that do not begin with a colon, with two colons between them. -/
theorem join_colons {α : Type} {f : α → Text} {g : α → List Text} {as : List α}
    (h : ∀ a ∈ as, Shows (f a) (g a)) (hhead : ∀ a ∈ as, ∃ b u, f a = b :: u ∧ b ≠ 58) :
    Shows (Text.join "::" (as.map f)) (as.flatMap g) := by
  cases as with
  | nil => exact nil
  | cons a as =>
      obtain ⟨ha, has⟩ := List.forall_mem_cons.mp h
      rw [List.map_cons, Text.join_cons]
      exact ha.following_colons has fun b hb => hhead b (List.mem_cons_of_mem _ hb)

end Shows

namespace Sealed

theorem nil : Sealed [] := fun _ => .nil

theorem append (hx : Sealed x) (hy : Sealed y) : Sealed (x ++ y) :=
  fun s => (hx _).append (hy s)

theorem closed (hx : Sealed x) : Closed x := .of_crosses hx

theorem append_closed (hx : Sealed x) (hy : Closed y) : Closed (x ++ y) :=
  Shows.behind hx hy

theorem divides (hm : Sealed m) (hstop : ∀ s, Stopped (m ++ s)) : Divides m :=
  fun _ _ hx s => (hx.crosses (hstop s)).ahead (hm s)

end Sealed

namespace Closed

theorem nil : Closed [] := Shows.nil

theorem apart (h : Closed x) (hs : Stopped s) : Apart x s := h.crosses hs

theorem prepend (hy : Closed y) (hx : ∀ f s, Tail f s → Apart x (y ++ (f ++ s))) :
    Closed (x ++ y) := Shows.prepend hy hx

theorem append (hx : Closed x) (hy : Closed y) (hstop : Stopped y) : Closed (x ++ y) :=
  Shows.append hx hy hstop

theorem divided (hx : Closed x) (hm : Divides m) (hy : Closed y) : Closed (x ++ (m ++ y)) :=
  Shows.divided hx hm hy

theorem ended (hx : Closed x) (hm : Divides m) : Sealed (x ++ m) := hm x [] hx

theorem colons (hx : Closed x) (hy : Closed y) (hhead : ∃ b u, y = b :: u ∧ b ≠ 58) :
    Closed (x ++ ("::" ++ y)) := Shows.colons hx hy hhead

theorem join {ts : List Text} (hm : Divides m) (h : ∀ t ∈ ts, Closed t) :
    Closed (Text.join m ts) := by
  have hjoin := Shows.join (f := id) (g := fun _ => []) hm h
  rw [List.map_id] at hjoin
  exact hjoin.closed

end Closed

/-! ## Words and fragments -/

/-- A clean text that ends with a token, in front of a separator: either both have
the pieces they have alone, or they form a longer token where they meet. -/
theorem Solid.meets {c : UInt8} (h : Solid x) (hc : c ∈ separators) (s : Text) :
    pieces (x ++ c :: s) = pieces x ++ pieces (c :: s) ∨
    Crosses (x ++ [c]) s (nameTokens x) := by
  obtain ⟨us, last, hown, hstop⟩ := h.last
  have hmem : last ∈ ownTokens x := by rw [hown]; simp
  obtain ⟨qs, p, hsplit, -⟩ := pieces_of_stop hmem hstop
  have hclean : ∀ q ∈ pieces x, q.faults = [] :=
    errorsAt_eq_nil.mp (scan_errors x ▸ h.clean)
  have hcleans : ∀ q ∈ qs, q.faults = [] := fun q hq => hclean q (by simp [hsplit, hq])
  by_cases hglue : ∃ b, p.text = [b] ∧ glues b c = true
  · -- the last token is a mark that the separator makes longer
    obtain ⟨b, hb, hglue⟩ := hglue
    right
    have hx : x = bytes qs ++ [b] := by
      rw [← bytes_pieces x, hsplit, bytes_append, bytes_cons, hb, bytes_nil,
        List.append_nil]
    have hcut : pieces (bytes qs ++ ([b] ++ [])) = qs ++ [p] := by
      rw [List.append_nil, ← hx, hsplit]
    have hwithin : pieces (bytes qs ++ ([b] ++ c :: s)) = qs ++ pieces ([b] ++ c :: s) :=
      pieces_within hcut hcleans (fun _ => nofun) (by rintro _ ⟨⟩; exact hc) nofun
    have hmerged : ∃ q : Piece, pieces (b :: c :: s) = q :: pieces s ∧ q.faults = [] := by
      have hglue := hglue
      simp only [glues, Bool.or_eq_true, Bool.and_eq_true, beq_iff_eq] at hglue
      rcases hglue with ⟨rfl, rfl | rfl⟩ | ⟨rfl, rfl⟩ <;> exact ⟨_, pieces_cons _ _, rfl⟩
    obtain ⟨q, hq, hqclean⟩ := hmerged
    have hname : p.name? = none := by
      refine Option.bind_eq_none_iff.mpr fun kv hkv => if_neg fun hk => ?_
      have hlast :=
          lasts_of_piece (s := x) (c := b) (by rw [hsplit]; simp) hkv (by rw [hb]; rfl)
      exact not_point_of_lasts (TokenKind.isWord_of_isName hk) hlast (point_of_glues hglue)
    have hcrosses : Crosses (x ++ [c]) s ((qs ++ [q]).filterMap Piece.name?) := by
      refine .of_pieces ?_ (List.forall_mem_append.mpr
        ⟨hcleans, List.forall_mem_singleton.mpr hqclean⟩)
      rw [List.append_assoc, List.singleton_append, hx, List.append_assoc, hwithin,
        List.append_assoc]
      exact congrArg (qs ++ ·) hq
    refine hcrosses.mono ?_
    rw [nameTokens_pieces, hsplit, List.filterMap_append, List.filterMap_cons, hname,
      List.filterMap_nil, List.append_nil, List.filterMap_append]
    exact List.subset_append_left _ _
  · left
    refine Scan.pieces_append h.clean ?_
    rintro _ ⟨⟩
    refine ⟨hc, fun q b hq hb => ?_, fun _ q hq => not_comment_of_stop hmem hstop hq⟩
    rw [hsplit, List.getLast?_concat] at hq
    cases hq
    rw [← Bool.not_eq_true]
    exact fun htrue => hglue ⟨b, hb, htrue⟩

/-- The text from one token to another is no part of a longer token that goes on behind
what is written behind it. -/
theorem Solid.shows (h : Solid x) : Shows x (nameTokens x) := by
  intro f s htail
  have hclean : ∀ p ∈ pieces x, p.faults = [] :=
    errorsAt_eq_nil.mp (scan_errors x ▸ h.clean)
  have hwhole {t : Text} (hpieces : pieces (x ++ t) = pieces x ++ pieces t) :
      Crosses x t (nameTokens x) := by
    rw [nameTokens_pieces]
    exact .of_pieces hpieces hclean
  -- behind a separator that does not belong to the last token the rest is read by itself
  have hcrosses {c : UInt8} (hc : c ∈ separators) {t : Text} (ht : Apart [c] t) :
      Crosses (x ++ [c]) t (nameTokens x) := by
    rcases h.meets hc t with hpieces | hmerged
    · exact (hwhole hpieces).ahead ht
    · exact hmerged
  cases htail with
  | stop hs =>
      rw [List.append_nil]
      cases s with
      | nil => exact hwhole (by rw [List.append_nil, pieces_nil, List.append_nil])
      | cons c s =>
          refine hwhole (h.pieces_append ⟨c, s, rfl, separator_of_stop (hs c rfl), ?_⟩)
          exact fun b _ => glues_of_stop (hs c rfl)
  | gt => exact hcrosses (by decide) (.mark rfl s)
  | colon hs => exact hcrosses (by decide) (.colon hs)
  | colons hs =>
      rcases h.meets (c := 58) (by decide) (58 :: s) with hpieces | hmerged
      · exact (hwhole hpieces).ahead (.colons s)
      · rw [List.append_cons]
        exact hmerged.ahead (.colon hs)

theorem Solid.closed (h : Solid x) : Closed x := h.shows.closed

theorem Shows.of_solid (h : x = [] ∨ Solid x) : Shows x (nameTokens x) := by
  rcases h with rfl | h
  · exact Shows.nil.mono (by simp)
  · exact h.shows

theorem Word.closed (h : Word k w) : Closed w := h.solid.closed

theorem Word.shows (h : Word k w) (hk : k.isName = true) : Shows w [w] := by
  have hshows := h.solid.shows
  rwa [h.nameTokens, hk] at hshows

theorem Word.exists_cons (h : Word k w) (hk : k.isName = true) :
    ∃ b u, w = b :: u ∧ b ≠ 58 := by
  obtain ⟨b, u, v, rfl, htoken, -⟩ := h.cons
  refine ⟨b, u, rfl, ?_⟩
  rintro rfl
  rw [lexeme_pair (by decide : (58, 58, .doubleColon, .colon) ∈ pairs)] at htoken
  split at htoken <;> cases htoken <;> cases hk

/-! ## Marks -/

theorem pieces_stop {c : UInt8} (hc : c ∈ stopBytes) (s : Text) :
    pieces (c :: s) = pieces [c] ++ pieces s ∧ ∀ p ∈ pieces [c], p.faults = [] := by
  simp only [stopBytes, List.mem_cons, List.not_mem_nil, or_false] at hc
  rw [pieces_cons, pieces_cons]
  rcases hc with rfl | rfl | rfl | rfl | rfl | rfl | rfl | rfl | rfl | rfl | rfl
  all_goals exact ⟨by rw [List.drop_nil, pieces_nil]; rfl, by simp [pieces_nil]; rfl⟩

theorem Sealed.stop {c : UInt8} (hc : c ∈ stopBytes) : Sealed [c] := fun s =>
  .of_pieces (pieces_stop hc s).1 (pieces_stop hc s).2

theorem divides_gt : Divides ">" := fun _ _ hx s => hx _ s (.gt s)

theorem divides_colon : Divides ": " := fun x _ hx s => by
  have hsplit : x ++ Text.ofString ": " = (x ++ [58]) ++ [32] := by
    rw [List.append_assoc]
    rfl
  rw [hsplit]
  exact Crosses.ahead (hx _ _ (.colon nofun)) (.blank s)

/-! ## Texts that are known -/

/-- Whether a text has no lexical errors and ends with a token. -/
def settled (x : Text) : Bool :=
  (scan x).errors.isEmpty && (ownTokens x).getLast?.any (·.stop == x.length)

/-- Whether a text is such a one in front of a separator, or that alone. -/
def seals (x : Text) : Bool :=
  x.getLast?.any (stopBytes.contains ·) && (x.length == 1 || settled x.dropLast)

theorem pieces_of_settled (h : settled x = true) (hs : Fits x s) :
    pieces (x ++ s) = pieces x ++ pieces s ∧ ∀ p ∈ pieces x, p.faults = [] := by
  rw [settled, Bool.and_eq_true, List.isEmpty_iff] at h
  obtain ⟨hclean, hlast⟩ := h
  rw [Option.any_eq_true] at hlast
  obtain ⟨t, ht, hstop⟩ := hlast
  refine ⟨pieces_fit hclean ⟨t, List.mem_of_getLast? ht, beq_iff_eq.mp hstop⟩ hs, ?_⟩
  exact errorsAt_eq_nil.mp (scan_errors x ▸ hclean)

theorem pieces_of_seals (h : seals x = true) (s : Text) :
    pieces (x ++ s) = pieces x ++ pieces s ∧ ∀ p ∈ pieces x, p.faults = [] := by
  rw [seals, Bool.and_eq_true, Bool.or_eq_true] at h
  obtain ⟨hlast, hrest⟩ := h
  cases hx : x.getLast? with
  | none =>
      rw [hx] at hlast
      cases hlast
  | some c =>
      rw [hx, Option.any_some, List.contains_iff_mem] at hlast
      obtain ⟨hstop, hstopclean⟩ := pieces_stop hlast s
      have hsplit : x.dropLast ++ [c] = x := List.dropLast_append_getLast? c hx
      rcases hrest with hone | hsettled
      · have hnil : x.dropLast = [] := List.length_eq_zero_iff.mp (by
          rw [List.length_dropLast, beq_iff_eq.mp hone])
        rw [← hsplit, hnil]
        exact ⟨hstop, hstopclean⟩
      · have hfits (s : Text) : Fits x.dropLast (c :: s) :=
          ⟨c, s, rfl, separator_of_stop hlast, fun b _ => glues_of_stop hlast⟩
        obtain ⟨hpieces, hclean⟩ := pieces_of_settled hsettled (hfits s)
        have halone := (pieces_of_settled hsettled (hfits [])).1
        rw [hsplit] at halone
        rw [halone]
        refine ⟨?_, List.forall_mem_append.mpr ⟨hclean, hstopclean⟩⟩
        rw [List.append_assoc, ← hstop, ← hpieces]
        exact congrArg pieces ((List.append_cons ..).trans (congrArg (· ++ s) hsplit)).symm

theorem Sealed.of_seals (h : seals x = true) : Sealed x := fun s =>
  .of_pieces (pieces_of_seals h s).1 (pieces_of_seals h s).2

/-- Whether a text begins and ends with a token and has no lexical errors. -/
def isSolid (x : Text) : Bool := settled x && (ownTokens x).head?.any (·.offset == 0)

theorem Closed.of_isSolid (h : isSolid x = true) : Closed x := by
  rw [isSolid, settled, Bool.and_eq_true, Bool.and_eq_true, List.isEmpty_iff] at h
  obtain ⟨⟨hclean, hlast⟩, hfirst⟩ := h
  refine Solid.closed ⟨hclean, ?_, ?_⟩
  · cases hown : ownTokens x with
    | nil =>
        rw [hown] at hfirst
        cases hfirst
    | cons t ts =>
        rw [hown] at hfirst
        exact ⟨t, ts, rfl, by simpa using hfirst⟩
  · rcases List.eq_nil_or_concat (ownTokens x) with hown | ⟨ts, t, hown⟩
    · rw [hown] at hlast
      cases hlast
    · rw [List.concat_eq_append] at hown
      rw [hown, List.getLast?_concat] at hlast
      exact ⟨ts, t, hown, by simpa using hlast⟩

/-- A text such as this in front of a separator, or one separator, as it may stand between
texts. -/
theorem divides_of_seals (h : seals m = true)
    (hstop : (m.head?.any (stopBytes.contains ·)) = true) : Divides m := by
  refine (Sealed.of_seals h).divides fun s => ?_
  cases m with
  | nil => cases hstop
  | cons c m =>
      rw [List.head?_cons, Option.any_some, List.contains_iff_mem] at hstop
      exact stopped_cons hstop

theorem divides_blank : Divides " " := divides_of_seals rfl rfl
theorem divides_lparen : Divides "(" := divides_of_seals rfl rfl
theorem divides_rparen : Divides ")" := divides_of_seals rfl rfl
theorem divides_rbracket : Divides "]" := divides_of_seals rfl rfl
theorem divides_comma : Divides ", " := divides_of_seals rfl rfl
theorem divides_semicolon : Divides "; " := divides_of_seals rfl rfl
theorem divides_plus : Divides " + " := divides_of_seals rfl rfl
theorem divides_equals : Divides " = " := divides_of_seals rfl rfl
theorem divides_as : Divides " as " := divides_of_seals rfl rfl

/-! ## Lists -/

theorem Closed.following {ts : List Text} (hm : Sealed m) (hstop : ∀ s, Stopped (m ++ s))
    (h : ∀ t ∈ ts, Closed t) : Closed (Text.following m ts) := by
  rw [Text.following]
  split
  · exact .nil
  · exact hm.append_closed (.join (hm.divides hstop) h)

end Deriver

/-!
## Texts that generated code writes of its own

Besides names and text of the source, generated code holds numbers, names made of numbers,
and names in quotes. The quotes around a text end where they should whatever the text is,
though not every escape it is written with is one of the language.
-/

namespace Deriver

open Scan

variable {s t w x : Text} {k : TokenKind} {b c : UInt8} {n : Nat}

/-! ### Names and numbers -/

theorem IsIdent.closed (h : IsIdent w) : Closed w := (word_of_isIdent h).closed

theorem IsIdent.cons (h : IsIdent w) : ∃ b u, w = b :: u ∧ isAlpha b = true := by
  unfold IsIdent Text.dropStart Text.dropStart? at h
  split at h
  · next hmark =>
      obtain ⟨v, rfl⟩ := List.isPrefixOf_iff_prefix.mp hmark
      exact ⟨114, 35 :: v, rfl, rfl⟩
  · obtain ⟨b, u, rfl, hb, -⟩ := h
    exact ⟨b, u, rfl, hb⟩

theorem Apart.dot (h : s.head? ≠ some 46) : Apart "." s := by
  refine .of_piece (p := ⟨[46], some (.dot, none), []⟩) ?_ rfl
  change pieces (46 :: s) = _
  rw [pieces_cons, piece, lexeme_dot, if_neg h]
  rfl

theorem exists_numeral (hne : t ≠ []) (h : ∀ b ∈ t, Text.isDigitByte b = true) :
    ∃ n, Numeral 10 n t := by
  have hglyph : ∀ b : UInt8, Text.isDigitByte b = true → ∃ d < 10, IsGlyph d b := by
    refine forall_byte ?_
    unfold IsGlyph
    decide +kernel
  induction t using List.reverseRecOn with
  | nil => exact absurd rfl hne
  | append_singleton t b ih =>
      obtain ⟨ht, hb⟩ := List.forall_mem_append.mp h
      obtain ⟨d, hd, hb⟩ := hglyph b (hb b (List.mem_singleton_self b))
      rcases eq_or_ne t [] with rfl | ht'
      · exact ⟨d, .first hd hb⟩
      · obtain ⟨n, hn⟩ := ih ht' ht
        exact ⟨_, .digit hn hd hb⟩

theorem Text.isDigitByte_of_mem_ofNat (h : b ∈ Text.ofNat n) :
    Text.isDigitByte b = true := by
  rw [Text.ofNat_eq_map] at h
  obtain ⟨c, hc, rfl⟩ := List.mem_map.mp h
  obtain ⟨hlow, hhigh⟩ := Text.digit_of_mem_toDigits hc
  have hall : ∀ m < 58, 48 ≤ m → Text.isDigitByte (UInt8.ofNat m) = true := by decide
  exact hall _ (by omega) hlow

theorem Text.ofNat_ne_nil (n : Nat) : Text.ofNat n ≠ [] := by
  rw [Text.ofNat_eq_map]
  exact List.map_eq_nil_iff.not.mpr (List.length_pos_iff.mp Nat.length_toDigits_pos)

theorem word_ofNat (n : Nat) : Word .int (Text.ofNat n) := by
  obtain ⟨m, hm⟩ :=
    exists_numeral (Text.ofNat_ne_nil n) fun _ => Text.isDigitByte_of_mem_ofNat
  obtain ⟨b, u, hu, hlexeme⟩ := hm.lexeme_decimal (List.mem_cons_self ..)
  rw [List.append_nil] at hlexeme
  refine ⟨if m < Nat.pow 2 63 then some (.int m) else none, ?_⟩
  rw [hu, pieces_cons, piece, hlexeme, List.take_length, List.drop_length, pieces_nil]
  rfl

theorem isIdent_underscore (n : Nat) : IsIdent ("_" ++ Text.ofNat n) := by
  refine IsWord.isIdent ⟨95, Text.ofNat n, rfl, rfl, fun b hb => ?_⟩
  rw [isAlphaNum, Text.isDigitByte_of_mem_ofNat hb, Bool.or_true]

/-! ### Texts in quotes -/

theorem newline_notMem_hex (width n : Nat) : 10 ∉ Text.hex width n := by
  have hdigit : ∀ m < 16, (10 : UInt8) ≠ Text.hexByte m := by decide
  induction width generalizing n with
  | zero => exact List.not_mem_nil
  | succ width ih =>
      rw [Text.hex, List.mem_append, List.mem_singleton]
      exact not_or.mpr ⟨ih _, hdigit _ (Nat.mod_lt n (by decide))⟩

theorem newline_notMem_quotedLetter (l : Text.Letter) : 10 ∉ Text.quotedLetter l := by
  have hhex (c : UInt8) (hc : c ≠ 10) (width n : Nat) : 10 ∉ 92 :: c ::
      Text.hex width n := by
    simp [Ne.symm hc, newline_notMem_hex]
  cases l with
  | inr b => exact hhex 120 (by decide) 2 b.toNat
  | inl c =>
      rw [Text.quotedLetter]
      unfold Text.quotedChar
      split
      case h_6 hnewline _ _ =>
        dsimp only
        split_ifs
        · by_cases hc : c.toNat < 0x80
          · rw [Text.ofChar_low hc, List.mem_singleton]
            intro h10
            refine hnewline (Char.toNat_inj.mp ?_)
            have hnat := congrArg UInt8.toNat h10
            rw [Text.toNat_ofNat_low hc] at hnat
            exact hnat.symm
          · intro hmem
            have hhigh := Text.high_of_mem_ofChar (Nat.le_of_not_lt hc) hmem
            exact absurd hhigh (by decide)
        · decide
        · decide
        · decide
        · decide
        · exact hhex 120 (by decide) 2 c.toNat
        · exact hhex 117 (by decide) 4 c.toNat
        · exact hhex 85 (by decide) 8 c.toNat
      all_goals decide

theorem body_fault_le {stop : UInt8 → Bool} {k m : Nat} {f : Fault}
    (h : (f, m) ∈ (body stop k t).faults) : m ≤ (body stop k t).size := by
  have hpush {v : Text} {d : Body} (ih : ∀ m, (f, m) ∈ d.faults → m ≤ d.size) {m : Nat}
      (h : (f, m) ∈ (d.push v).faults) : m ≤ (d.push v).size := by
    obtain ⟨⟨f', j⟩, hj, heq⟩ := List.mem_map.mp h
    cases heq
    exact Nat.succ_le_succ (ih _ hj)
  induction t generalizing k m with
  | nil => cases k <;> cases h
  | cons b t ih =>
      cases k with
      | succ k => exact hpush (fun _ => ih) h
      | zero =>
          rw [body] at h ⊢
          split at h
          · cases h
          split at h
          · next hstop hb =>
              rw [if_neg hstop, if_pos hb]
              dsimp only at h ⊢
              split at h
              · rcases List.mem_cons.mp h with heq | h
                · cases heq
                  exact Nat.succ_le_succ (le_body_size (escape_size_le t))
                · exact hpush (fun _ => ih) h
              · exact hpush (fun _ => ih) h
          · next hstop hb =>
              rw [if_neg hstop, if_neg hb]
              exact hpush (fun _ => ih) h

theorem sealed_quoted (t : Text) : Sealed t.quoted := by
  obtain ⟨v, clean, hdecodes, -⟩ := decodes_letters t.units
  have h10 : 10 ∉ t.units.flatMap Text.quotedLetter := fun hmem => by
    obtain ⟨l, -, hl⟩ := List.mem_flatMap.mp hmem
    exact newline_notMem_quotedLetter l hl
  have hw : t.quoted = 34 :: (t.units.flatMap Text.quotedLetter ++ [34]) := by
    rw [Text.quoted_eq]
    rfl
  generalize t.units.flatMap Text.quotedLetter = w at hdecodes h10 hw
  have hlen (s : Text) : (body (· == 34) 0 (w ++ [34] ++ s)).size = w.length := by
    rw [List.append_assoc]
    exact (hdecodes.size ([34] ++ s)).trans (Nat.zero_add _)
  have hbody (s : Text) : body (· == 34) 0 (w ++ [34] ++ s) =
      body (· == 34) 0 (w ++ [34]) := by
    have hlt : (body (· == 34) 0 ((w ++ [34]) ++ [])).size < (w ++ [34]).length := by
      rw [hlen]
      simp
    have hreplace : body (· == 34) 0 ((w ++ [34]) ++ s) =
        body (· == 34) 0 ((w ++ [34]) ++ []) :=
      body_replace hlt
    rwa [List.append_nil] at hreplace
  have hlexeme (s : Text) : lexeme 34 (w ++ [34] ++ s) =
      ⟨(w ++ [34]).length, some (.str, some (.str (body (· == 34) 0 (w ++ [34])).value)),
        (body (· == 34) 0 (w ++ [34])).faults⟩ := by
    have hdrop : (w ++ [34] ++ s).drop w.length = 34 :: s := by simp
    have hsize := hlen s
    rw [hbody] at hsize
    change string (w ++ [34] ++ s) = _
    simp only [string, hbody, hsize, hdrop, List.length_append, List.length_singleton]
  have hpiece (s : Text) : piece 34 (w ++ [34] ++ s) = piece 34 (w ++ [34]) := by
    have halone := hlexeme []
    rw [List.append_nil] at halone
    simp only [piece, hlexeme, halone, List.take_left, List.take_length]
    refine congrArg (Piece.mk _ _) (List.map_congr_left fun fault hfault => ?_)
    obtain ⟨f, m⟩ := fault
    have hle : m ≤ (w ++ [34]).length := by
      have := body_fault_le hfault
      rw [← hbody [], hlen] at this
      exact Nat.le_trans this (by simp)
    rw [List.take_append_of_le_length hle]
  intro s
  refine ⟨[piece 34 (w ++ [34])], ?_, List.forall_mem_singleton.mpr (.inr ?_),
    List.nil_subset _⟩
  · rw [hw, List.cons_append, pieces_cons, hpiece, hlexeme, List.drop_left]
    rfl
  · refine ⟨34, w ++ [34], ?_, by decide, by simpa using h10, fun s => ⟨hpiece s, ?_⟩⟩
    · have halone := hlexeme []
      rw [List.append_nil] at halone
      rw [piece, halone, List.take_length]
    · rw [hlexeme]

end Deriver
