import Deriver.Proofs.Parse.Isolation
import Deriver.Proofs.Token.Fragment

/-!
# Declarations read again

Main statement: `parse_slice`. A declaration covers a piece of its source, and
that piece is a source by itself: it is read as the same declaration, and as
nothing else. So what a declaration is depends on its own bytes alone, also when
the source around it is broken.

The tokens of the piece are those of the source because the last one is no
character: no other byte can change it, and every lexeme in front of it ends at a
byte that is in the piece.
-/

namespace Deriver

open Parse

/-! ## The piece that an item covers -/

variable {s pre x post : Text} {ts us : List Token} {d : Decl}

/-- Whether `x` stands between `pre` and `post`, begins and ends with a token, and
has the tokens of `ts` in front of `us`. -/
structure Cut (s pre x post : Text) (ts us : List Token) : Prop where
  source : s = pre ++ x ++ post
  clean : (scan x).errors = []
  tokens : ts = (ownTokens x).map (behindText pre) ++ us
  first : ∃ t vs, ownTokens x = t :: vs ∧ t.offset = 0
  last : ∃ t vs, ownTokens x = vs ++ [t] ∧ t.kind ∈ closers ∧ t.stop = x.length

/-- What is left of the tokens, without the one that marks the end. -/
theorem own_of_suffix (hts : ts <:+ (scan s).tokens) (hne : ts ≠ []) :
    ∃ vs, ts = vs ++ [endOf s] ∧ vs <:+ ownTokens s := by
  rw [scan_tokens_own, List.suffix_concat_iff] at hts
  rcases hts with rfl | ⟨vs, rfl, hvs⟩
  · exact absurd rfl hne
  · exact ⟨vs, rfl, hvs⟩

/-- Tokens up to one that closes an item are those of the bytes they cover. -/
theorem exists_cut (hs : (scan s).errors = []) (hts : ts <:+ (scan s).tokens) {t : Token}
    (ht : t.kind ∈ closers) (hsub : t :: us <:+ ts) (hne : us ≠ []) :
    ∃ pre x post, Cut s pre x post ts us := by
  obtain ⟨us, rfl, -⟩ := own_of_suffix (((List.suffix_cons t us).trans hsub).trans hts) hne
  obtain ⟨ts, rfl, hown⟩ := own_of_suffix hts (hsub.ne_nil (List.cons_ne_nil _ _))
  replace hsub : t :: us <:+ ts := ((List.suffix_append_inj_of_length_eq rfl).mp hsub).1
  obtain ⟨vs, rfl⟩ := hsub
  have hown' : (vs ++ [t]) ++ us <:+ ownTokens s := by rwa [List.append_assoc]
  obtain ⟨pre, x, post, hx, rfl, htokens⟩ := exists_solid hs hown' (by simp)
    fun t' u hlast _ hchar => by
      rw [List.getLast?_concat] at hlast
      cases hlast
      exact absurd (hchar ▸ ht) (by decide)
  obtain ⟨ws, t', hlast, hstop⟩ := hx.last
  refine ⟨pre, x, post, (List.append_assoc ..).symm, hx.clean, ?_, hx.first, t', ws,
    hlast, ?_, hstop⟩
  · rw [List.append_cons vs t us, htokens, List.append_assoc]
    rfl
  · rw [hlast, List.map_append, List.map_singleton] at htokens
    rw [(List.append_inj' htokens rfl).2 |> List.singleton_inj.mp] at ht
    exact ht

theorem Cut.last_closer (h : Cut s pre x post ts us) {t : Token}
    (ht : (ownTokens x).getLast? = some t) : t.kind ∈ closers := by
  obtain ⟨t', vs, hown, hk, -⟩ := h.last
  rw [hown, List.getLast?_concat] at ht
  cases ht
  exact hk

/-- A declaration that is the whole of the run in the second list is so in the
first. -/
theorem Parse.Overlap.decl_of_right {W : Overlap} (hts : W.Inside ts)
    (h : item W.source' (W.right ts) = (.decl d, W.rest')) :
    ∃ d', item W.source (W.left ts) = (.decl d', W.rest) ∧ d = d'.place W.shift W.gap := by
  have hsame := sameItem hts
  rw [h] at hsame
  generalize item W.source (W.left ts) = x at hsame ⊢
  generalize hy : (Item.decl d, W.rest') = y at hsame
  cases hsame with
  | decl d' us hsub hlt =>
      obtain ⟨hd, hrest⟩ := Prod.mk.inj hy
      have hus : us = [] := by
        have hlen := congrArg List.length hrest
        simp only [right, List.length_append, List.length_map] at hlen
        exact List.length_eq_zero_iff.mp (by omega)
      rw [hus]
      exact ⟨d', rfl, Item.decl.inj hd⟩
  | skip i us hi hsub hne =>
      obtain ⟨hd, -⟩ := Prod.mk.inj hy
      rcases hi with rfl | ⟨m, rfl⟩ <;> cases hd
  | scope us hsub hne hvis hx hy' =>
      subst hy
      rcases hy' with hy' | hy'
      · exact absurd hy'.lt (Nat.lt_irrefl _)
      · cases hy'
  | out hx hy' =>
      subst hy
      exact absurd hy'.lt (Nat.lt_irrefl _)
  | error | closing | nothing => cases hy

/-- A declaration that covers a piece is what is read of the piece alone. -/
theorem Cut.item (h : Cut s pre x post ts us) (hus : Ended us)
    (hd : Parse.item s ts = (.decl d, us)) :
    ∃ d', Parse.item x (scan x).tokens = (.decl d', [endOf x]) ∧
      d = d'.place (Position.start.after pre).shift pre.length := by
  let W := overlapOf pre x post us hus fun _ => h.last_closer
  have hin : W.Inside (ownTokens x) := by
    obtain ⟨t, vs, hown, -⟩ := h.first
    exact ⟨List.suffix_refl _, by rw [hown]; exact List.cons_ne_nil _ _⟩
  rw [h.tokens, h.source] at hd
  rw [scan_tokens_own]
  exact Overlap.decl_of_right (W := W) hin hd

theorem Cut.offsets (h : Cut s pre x post ts us) (hts : Ended ts)
    (hd : Parse.item s ts = (.decl d, us)) :
    d.first = pre.length ∧ d.stop = pre.length + x.length := by
  obtain ⟨hfirst, hstop, -⟩ := item_decl hts hd
  obtain ⟨t, vs, hown, ht⟩ := h.first
  obtain ⟨u, vs', hown', -, hu⟩ := h.last
  have hbetween : between ts us = (ownTokens x).map (behindText pre) := by
    rw [h.tokens, between_append]
  refine ⟨?_, ?_⟩
  · rw [hfirst, h.tokens, hown]
    change pre.length + t.offset = _
    rw [ht, Nat.add_zero]
  · rw [hstop, hbetween, hown', List.map_append, List.map_singleton,
      List.getLast?_concat, ← hu]
    exact Nat.add_assoc ..

/-! ## Declarations one after the other -/

theorem le_first_of_mem (hts : ts <:+ (scan s).tokens) (hended : Ended ts)
    (hd : .decl d ∈ items s ts) : (ts.headD Token.none).offset ≤ d.first := by
  obtain ⟨us, hsub, hus, -, hitem⟩ := exists_of_mem_items hended hd
  obtain ⟨hfirst, -⟩ := item_decl hus (Prod.ext hitem rfl : item s us = (_, (item s us).2))
  rw [hfirst]
  exact offset_le_of_suffix hts hsub hus.ne_nil

theorem decls_apart (hts : ts <:+ (scan s).tokens) (hended : Ended ts) :
    ((items s ts).filterMap Item.decl?).Pairwise fun d e => d.stop ≤ e.first := by
  induction hn : ts.length using Nat.strong_induction_on generalizing ts with
  | _ n ih =>
      by_cases hk : kindOf ts 0 = .eof
      · rw [items_of_eof s hk]
        exact .nil
      · have hbehind := behind_item s hended hk
        have hus := hbehind.ended hended
        have htail := ih _ (hn ▸ hbehind.lt) (hbehind.sub.trans hts) hus rfl
        rw [items_step s hended hk]
        cases hi : (item s ts).1 with
        | decl d =>
            have hitem : item s ts = (.decl d, (item s ts).2) := Prod.ext hi rfl
            refine List.Pairwise.cons (fun e he => ?_) htail
            obtain ⟨t, vs, hcons⟩ := List.exists_cons_of_ne_nil hbehind.ne
            have hstop := stop_le_of_between hts hbehind.sub hbehind.lt
              (hcons ▸ List.mem_cons_self (a := t) (l := vs))
            have hfirst := le_first_of_mem (hbehind.sub.trans hts) hus (mem_decls_iff.mp he)
            rw [hcons] at hfirst
            rw [(item_decl hended hitem).2.1]
            exact Nat.le_trans hstop hfirst
        | error | inlineModule | skipped | nothing =>
            exact htail

/-- The keyword of a declaration stands between the offsets where it begins and ends. -/
theorem keyword_of_mem_decls (hd : d ∈ (parse s).file.decls) :
    ∃ keyword ∈ (scan s).tokens, d.pos = keyword.pos ∧ d.first ≤ keyword.offset ∧
      keyword.offset < d.stop ∧ d.stop ≤ s.length := by
  obtain ⟨ts, us, hts, hended, hitem⟩ := item_of_mem_decls hd
  obtain ⟨vs, ws, body, hattrs, hvis, hbody, hok, hpos, hfirst, hstop⟩ :=
    exists_of_item_decl hitem
  obtain ⟨hvs, hvsEnded⟩ := Forward.of_ok hended hattrs
  obtain ⟨hws, hwsEnded⟩ := Forward.of_ok hvsEnded hvis
  have hsub := hws.trans hvs
  have hpass := passes_of_body? hbody hwsEnded
  rw [hok] at hpass
  obtain ⟨hne, t, -, hlast⟩ := hpass
  have hclose : d.stop = t.stop := by
    obtain ⟨xs, hxs⟩ := hlast.trans hsub
    rw [hstop, ← hxs, List.append_cons, between_append, List.getLast?_concat,
      Option.getD_some]
  have hown : t ∈ ownTokens s := by
    obtain ⟨ys, hys, hsuffix⟩ :=
      own_of_suffix ((hlast.trans hsub).trans hts) (List.cons_ne_nil t us)
    cases ys with
    | nil => exact absurd (List.cons.inj hys).2 hne
    | cons y ys => exact hsuffix.subset ((List.cons.inj hys).1 ▸ List.mem_cons_self)
  have hbefore := offset_le_of_suffix hts hsub hwsEnded.ne_nil
  have hbehind := offset_le_of_suffix (hsub.trans hts) hlast (List.cons_ne_nil _ _)
  obtain ⟨keyword, ws, rfl, -⟩ := hwsEnded.cases
  refine ⟨keyword, (hsub.trans hts).subset List.mem_cons_self, hpos,
    hfirst ▸ hbefore, ?_, ?_⟩
  · rw [hclose]
    exact Nat.lt_of_le_of_lt hbehind (offset_lt_stop hown)
  · rw [hclose]
    exact stop_le_length hown

/-- A text that is one declaration from its first token to its last yields that and
nothing else. -/
theorem parse_of_item (hx : (scan x).errors = []) (hne : ownTokens x ≠ [])
    (hd : item x (scan x).tokens = (.decl d, [endOf x])) :
    parse x = ⟨⟨[d], 0, []⟩, []⟩ := by
  have hitems : items x (scan x).tokens = [.decl d] := by
    rw [items_step x (ended_scan x) (kindOf_scan hne), hd, items_of_eof x rfl]
  rw [parse, parseTokens, hitems, hx]
  rfl

/-- Declarations stand one behind the other in a source that lexes, and each is all
that is read of its own bytes: the same declaration, with positions that count from
its first byte. -/
theorem parse_slice (s : Text) (hs : (scan s).errors = []) :
    (parse s).file.decls.Pairwise (fun d e => d.stop ≤ e.first) ∧
      ∀ d ∈ (parse s).file.decls, d.first < d.stop ∧ d.stop ≤ s.length ∧
        ∃ d', parse (slice s d.first d.stop) = ⟨⟨[d'], 0, []⟩, []⟩ ∧
          d = d'.place (Position.start.after (s.take d.first)).shift d.first := by
  refine ⟨?_, fun d hd => ?_⟩
  · rw [decls_eq]
    exact decls_apart (List.suffix_refl _) (ended_scan s)
  · obtain ⟨ts, us, hts, hended, hitem⟩ := item_of_mem_decls hd
    obtain ⟨-, -, hne, t, ht, hsub⟩ := item_decl hended hitem
    have hus : Ended us := hended.of_suffix ((List.suffix_cons t us).trans hsub) hne
    obtain ⟨pre, x, post, hcut⟩ := exists_cut hs hts ht hsub hne
    obtain ⟨hfirst, hstop⟩ := hcut.offsets hended hitem
    obtain ⟨d', hd', hplace⟩ := hcut.item hus hitem
    have hx : slice s d.first d.stop = x := by
      rw [slice, hfirst, hstop, Nat.add_sub_cancel_left, hcut.source, List.append_assoc,
        List.drop_left, List.take_left]
    have hpre : s.take d.first = pre := by
      rw [hfirst, hcut.source, List.append_assoc, List.take_left]
    obtain ⟨t₀, vs, hown, -⟩ := hcut.first
    have ht₀ : t₀ ∈ ownTokens x := hown ▸ List.mem_cons_self ..
    refine ⟨?_, ?_, d', ?_, ?_⟩
    · have hlt := Nat.lt_of_lt_of_le (offset_lt_stop ht₀) (stop_le_length ht₀)
      omega
    · rw [hstop, hcut.source]
      simp
    · rw [hx]
      exact parse_of_item hcut.clean (List.ne_nil_of_mem ht₀) hd'
    · rw [hpre, hfirst]
      exact hplace

/-- A declaration behind a broken item, on the second line. -/
theorem parse_slice_behind_error :
    ∃ d ∈ (parse "struct 5;\n struct S;").file.decls,
      slice "struct 5;\n struct S;" d.first d.stop = "struct S;" ∧ d.stop ≤ 20 ∧
        ∃ d', parse "struct S;" = ⟨⟨[d'], 0, []⟩, []⟩ ∧
          d = d'.place (Position.mk 2 2).shift 11 := by
  have hdecls : (parse "struct 5;\n struct S;").file.decls = [_] := rfl
  have hmem := hdecls ▸ List.mem_singleton.mpr rfl
  obtain ⟨-, hstop, hd⟩ :=
    (parse_slice "struct 5;\n struct S;" (by decide +kernel)).2 _ hmem
  exact ⟨_, hmem, by decide +kernel, hstop, hd⟩

end Deriver
