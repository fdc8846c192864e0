import Deriver.Proofs.Parse.Item
import Deriver.Proofs.Parse.Nesting
import Deriver.Proofs.Token.Joining
import Mathlib.Data.List.Forall2

/-!
# Errors stay in their item

Main statement: `parse_isolated`. In a source put together from declarations and
from broken ones, each on lines of its own, every declaration is read as if it
stood alone, and every broken one gives one error, inside it. What breaks this is a
broken text that ends with attributes: they are taken for attributes of what
stands behind, which then begins too early, and if it is broken too, is read twice.
-/

/-!
## Recovery stays inside an item

`items_of_decl` is about a run that is one declaration, `items_of_broken` about a run whose
brackets are nested and of which no declaration can be read: in front of anything its
items are the same, and then come those of what stands behind, unless it ends with
attributes that belong to nothing.
-/

namespace Deriver.Parse.Overlap

variable {W : Overlap} {ts us : List Token} {opened : List TokenKind} {stop : Token}

/-- The run is followed by nothing but the end in the first list, and in the second
by what does not begin with a semicolon. -/
structure Alone (W : Overlap) (stop : Token) : Prop where
  rest : W.rest = [stop]
  stop : stop.kind = .eof
  run : ∀ t ∈ W.run, t.kind ≠ .eof
  next : kindOf W.rest' 0 ≠ .semicolon

theorem Alone.items_rest (h : Alone W stop) (source : Text) : items source W.rest = [] := by
  rw [h.rest]
  exact items_of_eof source h.stop

theorem Alone.ne_eof (h : Alone W stop) (hts : W.Inside ts) : kindOf ts 0 ≠ .eof := by
  obtain ⟨t, us, rfl⟩ := hts.cons
  exact h.run t (hts.sub.subset (List.mem_cons_self ..))

theorem Alone.not_behind (h : Alone W stop) : ¬ Behind us W.rest := by
  rintro ⟨-, hne, hlt⟩
  rw [h.rest] at hlt
  exact hne (List.length_eq_zero_iff.mp (Nat.lt_one_iff.mp hlt))

theorem items_of_decl (h : Alone W stop) (hts : W.Inside ts) {d : Decl}
    (hitem : item W.source (W.left ts) = (.decl d, W.rest)) :
    items W.source' (W.right ts) = .decl (d.place W.shift W.gap) ::
    items W.source' W.rest' := by
  have hsame := sameItem hts
  rw [items_step _ hts.ended' (by rw [kindOf_right hts]; exact h.ne_eof hts)]
  rw [hitem] at hsame
  generalize item W.source' (W.right ts) = y at hsame ⊢
  generalize hx : (Item.decl d, W.rest) = x at hsame
  cases hsame with
  | decl d' us hsub hlt =>
      obtain ⟨hd, hrest⟩ := Prod.mk.inj hx
      cases hd
      have hus : us = [] := by
        have hlen := congrArg List.length hrest
        simp only [left, List.length_append] at hlen
        exact List.length_eq_zero_iff.mp (by omega)
      rw [hus]
      rfl
  | skip i us hi hsub hne =>
      obtain ⟨hd, -⟩ := Prod.mk.inj hx
      subst hd
      rcases hi with hi | ⟨m, hi⟩ <;> cases hi
  | scope us hsub hne hvis hx' =>
      subst hx
      rcases hx' with hx' | hx'
      · exact absurd hx' h.not_behind
      · cases hx'
  | out hx' hy =>
      subst hx
      exact absurd hx' h.not_behind
  | error | closing | nothing => cases hx

theorem Alone.scope (_ : Alone W stop) (hts : OneItem opened us) :
    ¬ Reaches W.rest (visibility W.source (W.left us)) := by
  obtain ⟨vis, vs, hne, hvis⟩ := hts.visibility W.source W.rest
  rw [left, hvis]
  rintro ⟨hsub, -⟩
  have hlen := hsub.length_le
  rw [List.length_append] at hlen
  exact hne (List.length_eq_zero_iff.mp (by omega))

theorem skipItem_both (h : Alone W stop) (hts : OneItem opened us) :
    ∃ vs, vs <:+ us ∧ skipItem 0 (W.left us) = W.left vs ∧
      skipItem 0 (W.right us) = W.right vs := by
  obtain ⟨vs, hvs, heq⟩ := hts.skipItem (Int.natCast_nonneg _)
  refine ⟨vs, hvs, ?_, heq W.move W.rest' (fun _ => rfl) h.next⟩
  have hrest : kindOf W.rest 0 ≠ .semicolon := by
    rw [h.rest]
    intro hk
    cases h.stop.symm.trans hk
  have := heq id W.rest (fun _ => rfl) hrest
  rwa [List.map_id, List.map_id] at this

/-- What is read of a run that holds no declaration: all of it the same in both
lists, or the same up to attributes at its end, which belong in the second list to
what stands behind. -/
inductive Isolates (ts : List Token) : Prop where
  | whole (hno : .nothing ∉ items W.source (W.left ts))
      (h : items W.source' (W.right ts) =
        (items W.source (W.left ts)).map (Item.place W.shift W.gap) ++
          items W.source' W.rest')
  | dangling (is : List Item) (us : List Token) (hus : W.Inside us)
      (hleft : items W.source (W.left ts) = is ++ [.nothing])
      (hout : Escapes W.rest' (item W.source' (W.right us)))
      (h : items W.source' (W.right ts) =
        is.map (Item.place W.shift W.gap) ++ items W.source' (W.right us))

/-- One item the same in both lists, and then those of what is left. -/
theorem Isolates.cons (h : Alone W stop) (hts : W.Inside ts) {i : Item} (hi : i ≠ .nothing)
    (hsub : us <:+ ts) (hleft : item W.source (W.left ts) = (i, W.left us))
    (hright : item W.source' (W.right ts) = (i.place W.shift W.gap, W.right us))
    (hus : us ≠ [] → W.Isolates us) : W.Isolates ts := by
  have hl : items W.source (W.left ts) = i :: items W.source (W.left us) := by
    rw [items_step _ hts.ended (by rw [kindOf_left hts]; exact h.ne_eof hts), hleft]
  have hr : items W.source' (W.right ts)
      = i.place W.shift W.gap :: items W.source' (W.right us) := by
    rw [items_step _ hts.ended' (by rw [kindOf_right hts]; exact h.ne_eof hts), hright]
  by_cases hne : us = []
  · subst hne
    have hrest : items W.source (W.left []) = [] := h.items_rest W.source
    refine .whole ?_ ?_
    · rw [hl, hrest]
      simpa using Ne.symm hi
    · rw [hl, hr, hrest]
      rfl
  · cases hus hne with
    | whole hno heq =>
        refine .whole ?_ ?_
        · rw [hl]
          simpa using ⟨Ne.symm hi, hno⟩
        · rw [hl, hr, heq]
          rfl
    | dangling is vs hvs heql hout heqr =>
        refine .dangling (i :: is) vs hvs ?_ hout ?_
        · rw [hl, heql]
          rfl
        · rw [hr, heqr]
          rfl

theorem items_of_broken (h : Alone W stop) (hts : W.Inside ts) (hone : OneItem opened ts)
    (hdecl : ∀ d, .decl d ∉ items W.source (W.left ts))
    (herror : ∀ e, .error e ∈ items W.source (W.left ts) → e.token ≠ stop) :
    W.Isolates ts := by
  induction hn : ts.length using Nat.strong_induction_on generalizing ts opened with
  | _ n ih =>
      have hk : kindOf (W.left ts) 0 ≠ .eof := by
        rw [kindOf_left hts]
        exact h.ne_eof hts
      have hstep := items_step W.source hts.ended hk
      have hbehind := behind_item W.source hts.ended hk
      have hnext (us : List Token) (hsub : us <:+ ts)
          (hleft : (item W.source (W.left ts)).2 = W.left us)
            (hne : us ≠ []) : W.Isolates us := by
        have hlt := hbehind.lt
        rw [hleft] at hlt hstep
        simp only [left, List.length_append] at hlt
        obtain ⟨inner, hinner⟩ := hone.of_suffix hsub hne
        have hmem {i : Item} (hi : i ∈ items W.source (W.left us)) :
            i ∈ items W.source (W.left ts) := by
          rw [hstep]
          exact List.mem_cons_of_mem _ hi
        exact ih us.length (by omega) (hts.of_suffix hsub hne) hinner
          (fun d hd => hdecl d (hmem hd)) (fun e he => herror e (hmem he)) rfl
      have hhead : (item W.source (W.left ts)).1 ∈ items W.source (W.left ts) := by
        rw [hstep]
        exact List.mem_cons_self ..
      have hsame := sameItem hts
      have hcons (i : Item) (us : List Token) := @Isolates.cons W ts us stop h hts i
      generalize item W.source (W.left ts) = x at hsame hhead hnext hstep hbehind hcons
      generalize hy : item W.source' (W.right ts) = y at hsame hcons
      cases hsame with
      | decl d us hsub hlt => exact absurd hhead (hdecl d)
      | error problem t ht =>
          obtain ⟨vs, hvs, hl, hr⟩ := skipItem_both h hone
          rw [hl] at hnext hcons
          rw [hr] at hcons
          exact hcons (.error ⟨problem, t⟩) vs (by rintro ⟨⟩) hvs rfl rfl (hnext vs hvs rfl)
      | closing t us hsub =>
          have hus := (List.suffix_cons t us).trans hsub
          exact hcons (.error ⟨.closing, t⟩) us (by rintro ⟨⟩) hus rfl rfl
            (hnext us hus rfl)
      | skip i us hi hsub hne =>
          obtain ⟨inner, hinner⟩ := hone.of_suffix hsub hne
          obtain ⟨vs, hvs, hl, hr⟩ := skipItem_both h hinner
          rw [hl] at hnext hcons
          rw [hr] at hcons
          have hi : i ≠ .nothing := by
            rcases hi with rfl | ⟨m, rfl⟩ <;> rintro ⟨⟩
          have hvs := hvs.trans hsub
          exact hcons i vs hi hvs rfl rfl (hnext vs hvs rfl)
      | nothing us hsub hne hk => exact absurd hk (h.ne_eof (hts.of_suffix hsub hne))
      | scope us hsub hne hvis hx =>
          obtain ⟨inner, hinner⟩ := hone.of_suffix hsub hne
          exact absurd hvis (h.scope hinner)
      | out hx hy' =>
          obtain ⟨i, r⟩ := x
          cases i with
          | decl | inlineModule | skipped => exact absurd hx h.not_behind
          | error e =>
              obtain ⟨us, hus, hne, he⟩ := hx
              rw [h.rest, List.suffix_cons_iff] at hus
              rcases hus with rfl | hus
              · exact absurd he (herror e hhead)
              · exact absurd (List.suffix_nil.mp hus) hne
          | nothing =>
              refine .dangling [] ts hts ?_ (hy ▸ hy') rfl
              rw [hstep, items_of_eof W.source hx.2.2]
              rfl

end Deriver.Parse.Overlap

namespace Deriver

open Parse

/-! ## The texts -/

/-- A text that is one declaration from its first token to its last. -/
structure WellFormed (x : Text) : Prop where
  errors : (parse x).errors = []
  decl : ∃ d first last, (parse x).file.decls = [d] ∧ (ownTokens x).head? = some first ∧
    (ownTokens x).getLast? = some last ∧ d.first = first.offset ∧ d.stop = last.stop

/-- A text with the shape of one item, of which nothing is read but an error at one
of its tokens. -/
structure Malformed (x : Text) : Prop where
  clean : (scan x).errors = []
  oneItem : OneItem [] (ownTokens x)
  decls : (parse x).file.decls = []
  error : ∃ e, (parse x).errors = [e] ∧ e.token ∈ ownTokens x

/-- Whether what is read of a text ends with attributes that belong to nothing. -/
def Dangling (x : Text) : Prop := .nothing ∈ items x (scan x).tokens

/-- Texts on lines of their own behind `pre`, each with all that stands in front. -/
def located (pre : Text) : List Text → List (Text × Text)
  | [] => []
  | x :: xs => (pre, x) :: located (pre ++ x ++ "\n") xs

/-- Whether the declarations of a source put together from `xs` are those of the
texts, at their places, and its errors are one for each text without a declaration,
inside of it. -/
structure Isolated (xs : List Text) : Prop where
  decls : (parse (Text.join "\n" xs)).file.decls = (located [] xs).flatMap fun (pre, x) =>
    (parse x).file.decls.map (Decl.place (Position.start.after pre).shift pre.length)
  errors : List.Forall₂
    (fun (pre, x) e => pre.length ≤ e.token.offset ∧ e.token.stop ≤ pre.length + x.length)
    ((located [] xs).filter fun (_, x) => (parse x).file.decls.isEmpty)
    (parse (Text.join "\n" xs)).errors

/-! ## One text in a source -/

variable {pre x post : Text} {us rest : List Token}

theorem textOf_place (pre post : Text) (hx : x ≠ []) (h : ∀ t ∈ us, t.stop ≤ x.length)
    (f : Position → Position) :
    textOf x us = textOf (pre ++ x ++ post) (us.map (Token.place f pre.length)) := by
  unfold textOf
  rw [List.head?_map, List.getLast?_map]
  cases hfirst : us.head? with
  | none => rfl
  | some first =>
      cases hlast : us.getLast? with
      | none => rfl
      | some last =>
          have hstop := h last (List.mem_of_getLast? hlast)
          have hfirst := h first (List.mem_of_mem_head? hfirst)
          have hsource : (pre ++ x ++ post).isEmpty = false := by simp [hx]
          have hx : x.isEmpty = false := by simpa using hx
          simp only [Option.map_some, hsource, hx, Bool.false_eq_true, if_false]
          have hoffset : first.offset ≤ x.length :=
            Nat.le_trans (Nat.le_add_right _ _) hfirst
          rw [show (last.place f pre.length).stop = pre.length + last.stop
            from Nat.add_assoc ..,
            show (first.place f pre.length).offset = pre.length + first.offset from rfl,
            Nat.add_sub_add_left, List.append_assoc, List.drop_append,
            List.drop_eq_nil_of_le
            (Nat.le_add_right _ _), Nat.add_sub_cancel_left, List.nil_append,
            List.drop_append_of_le_length hoffset, List.take_append_of_le_length]
          rw [List.length_drop]
          omega

theorem textOf_own (pre post : Text) (h : ∀ t ∈ us, t ∈ ownTokens x)
    (f : Position → Position) :
    textOf x us = textOf (pre ++ x ++ post) (us.map (Token.place f pre.length)) := by
  cases us with
  | nil => rfl
  | cons t us =>
      have hown := h t (List.mem_cons_self ..)
      have hx : x ≠ [] := by
        rintro rfl
        cases hown
      exact textOf_place pre post hx (fun u hu => stop_le_length (h u hu)) f

/-- Where the tokens of a text behind `pre` stand. -/
def behindText (pre : Text) (t : Token) : Token :=
  t.place (Position.start.after pre).shift pre.length

/-- The item behind `pre`. -/
def Parse.Item.behindText (pre : Text) (i : Item) : Item :=
  i.place (Position.start.after pre).shift pre.length

theorem ended_append (us : List Token) (h : Ended rest) : Ended (us ++ rest) := by
  obtain ⟨t, ht, hk⟩ := h
  exact ⟨t, by rw [List.getLast?_append, ht]; rfl, hk⟩

theorem last_mem_limits (hlast : ∀ t, (ownTokens x).getLast? = some t → t.kind ∈ closers) :
    ∀ t, (ownTokens x).getLast? = some t → t.kind ∈ limits :=
  fun t ht => List.mem_cons_of_mem _ (hlast t ht)

/-- The tokens of a text alone and behind `pre`, where `rest` follows. -/
def overlapOf (pre x post : Text) (rest : List Token) (hrest : Ended rest)
    (hlast : ∀ t, (ownTokens x).getLast? = some t → t.kind ∈ closers) : Overlap where
  source := x
  source' := pre ++ x ++ post
  run := ownTokens x
  rest := [endOf x]
  rest' := rest
  shift := (Position.start.after pre).shift
  gap := pre.length
  ended := ended_own x
  ended' := ended_append _ hrest
  last := last_mem_limits hlast
  text := fun _ h => textOf_own pre post h _

theorem alone_overlapOf (hrest : Ended rest)
    (hlast : ∀ t, (ownTokens x).getLast? = some t → t.kind ∈ closers)
    (hnext : kindOf rest 0 ≠ .semicolon) :
    (overlapOf pre x post rest hrest hlast).Alone (endOf x) :=
  ⟨rfl, rfl, fun _ => kind_ne_eof, hnext⟩

/-! ## Declarations -/

theorem offset_lt_of_suffix {ts vs : List Token} {x : Text} (h : ts <:+ (scan x).tokens)
    (hsub : vs <:+ ts) (hne : vs ≠ []) (hlt : vs.length < ts.length) :
    (ts.headD Token.none).offset < (vs.headD Token.none).offset := by
  obtain ⟨us, rfl⟩ := hsub
  obtain ⟨t, us, rfl⟩ : ∃ t us', us = t :: us' := List.exists_cons_of_ne_nil (by
    rintro rfl
    exact absurd hlt (Nat.lt_irrefl _))
  obtain ⟨v, vs, rfl⟩ := List.exists_cons_of_ne_nil hne
  have hpairs := (scan_pairwise x).sublist h.sublist
  rw [List.pairwise_append] at hpairs
  exact (hpairs.2.2 t (List.mem_cons_self ..) v (List.mem_cons_self ..)).1

theorem offset_le_of_suffix {ts vs : List Token} {x : Text} (h : ts <:+ (scan x).tokens)
    (hsub : vs <:+ ts) (hne : vs ≠ []) :
    (ts.headD Token.none).offset ≤ (vs.headD Token.none).offset := by
  rcases Nat.lt_or_eq_of_le hsub.length_le with hlt | heq
  · exact Nat.le_of_lt (offset_lt_of_suffix h hsub hne hlt)
  · rw [hsub.eq_of_length heq]

/-- The stop of what stands in front of `vs` is not past what is left. -/
theorem stop_le_of_between {ts vs : List Token} {x : Text} {last : Token}
    (h : ts <:+ (scan x).tokens) (hsub : vs <:+ ts) (hlt : vs.length < ts.length)
    (hlast : last ∈ vs) :
    (((between ts vs).getLast?).getD Token.none).stop ≤ last.offset := by
  obtain ⟨us, rfl⟩ := hsub
  have hpairs := (scan_pairwise x).sublist h.sublist
  rw [List.pairwise_append] at hpairs
  have hne : us ≠ [] := by
    rintro rfl
    exact absurd hlt (Nat.lt_irrefl _)
  rw [between_append, List.getLast?_eq_some_getLast hne]
  exact (hpairs.2.2 _ (List.getLast_mem hne) last hlast).2

theorem WellFormed.item {x : Text} (hx : WellFormed x) :
    ∃ d, Parse.item x (scan x).tokens = (.decl d, [endOf x]) := by
  obtain ⟨d, first, last, hdecls, hfirst, hlast, hd, hd'⟩ := hx.decl
  have hmem : .decl d ∈ items x (scan x).tokens := parse_decls.mp (by rw [hdecls]; simp)
  obtain ⟨us, hsub, hus, hk, hitem⟩ := exists_of_mem_items (ended_scan x) hmem
  obtain ⟨hstart, hstop, hne, t, -, hrest⟩ := item_decl hus
    (Prod.ext hitem rfl : Parse.item x us = (_, (Parse.item x us).2))
  -- the item begins with the first token
  have hwhole : us = (scan x).tokens := by
    by_contra hne'
    have hlt : us.length < (scan x).tokens.length :=
      Nat.lt_of_le_of_ne hsub.length_le fun h => hne' (hsub.eq_of_length h)
    have hlt := offset_lt_of_suffix (List.suffix_refl _) hsub hus.ne_nil hlt
    have hhead : (scan x).tokens.headD Token.none = first := by
      rw [scan_tokens_own, List.headD_eq_head?_getD, List.head?_append, hfirst]
      rfl
    rw [hhead, ← hd, ← hstart] at hlt
    exact Nat.lt_irrefl _ hlt
  subst hwhole
  -- and ends with the last one
  refine ⟨d, Prod.ext hitem ?_⟩
  generalize (Parse.item x (scan x).tokens).2 = r at hstop hne hrest ⊢
  have hr : r <:+ (scan x).tokens := (List.suffix_cons t r).trans hrest
  rw [scan_tokens_own, List.suffix_concat_iff] at hr
  rcases hr with hr | ⟨r', rfl, hr'⟩
  · exact absurd hr hne
  · cases hlast' : r'.getLast? with
    | none => rw [List.getLast?_eq_none_iff.mp hlast']; rfl
    | some u =>
        obtain ⟨vs, hvs⟩ := hr'
        have hu : u = last := by
          rw [← hvs, List.getLast?_append, hlast'] at hlast
          exact Option.some.inj hlast
        subst hu
        have hmem : u ∈ r' ++ [endOf x] :=
          List.mem_append_left _ (List.mem_of_getLast? hlast')
        have hle := stop_le_of_between (List.suffix_refl _)
          ((List.suffix_cons t _).trans hrest) hrest.length_le hmem
        rw [← hstop, hd'] at hle
        have hown : u ∈ ownTokens x := List.mem_of_getLast? hlast
        exact absurd (offset_lt_stop hown) (Nat.not_lt.mpr hle)

theorem WellFormed.last {x : Text} (hx : WellFormed x) {t : Token}
    (ht : (ownTokens x).getLast? = some t) : t.kind ∈ closers := by
  obtain ⟨d, hd⟩ := hx.item
  obtain ⟨-, -, -, u, hu, hsub⟩ := item_decl (ended_scan x) hd
  obtain ⟨us, hus⟩ := hsub
  have hown : ownTokens x = us ++ [u] := by
    have heq : ownTokens x ++ [endOf x] = us ++ [u] ++ [endOf x] := by
      rw [← scan_tokens_own, ← hus, List.append_assoc]
      rfl
    exact List.append_cancel_right heq
  rw [hown, List.getLast?_concat] at ht
  cases ht
  exact hu

theorem Malformed.last {x : Text} (hx : Malformed x) {t : Token}
    (ht : (ownTokens x).getLast? = some t) : t.kind ∈ closers := by
  rcases hx.oneItem.last ht with h | h <;> rw [h] <;> decide

theorem parse_errors {x : Text} (hx : (scan x).errors = []) {e : ParseError} :
    e ∈ (parse x).errors ↔ .error e ∈ items x (scan x).tokens := by
  change e ∈ (scan x).errors.map _ ++ (items x (scan x).tokens).filterMap _ ↔ _
  rw [hx, List.map_nil, List.nil_append, List.mem_filterMap]
  constructor
  · rintro ⟨i, hi, he⟩
    cases i <;> cases he
    exact hi
  · exact fun h => ⟨_, h, rfl⟩

theorem WellFormed.clean {x : Text} (hx : WellFormed x) : (scan x).errors = [] :=
  List.map_eq_nil_iff.mp (List.append_eq_nil_iff.mp hx.errors).1

theorem WellFormed.ne_nil {x : Text} (hx : WellFormed x) : ownTokens x ≠ [] := by
  obtain ⟨d, first, last, -, hfirst, -⟩ := hx.decl
  intro h
  rw [h] at hfirst
  cases hfirst

/-- No text begins with a semicolon, which is an item by itself and no error. -/
theorem not_semicolon {x : Text} (hx : WellFormed x ∨ Malformed x) :
    kindOf (ownTokens x) 0 ≠ .semicolon := by
  intro hk
  obtain ⟨t, us, hown⟩ : ∃ t us, ownTokens x = t :: us := by
    cases h : ownTokens x with
    | nil => rw [h] at hk; cases hk
    | cons t us => exact ⟨t, us, rfl⟩
  rw [hown] at hk
  have ht : t.kind = .semicolon := hk
  have hscan : (scan x).tokens = t :: (us ++ [endOf x]) := by
    rw [scan_tokens_own, hown]; rfl
  rcases hx with hx | hx
  · obtain ⟨d, hd⟩ := hx.item
    rw [hscan, item_of_semicolon ht] at hd
    cases hd
  · have hone := hx.oneItem
    rw [hown] at hone
    have hus : us = [] := hone.ends_head.mp (by rw [ht]; rfl)
    subst hus
    obtain ⟨e, he, -⟩ := hx.error
    have hmem : .error e ∈ items x (scan x).tokens :=
      (parse_errors hx.clean).mp (by rw [he]; simp)
    rw [items_step x (ended_scan x) (by rw [hscan]; exact hk ▸ nofun), hscan,
      item_of_semicolon ht, List.nil_append, items_of_eof x rfl] at hmem
    simp at hmem

/-! ## Texts one behind the other -/

theorem kindOf_scan (h : ownTokens x ≠ []) : kindOf (scan x).tokens 0 ≠ .eof := by
  obtain ⟨t, us, hown⟩ := List.exists_cons_of_ne_nil h
  rw [scan_tokens_own, hown]
  exact kind_ne_eof (by rw [hown]; exact List.mem_cons_self ..)

/-- What is read of a broken text behind `pre`, where `rest` follows. -/
theorem Malformed.isolates (pre post : Text) (hx : Malformed x) (hrest : Ended rest)
    (hnext : kindOf rest 0 ≠ .semicolon) :
    (overlapOf pre x post rest hrest fun _ => hx.last).Isolates (ownTokens x) := by
  let W := overlapOf pre x post rest hrest fun _ => hx.last
  have hleft : W.left (ownTokens x) = (scan x).tokens := (scan_tokens_own x).symm
  have hin : W.Inside (ownTokens x) := ⟨List.suffix_refl _, hx.oneItem.ne⟩
  refine Overlap.items_of_broken (alone_overlapOf hrest _ hnext) hin hx.oneItem ?_ ?_
  · intro d hd
    have hd : d ∈ (parse x).file.decls := parse_decls.mpr (hleft ▸ hd)
    rw [hx.decls] at hd
    cases hd
  · intro e he heq
    have he : e ∈ (parse x).errors := (parse_errors hx.clean).mpr (hleft ▸ he)
    obtain ⟨e', he', hown⟩ := hx.error
    rw [he', List.mem_singleton] at he
    rw [← he, heq] at hown
    exact kind_ne_eof hown rfl

/-- A text behind `pre` is read as if it stood alone, and then what follows. -/
theorem items_text (pre post : Text) (hx : WellFormed x ∨ Malformed x ∧ ¬ Dangling x)
    (hrest : Ended rest) (hnext : kindOf rest 0 ≠ .semicolon) :
    items (pre ++ x ++ post) ((ownTokens x).map (behindText pre) ++ rest) =
      (items x (scan x).tokens).map (Item.behindText pre) ++
      items (pre ++ x ++ post) rest := by
  rcases hx with hx | ⟨hx, hdangling⟩
  · let W := overlapOf pre x post rest hrest fun _ => hx.last
    have hin : W.Inside (ownTokens x) := ⟨List.suffix_refl _, hx.ne_nil⟩
    obtain ⟨d, hd⟩ := hx.item
    rw [items_step x (ended_scan x) (kindOf_scan hx.ne_nil), hd, items_of_eof x rfl]
    rw [scan_tokens_own] at hd
    exact Overlap.items_of_decl (W := W)
      (alone_overlapOf hrest (fun _ => hx.last) hnext) hin hd
  · rw [scan_tokens_own]
    cases hx.isolates pre post hrest hnext with
    | whole hno h => exact h
    | dangling is us hus hleft hout h =>
        refine absurd ?_ hdangling
        rw [Dangling, scan_tokens_own]
        have hleft : items x (ownTokens x ++ [endOf x]) = is ++ [.nothing] := hleft
        rw [hleft]
        simp

/-- The tokens of texts on lines of their own behind `pre`, in the source they make. -/
def tokensBehind (pre : Text) (xs : List Text) : List Token :=
  Scan.tokensAt (Position.start.after pre) pre.length (Scan.pieces (Text.join "\n" xs)) ++
    [endOf (pre ++ Text.join "\n" xs)]

theorem ended_tokensBehind (pre : Text) (xs : List Text) : Ended (tokensBehind pre xs) :=
  ⟨endOf _, List.getLast?_concat, rfl⟩

theorem tokensAt_own (pre x : Text) :
    Scan.tokensAt (Position.start.after pre) pre.length (Scan.pieces x) =
      (ownTokens x).map (behindText pre) := by
  rw [Scan.tokensAt_shift, ownTokens_eq]
  rfl

theorem tokensBehind_cons (hx : (scan x).errors = []) (y : Text) (ys : List Text) :
    tokensBehind pre (x :: y :: ys) =
      (ownTokens x).map (behindText pre) ++ tokensBehind (pre ++ x ++ "\n") (y :: ys) := by
  have hjoin : Text.join "\n" (x :: y :: ys) = x ++ 10 :: Text.join "\n" (y :: ys) := by
    rw [Text.join, List.append_assoc]
    rfl
  have hsource : pre ++ Text.join "\n" (x :: y :: ys) =
      pre ++ x ++ "\n" ++ Text.join "\n" (y :: ys) := by
    rw [hjoin]
    simp only [List.append_assoc]
    rfl
  rw [tokensBehind, tokensBehind, hsource, hjoin,
    Scan.pieces_append hx (Scan.ends_newline _ _), Scan.pieces_newline,
    Scan.tokensAt_append, Scan.bytes_pieces, tokensAt_own, List.append_assoc]
  congr 2
  rw [Scan.tokensAt, ← Position.after_append, ← Position.after_append]
  simp only [List.append_assoc, List.length_append, Nat.add_assoc]
  rfl

theorem kindOf_tokensBehind {y : Text} (hy : WellFormed y ∨ Malformed y) (pre : Text)
    (ys : List Text) : kindOf (tokensBehind pre (y :: ys)) 0 ≠ .semicolon := by
  have hne : (ownTokens y).map (behindText pre) ≠ [] := by
    rw [ne_eq, List.map_eq_nil_iff]
    rcases hy with hy | hy
    · exact hy.ne_nil
    · exact hy.oneItem.ne
  have hclean : (scan y).errors = [] := by
    rcases hy with hy | hy
    · exact hy.clean
    · exact hy.clean
  have hhead (rest : List Token) :
      kindOf ((ownTokens y).map (behindText pre) ++ rest) 0 = kindOf (ownTokens y) 0 := by
    rw [kindOf_append_left hne]
    exact kindOf_map (f := behindText pre) (fun _ => rfl) _ _
  cases ys with
  | nil =>
      rw [tokensBehind, Text.join, tokensAt_own, hhead]
      exact not_semicolon hy
  | cons z zs =>
      rw [tokensBehind_cons hclean, hhead]
      exact not_semicolon hy

/-- What is read of texts on lines of their own, of which those but the first may
not dangle. -/
theorem items_located {xs : List Text}
    (hxs : ∀ x ∈ xs, WellFormed x ∨ Malformed x ∧ ¬ Dangling x)
    (pre : Text) (hne : xs ≠ []) :
    items (pre ++ Text.join "\n" xs) (tokensBehind pre xs) =
      (located pre xs).flatMap fun (pre, x) =>
      (items x (scan x).tokens).map (Item.behindText pre) := by
  induction xs generalizing pre with
  | nil => exact absurd rfl hne
  | cons x xs ih =>
      have hx := hxs x (List.mem_cons_self ..)
      cases xs with
      | nil =>
          have hended : Ended [endOf (pre ++ x)] := ⟨_, rfl, rfl⟩
          have h := items_text pre [] hx hended nofun
          have hend : items (pre ++ x) [endOf (pre ++ x)] = [] := items_of_eof _ rfl
          rw [List.append_nil, hend] at h
          rw [tokensBehind, Text.join, tokensAt_own, h]
          rfl
      | cons y ys =>
          have hclean : (scan x).errors = [] := by
            rcases hx with hx | hx
            · exact hx.clean
            · exact hx.1.clean
          have hy := (hxs y (by simp)).imp_right And.left
          have htail :=
            ih (fun z hz => hxs z (List.mem_cons_of_mem x hz)) (pre ++ x ++ "\n")
            (List.cons_ne_nil _ _)
          have hsource : pre ++ Text.join "\n" (x :: y :: ys) =
              pre ++ x ++ ("\n" ++ Text.join "\n" (y :: ys)) := by
            simp only [Text.join, List.append_assoc]
          have hsource' : pre ++ x ++ "\n" ++ Text.join "\n" (y :: ys) =
              pre ++ x ++ ("\n" ++ Text.join "\n" (y :: ys)) := by
            simp only [List.append_assoc]
          rw [hsource'] at htail
          rw [hsource, tokensBehind_cons hclean, items_text _ _ hx (ended_tokensBehind _ _)
            (kindOf_tokensBehind hy _ _), htail]
          rfl

/-! ## The whole source -/

/-- The error that an item is. -/
def Parse.Item.error? : Item → Option ParseError
  | .error e => some e
  | _ => none

theorem errors_eq {x : Text} (hx : (scan x).errors = []) :
    (parse x).errors = (items x (scan x).tokens).filterMap Item.error? := by
  change (scan x).errors.map _ ++ (items x (scan x).tokens).filterMap _ = _
  rw [hx, List.map_nil, List.nil_append]
  congr 1

theorem decl?_behindText (pre : Text) (is : List Item) :
    (is.map (Item.behindText pre)).filterMap Item.decl? =
      (is.filterMap Item.decl?).map
      (Decl.place (Position.start.after pre).shift pre.length) := by
  rw [List.filterMap_map, List.map_filterMap]
  congr 1
  funext i
  cases i <;> rfl

theorem error?_behindText (pre : Text) (is : List Item) :
    (is.map (Item.behindText pre)).filterMap Item.error? =
      (is.filterMap Item.error?).map
        (ParseError.place (Position.start.after pre).shift pre.length) := by
  rw [List.filterMap_map, List.map_filterMap]
  congr 1
  funext i
  cases i <;> rfl

theorem scan_join {xs : List Text} (hxs : ∀ x ∈ xs, (scan x).errors = []) :
    (scan (Text.join "\n" xs)).errors = [] := by
  induction xs with
  | nil => rfl
  | cons x xs ih =>
      have hx := hxs x (List.mem_cons_self ..)
      have htail := ih fun y hy => hxs y (List.mem_cons_of_mem x hy)
      cases xs with
      | nil => exact hx
      | cons y ys =>
          have hjoin : Text.join "\n" (x :: y :: ys) =
              x ++ 10 :: Text.join "\n" (y :: ys) := by
            rw [Text.join, List.append_assoc]
            rfl
          rw [scan_errors, Scan.errorsAt_eq_nil] at hx htail ⊢
          rw [hjoin, Scan.pieces_append
            (by rw [scan_errors, Scan.errorsAt_eq_nil]; exact hx)
            (Scan.ends_newline _ _), Scan.pieces_newline]
          intro p hp
          rcases List.mem_append.mp hp with hp | hp
          · exact hx p hp
          · rcases List.mem_cons.mp hp with rfl | hp
            · rfl
            · exact htail p hp

theorem tokensBehind_nil (xs : List Text) :
    tokensBehind [] xs = (scan (Text.join "\n" xs)).tokens := by
  rw [scan_tokens_own, ownTokens_eq]
  rfl

theorem isolated_of_not_dangling {xs : List Text}
    (hxs : ∀ x ∈ xs, WellFormed x ∨ Malformed x ∧ ¬ Dangling x) : Isolated xs := by
  have hclean (x : Text) (hx : x ∈ xs) : (scan x).errors = [] := by
    rcases hxs x hx with hx | hx
    · exact hx.clean
    · exact hx.1.clean
  have hitems : items (Text.join "\n" xs) (scan (Text.join "\n" xs)).tokens =
      (located [] xs).flatMap fun (pre, x) =>
        (items x (scan x).tokens).map (Item.behindText pre) := by
    by_cases hne : xs = []
    · rw [hne]
      exact items_of_eof _ rfl
    · rw [← tokensBehind_nil]
      exact items_located hxs [] hne
  refine ⟨?_, ?_⟩
  · rw [decls_eq, hitems, List.filterMap_flatMap]
    congr 1
    funext ⟨pre, x⟩
    rw [decl?_behindText, ← decls_eq]
  · rw [errors_eq (scan_join hclean), hitems, List.filterMap_flatMap]
    clear hitems
    generalize ([] : Text) = pre
    induction xs generalizing pre with
    | nil => exact .nil
    | cons x xs ih =>
        have htail := ih (fun y hy => hxs y (List.mem_cons_of_mem x hy))
          (fun y hy => hclean y (List.mem_cons_of_mem x hy)) (pre ++ x ++ "\n")
        have hx : (scan x).errors = [] := hclean x (List.mem_cons_self ..)
        rw [located, List.flatMap_cons]
        dsimp only
        rw [error?_behindText, ← errors_eq hx]
        rcases hxs x (List.mem_cons_self ..) with hx | hx
        · obtain ⟨d, -, -, hd, -⟩ := hx.decl
          rw [List.filter_cons_of_neg (by simp [hd]), hx.errors]
          exact htail
        · obtain ⟨e, he, hown⟩ := hx.1.error
          rw [List.filter_cons_of_pos (by simp [hx.1.decls]), he]
          refine .cons ⟨Nat.le_add_right _ _, ?_⟩ htail
          have := stop_le_length hown
          rw [Token.stop] at this
          change pre.length + e.token.offset + e.token.lexeme.length ≤ pre.length + x.length
          omega

/-- The attributes at the end of a text that dangles are taken for attributes of what
stands behind. -/
theorem items_dangling {x y : Text} (hx : Malformed x) (hdangling : Dangling x)
    (hy : WellFormed y) :
    ∃ is ts, items x (scan x).tokens = is ++ [.nothing] ∧ Ended ts ∧
      kindOf ts 0 ≠ .eof ∧ (ts.headD Token.none).offset < x.length ∧
      Escapes (tokensBehind (x ++ "\n") [y]) (item (Text.join "\n" [x, y]) ts) ∧
      items (Text.join "\n" [x, y]) (scan (Text.join "\n" [x, y])).tokens =
        is.map (Item.behindText []) ++ items (Text.join "\n" [x, y]) ts := by
  have hrest := ended_tokensBehind (x ++ "\n") [y]
  have hnext := kindOf_tokensBehind (Or.inl hy) (x ++ "\n") []
  have htokens : (scan (Text.join "\n" [x, y])).tokens =
      (ownTokens x).map (behindText []) ++ tokensBehind (x ++ "\n") [y] := by
    rw [← tokensBehind_nil, tokensBehind_cons hx.clean]
    rfl
  have hsource : Text.join "\n" [x, y] = [] ++ x ++ ("\n" ++ y) := List.append_assoc ..
  rw [htokens, hsource]
  have hdangling : .nothing ∈ items x (ownTokens x ++ [endOf x]) := by
    rwa [Dangling, scan_tokens_own] at hdangling
  rw [scan_tokens_own]
  cases hx.isolates [] ("\n" ++ y) hrest hnext with
  | whole hno h => exact absurd hdangling hno
  | dangling is us hus hleft hout h =>
      obtain ⟨t, vs, rfl⟩ := hus.cons
      have ht : t ∈ ownTokens x := hus.sub.subset (List.mem_cons_self ..)
      have hk : t.kind ≠ .eof := kind_ne_eof ht
      refine ⟨is, _, hleft, hus.ended', hk, ?_, hout, h⟩
      have hlt := Nat.lt_of_lt_of_le (offset_lt_stop ht) (stop_le_length ht)
      rwa [← Nat.zero_add t.offset] at hlt

theorem lt_first_of_mem {x : Text} {ts vs : List Token} {d : Decl}
    (hts : ts <:+ (scan x).tokens) (hvs : Behind vs ts) (hd : .decl d ∈ items x vs) :
    (ts.headD Token.none).offset < d.first := by
  have hended := hvs.ended ((ended_scan x).of_suffix hts (fun h => hvs.ne (by
    rw [h] at hvs
    exact List.suffix_nil.mp hvs.sub)))
  obtain ⟨us, hsub, hus, -, hitem⟩ := exists_of_mem_items hended hd
  obtain ⟨hfirst, -⟩ := item_decl hus (Prod.ext hitem rfl : item x us = (_, (item x us).2))
  rw [hfirst]
  exact offset_lt_of_suffix hts (hsub.trans hvs.sub) hus.ne_nil
    (Nat.lt_of_le_of_lt hsub.length_le hvs.lt)

/-- The one declaration of items without an error, the first of which runs into `rest`:
it begins where they do, or behind the first token of `rest`. -/
theorem first_of_escapes {x : Text} {ts rest : List Token} {d : Decl} (hts : Ended ts)
    (hk : kindOf ts 0 ≠ .eof) (hrest : rest <:+ (scan x).tokens)
    (hout : Escapes rest (item x ts)) (hdecls : (items x ts).filterMap Item.decl? = [d])
    (herrors : (items x ts).filterMap Item.error? = []) :
    d.first = (ts.headD Token.none).offset ∨ (rest.headD Token.none).offset < d.first := by
  rw [items_step _ hts hk] at hdecls herrors
  generalize hi : item x ts = r at hout hdecls herrors
  obtain ⟨i, us⟩ := r
  cases i with
  | error e => cases herrors
  | decl d' =>
      obtain rfl : d' = d := (List.cons.inj hdecls).1
      exact .inl (item_decl hts hi).1
  | nothing =>
      rw [items_of_eof _ hout.2.2] at hdecls
      cases hdecls
  | inlineModule | skipped =>
      have hmem : d ∈ (items x us).filterMap Item.decl? := by
        rw [show (items x us).filterMap Item.decl? = [d] from hdecls]
        exact List.mem_singleton_self d
      exact .inr (lt_first_of_mem hrest hout (mem_decls_iff.mp hmem))

/-- A text that dangles, with a declaration behind it. -/
theorem not_isolated_of_dangling {x y : Text} (hx : Malformed x) (hdangling : Dangling x)
    (hy : WellFormed y) : ¬ Isolated [x, y] := by
  rintro ⟨hdecls, herrors⟩
  obtain ⟨is, ts, halone, hts, hk, hoffset, hout, hitems⟩ := items_dangling hx hdangling hy
  obtain ⟨d, first, last, hd, hfirst, -, hstart, -⟩ := hy.decl
  have hclean : (scan (Text.join "\n" [x, y])).errors = [] :=
    scan_join (by simpa using ⟨hx.clean, hy.clean⟩)
  -- the items in front are the error of the broken text and no declaration
  have hdecls' := decls_eq x
  rw [hx.decls, halone, List.filterMap_append, eq_comm, List.append_eq_nil_iff] at hdecls'
  obtain ⟨e, he, -⟩ := hx.error
  have herrors' := errors_eq hx.clean
  rw [he, halone, List.filterMap_append] at herrors'
  -- so the declaration comes from the items behind, and no error does
  replace hdecls : (items (Text.join "\n" [x, y]) ts).filterMap Item.decl? =
      [d.place (Position.start.after (x ++ "\n")).shift (x ++ "\n").length] := by
    rw [decls_eq, hitems, List.filterMap_append, decl?_behindText, hdecls'.1] at hdecls
    simpa [located, hx.decls, hd] using hdecls
  replace herrors : (items (Text.join "\n" [x, y]) ts).filterMap Item.error? = [] := by
    have hlen := herrors.length_eq
    have hlen' := congrArg List.length herrors'
    rw [errors_eq hclean, hitems, List.filterMap_append, error?_behindText] at hlen
    simp only [located, List.filter_cons, hx.decls, hd, List.isEmpty_nil, List.isEmpty_cons,
      if_true, Bool.false_eq_true, if_false, List.filter_nil, List.length_cons,
      List.length_nil, List.length_append, List.length_map] at hlen hlen'
    refine List.length_eq_zero_iff.mp ?_
    change 1 = (is.filterMap Item.error?).length + 0 at hlen'
    omega
  have htail : tokensBehind (x ++ "\n") [y] <:+ (scan (Text.join "\n" [x, y])).tokens := by
    rw [← tokensBehind_nil, tokensBehind_cons hx.clean]
    exact List.suffix_append _ _
  have hhead : ((tokensBehind (x ++ "\n") [y]).headD Token.none).offset =
      (d.place (Position.start.after (x ++ "\n")).shift (x ++ "\n").length).first := by
    rw [tokensBehind, Text.join, tokensAt_own, List.headD_eq_head?_getD, List.head?_append,
      List.head?_map, hfirst]
    change (x ++ "\n").length + first.offset = (x ++ "\n").length + d.first
    rw [hstart]
  have hplace : (d.place (Position.start.after (x ++ "\n")).shift
      (x ++ "\n").length).first =
      (x ++ "\n").length + d.first := rfl
  rcases first_of_escapes hts hk htail hout hdecls herrors with heq | hlt
  · rw [hplace, List.length_append] at heq
    omega
  · rw [hhead] at hlt
    exact Nat.lt_irrefl _ hlt

/-- Declarations and broken texts on lines of their own are read as if each stood
alone, if no broken text dangles; and one that does spoils every declaration that
is put behind it. -/
theorem parse_isolated (xs : List Text) :
    ((∀ x ∈ xs, WellFormed x ∨ Malformed x ∧ ¬ Dangling x) → Isolated xs) ∧
      ∀ x ∈ xs, ∀ y, Malformed x → Dangling x → WellFormed y → ¬ Isolated [x, y] :=
  ⟨isolated_of_not_dangling, fun _ _ _ => not_isolated_of_dangling⟩

/-- A broken text that dangles and two texts that do not. -/
theorem parse_isolated_struct :
    Isolated ["struct S;", "struct 5;"] ∧ ¬ Isolated ["#[x + [>]] #! ;", "struct S;"] := by
  have hstruct : WellFormed "struct S;" :=
    ⟨by decide +kernel, _, _, _, rfl, rfl, rfl, by decide +kernel, by decide +kernel⟩
  have hfive : Malformed "struct 5;" :=
    ⟨by decide +kernel, by decide +kernel, rfl, _, rfl, by decide +kernel⟩
  have hattr : Malformed "#[x + [>]] #! ;" :=
    ⟨by decide +kernel, by decide +kernel, rfl, _, rfl, by decide +kernel⟩
  have hclean : ¬ Dangling "struct 5;" := by
    have hitems : items "struct 5;" (scan "struct 5;").tokens = [.error _] := rfl
    rw [Dangling, hitems]
    simp
  have hdangling : Dangling "#[x + [>]] #! ;" := by
    have hitems : items "#[x + [>]] #! ;" (scan "#[x + [>]] #! ;").tokens =
      [.error _, .nothing] := rfl
    rw [Dangling, hitems]
    simp
  refine ⟨(parse_isolated _).1 ?_, (parse_isolated _).2 _
    (List.mem_singleton_self _) _ hattr hdangling hstruct⟩
  simpa using ⟨Or.inl hstruct, Or.inr ⟨hfive, hclean⟩⟩

end Deriver
