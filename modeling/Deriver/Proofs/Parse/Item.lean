import Deriver.Proofs.Parse.DeclOverlap

/-!
# Items one after the other

Every item takes at least one token, so the rounds `items` is given are never
used up, and what it yields is the first item and the items of what is left.
-/

set_option synthInstance.maxSize 1000

namespace Deriver.Parse

/-! ## Skipping -/

theorem skipItem_suffix (depth : Int) (ts : List Token) : skipItem depth ts <:+ ts := by
  fun_induction skipItem depth ts with
  | case1 | case2 => exact List.suffix_refl _
  | case3 _ t ts _ _ ih | case6 _ t ts _ _ _ _ ih | case7 _ t ts _ _ _ _ ih
  | case9 _ t ts _ _ _ _ _ ih => exact ih.trans (List.suffix_cons t ts)
  | case4 _ t ts => exact (List.drop_suffix 1 ts).trans (List.suffix_cons t ts)
  | case5 _ t ts | case8 _ t ts => exact List.suffix_cons t ts

theorem skipItem_ne_nil {ts : List Token} (h : Ended ts) (depth : Int) :
    skipItem depth ts ≠ [] := by
  fun_induction skipItem depth ts with
  | case1 => exact h.ne_nil
  | case2 => exact List.cons_ne_nil _ _
  | case3 _ t ts hk _ ih | case6 _ t ts hk _ _ _ ih | case7 _ t ts hk _ _ _ ih
  | case9 _ t ts hk _ _ _ _ ih => exact ih (h.tail (by simpa using hk))
  | case4 _ t ts hk _ _ _ hsemi =>
      have hts := h.tail (by simpa using hk)
      obtain ⟨u, us, rfl, -⟩ := hts.cases
      have hu : u.kind = .semicolon := of_decide_eq_true hsemi
      exact (hts.tail (by rw [hu]; decide)).ne_nil
  | case5 _ t ts hk | case8 _ t ts hk => exact (h.tail (by simpa using hk)).ne_nil

/-- Skipping takes at least one token, unless none is left. -/
theorem skipItem_lt {ts : List Token} (hk : kindOf ts 0 ≠ .eof) (depth : Int) :
    (skipItem depth ts).length < ts.length := by
  cases ts with
  | nil => exact absurd rfl hk
  | cons t ts =>
      have hle (depth : Int) : (skipItem depth ts).length < ts.length + 1 :=
        Nat.lt_succ_of_le (skipItem_suffix depth ts).length_le
      have ht : t.kind ≠ .eof := hk
      rw [List.length_cons]
      unfold skipItem
      rw [if_neg (by simpa using ht)]
      split
      · exact hle _
      · split
        · split
          · split
            · rw [List.length_drop]
              omega
            · exact Nat.lt_succ_self _
          · exact hle _
        · split
          · exact hle _
          · split
            · exact Nat.lt_succ_self _
            · exact hle _

/-! ## One item -/

variable {source : Text} {ts us : List Token}

/-- Whether `us` is left of `ts` when something was taken. -/
structure Behind (us ts : List Token) : Prop where
  sub : us <:+ ts
  ne : us ≠ []
  lt : us.length < ts.length

theorem Behind.ended (h : Behind us ts) (hts : Ended ts) : Ended us :=
  hts.of_suffix h.sub h.ne

theorem Behind.of_suffix {vs : List Token} (h : Behind us vs) (hvs : vs <:+ ts) :
    Behind us ts :=
  ⟨h.sub.trans hvs, h.ne, Nat.lt_of_lt_of_le h.lt hvs.length_le⟩

theorem Behind.of_passes {α : Type} {v : α} (h : Passes ts (.ok (v, us))) :
    Behind us ts := by
  obtain ⟨hne, t, ht, hsub⟩ := h
  exact ⟨(List.suffix_cons t us).trans hsub, hne, hsub.length_le⟩

theorem behind_skipItem (hts : Ended ts) (hk : kindOf ts 0 ≠ .eof) (depth : Int) :
    Behind (skipItem depth ts) ts :=
  ⟨skipItem_suffix depth ts, skipItem_ne_nil hts depth, skipItem_lt hk depth⟩

/-- A suffix that begins with the end is a proper one, if the list does not. -/
theorem behind_of_eof (hsub : us <:+ ts) (hne : us ≠ []) (hk : kindOf ts 0 ≠ .eof)
    (hk' : kindOf us 0 = .eof) : Behind us ts := by
  refine ⟨hsub, hne, Nat.lt_of_le_of_ne hsub.length_le fun hlen => hk ?_⟩
  rw [← hsub.eq_of_length hlen, hk']

theorem passes_of_body? {body : Parser (Text × Generics × Data)}
    (h : body? source ts = some body) (hts : Ended ts) : Passes ts (body (behind ts)) := by
  have hbehind : Ended (behind ts) := hts.of_suffix (behind_suffix ts) (behind_ne_nil hts)
  unfold body? at h
  split at h
  · cases h
    exact (Closing.passes _ hbehind).trans (behind_suffix ts)
  · cases h
    exact (Closing.passes _ hbehind).trans (behind_suffix ts)
  · split at h
    · cases h
      exact (Closing.passes _ hbehind).trans (behind_suffix ts)
    · cases h
  · cases h

theorem Ended.drop_one (hts : Ended ts) (hk : kindOf ts 0 ≠ .eof) : Ended (ts.drop 1) := by
  obtain ⟨t, us, rfl, -⟩ := hts.cases
  exact hts.tail hk

theorem kindOf_drop_one (ts : List Token) (n : Nat) :
    kindOf (ts.drop 1) n = kindOf ts (n + 1) := by
  simp only [kindOf, List.getElem?_drop, Nat.add_comm]

theorem behind_of_not_eof {t : Token} (ht : t.kind ≠ .eof) : behind (t :: ts) = ts := by
  simp [behind, ht]

theorem ne_eof_of_module (h : (kindOf us 0 == .modKw && kindOf us 1 == .ident &&
      kindOf us 2 == .lbrace) = true) :
    kindOf us 0 ≠ .eof ∧ kindOf (us.drop 1) 0 ≠ .eof ∧
    kindOf ((us.drop 1).drop 1) 0 ≠ .eof := by
  rw [Bool.and_eq_true, Bool.and_eq_true] at h
  obtain ⟨⟨h0, h1⟩, h2⟩ := h
  rw [kindOf_drop_one, kindOf_drop_one, kindOf_drop_one, of_decide_eq_true h0,
    of_decide_eq_true h1, of_decide_eq_true h2]
  decide

/-- Behind its attributes and visibility an item takes at least one token more,
unless none is left. -/
theorem behind_itemBody (attrs : List Attribute) (vis : Text) {start : List Token}
    (hstart : Ended start) (hk : kindOf start 0 ≠ .eof) (hus : us <:+ start) (hne : us ≠ [])
    (hlt : us.length < start.length ∨ kindOf us 0 ≠ .eof) :
    Behind (itemBody source start attrs vis us).2 start := by
  have hended : Ended us := hstart.of_suffix hus hne
  unfold itemBody
  dsimp only
  split
  · next body hbody =>
      have h := passes_of_body? hbody hended
      split
      · next hok =>
          rw [hok] at h
          exact (Behind.of_passes h).of_suffix hus
      · exact behind_skipItem hstart hk 0
  · split
    · next hmod =>
        obtain ⟨h0, h1, h2⟩ := ne_eof_of_module hmod
        have hrest := (hended.drop_one h0).drop_one h1
        rw [show us.drop 2 = (us.drop 1).drop 1 by rw [List.drop_drop]]
        refine (behind_skipItem hrest h2 0).of_suffix (List.IsSuffix.trans ?_ hus)
        exact (List.drop_suffix 1 _).trans (List.drop_suffix 1 us)
    · split
      · next hclosing =>
          obtain ⟨t, vs, rfl⟩ := List.exists_cons_of_ne_nil hne
          have ht : t.kind ≠ .eof := by
            intro ht
            rw [List.headD_cons, ht] at hclosing
            cases hclosing
          rw [behind_of_not_eof ht]
          have hvs := hended.tail ht
          exact Behind.of_suffix ⟨List.suffix_cons t vs, hvs.ne_nil, Nat.lt_succ_self _⟩ hus
      · rcases hlt with hlt | hk'
        · have := skipItem_suffix 0 us
          exact ⟨this.trans hus, skipItem_ne_nil hended 0,
            Nat.lt_of_le_of_lt this.length_le hlt⟩
        · exact (behind_skipItem hended hk' 0).of_suffix hus

/-- An item takes at least one token, unless none is left. -/
theorem behind_item (source : Text) (hts : Ended ts) (hk : kindOf ts 0 ≠ .eof) :
    Behind (item source ts).2 ts := by
  unfold item
  have hattrs := (inferInstance : Forward (attributes source)).reaches ts hts
  split
  · exact behind_skipItem hts hk 0
  · next attrs us hok =>
      rw [hok] at hattrs
      split
      · next heof => exact behind_of_eof hattrs.1 hattrs.2 hk (of_decide_eq_true heof)
      · next heof =>
          have heof : kindOf us 0 ≠ .eof := by simpa using heof
          have hus := hts.of_suffix hattrs.1 hattrs.2
          have hvis := (inferInstance : Forward (visibility source)).reaches us hus
          split
          · exact behind_skipItem hts hk 0
          · next vis vs hok =>
              rw [hok] at hvis
              refine behind_itemBody attrs vis hts hk (hvis.1.trans hattrs.1) hvis.2 ?_
              by_cases hvs : kindOf vs 0 = .eof
              · have hlt := (behind_of_eof hvis.1 hvis.2 heof hvs).lt
                exact Or.inl (Nat.lt_of_lt_of_le hlt hattrs.1.length_le)
              · exact Or.inr hvs

/-! ## All items -/

theorem itemLoop_of_length_le {n n' : Nat} (hts : Ended ts) (hn : ts.length ≤ n)
    (hn' : ts.length ≤ n') : itemLoop source n ts = itemLoop source n' ts := by
  induction n generalizing n' ts with
  | zero => exact absurd (List.length_eq_zero_iff.mp (Nat.le_zero.mp hn)) hts.ne_nil
  | succ n ih =>
      obtain ⟨n', rfl⟩ : ∃ m, n' = m + 1 :=
        Nat.exists_eq_add_one.mpr
          (Nat.lt_of_lt_of_le (List.length_pos_of_ne_nil hts.ne_nil) hn')
      unfold itemLoop
      split
      · rfl
      · next heof =>
          have h := behind_item source hts (by simpa using heof)
          have hlt := h.lt
          exact congrArg _ (ih (h.ended hts) (by omega) (by omega))

theorem items_of_eof (source : Text) (hk : kindOf ts 0 = .eof) : items source ts = [] := by
  unfold items
  cases ts with
  | nil => rfl
  | cons t ts =>
      rw [List.length_cons, itemLoop, if_pos]
      exact beq_iff_eq.mpr hk

theorem items_step (source : Text) (hts : Ended ts) (hk : kindOf ts 0 ≠ .eof) :
    items source ts = (item source ts).1 :: items source (item source ts).2 := by
  have h := behind_item source hts hk
  obtain ⟨n, hn⟩ : ∃ n, ts.length = n + 1 :=
    Nat.exists_eq_add_one.mpr (List.length_pos_of_ne_nil hts.ne_nil)
  have hlt := h.lt
  have hk : ¬ (kindOf ts 0 == .eof) = true := by simpa using hk
  unfold items
  rw [hn, itemLoop, if_neg hk]
  exact congrArg _ (itemLoop_of_length_le (h.ended hts) (by omega) (Nat.le_refl _))

theorem exists_of_mem_items (hts : Ended ts) {i : Item} (hi : i ∈ items source ts) :
    ∃ us, us <:+ ts ∧ Ended us ∧ kindOf us 0 ≠ .eof ∧ (item source us).1 = i := by
  induction hn : ts.length using Nat.strong_induction_on generalizing ts with
  | _ n ih =>
      by_cases hk : kindOf ts 0 = .eof
      · rw [items_of_eof source hk] at hi
        cases hi
      · rw [items_step source hts hk, List.mem_cons] at hi
        rcases hi with rfl | hi
        · exact ⟨ts, List.suffix_refl ts, hts, hk, rfl⟩
        · have h := behind_item source hts hk
          obtain ⟨us, hsub, hus⟩ := ih _ (hn ▸ h.lt) (h.ended hts) hi rfl
          exact ⟨us, hsub.trans h.sub, hus⟩

theorem item_of_semicolon {t : Token} (ht : t.kind = .semicolon) :
    item source (t :: ts) = (.skipped, ts) := by
  have hattrs : attributes source (t :: ts) = .ok ([], t :: ts) := by
    change (check .hash >>= fun b => _) (t :: ts) = _
    change (if (TokenKind.hash != .eof && t.kind == .hash) = true then _ else
      _ : Parser _) _ = _
    rw [ht]
    rfl
  have hvis : visibility source (t :: ts) = .ok ([], t :: ts) := by
    refine (accept_run .pubKw t _ _ _).trans ?_
    rw [ht]
    rfl
  have hk : kindOf (t :: ts) 0 = .semicolon := ht
  have hbody : body? source (t :: ts) = none := by
    unfold body?
    rw [hk]
  unfold item
  rw [hattrs]
  dsimp only
  rw [hk, hvis]
  change itemBody source (t :: ts) [] [] (t :: ts) = _
  unfold itemBody
  rw [hbody]
  dsimp only
  rw [hk, List.headD_cons, ht]
  change (Item.skipped, skipItem 0 (t :: ts)) = _
  rw [skipItem, ht]
  rfl

/-- How a declaration is read: its attributes, its visibility, and behind the keyword what
the keyword announces. -/
theorem exists_of_item_decl {d : Decl} (h : item source ts = (.decl d, us)) :
    ∃ vs ws body, attributes source ts = .ok (d.attrs, vs) ∧
    visibility source vs = .ok (d.vis, ws) ∧
      body? source ws = some body ∧ body (behind ws) =
      .ok ((d.name, d.generics, d.data), us) ∧
      d.pos = (ws.headD Token.none).pos ∧ d.first = (ts.headD Token.none).offset ∧
      d.stop = (((between ts us).getLast?).getD Token.none).stop := by
  unfold item at h
  split at h
  · cases h
  next attrs vs hattrs =>
  split at h
  · cases h
  split at h
  · cases h
  next vis ws hvis =>
  unfold itemBody at h
  dsimp only at h
  split at h
  · next body hbody =>
      split at h
      · next hok =>
          cases h
          exact ⟨vs, ws, body, hattrs, hvis, hbody, hok, rfl, rfl, rfl⟩
      · cases h
  · split at h
    · cases h
    · split at h <;> cases h

/-- A declaration reaches from the first token of its item to a semicolon or a
brace, behind which the next item begins. -/
theorem item_decl (hts : Ended ts) {d : Decl} (h : item source ts = (.decl d, us)) :
    d.first = (ts.headD Token.none).offset ∧
      d.stop = (((between ts us).getLast?).getD Token.none).stop ∧
      us ≠ [] ∧ ∃ t, t.kind ∈ closers ∧ t :: us <:+ ts := by
  obtain ⟨vs, ws, body, hattrs, hvis, hbody, hok, -, hfirst, hstop⟩ := exists_of_item_decl h
  obtain ⟨hvs, hvsEnded⟩ := Forward.of_ok hts hattrs
  obtain ⟨hws, hwsEnded⟩ := Forward.of_ok hvsEnded hvis
  have hpass := passes_of_body? hbody hwsEnded
  rw [hok] at hpass
  obtain ⟨hne, t, ht, hsub⟩ := hpass
  exact ⟨hfirst, hstop, hne, t, ht, hsub.trans (hws.trans hvs)⟩

/-- The declaration that an item is. -/
def Item.decl? : Item → Option Decl
  | .decl d => some d
  | _ => none

theorem mem_decls_iff {is : List Item} {d : Decl} :
    d ∈ is.filterMap Item.decl? ↔ .decl d ∈ is := by
  rw [List.mem_filterMap]
  constructor
  · rintro ⟨i, hi, hd⟩
    cases i <;> cases hd
    exact hi
  · exact fun h => ⟨_, h, rfl⟩

end Deriver.Parse

namespace Deriver

open Parse

/-! ## Items of a text -/

theorem ended_own (x : Text) : Ended (ownTokens x ++ [endOf x]) :=
  ⟨endOf x, List.getLast?_concat, rfl⟩

theorem ended_scan (x : Text) : Ended (scan x).tokens := by
  rw [scan_tokens_own]
  exact ended_own x

theorem decls_eq (x : Text) :
    (parse x).file.decls = (items x (scan x).tokens).filterMap Item.decl? := by
  change (items x (scan x).tokens).filterMap _ = _
  congr 1

theorem parse_decls {x : Text} {d : Decl} :
    d ∈ (parse x).file.decls ↔ .decl d ∈ items x (scan x).tokens := by
  rw [decls_eq, mem_decls_iff]

/-- Every declaration of a text is the first item of what was left when it was read. -/
theorem item_of_mem_decls {x : Text} {d : Decl} (hd : d ∈ (parse x).file.decls) :
    ∃ ts us, ts <:+ (scan x).tokens ∧ Ended ts ∧ item x ts = (.decl d, us) := by
  obtain ⟨ts, hts, hended, -, hitem⟩ :=
    exists_of_mem_items (ended_scan x) (parse_decls.mp hd)
  exact ⟨ts, (item x ts).2, hts, hended, Prod.ext hitem rfl⟩

end Deriver

/-!
## Items in two places

Main statement: `sameItem`. An item that begins inside the run is the same in both
lists, up to places, unless it goes past the run. What is left behind a broken or
foreign item is found by skipping, and whether skipping stays inside the run
depends on its brackets, so the statement leaves that open.
-/

namespace Deriver.Parse

/-- What is known of an item that went past the run, when `rest` stands behind it:
it took something there, or found the end, or failed there. -/
def Escapes (rest : List Token) : Item × List Token → Prop
  | (.error e, _) => ∃ us, us <:+ rest ∧ us ≠ [] ∧ e.token = us.headD Token.none
  | (.nothing, r) => r <:+ rest ∧ r ≠ [] ∧ kindOf r 0 = .eof
  | (_, r) => Behind r rest

section Escapes

variable {source : Text} {rest start us : List Token} {attrs : List Attribute} {vis : Text}

theorem escapes_skipItem {i : Item} (hi : i = .skipped ∨ ∃ m, i = .inlineModule m)
    (hus : Ended us) (hsub : us <:+ rest) (hk : kindOf us 0 ≠ .eof) :
    Escapes rest (i, skipItem 0 us) := by
  have h := (behind_skipItem hus hk 0).of_suffix hsub
  rcases hi with rfl | ⟨m, rfl⟩
  · exact h
  · exact h

theorem escapes_itemBody (hus : Ended us) (hsub : us <:+ rest) (hk : kindOf us 0 ≠ .eof) :
    Escapes rest (itemBody source start attrs vis us) := by
  unfold itemBody
  dsimp only
  split
  · next body hbody =>
      have h := (passes_of_body? hbody hus).trans hsub
      split
      · next hok =>
          rw [hok] at h
          exact Behind.of_passes h
      · next e herror =>
          rw [herror] at h
          exact h
  · split
    · next hmod =>
        obtain ⟨-, h1, h2⟩ := ne_eof_of_module hmod
        rw [show us.drop 2 = (us.drop 1).drop 1 by rw [List.drop_drop]]
        refine escapes_skipItem (Or.inr ⟨_, rfl⟩) ((hus.drop_one hk).drop_one h1) ?_ h2
        exact (List.drop_suffix 1 _).trans ((List.drop_suffix 1 us).trans hsub)
    · split
      · obtain ⟨t, vs, rfl, -⟩ := hus.cases
        exact ⟨t :: vs, hsub, List.cons_ne_nil _ _, rfl⟩
      · exact escapes_skipItem (Or.inl rfl) hus hsub hk

theorem itemBody_of_eof (hne : us ≠ []) (hk : kindOf us 0 = .eof) :
    itemBody source start attrs vis us = (.skipped, us) := by
  obtain ⟨t, vs, rfl⟩ := List.exists_cons_of_ne_nil hne
  have ht : t.kind = .eof := hk
  have hbody : body? source (t :: vs) = none := by
    unfold body?
    rw [hk]
  unfold itemBody
  rw [hbody]
  have hmod : ¬ (kindOf (t :: vs) 0 == .modKw && kindOf (t :: vs) 1 == .ident &&
      kindOf (t :: vs) 2 == .lbrace) = true := by simp [hk]
  have hclosing : ¬ ((t :: vs).headD Token.none).kind.isClosing = true := by
    rw [List.headD_cons, ht]
    decide
  dsimp only
  rw [if_neg hmod, if_neg hclosing, skipItem, if_pos (beq_iff_eq.mpr ht)]

theorem escapes_visibility (hrest : ∀ us, us <:+ rest → us ≠ [] → Ended us)
    (hsub : us <:+ rest) (hne : us ≠ []) (hk : kindOf us 0 ≠ .eof) :
    Escapes rest (match visibility source us with
      | .error e => (.error e, skipItem 0 start)
      | .ok (vis, ts) => itemBody source start attrs vis ts) := by
  have hus := hrest us hsub hne
  have h := (inferInstance : Forward (visibility source)).reaches us hus
  cases hvis : visibility source us with
  | error e =>
      rw [hvis] at h
      exact h.trans hsub
  | ok r =>
      rw [hvis] at h
      by_cases hr : kindOf r.2 0 = .eof
      · -- the end is no body, and the visibility took something
        have hbehind := (behind_of_eof h.1 h.2 hk hr).of_suffix hsub
        change Escapes rest (itemBody source start attrs r.1 r.2)
        rw [itemBody_of_eof h.2 hr]
        exact hbehind
      · exact escapes_itemBody (hrest r.2 (h.1.trans hsub) h.2) (h.1.trans hsub) hr

/-- Where a visibility went past the run nothing is known but what it left. -/
theorem escapes_scope (hrest : ∀ us, us <:+ rest → us ≠ [] → Ended us)
    (x : Except ParseError (Text × List Token)) :
    Reaches rest x →
      let r := match x with
        | .error e => (.error e, skipItem 0 start)
        | .ok (vis, ts) => itemBody source start attrs vis ts
      Escapes rest r ∨ r.1 = .skipped := by
  intro h
  cases x with
  | error e => exact Or.inl h
  | ok r =>
      by_cases hk : kindOf r.2 0 = .eof
      · right
        change (itemBody _ _ _ _ _).1 = _
        rw [itemBody_of_eof h.2 hk]
      · exact Or.inl (escapes_itemBody (hrest r.2 h.1 h.2) h.1 hk)

theorem escapes_attributes (hrest : ∀ us, us <:+ rest → us ≠ [] → Ended us)
    (x : Except ParseError (List Attribute × List Token)) :
    Reaches rest x → Escapes rest (match x with
      | .error e => (.error e, skipItem 0 start)
      | .ok (attrs, ts) =>
          if kindOf ts 0 == .eof then (.nothing, ts)
          else
            match visibility source ts with
            | .error e => (.error e, skipItem 0 start)
            | .ok (vis, ts) => itemBody source start attrs vis ts) := by
  intro h
  cases x with
  | error e => exact h
  | ok r =>
      dsimp only
      split
      · next heof => exact ⟨h.1, h.2, of_decide_eq_true heof⟩
      · next heof => exact escapes_visibility hrest h.1 h.2 (by simpa using heof)

end Escapes

namespace Overlap

variable (W : Overlap)

/-- The items and what is left behind them agree, as far as it can be said without
the brackets of the run. -/
inductive SameItem (ts : List Token) : Item × List Token → Item × List Token → Prop where
  | decl (d : Decl) (us : List Token) (hsub : us <:+ ts) (hlt : us.length < ts.length) :
      SameItem ts (.decl d, W.left us) (.decl (d.place W.shift W.gap), W.right us)
  | error (problem : Problem) (t : Token) (ht : t ∈ ts) (hdeep : problem ≠ .tooDeep) :
      SameItem ts (.error ⟨problem, t⟩, skipItem 0 (W.left ts))
        (.error ⟨problem, W.move t⟩, skipItem 0 (W.right ts))
  | closing (t : Token) (us : List Token) (h : t :: us <:+ ts) :
      SameItem ts (.error ⟨.closing, t⟩, W.left us)
        (.error ⟨.closing, W.move t⟩, W.right us)
  | skip (i : Item) (us : List Token) (hi : i = .skipped ∨ ∃ m, i = .inlineModule m)
      (hsub : us <:+ ts) (hne : us ≠ []) :
      SameItem ts (i, skipItem 0 (W.left us))
        (i.place W.shift W.gap, skipItem 0 (W.right us))
  | nothing (us : List Token) (hsub : us <:+ ts) (hne : us ≠ []) (hk : kindOf us 0 = .eof) :
      SameItem ts (.nothing, W.left us) (.nothing, W.right us)
  /-- The scope of a `pub` goes past the run. -/
  | scope {x y : Item × List Token} (us : List Token) (hsub : us <:+ ts) (hne : us ≠ [])
      (hvis : Reaches W.rest (visibility W.source (W.left us)))
      (hx : Escapes W.rest x ∨ x.1 = .skipped) (hy : Escapes W.rest' y ∨ y.1 = .skipped) :
      SameItem ts x y
  | out {x y : Item × List Token} (hx : Escapes W.rest x) (hy : Escapes W.rest' y) :
      SameItem ts x y

variable {W} {ts us : List Token} {attrs : List Attribute} {vis : Text}

theorem stop_between (hsub : us <:+ ts) (hlt : us.length < ts.length) :
    (((between (W.right ts) (W.right us)).getLast?).getD Token.none).stop =
      W.gap + (((between (W.left ts) (W.left us)).getLast?).getD Token.none).stop := by
  rw [between_left hsub, between_right hsub, List.getLast?_map]
  cases hlast : (ts.take (ts.length - us.length)).getLast? with
  | none =>
      rw [List.getLast?_eq_none_iff, List.take_eq_nil_iff] at hlast
      rcases hlast with h | h
      · omega
      · rw [h] at hlt
        exact absurd hlt (Nat.not_lt_zero _)
  | some t => exact Nat.add_assoc ..

theorem body?_agree (hus : W.Inside us) :
    (body? W.source (W.left us) = none ∧ body? W.source' (W.right us) = none) ∨
    ∃ p q, body? W.source (W.left us) = some p ∧ body? W.source' (W.right us) = some q ∧
      kindOf us 0 ∉ limits ∧ ∀ vs, W.Inside vs → W.EndsAt vs W.placeBody p q := by
  unfold body?
  rw [kindOf_left hus, kindOf_right hus]
  split
  · next hk =>
      refine Or.inr ⟨_, _, rfl, rfl, ?_, fun _ => endsAt_structBody⟩
      rw [hk]
      decide
  · next hk =>
      refine Or.inr ⟨_, _, rfl, rfl, ?_, fun _ => endsAt_enumBody⟩
      rw [hk]
      decide
  · next hk =>
      have hclose : kindOf us 0 ∉ limits := by
        rw [hk]
        decide
      rw [(kindOf_one hus hclose).1, (kindOf_one hus hclose).2]
      split
      · exact Or.inr ⟨_, _, rfl, rfl, hclose, fun _ => endsAt_unionBody⟩
      · exact Or.inl ⟨rfl, rfl⟩
  · exact Or.inl ⟨rfl, rfl⟩

/-- Three tokens ahead, of which the first two close nothing. -/
theorem kindOf_module (hus : W.Inside us) :
    (kindOf (W.right us) 0 == .modKw && kindOf (W.right us) 1 == .ident &&
      kindOf (W.right us) 2 == .lbrace) =
    (kindOf (W.left us) 0 == .modKw && kindOf (W.left us) 1 == .ident &&
      kindOf (W.left us) 2 == .lbrace) ∧
    ((kindOf (W.left us) 0 == .modKw && kindOf (W.left us) 1 == .ident &&
      kindOf (W.left us) 2 == .lbrace) = true →
      ∃ t u vs, us = t :: u :: vs ∧ W.Inside vs) := by
  obtain ⟨t, vs, rfl⟩ := hus.cons
  rw [kindOf_left hus, kindOf_right hus]
  by_cases h0 : kindOf (t :: vs) 0 = .modKw
  · have hvs : W.Inside vs := hus.tail (by
      rw [show t.kind = .modKw from h0]
      decide)
    obtain ⟨u, ws, rfl⟩ := hvs.cons
    have h1 : kindOf (W.right (t :: u :: ws)) 1 = kindOf (W.left (t :: u :: ws)) 1 := rfl
    rw [h1]
    by_cases h1 : kindOf (W.left (t :: u :: ws)) 1 = .ident
    · have hws : W.Inside ws := hvs.tail (by
        rw [show u.kind = .ident from h1]
        decide)
      obtain ⟨v, xs, rfl⟩ := hws.cons
      exact ⟨rfl, fun _ => ⟨t, u, _, rfl, hws⟩⟩
    · rw [beq_eq_false_iff_ne.mpr h1, Bool.and_false]
      exact ⟨rfl, nofun⟩
  · rw [beq_eq_false_iff_ne.mpr h0]
    exact ⟨rfl, nofun⟩

theorem sameItem_body (hts : W.Inside ts) (hsub : us <:+ ts) (hus : W.Inside us) :
    W.SameItem ts (itemBody W.source (W.left ts) attrs vis (W.left us))
      (itemBody W.source' (W.right ts) (attrs.map (Attribute.place W.shift)) vis
      (W.right us)) := by
  obtain ⟨t, vs, rfl⟩ := hus.cons
  unfold itemBody
  rcases body?_agree hus with ⟨hl, hr⟩ | ⟨p, q, hl, hr, hclose, hends⟩
  · rw [hl, hr]
    obtain ⟨hmod, hcut⟩ := kindOf_module hus
    dsimp only
    rw [hmod]
    split
    · next h =>
        obtain ⟨t', u, ws, heq, hws⟩ := hcut h
        cases heq
        refine .skip _ ws (Or.inr ⟨_, rfl⟩) (List.IsSuffix.trans ?_ hsub) hws.ne
        exact (List.suffix_cons u ws).trans (List.suffix_cons t _)
    · have hhead : (W.left (t :: vs)).headD Token.none = t := rfl
      have hhead' : (W.right (t :: vs)).headD Token.none = W.move t := rfl
      rw [hhead, hhead', show (W.move t).kind = t.kind from rfl]
      split
      · next hclosing =>
          have ht : t.kind ≠ .eof := by
            intro ht
            rw [ht] at hclosing
            cases hclosing
          rw [behind_left ht, behind_right ht]
          exact .closing t vs hsub
      · exact .skip _ _ (Or.inl rfl) hsub hus.ne
  · rw [hl, hr]
    dsimp only
    have ht : t.kind ≠ .eof := ne_eof_of_not_limit hclose
    rw [behind_left ht, behind_right ht]
    have h := hends vs (hus.tail hclose)
    unfold EndsAt at h
    generalize p (W.left vs) = x at h ⊢
    generalize q (W.right vs) = y at h ⊢
    cases h with
    | error problem u hu hdeep =>
        exact .error problem u (hsub.subset (List.mem_cons_of_mem t hu)) hdeep
    | ok b ws hws =>
        have hws' := hws.trans ((List.suffix_cons t vs).trans hsub)
        have hlt : ws.length < ts.length :=
          Nat.lt_of_le_of_lt hws.length_le hsub.length_le
        obtain ⟨u, us, rfl⟩ := hts.cons
        have h : W.SameItem (u :: us) _ _ := .decl ⟨attrs, vis, b.1, b.2.1, b.2.2,
          derivesOf attrs, t.pos, u.offset,
          (((between (W.left (u :: us)) (W.left ws)).getLast?).getD Token.none).stop⟩ ws
            hws' hlt
        simp only [Decl.place, ← derivesOf_place, ← stop_between hws' hlt] at h
        exact h
    | past hx hy =>
        refine .out ?_ ?_
        · cases x with
          | ok r => exact Behind.of_passes hx
          | error e => exact hx
        · cases y with
          | ok r => exact Behind.of_passes hy
          | error e => exact hy

theorem sameItem (hts : W.Inside ts) :
    W.SameItem ts (item W.source (W.left ts)) (item W.source' (W.right ts)) := by
  have h := at_attributes hts
  unfold At at h
  unfold item
  generalize attributes W.source (W.left ts) = x at h ⊢
  generalize attributes W.source' (W.right ts) = y at h ⊢
  cases h with
  | error problem t ht hdeep => exact .error problem t ht hdeep
  | out hx hy =>
      refine .out (escapes_attributes ?_ x hx) (escapes_attributes ?_ y hy)
      · exact fun _ => ended_of_rest
      · exact fun _ => ended_of_rest'
  | ok attrs us hsub hne =>
      have hus := hts.of_suffix hsub hne
      dsimp only
      rw [kindOf_left hus, kindOf_right hus]
      split
      · next heof => exact .nothing us hsub hne (of_decide_eq_true heof)
      · have h := at_visibility hus
        unfold At at h
        generalize hvis : visibility W.source (W.left us) = x at h ⊢
        generalize visibility W.source' (W.right us) = y at h ⊢
        cases h with
        | error problem t ht hdeep => exact .error problem t (hsub.subset ht) hdeep
        | ok vis vs hvs hne' =>
            exact sameItem_body hts (hvs.trans hsub) (hus.of_suffix hvs hne')
        | out hx hy =>
            refine .scope us hsub hne (hvis ▸ hx) ?_ ?_
            · exact escapes_scope (fun _ => ended_of_rest) x hx
            · exact escapes_scope (fun _ => ended_of_rest') y hy

end Overlap
end Deriver.Parse
