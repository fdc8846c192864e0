import Deriver.Proofs.Parse.Following
import Deriver.Proofs.Parse.Item
import Deriver.Proofs.Token.Tiling

/-!
# Every run of the parser comes to the end

Main statement: `run_safe`. On a list of tokens of which only the last marks the end the
parser comes to that token, every item leaves the cursor further ahead, and no token is
looked at where there is none; over the tokens of a text that goes for what is sliced from
the text too.

One item is `comes_item`. Its rules follow the parser's, as `Tracks` says, and what they
leave behind is either a declaration or a panic; out of a panic the cursor goes back to
where the item began and passes over it, which is where it could stand still. It does not,
since an item begins at a token that does not mark the end and `skipItem` takes at least
that one. The run is `comes_itemLoop`, by induction on the tokens that are left. On the way
the run is compared with `Parse.items`, so what the theorems about that parser say holds
of this one.
-/

namespace Deriver.Cursor

open Parse (Ended kindOf body? itemBody)

variable {i : Input} {c c' : Cursor} {s : Prop} {α β : Type}

/-! ## Passing over an item -/

/-- The step moves the cursor to where some tokens are ahead, in a panic or not, and
changes nothing else. -/
def Moves (i : Input) (m : Step Unit) (us : List Token) (c : Cursor) : Prop :=
  c.pos < i.tokens.length → ∃ k, m c = some (.ok ((), { c with pos := k })) ∧ c.pos ≤ k ∧
    k < i.tokens.length ∧ us = i.tokens.drop k

namespace Moves

variable {m m' : Step Unit} {us : List Token}

theorem stay : Moves i (Pure.pure ()) (i.ahead c) c :=
  fun hc => ⟨c.pos, rfl, Nat.le_refl _, hc, rfl⟩

theorem congr (hm : c.pos < i.tokens.length → m c = m' c) (h : Moves i m' us c) :
    Moves i m us c := by
  intro hc
  rw [hm hc]
  exact h hc

theorem take [i.Closed] {f : Token → Step Unit} (hk : kindOf (i.ahead c) 0 ≠ .eof)
    (h : ∀ t, i.ahead c = t :: i.tokens.drop (c.pos + 1) →
      Moves i (f t) us { c with pos := c.pos + 1 }) :
    Moves i (Cursor.take i >>= f) us c := by
  intro hc
  obtain ⟨k, hrun, hle, hlt, hus⟩ := h _ (ahead_eq_cons hc) (next_lt hk)
  exact ⟨k, (take_bind hc hk).trans hrun, Nat.le_of_succ_le hle, hlt, hus⟩

end Moves

theorem moves_accept [i.Closed] {k : TokenKind} :
    Moves i (accept i k >>= fun _ => Pure.pure ())
      (if i.isNext c k then (i.ahead c).drop 1 else i.ahead c) c := by
  cases hnext : i.isNext c k with
  | false => exact .congr (fun hc => (reads_accept hc hnext).bind) .stay
  | true =>
      unfold accept
      simp only [bind_assoc, if_true]
      refine .congr (fun hc => (reads_check hc k).bind) ?_
      rw [hnext]
      simp only [if_true, bind_assoc, pure_bind]
      refine .take (ne_eof_of_isNext hnext) fun _ _ => ?_
      rw [Input.ahead, List.drop_drop]
      exact .stay

theorem moves_skipItem [i.Closed] (depth : Int) :
    Moves i (i.skipItem depth) (Parse.skipItem depth (i.ahead c)) c := by
  induction hn : i.tokens.length - c.pos using Nat.strongRecOn generalizing c depth with
  | ind n ih =>
      rw [Input.skipItem]
      by_cases hend : kindOf (i.ahead c) 0 = .eof
      · intro hc
        obtain ⟨t, us, hts, ht⟩ := ahead_of_atEnd hc hend
        rw [show Parse.skipItem depth (i.ahead c) = i.ahead c by
          rw [hts, Parse.skipItem, ht]; rfl]
        refine Moves.congr (fun _ => (reads_atEnd hc).bind) ?_ hc
        rw [hend]
        exact .stay
      · refine .congr (fun hc => (reads_atEnd hc).bind) ?_
        rw [show (kindOf (i.ahead c) 0 == .eof) = false by
          simpa using hend, if_neg (by decide)]
        refine .take hend fun t hts => ?_
        have hlt : c.pos < i.tokens.length := by
          have := congrArg List.length hts
          rw [ahead_length] at this
          exact Nat.lt_of_sub_pos (this ▸ Nat.succ_pos _)
        have hgo (depth : Int) : Moves i (i.skipItem depth)
            (Parse.skipItem depth (i.tokens.drop (c.pos + 1)))
              { c with pos := c.pos + 1 } :=
          ih _ (by dsimp only; omega) depth rfl
        have hk : ¬ (t.kind == .eof) = true := by
          rw [hts] at hend
          have ht : t.kind ≠ .eof := hend
          simpa using ht
        rw [hts, Parse.skipItem, if_neg hk]
        split
        · exact hgo _
        · split
          · split
            · exact moves_accept
            · exact hgo _
          · split
            · exact hgo _
            · split
              · exact .stay
              · exact hgo _

/-- Back at the item the cursor passes over it, and the panic is over. -/
theorem recover_run [i.Closed] {b : Cursor} (hb : b.pos < i.tokens.length)
    (hk : kindOf (i.ahead b) 0 ≠ .eof) :
    ∃ k, recover i b.pos c = some (.ok ((), { c with pos := k, panicking := false })) ∧
      b.pos < k ∧ k < i.tokens.length ∧ Parse.skipItem 0 (i.ahead b) = i.tokens.drop k := by
  obtain ⟨k, hrun, hle, hlt, hus⟩ :=
      moves_skipItem (i := i) (c := { c with pos := b.pos }) 0 hb
  have hus' : Parse.skipItem 0 (i.ahead b) = i.tokens.drop k := hus
  have hfurther : b.pos < k := by
    have := Parse.skipItem_lt hk 0
    rw [hus', ahead_length, List.length_drop] at this
    omega
  refine ⟨k, ?_, hfurther, hlt, hus⟩
  change (i.skipItem 0 { c with pos := b.pos }).bind _ = _
  rw [hrun]
  change (if (k == b.pos) = true then _ else _ : Step Unit) _ = _
  rw [if_neg (by simpa using Nat.ne_of_gt hfurther)]
  rfl

/-! ## One item -/

/-- What an item adds to a file. -/
def addItem (file : SourceFile) : Parse.Item → SourceFile
  | .decl d => { file with decls := file.decls ++ [d] }
  | .inlineModule m => { file with modules := file.modules ++ [m] }
  | .skipped => { file with skipped := file.skipped + 1 }
  | _ => file

/-- What is wrong with an item. -/
def itemErrors : Parse.Item → List ParseError
  | .error e => [e]
  | _ => []

/-- What a call of `item` does when the item is `x`. -/
structure Takes (i : Input) (file : SourceFile) (c : Cursor) (x : Parse.Item)
    (file' : SourceFile) (c' : Cursor) : Prop where
  item : Parse.item i.source (i.ahead c) = (x, i.ahead c')
  further : c.pos < c'.pos
  inside : c'.pos < i.tokens.length
  calm : c'.panicking = false
  errors : c'.errors = c.errors ++ itemErrors x
  file : i.Distinct → file' = addItem file x

/-- The item is broken: it is passed over. -/
theorem comes_recover [i.Closed] {file : SourceFile} {e : ParseError}
    (hc : c.pos < i.tokens.length) (hk : kindOf (i.ahead c) 0 ≠ .eof)
    (herrors : c'.errors = c.errors ++ [e])
    (hitem : Parse.item i.source (i.ahead c) = (.error e, Parse.skipItem 0 (i.ahead c))) :
    Comes i (fun file' d => ∃ x, Takes i file c x file' d)
      ((recover i c.pos >>= fun _ => Pure.pure file) c') := by
  obtain ⟨k, hrun, hlt, hin, hus⟩ := recover_run (c := c') hc hk
  rw [run_bind hrun]
  refine .ok _ _ ⟨.error e, ?_, hlt, hin, rfl, herrors, fun _ => rfl⟩
  rw [hitem, hus]
  rfl

/-- Nothing is made of a declaration only in a panic. -/
def Makes (m : Step (Option α)) : Prop :=
  ∀ c v c', m c = some (.ok (v, c')) → c'.panicking = false → v.isSome = true

namespace Makes

variable {m m' : Step (Option α)}

theorem some (v : α) : Makes (Pure.pure (some v)) := by
  intro c v' c' h _
  cases h
  rfl

theorem bind {n : Step β} {f : β → Step (Option α)} (h : ∀ v, Makes (f v)) :
    Makes (n >>= f) := by
  intro c v c' hrun
  change (n c).bind _ = _ at hrun
  cases hn : n c with
  | none => rw [hn] at hrun; cases hrun
  | some r =>
      rw [hn] at hrun
      cases r with
      | error e => cases hrun
      | ok r => exact h r.1 r.2 v c' hrun

theorem ite {p : Prop} [Decidable p] (h : Makes m) (h' : Makes m') :
    Makes (if p then m else m') := by
  split
  · exact h
  · exact h'

theorem inPanic (h : Makes m) :
    Makes (Cursor.inPanic >>= fun b => if b = true then Pure.pure none else m) := by
  intro c v c' hrun hcalm
  change (if c.panicking = true then (Pure.pure none : Step (Option α)) else m) c =
    _ at hrun
  split at hrun
  · next hpan =>
      cases hrun
      rw [hpan] at hcalm
      cases hcalm
  · exact h c v c' hrun hcalm

end Makes

theorem makes_structBody : Makes (structBody i) :=
  .bind fun _ => .bind fun _ => .inPanic <| .bind fun _ => .bind fun _ => .ite
    (.bind fun _ => .bind fun _ => .bind fun _ => .some _) <|
      .bind fun _ => .ite (.some _) <|
    .bind fun _ => .bind fun _ => .ite (.some _) <| .bind fun _ => .ite
    (.bind fun _ => .some _) <| .bind fun _ => .some _

theorem makes_enumBody : Makes (enumBody i) :=
  .bind fun _ => .bind fun _ => .inPanic (.bind fun _ => .bind fun _ => .bind fun _ =>
    .bind fun _ => .bind fun _ => .some _)

theorem makes_unionBody : Makes (unionBody i) :=
  .bind fun _ => .bind fun _ => .inPanic
    (.bind fun _ => .bind fun _ => .bind fun _ => .some _)

theorem exists_visibility (source : Text) (ts : List Token) :
    ∃ vis us, Parse.visibility source ts = .ok (vis, us) := by
  cases ts with
  | nil => exact ⟨_, _, rfl⟩
  | cons t ts =>
      have hrun := Parse.accept_run .pubKw t (Parse.scope >>= fun _ =>
        Parse.textSince source (t :: ts)) (Pure.pure []) ts
      change ∃ vis us, (Parse.accept .pubKw >>= fun b => if b = true then
        (Parse.scope >>= fun _ =>
        Parse.textSince source (t :: ts)) else Pure.pure []) (t :: ts) = _
      rw [hrun]
      split
      · change ∃ vis us,
          ((ite (_ = true) (modify (Parse.skipGroup 0)) (Pure.pure ()) : Parser Unit)
            ts).bind _ = _
        split <;> exact ⟨_, _, rfl⟩
      · exact ⟨_, _, rfl⟩

theorem headD_ahead (hc : c.pos < i.tokens.length) :
    (i.ahead c).headD Token.none = i.tokens[c.pos] := by
  rw [ahead_eq_cons hc]
  rfl

theorem ended_ahead [hi : i.Closed] (hc : c.pos < i.tokens.length) : Ended (i.ahead c) := by
  have hne : i.ahead c ≠ [] := by
    rw [ahead_eq_cons hc]
    exact List.cons_ne_nil _ _
  exact hi.ended.of_suffix (List.drop_suffix _ _) hne

/-- The declaration is kept, or passed over if it is broken. -/
theorem comes_keep [i.Closed] {b : Cursor} {file : SourceFile} {first : Token}
    {attrs : List Attribute}
    {vis vis' : Text} {rule : Step (Option (Text × Generics × Data))}
    {body : Parser (Text × Generics × Data)}
    (hb : b.pos < i.tokens.length) (hk : kindOf (i.ahead b) 0 ≠ .eof)
    (hfirst : (i.ahead b).head? = some first) (hc : c.pos < i.tokens.length)
    (hcalm : c.panicking = false) (herrors : c.errors = b.errors)
    (hvis : i.Distinct → vis = vis')
    (hrule : Tracks i i.Distinct rule (Parse.take >>= fun _ => some <$> body) c)
    (hmakes : Makes rule) (hbody : body? i.source (i.ahead c) = some body)
    (hitem : Parse.item i.source (i.ahead b) =
      itemBody i.source (i.ahead b) attrs vis' (i.ahead c)) :
    Comes i (fun file' d => ∃ x, Takes i file b x file' d)
      (keep i file b.pos first attrs vis rule c) := by
  have hbehind := (Parse.behind_item i.source (ended_ahead hb) hk).lt
  rw [itemBody, hbody] at hitem
  dsimp only at hitem
  have hout : (Parse.take >>= fun _ => some <$> body) (i.ahead c) =
      (body (Parse.behind (i.ahead c))).map fun r => (some r.1, r.2) := by
    rw [map_eq_pure_bind]
    change (body (Parse.behind (i.ahead c))).bind _ = _
    cases body (Parse.behind (i.ahead c)) <;> rfl
  have hrun := hrule hc
  rw [hout] at hrun
  unfold keep
  rw [(reads_peek hc).bind]
  generalize hx : rule c = x at hrun
  generalize body (Parse.behind (i.ahead c)) = out at hrun hitem
  cases hrun with
  | slice a z h => rw [fault_bind hx]; exact .slice a z h
  | ok v d h =>
  obtain ⟨hle', hlt, hagree⟩ := h
  rw [run_bind hx, reads_inPanic.bind]
  cases out with
  | error e =>
      cases hagree with
      | panic _ hpan => rw [hcalm] at hpan; cases hpan
      | error _ _ hpan herrors' =>
          rw [if_pos hpan]
          exact comes_recover hb hk (by rw [herrors', herrors]) hitem
  | ok r =>
      obtain ⟨⟨name, generics, data⟩, rest⟩ := r
      cases hagree with
      | panic _ hpan => rw [hcalm] at hpan; cases hpan
      | ok _ _ hcalm' herrors' hv =>
          obtain ⟨⟨name', generics', data'⟩, rfl⟩ :=
            Option.isSome_iff_exists.mp (hmakes _ _ _ hx hcalm')
          dsimp only at hitem
          have hfurther : b.pos < d.pos := by
            rw [hitem] at hbehind
            simp only [Input.ahead, List.length_drop] at hbehind
            omega
          rw [if_neg (by rw [hcalm']; decide)]
          dsimp only
          rw [(reads_previous (Nat.zero_lt_of_lt hfurther) (Nat.le_of_lt hlt)).bind]
          refine .ok _ _ ⟨_, hitem, hfurther, hlt, hcalm', ?_, fun hs => ?_⟩
          · rw [herrors', herrors]
            exact (List.append_nil _).symm
          · cases hv hs
            have hstop : (Parse.between (i.ahead b) (i.tokens.drop d.pos)).getLast? =
                some i.tokens[d.pos - 1] :=
              (congrArg List.getLast? (between_ahead (Nat.le_of_lt hfurther) hlt)).trans
                (getLast?_tokens hfurther (Nat.le_of_lt hlt))
            rw [hvis hs, hstop, headD_ahead hc, List.headD_eq_head?_getD, hfirst]
            rfl

theorem reads_atModule [i.Closed] (hc : c.pos < i.tokens.length) :
    Reads (atModule i) c (kindOf (i.ahead c) 0 == .modKw &&
    kindOf (i.ahead c) 1 == .ident && kindOf (i.ahead c) 2 == .lbrace) := by
  obtain ⟨t, ht, hread⟩ := reads_peekAt hc 1
  obtain ⟨u, hu, hread'⟩ := reads_peekAt hc 2
  unfold atModule
  rw [Reads, (reads_check hc _).bind]
  change (if (kindOf (i.ahead c) 0 == .modKw) = true then _ else _ : Step Bool) c = _
  cases kindOf (i.ahead c) 0 == .modKw with
  | false => rfl
  | true =>
      rw [if_pos rfl, hread.bind, ht, Bool.true_and]
      cases kindOf (i.ahead c) 1 == .ident with
      | false => rfl
      | true =>
          rw [if_pos rfl, hread'.bind, hu]
          rfl

theorem comes_passOver [i.Closed] {b : Cursor} {file : SourceFile}
    {attrs : List Attribute} {vis : Text}
    (hb : b.pos < i.tokens.length) (hk : kindOf (i.ahead b) 0 ≠ .eof)
    (hc : c.pos < i.tokens.length)
    (hcalm : c.panicking = false) (herrors : c.errors = b.errors)
    (hbody : body? i.source (i.ahead c) = none)
    (hitem : Parse.item i.source (i.ahead b) =
      itemBody i.source (i.ahead b) attrs vis (i.ahead c)) :
    Comes i (fun file' d => ∃ x, Takes i file b x file' d) (passOver i file c) := by
  have hbehind := (Parse.behind_item i.source (ended_ahead hb) hk).lt
  rw [itemBody, hbody] at hitem
  dsimp only at hitem
  rw [headD_ahead hc] at hitem
  have hfurther (x : Parse.Item) (k : Nat)
      (hx : Parse.item i.source (i.ahead b) = (x, i.tokens.drop k)) : b.pos < k := by
    rw [hx, ahead_length, List.length_drop] at hbehind
    omega
  unfold passOver
  rw [(reads_peek hc).bind, (reads_atModule hc).bind]
  split
  · next hmod =>
      rw [if_pos hmod] at hitem
      obtain ⟨h0, h1, -⟩ := Parse.ne_eof_of_module hmod
      rw [Parse.kindOf_drop_one] at h1
      have hlt := next_lt h0
      have h1 : kindOf (i.ahead { c with pos := c.pos + 1 }) 0 ≠ .eof := by
        rwa [kindOf_next rfl]
      have hlt' := next_lt h1
      obtain ⟨k, hrun, hle, hin, hus⟩ :=
        moves_skipItem (i := i) (c := { c with pos := c.pos + 1 + 1 }) 0 hlt'
      have hus : Parse.skipItem 0 ((i.ahead c).drop 2) = i.tokens.drop k := by
        rw [← hus, Input.ahead, List.drop_drop]
        rfl
      have hname : ((i.ahead c)[1]?).getD Token.none = i.tokens[c.pos + 1] := by
        rw [Input.ahead, List.getElem?_drop, List.getElem?_eq_getElem hlt]
        rfl
      rw [hus, hname] at hitem
      rw [take_bind hc h0, take_bind (c := { c with pos := c.pos + 1 }) hlt h1]
      rw [run_bind hrun]
      exact .ok _ _ ⟨_, hitem, hfurther _ k hitem, hin, hcalm,
        herrors.trans (List.append_nil _).symm, fun _ => rfl⟩
  next hmod =>
  rw [if_neg hmod] at hitem
  split
  · next hclosing =>
      rw [if_pos hclosing] at hitem
      have hkc : kindOf (i.ahead c) 0 ≠ .eof := by
        rw [ahead_eq_cons hc]
        rintro heof
        rw [show i.tokens[c.pos].kind = .eof from heof] at hclosing
        cases hclosing
      rw [behind_ahead hc hkc] at hitem
      have hnote : note .closing i.tokens[c.pos] c = some (.ok ((), { c with
          panicking := true, errors := c.errors ++ [⟨.closing, i.tokens[c.pos]⟩] })) := by
        change some (Except.ok ((), if c.panicking = true then c else _)) = _
        rw [if_neg (by rw [hcalm]; decide)]
      rw [run_bind hnote, take_bind (c := { c with
        panicking := true, errors := c.errors ++ [⟨.closing, i.tokens[c.pos]⟩] }) hc hkc]
      exact .ok _ _ ⟨_, hitem, hfurther _ _ hitem, next_lt hkc, rfl, by rw [herrors]; rfl,
        fun _ => rfl⟩
  · next hclosing =>
      rw [if_neg hclosing] at hitem
      obtain ⟨k, hrun, hle, hlt, hus⟩ := moves_skipItem (i := i) 0 hc
      rw [hus] at hitem
      rw [run_bind hrun]
      exact .ok _ _ ⟨_, hitem, hfurther _ k hitem, hlt, hcalm,
        herrors.trans (List.append_nil _).symm, fun _ => rfl⟩

theorem isNext_of_kindOf {k : TokenKind} (h : kindOf (i.ahead c) 0 = k) (hk : k ≠ .eof) :
    i.isNext c k = true := by
  rw [Input.isNext, h, bne_iff_ne.mpr hk, beq_self_eq_true]
  rfl

theorem reads_rule? [i.Closed] (hc : c.pos < i.tokens.length) :
    (body? i.source (i.ahead c) = none ∧ Reads (rule? i) c none) ∨
      ∃ rule body, body? i.source (i.ahead c) = some body ∧ Reads (rule? i) c (some rule) ∧
        Makes rule ∧ Tracks i i.Distinct rule
        (Parse.take >>= fun _ => some <$> body) c := by
  obtain ⟨t, ht, hread⟩ := reads_peekAt hc 1
  unfold rule? Reads
  rw [(reads_check hc _).bind]
  cases hs : i.isNext c .structKw with
  | true =>
      refine .inr ⟨structBody i, Parse.structBody i.source, ?_, rfl, makes_structBody,
        tracks_structBody (ne_eof_of_isNext hs)⟩
      rw [body?, (kindOf_of_isNext hs).1]
  | false =>
  rw [if_neg Bool.false_ne_true, (reads_check hc _).bind]
  cases he : i.isNext c .enumKw with
  | true =>
      refine .inr ⟨enumBody i, Parse.enumBody i.source, ?_, rfl, makes_enumBody,
        tracks_enumBody (ne_eof_of_isNext he)⟩
      rw [body?, (kindOf_of_isNext he).1]
  | false =>
  rw [if_neg Bool.false_ne_true, (reads_check hc _).bind]
  cases hu : i.isNext c .unionKw with
  | true =>
      rw [if_pos rfl, hread.bind, ht, body?, (kindOf_of_isNext hu).1]
      dsimp only
      cases kindOf (i.ahead c) 1 == .ident with
      | true =>
          exact .inr ⟨_, _, rfl, rfl, makes_unionBody,
            tracks_unionBody (ne_eof_of_isNext hu)⟩
      | false => exact .inl ⟨rfl, rfl⟩
  | false =>
      refine .inl ⟨?_, rfl⟩
      rw [body?]
      split
      · next h => rw [isNext_of_kindOf h (by decide)] at hs; cases hs
      · next h => rw [isNext_of_kindOf h (by decide)] at he; cases he
      · next h => rw [isNext_of_kindOf h (by decide)] at hu; cases hu
      · rfl

/-- A call of `item` comes to an end further ahead, with what the item is. -/
theorem comes_item [i.Closed] {file : SourceFile} (hc : c.pos < i.tokens.length)
    (hk : kindOf (i.ahead c) 0 ≠ .eof) (hcalm : c.panicking = false) :
    Comes i (fun file' d => ∃ x, Takes i file c x file' d) (item i file c) := by
  unfold item
  rw [reads_get.bind, (reads_peek hc).bind]
  refine (tracks_attributes hc).bind fun attrs c₁ hattrs => ?_
  obtain ⟨hle, hlt, hagree⟩ := hattrs
  have hitem := Parse.item.eq_1 i.source (i.ahead c)
  generalize Parse.attributes i.source (i.ahead c) = x at hagree hitem
  rw [reads_inPanic.bind]
  cases hagree with
  | panic _ hpan => rw [hcalm] at hpan; cases hpan
  | error e _ hpan herrors =>
      rw [if_pos hpan]
      exact comes_recover hc hk herrors hitem
  | ok w _ hcalm₁ herrors hattrs =>
  cases hattrs trivial
  rw [if_neg (by rw [hcalm₁]; decide), (reads_atEnd hlt).bind]
  dsimp only at hitem
  split
  · next hend =>
      rw [if_pos hend] at hitem
      refine .ok _ _ ⟨.nothing, hitem, ?_, hlt, hcalm₁,
        herrors.trans (List.append_nil _).symm, fun _ => rfl⟩
      refine Nat.lt_of_le_of_ne hle fun heq => hk ?_
      rw [kindOf_ahead, heq, ← kindOf_ahead]
      exact of_decide_eq_true hend
  next hend =>
  rw [if_neg hend] at hitem
  refine (tracks_visibility hlt).bind fun vis c₂ hvis => ?_
  obtain ⟨hle₂, hlt₂, hagree₂⟩ := hvis
  obtain ⟨vis', us, hvis'⟩ := exists_visibility i.source (i.ahead c₁)
  rw [hvis'] at hagree₂ hitem
  cases hagree₂ with
  | panic _ hpan => rw [hcalm₁] at hpan; cases hpan
  | ok _ _ hcalm₂ herrors₂ hvis =>
  have herrors₂ := herrors₂.trans herrors
  rcases reads_rule? hlt₂ with ⟨hbody, hrule⟩ | ⟨rule, body, hbody, hrule, hmakes, htracks⟩
  · rw [hrule.bind]
    exact comes_passOver hc hk hlt₂ hcalm₂ herrors₂ hbody hitem
  · rw [hrule.bind]
    refine comes_keep hc hk ?_ hlt₂ hcalm₂ herrors₂ hvis htracks hmakes hbody hitem
    rw [ahead_eq_cons hc]
    rfl

/-! ## The run -/

/-- What the loop has done when it is at the end. -/
structure Ends (i : Input) (file : SourceFile) (c : Cursor) (file' : SourceFile)
    (c' : Cursor) : Prop where
  atEnd : kindOf (i.ahead c') 0 = .eof
  inside : c'.pos < i.tokens.length
  calm : c'.panicking = false
  errors : c'.errors = c.errors ++ (Parse.items i.source (i.ahead c)).flatMap itemErrors
  file : i.Distinct → file' = (Parse.items i.source (i.ahead c)).foldl addItem file

theorem comes_itemLoop [i.Closed] {file : SourceFile} (hc : c.pos < i.tokens.length)
    (hcalm : c.panicking = false) : Comes i (Ends i file c) (i.itemLoop file c) := by
  induction hn : i.tokens.length - c.pos using Nat.strongRecOn generalizing c file with
  | ind n ih =>
      rw [Input.itemLoop, (reads_atEnd hc).bind]
      by_cases hend : kindOf (i.ahead c) 0 = .eof
      · rw [if_pos (beq_iff_eq.mpr hend)]
        refine .ok _ _ ⟨hend, hc, hcalm, ?_, fun _ => ?_⟩ <;>
          rw [Parse.items_of_eof _ hend]
        · exact (List.append_nil _).symm
        · rfl
      · rw [if_neg (by simpa using hend)]
        refine (comes_item hc hend hcalm).bind fun file' d ⟨x, h⟩ => ?_
        refine (ih _ (by have := h.further; omega) h.inside h.calm rfl).mono
          fun file'' e h' => ?_
        have hitems : Parse.items i.source (i.ahead c) =
            x :: Parse.items i.source (i.ahead d) := by
          rw [Parse.items_step _ (ended_ahead hc) hend, h.item]
        refine ⟨h'.atEnd, h'.inside, h'.calm, ?_, fun hs => ?_⟩
        · rw [h'.errors, h.errors, hitems, List.flatMap_cons, List.append_assoc]
        · rw [h'.file hs, h.file hs, hitems]
          rfl

theorem foldl_addItem (items : List Parse.Item) (file : SourceFile) :
    items.foldl addItem file =
      ⟨file.decls ++ (Parse.collect items).file.decls,
        file.skipped + (Parse.collect items).file.skipped,
        file.modules ++ (Parse.collect items).file.modules⟩ := by
  induction items generalizing file with
  | nil => simp [Parse.collect]
  | cons x items ih =>
      rw [List.foldl_cons, ih]
      cases x <;> simp [Parse.collect, addItem, Nat.add_assoc, Nat.add_comm]

theorem foldl_noItems (items : List Parse.Item) :
    items.foldl addItem noItems = (Parse.collect items).file := by
  rw [foldl_addItem]
  simp [noItems]

theorem flatMap_itemErrors (items : List Parse.Item) :
    items.flatMap itemErrors = (Parse.collect items).errors := by
  change _ = items.filterMap _
  rw [List.filterMap_eq_flatMap_toList]
  refine congrArg (List.flatMap · items) (funext fun x => ?_)
  cases x <;> rfl

/-! ## Every call -/

/-- The calls of `item` that the loop makes in its run: the file it has by then, and
where the cursor is. -/
inductive Call (i : Input) : SourceFile → Cursor → Prop where
  | first (hend : atEnd i {} = some (.ok (false, {}))) : Call i noItems {}
  | next {file file' : SourceFile} {c c' : Cursor} (h : Call i file c)
      (hitem : item i file c = some (.ok (file', c')))
      (hend : atEnd i c' = some (.ok (false, c'))) : Call i file' c'

theorem ne_eof_of_atEnd [i.Closed] (hc : c.pos < i.tokens.length)
    (h : atEnd i c = some (.ok (false, c))) : kindOf (i.ahead c) 0 ≠ .eof := by
  rw [reads_atEnd hc] at h
  injection h with h
  injection h with h
  simpa using congrArg Prod.fst h

/-- At a call the cursor is at a token that does not mark the end, and not in a panic. -/
theorem Call.inside [hi : i.Closed] {file : SourceFile} (h : Call i file c) :
    c.pos < i.tokens.length ∧ c.panicking = false ∧ kindOf (i.ahead c) 0 ≠ .eof := by
  induction h with
  | first hend =>
      have hlt : 0 < i.tokens.length := List.length_pos_iff.mpr hi.ended.ne_nil
      exact ⟨hlt, rfl, ne_eof_of_atEnd hlt hend⟩
  | @next file file' _ c' _ hitem hend ih =>
      obtain ⟨hc, hcalm, hk⟩ := ih
      have hcomes : Comes i (fun file' d => ∃ x, Takes i file _ x file' d)
          (some (.ok (file', c'))) :=
        hitem ▸ comes_item hc hk hcalm
      cases hcomes with
      | ok _ _ h =>
          obtain ⟨x, h⟩ := h
          exact ⟨h.inside, h.calm, ne_eof_of_atEnd h.inside hend⟩

/-! ## The statement -/

/-- Whether the last token marks the end, and no other. -/
def OneEnd (ts : List Token) : Prop :=
  ∃ us t, ts = us ++ [t] ∧ t.kind = .eof ∧ ∀ u ∈ us, u.kind ≠ .eof

theorem OneEnd.ended {ts : List Token} (h : OneEnd ts) : Ended ts := by
  obtain ⟨us, t, rfl, ht, -⟩ := h
  exact ⟨t, List.getLast?_concat, ht⟩

theorem OneEnd.last (h : OneEnd i.tokens) (hc : c.pos < i.tokens.length)
    (hk : kindOf (i.ahead c) 0 = .eof) : c.pos = i.tokens.length - 1 := by
  obtain ⟨us, t, htokens, -, hus⟩ := h
  rw [ahead_eq_cons hc] at hk
  have hlen : i.tokens.length = us.length + 1 := by
    rw [htokens, List.length_append, List.length_singleton]
  rcases Nat.lt_or_ge c.pos us.length with hlt | hge
  · refine absurd hk (hus _ ?_)
    simp only [htokens, List.getElem_append_left hlt]
    exact List.getElem_mem hlt
  · omega

/-- How a run goes: it comes to the end with the cursor at the last token, and each call
of `item` leaves the cursor further ahead; what breaks either off can only be a slice of
a source that does not have the text of its tokens. In the end what was found is what
`parseTokens` finds. -/
structure Safe (i : Input) : Prop where
  run : Comes i (fun file c => c.pos = i.tokens.length - 1 ∧ c.panicking = false ∧
    c.errors = (parseTokens i.source i.tokens).errors ∧
    (i.Distinct → file = (parseTokens i.source i.tokens).file)) (run i)
  calls : ∀ file c, Call i file c →
    Comes i (fun _ c' => c.pos < c'.pos ∧ c'.pos < i.tokens.length) (item i file c)

theorem safe (h : OneEnd i.tokens) : Safe i where
  run := by
    have : i.Closed := ⟨h.ended⟩
    have hlt : 0 < i.tokens.length := List.length_pos_iff.mpr h.ended.ne_nil
    refine (comes_itemLoop (c := {}) hlt rfl).mono fun file c hends => ?_
    refine ⟨h.last hends.inside hends.atEnd, hends.calm, ?_, fun hs => ?_⟩
    · rw [hends.errors, flatMap_itemErrors]
      rfl
    · rw [hends.file hs, foldl_noItems]
      rfl
  calls file c hcall := by
    have : i.Closed := ⟨h.ended⟩
    obtain ⟨hc, hcalm, hk⟩ := hcall.inside
    exact (comes_item hc hk hcalm).mono fun _ _ ⟨_, h⟩ => ⟨h.further, h.inside⟩

theorem oneEnd_scan (s : Text) : OneEnd (scan s).tokens :=
  ⟨ownTokens s, endOf s, scan_tokens_own s, rfl, fun _ => kind_ne_eof⟩

theorem covers_scan (s : Text) : Input.Covers ⟨(scan s).tokens, s⟩ := by
  refine .inr fun m n t u hle ht hu => ?_
  refine ⟨?_, (take_offset (List.mem_of_getElem? hu)).2.1⟩
  rcases Nat.eq_or_lt_of_le hle with rfl | hlt
  · cases ht.symm.trans hu
    exact Nat.le_add_right _ _
  · obtain ⟨hm, rfl⟩ := List.getElem?_eq_some_iff.mp ht
    obtain ⟨hn, rfl⟩ := List.getElem?_eq_some_iff.mp hu
    have := (List.pairwise_iff_getElem.mp (scan_pairwise s) m n hm hn hlt).1
    exact Nat.le_trans (Nat.le_of_lt this) (Nat.le_add_right _ _)

theorem distinct_scan (s : Text) : Input.Distinct ⟨(scan s).tokens, s⟩ := by
  intro m n t u ht hu heq
  obtain ⟨hm, rfl⟩ := List.getElem?_eq_some_iff.mp ht
  obtain ⟨hn, rfl⟩ := List.getElem?_eq_some_iff.mp hu
  have hlt := List.pairwise_iff_getElem.mp (scan_pairwise s)
  rcases Nat.lt_trichotomy m n with h | h | h
  · exact absurd heq (Nat.ne_of_lt (hlt m n hm hn h).1)
  · exact h
  · exact absurd heq.symm (Nat.ne_of_lt (hlt n m hn hm h).1)

/-- On every list of tokens of which the last one marks the end and no other, the parser
comes to that token, and goes ahead with every item: no token is looked at where there is
none, and without a source nothing breaks the run off at all. Over the tokens of a text
every slice is a part of it, and what is found is what `parseTokens` finds. -/
theorem run_safe :
    (∀ i : Input, OneEnd i.tokens → Safe i ∧ (i.source = [] → i.Covers)) ∧
    ∀ s : Text, OneEnd (scan s).tokens ∧ Input.Covers ⟨(scan s).tokens, s⟩ ∧
      run ⟨(scan s).tokens, s⟩ = some (.ok ((parse s).file,
        ⟨(scan s).tokens.length - 1, false, (parseTokens s (scan s).tokens).errors⟩)) := by
  refine ⟨fun i h => ⟨safe h, .inl⟩, fun s => ⟨oneEnd_scan s, covers_scan s, ?_⟩⟩
  have hrun := (safe (i := ⟨(scan s).tokens, s⟩) (oneEnd_scan s)).run
  generalize run ⟨(scan s).tokens, s⟩ = x at hrun
  cases hrun with
  | slice _ _ h => exact absurd (covers_scan s) h
  | ok file c h =>
      obtain ⟨hpos, hcalm, herrors, hfile⟩ := h
      obtain ⟨pos, panicking, errors⟩ := c
      cases hpos
      cases hcalm
      cases herrors
      rw [hfile (distinct_scan s)]
      rfl

/-- The tokens of `struct S {`. -/
def unclosed : List Token :=
  [⟨.structKw, "struct", none, ⟨1, 1⟩, 0⟩, ⟨.ident, "S", none, ⟨1, 8⟩, 7⟩,
    ⟨.lbrace, "\x7b", none, ⟨1, 10⟩, 9⟩, ⟨.eof, [], none, ⟨1, 11⟩, 10⟩]

theorem run_safe_unclosed : OneEnd unclosed ∧
    ∃ file c, run ⟨unclosed, []⟩ = some (.ok (file, c)) ∧ c.pos = 3 ∧
      c.errors = [⟨.expected "'\x7d' after fields", ⟨.eof, [], none, ⟨1, 11⟩, 10⟩⟩] := by
  have hone : OneEnd unclosed := ⟨unclosed.dropLast, _, rfl, rfl, by decide⟩
  obtain ⟨hsafe, hcovers⟩ := run_safe.1 ⟨unclosed, []⟩ hone
  have hrun := hsafe.run
  generalize run ⟨unclosed, []⟩ = x at hrun
  cases hrun with
  | slice _ _ h => exact absurd (hcovers rfl) h
  | ok file c h =>
      refine ⟨hone, file, c, rfl, h.1, h.2.2.1.trans ?_⟩
      decide

end Deriver.Cursor
