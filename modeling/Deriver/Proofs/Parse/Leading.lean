import Deriver.Proofs.Parse.Arguments
import Deriver.Proofs.Parse.Isolation

/-!
# An attribute in front of an item

Main statements: `items_attached` and `arguments_of_oneAttribute`. An attribute
whose parentheses hold arguments of the right shape is read to its end, and the item
behind it is read as if it began there, but for the attribute it has more. The
parentheses of an attribute that is read hold nothing else.
-/

set_option synthInstance.maxSize 1000

namespace Deriver

open Parse

/-! ## The same text at another place -/

namespace Parse.Overlap

variable {W : Overlap} {ts : List Token}

theorem not_reaches_nil {α : Type} {x : Except ParseError (α × List Token)} :
    ¬ Reaches [] x := by
  cases x with
  | ok r => exact fun h => h.2 (List.suffix_nil.mp h.1)
  | error e =>
      rintro ⟨us, hsub, hne, -⟩
      exact hne (List.suffix_nil.mp hsub)

theorem not_escapes_nil {x : Item × List Token} : ¬ Escapes [] x := by
  obtain ⟨i, r⟩ := x
  cases i with
  | error e =>
      rintro ⟨us, hsub, hne, -⟩
      exact hne (List.suffix_nil.mp hsub)
  | nothing => exact fun h => h.2.1 (List.suffix_nil.mp h.1)
  | decl | inlineModule | skipped => exact fun h => h.ne (List.suffix_nil.mp h.sub)

theorem skipItem_map {f : Token → Token} (hf : ∀ t, (f t).kind = t.kind) (depth : Int)
    (ts : List Token) : skipItem depth (ts.map f) = (skipItem depth ts).map f := by
  induction ts generalizing depth with
  | nil => rfl
  | cons t ts ih =>
      rw [List.map_cons, skipItem, skipItem, hf, kindOf_map hf, ← List.map_drop]
      split
      · rfl
      · split
        · exact ih _
        · split
          · split
            · split <;> rfl
            · exact ih _
          · split
            · exact ih _
            · split
              · rfl
              · exact ih _

theorem items_map (hrest : W.rest = []) (hrest' : W.rest' = []) (hts : W.Inside ts) :
    items W.source' (W.right ts) =
    (items W.source (W.left ts)).map (Item.place W.shift W.gap) := by
  have hl (us : List Token) : W.left us = us := by rw [left, hrest, List.append_nil]
  have hr (us : List Token) : W.right us = us.map W.move := by
    rw [right, hrest', List.append_nil]
  have hskip (us : List Token) : skipItem 0 (W.right us) =
      W.right (skipItem 0 (W.left us)) := by
    rw [hl, hr, hr]
    exact skipItem_map (f := W.move) (fun _ => rfl) 0 us
  induction hn : ts.length using Nat.strong_induction_on generalizing ts with
  | _ n ih =>
      by_cases hk : kindOf ts 0 = .eof
      · rw [items_of_eof _ (by rwa [kindOf_right hts]),
          items_of_eof _ (by rwa [kindOf_left hts])]
        rfl
      · have hk' : kindOf (W.left ts) 0 ≠ .eof := by rwa [kindOf_left hts]
        have hbehind := behind_item W.source hts.ended hk'
        have hended := hbehind.ended hts.ended
        rw [items_step _ hts.ended hk', items_step _ hts.ended' (by rwa [kindOf_right hts])]
        have hnext (us : List Token) (hus : (item W.source (W.left ts)).2 = W.left us) :
            items W.source' (W.right us) =
              (items W.source (W.left us)).map (Item.place W.shift W.gap) := by
          rw [hus] at hbehind
          have hsub : us <:+ ts := by
            have := hbehind.sub
            rwa [hl, hl] at this
          have hne : us ≠ [] := by
            have := hbehind.ne
            rwa [hl] at this
          have hlt := hbehind.lt
          rw [hl, hl] at hlt
          exact ih _ (hn ▸ hlt) (hts.of_suffix hsub hne) rfl
        have hsame := sameItem hts
        generalize item W.source (W.left ts) = x at hsame hnext
        generalize item W.source' (W.right ts) = y at hsame
        have hskipped (i : Item) (us : List Token)
            (hx : x = (i, skipItem 0 (W.left us)))
            (hy : y = (i.place W.shift W.gap, skipItem 0 (W.right us))) :
            y.1 :: items W.source' y.2 =
              (x.1 :: items W.source x.2).map (Item.place W.shift W.gap) := by
          subst hx hy
          have := hnext (skipItem 0 (W.left us)) (hl _).symm
          rw [hskip, this, hl (skipItem 0 _)]
          rfl
        cases hsame with
        | decl d us => rw [hnext us rfl]; rfl
        | error problem t ht => exact hskipped (.error ⟨problem, t⟩) ts rfl rfl
        | closing t us => rw [hnext us rfl]; rfl
        | skip i us => exact hskipped i us rfl rfl
        | nothing us => rw [hnext us rfl]; rfl
        | scope us hsub hne hvis => exact absurd (hrest ▸ hvis) not_reaches_nil
        | out hx => exact absurd (hrest ▸ hx) not_escapes_nil

end Parse.Overlap

/-! ## An attribute more -/

namespace Parse

variable {source : Text} {ts us rest : List Token} {a : Attribute}

/-- The item with an attribute in front, which begins with the source. -/
def Item.attach (a : Attribute) : Item → Item
  | .decl d => .decl { d with attrs := a :: d.attrs, first := 0 }
  | i => i

theorem derivesOf_cons (ha : a.path ≠ "derive") (attrs : List Attribute) :
    derivesOf (a :: attrs) = derivesOf attrs := by
  have hname : ¬ (["derive"] : List Text).contains a.path = true := by simpa using ha
  have hnamed : Attribute.named (a :: attrs) ["derive"] =
      Attribute.named attrs ["derive"] :=
    List.filter_cons_of_neg hname
  rw [derivesOf, derivesOf, hnamed]

/-- What stands behind more of the front, the last token apart. -/
theorem getLast?_between (hsub : us <:+ ts) (hrest : rest <:+ us)
    (hlt : rest.length < us.length) :
    (between ts rest).getLast? = (between us rest).getLast? := by
  obtain ⟨vs, rfl⟩ := hsub
  obtain ⟨ws, rfl⟩ := hrest
  have hne : ws ≠ [] := by
    rintro rfl
    exact absurd hlt (Nat.lt_irrefl _)
  rw [← List.append_assoc, between_append, between_append, List.getLast?_append,
    List.getLast?_eq_some_getLast hne]
  rfl

theorem itemBody_attach {attrs : List Attribute} {vis : Text} (hus : us <:+ ts)
    (hoffset : (ts.headD Token.none).offset = 0) (ha : a.path ≠ "derive")
    (hok : ∀ e, (itemBody source us attrs vis rest).1 ≠ .error e)
    (hdecl : ∀ d r, itemBody source us attrs vis rest = (.decl d, r) →
      r <:+ us ∧ r.length < us.length) :
    itemBody source ts (a :: attrs) vis rest =
      ((itemBody source us attrs vis rest).1.attach a,
        (itemBody source us attrs vis rest).2) := by
  unfold itemBody at hok hdecl ⊢
  dsimp only at hok hdecl ⊢
  cases hbody : body? source rest with
  | none =>
      dsimp only
      rw [hbody] at hok
      dsimp only at hok
      split
      · rfl
      · next hmod =>
          rw [if_neg hmod] at hok
          split
          · next hclosing =>
              rw [if_pos hclosing] at hok
              exact absurd rfl (hok _)
          · rfl
  | some body =>
      rw [hbody] at hok hdecl
      dsimp only at hok hdecl ⊢
      cases hrun : body (behind rest) with
      | error e =>
          rw [hrun] at hok
          exact absurd rfl (hok e)
      | ok r =>
          obtain ⟨⟨name, generics, data⟩, r⟩ := r
          rw [hrun] at hdecl
          obtain ⟨hr, hlt⟩ := hdecl _ r rfl
          dsimp only
          rw [hoffset, derivesOf_cons ha, getLast?_between hus hr hlt]
          rfl

theorem item_attach {attrs : List Attribute} (hts : Ended ts) (hus : us <:+ ts)
    (hne : us ≠ []) (hoffset : (ts.headD Token.none).offset = 0) (ha : a.path ≠ "derive")
    (hattrs : attributes source ts = .ok (a :: attrs, rest))
    (hattrs' : attributes source us = .ok (attrs, rest))
    (hok : ∀ e, (item source us).1 ≠ .error e) :
    item source ts = ((item source us).1.attach a, (item source us).2) := by
  have hended := hts.of_suffix hus hne
  have hdecl := fun d r => @item_decl source us r hended d
  unfold item at hok hdecl ⊢
  rw [hattrs'] at hok hdecl ⊢
  rw [hattrs]
  dsimp only at hok hdecl ⊢
  split at hok
  · next heof =>
      simp only [if_pos heof]
      rfl
  · next heof =>
      simp only [if_neg heof] at hdecl ⊢
      cases hvis : visibility source rest with
      | error e =>
          rw [hvis] at hok
          exact absurd rfl (hok e)
      | ok r =>
          obtain ⟨vis, vs⟩ := r
          rw [hvis] at hok hdecl
          refine itemBody_attach hus hoffset ha hok fun d r hd => ?_
          obtain ⟨-, -, -, t, -, hsub⟩ := hdecl d r hd
          exact ⟨(List.suffix_cons t r).trans hsub, hsub.length_le⟩

/-- The tokens `#`, `[`, a name and `(`. -/
structure Opens (name : Text) (h o n p : Token) : Prop where
  hash : h.kind = .hash
  bracket : o.kind = .lbracket
  ident : n.kind = .ident
  lexeme : n.lexeme = name
  paren : p.kind = .lparen

variable {name : Text} {h o n p : Token}

theorem take_run {α : Type} (f : Token → Parser α) (t : Token) (ts : List Token) :
    (take >>= f) (t :: ts) = f t (behind (t :: ts)) := rfl

theorem oneAttribute_run (hopens : Opens name h o n p) (ts : List Token) :
    oneAttribute source (h :: o :: n :: ts) =
      match wholeMeta source (n :: ts) with
      | .error e => .error e
      | .ok (arg, r) =>
          match expect .rbracket "']' to close attribute" r with
          | .error e => .error e
          | .ok (_, r') => .ok (⟨arg, textOf source (between (n :: ts) r), h.pos⟩, r') := by
  have htake : behind (h :: o :: n :: ts) = o :: n :: ts :=
    behind_cons (by rw [hopens.hash]; decide)
  have hkeyword : (TokenKind.unsafeKw != .eof && n.kind == .unsafeKw) = false := by
    rw [hopens.ident]
    rfl
  unfold oneAttribute
  rw [take_run, htake, expect_run, if_pos ⟨by decide, hopens.bracket⟩]
  change (if ((TokenKind.unsafeKw != .eof && n.kind == .unsafeKw) &&
    kindOf (n :: ts) 1 == .lparen) = true then _ else _ : Parser Attribute) (n :: ts) = _
  rw [hkeyword, Bool.false_and, if_neg Bool.false_ne_true]
  change (wholeMeta source (n :: ts)).bind _ = _
  cases hmeta : wholeMeta source (n :: ts) with
  | error e => rfl
  | ok r =>
      change (expect .rbracket _ r.2).bind _ = _
      cases hexpect : expect .rbracket "']' to close attribute" r.2 with
      | error e =>
          simp only [hexpect]
          rfl
      | ok q =>
          simp only [hexpect]
          rfl

theorem pathAhead_of_ident (hopens : Opens name h o n p) (ts : List Token) :
    pathAhead (n :: p :: ts) = some (name, p :: ts) := by
  have hstart : startsMetaPath n.kind = true := by
    rw [hopens.ident]
    rfl
  have hpath : metaPath? (n :: p :: ts) = some (n.lexeme, p :: ts) := by
    have hk : kindOf (n :: p :: ts) 0 = .ident := hopens.ident
    have hp : kindOf (p :: ts) 0 = .lparen := hopens.paren
    rw [metaPath?, hk, if_neg (by decide), List.length_cons, metaSegments?]
    dsimp only
    rw [List.headD_cons, hopens.ident, if_neg (by decide),
      behind_cons (by rw [hopens.ident]; decide), hp]
    rfl
  rw [pathAhead, List.headD_cons, if_pos hstart, hpath, hopens.lexeme]

/-- An attribute with arguments in parentheses is read by reading the arguments. -/
theorem wholeMeta_run (source : Text) (hopens : Opens name h o n p) (ts : List Token) :
    ∃ fuel, ts.length < fuel ∧ wholeMeta source (n :: p :: ts) =
      match commaLoop .rparen (metaItem source fuel) (ts.length + 1) ts with
      | .error e => .error e
      | .ok (items, r) =>
          match expect .rparen "')' to close attribute arguments" r with
          | .error e => .error e
          | .ok (_, r) =>
              .ok (.list n.pos name items (textOf source (between (n :: p :: ts) r)),
                r) := by
  have hlit : isLiteral ((n :: p :: ts).headD Token.none).kind = false := by
    rw [List.headD_cons, hopens.ident]
    rfl
  refine ⟨8 * (ts.length + 2) + 7, by omega, ?_⟩
  change metaItem source (budget (n :: p :: ts)) (n :: p :: ts) = _
  rw [show budget (n :: p :: ts) = 8 * (ts.length + 2) + 7 + 1 from rfl,
    metaItem_of_pathAhead _ hlit (pathAhead_of_ident hopens ts)]
  dsimp only
  rw [show kindOf (p :: ts) 0 = .lparen from hopens.paren, if_pos (beq_self_eq_true _),
    behind_cons (by rw [hopens.paren]; decide)]
  rfl

theorem oneAttribute_of_arguments (source : Text) (rest : List Token)
    (hopens : Opens name h o n p) {c r : Token}
    (hc : c.kind = .rparen) (hr : r.kind = .rbracket) (hus : Arguments (kinds us)) :
    ∃ a, a.path = name ∧
      oneAttribute source (h :: o :: n :: p :: (us ++ c :: r :: rest)) = .ok (a, rest) := by
  obtain ⟨fuel, hfuel, hrun⟩ := wholeMeta_run source hopens (us ++ c :: r :: rest)
  have hlen : us.length ≤ (us ++ c :: r :: rest).length := by
    rw [List.length_append]
    exact Nat.le_add_right _ _
  obtain ⟨ms, hms⟩ : ∃ ms, commaLoop .rparen (metaItem source fuel)
      ((us ++ c :: r :: rest).length + 1) (us ++ c :: r :: rest) =
        .ok (ms, c :: r :: rest) :=
    commaLoop_of_arguments hus rfl hc (Nat.lt_of_le_of_lt hlen hfuel)
      (Nat.lt_succ_of_le hlen)
  rw [hms] at hrun
  dsimp only at hrun
  rw [expect_cons (by decide) hc] at hrun
  rw [oneAttribute_run hopens, hrun]
  dsimp only
  rw [expect_cons (by decide) hr]
  exact ⟨_, rfl, rfl⟩

/-- The parentheses of an attribute that was read hold arguments of the right shape. -/
theorem arguments_of_oneAttribute (hopens : Opens name h o n p)
    (ha : oneAttribute source (h :: o :: n :: p :: ts) = .ok (a, rest)) :
    ∃ us c r, ts = us ++ c :: r :: rest ∧ r.kind = .rbracket ∧ Arguments (kinds us) := by
  obtain ⟨fuel, -, hrun⟩ := wholeMeta_run source hopens ts
  rw [oneAttribute_run hopens, hrun] at ha
  cases hloop : commaLoop .rparen (metaItem source fuel) (ts.length + 1) ts with
  | error e =>
      rw [hloop] at ha
      cases ha
  | ok q =>
      obtain ⟨ms, q⟩ := q
      rw [hloop] at ha
      dsimp only at ha
      cases hparen : expect .rparen "')' to close attribute arguments" q with
      | error e =>
          rw [hparen] at ha
          cases ha
      | ok q' =>
          obtain ⟨c', q'⟩ := q'
          rw [hparen] at ha
          dsimp only at ha
          obtain ⟨c, hc, rfl⟩ := cons_of_expect hparen
          obtain ⟨us, rfl, hus⟩ := arguments_of_commaLoop
            (fun _ _ _ => argument_of_metaItem) hloop hc
          cases hbracket : expect .rbracket "']' to close attribute" q' with
          | error e =>
              rw [hbracket] at ha
              cases ha
          | ok q =>
              obtain ⟨r', q⟩ := q
              rw [hbracket] at ha
              cases ha
              obtain ⟨r, hr, rfl⟩ := cons_of_expect hbracket
              exact ⟨us, c, r, rfl, hr, hus⟩

theorem attributeLoop_run (hopens : Opens name h o n p) (m : Nat) (ts : List Token) :
    attributeLoop source (m + 1) (h :: o :: n :: ts) =
      match oneAttribute source (h :: o :: n :: ts) with
      | .error e => .error e
      | .ok (a, us) =>
          match attributeLoop source m us with
          | .error e => .error e
          | .ok (as, us) => .ok (a :: as, us) := by
  rw [attributeLoop]
  change (if (TokenKind.hash != .eof && h.kind == .hash) = true then _ else _ : Parser _)
    (h :: o :: n :: ts) = _
  rw [hopens.hash, if_pos (by decide)]
  change (if (o.kind == .bang) = true then _ else _ : Parser _) (h :: o :: n :: ts) = _
  rw [hopens.bracket, if_neg (by decide)]
  change (oneAttribute source (h :: o :: n :: ts)).bind _ = _
  cases oneAttribute source (h :: o :: n :: ts) with
  | error e => rfl
  | ok q =>
      obtain ⟨a, us⟩ := q
      dsimp only
      change (attributeLoop source m us).bind _ = _
      cases attributeLoop source m us <;> rfl

theorem oneAttribute_of_attributes (hopens : Opens name h o n p)
    (hattrs : attributes source (h :: o :: n :: ts) = .ok ([a], us)) :
    ∃ vs m, oneAttribute source (h :: o :: n :: ts) = .ok (a, vs) ∧
      attributeLoop source m vs = .ok ([], us) := by
  change attributeLoop source (_ + 1) _ = _ at hattrs
  rw [attributeLoop_run hopens] at hattrs
  cases hone : oneAttribute source (h :: o :: n :: ts) with
  | error e =>
      rw [hone] at hattrs
      cases hattrs
  | ok q =>
      obtain ⟨a', vs⟩ := q
      rw [hone] at hattrs
      dsimp only at hattrs
      split at hattrs
      · cases hattrs
      · next hloop =>
          cases hattrs
          exact ⟨vs, _, rfl, hloop⟩

theorem attributes_of_item (hok : ∀ e, (item source ts).1 ≠ .error e) :
    ∃ attrs us, attributes source ts = .ok (attrs, us) := by
  unfold item at hok
  cases hattrs : attributes source ts with
  | error e =>
      rw [hattrs] at hok
      exact absurd rfl (hok e)
  | ok r => exact ⟨r.1, r.2, rfl⟩

/-- The attributes of a whole text at another place, with more budget. -/
theorem Overlap.attributeLoop_right {W : Overlap} (hrest : W.rest = []) (hts : W.Inside ts)
    (hok : ∃ attrs us, attributes W.source (W.left ts) = .ok (attrs, us)) :
    ∃ attrs us, ∀ m, ts.length ≤ m →
    attributeLoop W.source' m (W.right ts) = .ok (attrs, us) := by
  obtain ⟨attrs, us, hattrs⟩ := hok
  have hrun : attributeLoop W.source (W.left ts).length (W.left ts) = .ok (attrs, us) :=
    hattrs
  have hlen := Overlap.length_left (W := W) ts
  have hsame (m : Nat) (hm : ts.length ≤ m) :
      attributeLoop W.source' m (W.right ts) =
        .ok (attrs.map (Attribute.place W.shift), us.map W.move ++ W.rest') := by
    have h := Overlap.at_attributeLoop hts hlen hm
    unfold Overlap.At at h
    rw [hrun] at h
    generalize attributeLoop W.source' m (W.right ts) = y at h
    generalize hx : (Except.ok (attrs, us) : Except ParseError _) = x at h
    cases h with
    | ok v vs hsub hne =>
        cases hx
        rw [Overlap.left, hrest, List.append_nil]
        rfl
    | error problem t ht => cases hx
    | out hx' hy => exact absurd (hrest ▸ hx') Overlap.not_reaches_nil
  exact ⟨_, _, hsame⟩

/-- The items when the first of them has an attribute more. -/
def attachFirst (a : Attribute) : List Item → List Item
  | [] => []
  | i :: is => i.attach a :: is

/-- The items of a whole text at another place, with an attribute in front. -/
theorem items_attached {W : Overlap} (hrest : W.rest = []) (hrest' : W.rest' = [])
    (hts : W.Inside ts) (hk : kindOf ts 0 ≠ .eof)
    (hok : ∀ e, .error e ∉ items W.source (W.left ts))
    (hopens : Opens name h o n p) (hoffset : h.offset = 0)
    (hname : name ≠ "derive") {c r : Token}
    (hc : c.kind = .rparen) (hr : r.kind = .rbracket) (hus : Arguments (kinds us)) :
    ∃ a, a.path = name ∧
    items W.source' (h :: o :: n :: p :: (us ++ c :: r :: W.right ts)) =
      attachFirst a ((items W.source (W.left ts)).map (Item.place W.shift W.gap)) := by
  obtain ⟨a, ha, hattr⟩ := oneAttribute_of_arguments W.source' (W.right ts) hopens hc hr hus
  generalize hall : h :: o :: n :: p :: (us ++ c :: r :: W.right ts) = all at hattr ⊢
  have hsub : W.right ts <:+ all := by
    rw [← hall]
    exact ⟨h :: o :: n :: p :: (us ++ [c, r]), by simp⟩
  have hleft : kindOf (W.left ts) 0 ≠ .eof := by rwa [Overlap.kindOf_left hts]
  have hright : kindOf (W.right ts) 0 ≠ .eof := by rwa [Overlap.kindOf_right hts]
  have hended : Ended all := by
    obtain ⟨vs, rfl⟩ := hsub
    exact ended_append vs hts.ended'
  have hitems := Overlap.items_map hrest hrest' hts
  rw [items_step _ hts.ended' hright] at hitems
  have hfirst (e : ParseError) : (item W.source (W.left ts)).1 ≠ .error e := by
    intro he
    refine hok e ?_
    rw [items_step _ hts.ended hleft, he]
    exact List.mem_cons_self ..
  have hfirst' (e : ParseError) : (item W.source' (W.right ts)).1 ≠ .error e := by
    intro he
    rw [items_step _ hts.ended hleft, List.map_cons, List.cons.injEq, he] at hitems
    cases hi : (item W.source (W.left ts)).1 with
    | error e' => exact hfirst e' hi
    | decl | inlineModule | skipped | nothing =>
        rw [hi] at hitems
        cases hitems.1
  obtain ⟨attrs, vs, hattrs⟩ :=
    Overlap.attributeLoop_right hrest hts (attributes_of_item hfirst)
  have hlen : (W.right ts).length = ts.length := by
    rw [Overlap.right, hrest', List.append_nil, List.length_map]
  have hattrs' : attributes W.source' (W.right ts) = .ok (attrs, vs) :=
    hattrs _ (Nat.le_of_eq hlen.symm)
  have hattrs'' : attributes W.source' all = .ok (a :: attrs, vs) := by
    change attributeLoop W.source' all.length all = _
    have hm : ts.length ≤ (o :: n :: p :: (us ++ c :: r :: W.right ts)).length := by
      simp only [List.length_cons, List.length_append, hlen]
      omega
    rw [← hall] at hattr ⊢
    rw [List.length_cons, attributeLoop_run hopens, hattr]
    dsimp only
    rw [hattrs _ hm]
  have hhead : (all.headD Token.none).offset = 0 := by
    rw [← hall]
    exact hoffset
  have hkall : kindOf all 0 ≠ .eof := by
    rw [← hall]
    exact fun heof => by cases hopens.hash.symm.trans heof
  have hitem :=
    item_attach hended hsub hts.ended'.ne_nil hhead (ha ▸ hname) hattrs'' hattrs' hfirst'
  refine ⟨a, ha, ?_⟩
  rw [items_step _ hended hkall, hitem, ← hitems]
  rfl

end Parse
end Deriver
