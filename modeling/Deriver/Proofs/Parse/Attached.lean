import Deriver.Proofs.Parse.Leading

/-!
# What stands in the parentheses

Main statement: `arguments_of_item`. The parser finds the end of an attribute by
reading its arguments, and goes on behind it. If the brackets in the parentheses are
nested properly, nothing that is read later can take the parenthesis that closes them
alone: a group that is skipped either ends in front of it or begins with it. So if
the declaration behind is read as it stands, the attribute was read to its end.
-/

namespace Deriver.Parse

variable {source name : Text} {ts bs behindBs : List Token} {c : Token}

/-- Tokens that begin in a nested run in front of `c`, at `c`, or right behind it. -/
inductive Within (c : Token) (tail : List Token) : List Token → Prop where
  | inside {opened : List TokenKind} {us : List Token} :
      nest opened us = some [] → Within c tail (us ++ c :: tail)
  | behind : Within c tail tail

namespace Within

variable {tail us : List Token} {opened : List TokenKind}

theorem length_le (h : Within c tail ts) : tail.length ≤ ts.length := by
  cases h with
  | inside _ =>
      rw [List.length_append, List.length_cons]
      omega
  | behind => exact Nat.le_refl _

theorem skipGroup (hc : c.kind.isClosing = true) (h : nest opened us = some []) :
    Within c tail (Parse.skipGroup 0 (us ++ c :: tail)) := by
  have hopening : ∀ k : TokenKind, k.isClosing = true → k.isOpening = false := by
    intro k hk
    cases k <;> first | rfl | cases hk
  cases us with
  | nil =>
      have heof : ¬ (c.kind == .eof) = true := by
        intro h
        rw [of_decide_eq_true h] at hc
        cases hc
      rw [List.nil_append, Parse.skipGroup, if_neg heof, hopening _ hc, hc]
      exact .behind
  | cons u us =>
      have hu := h
      rw [nest, Option.bind_eq_some_iff] at hu
      obtain ⟨inner, hinner, hnest⟩ := hu
      rw [List.cons_append, Parse.skipGroup]
      split
      · exact .inside h
      · split
        · next hopen =>
            rw [nestStep_opening hopen, Option.some.injEq] at hinner
            subst hinner
            obtain ⟨vs, hsub, -, heq⟩ := skipGroup_of_nest [] hnest
            obtain ⟨inner, hvs⟩ := nest_of_suffix hnest hsub
            rw [if_neg (by decide)]
            exact heq (c :: tail) ▸ .inside hvs
        · rw [if_pos (by split <;> decide)]
          exact .inside hnest

end Within

theorem attributeLoop_nil {m : Nat} {us : List Token}
    (h : attributeLoop source (m + 1) ts = .ok ([], us)) :
    us = ts ∨ (kindOf ts 0 = .hash ∧ kindOf ts 1 = .bang ∧
      attributeLoop source m (skipGroup 0 (behind (behind ts))) = .ok ([], us)) := by
  change (if (TokenKind.hash != .eof && kindOf ts 0 == .hash) = true then _ else
    _ : Parser _) ts = _
    at h
  split at h
  · next hhash =>
      rw [Bool.and_eq_true] at hhash
      change (if (kindOf ts 1 == .bang) = true then _ else _ : Parser _) ts = _ at h
      split at h
      · next hbang => exact Or.inr ⟨of_decide_eq_true hhash.2, of_decide_eq_true hbang, h⟩
      · change (oneAttribute source ts).bind _ = _ at h
        cases hone : oneAttribute source ts with
        | error e =>
            rw [hone] at h
            cases h
        | ok q =>
            rw [hone] at h
            change (attributeLoop source m q.2).bind _ = _ at h
            cases hloop : attributeLoop source m q.2 with
            | error e =>
                rw [hloop] at h
                cases h
            | ok r =>
                rw [hloop] at h
                cases h
  · cases h
    exact Or.inl rfl

namespace Within

variable {tail us : List Token} {opened : List TokenKind}

theorem attributeLoop {m : Nat} (hc : c.kind.isClosing = true)
    (htail : kindOf tail 0 ≠ .hash)
    (hts : Within c tail ts) (h : Parse.attributeLoop source m ts = .ok ([], us)) :
    Within c tail us := by
  induction m generalizing ts with
  | zero =>
      cases h
      exact hts
  | succ m ih =>
      rcases attributeLoop_nil h with rfl | ⟨hhash, hbang, h⟩
      · exact hts
      · have hother {k k' : TokenKind} (hk : k'.isClosing = true) (heq : k' = k)
            (hno : k.isClosing = false) : False := by
          rw [heq, hno] at hk
          cases hk
        cases hts with
        | behind => exact absurd hhash htail
        | @inside opened vs hnest =>
            -- neither mark is the closing bracket, so the group begins within
            match vs, hnest, hhash, hbang, h with
            | [], _, hhash, _, _ => exact (hother hc hhash rfl).elim
            | [_], _, _, hbang, _ => exact (hother hc hbang rfl).elim
            | v :: w :: vs, hnest, hhash, hbang, h =>
                have hv : v.kind = .hash := hhash
                have hw : w.kind = .bang := hbang
                obtain ⟨inner, hvs⟩ := nest_of_suffix hnest
                  ((List.suffix_cons w vs).trans (List.suffix_cons v _))
                rw [List.cons_append, List.cons_append, behind_cons (by rw [hv]; decide),
                  behind_cons (by rw [hw]; decide)] at h
                exact ih (Within.skipGroup hc hvs) h

theorem visibility {vis : Text} (hc : c.kind.isClosing = true)
    (htail : kindOf tail 0 ≠ .pubKw)
    (hts : Within c tail ts) (h : Parse.visibility source ts = .ok (vis, us)) :
    Within c tail us := by
  have hrun (t : Token) (ts : List Token) : Parse.visibility source (t :: ts) =
      if TokenKind.pubKw ≠ .eof ∧ t.kind = .pubKw
      then (scope >>= fun _ => textSince source (t :: ts)) ts else .ok ([], t :: ts) :=
    accept_run .pubKw t _ _ _
  cases hts with
  | behind =>
      cases ts with
      | nil =>
          cases h
          exact .behind
      | cons t ts =>
          rw [hrun, if_neg fun hk => htail hk.2] at h
          cases h
          exact .behind
  | @inside opened vs hnest =>
      cases vs with
      | nil =>
          rw [List.nil_append, hrun, if_neg] at h
          · cases h
            exact .inside hnest
          · intro hk
            rw [hk.2] at hc
            cases hc
      | cons v vs =>
          rw [List.cons_append, hrun] at h
          split at h
          · obtain ⟨inner, hvs⟩ := nest_of_suffix hnest (List.suffix_cons v vs)
            change (scope (vs ++ c :: tail)).bind _ = _ at h
            rw [scope_run] at h
            cases h
            split
            · exact Within.skipGroup hc hvs
            · exact .inside hvs
          · cases h
            exact .inside hnest

end Within

variable {a : Attribute} {h o n p r : Token} {rest ds : List Token}

/-- If a declaration with one attribute is read of the tokens from `ds` on, what
stands in the parentheses in front is what the attribute holds. -/
theorem arguments_of_item {d : Decl} (hopens : Opens name h o n p) (hc : c.kind = .rparen)
    (hr : r.kind = .rbracket) (hnest : nest [] bs = some []) (hds : Ended ds)
    (hitem : item source (h :: o :: n :: p :: (bs ++ c :: r :: ds)) = (.decl d, rest))
    (hattrs : d.attrs = [a])
    (hpos : ∀ ws, ws <:+ h :: o :: n :: p :: (bs ++ c :: r :: ds) → ws ≠ [] →
      (ws.headD Token.none).pos = d.pos → ws = ds) :
    Arguments (kinds bs) := by
  obtain ⟨vs, ws, body, hattributes, hws, -, -, hd, -⟩ := exists_of_item_decl hitem
  have hended : Ended (h :: o :: n :: p :: (bs ++ c :: r :: ds)) := by
    obtain ⟨t, ht, hk⟩ := hds
    refine ⟨t, ?_, hk⟩
    rw [show h :: o :: n :: p :: (bs ++ c :: r :: ds) =
      h :: o :: n :: p :: (bs ++ [c, r]) ++ ds by
      simp, List.getLast?_append, ht]
    rfl
  obtain ⟨zs, m, hone, hloop⟩ := oneAttribute_of_attributes hopens (hattrs ▸ hattributes)
  obtain ⟨hzs, hzsEnded⟩ := Forward.of_ok hended hone
  obtain ⟨hvs, hvsEnded⟩ := Forward.of_ok hzsEnded hloop
  obtain ⟨hsub, hwsEnded⟩ := Forward.of_ok hvsEnded hws
  -- the keyword is the first token of `ds`, and the attributes end before
  obtain rfl := hpos ws (hsub.trans (hvs.trans hzs)) hwsEnded.ne_nil hd.symm
  obtain ⟨ys, rfl⟩ := hsub.trans hvs
  obtain ⟨us, c', r', hsplit, hr', hus⟩ := arguments_of_oneAttribute hopens hone
  have hsplit : us ++ [c', r'] ++ ys = bs ++ [c, r] := by
    refine (List.append_left_inj ws).mp ?_
    simpa using hsplit.symm
  rcases List.eq_nil_or_concat ys with rfl | ⟨ys, y, rfl⟩
  · rw [List.append_nil] at hsplit
    obtain ⟨rfl, -⟩ := List.append_inj' hsplit rfl
    exact hus
  rcases List.eq_nil_or_concat ys with rfl | ⟨ys, y', rfl⟩
  · -- the bracket that closes the attribute is no parenthesis
    have hsplit : us ++ [c'] ++ [r', y] = bs ++ [c, r] := by simpa using hsplit
    obtain ⟨-, hlast⟩ := List.append_inj' hsplit rfl
    cases hlast
    rw [hc] at hr'
    cases hr'
  · -- what is read behind begins within
    have hsplit : us ++ [c', r'] ++ ys ++ [y', y] = bs ++ [c, r] := by simpa using hsplit
    obtain ⟨hbs, hlast⟩ := List.append_inj' hsplit rfl
    cases hlast
    subst hbs
    obtain ⟨inner, hys⟩ := nest_of_suffix hnest (List.suffix_append (us ++ [c', r']) ys)
    have hwithin : Within c (r :: ws) (ys ++ c :: r :: ws) := .inside hys
    have hclosing : c.kind.isClosing = true := by
      rw [hc]
      rfl
    have hhash : kindOf (r :: ws) 0 ≠ .hash := by
      change r.kind ≠ .hash
      rw [hr]
      decide
    have hpub : kindOf (r :: ws) 0 ≠ .pubKw := by
      change r.kind ≠ .pubKw
      rw [hr]
      decide
    have hend := ((hwithin.attributeLoop hclosing hhash (by simpa using hloop)).visibility
      hclosing hpub hws).length_le
    exact absurd hend (Nat.not_succ_le_self _)

end Deriver.Parse

/-!
## An attribute in front of a declaration

Main statement: `accepted_iff`. An attribute with arguments in parentheses may stand
in front of every declaration, whatever the declaration is, if and only if what
stands in the parentheses has the shape of `Arguments`. Brackets that are nested
properly do not suffice: an angle bracket counts as a bracket too, and nothing may
follow a list, a path or a literal but a comma.
-/

namespace Deriver

open Parse

/-- What stands in front of the declaration. -/
def opening (name b : Text) : Text := "#[" ++ name ++ "(" ++ b ++ ")] "

/-- A declaration with an attribute in front. -/
def attached (name b d : Text) : Text := opening name b ++ d

/-- Whether a text is an identifier. -/
structure IsName (name : Text) : Prop where
  clean : (scan name).errors = []
  token : ∃ t, ownTokens name = [t] ∧ t.kind = .ident ∧ t.lexeme = name

/-- Whether a text is clean and its brackets are nested properly. -/
structure Balanced (b : Text) : Prop where
  clean : (scan b).errors = []
  nested : nest [] (ownTokens b) = some []
  /-- A line comment at the end would take the parenthesis behind. -/
  ends : ∀ p, (Scan.pieces b).getLast? = some p → ¬ [47, 47] <+: p.text

/-- Whether the attribute stands in front of `d` without changing what is read, but
for the attribute itself. -/
structure Accepted (name b d : Text) : Prop where
  errors : (parse (attached name b d)).errors = []
  items : ∃ a, a.path = name ∧ items (attached name b d) (scan (attached name b d)).tokens =
    attachFirst a ((items d (scan d).tokens).map (Item.behindText (opening name b)))

variable {name b d : Text}

/-! ## The tokens -/

theorem pieces_attached (hname : IsName name) (hb : Balanced b) (d : Text) :
    Scan.pieces (attached name b d) =
      Scan.mark 35 .hash :: Scan.mark 91 .lbracket :: (Scan.pieces name ++
        Scan.mark 40 .lparen :: (Scan.pieces b ++
          Scan.mark 41 .rparen :: Scan.mark 93 .rbracket :: ⟨[32], none, []⟩ ::
          Scan.pieces d)) := by
  have htext : attached name b d =
      35 :: 91 :: (name ++ 40 :: (b ++ 41 :: 93 :: 32 :: d)) := by
    simp only [attached, opening, List.append_assoc]
    rfl
  have hends : Scan.Ends (Scan.pieces name) (40 :: (b ++ 41 :: 93 :: 32 :: d)) := by
    obtain ⟨t, htoken, -, hlexeme⟩ := hname.token
    have hmem : t ∈ ownTokens name := by
      rw [htoken]
      exact List.mem_cons_self ..
    have hstop := stop_le_length hmem
    rw [Token.stop, hlexeme] at hstop
    have hstop : t.stop = name.length := by
      rw [Token.stop, hlexeme]
      omega
    rintro c hc
    cases hc
    exact ⟨by decide, fun _ _ _ _ => rfl, fun _ _ => Scan.not_comment_of_stop hmem hstop⟩
  have hends' : Scan.Ends (Scan.pieces b) (41 :: 93 :: 32 :: d) := by
    rintro c hc
    cases hc
    exact ⟨by decide, fun _ _ _ _ => rfl, fun _ => hb.ends⟩
  have hspace : Scan.pieces (32 :: d) = ⟨[32], none, []⟩ :: Scan.pieces d := by
    rw [Scan.pieces_cons]
    rfl
  rw [htext, Scan.pieces_mark rfl, Scan.pieces_mark rfl,
    Scan.pieces_append hname.clean hends,
    Scan.pieces_mark rfl, Scan.pieces_append hb.clean hends', Scan.pieces_mark rfl,
    Scan.pieces_mark rfl, hspace]

theorem scan_attached_errors (hname : IsName name) (hb : Balanced b) :
    (scan (attached name b d)).errors = [] ↔ (scan d).errors = [] := by
  have hn := hname.clean
  have hb' := hb.clean
  rw [scan_errors, Scan.errorsAt_eq_nil] at hn hb' ⊢
  rw [scan_errors, Scan.errorsAt_eq_nil, pieces_attached hname hb]
  simp only [List.forall_mem_cons, List.forall_mem_append, Scan.mark, true_and]
  exact ⟨fun h => h.2.2, fun h => ⟨hn, hb', h⟩⟩

theorem tokensAt_text (pre x : Text) (ps : List Scan.Piece) :
    Scan.tokensAt (Position.start.after pre) pre.length (Scan.pieces x ++ ps) =
      (ownTokens x).map (behindText pre) ++
        Scan.tokensAt (Position.start.after (pre ++ x)) (pre ++ x).length ps := by
  rw [Scan.tokensAt_append, Scan.bytes_pieces, tokensAt_own, Position.after_append,
    List.length_append]

/-- The token that a byte of punctuation behind `pre` is. -/
def markBehind (pre : Text) (c : UInt8) (k : TokenKind) : Token :=
  ⟨k, [c], none, Position.start.after pre, pre.length⟩

theorem tokensAt_mark (pre : Text) (c : UInt8) (k : TokenKind) (ps : List Scan.Piece) :
    Scan.tokensAt (Position.start.after pre) pre.length (Scan.mark c k :: ps) =
      markBehind pre c k ::
        Scan.tokensAt (Position.start.after (pre ++ [c])) (pre ++ [c]).length ps := by
  rw [Scan.tokensAt, Position.after_append, List.length_append]
  rfl

theorem tokensAt_space (pre : Text) (ps : List Scan.Piece) :
    Scan.tokensAt (Position.start.after pre) pre.length (⟨[32], none, []⟩ :: ps) =
      Scan.tokensAt (Position.start.after (pre ++ [32])) (pre ++ [32]).length ps := by
  rw [Scan.tokensAt, Position.after_append, List.length_append]
  rfl

/-- The end of a text behind `pre`. -/
theorem endOf_append (pre x : Text) : endOf (pre ++ x) = behindText pre (endOf x) := by
  rw [endOf, Position.after_append, List.length_append]
  exact Scan.endToken_shift _ _ x

theorem scan_attached (hname : IsName name) (hb : Balanced b) (d : Text) :
    ∃ h o n p c r pre, Opens name h o n p ∧ h.offset = 0 ∧ c.kind = .rparen ∧
      r.kind = .rbracket ∧ (scan (attached name b d)).tokens =
        h :: o :: n :: p :: ((ownTokens b).map (behindText pre) ++
          c :: r :: (scan d).tokens.map (behindText (opening name b))) := by
  obtain ⟨t, htoken, hkind, hlexeme⟩ := hname.token
  have hopening : [] ++ [35] ++ [91] ++ name ++ [40] ++ b ++ [41] ++ [93] ++ [32] =
      opening name b := by
    simp only [opening, List.append_assoc]
    rfl
  refine ⟨markBehind [] 35 .hash, markBehind [35] 91 .lbracket, behindText [35, 91] t,
    markBehind ([] ++ [35] ++ [91] ++ name) 40 .lparen,
    markBehind ([] ++ [35] ++ [91] ++ name ++ [40] ++ b) 41 .rparen,
    markBehind ([] ++ [35] ++ [91] ++ name ++ [40] ++ b ++ [41]) 93 .rbracket,
    [] ++ [35] ++ [91] ++ name ++ [40], ⟨rfl, rfl, hkind, hlexeme, rfl⟩, rfl, rfl, rfl, ?_⟩
  rw [scan_tokens_own, scan_tokens_own, ownTokens_eq, pieces_attached hname hb]
  change Scan.tokensAt (Position.start.after []) ([] : Text).length _ ++ _ = _
  rw [tokensAt_mark, tokensAt_mark, tokensAt_text, tokensAt_mark, tokensAt_text,
    tokensAt_mark, tokensAt_mark, tokensAt_space, hopening, tokensAt_own, htoken, attached,
    endOf_append, List.map_append]
  simp only [List.cons_append, List.append_assoc]
  rfl

/-! ## What is read -/

/-- The tokens of a whole text alone and behind `pre`. -/
def wholeOf (pre d : Text) (hd : d ≠ []) : Overlap where
  source := d
  source' := pre ++ d
  run := (scan d).tokens
  rest := []
  rest' := []
  shift := (Position.start.after pre).shift
  gap := pre.length
  ended := by
    rw [List.append_nil]
    exact ended_scan d
  ended' := by
    rw [List.append_nil, scan_tokens_own, List.map_append]
    exact ⟨_, List.getLast?_concat, rfl⟩
  last := fun t ht => by
    rw [scan_tokens_own, List.getLast?_concat] at ht
    cases ht
    rw [show (endOf d).kind = .eof from rfl]
    decide
  text := fun us h => by
    have htext := textOf_place pre [] hd (fun t ht => (take_offset (h t ht)).2.1)
      (Position.start.after pre).shift
    rwa [List.append_nil] at htext

theorem kinds_behindText (pre : Text) (ts : List Token) :
    kinds (ts.map (behindText pre)) = kinds ts := by
  rw [kinds, kinds, List.map_map]
  rfl

theorem error?_attachFirst (a : Attribute) (is : List Item) :
    (attachFirst a is).filterMap Item.error? = is.filterMap Item.error? := by
  cases is with
  | nil => rfl
  | cons i is => cases i <;> rfl

theorem ne_nil_of_ownTokens (h : ownTokens d ≠ []) : d ≠ [] := by
  rintro rfl
  exact h rfl

theorem accepted_of_arguments (hname : IsName name) (hderive : name ≠ "derive")
    (hb : Balanced b)
    (hargs : Arguments (kinds (ownTokens b))) (herrors : (parse d).errors = [])
    (hd : ownTokens d ≠ []) : Accepted name b d := by
  have hclean : (scan d).errors = [] :=
    List.map_eq_nil_iff.mp (List.append_eq_nil_iff.mp herrors).1
  have hclean' := (scan_attached_errors (d := d) hname hb).mpr hclean
  obtain ⟨h, o, n, p, c, r, pre, hopens, hoffset, hc, hr, htokens⟩ :=
    scan_attached hname hb d
  have hno (e : ParseError) : .error e ∉ items d (scan d).tokens := by
    intro he
    have := (parse_errors hclean).mpr he
    rw [herrors] at this
    cases this
  let W := wholeOf (opening name b) d (ne_nil_of_ownTokens hd)
  have hleft : W.left (scan d).tokens = (scan d).tokens := List.append_nil _
  have hright : W.right (scan d).tokens =
      (scan d).tokens.map (behindText (opening name b)) :=
    List.append_nil _
  have hin : W.Inside (scan d).tokens := ⟨List.suffix_refl _, (ended_scan d).ne_nil⟩
  have hargs' : Arguments (kinds ((ownTokens b).map (behindText pre))) := by
    rwa [kinds_behindText]
  obtain ⟨a, ha, hitems⟩ :=
    items_attached rfl rfl hin (kindOf_scan hd) (hleft.symm ▸ hno) hopens
    hoffset hderive hc hr hargs'
  have hitems : items (attached name b d) (scan (attached name b d)).tokens =
      attachFirst a ((items d (scan d).tokens).map (Item.behindText (opening name b))) := by
    rw [htokens, ← hright]
    refine hitems.trans ?_
    rw [hleft]
    rfl
  refine ⟨?_, a, ha, hitems⟩
  rw [errors_eq hclean', hitems, error?_attachFirst, error?_behindText,
    ← errors_eq hclean, herrors]
  rfl

theorem arguments_of_accepted (hname : IsName name) (hb : Balanced b)
    (haccepted : Accepted name b "struct S;") : Arguments (kinds (ownTokens b)) := by
  obtain ⟨d, hd, hattrs, hpos⟩ : ∃ d, items "struct S;" (scan "struct S;").tokens =
      [.decl d] ∧
      d.attrs = [] ∧ d.pos = ((scan "struct S;").tokens.headD Token.none).pos :=
        ⟨_, rfl, rfl, rfl⟩
  obtain ⟨a, -, hitems⟩ := haccepted.items
  obtain ⟨h, o, n, p, c, r, pre, hopens, -, hc, hr, htokens⟩ :=
    scan_attached hname hb "struct S;"
  have hkind : kindOf (scan (attached name b "struct S;")).tokens 0 ≠ .eof := by
    rw [htokens]
    exact fun heof => by cases hopens.hash.symm.trans heof
  rw [items_step _ (ended_scan _) hkind, hd] at hitems
  obtain ⟨hitem, -⟩ := List.cons.inj hitems
  have hds : (scan "struct S;").tokens.map (behindText (opening name b)) <:+
      (scan (attached name b "struct S;")).tokens := by
    rw [htokens]
    exact ⟨h :: o :: n :: p :: ((ownTokens b).map (behindText pre) ++ [c, r]), by simp⟩
  have hne : (scan "struct S;").tokens.map (behindText (opening name b)) ≠ [] := nofun
  have hargs := arguments_of_item (a := a) hopens hc hr
    ((nest_map (f := behindText pre) (fun _ => rfl) [] _).trans hb.nested)
    ((ended_scan _).of_suffix hds hne) (by rw [← htokens]; exact Prod.ext hitem rfl) ?_ ?_
  · rwa [kinds_behindText] at hargs
  · change a :: d.attrs.map _ = [a]
    rw [hattrs]
    rfl
  · intro ws hws hws' hpos'
    rw [← htokens] at hws
    refine eq_of_pos hws hds hws' hne (hpos'.trans ?_)
    change (Position.start.after (opening name b)).shift d.pos = _
    rw [hpos]
    rfl

/-- An attribute with a name other than `derive` may stand in front of every text
that holds something, if and only if its arguments have the right shape. -/
theorem accepted_iff (hname : IsName name) (hderive : name ≠ "derive") (hb : Balanced b) :
    (∀ d, (parse d).errors = [] → ownTokens d ≠ [] → Accepted name b d) ↔
      Arguments (kinds (ownTokens b)) := by
  constructor
  · intro h
    exact arguments_of_accepted hname hb
      (h "struct S;" (by decide +kernel) (by decide +kernel))
  · intro hargs d herrors hd
    exact accepted_of_arguments hname hderive hb hargs herrors hd

/-- A path may stand in front of everything, a comparison not even of a struct. -/
theorem accepted_path_not_comparison :
    (∀ d, (parse d).errors = [] → ownTokens d ≠ [] → Accepted "name" "a::b" d) ∧
      Balanced "a < b" ∧ ¬ Accepted "name" "a < b" "struct S;" := by
  have hname : IsName "name" := ⟨by decide +kernel, _, rfl, rfl, rfl⟩
  have hpath : Balanced "a::b" := by
    refine ⟨by decide +kernel, by decide +kernel, fun p hp => ?_⟩
    exact Scan.not_comment_of_stop (t := ⟨.ident, "b", none, ⟨1, 4⟩, 3⟩)
      (by decide +kernel) rfl hp
  have hless : Balanced "a < b" := by
    refine ⟨by decide +kernel, by decide +kernel, fun p hp => ?_⟩
    exact Scan.not_comment_of_stop (t := ⟨.ident, "b", none, ⟨1, 5⟩, 4⟩)
      (by decide +kernel) rfl hp
  refine ⟨(accepted_iff hname (by decide) hpath).mpr ?_, hless, fun h => ?_⟩
  · exact .last _ (.path _ (.segments _ (.cons .ident _ rfl (.one .ident rfl))))
  · exact absurd h.errors (by decide +kernel)

end Deriver
