import Deriver.Proofs.Parse.TyOverlap

/-!
# Declarations in two places

Attributes, generics, where clauses, fields and variants: one lemma for each rule, going
through its definition.

An attribute may hold any tokens, and what is captured as it stands is found by
counting brackets, so an attribute can go past the run. The path in front of an
argument cannot: no token of a path closes an item.

A declaration ends with a semicolon or a brace, and its last rule takes that
token without a look at what stands behind. So a declaration that is the whole of
the run yields the same in front of anything, and what is left then is all that
stands behind the run.
-/

set_option synthInstance.maxSize 1000

namespace Deriver.Parse.Overlap

variable {W : Overlap} {ts us : List Token}

/-! ## Attributes -/

theorem not_limit_of_startsMetaPath {k : TokenKind} (h : startsMetaPath k = true) :
    k ∉ limits := by
  intro hk
  simp only [limits, closers, List.mem_cons, List.not_mem_nil, or_false] at hk
  rcases hk with rfl | rfl | rfl | rfl <;> revert h <;> decide

theorem not_limit_of_isLiteral {k : TokenKind} (h : isLiteral k = true) : k ∉ limits := by
  intro hk
  simp only [limits, closers, List.mem_cons, List.not_mem_nil, or_false] at hk
  rcases hk with rfl | rfl | rfl | rfl <;> revert h <;> decide

theorem ne_eof_of_not_limit {k : TokenKind} (h : k ∉ limits) : k ≠ .eof := by
  rintro rfl
  exact h (by decide)

theorem metaSegments?_agree {n n' : Nat} (hts : W.Inside ts) (hn : ts.length ≤ n)
    (hn' : ts.length ≤ n') :
    (metaSegments? n (W.left ts) = none ∧ metaSegments? n' (W.right ts) = none) ∨
    ∃ p us, us <:+ ts ∧ us.length < ts.length ∧ us ≠ [] ∧
      metaSegments? n (W.left ts) = some (p, W.left us) ∧
      metaSegments? n' (W.right ts) = some (p, W.right us) := by
  induction n generalizing n' ts with
  | zero => exact absurd (List.length_eq_zero_iff.mp (Nat.le_zero.mp hn)) hts.ne
  | succ n ih =>
      obtain ⟨n', rfl⟩ : ∃ m, n' = m + 1 :=
        Nat.exists_eq_add_one.mpr
          (Nat.lt_of_lt_of_le (List.length_pos_of_ne_nil hts.ne) hn')
      obtain ⟨t, us, rfl⟩ := hts.cons
      rw [List.length_cons] at hn hn'
      unfold metaSegments?
      have hhead : (W.left (t :: us)).headD Token.none = t := rfl
      have hhead' : (W.right (t :: us)).headD Token.none = W.move t := rfl
      simp only [hhead, hhead', show (W.move t).kind = t.kind from rfl]
      split
      · exact Or.inl ⟨rfl, rfl⟩
      · next hstart =>
          rw [Bool.or_eq_true, not_or] at hstart
          have hk : startsMetaPath t.kind = true := by simpa using hstart.1
          have hclose := not_limit_of_startsMetaPath hk
          have hus := hts.tail hclose
          rw [behind_left (ne_eof_of_not_limit hclose),
            behind_right (ne_eof_of_not_limit hclose), kindOf_left hus, kindOf_right hus]
          have hahead : (kindOf us 0 == .doubleColon &&
              startsMetaPath (kindOf (W.left us) 1) &&
                kindOf (W.left us) 1 != .doubleColon)
              = (kindOf us 0 == .doubleColon && startsMetaPath (kindOf (W.right us) 1) &&
                kindOf (W.right us) 1 != .doubleColon) := by
            rw [Bool.and_assoc, Bool.and_assoc]
            refine ahead_eq (fun hb => ?_) (kindOf_one hus)
              (fun k => startsMetaPath k && k != .doubleColon)
            rw [of_decide_eq_true hb]
            decide
          rw [← hahead]
          split
          · next hcolon =>
              rw [Bool.and_eq_true, Bool.and_eq_true] at hcolon
              have hcolon : kindOf us 0 = .doubleColon := of_decide_eq_true hcolon.1.1
              obtain ⟨u, vs, rfl⟩ := hus.cons
              have hu : u.kind = .doubleColon := hcolon
              have hclose : u.kind ∉ limits := by rw [hu]; decide
              rw [behind_left (ne_eof_of_not_limit hclose),
                behind_right (ne_eof_of_not_limit hclose)]
              rw [List.length_cons] at hn hn'
              rcases ih (hus.tail hclose) (by omega) (by omega : vs.length ≤ n') with
                ⟨hl, hr⟩ | ⟨p, ws, hws, hlen, hne, hl, hr⟩
              · rw [hl, hr]
                exact Or.inl ⟨rfl, rfl⟩
              · rw [hl, hr]
                refine Or.inr ⟨_, ws, ?_, ?_, hne, rfl, rfl⟩
                · exact hws.trans ((List.suffix_cons u vs).trans (List.suffix_cons t _))
                · simp only [List.length_cons]
                  omega
          · exact Or.inr ⟨t.lexeme, us, List.suffix_cons t us, Nat.lt_succ_self _,
              hus.ne, rfl, rfl⟩

theorem metaPath?_agree (hts : W.Inside ts) :
    (metaPath? (W.left ts) = none ∧ metaPath? (W.right ts) = none) ∨
    ∃ p us, us <:+ ts ∧ us.length < ts.length ∧ us ≠ [] ∧
      metaPath? (W.left ts) = some (p, W.left us) ∧
      metaPath? (W.right ts) = some (p, W.right us) := by
  have hl := length_left (W := W) ts
  have hr := length_right (W := W) ts
  unfold metaPath?
  rw [kindOf_left hts, kindOf_right hts]
  split
  · next hcolon =>
      obtain ⟨t, us, rfl⟩ := hts.cons
      have hk : t.kind = .doubleColon := of_decide_eq_true hcolon
      have hclose : t.kind ∉ limits := by rw [hk]; decide
      have hne := ne_eof_of_not_limit hclose
      rw [List.length_cons] at hl hr
      rw [behind_left hne, behind_right hne]
      rcases metaSegments?_agree (hts.tail hclose) (Nat.le_of_succ_le hl)
        (Nat.le_of_succ_le hr) with
        ⟨hl, hr⟩ | ⟨p, vs, hvs, hlen, hne, hl, hr⟩
      · rw [hl, hr]
        exact Or.inl ⟨rfl, rfl⟩
      · rw [hl, hr]
        refine Or.inr ⟨_, vs, hvs.trans (List.suffix_cons t us), ?_, hne, rfl, rfl⟩
        exact Nat.lt_succ_of_lt hlen
  · exact metaSegments?_agree hts hl hr

theorem At.set {α β : Type} {φ : α → β} {f : PUnit → Parser α} {g : PUnit → Parser β}
    (hsub : us <:+ ts) (h : W.At us φ (f ⟨⟩) (g ⟨⟩)) :
    W.At ts φ (MonadState.set (W.left us) >>= f) (MonadState.set (W.right us) >>= g) :=
  Agree.mono h hsub

theorem at_metaOther (hts : W.Inside ts) (pos : Position) :
    W.At ts (Meta.place W.shift) (metaOther W.source pos)
    (metaOther W.source' (W.shift pos)) := by
  unfold metaOther
  exact At.bind hts (At.capture hts true _) fun _ _ _ hin => At.pure hin rfl

/-- The arguments behind a path, from the first one on. -/
theorem at_metaList {item item' : Parser Meta} [Forward item] [Forward item']
    (hts : W.Inside ts) (hsub : us <:+ ts) (hus : W.Inside us)
    (hitem : ∀ vs, vs <:+ us → W.Inside vs → W.At vs (Meta.place W.shift) item item')
    (pos : Position) (p : Text) :
    W.At us (Meta.place W.shift)
      (do
        let items ← commaList .rparen item
        let _ ← expect .rparen "')' to close attribute arguments"
        return .list pos p items (← textSince W.source (W.left ts)))
      (do
        let items ← commaList .rparen item'
        let _ ← expect .rparen "')' to close attribute arguments"
        return .list (W.shift pos) p items (← textSince W.source' (W.right ts))) := by
  refine At.bind hus (At.commaList hus hitem) fun items xs hxs hin => ?_
  refine At.expect hin (by decide) ?_
  rintro v ys rfl - hin
  have hys := (List.suffix_cons v ys).trans (hxs.trans hsub)
  refine At.bind hin (At.textSince hts hys hin) fun raw zs _ hin => At.pure hin ?_
  rw [Meta.place, placeMetas_eq]
  rfl

theorem at_metaValue (hts : W.Inside ts) (hsub : us <:+ ts) (hus : W.Inside us)
    (pos : Position) (p : Text) :
    W.At us (Meta.place W.shift)
      (do
        let value ← peek
        if isLiteral value.kind && endsMeta (← peekKind 1) then
          let _ ← take
          return .nameValue pos p (litOf value) (← textSince W.source (W.left ts))
        let _ ← capture W.source true [.comma]
        return .other pos p (← textSince W.source (W.left ts)))
      (do
        let value ← peek
        if isLiteral value.kind && endsMeta (← peekKind 1) then
          let _ ← take
          return .nameValue (W.shift pos) p (litOf value)
            (← textSince W.source' (W.right ts))
        let _ ← capture W.source' true [.comma]
        return .other (W.shift pos) p (← textSince W.source' (W.right ts))) := by
  refine At.peek hus ?_
  rintro v xs rfl
  refine At.peekNext hus fun next next' hnext => ?_
  have hahead : (isLiteral v.kind && endsMeta next) =
      (isLiteral v.kind && endsMeta next') :=
    ahead_eq not_limit_of_isLiteral hnext endsMeta
  rw [show (W.move v).kind = v.kind from rfl, show litOf (W.move v) = litOf v
    from rfl, hahead]
  refine At.ite (fun hb => ?_) fun _ => ?_
  · rw [Bool.and_eq_true] at hb
    refine At.take hus (ne_eof_of_not_limit (not_limit_of_isLiteral hb.1)) ?_
    rintro v' xs' heq hin
    cases heq
    have hxs := (List.suffix_cons v xs).trans hsub
    exact At.bind hin (At.textSince hts hxs hin) fun _ _ _ hin => At.pure hin rfl
  · refine At.bind hus (At.capture hus true _) fun _ ys hys hin => ?_
    exact At.bind hin (At.textSince hts (hys.trans hsub) hin) fun _ _ _ hin =>
      At.pure hin rfl

theorem at_metaItem {f f' : Nat} (hts : W.Inside ts) (hf : ts.length ≤ f)
    (hf' : ts.length ≤ f') :
    W.At ts (Meta.place W.shift) (metaItem W.source f) (metaItem W.source' f') := by
  induction f generalizing f' ts with
  | zero => exact absurd (List.length_eq_zero_iff.mp (Nat.le_zero.mp hf)) hts.ne
  | succ f ih =>
      obtain ⟨f', rfl⟩ : ∃ m, f' = m + 1 :=
        Nat.exists_eq_add_one.mpr
          (Nat.lt_of_lt_of_le (List.length_pos_of_ne_nil hts.ne) hf')
      unfold metaItem
      dsimp only
      refine At.peek hts ?_
      rintro t us rfl
      rw [show (W.move t).kind = t.kind from rfl, show (W.move t).pos =
        W.shift t.pos from rfl, show litOf (W.move t) = litOf t from rfl]
      refine At.ite (fun hlit => ?_) fun _ => At.get ?_
      · exact At.take hts (ne_eof_of_not_limit (not_limit_of_isLiteral hlit))
          fun _ _ _ hin => At.pure hin rfl
      · have hchoice : ((if startsMetaPath t.kind then metaPath? (W.left (t :: us)) else
            none) = none ∧
              (if startsMetaPath t.kind then metaPath? (W.right (t :: us)) else none) =
                none) ∨
            ∃ p vs, vs <:+ t :: us ∧ vs.length < (t :: us).length ∧ vs ≠ [] ∧
              (if startsMetaPath t.kind then metaPath? (W.left (t :: us)) else none)
                = some (p, W.left vs) ∧
              (if startsMetaPath t.kind then metaPath? (W.right (t :: us)) else none)
                = some (p, W.right vs) := by
          split
          · exact metaPath?_agree hts
          · exact Or.inl ⟨rfl, rfl⟩
        rcases hchoice with ⟨hl, hr⟩ | ⟨p, vs, hvs, hlen, hne, hl, hr⟩
        · rw [hl, hr]
          exact at_metaOther hts t.pos
        have hin := hts.of_suffix hvs hne
        rw [hl, hr]
        dsimp only
        rw [kindOf_left hin, kindOf_right hin]
        -- the token behind the path decides, and neither mark is the end
        refine At.ite (fun hk => ?_) fun _ => At.ite (fun hk => ?_) fun _ =>
          At.ite (fun hk => ?_) ?_
        · obtain ⟨u, ws, rfl⟩ := hin.cons
          have hu : u.kind = .lparen := of_decide_eq_true hk
          have hclose : u.kind ∉ limits := by rw [hu]; decide
          have hsub := (List.suffix_cons u ws).trans hvs
          rw [behind_left (ne_eof_of_not_limit hclose),
            behind_right (ne_eof_of_not_limit hclose)]
          simp only [List.length_cons] at hlen hf hf'
          refine At.set hsub
            (at_metaList hts hsub (hin.tail hclose) (fun xs hxs hin => ?_) t.pos p)
          have := hxs.length_le
          exact ih hin (by omega) (by omega)
        · obtain ⟨u, ws, rfl⟩ := hin.cons
          have hu : u.kind = .equals := of_decide_eq_true hk
          have hclose : u.kind ∉ limits := by rw [hu]; decide
          have hsub := (List.suffix_cons u ws).trans hvs
          rw [behind_left (ne_eof_of_not_limit hclose),
            behind_right (ne_eof_of_not_limit hclose)]
          exact At.set hsub (at_metaValue hts hsub (hin.tail hclose) t.pos p)
        · exact At.set hvs (At.pure hin rfl)
        · exact fun _ => at_metaOther hts t.pos

theorem at_wholeMeta (hts : W.Inside ts) :
    W.At ts (Meta.place W.shift) (wholeMeta W.source) (wholeMeta W.source') := by
  unfold wholeMeta
  have hl := length_left (W := W) ts
  have hr := length_right (W := W) ts
  refine At.get (at_metaItem hts ?_ ?_) <;> unfold budget <;> omega

theorem at_oneAttribute (hts : W.Inside ts) (hk : kindOf ts 0 ≠ .eof) :
    W.At ts (Attribute.place W.shift) (oneAttribute W.source) (oneAttribute W.source') := by
  unfold oneAttribute
  refine At.take hts hk ?_
  rintro t us rfl hin
  refine At.expect hin (by decide) ?_
  rintro u vs rfl - hin
  refine At.check hin fun b hb => At.peekNext hin fun next next' hnext => ?_
  have hkind (hb' : b = true) : kindOf vs 0 ∉ limits := by rw [hb hb']; decide
  rw [ahead_eq hkind hnext (· == .lparen)]
  refine At.ite (fun h => ?_) fun _ => At.get ?_
  · rw [Bool.and_eq_true] at h
    have hparen : kindOf vs 1 = .lparen := by
      rw [← (hnext (hkind h.1)).2]
      exact of_decide_eq_true h.2
    refine At.takeTwo hin (hkind h.1) (by rw [hparen]; decide) fun _ _ ws _ hin => ?_
    refine At.bind hin (at_wholeMeta hin) fun arg xs _ hin => ?_
    refine At.expect hin (by decide) fun _ ys _ _ hin => ?_
    refine At.expect hin (by decide) fun _ zs _ _ hin => At.pure hin ?_
    rw [Meta.raw_place]
    rfl
  · refine At.bind hin (at_wholeMeta hin) fun arg ws hws hws' => ?_
    refine At.bind hws' (At.textSince hin hws hws') fun raw xs _ hin => ?_
    exact At.expect hin (by decide) fun _ _ _ _ hin => At.pure hin rfl

theorem at_attributeLoop {n n' : Nat} (hts : W.Inside ts) (hn : ts.length ≤ n)
    (hn' : ts.length ≤ n') :
    W.At ts (List.map (Attribute.place W.shift)) (attributeLoop W.source n)
      (attributeLoop W.source' n') := by
  induction n generalizing n' ts with
  | zero => exact absurd (List.length_eq_zero_iff.mp (Nat.le_zero.mp hn)) hts.ne
  | succ n ih =>
      obtain ⟨n', rfl⟩ : ∃ m, n' = m + 1 :=
        Nat.exists_eq_add_one.mpr
          (Nat.lt_of_lt_of_le (List.length_pos_of_ne_nil hts.ne) hn')
      unfold attributeLoop
      refine At.check hts fun b hb => At.ite (fun hb' => ?_) fun _ => At.pure hts rfl
      have hk := hb hb'
      refine At.peekNext hts fun next next' hnext => ?_
      obtain ⟨rfl, rfl⟩ := hnext (by rw [hk]; decide)
      refine At.ite (fun hbang => ?_) fun _ => ?_
      · have hbang : kindOf ts 1 = .bang := of_decide_eq_true hbang
        refine At.takeTwo hts (by rw [hk]; decide) (by rw [hbang]; decide) ?_
        rintro t u us rfl hin
        refine At.bind hin (At.skipGroup hin 0) fun _ vs hvs hin => ?_
        have hlen := hvs.length_le
        simp only [List.length_cons] at hn hn'
        exact ih hin (by omega) (by omega)
      · have hk : kindOf ts 0 ≠ .eof := by rw [hk]; decide
        refine At.bindOk hts (at_oneAttribute hts hk) fun a us _ hin hok => ?_
        have hlen : (W.left us).length < (W.left ts).length :=
          length_lt_of_take hts.ended (by rwa [kindOf_left hts]) hok
        simp only [left, List.length_append] at hlen
        exact At.bind hin (ih hin (by omega) (by omega)) fun _ _ _ hin => At.pure hin rfl

theorem at_attributes (hts : W.Inside ts) :
    W.At ts (List.map (Attribute.place W.shift)) (attributes W.source)
    (attributes W.source') := by
  unfold attributes
  exact At.get (at_attributeLoop hts (length_left ts) (length_right ts))

/-! ## Generics -/

theorem at_outlived (hts : W.Inside ts) : W.At ts id outlived outlived := by
  unfold outlived
  refine At.accept hts (by decide) (fun _ us _ _ hin => At.get ?_) fun _ => At.pure hts rfl
  exact at_lifetimes hin (by decide) (length_left us) (length_right us)

theorem at_bounded (hts : W.Inside ts) :
    W.At ts (List.map (Bound.place W.shift)) (bounded W.source) (bounded W.source') := by
  unfold bounded
  exact At.accept hts (by decide) (fun _ _ _ _ hin => at_bounds hin) fun _ =>
    At.pure hts rfl

theorem at_defaultTy (hts : W.Inside ts) :
    W.At ts id (defaultTy W.source) (defaultTy W.source') := by
  unfold defaultTy
  refine At.accept hts (by decide) (fun _ us _ _ hin => ?_) fun _ => At.pure hts rfl
  exact At.map hin (at_wholeTy hin) fun t => Ty.render_place W.shift t

theorem at_defaultConst (hts : W.Inside ts) :
    W.At ts id (defaultConst W.source) (defaultConst W.source') := by
  unfold defaultConst
  exact At.accept hts (by decide) (fun _ _ _ _ hin => At.capture hin false _)
    fun _ => At.pure hts rfl

theorem at_genericParam (hts : W.Inside ts) :
    W.At ts (GenericParam.place W.shift) (genericParam W.source)
    (genericParam W.source') := by
  unfold genericParam
  refine At.peek hts ?_
  rintro t us rfl
  have hne {k : TokenKind} (hk : t.kind = k) (hk' : k ≠ .eof) :
      kindOf (t :: us) 0 ≠ .eof := by
    rw [show kindOf (t :: us) 0 = t.kind from rfl, hk]
    exact hk'
  rw [show (W.move t).kind = t.kind from rfl, show (W.move t).lexeme = t.lexeme from rfl,
    show (W.move t).pos = W.shift t.pos from rfl]
  split
  case h_1 hk =>
    refine At.take hts (hne hk (by decide)) fun _ us _ hin => ?_
    refine At.bind hin (at_outlived hin) fun names vs _ hin => At.pure hin ?_
    simp [GenericParam.place, ParamKind.place, Function.comp_def, Bound.place]
  case h_2 hk =>
    refine At.take hts (hne hk (by decide)) fun _ us _ hin => ?_
    refine At.expect hin (by decide) fun name vs _ _ hin => ?_
    refine At.expect hin (by decide) fun _ ws _ _ hin => ?_
    refine At.bind hin (at_wholeTy hin) fun constTy xs _ hin => ?_
    exact At.bind hin (at_defaultConst hin) fun _ _ _ hin => At.pure hin rfl
  case h_3 hk =>
    refine At.take hts (hne hk (by decide)) fun _ us _ hin => ?_
    refine At.bind hin (at_bounded hin) fun bs vs _ hin => ?_
    exact At.bind hin (at_defaultTy hin) fun _ _ _ hin => At.pure hin rfl
  case h_4 => exact At.failHere hts _ (by rintro ⟨⟩)

theorem at_genericParams (hts : W.Inside ts) :
    W.At ts (List.map (GenericParam.place W.shift)) (genericParams W.source)
      (genericParams W.source') := by
  unfold genericParams
  refine At.accept hts (by decide) (fun _ us _ _ hin => ?_) fun _ => At.pure hts rfl
  have hparam (vs : List Token) (hin : W.Inside vs) :
      W.At vs (GenericParam.place W.shift)
        (attributes W.source >>= fun _ => genericParam W.source)
        (attributes W.source' >>= fun _ => genericParam W.source') :=
    At.bind hin (at_attributes hin) fun _ _ _ hin => at_genericParam hin
  refine At.bind hin (At.commaList hin fun vs _ => hparam vs) fun params vs _ hin => ?_
  exact At.expect hin (by decide) fun _ _ _ _ hin => At.pure hin rfl

theorem at_wherePredicate (hts : W.Inside ts) :
    W.At ts (WherePredicate.place W.shift) (wherePredicate W.source)
      (wherePredicate W.source') := by
  unfold wherePredicate
  refine At.bind hts (at_binder? hts) fun names us _ hin => ?_
  refine At.check hin fun b hb => At.ite (fun hb' => ?_) fun _ => ?_
  · refine At.take hin (by rw [hb hb']; decide) fun name vs _ hin => ?_
    refine At.expect hin (by decide) fun _ ws _ _ hin => At.get ?_
    refine At.bind hin (at_lifetimes hin (by decide) (length_left ws) (length_right ws)) ?_
    intro bs xs _ hin
    refine At.pure hin ?_
    simp [WherePredicate.place, Function.comp_def, Bound.place, move, Token.place]
  · refine At.bind hin (at_wholeTy hin) fun bounded vs _ hin => ?_
    refine At.expect hin (by decide) fun _ ws _ _ hin => ?_
    exact At.bind hin (at_bounds hin) fun _ _ _ hin => At.pure hin rfl

theorem at_whereLoop {n n' : Nat} (hts : W.Inside ts) (hn : ts.length < n)
    (hn' : ts.length < n') :
    W.At ts (List.map (WherePredicate.place W.shift)) (whereLoop W.source n)
      (whereLoop W.source' n') := by
  induction n generalizing n' ts with
  | zero => exact absurd hn (Nat.not_lt_zero _)
  | succ n ih =>
      obtain ⟨n', rfl⟩ : ∃ m, n' = m + 1 :=
        Nat.exists_eq_add_one.mpr (Nat.zero_lt_of_lt hn')
      unfold whereLoop
      refine At.check hts fun _ _ => At.check hts fun _ _ => At.atEnd hts fun _ => ?_
      refine At.ite (fun _ => At.pure hts rfl) fun _ => ?_
      refine At.bind hts (at_wherePredicate hts) fun p us hsub hin => ?_
      refine At.accept hin (by decide) ?_ fun _ => At.pure hin rfl
      rintro t vs rfl - hin
      have hlen := hsub.length_le
      rw [List.length_cons] at hlen
      exact At.bind hin (ih hin (by omega) (by omega)) fun _ _ _ hin => At.pure hin rfl

theorem at_whereClause (hts : W.Inside ts) :
    W.At ts (List.map (WherePredicate.place W.shift)) (whereClause W.source)
      (whereClause W.source') := by
  unfold whereClause
  refine At.accept hts (by decide) (fun _ us _ _ hin => At.get ?_) fun _ => At.pure hts rfl
  refine at_whereLoop hin ?_ ?_
  · exact Nat.lt_succ_of_le (length_left us)
  · exact Nat.lt_succ_of_le (length_right us)

/-! ## Fields and variants -/

theorem at_scope (hts : W.Inside ts) : W.At ts id scope scope := by
  unfold scope
  refine At.check hts fun b hb => At.peekNext hts fun next next' hnext => ?_
  have hkind (hb' : b = true) : kindOf ts 0 ∉ limits := by rw [hb hb']; decide
  rw [ahead_eq hkind hnext startsScope]
  exact At.ite (fun _ => At.skipGroup hts 0) fun _ => At.pure hts rfl

theorem at_visibility (hts : W.Inside ts) :
    W.At ts id (visibility W.source) (visibility W.source') := by
  unfold visibility
  refine At.get (At.accept hts (by decide) ?_ fun _ => At.pure hts rfl)
  rintro t us rfl - hin
  refine At.bind hin (at_scope hin) fun _ vs hvs hin => ?_
  exact At.textSince hts (hvs.trans (List.suffix_cons t us)) hin

theorem at_fieldName (hts : W.Inside ts) : W.At ts W.move fieldName fieldName := by
  unfold fieldName
  refine At.check hts fun b hb => At.check hts fun b' hb' => At.ite (fun h => ?_) ?_
  · refine At.takes hts ?_
    rcases Bool.or_eq_true_iff.mp h with h | h
    · rw [hb h]; decide
    · rw [hb' h]; decide
  · exact fun _ => At.failHere hts _ nofun

theorem number_place (f : Position → Position) (fields : List Field) :
    number (fields.map (Field.place f)) = (number fields).map (Field.place f) := by
  refine List.ext_getElem? fun i => ?_
  simp only [number, List.getElem?_mapIdx, List.getElem?_map, Option.map_map]
  rfl

theorem at_namedField (hts : W.Inside ts) :
    W.At ts (Field.place W.shift) (namedField W.source) (namedField W.source') := by
  unfold namedField
  refine At.bind hts (at_attributes hts) fun attrs us _ hin => ?_
  refine At.bind hin (at_visibility hin) fun vis vs _ hin => ?_
  refine At.bind hin (at_fieldName hin) fun name ws _ hin => ?_
  refine At.expect hin (by decide) fun _ xs _ _ hin => ?_
  exact At.bind hin (at_wholeTy hin) fun _ _ _ hin => At.pure hin rfl

theorem at_namedFields (hts : W.Inside ts) :
    W.At ts (Fields.place W.shift) (namedFields W.source) (namedFields W.source') := by
  unfold namedFields
  refine At.expect hts (by decide) fun _ us _ _ hin => ?_
  refine At.bind hin (At.commaList hin fun _ _ => at_namedField) fun fields vs _ hin => ?_
  refine At.expect hin (by decide) fun _ _ _ _ hin => At.pure hin ?_
  rw [number_place]
  rfl

theorem at_tupleField (hts : W.Inside ts) :
    W.At ts (Field.place W.shift) (tupleField W.source) (tupleField W.source') := by
  unfold tupleField
  refine At.bind hts (at_attributes hts) fun attrs us _ hin => ?_
  refine At.bind hin (at_visibility hin) fun vis vs _ hin =>
    At.peek hin fun start ws _ => ?_
  exact At.bind hin (at_wholeTy hin) fun _ _ _ hin => At.pure hin rfl

theorem at_tupleFields (hts : W.Inside ts) :
    W.At ts (Fields.place W.shift) (tupleFields W.source) (tupleFields W.source') := by
  unfold tupleFields
  refine At.expect hts (by decide) fun _ us _ _ hin => ?_
  refine At.bind hin (At.commaList hin fun _ _ => at_tupleField) fun fields vs _ hin => ?_
  refine At.expect hin (by decide) fun _ _ _ _ hin => At.pure hin ?_
  rw [number_place]
  rfl

theorem at_variantFields (hts : W.Inside ts) :
    W.At ts (Fields.place W.shift) (variantFields W.source) (variantFields W.source') := by
  unfold variantFields
  refine At.check hts fun _ _ => At.ite (fun _ => at_namedFields hts) fun _ => ?_
  refine At.check hts fun _ _ => At.ite (fun _ => at_tupleFields hts) fun _ => ?_
  exact At.pure hts rfl

theorem at_discriminant (hts : W.Inside ts) :
    W.At ts id (discriminant W.source) (discriminant W.source') := by
  unfold discriminant
  refine At.accept hts (by decide) (fun _ us _ _ hin => ?_) fun _ => At.pure hts rfl
  refine At.bind hin (At.capture hin false _) fun text vs _ hin => ?_
  exact At.ite (fun _ => At.failHere hin _ nofun) fun _ => At.pure hin rfl

theorem at_variant (hts : W.Inside ts) :
    W.At ts (Variant.place W.shift) (variant W.source) (variant W.source') := by
  unfold variant
  refine At.bind hts (at_attributes hts) fun attrs us _ hin => ?_
  refine At.bind hin (at_visibility hin) fun _ vs _ hin => ?_
  refine At.expect hin (by decide) fun name ws _ _ hin => ?_
  refine At.bind hin (at_variantFields hin) fun fields xs _ hin => ?_
  exact At.bind hin (at_discriminant hin) fun _ _ _ hin => At.pure hin rfl

end Deriver.Parse.Overlap

namespace Deriver.Parse

/-! ## Rules that end by taking a token -/

/-- Whether a result leaves what stands behind a semicolon or a brace of `ts`, or
is an error at one of its tokens. -/
def Passes {α : Type} (ts : List Token) : Except ParseError (α × List Token) → Prop
  | .ok (_, rest) => rest ≠ [] ∧ ∃ t, t.kind ∈ closers ∧ t :: rest <:+ ts
  | .error e => ∃ us, us <:+ ts ∧ us ≠ [] ∧ e.token = us.headD Token.none

/-- A parser that takes a semicolon or a brace last, or fails. -/
class Closing {α : Type} (p : Parser α) : Prop where
  passes : ∀ ts, Ended ts → Passes ts (p ts)

section Closing

variable {α β : Type} {p q : Parser α} {f : α → Parser β}

theorem Passes.trans {us ts : List Token} {x : Except ParseError (α × List Token)}
    (h : Passes us x) (hsub : us <:+ ts) : Passes ts x := by
  cases x with
  | ok r =>
      obtain ⟨hne, t, ht, hr⟩ := h
      exact ⟨hne, t, ht, hr.trans hsub⟩
  | error e =>
      obtain ⟨vs, hvs, hne, he⟩ := h
      exact ⟨vs, hvs.trans hsub, hne, he⟩

theorem Passes.map {ts : List Token} {x : Except ParseError (α × List Token)}
    (h : Passes ts x) (g : α → β) : Passes ts (x.bind fun r => .ok (g r.1, r.2)) := by
  cases x with
  | ok r => exact h
  | error e => exact h

instance {g : α → β} [Closing p] : Closing (p >>= fun v => pure (g v)) where
  passes ts hts := (Closing.passes ts hts).map g

instance [Forward p] [∀ v, Closing (f v)] : Closing (p >>= f) where
  passes ts hts := by
    have h := (inferInstance : Forward p).reaches ts hts
    change Passes ts ((p ts).bind fun r => f r.1 r.2)
    cases hp : p ts with
    | error e => rw [hp] at h; exact h
    | ok r =>
        rw [hp] at h
        have hr := hts.of_suffix h.1 h.2
        exact ((inferInstance : Closing (f r.1)).passes r.2 hr).trans h.1

instance {c : Prop} [Decidable c] [Closing p] [Closing q] :
    Closing (if c then p else q) := by
  split <;> infer_instance

instance (problem : Problem) : Closing (failHere problem : Parser α) where
  passes ts h := ⟨ts, List.suffix_refl ts, h.ne_nil, rfl⟩

theorem closing_accept {k : TokenKind} (hk : k ∈ closers) (v : α) [Closing q] :
    Closing (accept k >>= fun b => if b = true then pure v else q) where
  passes ts hts := by
    obtain ⟨t, us, rfl, -⟩ := hts.cases
    rw [accept_run]
    split
    · next h =>
        have hus := hts.tail (by rw [h.2]; exact h.1)
        exact ⟨hus.ne_nil, t, h.2 ▸ hk, List.suffix_refl _⟩
    · exact Closing.passes _ hts

theorem closing_expect {k : TokenKind} (hk : k ∈ closers) (what : Text) (v : α) :
    Closing (expect k what >>= fun _ => pure v) where
  passes ts hts := by
    obtain ⟨t, us, rfl, -⟩ := hts.cases
    rw [expect_run]
    split
    · next h =>
        have hus := hts.tail (by rw [h.2]; exact h.1)
        exact ⟨hus.ne_nil, t, h.2 ▸ hk, List.suffix_refl _⟩
    · exact ⟨_, List.suffix_refl _, List.cons_ne_nil _ _, rfl⟩

instance (v : α) [Closing q] :
    Closing (accept .semicolon >>= fun b => if b = true then pure v else q) :=
  closing_accept (by decide) v

instance (what : Text) (v : α) : Closing (expect .semicolon what >>= fun _ => pure v) :=
  closing_expect (by decide) what v

instance (what : Text) (v : α) : Closing (expect .rbrace what >>= fun _ => pure v) :=
  closing_expect (by decide) what v

end Closing

instance (source : Text) : Closing (namedFields source) := by
  unfold namedFields
  infer_instance

instance (source : Text) : Closing (structBody source) := by
  unfold structBody
  infer_instance

instance (source : Text) : Closing (enumBody source) := by
  unfold enumBody
  infer_instance

instance (source : Text) : Closing (unionBody source) := by
  unfold unionBody
  infer_instance

namespace Overlap

variable (W : Overlap)

/-- The results agree, also where the run is used up just then: a rule that ends by
taking a token does not look at what stands behind it. -/
inductive Finish {α β : Type} (φ : α → β) (ts : List Token) :
    Except ParseError (α × List Token) → Except ParseError (β × List Token) → Prop where
  | ok (v : α) (us : List Token) (hsub : us <:+ ts) :
      Finish φ ts (.ok (v, W.left us)) (.ok (φ v, W.right us))
  | error (problem : Problem) (t : Token) (h : t ∈ ts) (hdeep : problem ≠ .tooDeep) :
      Finish φ ts (.error ⟨problem, t⟩) (.error ⟨problem, W.move t⟩)
  | past {x : Except ParseError (α × List Token)} {y : Except ParseError (β × List Token)}
      (hx : Passes W.rest x) (hy : Passes W.rest' y) : Finish φ ts x y

/-- The parsers agree up to the end of the run when `ts` is left of it. -/
def EndsAt {α β : Type} (ts : List Token) (φ : α → β) (p : Parser α) (q : Parser β) :
    Prop :=
  W.Finish φ ts (p (W.left ts)) (q (W.right ts))

variable {W} {α β γ δ : Type} {φ : α → β} {ψ : γ → δ} {p : Parser α} {q : Parser β}
  {f : α → Parser γ} {g : β → Parser δ} {ts us : List Token}

theorem Finish.mono {x : Except ParseError (α × List Token)}
    {y : Except ParseError (β × List Token)} (h : W.Finish φ us x y) (hsub : us <:+ ts) :
    W.Finish φ ts x y := by
  cases h with
  | ok v vs hvs => exact .ok v vs (hvs.trans hsub)
  | error problem t ht hdeep => exact .error problem t (hsub.subset ht) hdeep
  | past hx hy => exact .past hx hy

theorem passes_then {x : Except ParseError (α × List Token)} {rest : List Token}
    [∀ v, Closing (f v)] (hrest : ∀ us, us <:+ rest → us ≠ [] → Ended us)
    (h : Reaches rest x) : Passes rest (x.bind fun r => f r.1 r.2) := by
  cases x with
  | error e => exact h
  | ok r =>
      exact ((inferInstance : Closing (f r.1)).passes r.2 (hrest r.2 h.1 h.2)).trans h.1

theorem EndsAt.bind [∀ v, Closing (f v)] [∀ w, Closing (g w)] (hts : W.Inside ts)
    (h : W.At ts φ p q)
    (hf : ∀ v us, us <:+ ts → W.Inside us → W.EndsAt us ψ (f v) (g (φ v))) :
    W.EndsAt ts ψ (p >>= f) (q >>= g) := by
  change W.Finish ψ ts ((p (W.left ts)).bind fun r => f r.1 r.2)
    ((q (W.right ts)).bind fun r => g r.1 r.2)
  unfold At at h
  generalize p (W.left ts) = x at h ⊢
  generalize q (W.right ts) = y at h ⊢
  cases h with
  | ok v us hsub hne => exact (hf v us hsub (hts.of_suffix hsub hne)).mono hsub
  | error problem t ht hdeep => exact .error problem t ht hdeep
  | out hx hy =>
      refine .past (passes_then ?_ hx) (passes_then ?_ hy)
      · exact fun _ => ended_of_rest
      · exact fun _ => ended_of_rest'

theorem EndsAt.map {χ : α → γ} {χ' : β → δ} (h : W.EndsAt ts φ p q)
    (hχ : ∀ v, χ' (φ v) = ψ (χ v)) :
    W.EndsAt ts ψ (p >>= fun v => Pure.pure (χ v)) (q >>= fun w => Pure.pure (χ' w)) := by
  change W.Finish ψ ts ((p (W.left ts)).bind fun r => .ok (χ r.1, r.2))
    ((q (W.right ts)).bind fun r => .ok (χ' r.1, r.2))
  unfold EndsAt at h
  generalize p (W.left ts) = x at h ⊢
  generalize q (W.right ts) = y at h ⊢
  cases h with
  | ok v us hsub =>
      change W.Finish ψ ts (.ok (χ v, W.left us)) (.ok (χ' (φ v), W.right us))
      rw [hχ]
      exact .ok (χ v) us hsub
  | error problem t ht hdeep => exact .error problem t ht hdeep
  | past hx hy =>
      exact .past (hx.map χ) (hy.map χ')

theorem EndsAt.ite {c : Prop} [Decidable c] {p' : Parser α} {q' : Parser β}
    (h : c → W.EndsAt ts φ p q) (h' : ¬ c → W.EndsAt ts φ p' q') :
    W.EndsAt ts φ (if c then p else p') (if c then q else q') := by
  split
  · next hc => exact h hc
  · next hc => exact h' hc

theorem EndsAt.failHere (hts : W.Inside ts) (problem : Problem)
    (hdeep : problem ≠ .tooDeep) :
    W.EndsAt ts φ (Parse.failHere problem) (Parse.failHere problem) := by
  obtain ⟨t, us, rfl⟩ := hts.cons
  exact .error problem t (List.mem_cons_self ..) hdeep

theorem EndsAt.check {f : Bool → Parser α} {g : Bool → Parser β} {k : TokenKind}
    (hts : W.Inside ts) (h : ∀ b, W.EndsAt ts φ (f b) (g b)) :
    W.EndsAt ts φ (Parse.check k >>= f) (Parse.check k >>= g) := by
  change W.Finish φ ts (f (k != .eof && kindOf (W.left ts) 0 == k) _)
    (g (k != .eof && kindOf (W.right ts) 0 == k) _)
  rw [kindOf_left hts, kindOf_right hts]
  exact h _

/-- The last token is taken; nothing is looked at behind it. -/
theorem EndsAt.accept {p' : Parser α} {q' : Parser β} {k : TokenKind} {v : α} {w : β}
    (hts : W.Inside ts) (h : w = φ v) (h' : W.EndsAt ts φ p' q') :
    W.EndsAt ts φ (Parse.accept k >>= fun b => if b = true then Pure.pure v else p')
      (Parse.accept k >>= fun b => if b = true then Pure.pure w else q') := by
  obtain ⟨t, us, rfl⟩ := hts.cons
  subst h
  change W.Finish φ _ ((_ : Parser α) (t :: W.left us))
    ((_ : Parser β) (W.move t :: W.right us))
  rw [accept_run, accept_run, show (W.move t).kind = t.kind from rfl]
  by_cases hk : k ≠ .eof ∧ t.kind = k
  · rw [if_pos hk, if_pos hk]
    exact .ok v us (List.suffix_cons t us)
  · rw [if_neg hk, if_neg hk]
    exact h'

theorem EndsAt.expect {k : TokenKind} {what : Text} {v : α} {w : β} (hts : W.Inside ts)
    (h : w = φ v) :
    W.EndsAt ts φ (Parse.expect k what >>= fun _ => Pure.pure v)
      (Parse.expect k what >>= fun _ => Pure.pure w) := by
  obtain ⟨t, us, rfl⟩ := hts.cons
  subst h
  change W.Finish φ _ ((_ : Parser α) (t :: W.left us))
    ((_ : Parser β) (W.move t :: W.right us))
  rw [expect_run, expect_run, show (W.move t).kind = t.kind from rfl]
  by_cases hk : k ≠ .eof ∧ t.kind = k
  · rw [if_pos hk, if_pos hk]
    exact .ok v us (List.suffix_cons t us)
  · rw [if_neg hk, if_neg hk]
    exact .error _ t (List.mem_cons_self ..) nofun

theorem At.expects {k : TokenKind} {what : Text} (hts : W.Inside ts) (hk : k ≠ .eof) :
    W.At ts W.move (Parse.expect k what) (Parse.expect k what) := by
  have h : W.At ts W.move (Parse.expect k what >>= Pure.pure)
      (Parse.expect k what >>= Pure.pure) :=
    At.expect hts hk fun _ _ _ _ hin => At.pure hin rfl
  rwa [bind_pure] at h

/-! ## Bodies of declarations -/

/-- The name, generics and content of a declaration at another place. -/
def placeBody (W : Overlap) (b : Text × Generics × Data) : Text × Generics × Data :=
  (b.1, b.2.1.place W.shift, b.2.2.place W.shift)

theorem endsAt_namedFields (hts : W.Inside ts) :
    W.EndsAt ts (Fields.place W.shift) (namedFields W.source) (namedFields W.source') := by
  unfold namedFields
  refine EndsAt.bind hts (At.expects hts (by decide)) fun _ us _ hin => ?_
  refine EndsAt.bind hin (At.commaList hin fun _ _ => at_namedField)
    fun fields vs _ hin => ?_
  refine EndsAt.expect hin ?_
  rw [number_place]
  rfl

theorem endsAt_structBody (hts : W.Inside ts) :
    W.EndsAt ts W.placeBody (structBody W.source) (structBody W.source') := by
  unfold structBody
  refine EndsAt.bind hts (At.expects hts (by decide)) fun name us _ hin => ?_
  refine EndsAt.bind hin (at_genericParams hin) fun params vs _ hin => ?_
  refine EndsAt.check hin fun _ => EndsAt.ite (fun _ => ?_) fun _ => ?_
  · refine EndsAt.bind hin (at_tupleFields hin) fun fields ws _ hin => ?_
    refine EndsAt.bind hin (at_whereClause hin) fun preds xs _ hin => ?_
    exact EndsAt.expect hin rfl
  · refine EndsAt.accept hin rfl ?_
    refine EndsAt.bind hin (at_whereClause hin) fun preds ws _ hin => ?_
    refine EndsAt.accept hin rfl ?_
    refine EndsAt.check hin fun _ => EndsAt.ite (fun _ => ?_) fun _ =>
      EndsAt.failHere hin _ nofun
    exact EndsAt.map (endsAt_namedFields hin) fun _ => rfl

theorem endsAt_enumBody (hts : W.Inside ts) :
    W.EndsAt ts W.placeBody (enumBody W.source) (enumBody W.source') := by
  unfold enumBody
  refine EndsAt.bind hts (At.expects hts (by decide)) fun name us _ hin => ?_
  refine EndsAt.bind hin (at_genericParams hin) fun params vs _ hin => ?_
  refine EndsAt.bind hin (at_whereClause hin) fun preds ws _ hin => ?_
  refine EndsAt.bind hin (At.expects hin (by decide)) fun _ xs _ hin => ?_
  refine EndsAt.bind hin (At.commaList hin fun _ _ => at_variant)
    fun variants ys _ hin => ?_
  exact EndsAt.expect hin rfl

theorem endsAt_unionBody (hts : W.Inside ts) :
    W.EndsAt ts W.placeBody (unionBody W.source) (unionBody W.source') := by
  unfold unionBody
  refine EndsAt.bind hts (At.expects hts (by decide)) fun name us _ hin => ?_
  refine EndsAt.bind hin (at_genericParams hin) fun params vs _ hin => ?_
  refine EndsAt.bind hin (at_whereClause hin) fun preds ws _ hin => ?_
  exact EndsAt.map (endsAt_namedFields hin) fun _ => rfl

end Overlap

end Deriver.Parse
