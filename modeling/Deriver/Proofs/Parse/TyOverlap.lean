import Deriver.Proofs.Parse.Overlap

/-!
# Types in two places

The rules of the type grammar agree on an overlap, each with a budget that covers
what is left of the run. A rule takes a token after at most eight calls, so eight
for each token are enough, and a few more for the calls before the first: `Grammar`
counts them. The two budgets need not be the same; when the lists are, this says
that the budget plays no part in what a rule yields.
-/

set_option synthInstance.maxSize 1000

namespace Deriver.Parse.Overlap

variable {W : Overlap} {ts us : List Token}

/-! ## Parts of types -/

theorem at_lifetimes (hts : W.Inside ts) {sep : TokenKind} (hsep : sep ≠ .eof) {n n' : Nat}
    (hn : ts.length ≤ n) (hn' : ts.length ≤ n') :
    W.At ts id (lifetimes sep n) (lifetimes sep n') := by
  induction n generalizing n' ts with
  | zero => exact absurd (List.length_eq_zero_iff.mp (Nat.le_zero.mp hn)) hts.ne
  | succ n ih =>
      obtain ⟨n', rfl⟩ : ∃ m, n' = m + 1 :=
        Nat.exists_eq_add_one.mpr
          (Nat.lt_of_lt_of_le (List.length_pos_of_ne_nil hts.ne) hn')
      unfold lifetimes
      refine At.check hts fun b hb => At.ite (fun hb' => ?_) fun _ => At.pure hts rfl
      refine At.take hts (by rw [hb hb']; decide) ?_
      rintro t us rfl hus
      refine At.accept hus hsep ?_ fun _ => At.pure hus rfl
      rintro u vs rfl - hvs
      simp only [List.length_cons] at hn hn'
      exact At.bind hvs (ih hvs (by omega) (by omega)) fun _ _ _ hws => At.pure hws rfl

theorem at_binder (hts : W.Inside ts) : W.At ts id binder binder := by
  unfold binder
  refine At.expect hts (by decide) fun _ us _ _ hus => ?_
  refine At.expect hus (by decide) fun _ vs _ _ hvs => At.get ?_
  refine At.bind hvs (at_lifetimes hvs (by decide) (length_left vs) (length_right vs))
    fun names ws _ hws => ?_
  exact At.expect hws (by decide) fun _ _ _ _ hxs => At.pure hxs rfl

theorem at_binder? (hts : W.Inside ts) : W.At ts id binder? binder? := by
  unfold binder?
  exact At.check hts fun _ _ => At.ite (fun _ => at_binder hts) fun _ => At.pure hts rfl

theorem at_lifetime? (hts : W.Inside ts) : W.At ts id lifetime? lifetime? := by
  unfold lifetime?
  refine At.check hts fun b hb => At.ite (fun hb' => ?_) fun _ => At.pure hts rfl
  exact At.take hts (by rw [hb hb']; decide) fun _ _ _ hus => At.pure hus rfl

theorem at_pointerKind (hts : W.Inside ts) : W.At ts id pointerKind pointerKind := by
  unfold pointerKind
  refine At.accept hts (by decide) (fun _ _ _ _ hus => At.pure hus rfl) fun _ => ?_
  exact At.expect hts (by decide) fun _ _ _ _ hus => At.pure hus rfl

/-- A look at the token after the next, made only where the next one cannot be
the last of the run. -/
theorem ahead_eq {b : Bool} {k k' : TokenKind} (hb : b = true → kindOf ts 0 ∉ limits)
    (h : kindOf ts 0 ∉ limits → k = kindOf ts 1 ∧ k' = kindOf ts 1) (c : TokenKind → Bool) :
    (b && c k) = (b && c k') := by
  cases b with
  | false => rfl
  | true => rw [(h (hb rfl)).1, (h (hb rfl)).2]

theorem at_argName (hts : W.Inside ts) : W.At ts id argName argName := by
  unfold argName
  refine At.check hts fun isName hname => At.check hts fun isSelf hself => ?_
  refine At.peekNext hts fun next next' hnext => ?_
  have hkind (hb : (isName || isSelf) = true) : kindOf ts 0 ∉ limits := by
    rcases Bool.or_eq_true_iff.mp hb with h | h
    · rw [hname h]; decide
    · rw [hself h]; decide
  rw [ahead_eq hkind hnext (· == .colon)]
  refine At.ite (fun hb => ?_) fun _ => At.pure hts rfl
  rw [Bool.and_eq_true] at hb
  have hcolon : kindOf ts 1 = .colon := by
    rw [← (hnext (hkind hb.1)).2]
    exact of_decide_eq_true hb.2
  exact At.takeTwo hts (hkind hb.1) (by rw [hcolon]; decide)
    fun _ _ _ _ hus => At.pure hus rfl

theorem at_abi? (hts : W.Inside ts) : W.At ts id abi? abi? := by
  unfold abi?
  refine At.accept hts (by decide) (fun _ us _ _ hus => ?_) fun _ => At.pure hts rfl
  refine At.check hus fun b hb => At.ite (fun hb' => ?_) fun _ => At.pure hus rfl
  exact At.take hus (by rw [hb hb']; decide) fun _ _ _ hvs => At.pure hvs rfl

theorem at_turbofish (hts : W.Inside ts) : W.At ts id turbofish turbofish := by
  unfold turbofish
  refine At.check hts fun b hb => At.peekNext hts fun next next' hnext => ?_
  have hkind (hb' : b = true) : kindOf ts 0 ∉ limits := by rw [hb hb']; decide
  rw [ahead_eq hkind hnext (· == .lt)]
  refine At.ite (fun h => ?_) fun _ => At.pure hts rfl
  rw [Bool.and_eq_true] at h
  exact At.take hts (by rw [hb h.1]; decide) fun _ _ _ hus => At.pure hus rfl

theorem at_tildeConst (hts : W.Inside ts) : W.At ts id tildeConst tildeConst := by
  unfold tildeConst
  refine At.accept hts (by decide) (fun _ us _ _ hus => ?_) fun _ => At.pure hts rfl
  exact At.bind hus (At.accepts hus (by decide)) fun _ _ _ hvs => At.pure hvs rfl

section Elements

variable {elem elem' : Parser Ty} [Forward elem] [Forward elem']

theorem at_output? (hts : W.Inside ts)
    (helem : ∀ us, us <:+ ts → W.Inside us → W.At us (Ty.place W.shift) elem elem') :
    W.At ts (Option.map (Ty.place W.shift)) (output? elem) (output? elem') := by
  unfold output?
  refine At.accept hts (by decide) ?_ fun _ => At.pure hts rfl
  rintro t us rfl - hus
  exact At.bind hus (helem us (List.suffix_cons t us) hus) fun _ _ _ hvs => At.pure hvs rfl

theorem at_tupleRest {n n' : Nat} (hts : W.Inside ts) (hn : ts.length < n)
    (hn' : ts.length < n')
    (helem : ∀ us, us <:+ ts → W.Inside us → W.At us (Ty.place W.shift) elem elem') :
    W.At ts (List.map (Ty.place W.shift)) (tupleRest elem n) (tupleRest elem' n') := by
  induction n generalizing n' ts with
  | zero => exact absurd hn (Nat.not_lt_zero _)
  | succ n ih =>
      obtain ⟨n', rfl⟩ : ∃ m, n' = m + 1 :=
        Nat.exists_eq_add_one.mpr (Nat.zero_lt_of_lt hn')
      unfold tupleRest
      refine At.accept hts (by decide) ?_ fun _ => At.pure hts rfl
      rintro t us rfl - hus
      have hsub := List.suffix_cons t us
      rw [List.length_cons] at hn hn'
      refine At.check hus fun _ _ => At.ite (fun _ => At.pure hus rfl) fun _ => ?_
      refine At.bind hus (helem us hsub hus) fun v vs hvs hin => ?_
      have hlen := hvs.length_le
      refine At.bind hin (ih hin (by omega) (by omega) ?_) ?_
      · exact fun ws hws => helem ws (hws.trans (hvs.trans hsub))
      · exact fun _ _ _ hws => At.pure hws rfl

theorem at_fnInputs {n n' : Nat} (hts : W.Inside ts) (hn : ts.length < n)
    (hn' : ts.length < n')
    (helem : ∀ us, us <:+ ts → W.Inside us → W.At us (Ty.place W.shift) elem elem') :
    W.At ts (Prod.map (List.map (Ty.place W.shift)) id) (fnInputs elem n)
    (fnInputs elem' n') := by
  induction n generalizing n' ts with
  | zero => exact absurd hn (Nat.not_lt_zero _)
  | succ n ih =>
      obtain ⟨n', rfl⟩ : ∃ m, n' = m + 1 :=
        Nat.exists_eq_add_one.mpr (Nat.zero_lt_of_lt hn')
      unfold fnInputs
      dsimp only
      refine At.check hts fun _ _ => At.atEnd hts fun _ =>
        At.ite (fun _ => At.pure hts rfl) ?_
      intro _
      refine At.accept hts (by decide) (fun _ _ _ _ hus => At.pure hus rfl) fun _ => ?_
      refine At.bind hts (at_argName hts) fun _ us hsub hus => ?_
      refine At.bind hus (helem us hsub hus) fun v vs hvs hin => ?_
      refine At.accept hin (by decide) ?_ fun _ => At.pure hin rfl
      rintro t ws rfl - hws
      have hlen := (hvs.trans hsub).length_le
      have hsub' := (List.suffix_cons t ws).trans (hvs.trans hsub)
      rw [List.length_cons] at hlen
      refine At.bind hws (ih hws (by omega) (by omega) ?_) ?_
      · exact fun xs hxs => helem xs (hxs.trans hsub')
      · exact fun _ _ _ hxs => At.pure hxs rfl

theorem at_fnType (hts : W.Inside ts) (names : List Text) (pos : Position)
    (helem : ∀ us, us <:+ ts → us.length < ts.length → W.Inside us →
      W.At us (Ty.place W.shift) elem elem') :
    W.At ts (Ty.place W.shift) (fnType elem names pos)
    (fnType elem' names (W.shift pos)) := by
  unfold fnType
  dsimp only
  refine At.bind hts (At.accepts hts (by decide)) fun isUnsafe us hus hin => ?_
  refine At.bind hin (at_abi? hin) fun abi vs hvs hin => ?_
  refine At.expect hin (by decide) ?_
  rintro t ws rfl - hin
  refine At.expect hin (by decide) ?_
  rintro u xs rfl - hin
  have hsub : xs <:+ ts :=
    (List.suffix_cons u xs).trans ((List.suffix_cons t _).trans (hvs.trans hus))
  have hshort : xs.length < ts.length := by
    have := (hvs.trans hus).length_le
    simp only [List.length_cons] at this
    omega
  have helem' (zs : List Token) (hzs : zs <:+ xs) (hin : W.Inside zs) :
      W.At zs (Ty.place W.shift) elem elem' :=
    helem zs (hzs.trans hsub) (Nat.lt_of_le_of_lt hzs.length_le hshort) hin
  refine At.get (At.bind hin (at_fnInputs hin ?_ ?_ helem') fun inputs ys hys hin => ?_)
  · exact Nat.lt_succ_of_le (length_left xs)
  · exact Nat.lt_succ_of_le (length_right xs)
  · refine At.expect hin (by decide) ?_
    rintro v zs rfl - hin
    have hsub' := (List.suffix_cons v zs).trans hys
    refine At.bind hin (at_output? hin fun as has => helem' as (has.trans hsub')) ?_
    intro output as _ hin
    refine At.pure hin ?_
    simp only [Ty.place, FnSig.place, placeTys_eq, placeTy?_eq, Prod.map_fst,
      Prod.map_snd, id]

end Elements

section Bounds

variable {elem elem' : Parser Bound} [Forward elem] [Forward elem']

theorem at_boundLoop {n n' : Nat} (hts : W.Inside ts) (hn : ts.length < n)
    (hn' : ts.length < n')
    (helem : ∀ us, us <:+ ts → W.Inside us → W.At us (Bound.place W.shift) elem elem') :
    W.At ts (List.map (Bound.place W.shift)) (boundLoop elem n) (boundLoop elem' n') := by
  induction n generalizing n' ts with
  | zero => exact absurd hn (Nat.not_lt_zero _)
  | succ n ih =>
      obtain ⟨n', rfl⟩ : ∃ m, n' = m + 1 :=
        Nat.exists_eq_add_one.mpr (Nat.zero_lt_of_lt hn')
      unfold boundLoop
      refine At.peekKind hts (At.ite (fun _ => At.pure hts rfl) fun _ => ?_)
      refine At.bind hts (helem ts (List.suffix_refl ts) hts) fun v us hsub hus => ?_
      refine At.accept hus (by decide) ?_ fun _ => At.pure hus rfl
      rintro t vs rfl - hvs
      have hlen := hsub.length_le
      have hsub' := (List.suffix_cons t vs).trans hsub
      rw [List.length_cons] at hlen
      refine At.bind hvs (ih hvs (by omega) (by omega) ?_) ?_
      · exact fun ws hws => helem ws (hws.trans hsub')
      · exact fun _ _ _ hws => At.pure hws rfl

theorem at_boundList (hts : W.Inside ts)
    (helem : ∀ us, us <:+ ts → W.Inside us → W.At us (Bound.place W.shift) elem elem') :
    W.At ts (List.map (Bound.place W.shift)) (boundList elem) (boundList elem') := by
  unfold boundList
  refine At.get (at_boundLoop hts ?_ ?_ helem)
  · exact Nat.lt_succ_of_le (length_left ts)
  · exact Nat.lt_succ_of_le (length_right ts)

theorem bindFirst_place (f : Position → Position) (names : List Text) (bs : List Bound) :
    bindFirst names (bs.map (Bound.place f)) =
    (bindFirst names bs).map (Bound.place f) := by
  match bs with
  | [] => rfl
  | .outlives _ _ :: _ => rfl
  | .trait _ _ _ :: _ => rfl

end Bounds

section Segments

variable {elem elem' : Parser Segment} [Forward elem] [Forward elem']

theorem at_segmentLoop {n n' : Nat} (hts : W.Inside ts) (hn : ts.length < n)
    (hn' : ts.length < n')
    (helem : ∀ us, us <:+ ts → W.Inside us → W.At us (Segment.place W.shift) elem elem') :
    W.At ts (List.map (Segment.place W.shift)) (segmentLoop elem n)
    (segmentLoop elem' n') := by
  induction n generalizing n' ts with
  | zero => exact absurd hn (Nat.not_lt_zero _)
  | succ n ih =>
      obtain ⟨n', rfl⟩ : ∃ m, n' = m + 1 :=
        Nat.exists_eq_add_one.mpr (Nat.zero_lt_of_lt hn')
      unfold segmentLoop
      refine At.bind hts (helem ts (List.suffix_refl ts) hts) fun v us hsub hus => ?_
      refine At.check hus fun b hb => At.peekNext hus fun next next' hnext => ?_
      have hkind (hb' : b = true) : kindOf us 0 ∉ limits := by rw [hb hb']; decide
      rw [ahead_eq hkind hnext isPathIdent]
      refine At.ite (fun h => ?_) fun _ => At.pure hus rfl
      rw [Bool.and_eq_true] at h
      refine At.take hus (by rw [hb h.1]; decide) ?_
      rintro t vs rfl hvs
      have hlen := hsub.length_le
      have hsub' := (List.suffix_cons t vs).trans hsub
      rw [List.length_cons] at hlen
      refine At.bind hvs (ih hvs (by omega) (by omega) ?_) ?_
      · exact fun ws hws => helem ws (hws.trans hsub')
      · exact fun _ _ _ hws => At.pure hws rfl

theorem at_qualifiedLoop {n n' : Nat} (hts : W.Inside ts) (hn : ts.length < n)
    (hn' : ts.length < n')
    (helem : ∀ us, us <:+ ts → W.Inside us → W.At us (Segment.place W.shift) elem elem') :
    W.At ts (List.map (Segment.place W.shift)) (qualifiedLoop elem n)
    (qualifiedLoop elem' n') := by
  induction n generalizing n' ts with
  | zero => exact absurd hn (Nat.not_lt_zero _)
  | succ n ih =>
      obtain ⟨n', rfl⟩ : ∃ m, n' = m + 1 :=
        Nat.exists_eq_add_one.mpr (Nat.zero_lt_of_lt hn')
      unfold qualifiedLoop
      refine At.accept hts (by decide) ?_ fun _ => At.pure hts rfl
      rintro t us rfl - hus
      have hsub := List.suffix_cons t us
      rw [List.length_cons] at hn hn'
      refine At.bind hus (helem us hsub hus) fun v vs hvs hin => ?_
      have hlen := hvs.length_le
      refine At.bind hin (ih hin (by omega) (by omega) ?_) ?_
      · exact fun ws hws => helem ws (hws.trans (hvs.trans hsub))
      · exact fun _ _ _ hws => At.pure hws rfl

end Segments

theorem at_asTrait? {elem elem' : Parser Path} [Forward elem] [Forward elem']
    (hts : W.Inside ts)
    (helem : ∀ us, us <:+ ts → W.Inside us → W.At us (Path.place W.shift) elem elem') :
    W.At ts (Option.map (Path.place W.shift)) (asTrait? elem) (asTrait? elem') := by
  unfold asTrait?
  refine At.accept hts (by decide) ?_ fun _ => At.pure hts rfl
  rintro t us rfl - hus
  exact At.bind hus (helem us (List.suffix_cons t us) hus) fun _ _ _ hvs => At.pure hvs rfl

/-! ## The rules that call each other -/

/-- The rules agree wherever the budgets cover what is left of the run. -/
structure Grammar (W : Overlap) (f f' : Nat) : Prop where
  ty : ∀ ts, W.Inside ts → 8 * ts.length + 4 ≤ f → 8 * ts.length + 4 ≤ f' →
    W.At ts (Ty.place W.shift) (Parse.ty W.source f) (Parse.ty W.source' f')
  reference : ∀ ts pos, W.Inside ts → 8 * ts.length ≤ f → 8 * ts.length ≤ f' →
    kindOf ts 0 ≠ .eof →
    W.At ts (Ty.place W.shift) (Parse.reference W.source f pos)
      (Parse.reference W.source' f' (W.shift pos))
  pathOrMacro : ∀ ts pos, W.Inside ts → 8 * ts.length + 3 ≤ f → 8 * ts.length + 3 ≤ f' →
    W.At ts (Ty.place W.shift) (Parse.pathOrMacro W.source f pos)
      (Parse.pathOrMacro W.source' f' (W.shift pos))
  path : ∀ ts, W.Inside ts → 8 * ts.length + 2 ≤ f → 8 * ts.length + 2 ≤ f' →
    W.At ts (Path.place W.shift) (Parse.path W.source f) (Parse.path W.source' f')
  segment : ∀ ts, W.Inside ts → 8 * ts.length + 1 ≤ f → 8 * ts.length + 1 ≤ f' →
    W.At ts (Segment.place W.shift) (Parse.segment W.source f) (Parse.segment W.source' f')
  genericArg : ∀ ts, W.Inside ts → 8 * ts.length + 5 ≤ f → 8 * ts.length + 5 ≤ f' →
    W.At ts (GenericArg.place W.shift) (Parse.genericArg W.source f)
      (Parse.genericArg W.source' f')
  bound : ∀ ts, W.Inside ts → 8 * ts.length + 3 ≤ f → 8 * ts.length + 3 ≤ f' →
    W.At ts (Bound.place W.shift) (Parse.bound W.source f) (Parse.bound W.source' f')

section Rules

variable {f f' : Nat}

theorem at_reference (h : W.Grammar f f') {pos : Position} (hts : W.Inside ts)
    (hf : 8 * ts.length ≤ f + 1) (hf' : 8 * ts.length ≤ f' + 1) (hk : kindOf ts 0 ≠ .eof) :
    W.At ts (Ty.place W.shift) (reference W.source (f + 1) pos)
      (reference W.source' (f' + 1) (W.shift pos)) := by
  unfold reference
  refine At.take hts hk ?_
  rintro t us rfl hus
  refine At.bind hus (at_lifetime? hus) fun lifetime vs hvs hin => ?_
  refine At.bind hin (At.accepts hin (by decide)) fun isMut ws hws hin => ?_
  have hlen := (hws.trans hvs).length_le
  rw [List.length_cons] at hf hf'
  exact At.bind hin (h.ty ws hin (by omega) (by omega)) fun _ _ _ hin => At.pure hin rfl

theorem at_path (h : W.Grammar f f') (hts : W.Inside ts) (hf : 8 * ts.length + 2 ≤ f + 1)
    (hf' : 8 * ts.length + 2 ≤ f' + 1) :
    W.At ts (Path.place W.shift) (path W.source (f + 1)) (path W.source' (f' + 1)) := by
  unfold path
  refine At.peek hts ?_
  rintro t us rfl
  refine At.bind hts (At.accepts hts (by decide)) fun isGlobal vs hvs hin => At.get ?_
  have hlen := hvs.length_le
  refine At.bind hin (at_segmentLoop hin ?_ ?_ ?_) fun segments ws _ hin => ?_
  · exact Nat.lt_succ_of_le (length_left vs)
  · exact Nat.lt_succ_of_le (length_right vs)
  · intro ws hws hin
    have := hws.length_le
    exact h.segment ws hin (by omega) (by omega)
  · refine At.pure hin ?_
    simp only [Path.place, placeQSelf?, placeSegments_eq, id]
    rfl

theorem at_pathOrMacro (h : W.Grammar f f') {pos : Position} (hts : W.Inside ts)
    (hf : 8 * ts.length + 3 ≤ f + 1) (hf' : 8 * ts.length + 3 ≤ f' + 1) :
    W.At ts (Ty.place W.shift) (pathOrMacro W.source (f + 1) pos)
      (pathOrMacro W.source' (f' + 1) (W.shift pos)) := by
  unfold pathOrMacro
  refine At.get (At.bind hts (h.path ts hts (by omega) (by omega)) fun p us hsub hus => ?_)
  refine At.accept hus (by decide) ?_ fun _ => At.pure hus rfl
  rintro t vs rfl - hvs
  refine At.bind hvs (At.skipGroup hvs 0) fun _ ws hws hin => ?_
  have hsub' : ws <:+ ts := hws.trans ((List.suffix_cons t vs).trans hsub)
  exact At.bind hin (At.textSince hts hsub' hin) fun _ _ _ hin => At.pure hin rfl

theorem at_bound (h : W.Grammar f f') (hts : W.Inside ts) (hf : 8 * ts.length + 3 ≤ f + 1)
    (hf' : 8 * ts.length + 3 ≤ f' + 1) :
    W.At ts (Bound.place W.shift) (bound W.source (f + 1)) (bound W.source' (f' + 1)) := by
  unfold bound
  refine At.check hts fun b hb => At.ite (fun hb' => ?_) fun _ => ?_
  · exact At.take hts (by rw [hb hb']; decide) fun _ _ _ hus => At.pure hus rfl
  · refine At.accept hts (by decide) ?_ fun _ => ?_
    · rintro t us rfl - hus
      rw [List.length_cons] at hf hf'
      refine At.bind hus (h.bound us hus (by omega) (by omega)) fun v vs _ hin => ?_
      exact At.expect hin (by decide) fun _ _ _ _ hin => At.pure hin rfl
    · refine At.bind hts (at_binder? hts) fun names us hus hin => ?_
      refine At.bind hin (at_tildeConst hin) fun _ vs hvs hin => ?_
      refine At.bind hin (At.accepts hin (by decide)) fun maybe ws hws hin => ?_
      have hlen := (hws.trans (hvs.trans hus)).length_le
      exact At.bind hin (h.path ws hin (by omega) (by omega)) fun _ _ _ hin =>
        At.pure hin rfl

theorem at_genericArg (h : W.Grammar f f') (hts : W.Inside ts)
    (hf : 8 * ts.length + 5 ≤ f + 1) (hf' : 8 * ts.length + 5 ≤ f' + 1) :
    W.At ts (GenericArg.place W.shift) (genericArg W.source (f + 1))
      (genericArg W.source' (f' + 1)) := by
  have hty : W.At ts (GenericArg.place W.shift) (GenericArg.ty <$> Parse.ty W.source f)
      (GenericArg.ty <$> Parse.ty W.source' f') :=
    At.map hts (h.ty ts hts (by omega) (by omega)) fun _ => rfl
  unfold genericArg
  dsimp only
  refine At.peek hts ?_
  rintro t us rfl
  rw [show (W.move t).kind = t.kind from rfl]
  refine At.ite (fun hk => ?_) fun _ => At.ite (fun hk => ?_) fun _ =>
    At.ite (fun hk => ?_) ?_
  · have hk : kindOf (t :: us) 0 = .lifetime := of_decide_eq_true hk
    exact At.take hts (by rw [hk]; decide) fun _ _ _ hin => At.pure hin rfl
  · exact At.bind hts (At.capture hts false _) fun _ _ _ hin => At.pure hin rfl
  · have hk : kindOf (t :: us) 0 = .ident := of_decide_eq_true hk
    rw [List.length_cons] at hf hf'
    refine At.peekNext hts fun next next' hnext => ?_
    obtain ⟨rfl, rfl⟩ := hnext (by rw [hk]; decide)
    refine At.ite (fun hnext => ?_) fun _ => At.ite (fun hnext => ?_) fun _ => hty
    · have hnext : kindOf (t :: us) 1 = .equals := of_decide_eq_true hnext
      refine At.takeTwo hts (by rw [hk]; decide) (by rw [hnext]; decide) ?_
      rintro t u us heq hin
      cases heq
      rw [List.length_cons] at hf hf'
      exact At.bind hin (h.ty us hin (by omega) (by omega)) fun _ _ _ hin => At.pure hin rfl
    · have hnext : kindOf (t :: us) 1 = .colon := of_decide_eq_true hnext
      refine At.takeTwo hts (by rw [hk]; decide) (by rw [hnext]; decide) ?_
      rintro t u us heq hin
      cases heq
      rw [List.length_cons] at hf hf'
      refine At.bind hin (at_boundList hin ?_) fun bounds vs _ hin => ?_
      · intro vs hvs hin
        have := hvs.length_le
        exact h.bound vs hin (by omega) (by omega)
      · refine At.pure hin ?_
        rw [GenericArg.place, placeBounds_eq]
        rfl
  · exact fun _ => hty

theorem at_segment (h : W.Grammar f f') (hts : W.Inside ts) (hf : 8 * ts.length + 1 ≤ f + 1)
    (hf' : 8 * ts.length + 1 ≤ f' + 1) :
    W.At ts (Segment.place W.shift) (segment W.source (f + 1))
    (segment W.source' (f' + 1)) := by
  unfold segment
  refine At.peek hts ?_
  rintro t us rfl
  rw [show (W.move t).kind = t.kind from rfl]
  refine At.ite (fun _ => At.failHere hts _ (by rintro ⟨⟩)) fun hk => ?_
  have hk : isPathIdent t.kind = true := by simpa using hk
  refine At.take hts (fun heof => ?_) ?_
  · rw [show t.kind = .eof from heof] at hk
    cases hk
  rintro t' us' heq hin
  cases heq
  rw [List.length_cons] at hf hf'
  refine At.bind hin (at_turbofish hin) fun _ vs hvs hin => ?_
  have hlen := hvs.length_le
  refine At.accept hin (by decide) ?_ fun _ => At.accept hin (by decide) ?_ fun _ => ?_
  · rintro t' ws rfl - hin
    rw [List.length_cons] at hlen
    have harg (xs : List Token) (hxs : xs <:+ ws) (hin : W.Inside xs) :
        W.At xs (GenericArg.place W.shift) (genericArg W.source f)
          (genericArg W.source' f') := by
      have := hxs.length_le
      exact h.genericArg xs hin (by omega) (by omega)
    refine At.bind hin (At.commaList hin harg) fun args xs _ hin => ?_
    refine At.expect hin (by decide) fun _ _ _ _ hin => At.pure hin ?_
    simp only [Segment.place, Args.place, placeArgs_eq]
    rfl
  · rintro t' ws rfl - hin
    rw [List.length_cons] at hlen
    have hty (xs : List Token) (hxs : xs <:+ ws) (hin : W.Inside xs) :
        W.At xs (Ty.place W.shift) (Parse.ty W.source f) (Parse.ty W.source' f') := by
      have := hxs.length_le
      exact h.ty xs hin (by omega) (by omega)
    refine At.bind hin (At.commaList hin hty) fun inputs xs hxs hin => ?_
    refine At.expect hin (by decide) ?_
    rintro u ys rfl - hin
    have hsub := (List.suffix_cons u ys).trans hxs
    refine At.bind hin (at_output? hin fun zs hzs => hty zs (hzs.trans hsub)) ?_
    intro output zs _ hin
    refine At.pure hin ?_
    simp only [Segment.place, Args.place, placeTys_eq, placeTy?_eq]
    rfl
  · exact At.pure hin rfl

theorem Grammar.ty_of_lt (h : W.Grammar f f') (hf : 8 * ts.length + 4 ≤ f + 1)
    (hf' : 8 * ts.length + 4 ≤ f' + 1) (hlt : us.length < ts.length) (hin : W.Inside us) :
    W.At us (Ty.place W.shift) (Parse.ty W.source f) (Parse.ty W.source' f') :=
  h.ty us hin (by omega) (by omega)

theorem at_tuple {t : Token} (h : W.Grammar f f') (hts : W.Inside (t :: us))
    (hk : t.kind = .lparen)
    (hf : 8 * (t :: us).length + 4 ≤ f + 1) (hf' : 8 * (t :: us).length + 4 ≤ f' + 1) :
    W.At (t :: us) (Ty.place W.shift) (Parse.ty W.source (f + 1))
    (Parse.ty W.source' (f' + 1)) := by
  have hlt : us.length < (t :: us).length := Nat.lt_succ_self _
  unfold Parse.ty
  dsimp only
  refine At.peek hts ?_
  rintro t' us' heq
  cases heq
  rw [show (W.move t).kind = t.kind from rfl, show (W.move t).pos =
    W.shift t.pos from rfl, hk]
  refine At.take hts (fun heof => absurd (hk.symm.trans heof) (by decide)) ?_
  rintro t' us' heq hin
  cases heq
  refine At.accept hin (by decide) (fun _ _ _ _ hin => At.pure hin rfl) fun _ => ?_
  refine At.bind hin (h.ty_of_lt hf hf' hlt hin) fun first vs hvs hin => ?_
  refine At.accept hin (by decide) (fun _ _ _ _ hin => At.pure hin rfl) fun _ => At.get ?_
  refine At.bind hin (at_tupleRest hin ?_ ?_ ?_) fun rest ws _ hin => ?_
  · exact Nat.lt_succ_of_le (length_left vs)
  · exact Nat.lt_succ_of_le (length_right vs)
  · intro ws hws hin
    exact h.ty_of_lt hf hf' (Nat.lt_succ_of_le (hws.trans hvs).length_le) hin
  · refine At.expect hin (by decide) fun _ _ _ _ hin => At.pure hin ?_
    rw [Ty.place, placeTys_eq, List.map_cons]

theorem at_array {t : Token} (h : W.Grammar f f') (hts : W.Inside (t :: us))
    (hk : t.kind = .lbracket) (hf : 8 * (t :: us).length + 4 ≤ f + 1)
    (hf' : 8 * (t :: us).length + 4 ≤ f' + 1) :
    W.At (t :: us) (Ty.place W.shift) (Parse.ty W.source (f + 1))
    (Parse.ty W.source' (f' + 1)) := by
  unfold Parse.ty
  dsimp only
  refine At.peek hts ?_
  rintro t' us' heq
  cases heq
  rw [show (W.move t).kind = t.kind from rfl, show (W.move t).pos =
    W.shift t.pos from rfl, hk]
  refine At.take hts (fun heof => absurd (hk.symm.trans heof) (by decide)) ?_
  rintro t' us' heq hin
  cases heq
  refine At.bind hin (h.ty_of_lt hf hf' (Nat.lt_succ_self _) hin) fun elem vs _ hin => ?_
  refine At.accept hin (by decide) (fun _ ws _ _ hin => ?_) fun _ => ?_
  · refine At.bind hin (At.capture hin false _) fun len xs _ hin => ?_
    exact At.expect hin (by decide) fun _ _ _ _ hin => At.pure hin rfl
  · exact At.expect hin (by decide) fun _ _ _ _ hin => At.pure hin rfl

theorem at_qualified {t : Token} (h : W.Grammar f f') (hts : W.Inside (t :: us))
    (hk : t.kind = .lt)
    (hf : 8 * (t :: us).length + 4 ≤ f + 1) (hf' : 8 * (t :: us).length + 4 ≤ f' + 1) :
    W.At (t :: us) (Ty.place W.shift) (Parse.ty W.source (f + 1))
    (Parse.ty W.source' (f' + 1)) := by
  unfold Parse.ty
  dsimp only
  refine At.peek hts ?_
  rintro t' us' heq
  cases heq
  rw [show (W.move t).kind = t.kind from rfl, hk]
  refine At.take hts (fun heof => absurd (hk.symm.trans heof) (by decide)) ?_
  rintro t' us' heq hin
  cases heq
  refine At.bind hin (h.ty_of_lt hf hf' (Nat.lt_succ_self _) hin) fun self vs hvs hin => ?_
  rw [List.length_cons] at hf hf'
  have hlen := hvs.length_le
  have htrait : W.At vs (Option.map (Path.place W.shift)) (asTrait? (path W.source f))
      (asTrait? (path W.source' f')) := by
    refine at_asTrait? hin fun ws hws hin => ?_
    have := hws.length_le
    exact h.path ws hin (by omega) (by omega)
  refine At.bind hin htrait fun trait ws hws hin => ?_
  refine At.expect hin (by decide) ?_
  rintro u xs rfl - hin
  have hlen' := hws.length_le
  rw [List.length_cons] at hlen'
  refine At.get (At.bind hin (at_qualifiedLoop hin ?_ ?_ ?_) fun segments ys _ hin => ?_)
  · exact Nat.lt_succ_of_le (length_left xs)
  · exact Nat.lt_succ_of_le (length_right xs)
  · intro ys hys hin
    have := hys.length_le
    exact h.segment ys hin (by omega) (by omega)
  · rw [List.isEmpty_map]
    refine At.ite (fun _ => At.failHere hin _ fun h => by cases h) fun _ => At.pure hin ?_
    simp only [Ty.place, Path.place, placeQSelf?, QSelf.place, placePath?_eq,
      placeSegments_eq]
    rfl

theorem at_ty (h : W.Grammar f f') (hts : W.Inside ts) (hf : 8 * ts.length + 4 ≤ f + 1)
    (hf' : 8 * ts.length + 4 ≤ f' + 1) :
    W.At ts (Ty.place W.shift) (Parse.ty W.source (f + 1))
    (Parse.ty W.source' (f' + 1)) := by
  have hbounds (us : List Token) (hus : us <:+ ts) (hin : W.Inside us) :
      W.At us (List.map (Bound.place W.shift)) (boundList (bound W.source f))
        (boundList (bound W.source' f')) := by
    refine at_boundList hin fun vs hvs hin => ?_
    have := (hvs.trans hus).length_le
    exact h.bound vs hin (by omega) (by omega)
  have hpath (pos : Position) : W.At ts (Ty.place W.shift) (pathOrMacro W.source f pos)
      (pathOrMacro W.source' f' (W.shift pos)) :=
    h.pathOrMacro ts pos hts (by omega) (by omega)
  obtain ⟨t, us, rfl⟩ := hts.cons
  have hsub := List.suffix_cons t us
  have hlt : us.length < (t :: us).length := Nat.lt_succ_self _
  have hne {k : TokenKind} (hk : t.kind = k) (hk' : k ≠ .eof) :
      kindOf (t :: us) 0 ≠ .eof := by
    rw [show kindOf (t :: us) 0 = t.kind from rfl, hk]
    exact hk'
  -- the three longest rules have lemmas of their own
  by_cases hparen : t.kind = .lparen
  · exact at_tuple h hts hparen hf hf'
  by_cases hbracket : t.kind = .lbracket
  · exact at_array h hts hbracket hf hf'
  by_cases hangle : t.kind = .lt
  · exact at_qualified h hts hangle hf hf'
  unfold Parse.ty
  dsimp only
  refine At.peek hts ?_
  rintro t' us' heq
  cases heq
  rw [show (W.move t).kind = t.kind from rfl, show (W.move t).lexeme = t.lexeme from rfl,
    show (W.move t).pos = W.shift t.pos from rfl]
  split
  case h_1 hk => exact absurd hk hparen
  case h_2 hk => exact absurd hk hbracket
  case h_3 hk => exact h.reference _ _ hts (by omega) (by omega) (hne hk (by decide))
  case h_4 hk =>
    refine At.bind hts (h.reference _ t.pos hts (by omega) (by omega)
      (hne hk (by decide))) ?_
    exact fun _ _ _ hin => At.pure hin rfl
  case h_5 hk =>
    refine At.take hts (hne hk (by decide)) ?_
    rintro t' us' heq hin
    cases heq
    refine At.bind hin (at_pointerKind hin) fun isMut vs hvs hin => ?_
    have hlen := Nat.lt_succ_of_le hvs.length_le
    exact At.bind hin (h.ty_of_lt hf hf' hlen hin) fun _ _ _ hin => At.pure hin rfl
  case h_6 hk => exact At.take hts (hne hk (by decide)) fun _ _ _ hin => At.pure hin rfl
  case h_7 hk =>
    refine At.bind hts (at_binder hts) fun names vs hvs hin => At.peekKind hin ?_
    refine At.ite (fun _ => ?_) fun _ => ?_
    · refine at_fnType hin names t.pos fun ws hws hlt => ?_
      exact h.ty_of_lt hf hf' (Nat.lt_of_lt_of_le hlt hvs.length_le)
    · refine At.bind hin (hbounds vs hvs hin) fun bs ws _ hin => At.pure hin ?_
      rw [Ty.place, placeBounds_eq, ← bindFirst_place]
      rfl
  case h_8 hk =>
    refine At.take hts (hne hk (by decide)) ?_
    rintro t' us' heq hin
    cases heq
    refine At.bind hin (hbounds us hsub hin) fun bs ws _ hin => At.pure hin ?_
    rw [Ty.place, placeBounds_eq]
  case h_9 hk =>
    refine At.take hts (hne hk (by decide)) ?_
    rintro t' us' heq hin
    cases heq
    refine At.bind hin (hbounds us hsub hin) fun bs ws _ hin => At.pure hin ?_
    rw [Ty.place, placeBounds_eq]
  case h_10 hk => exact absurd hk hangle
  case h_11 hk =>
    refine At.ite (fun _ => ?_) fun _ => hpath t.pos
    exact At.take hts (hne hk (by decide)) fun _ _ _ hin => At.pure hin rfl
  case h_12 hk => exact hpath t.pos
  case h_13 =>
    refine At.ite (fun _ => at_fnType hts [] t.pos fun ws _ hlt => ?_) fun _ => ?_
    · exact h.ty_of_lt hf hf' hlt
    · exact At.ite (fun _ => hpath t.pos) fun _ => At.failHere hts _ fun h => by cases h

/-- The rules agree, whatever the budgets are, as long as they cover the run. -/
theorem grammar (W : Overlap) (f f' : Nat) : W.Grammar f f' := by
  induction f generalizing f' with
  | zero =>
      refine ⟨?_, ?_, ?_, ?_, ?_, ?_, ?_⟩
      case refine_2 =>
        intro ts pos hts hf
        exact absurd (List.length_pos_of_ne_nil hts.ne) (by omega)
      all_goals intros; omega
  | succ f ih =>
      cases f' with
      | zero =>
          refine ⟨?_, ?_, ?_, ?_, ?_, ?_, ?_⟩
          case refine_2 =>
            intro ts pos hts hf hf'
            exact absurd (List.length_pos_of_ne_nil hts.ne) (by omega)
          all_goals intros; omega
      | succ f' =>
          have h := ih f'
          exact ⟨fun _ => at_ty h, fun _ _ => at_reference h, fun _ _ => at_pathOrMacro h,
            fun _ => at_path h, fun _ => at_segment h, fun _ => at_genericArg h,
            fun _ => at_bound h⟩

end Rules

theorem at_wholeTy (hts : W.Inside ts) :
    W.At ts (Ty.place W.shift) (wholeTy W.source) (wholeTy W.source') := by
  unfold wholeTy
  have hl := length_left (W := W) ts
  have hr := length_right (W := W) ts
  refine At.get ((W.grammar _ _).ty ts hts ?_ ?_) <;> unfold budget <;> omega

theorem at_bounds (hts : W.Inside ts) :
    W.At ts (List.map (Bound.place W.shift)) (bounds W.source) (bounds W.source') := by
  unfold bounds
  have hl := length_left (W := W) ts
  have hr := length_right (W := W) ts
  refine At.get (at_boundList hts fun us hus hin => (W.grammar _ _).bound us hin ?_ ?_) <;>
    unfold budget <;> have := hus.length_le <;> omega

end Deriver.Parse.Overlap
