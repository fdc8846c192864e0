import Deriver.Proofs.Parse.Tracks

/-!
# Types and declarations with a cursor

Each rule of the cursor follows the rule of the parser it is named for, whatever tokens are
ahead and whether or not an error was met before: `grammar` for types, `tracks_metaItem` and
`tracks_attributes`, and `tracks_structBody`, `tracks_enumBody` and `tracks_unionBody` for
declarations.

The parser bounds the depth of a type, at eight levels a token, and the cursor has no bound.
`Grammar` says how far a bound `f` reaches: a rule is followed to its end if
`8 * left + k ≤ f`, where `left` counts the tokens left and `k` the rules that one calls
before it takes a token. It is proved by induction on `f`, one rule after the other. A loop
is followed by induction on the tokens left, and `Passed` and `Finds` tell of the rules in
it that may take nothing.
-/

namespace Deriver.Cursor

open Parse (kindOf isPathIdent startsBound startsFn startsConst)

variable {i : Input} {c : Cursor} {s : Prop} {α β : Type}

theorem isNext_fn (hstart : startsFn (kindOf (i.ahead c) 0) = true)
    (hsafe : i.isNext c .unsafeKw = false) (habi : i.isNext c .externKw = false) :
    i.isNext c .fnKw = true := by
  unfold Input.isNext at *
  generalize kindOf (i.ahead c) 0 = k at *
  unfold startsFn at hstart
  split at hstart
  · rfl
  · cases hsafe
  · cases habi
  · cases hstart

/-- Whether a token was taken, or none of a kind is next. -/
def Passed (i : Input) (k : TokenKind) (c c' : Cursor) : Prop :=
  c.pos < c'.pos ∨ c' = c ∧ i.isNext c k = false

theorem Passed.le {k : TokenKind} {c' : Cursor} (h : Passed i k c c') : c.pos ≤ c'.pos := by
  rcases h with h | ⟨rfl, -⟩
  · exact Nat.le_of_lt h
  · exact Nat.le_refl _

/-- The step finds what is found at the head of the tokens ahead and moves the cursor
behind it, or to some later token if there is nothing to find. It changes nothing else. -/
def Finds (i : Input) (m : Step (Option α)) (x : Option (α × List Token)) (c : Cursor) :
    Prop :=
  c.pos < i.tokens.length → ∃ v k, m c = some (.ok (v, { c with pos := k })) ∧ c.pos ≤ k ∧
    k < i.tokens.length ∧ x = v.map fun p => (p, i.tokens.drop k)

namespace Finds

variable {m m' : Step (Option α)} {x : Option (α × List Token)}

theorem none : Finds i (Pure.pure none : Step (Option α)) none c :=
  fun hc => ⟨_, c.pos, rfl, Nat.le_refl _, hc, rfl⟩

theorem some (v : α) : Finds i (Pure.pure (some v)) (some (v, i.ahead c)) c :=
  fun hc => ⟨_, c.pos, rfl, Nat.le_refl _, hc, rfl⟩

theorem congr (hm : c.pos < i.tokens.length → m c = m' c) (h : Finds i m' x c) :
    Finds i m x c := by
  intro hc
  rw [hm hc]
  exact h hc

theorem map (g : α → β) (h : Finds i m x c) :
    Finds i (do return (← m).map g) (x.map fun r => (g r.1, r.2)) c := by
  intro hc
  obtain ⟨v, k, hrun, hle, hlt, hx⟩ := h hc
  refine ⟨v.map g, k, run_bind hrun, hle, hlt, ?_⟩
  · rw [hx, Option.map_map, Option.map_map]
    rfl

end Finds

variable [i.Closed]

/-! ## Lists -/

theorem tracks_lifetimes {sep : TokenKind} {n : Nat} (hn : i.tokens.length - c.pos ≤ n) :
    Tracks i True (i.lifetimes sep) (Parse.lifetimes sep n) c := by
  induction n generalizing c with
  | zero => exact .inside fun hc => absurd hc (by omega)
  | succ n ih =>
      rw [Input.lifetimes, Parse.lifetimes]
      refine .check (.ite (fun hnext => ?_) fun _ => .same [])
      refine .take (ne_eof_of_isNext hnext) fun t c' _ hc' => ?_
      refine .accept (fun c'' _ hc'' => ?_) fun _ => .same _
      exact .andThen (ih (by omega)) fun v _ _ => .same _

theorem tracks_binder : Tracks i True (binder i) Parse.binder c := by
  unfold binder Parse.binder
  refine .expect fun _ c' _ => .expect fun _ c' _ => ?_
  refine .get_right (.andThen (tracks_lifetimes (Nat.le_of_eq ahead_length.symm))
    fun names c' _ => ?_)
  exact .expect fun _ c' _ => .same _

theorem tracks_binder? : Tracks i True (binder? i) Parse.binder? c := by
  unfold binder? Parse.binder?
  exact .check (.ite (fun _ => tracks_binder) fun _ => .same [])

theorem tracks_lifetime? : Tracks i True (lifetime? i) Parse.lifetime? c := by
  unfold lifetime? Parse.lifetime?
  refine .check (.ite (fun hnext => ?_) fun _ => .same _)
  exact .take (ne_eof_of_isNext hnext) fun _ _ _ _ => .same _

theorem tracks_pointerKind : Tracks i True (pointerKind i) Parse.pointerKind c := by
  unfold pointerKind Parse.pointerKind
  exact .accept (fun _ _ _ => .same _) fun _ => .expect fun _ _ _ => .same _

theorem tracks_tildeConst : Tracks i True (tildeConst i) Parse.tildeConst c := by
  unfold tildeConst Parse.tildeConst
  refine .accept (fun c' _ _ => ?_) fun _ => .same _
  exact .accept (fun _ _ _ => .same _) fun _ => .same _

theorem takeTwo {m : Step β} {p : Parser β} (hk : kindOf (i.ahead c) 0 ≠ .eof)
    (hk' : kindOf (i.ahead c) 1 ≠ .eof) (h : ∀ c', c'.pos = c.pos + 2 → Tracks i s m p c') :
    Tracks i s (take i >>= fun _ => take i >>= fun _ => m)
      (Parse.take >>= fun _ => Parse.take >>= fun _ => p) c := by
  refine .take hk fun _ c' _ hc' => .take ?_ fun _ c'' _ hc'' => h c'' (by omega)
  rwa [kindOf_next hc']

theorem tracks_argName : Tracks i True (argName i) Parse.argName c := by
  unfold argName Parse.argName
  refine .check
    (.check (.peekKind_right (.glance (P := (· == .colon)) (fun hname hcolon => ?_)
    (.same ()))))
  have hk : kindOf (i.ahead c) 0 ≠ .eof := by
    rcases Bool.or_eq_true_iff.mp hname with h | h <;> exact ne_eof_of_isNext h
  exact takeTwo hk (by rw [of_decide_eq_true hcolon]; decide) fun _ _ => .same ()

theorem tracks_turbofish : Tracks i True (turbofish i) Parse.turbofish c := by
  unfold turbofish Parse.turbofish
  refine .check (.peekKind_right (.glance (P := (· == .lt)) (fun hnext _ => ?_) (.same ())))
  exact .take (ne_eof_of_isNext hnext) fun _ _ _ _ => .same ()

/-! ## Lists -/

/-- A loop whose elements may come to nothing, as the rule for it has it. -/
theorem tracks_commaList {close : TokenKind} {loop : Step (List α)} {elem : Step (Option α)}
    {p : Parser α}
    (hloop : loop = do
      if ← done i close then return []
      let x ← elem
      if ← accept i .comma then return x.toList ++ (← loop)
      return x.toList)
    (helem : ∀ c', c.pos ≤ c'.pos → Tracks i s elem (some <$> p) c') :
    Tracks i s loop (Parse.commaList close p) c := by
  unfold Parse.commaList
  refine .get_right ?_
  generalize hn : (i.ahead c).length + 1 = n
  replace hn : i.tokens.length - c.pos < n := by rw [ahead_length] at hn; omega
  induction n generalizing c with
  | zero => exact absurd hn (Nat.not_lt_zero _)
  | succ n ih =>
      rw [hloop, Parse.commaLoop]
      refine .done (.same []) (fun hpan => .of_panicking hpan []) fun _ => ?_
      -- the parser as one whose elements may come to nothing, too
      have hgo := Tracks.bind (s := s) (f := fun x => do
          if ← accept i .comma then return x.toList ++ (← loop)
          return x.toList)
        (g := fun x => do
          if ← Parse.accept .comma then return x.toList ++ (← Parse.commaLoop close p n)
          return x.toList)
        (helem c (Nat.le_refl _)) fun v w c' hv hc' => ?_
      · rw [bind_map_left] at hgo
        exact hgo
      · refine .accept (fun c'' _ hc'' => ?_) fun _ => .pure fun hs => by rw [hv hs]
        refine .inside fun _ => .bind (ih (fun d hd => helem d (by omega)) (by omega)) ?_
        exact fun _ _ _ hvs _ => .pure fun hs => by rw [hv hs, hvs hs]

theorem tracks_list {close : TokenKind} {loop : Step (List α)} {m : Step α} {p : Parser α}
    (hloop : loop = do
      if ← done i close then return []
      let x ← m
      if ← accept i .comma then return x :: (← loop)
      return [x])
    (hm : ∀ c', c.pos ≤ c'.pos → Tracks i s m p c') :
    Tracks i s loop (Parse.commaList close p) c := by
  refine tracks_commaList ?_ fun c' hc' => .map some (hm c' hc')
  simp only [bind_map_left]
  exact hloop

theorem tracks_tupleRest {elem : Parser Ty} {n : Nat} (hn : i.tokens.length - c.pos < n)
    (helem : ∀ c', c.pos < c'.pos → Tracks i True i.ty elem c') :
    Tracks i True i.tupleRest (Parse.tupleRest elem n) c := by
  induction n generalizing c with
  | zero => exact absurd hn (Nat.not_lt_zero _)
  | succ n ih =>
      rw [Input.tupleRest, Parse.tupleRest]
      refine .accept (fun c' _ hc' => ?_) fun _ => .same []
      refine .check (.ite (fun _ => .same []) fun _ =>
        .inPanic (fun hpan => ?_) fun _ => ?_)
      · exact .of_panicking hpan []
      · refine .andThen (helem c' (by omega)) fun t c'' hc'' => ?_
        refine .inside fun _ => .andThen (ih (by omega) fun d hd => helem d (by omega))
          fun _ _ _ => ?_
        exact .same _

theorem tracks_segmentLoop {elem : Parser Segment} {n : Nat}
    (hn : i.tokens.length - c.pos < n)
    (helem : ∀ c', c.pos ≤ c'.pos → Tracks i True i.segment elem c') :
    Tracks i True i.segmentLoop (Parse.segmentLoop elem n) c := by
  induction n generalizing c with
  | zero => exact absurd hn (Nat.not_lt_zero _)
  | succ n ih =>
      rw [Input.segmentLoop, Parse.segmentLoop]
      refine .inPanic (fun hpan => .of_panicking hpan []) fun _ => ?_
      refine .andThen (helem c (Nat.le_refl _)) fun t c' hc' => ?_
      refine .check (.peekKind_right ?_)
      dsimp only
      refine .glance (P := isPathIdent) (fun hnext _ => ?_) (.same _)
      refine .take (ne_eof_of_isNext hnext) fun _ c'' _ hc'' => .inside fun _ => ?_
      exact .andThen (ih (by omega) fun d hd => helem d (by omega)) fun _ _ _ => .same _

theorem tracks_qualifiedLoop {elem : Parser Segment} {n : Nat}
    (hn : i.tokens.length - c.pos < n)
    (helem : ∀ c', c.pos < c'.pos → Tracks i True i.segment elem c') :
    Tracks i True i.qualifiedLoop (Parse.qualifiedLoop elem n) c := by
  induction n generalizing c with
  | zero => exact absurd hn (Nat.not_lt_zero _)
  | succ n ih =>
      rw [Input.qualifiedLoop, Parse.qualifiedLoop]
      refine .accept (fun c' _ hc' => ?_) fun _ => .same []
      refine .inPanic (fun hpan => .of_panicking hpan []) fun _ => ?_
      refine .andThen (helem c' (by omega)) fun t c'' hc'' => .inside fun _ => ?_
      exact .andThen (ih (by omega) fun d hd => helem d (by omega)) fun _ _ _ => .same _

theorem tracks_boundLoop {elem : Parser Bound}
    (helem : ∀ c', c.pos ≤ c'.pos → Tracks i True i.bound elem c') :
    Tracks i True i.boundLoop (Parse.boundList elem) c := by
  unfold Parse.boundList
  refine .get_right ?_
  generalize hn : (i.ahead c).length + 1 = n
  replace hn : i.tokens.length - c.pos < n := by rw [ahead_length] at hn; omega
  induction n generalizing c with
  | zero => exact absurd hn (Nat.not_lt_zero _)
  | succ n ih =>
      rw [Input.boundLoop, Parse.boundLoop]
      refine .inPanic (fun hpan => .of_panicking hpan []) fun _ => ?_
      refine .peek_left fun t ht => .peekKind_right ?_
      rw [kind_of_head ht]
      refine .ite (fun _ => .same []) fun _ => ?_
      refine .andThen (helem c (Nat.le_refl _)) fun b c' hc' => ?_
      refine .accept (fun c'' _ hc'' => .inside fun _ => ?_) fun _ => .same _
      exact .andThen (ih (fun d hd => helem d (by omega)) (by omega)) fun _ _ _ => .same _

theorem tracks_fnInputs {elem : Parser Ty} {n : Nat} (hn : i.tokens.length - c.pos < n)
    (helem : ∀ c', c.pos ≤ c'.pos → Tracks i True i.ty elem c') :
    Tracks i True i.fnInputs (Parse.fnInputs elem n) c := by
  induction n generalizing c with
  | zero => exact absurd hn (Nat.not_lt_zero _)
  | succ n ih =>
      rw [Input.fnInputs, Parse.fnInputs]
      refine .done (.same _) (fun hpan => .of_panicking hpan _) fun _ => ?_
      refine .accept (fun _ _ _ => .same _) fun _ => ?_
      refine .andThen tracks_argName fun _ c' hc' => ?_
      refine .andThen (helem c' hc') fun t c'' hc'' => ?_
      refine .accept (fun d _ hd => .inside fun _ => ?_) fun _ => .same _
      exact .andThen (ih (by omega) fun d hd => helem d (by omega)) fun _ _ _ => .same _

theorem tracks_output? {elem : Parser Ty}
    (helem : ∀ c', c.pos < c'.pos → Tracks i True i.ty elem c') :
    Tracks i True i.output? (Parse.output? elem) c := by
  rw [Input.output?, Parse.output?]
  refine .accept (fun c' _ hc' => ?_) fun _ => .same _
  exact .andThen (helem c' (by omega)) fun _ _ _ => .same _

theorem tracks_asTrait? {elem : Parser Path}
    (helem : ∀ c', c.pos ≤ c'.pos → Tracks i True i.path elem c') :
    Tracks i True i.asTrait? (Parse.asTrait? elem) c := by
  rw [Input.asTrait?, Parse.asTrait?]
  refine .accept (fun c' _ hc' => ?_) fun _ => .same _
  exact .andThen (helem c' (by omega)) fun _ _ _ => .same _

/-! ## The rules of the type grammar -/

theorem binder_andThen {f : List Text → Step β} {g : List Text → Parser β}
    (hnext : i.isNext c .forKw = true)
    (hf : ∀ names c', c.pos < c'.pos → Tracks i s (f names) (g names) c') :
    Tracks i s (binder i >>= f) (Parse.binder >>= g) c := by
  unfold binder Parse.binder
  simp only [bind_assoc, pure_bind]
  refine .expect_next hnext fun _ c' _ => .expect fun _ c'' _ => .get_right ?_
  refine .andThen (tracks_lifetimes (Nat.le_of_eq ahead_length.symm)) fun names d _ => ?_
  exact .expect fun _ d' _ => hf names d' (by omega)

theorem expect_ahead {b : Cursor} {k : TokenKind} {what : Text} {f : Token → Step β}
    {g : Token → Parser β} (h : b.pos < c.pos ∨ c = b ∧ i.isNext b k = true)
    (hf : ∀ t c', b.pos < c'.pos → Tracks i s (f t) (g t) c') :
    Tracks i s (expect i k what >>= f) (Parse.expect k what >>= g) c := by
  rcases h with hlt | ⟨rfl, hnext⟩
  · exact .expect fun t c' hc' => hf t c' (by omega)
  · exact .expect_next hnext fun t c' hc' => hf t c' (by omega)

theorem accept_andThen {k : TokenKind} {f : Bool → Step β} {g : Bool → Parser β}
    (hf : ∀ b c', Passed i k c c' → Tracks i s (f b) (g b) c') :
    Tracks i s (accept i k >>= f) (Parse.accept k >>= g) c :=
  .accept (fun c' _ hc' => hf true c' (.inl (by omega))) fun h => hf false c (.inr ⟨rfl, h⟩)

theorem abi?_andThen {f : Option Text → Step β} {g : Option Text → Parser β}
    (hf : ∀ abi c', Passed i .externKw c c' → Tracks i s (f abi) (g abi) c') :
    Tracks i s (abi? i >>= f) (Parse.abi? >>= g) c := by
  unfold abi? Parse.abi?
  simp only [bind_assoc]
  refine .accept (fun c' _ hc' => ?_) fun hnext => hf none c (.inr ⟨rfl, hnext⟩)
  simp only [if_true, bind_assoc]
  refine .check ?_
  cases hstr : i.isNext c' .str with
  | false => exact hf _ c' (.inl (by omega))
  | true =>
      simp only [if_true, bind_assoc]
      exact .take (ne_eof_of_isNext hstr) fun t c'' _ hc'' => hf _ c'' (.inl (by omega))

theorem tracks_fnType {elem : Parser Ty} {names : List Text} {pos : Position}
    (hstart : startsFn (kindOf (i.ahead c) 0) = true)
    (helem : ∀ c', c.pos < c'.pos → Tracks i True i.ty elem c') :
    Tracks i True (i.fnType names pos) (Parse.fnType elem names pos) c := by
  rw [Input.fnType, Parse.fnType]
  refine accept_andThen fun isUnsafe c' hc' => abi?_andThen fun abi c'' hc'' => ?_
  have hfn : c.pos < c''.pos ∨ c'' = c ∧ i.isNext c .fnKw = true := by
    rcases hc' with hlt | ⟨rfl, hsafe⟩
    · rcases hc'' with hlt' | ⟨rfl, -⟩
      · exact .inl (by omega)
      · exact .inl hlt
    · rcases hc'' with hlt' | ⟨rfl, habi⟩
      · exact .inl hlt'
      · exact .inr ⟨rfl, isNext_fn hstart hsafe habi⟩
  refine expect_ahead hfn fun _ d hd => .expect fun _ d' hd' => .get_right ?_
  refine .andThen (tracks_fnInputs (by rw [ahead_length]; omega) ?_) ?_
  · exact fun e he => helem e (by omega)
  · rintro ⟨inputs, variadic⟩ e he
    refine .expect fun _ e' he' => ?_
    exact .andThen (tracks_output? fun e'' he'' => helem e'' (by omega))
      fun _ _ _ => .same _

/-- The rules follow those that have a budget for what is ahead: eight calls for each
token, and as many as a rule makes before it takes one. -/
structure Grammar (i : Input) (f : Nat) : Prop where
  ty : ∀ c, 8 * (i.tokens.length - c.pos) + 4 ≤ f →
    Tracks i True i.ty (Parse.ty i.source f) c
  reference : ∀ c pos, 8 * (i.tokens.length - c.pos) ≤ f → kindOf (i.ahead c) 0 ≠ .eof →
    Tracks i True (i.reference pos) (Parse.reference i.source f pos) c
  pathOrMacro : ∀ c pos, 8 * (i.tokens.length - c.pos) + 3 ≤ f →
    Tracks i True (i.pathOrMacro pos) (Parse.pathOrMacro i.source f pos) c
  path : ∀ c, 8 * (i.tokens.length - c.pos) + 2 ≤ f →
    Tracks i True i.path (Parse.path i.source f) c
  segment : ∀ c, 8 * (i.tokens.length - c.pos) + 1 ≤ f →
    Tracks i True i.segment (Parse.segment i.source f) c
  genericArg : ∀ c, 8 * (i.tokens.length - c.pos) + 5 ≤ f →
    Tracks i True i.genericArg (Parse.genericArg i.source f) c
  bound : ∀ c, 8 * (i.tokens.length - c.pos) + 3 ≤ f →
    Tracks i True i.bound (Parse.bound i.source f) c

namespace Grammar

variable {f : Nat} {pos : Position}

theorem reference_succ (h : Grammar i f) (hf : 8 * (i.tokens.length - c.pos) ≤ f + 1)
    (hk : kindOf (i.ahead c) 0 ≠ .eof) :
    Tracks i True (i.reference pos) (Parse.reference i.source (f + 1) pos) c := by
  rw [Input.reference, Parse.reference]
  refine .inside fun hc => .take hk fun _ c' _ hc' => ?_
  refine .andThen tracks_lifetime? fun lifetime c'' hc'' => ?_
  refine accept_andThen fun isMut d hd => ?_
  have hd := hd.le
  exact .andThen (h.ty d (by omega)) fun _ _ _ => .same _

theorem pathOrMacro_succ (h : Grammar i f)
    (hf : 8 * (i.tokens.length - c.pos) + 3 ≤ f + 1) :
    Tracks i True (i.pathOrMacro pos)
    (Parse.pathOrMacro i.source (f + 1) pos) c := by
  rw [Input.pathOrMacro, Parse.pathOrMacro]
  refine .get_left (.get_right (.andThen (h.path c (by omega)) fun p c' hc' => ?_))
  refine .accept (fun c'' _ hc'' => ?_) fun _ => .same _
  refine .andThen (tracks_skipGroup 0) fun _ d hd => ?_
  exact .andThen (tracks_textSince (by omega)) fun _ _ _ => .same _

theorem path_succ (h : Grammar i f) (hf : 8 * (i.tokens.length - c.pos) + 2 ≤ f + 1) :
    Tracks i True i.path (Parse.path i.source (f + 1)) c := by
  rw [Input.path, Parse.path]
  refine .peek fun t _ => accept_andThen fun isGlobal c' hc' => .get_right ?_
  have hc' := hc'.le
  refine .andThen (tracks_segmentLoop (by rw [ahead_length]; omega) fun d hd => ?_)
    fun _ _ _ => .same _
  exact h.segment d (by omega)

theorem segment_succ (h : Grammar i f) (hf : 8 * (i.tokens.length - c.pos) + 1 ≤ f + 1) :
    Tracks i True i.segment (Parse.segment i.source (f + 1)) c := by
  rw [Input.segment, Parse.segment]
  refine .inside fun hc => .peek fun t ht => .ite (fun _ => .fail ht _) fun hident => ?_
  have hk : kindOf (i.ahead c) 0 ≠ .eof := by
    rw [← kind_of_head ht]
    rintro heof
    rw [heof] at hident
    cases hident
  refine .take hk fun _ c' _ hc' => .andThen tracks_turbofish fun _ c'' hc'' => ?_
  refine .accept (fun d _ hd => ?_) fun _ => .accept (fun d _ hd => ?_) fun _ => .same _
  · refine .andThen (tracks_list (Input.genericArgs.eq_1 i) fun e he =>
      h.genericArg e (by omega)) fun args d' _ => ?_
    exact .expect fun _ _ _ => .same _
  · refine .andThen (tracks_list (Input.segmentInputs.eq_1 i) fun e he => h.ty e (by omega))
      fun inputs d' hd' => ?_
    refine .expect fun _ e he => ?_
    exact .andThen (tracks_output? fun e' he' => h.ty e' (by omega)) fun _ _ _ => .same _

theorem genericArg_succ (h : Grammar i f) (hf : 8 * (i.tokens.length - c.pos) + 5 ≤ f + 1) :
    Tracks i True i.genericArg (Parse.genericArg i.source (f + 1)) c := by
  rw [Input.genericArg, Parse.genericArg]
  have hty : Tracks i True (do return GenericArg.ty (← i.ty))
      (do return GenericArg.ty (← Parse.ty i.source f)) c :=
    .andThen (h.ty c (by omega)) fun _ _ _ => .same _
  refine .inside fun hc => .peek fun t ht => ?_
  have hkind := kind_of_head ht
  dsimp only
  refine .ite (fun hlife => ?_) fun _ => .ite (fun _ => ?_) fun _ =>
    .ite (fun hident => ?_) fun _ => hty
  · have hk : kindOf (i.ahead c) 0 = .lifetime := hkind ▸ of_decide_eq_true hlife
    exact .take (by rw [hk]; decide) fun _ _ _ _ => .same _
  · exact .andThen (tracks_capture false _) fun _ _ _ => .same _
  · have hk : kindOf (i.ahead c) 0 = .ident := hkind ▸ of_decide_eq_true hident
    have hne : kindOf (i.ahead c) 0 ≠ .eof := by rw [hk]; decide
    refine .peekAt_left fun u hu => .peekKind_right ?_
    rw [hu]
    refine .ite (fun hnext => ?_) fun _ => .ite (fun hnext => ?_) fun _ => hty
    · refine takeTwo hne (by rw [of_decide_eq_true hnext]; decide) fun c' hc' => ?_
      exact .andThen (h.ty c' (by omega)) fun _ _ _ => .same _
    · refine takeTwo hne (by rw [of_decide_eq_true hnext]; decide) fun c' hc' => ?_
      refine .andThen (tracks_boundLoop fun d hd => h.bound d (by omega))
        fun _ _ _ => .same _

theorem bound_succ (h : Grammar i f) (hf : 8 * (i.tokens.length - c.pos) + 3 ≤ f + 1) :
    Tracks i True i.bound (Parse.bound i.source (f + 1)) c := by
  rw [Input.bound, Parse.bound]
  refine .inside fun hc => .check (.ite (fun hnext => ?_) fun _ => ?_)
  · exact .take (ne_eof_of_isNext hnext) fun _ _ _ _ => .same _
  · refine .accept (fun c' _ hc' => ?_) fun _ => ?_
    · refine .andThen (h.bound c' (by omega)) fun b _ _ => ?_
      exact .expect fun _ _ _ => .same _
    · refine .andThen tracks_binder? fun names c' hc' => ?_
      refine .andThen tracks_tildeConst fun _ c'' hc'' =>
        accept_andThen fun maybe d hd => ?_
      have hd := hd.le
      exact .andThen (h.path d (by omega)) fun _ _ _ => .same _

theorem tuple_succ (h : Grammar i f) (hf : 8 * (i.tokens.length - c.pos) + 4 ≤ f + 1)
    (hk : kindOf (i.ahead c) 0 ≠ .eof) :
    Tracks i True (i.tupleOrParen pos) (do
      let _ ← Parse.take
      if ← Parse.accept .rparen then return .tuple pos []
      let first ← Parse.ty i.source f
      if ← Parse.accept .rparen then return .paren pos first
      let rest ← Parse.tupleRest (Parse.ty i.source f) ((← get).length + 1)
      let _ ← Parse.expect .rparen "')' after tuple type"
      return .tuple pos (first :: rest)) c := by
  rw [Input.tupleOrParen]
  refine .inside fun hc => .take hk fun _ c' _ hc' => ?_
  refine .accept (fun _ _ _ => .same _) fun _ =>
    .andThen (h.ty c' (by omega)) fun first d hd => ?_
  refine .accept (fun _ _ _ => .same _) fun _ => .get_right ?_
  refine .andThen (tracks_tupleRest (by rw [ahead_length]; omega) ?_) fun _ _ _ => ?_
  · exact fun e he => h.ty e (by omega)
  · exact .expect fun _ _ _ => .same _

theorem array_succ (h : Grammar i f) (hf : 8 * (i.tokens.length - c.pos) + 4 ≤ f + 1)
    (hk : kindOf (i.ahead c) 0 ≠ .eof) :
    Tracks i True (i.arrayOrSlice pos) (do
      let _ ← Parse.take
      let elem ← Parse.ty i.source f
      if ← Parse.accept .semicolon then
        let len ← Parse.capture i.source false [.rbracket]
        let _ ← Parse.expect .rbracket "']' after array length"
        return .array pos elem len
      let _ ← Parse.expect .rbracket "']' after slice type"
      return .slice pos elem) c := by
  rw [Input.arrayOrSlice]
  refine .inside fun hc => .take hk fun _ c' _ hc' => ?_
  refine .andThen (h.ty c' (by omega)) fun elem d hd => ?_
  refine .accept (fun _ _ _ => ?_) fun _ => .expect fun _ _ _ => .same _
  refine .andThen (tracks_capture false _) fun len _ _ => ?_
  exact .expect fun _ _ _ => .same _

theorem qualified_succ (h : Grammar i f) (hf : 8 * (i.tokens.length - c.pos) + 4 ≤ f + 1)
    (hk : kindOf (i.ahead c) 0 ≠ .eof) :
    Tracks i True (i.qualified pos) (do
      let _ ← Parse.take
      let self ← Parse.ty i.source f
      let trait ← Parse.asTrait? (Parse.path i.source f)
      let _ ← Parse.expect .gt "'>' to close qualified path"
      let segments ← Parse.qualifiedLoop (Parse.segment i.source f) ((← get).length + 1)
      if segments.isEmpty then Parse.failHere (.expected "'::' after qualified path")
      else return .path ⟨some ⟨self, trait⟩, false, segments, pos⟩) c := by
  rw [Input.qualified]
  refine .inside fun hc => .take hk fun _ c' _ hc' => ?_
  refine .andThen (h.ty c' (by omega)) fun self d hd => ?_
  refine .andThen (tracks_asTrait? fun e he => h.path e (by omega)) fun trait d' hd' => ?_
  refine .expect fun _ e he => .get_right ?_
  refine .andThen (tracks_qualifiedLoop (by rw [ahead_length]; omega) ?_)
    fun segments _ _ => ?_
  · exact fun e' he' => h.segment e' (by omega)
  · exact .ite (fun _ => .failHere _) fun _ => .same _

theorem ty_succ (h : Grammar i f) (hf : 8 * (i.tokens.length - c.pos) + 4 ≤ f + 1) :
    Tracks i True i.ty (Parse.ty i.source (f + 1)) c := by
  have hbounds (c' : Cursor) (hc' : c.pos ≤ c'.pos) :
      Tracks i True i.boundLoop (Parse.boundList (Parse.bound i.source f)) c' :=
    tracks_boundLoop fun d hd => h.bound d (by omega)
  rw [Input.ty, Parse.ty]
  refine .inside fun hc => .peek fun t ht => ?_
  have hkind := kind_of_head ht
  have hpath (pos : Position) : Tracks i True (i.pathOrMacro pos)
      (Parse.pathOrMacro i.source f pos) c :=
    h.pathOrMacro c pos (by omega)
  dsimp only
  generalize hk : t.kind = k
  split
  case h_1 =>
    exact h.tuple_succ hf (ne_eof_of_head ht hk (by decide))
  case h_2 =>
    exact h.array_succ hf (ne_eof_of_head ht hk (by decide))
  case h_3 =>
    exact h.reference c _ (by omega) (ne_eof_of_head ht hk (by decide))
  case h_4 =>
    exact .andThen (h.reference c _ (by omega) (ne_eof_of_head ht hk (by decide)))
      fun _ _ _ => .same _
  case h_5 =>
    refine .take (ne_eof_of_head ht hk (by decide)) fun _ c' _ hc' => ?_
    refine .andThen tracks_pointerKind fun isMut d hd => ?_
    exact .andThen (h.ty d (by omega)) fun _ _ _ => .same _
  case h_6 =>
    exact .take (ne_eof_of_head ht hk (by decide)) fun _ _ _ _ => .same _
  case h_7 =>
    refine binder_andThen ?_ fun names c' hc' => .peek_left fun u hu => .peekKind_right ?_
    · rw [Input.isNext, ← hkind, hk]
      rfl
    rw [kind_of_head hu]
    refine .ite (fun hstart => ?_) fun _ => ?_
    · exact tracks_fnType hstart fun d hd => h.ty d (by omega)
    · exact .andThen (hbounds c' (by omega)) fun _ _ _ => .same _
  case h_8 =>
    refine .take (ne_eof_of_head ht hk (by decide)) fun _ c' _ hc' => ?_
    exact .andThen (hbounds c' (by omega)) fun _ _ _ => .same _
  case h_9 =>
    refine .take (ne_eof_of_head ht hk (by decide)) fun _ c' _ hc' => ?_
    exact .andThen (hbounds c' (by omega)) fun _ _ _ => .same _
  case h_10 =>
    exact h.qualified_succ hf (ne_eof_of_head ht hk (by decide))
  case h_11 =>
    refine .ite (fun _ => ?_) fun _ => hpath t.pos
    exact .take (ne_eof_of_head ht hk (by decide)) fun _ _ _ _ => .same _
  case h_12 =>
    exact hpath t.pos
  case h_13 =>
    refine .congr_right (q := if startsFn k then
      Parse.fnType (Parse.ty i.source f) [] t.pos
      else if isPathIdent k then Parse.pathOrMacro i.source f t.pos
      else Parse.failHere (.expectedFound "type")) (congrFun ?_ _) ?_
    · split <;> first | contradiction | rfl
    · refine .ite (fun hstart => ?_) fun _ =>
        .ite (fun _ => hpath t.pos) fun _ => .fail ht _
      rw [← hk, hkind] at hstart
      exact tracks_fnType hstart fun d hd => h.ty d (by omega)

end Grammar

theorem grammar (i : Input) [i.Closed] (f : Nat) : Grammar i f := by
  induction f with
  | zero =>
      refine ⟨?_, ?_, ?_, ?_, ?_, ?_, ?_⟩
      case refine_2 => exact fun c pos hf _ => .inside fun hc => absurd hc (by omega)
      all_goals intros; omega
  | succ f h =>
      exact ⟨fun _ => h.ty_succ, fun _ _ => h.reference_succ, fun _ _ => h.pathOrMacro_succ,
        fun _ => h.path_succ, fun _ => h.segment_succ, fun _ => h.genericArg_succ,
        fun _ => h.bound_succ⟩

theorem tracks_ty : Tracks i True i.ty (Parse.wholeTy i.source) c := by
  unfold Parse.wholeTy
  exact .get_right ((grammar i _).ty c
    (by rw [ahead_length.symm]; unfold Parse.budget; omega))

theorem tracks_bounds : Tracks i True i.boundLoop (Parse.bounds i.source) c := by
  unfold Parse.bounds
  refine .get_right (tracks_boundLoop fun c' hc' => (grammar i _).bound c' ?_)
  have := ahead_length (i := i) (c := c)
  unfold Parse.budget
  omega

/-! ## Attributes -/

open Parse (startsMetaPath endsMeta isLiteral litOf)

namespace Finds

variable {m : Step (Option α)} {x : Option (α × List Token)}

theorem take (hk : kindOf (i.ahead c) 0 ≠ .eof)
    (h : Finds i m x { c with pos := c.pos + 1 }) :
    Finds i (Cursor.take i >>= fun _ => m) x c := by
  intro hc
  obtain ⟨v, k, hrun, hle, hlt, hx⟩ := h (next_lt hk)
  exact ⟨v, k, (take_bind hc hk).trans hrun, Nat.le_of_succ_le hle, hlt, hx⟩

end Finds

theorem finds_metaSegments {n : Nat} (hn : i.tokens.length - c.pos ≤ n) :
    Finds i i.metaSegments (Parse.metaSegments? n (i.ahead c)) c := by
  induction n generalizing c with
  | zero => exact fun hc => absurd hc (by omega)
  | succ n ih =>
      rw [Input.metaSegments, Parse.metaSegments?]
      intro hc
      have hts := ahead_eq_cons hc
      refine Finds.congr (fun _ => (reads_peek hc).bind) ?_ hc
      dsimp only
      rw [show (i.ahead c).headD Token.none = i.tokens[c.pos] by rw [hts]; rfl]
      split
      · exact .none
      next hstart =>
      have hk : kindOf (i.ahead c) 0 ≠ .eof := by
        rw [hts]
        rintro heof
        rw [show i.tokens[c.pos].kind = .eof from heof] at hstart
        exact hstart rfl
      rw [behind_ahead hc hk]
      refine .take hk (.congr (fun hc' => (reads_check hc' _).bind) ?_)
      generalize hd : ({ c with pos := c.pos + 1 } : Cursor) = d
      have hpos : d.pos = c.pos + 1 := by rw [← hd]
      rw [← hpos]
      change Finds i _
        (if (i.isNext d .doubleColon && startsMetaPath (kindOf (i.ahead d) 1) &&
        kindOf (i.ahead d) 1 != .doubleColon) = true then Option.map _
          (Parse.metaSegments? n (Parse.behind (i.ahead d))) else
            Option.some (_, i.ahead d)) d
      cases hcolon : i.isNext d .doubleColon with
      | false => exact .some _
      | true =>
          intro hc'
          obtain ⟨u, hu, hread⟩ := reads_peekAt hc' 1
          refine Finds.congr (fun _ => hread.bind) ?_ hc'
          rw [hu, Bool.true_and]
          split
          · rw [behind_ahead hc' (ne_eof_of_isNext hcolon)]
            have hfuel : i.tokens.length - (d.pos + 1) ≤ n := by omega
            exact .take (ne_eof_of_isNext hcolon) (.map _ (ih hfuel))
          · exact .some _

theorem finds_metaPath : Finds i (metaPath i) (Parse.metaPath? (i.ahead c)) c := by
  unfold metaPath accept Parse.metaPath?
  rw [bind_assoc]
  intro hc
  refine Finds.congr (fun _ => (reads_check hc _).bind) ?_ hc
  change Finds i _ (if i.isNext c .doubleColon = true then _ else _) c
  cases hcolon : i.isNext c .doubleColon with
  | false => exact finds_metaSegments (Nat.le_of_eq ahead_length.symm)
  | true =>
      have hk := ne_eof_of_isNext hcolon
      simp only [if_true, bind_assoc, pure_bind]
      rw [behind_ahead hc hk]
      refine .take hk (.map _ (finds_metaSegments ?_))
      rw [ahead_length]
      exact Nat.sub_le_sub_left (Nat.le_succ _) _

namespace Tracks

/-- An attribute path is read: the step goes on behind it, or from some place further ahead
if there is none. -/
theorem metaPath {f : Option Text → Step β} {p : Parser β}
    (hnone : Parse.metaPath? (i.ahead c) = none →
      ∀ k, Tracks i s (modify (fun d => { d with pos := k }) >>= fun _ => f none) p c)
    (hsome : ∀ path k, Parse.metaPath? (i.ahead c) = some (path, i.tokens.drop k) →
      c.pos ≤ k → k < i.tokens.length →
        Tracks i s (modify (fun d => { d with pos := k }) >>= fun _ => f (some path)) p c) :
    Tracks i s (Cursor.metaPath i >>= f) p c := by
  refine .inside fun hc => ?_
  obtain ⟨v, k, hrun, hle, hlt, hx⟩ := finds_metaPath hc
  have hbind : (Cursor.metaPath i >>= f) c = f v { c with pos := k } := run_bind hrun
  cases v with
  | none => exact .congr (fun _ => hbind) (hnone hx k)
  | some path => exact .congr (fun _ => hbind) (hsome path k hx hle hlt)

end Tracks

theorem metaItem_succ {f : Nat} (ih : ∀ c, 8 * (i.tokens.length - c.pos) + 1 ≤ f →
      Tracks i True i.metaItem (Parse.metaItem i.source f) c)
    (hf : 8 * (i.tokens.length - c.pos) + 1 ≤ f + 1) :
    Tracks i True i.metaItem (Parse.metaItem i.source (f + 1)) c := by
  have hother (pos : Position) : Tracks i True
      (do return Meta.other pos [] (← capture i true [.comma]))
      (Parse.metaOther i.source pos) c :=
    .andThen (tracks_capture true _) fun _ _ _ => .same _
  rw [Input.metaItem, Parse.metaItem]
  refine .inside fun hc => .get_left (.peek fun t ht => ?_)
  have hkind := kind_of_head ht
  dsimp only
  refine .ite (fun hlit => ?_) fun _ => .get_right ?_
  · refine .take ?_ fun _ _ _ _ => .same _
    rintro heof
    rw [hkind, heof] at hlit
    cases hlit
  cases hstart : startsMetaPath t.kind with
  | false => exact hother t.pos
  | true =>
      simp only [Bool.not_true, Bool.false_eq_true, if_false, if_true]
      refine .metaPath (fun hnone k => ?_) fun path k hpath hle hlt => ?_
      · rw [hnone]
        exact hother t.pos
      · rw [hpath]
        dsimp only
        have hpos : ({ c with pos := k } : Cursor).pos = k := rfl
        cases hparen : i.isNext { c with pos := k } .lparen with
        | true =>
            rw [show (kindOf (i.tokens.drop k) 0 == .lparen) = true from hparen, if_pos rfl]
            refine .goTo_take hle hlt (.accept_next hparen ?_)
            refine .take (ne_eof_of_isNext hparen) fun _ c' _ hc' => ?_
            refine .andThen
              (tracks_list (Input.metaItems.eq_1 i) fun d hd => ih d (by omega))
              fun items d hd => ?_
            refine .expect fun _ e he => ?_
            exact .andThen (tracks_textSince (by omega)) fun _ _ _ => .same _
        | false =>
        rw [show (kindOf (i.tokens.drop k) 0 == .lparen) = false from hparen,
          if_neg (by decide)]
        cases hequals : i.isNext { c with pos := k } .equals with
        | true =>
            rw [show (kindOf (i.tokens.drop k) 0 == .equals) = true
              from hequals, if_pos rfl]
            refine .goTo_take hle hlt (.accept_none hparen (.accept_next hequals ?_))
            refine .take (ne_eof_of_isNext hequals) fun _ c' _ hc' => .peek fun u hu => ?_
            refine .peekKind_right (.glance (P := endsMeta) (fun hvalue _ => ?_) ?_)
            · refine .take ?_ fun _ d _ hd => ?_
              · rintro heof
                rw [kind_of_head hu, heof] at hvalue
                cases hvalue
              · exact .andThen (tracks_textSince (by omega)) fun _ _ _ => .same _
            · refine .andThen (tracks_capture true _) fun _ d hd => ?_
              exact .andThen (tracks_textSince (by omega)) fun _ _ _ => .same _
        | false =>
        rw [show (kindOf (i.tokens.drop k) 0 == .equals) = false from hequals,
          if_neg (by decide)]
        cases hends : endsMeta (kindOf (i.tokens.drop k) 0) with
        | true =>
            refine .goTo hle hlt (.accept_none hparen (.accept_none hequals ?_))
            refine .peek_left fun u hu => ?_
            rw [show endsMeta u.kind = true by rw [kind_of_head hu]; exact hends]
            exact .same _
        | false =>
            refine .congr (fun _ => ?_) (hother t.pos)
            have hgo {m : Step Meta} : (modify (fun d => { d with pos := k }) >>=
              fun _ => m) c =
              m { c with pos := k } := rfl
            have hu : kindOf (i.tokens.drop k) 0 = i.tokens[k].kind := by
              rw [List.drop_eq_getElem_cons hlt]
              rfl
            rw [hgo, (reads_accept hlt hparen).bind, if_neg (by decide),
              (reads_accept hlt hequals).bind, if_neg (by decide),
              (reads_peek (c := { c with pos := k }) hlt).bind]
            simp only [← hu, hends]
            rfl

theorem tracks_metaItem : Tracks i True i.metaItem (Parse.wholeMeta i.source) c := by
  have hrule (f : Nat) (c : Cursor) (hf : 8 * (i.tokens.length - c.pos) + 1 ≤ f) :
      Tracks i True i.metaItem (Parse.metaItem i.source f) c := by
    induction f generalizing c with
    | zero => omega
    | succ f ih => exact metaItem_succ (fun c => ih c) hf
  unfold Parse.wholeMeta
  refine .get_right (hrule _ c ?_)
  have := ahead_length (i := i) (c := c)
  unfold Parse.budget
  omega

/-- The argument in `unsafe(...)` as the parser has it, and what the parser does with it. -/
theorem unsafeArg?_andThen {γ : Type} {f : Option Meta → Step β} {q : Meta → Parser γ}
    {p : Parser γ} {g : γ → Parser β}
    (hyes : ∀ arg c', c.pos ≤ c'.pos → Tracks i s (f (some arg)) (q arg >>= g) c')
    (hno : Tracks i s (f none) (p >>= g) c) :
    Tracks i s (unsafeArg? i >>= f) (do
      let isUnsafe ← Parse.check .unsafeKw
      let next ← Parse.peekKind 1
      (if (isUnsafe && next == .lparen) = true then do
        let _ ← Parse.take
        let _ ← Parse.take
        let arg ← Parse.wholeMeta i.source
        let _ ← Parse.expect .rparen "')' after unsafe attribute"
        let _ ← Parse.expect .rbracket "']' to close attribute"
        q arg
      else p) >>= g) c := by
  unfold unsafeArg?
  simp only [bind_assoc]
  refine .check (.peekKind_right ?_)
  cases hnext : i.isNext c .unsafeKw with
  | false => exact hno
  | true =>
      simp only [if_true, Bool.true_and, bind_assoc]
      refine .peekAt_left fun t ht => ?_
      rw [ht]
      cases hparen : kindOf (i.ahead c) 1 == .lparen with
      | false => exact hno
      | true =>
          simp only [if_true, bind_assoc, pure_bind]
          refine takeTwo (ne_eof_of_isNext hnext)
            (by rw [of_decide_eq_true hparen]; decide) ?_
          refine fun c' hc' => .andThen tracks_metaItem fun arg d hd => ?_
          exact .expect fun _ e he => .expect fun _ e' he' => hyes arg e' (by omega)

theorem oneAttribute_andThen {f : Option Attribute → Step β}
    {g : Option Attribute → Parser β} (hnext : i.isNext c .hash = true)
    (hf : ∀ a c', c.pos < c'.pos → Tracks i s (f a) (g a) c') :
    Tracks i s (oneAttribute i >>= f)
      (Parse.oneAttribute i.source >>= fun a => g (some a)) c := by
  unfold oneAttribute Parse.oneAttribute
  simp only [bind_assoc]
  refine .take (ne_eof_of_isNext hnext) fun hash c' _ hc' => .expect fun _ d hd => ?_
  refine .inPanic (fun hpan => .swap hpan (hf none d (by omega))) fun _ => ?_
  simp only [Bool.false_eq_true, if_false, bind_assoc]
  refine .get_left (unsafeArg?_andThen (fun arg e he => hf _ e (by omega)) ?_)
  simp only [bind_assoc]
  refine .get_right (.andThen tracks_metaItem fun arg e he => ?_)
  refine .andThen (tracks_textSince he) fun raw e' he' => .expect fun _ d' hd' => ?_
  refine .inPanic (fun hpan => .swap hpan (hf none d' (by omega))) fun _ => ?_
  exact hf _ d' (by omega)

theorem tracks_attributes : Tracks i True i.attributes (Parse.attributes i.source) c := by
  unfold Parse.attributes
  refine .get_right ?_
  generalize hn : (i.ahead c).length = n
  replace hn : i.tokens.length - c.pos ≤ n := by rw [ahead_length] at hn; omega
  induction n generalizing c with
  | zero => exact .inside fun hc => absurd hc (by omega)
  | succ n ih =>
      rw [Input.attributes, Parse.attributeLoop]
      refine .check (.ite (fun hnext => ?_) fun _ => .same [])
      refine .inPanic (fun hpan => .of_panicking hpan []) fun _ => ?_
      refine .peekAt_left fun t ht => .peekKind_right ?_
      rw [ht]
      refine .ite (fun hbang => ?_) fun _ => ?_
      · refine takeTwo (ne_eof_of_isNext hnext) (by rw [of_decide_eq_true hbang]; decide) ?_
        exact fun c' hc' => .andThen (tracks_skipGroup 0) fun _ d hd => ih (by omega)
      · refine oneAttribute_andThen (g := fun a => do
          return a.toList ++ (← Parse.attributeLoop i.source n)) hnext fun a c' hc' => ?_
        exact .andThen (ih (by omega)) fun _ _ _ => .same _

/-! ## Generics -/

theorem tracks_outlived : Tracks i True (outlived i) Parse.outlived c := by
  unfold outlived Parse.outlived
  refine .accept (fun c' _ _ => .get_right ?_) fun _ => .same _
  exact tracks_lifetimes (Nat.le_of_eq ahead_length.symm)

theorem tracks_bounded : Tracks i True (bounded i) (Parse.bounded i.source) c := by
  unfold bounded Parse.bounded
  exact .accept (fun _ _ _ => tracks_bounds) fun _ => .same _

theorem tracks_defaultTy : Tracks i True (defaultTy i) (Parse.defaultTy i.source) c := by
  unfold defaultTy Parse.defaultTy
  refine .accept (fun _ _ _ => ?_) fun _ => .same _
  rw [map_eq_pure_bind]
  exact .andThen tracks_ty fun _ _ _ => .same _

theorem tracks_defaultConst :
    Tracks i True (defaultConst i) (Parse.defaultConst i.source) c := by
  unfold defaultConst Parse.defaultConst
  exact .accept (fun _ _ _ => tracks_capture false _) fun _ => .same _

theorem tracks_genericParam :
    Tracks i True (genericParam i) (some <$> Parse.genericParam i.source) c := by
  unfold genericParam Parse.genericParam
  rw [map_bind]
  refine .peek fun t ht => ?_
  generalize hk : t.kind = k
  split
  case h_1 =>
    simp only [map_bind, map_pure]
    refine .take (ne_eof_of_head ht hk (by decide)) fun _ _ _ _ =>
      .andThen tracks_outlived fun _ _ _ => .same _
  case h_2 =>
    simp only [map_bind, map_pure]
    refine .take (ne_eof_of_head ht hk (by decide)) fun _ _ _ _ => .expect fun _ _ _ =>
      .expect fun _ _ _ => ?_
    exact .andThen tracks_ty fun _ _ _ => .andThen tracks_defaultConst fun _ _ _ => .same _
  case h_3 =>
    simp only [map_bind, map_pure]
    refine .take (ne_eof_of_head ht hk (by decide)) fun _ _ _ _ =>
      .andThen tracks_bounded fun _ _ _ => ?_
    exact .andThen tracks_defaultTy fun _ _ _ => .same _
  case h_4 =>
    refine .congr_right (q := Parse.failHere (.expectedFound "generic parameter"))
      ?_ (.fail ht _)
    cases k <;> first | contradiction | rfl

theorem tracks_genericParams :
    Tracks i True (genericParams i) (Parse.genericParams i.source) c := by
  unfold genericParams Parse.genericParams
  refine .accept (fun c' _ _ => ?_) fun _ => .same _
  refine .andThen (tracks_commaList (Input.commaLoop.eq_1 ..) fun d _ => ?_) fun _ _ _ => ?_
  · rw [map_bind]
    exact .andThen tracks_attributes fun _ _ _ => tracks_genericParam
  · exact .expect fun _ _ _ => .same _

theorem tracks_wherePredicate :
    Tracks i True (wherePredicate i) (Parse.wherePredicate i.source) c := by
  unfold wherePredicate Parse.wherePredicate
  refine .andThen tracks_binder? fun names c' _ =>
    .check (.ite (fun hnext => ?_) fun _ => ?_)
  · refine .take (ne_eof_of_isNext hnext) fun _ _ _ _ => .expect fun _ d _ => .get_right ?_
    refine .andThen (tracks_lifetimes (Nat.le_of_eq ahead_length.symm)) fun _ _ _ => .same _
  · refine .andThen tracks_ty fun _ _ _ => .expect fun _ _ _ => ?_
    exact .andThen tracks_bounds fun _ _ _ => .same _

theorem tracks_whereLoop {n : Nat} (hn : i.tokens.length - c.pos < n) :
    Tracks i True i.whereLoop (Parse.whereLoop i.source n) c := by
  induction n generalizing c with
  | zero => exact absurd hn (Nat.not_lt_zero _)
  | succ n ih =>
      rw [Input.whereLoop, Parse.whereLoop]
      refine .check ?_
      cases i.isNext c .lbrace with
      | true => exact .check_right (.atEnd_right (.same []))
      | false =>
          simp only [Bool.false_eq_true, if_false, Bool.false_or]
          refine .done (.same []) (fun hpan => .of_panicking hpan []) fun _ => ?_
          refine .andThen tracks_wherePredicate fun p c' hc' => ?_
          refine .accept (fun c'' _ hc'' => .inside fun _ => ?_) fun _ => .same _
          exact .andThen (ih (by omega)) fun _ _ _ => .same _

theorem tracks_whereClause :
    Tracks i True (whereClause i) (Parse.whereClause i.source) c := by
  unfold whereClause Parse.whereClause
  refine .accept (fun c' _ _ => .get_right ?_) fun _ => .same _
  exact tracks_whereLoop (by rw [ahead_length]; omega)

/-! ## Fields and variants -/

theorem tracks_scope : Tracks i True (scope i) Parse.scope c := by
  unfold scope Parse.scope
  exact .check
    (.peekKind_right (.glance (P := Parse.startsScope) (fun _ _ => tracks_skipGroup 0)
    (.same ())))

theorem tracks_visibility :
    Tracks i i.Distinct (visibility i) (Parse.visibility i.source) c := by
  unfold visibility Parse.visibility Parse.accept
  simp only [bind_assoc]
  refine .get_right (.check ?_)
  cases hnext : i.isNext c .pubKw with
  | false => exact .same []
  | true =>
      simp only [if_true, bind_assoc, pure_bind]
      refine .take (ne_eof_of_isNext hnext) fun t c' ht hc' => ?_
      exact .andThen tracks_scope fun _ d hd => tracks_textFrom ht (by omega)

theorem tracks_fieldName : Tracks i True (fieldName i) Parse.fieldName c := by
  unfold fieldName Parse.fieldName
  refine .check (.check_right ?_)
  cases hident : i.isNext c .ident with
  | true => exact .takes (ne_eof_of_isNext hident)
  | false =>
      simp only [Bool.false_eq_true, if_false, Bool.false_or]
      refine .check_left (.ite (fun hunion => ?_) fun _ => .failHere _)
      exact .takes (ne_eof_of_isNext hunion)

theorem tracks_namedFieldLoop :
    Tracks i i.Distinct i.namedFieldLoop
      (Parse.commaList .rbrace (Parse.namedField i.source)) c := by
  unfold Parse.commaList
  refine .get_right ?_
  generalize hn : (i.ahead c).length + 1 = n
  replace hn : i.tokens.length - c.pos < n := by rw [ahead_length] at hn; omega
  induction n generalizing c with
  | zero => exact absurd hn (Nat.not_lt_zero _)
  | succ n ih =>
      rw [Input.namedFieldLoop, Parse.commaLoop]
      refine .done (.same []) (fun hpan => .of_panicking hpan []) fun _ => ?_
      unfold Parse.namedField
      simp only [bind_assoc, pure_bind]
      refine .andThen tracks_attributes fun attrs c₁ h₁ => ?_
      refine .bind tracks_visibility fun vis vis' c₂ hvis h₂ => ?_
      refine .andThen tracks_fieldName fun name c₃ h₃ => .expect fun _ c₄ h₄ => ?_
      refine .inPanic (fun hpan => .of_panicking hpan []) fun _ => ?_
      refine .andThen tracks_ty fun fieldTy c₅ h₅ => ?_
      refine .accept (fun c₆ _ h₆ => .inside fun _ => ?_) fun _ => .pure fun hs => by
        rw [hvis hs]
      exact .bind (ih (by omega)) fun _ _ _ hrest _ => .pure fun hs => by
        rw [hvis hs, hrest hs]

theorem tracks_namedFields :
    Tracks i i.Distinct (namedFields i) (Parse.namedFields i.source) c := by
  unfold namedFields Parse.namedFields
  refine .expect fun _ _ _ => .bind tracks_namedFieldLoop fun _ _ _ hfields _ => ?_
  exact .expect fun _ _ _ => .pure fun hs => by rw [hfields hs]

theorem tracks_tupleField :
    Tracks i i.Distinct (tupleField i) (Parse.tupleField i.source) c := by
  unfold tupleField Parse.tupleField
  refine .andThen tracks_attributes fun _ _ _ =>
    .bind tracks_visibility fun _ _ _ hvis _ => ?_
  exact .peek fun _ _ => .andThen tracks_ty fun _ _ _ => .pure fun hs => by rw [hvis hs]

theorem tracks_tupleFields :
    Tracks i i.Distinct (tupleFields i) (Parse.tupleFields i.source) c := by
  unfold tupleFields Parse.tupleFields
  refine .expect fun _ _ _ => .bind (r := i.Distinct)
    (tracks_commaList (Input.commaLoop.eq_1 ..) ?_) ?_
  · exact fun _ _ => .map _ tracks_tupleField
  · exact fun _ _ _ hfields _ => .expect fun _ _ _ => .pure fun hs => by rw [hfields hs]

theorem tracks_variantFields :
    Tracks i i.Distinct (variantFields i) (Parse.variantFields i.source) c := by
  unfold variantFields Parse.variantFields
  refine .check (.ite (fun _ => tracks_namedFields) fun _ => ?_)
  exact .check (.ite (fun _ => tracks_tupleFields) fun _ => .same _)

theorem tracks_discriminant :
    Tracks i True (discriminant i) (Parse.discriminant i.source) c := by
  unfold discriminant Parse.discriminant
  refine .accept (fun _ _ _ => ?_) fun _ => .same _
  refine .andThen (tracks_capture false _) fun text _ _ => ?_
  exact .ite (fun _ => .failHere _) fun _ => .same _

theorem tracks_variant :
    Tracks i i.Distinct (variant i) (some <$> Parse.variant i.source) c := by
  unfold variant Parse.variant
  simp only [map_bind, map_pure]
  refine .andThen tracks_attributes fun _ _ _ => .bind tracks_visibility fun _ _ _ _ _ => ?_
  refine .expect fun _ _ _ => .inPanic (fun hpan => .of_panicking hpan none) fun _ => ?_
  refine .bind tracks_variantFields fun _ _ _ hfields _ => ?_
  exact .andThen tracks_discriminant fun _ _ _ => .pure fun hs => by rw [hfields hs]

/-! ## Declarations -/

theorem tracks_structBody (hk : kindOf (i.ahead c) 0 ≠ .eof) :
    Tracks i i.Distinct (structBody i)
      (Parse.take >>= fun _ => some <$> Parse.structBody i.source) c := by
  unfold structBody Parse.structBody
  simp only [map_bind]
  refine .take hk fun _ _ _ _ => .expect fun name _ _ => ?_
  refine .inPanic (fun hpan => .of_panicking hpan none) fun _ => ?_
  refine .andThen tracks_genericParams fun params _ _ =>
    .check (.iteMap (fun _ => ?_) fun _ => ?_)
  · simp only [map_bind, map_pure]
    refine .bind tracks_tupleFields fun _ _ _ hfields _ => .andThen tracks_whereClause ?_
    exact fun _ _ _ => .expect fun _ _ _ => .pure fun hs => by rw [hfields hs]
  simp only [map_bind]
  refine .accept (fun _ _ _ => .same _) fun _ => ?_
  simp only [Bool.false_eq_true, if_false, map_bind]
  refine .andThen tracks_whereClause fun preds _ _ =>
    .accept (fun _ _ _ => .same _) fun _ => ?_
  simp only [Bool.false_eq_true, if_false, map_bind]
  refine .check (.iteMap (fun _ => ?_) fun _ => .congr_right rfl (.failHere _))
  simp only [map_bind, map_pure]
  exact .bind tracks_namedFields fun _ _ _ hfields _ => .pure fun hs => by rw [hfields hs]

theorem tracks_enumBody (hk : kindOf (i.ahead c) 0 ≠ .eof) :
    Tracks i i.Distinct (enumBody i)
      (Parse.take >>= fun _ => some <$> Parse.enumBody i.source) c := by
  unfold enumBody Parse.enumBody
  simp only [map_bind, map_pure]
  refine .take hk fun _ _ _ _ => .expect fun name _ _ => ?_
  refine .inPanic (fun hpan => .of_panicking hpan none) fun _ => ?_
  refine .andThen tracks_genericParams fun params _ _ =>
    .andThen tracks_whereClause fun _ _ _ => ?_
  refine .expect fun _ _ _ => .bind (r := i.Distinct)
    (tracks_commaList (Input.commaLoop.eq_1 ..) fun _ _ => tracks_variant)
      fun _ _ _ hvariants _ => ?_
  exact .expect fun _ _ _ => .pure fun hs => by rw [hvariants hs]

theorem tracks_unionBody (hk : kindOf (i.ahead c) 0 ≠ .eof) :
    Tracks i i.Distinct (unionBody i)
      (Parse.take >>= fun _ => some <$> Parse.unionBody i.source) c := by
  unfold unionBody Parse.unionBody
  simp only [map_bind, map_pure]
  refine .take hk fun _ _ _ _ => .expect fun name _ _ => ?_
  refine .inPanic (fun hpan => .of_panicking hpan none) fun _ => ?_
  refine .andThen tracks_genericParams fun params _ _ =>
    .andThen tracks_whereClause fun _ _ _ => ?_
  exact .bind tracks_namedFields fun _ _ _ hfields _ => .pure fun hs => by rw [hfields hs]

end Deriver.Cursor
