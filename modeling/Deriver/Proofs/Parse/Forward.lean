import Deriver.Parse.File

/-!
# Parsers go forward

A parser leaves a suffix of the tokens it was given, and fails at the head of
one. It never takes the token that marks the end, so there is always a token to
look at. `Forward` says so of one parser; as a class it is found for a rule of
the grammar by looking at the rule, once it is known of the rules it calls.

The budget plays no part: a rule that runs out of it fails where it stands.
-/

set_option synthInstance.maxSize 1000

namespace Deriver.Parse

/-- Whether the last token is one that marks the end. -/
def Ended (ts : List Token) : Prop := ∃ t, ts.getLast? = some t ∧ t.kind = .eof

theorem Ended.ne_nil {ts : List Token} (h : Ended ts) : ts ≠ [] := by
  rintro rfl
  obtain ⟨t, ht, -⟩ := h
  cases ht

theorem Ended.of_suffix {us ts : List Token} (h : Ended ts) (hsub : us <:+ ts)
    (hne : us ≠ []) : Ended us := by
  obtain ⟨t, ht, hkind⟩ := h
  obtain ⟨vs, rfl⟩ := hsub
  refine ⟨t, ?_, hkind⟩
  rw [List.getLast?_append, Option.or_eq_some_iff] at ht
  rcases ht with ht | ⟨ht, -⟩
  · exact ht
  · exact absurd (List.getLast?_eq_none_iff.mp ht) hne

theorem between_append (vs us : List Token) : between (vs ++ us) us = vs := by
  rw [between, List.length_append, Nat.add_sub_cancel, List.take_left]

/-- Whether a result leaves tokens from the end of `ts`, or is an error at one of
them. -/
def Reaches {α : Type} (ts : List Token) : Except ParseError (α × List Token) → Prop
  | .ok (_, rest) => rest <:+ ts ∧ rest ≠ []
  | .error e => ∃ us, us <:+ ts ∧ us ≠ [] ∧ e.token = us.headD Token.none

/-- A parser that only takes tokens from the front and never the last one. -/
class Forward {α : Type} (p : Parser α) : Prop where
  reaches : ∀ ts, Ended ts → Reaches ts (p ts)

section Combinators

variable {α β : Type} {p q : Parser α} {f : α → Parser β}

theorem Reaches.trans {us ts : List Token} {x : Except ParseError (α × List Token)}
    (h : Reaches us x) (hsub : us <:+ ts) : Reaches ts x := by
  cases x with
  | ok r => exact ⟨h.1.trans hsub, h.2⟩
  | error e =>
      obtain ⟨vs, hvs, hne, he⟩ := h
      exact ⟨vs, hvs.trans hsub, hne, he⟩

theorem reaches_bind {ts : List Token} (hts : Ended ts) (h : Reaches ts (p ts))
    (hf : ∀ v us, us <:+ ts → Ended us → Reaches us (f v us)) :
    Reaches ts ((p >>= f) ts) := by
  change Reaches ts ((p ts).bind fun r => f r.1 r.2)
  cases hp : p ts with
  | error e => rw [hp] at h; exact h
  | ok r =>
      rw [hp] at h
      exact (hf r.1 r.2 h.1 (hts.of_suffix h.1 h.2)).trans h.1

theorem Forward.of_ok [hp : Forward p] {ts us : List Token} {v : α} (hts : Ended ts)
    (h : p ts = .ok (v, us)) : us <:+ ts ∧ Ended us := by
  have hreach := hp.reaches ts hts
  rw [h] at hreach
  exact ⟨hreach.1, hts.of_suffix hreach.1 hreach.2⟩

theorem Forward.bind (hp : Forward p) (hf : ∀ v, Forward (f v)) : Forward (p >>= f) where
  reaches ts h := reaches_bind h (hp.reaches ts h) fun v us _ hus => (hf v).reaches us hus

theorem Forward.ite {c : Prop} [Decidable c] (hp : Forward p) (hq : Forward q) :
    Forward (if c then p else q) := by
  split
  · exact hp
  · exact hq

theorem Forward.get {f : List Token → Parser β} (h : ∀ ts, Forward (f ts)) :
    Forward (MonadState.get >>= f) where
  reaches ts hts := (h ts).reaches ts hts

instance [Forward p] [∀ v, Forward (f v)] : Forward (p >>= f) :=
  .bind inferInstance inferInstance

instance {c : Prop} [Decidable c] [Forward p] [Forward q] : Forward (if c then p else q) :=
  .ite inferInstance inferInstance

instance {f : List Token → Parser β} [∀ ts, Forward (f ts)] : Forward (get >>= f) :=
  .get inferInstance

instance (v : α) : Forward (pure v : Parser α) where
  reaches ts h := ⟨List.suffix_refl ts, h.ne_nil⟩

instance {g : α → β} [Forward p] : Forward (g <$> p) where
  reaches ts h := reaches_bind (f := fun v => pure (g v)) h (Forward.reaches ts h)
    fun _ us _ hus => ⟨List.suffix_refl us, hus.ne_nil⟩

end Combinators

theorem Ended.cases {ts : List Token} (h : Ended ts) :
    ∃ t us, ts = t :: us ∧ (t.kind = .eof ∨ Ended us) := by
  cases ts with
  | nil => exact absurd rfl h.ne_nil
  | cons t us =>
      refine ⟨t, us, rfl, ?_⟩
      cases us with
      | nil =>
          obtain ⟨t', ht, hkind⟩ := h
          cases ht
          exact Or.inl hkind
      | cons u us =>
          exact Or.inr (h.of_suffix (List.suffix_cons t _) (List.cons_ne_nil _ _))

theorem Ended.tail {t : Token} {ts : List Token} (h : Ended (t :: ts))
    (ht : t.kind ≠ .eof) : Ended ts := by
  obtain ⟨t', us, heq, hus⟩ := Ended.cases h
  cases heq
  exact hus.resolve_left ht

/-! ## Looking and taking -/

instance : Forward peek where
  reaches ts h := ⟨List.suffix_refl ts, h.ne_nil⟩

instance (n : Nat) : Forward (peekKind n) where
  reaches ts h := ⟨List.suffix_refl ts, h.ne_nil⟩

instance : Forward atEnd where
  reaches ts h := ⟨List.suffix_refl ts, h.ne_nil⟩

instance (k : TokenKind) : Forward (check k) where
  reaches ts h := ⟨List.suffix_refl ts, h.ne_nil⟩

theorem behind_suffix (ts : List Token) : behind ts <:+ ts := by
  cases ts with
  | nil => exact List.suffix_refl _
  | cons t ts =>
      rw [behind]
      split
      · exact List.suffix_refl _
      · exact List.suffix_cons t ts

theorem behind_ne_nil {ts : List Token} (h : Ended ts) : behind ts ≠ [] := by
  obtain ⟨t, us, rfl, ht⟩ := Ended.cases h
  rw [behind]
  split
  · exact List.cons_ne_nil _ _
  · next hk =>
      rcases ht with ht | ht
      · rw [ht] at hk; exact absurd rfl hk
      · exact ht.ne_nil

instance : Forward take where
  reaches ts h := ⟨behind_suffix ts, behind_ne_nil h⟩

theorem length_lt_of_take {α : Type} {f : Token → Parser α} [∀ t, Forward (f t)]
    {ts rest : List Token} {v : α} (hts : Ended ts) (hk : kindOf ts 0 ≠ .eof)
    (h : (take >>= f) ts = .ok (v, rest)) : rest.length < ts.length := by
  obtain ⟨t, us, rfl, -⟩ := hts.cases
  have hk : t.kind ≠ .eof := hk
  have hbehind : behind (t :: us) = us := by simp [behind, hk]
  have hreach := (inferInstance : Forward (f t)).reaches us (hts.tail hk)
  change f t (behind (t :: us)) = _ at h
  rw [hbehind] at h
  rw [h] at hreach
  exact Nat.lt_succ_of_le hreach.1.length_le

instance (k : TokenKind) : Forward (accept k) := by
  unfold accept
  infer_instance

instance {α : Type} (problem : Problem) : Forward (failHere problem : Parser α) where
  reaches ts h := ⟨ts, List.suffix_refl ts, h.ne_nil, rfl⟩

instance (k : TokenKind) (what : Text) : Forward (expect k what) := by
  unfold expect
  infer_instance

instance {α : Type} (close : TokenKind) (elem : Parser α) [Forward elem] (n : Nat) :
    Forward (commaLoop close elem n) := by
  induction n with
  | zero => unfold commaLoop; infer_instance
  | succ n ih => unfold commaLoop; infer_instance

instance {α : Type} (close : TokenKind) (elem : Parser α) [Forward elem] :
    Forward (commaList close elem) := by
  unfold commaList
  infer_instance

/-- What happens behind the question whether a token of a kind is next. -/
theorem accept_run {α : Type} (k : TokenKind) (t : Token) (p q : Parser α)
    (ts : List Token) : (accept k >>= fun b => if b = true then p else q) (t :: ts) =
      if k ≠ .eof ∧ t.kind = k then p ts else q (t :: ts) := by
  change (((if (k != .eof && t.kind == k) = true then _ else _ : Parser Bool)
    (t :: ts)).bind fun r => (if r.1 = true then p else q) r.2) = _
  by_cases h : k ≠ .eof ∧ t.kind = k
  · have hcheck : (k != .eof && t.kind == k) = true := by simpa using h
    have ht : (t.kind == .eof) = false := by rw [h.2]; simpa using h.1
    rw [if_pos hcheck, if_pos h]
    change p (behind (t :: ts)) = _
    rw [behind, ht, if_neg (by decide)]
  · have hcheck : ¬ (k != .eof && t.kind == k) = true := by simpa using h
    rw [if_neg hcheck, if_neg h]
    rfl

theorem expect_run {α : Type} (k : TokenKind) (what : Text) (t : Token)
    (f : Token → Parser α) (ts : List Token) :
    (expect k what >>= f) (t :: ts) =
      if k ≠ .eof ∧ t.kind = k then f t ts else .error ⟨.expected what, t⟩ := by
  change (((if (k != .eof && t.kind == k) = true then _ else _ : Parser Token)
    (t :: ts)).bind fun r => f r.1 r.2) = _
  by_cases h : k ≠ .eof ∧ t.kind = k
  · have hcheck : (k != .eof && t.kind == k) = true := by simpa using h
    have ht : (t.kind == .eof) = false := by rw [h.2]; simpa using h.1
    rw [if_pos hcheck, if_pos h]
    change f t (behind (t :: ts)) = _
    rw [behind, ht, if_neg (by decide)]
  · have hcheck : ¬ (k != .eof && t.kind == k) = true := by simpa using h
    rw [if_neg hcheck, if_neg h]
    rfl

/-! ## Groups and captured text -/

theorem skipGroup_suffix (depth : Int) (ts : List Token) : skipGroup depth ts <:+ ts := by
  fun_induction skipGroup depth ts with
  | case1 => exact List.suffix_refl _
  | case2 => exact List.suffix_refl _
  | case3 _ t ts => exact List.suffix_cons t ts
  | case4 _ t ts _ _ _ ih => exact ih.trans (List.suffix_cons t ts)

theorem skipGroup_ne_nil {ts : List Token} (h : Ended ts) (depth : Int) :
    skipGroup depth ts ≠ [] := by
  fun_induction skipGroup depth ts with
  | case1 => exact h.ne_nil
  | case2 => exact List.cons_ne_nil _ _
  | case3 _ t ts hk =>
      exact (h.tail (by simpa using hk)).ne_nil
  | case4 _ t ts hk _ _ ih => exact ih (h.tail (by simpa using hk))

instance (depth : Int) : Forward (modify (skipGroup depth)) where
  reaches ts h := ⟨skipGroup_suffix depth ts, skipGroup_ne_nil h depth⟩

/-- How many brackets are open behind a captured token, if the capture does not end in front
of it. -/
def depthBehind? (angles : Bool) (stops : List TokenKind) (depth : Nat) (k : TokenKind) :
    Option Nat :=
  if k == .eof || (depth == 0 && stops.contains k) then none
  else if k.isOpening || (angles && k == .lt) then some (depth + 1)
  else if k.isClosing then if depth == 0 then none else some (depth - 1)
  else some (if angles && k == .gt then depth - 1 else depth)

section Captured

variable {angles : Bool} {stops : List TokenKind} {depth d : Nat} {k : TokenKind}

theorem ne_eof_of_depthBehind (h : depthBehind? angles stops depth k = some d) :
    k ≠ .eof := by
  rintro rfl
  cases h

/-- Inside of brackets only the end is not captured. -/
theorem eof_of_depthBehind (h : depthBehind? angles stops (depth + 1) k = none) :
    k = .eof := by
  unfold depthBehind? at h
  split at h
  · next hstop => simpa using hstop
  · split at h
    · cases h
    · split at h <;> cases h

theorem captureSize_cons (angles : Bool) (stops : List TokenKind) (depth : Nat) (t : Token)
    (ts : List Token) : captureSize angles stops depth (t :: ts) =
      (depthBehind? angles stops depth t.kind).elim 0
      (captureSize angles stops · ts + 1) := by
  rw [captureSize.eq_def, depthBehind?]
  dsimp only
  split
  · rfl
  · split
    · rfl
    · split
      · cases depth <;> rfl
      · split <;> rfl

end Captured

theorem captureSize_lt {ts : List Token} (h : Ended ts) (angles : Bool)
    (stops : List TokenKind)
    (depth : Nat) : captureSize angles stops depth ts < ts.length := by
  induction ts generalizing depth with
  | nil => exact absurd rfl h.ne_nil
  | cons t ts ih =>
      rw [captureSize_cons]
      cases hd : depthBehind? angles stops depth t.kind with
      | none => exact Nat.succ_pos _
      | some d => exact Nat.succ_lt_succ (ih (h.tail (ne_eof_of_depthBehind hd)) d)

instance (source : Text) (start : List Token) : Forward (textSince source start) := by
  unfold textSince
  infer_instance

instance (source : Text) (angles : Bool) (stops : List TokenKind) :
    Forward (capture source angles stops) where
  reaches ts h := by
    refine ⟨List.drop_suffix _ _, ?_⟩
    exact List.ne_nil_of_length_pos (by
      rw [List.length_drop]
      exact Nat.sub_pos_of_lt (captureSize_lt h angles stops 0))

/-! ## Types -/

instance (sep : TokenKind) (n : Nat) : Forward (lifetimes sep n) := by
  induction n with
  | zero => unfold lifetimes; infer_instance
  | succ n ih => unfold lifetimes; infer_instance

instance : Forward binder := by
  unfold binder
  infer_instance

instance : Forward binder? := by
  unfold binder?
  infer_instance

instance : Forward lifetime? := by
  unfold lifetime?
  infer_instance

instance : Forward pointerKind := by
  unfold pointerKind
  infer_instance

instance : Forward argName := by
  unfold argName
  infer_instance

instance : Forward abi? := by
  unfold abi?
  infer_instance

instance : Forward turbofish := by
  unfold turbofish
  infer_instance

instance : Forward tildeConst := by
  unfold tildeConst
  infer_instance

section Lists

variable (elem : Parser Ty) [Forward elem]

instance : Forward (output? elem) := by
  unfold output?
  infer_instance

instance (n : Nat) : Forward (tupleRest elem n) := by
  induction n with
  | zero => unfold tupleRest; infer_instance
  | succ n ih => unfold tupleRest; infer_instance

instance (n : Nat) : Forward (fnInputs elem n) := by
  induction n with
  | zero => unfold fnInputs; infer_instance
  | succ n ih =>
      unfold fnInputs
      dsimp only
      infer_instance

instance (names : List Text) (pos : Position) : Forward (fnType elem names pos) := by
  unfold fnType
  dsimp only
  infer_instance

end Lists

instance (elem : Parser Path) [Forward elem] : Forward (asTrait? elem) := by
  unfold asTrait?
  infer_instance

instance (elem : Parser Bound) [Forward elem] (n : Nat) : Forward (boundLoop elem n) := by
  induction n with
  | zero => unfold boundLoop; infer_instance
  | succ n ih => unfold boundLoop; infer_instance

instance (elem : Parser Bound) [Forward elem] : Forward (boundList elem) := by
  unfold boundList
  infer_instance

instance (elem : Parser Segment) [Forward elem] (n : Nat) :
    Forward (segmentLoop elem n) := by
  induction n with
  | zero => unfold segmentLoop; infer_instance
  | succ n ih => unfold segmentLoop; infer_instance

instance (elem : Parser Segment) [Forward elem] (n : Nat) :
    Forward (qualifiedLoop elem n) := by
  induction n with
  | zero => unfold qualifiedLoop; infer_instance
  | succ n ih => unfold qualifiedLoop; infer_instance

variable (source : Text)

/-- The rules of the type grammar call each other, each with a smaller budget. -/
theorem forward_grammar (fuel : Nat) :
    Forward (ty source fuel) ∧ (∀ pos, Forward (reference source fuel pos)) ∧
      (∀ pos, Forward (pathOrMacro source fuel pos)) ∧ Forward (path source fuel) ∧
      Forward (segment source fuel) ∧ Forward (genericArg source fuel) ∧
      Forward (bound source fuel) := by
  induction fuel with
  | zero =>
      refine ⟨?_, fun pos => ?_, fun pos => ?_, ?_, ?_, ?_, ?_⟩
      · unfold ty; infer_instance
      · unfold reference; infer_instance
      · unfold pathOrMacro; infer_instance
      · unfold path; infer_instance
      · unfold segment; infer_instance
      · unfold genericArg; infer_instance
      · unfold bound; infer_instance
  | succ fuel ih =>
      obtain ⟨hty, hreference, hpathOrMacro, hpath, hsegment, hgenericArg, hbound⟩ := ih
      refine ⟨?_, fun pos => ?_, fun pos => ?_, ?_, ?_, ?_, ?_⟩
      · unfold ty
        refine Forward.bind inferInstance fun t => ?_
        dsimp only
        split <;> infer_instance
      · unfold reference; infer_instance
      · unfold pathOrMacro; infer_instance
      · unfold path; infer_instance
      · unfold segment; infer_instance
      · unfold genericArg; dsimp only; infer_instance
      · unfold bound; infer_instance
instance (fuel : Nat) : Forward (ty source fuel) := (forward_grammar source fuel).1

instance (fuel : Nat) (pos : Position) : Forward (reference source fuel pos) :=
  (forward_grammar source fuel).2.1 pos

instance (fuel : Nat) (pos : Position) : Forward (pathOrMacro source fuel pos) :=
  (forward_grammar source fuel).2.2.1 pos

instance (fuel : Nat) : Forward (path source fuel) := (forward_grammar source fuel).2.2.2.1

instance (fuel : Nat) : Forward (segment source fuel) :=
  (forward_grammar source fuel).2.2.2.2.1

instance (fuel : Nat) : Forward (genericArg source fuel) :=
  (forward_grammar source fuel).2.2.2.2.2.1

instance (fuel : Nat) : Forward (bound source fuel) :=
  (forward_grammar source fuel).2.2.2.2.2.2

instance : Forward (bounds source) := by
  unfold bounds
  infer_instance

instance : Forward (wholeTy source) := by
  unfold wholeTy
  infer_instance

/-! ## Attributes -/

theorem metaSegments?_suffix {n : Nat} {ts rest : List Token} {p : Text} (hts : Ended ts)
    (h : metaSegments? n ts = some (p, rest)) : rest <:+ ts ∧ rest ≠ [] := by
  induction n generalizing ts p with
  | zero => cases h
  | succ n ih =>
      have hbehind : Ended (behind ts) :=
        hts.of_suffix (behind_suffix ts) (behind_ne_nil hts)
      simp only [metaSegments?] at h
      split at h
      · cases h
      · split at h
        · obtain ⟨⟨q, rest'⟩, hq, heq⟩ := Option.map_eq_some_iff.mp h
          cases heq
          have hbehind' := hbehind.of_suffix (behind_suffix _) (behind_ne_nil hbehind)
          obtain ⟨hsub, hne⟩ := ih hbehind' hq
          exact ⟨hsub.trans ((behind_suffix _).trans (behind_suffix _)), hne⟩
        · cases h
          exact ⟨behind_suffix ts, hbehind.ne_nil⟩

theorem metaPath?_suffix {ts rest : List Token} {p : Text} (hts : Ended ts)
    (h : metaPath? ts = some (p, rest)) : rest <:+ ts ∧ rest ≠ [] := by
  unfold metaPath? at h
  split at h
  · obtain ⟨⟨q, rest'⟩, hq, heq⟩ := Option.map_eq_some_iff.mp h
    cases heq
    have hbehind : Ended (behind ts) := hts.of_suffix (behind_suffix ts) (behind_ne_nil hts)
    obtain ⟨hsub, hne⟩ := metaSegments?_suffix hbehind hq
    exact ⟨hsub.trans (behind_suffix ts), hne⟩
  · exact metaSegments?_suffix hts h

instance (pos : Position) : Forward (metaOther source pos) := by
  unfold metaOther
  infer_instance

theorem reaches_get {α : Type} {ts : List Token} {f : List Token → Parser α}
    (h : Reaches ts (f ts ts)) : Reaches ts ((get >>= f) ts) := h

theorem reaches_set {α : Type} {us ts : List Token} {f : PUnit → Parser α} [Forward (f ⟨⟩)]
    (hsub : us <:+ ts) (hus : Ended us) : Reaches ts ((set us >>= f) ts) :=
  ((inferInstance : Forward (f ⟨⟩)).reaches us hus).trans hsub

instance (fuel : Nat) : Forward (metaItem source fuel) := by
  induction fuel with
  | zero => unfold metaItem; infer_instance
  | succ fuel ih =>
      unfold metaItem
      refine Forward.bind inferInstance fun t => ?_
      dsimp only
      refine Forward.ite inferInstance ⟨fun ts hts => ?_⟩
      refine reaches_get ?_
      generalize hchoice : (if startsMetaPath t.kind then metaPath? ts else none) = choice
      cases choice with
      | none => exact Forward.reaches ts hts
      | some found =>
          obtain ⟨path, rest⟩ := found
          have hpath : metaPath? ts = some (path, rest) := by
            split at hchoice
            · exact hchoice
            · cases hchoice
          obtain ⟨hsub, hne⟩ := metaPath?_suffix hts hpath
          have hrest := hts.of_suffix hsub hne
          have hsub' := (behind_suffix rest).trans hsub
          have hrest' := hrest.of_suffix (behind_suffix rest) (behind_ne_nil hrest)
          dsimp only
          split
          · exact reaches_set hsub' hrest'
          · split
            · exact reaches_set hsub' hrest'
            · split
              · exact reaches_set hsub hrest
              · exact Forward.reaches ts hts

instance : Forward (wholeMeta source) := by
  unfold wholeMeta
  infer_instance

instance : Forward (oneAttribute source) := by
  unfold oneAttribute
  infer_instance

instance (n : Nat) : Forward (attributeLoop source n) := by
  induction n with
  | zero => unfold attributeLoop; infer_instance
  | succ n ih => unfold attributeLoop; infer_instance

instance : Forward (attributes source) := by
  unfold attributes
  infer_instance

/-! ## Declarations -/

instance : Forward outlived := by
  unfold outlived
  infer_instance

instance : Forward (bounded source) := by
  unfold bounded
  infer_instance

instance : Forward (defaultTy source) := by
  unfold defaultTy
  infer_instance

instance : Forward (defaultConst source) := by
  unfold defaultConst
  infer_instance

instance : Forward (genericParam source) := by
  unfold genericParam
  refine Forward.bind inferInstance fun t => ?_
  split <;> infer_instance

instance : Forward (genericParams source) := by
  unfold genericParams
  infer_instance

instance : Forward (wherePredicate source) := by
  unfold wherePredicate
  infer_instance

instance (n : Nat) : Forward (whereLoop source n) := by
  induction n with
  | zero => unfold whereLoop; infer_instance
  | succ n ih => unfold whereLoop; infer_instance

instance : Forward (whereClause source) := by
  unfold whereClause
  infer_instance

instance : Forward scope := by
  unfold scope
  infer_instance

instance : Forward (visibility source) := by
  unfold visibility
  infer_instance

instance : Forward fieldName := by
  unfold fieldName
  infer_instance

instance : Forward (namedField source) := by
  unfold namedField
  infer_instance

instance : Forward (namedFields source) := by
  unfold namedFields
  infer_instance

instance : Forward (tupleField source) := by
  unfold tupleField
  infer_instance

instance : Forward (tupleFields source) := by
  unfold tupleFields
  infer_instance

instance : Forward (variantFields source) := by
  unfold variantFields
  infer_instance

instance : Forward (discriminant source) := by
  unfold discriminant
  infer_instance

instance : Forward (variant source) := by
  unfold variant
  infer_instance

instance : Forward (structBody source) := by
  unfold structBody
  infer_instance

instance : Forward (enumBody source) := by
  unfold enumBody
  infer_instance

instance : Forward (unionBody source) := by
  unfold unionBody
  infer_instance

end Deriver.Parse
