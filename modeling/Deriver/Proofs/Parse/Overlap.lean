import Deriver.Proofs.Parse.Forward
import Deriver.Proofs.Decl.Place

/-!
# The same tokens in two places

A run of tokens can stand in front of different tokens, in different sources and
at different places: a declaration alone and the same declaration in a file. An
`Overlap` is two token lists that begin with one run of tokens, and `At` says of
a pair of parsers that they agree on them: they yield the same value, up to
places, and leave the same part of the run, or they fail at the same token of it.

A parser may look at the token after the next, and it may go past the end of the
run; then nothing can be said of what it yields, and the third case of `Agree`
says no more than that both parsers did. The run ends with a token that closes an
item, marks the end, or is the `!` behind the name of a macro. No rule looks
further when it sees such a token, so the look ahead never leaves the run by
itself.

The rules below follow the combinators. Each rule of the grammar then has one
lemma, which goes through its definition.
-/

namespace Deriver.Parse

/-- The kinds of token an item ends with, and the one that marks the end. -/
def closers : List TokenKind := [.semicolon, .rbrace, .eof]

/-- The kinds of token that can stand last in the common run. -/
def limits : List TokenKind := .bang :: closers

/-- Two token lists, each with its source, that begin with the same run of tokens
up to their places. -/
structure Overlap where
  source : Text
  source' : Text
  run : List Token
  rest : List Token
  rest' : List Token
  shift : Position → Position
  gap : Nat
  ended : Ended (run ++ rest)
  ended' : Ended (run.map (Token.place shift gap) ++ rest')
  last : ∀ t, run.getLast? = some t → t.kind ∈ limits
  text : ∀ us, (∀ t ∈ us, t ∈ run) →
    textOf source us = textOf source' (us.map (Token.place shift gap))

namespace Overlap

variable (W : Overlap)

/-- The place in the second list of a token of the first. -/
def move (t : Token) : Token := t.place W.shift W.gap

/-- What is left of the first list when `us` is left of the run. -/
def left (us : List Token) : List Token := us ++ W.rest

/-- What is left of the second list when `us` is left of the run. -/
def right (us : List Token) : List Token := us.map W.move ++ W.rest'

/-- Whether `us` is left of the run, and not the run used up. -/
structure Inside (us : List Token) : Prop where
  sub : us <:+ W.run
  ne : us ≠ []

/-- The results agree: both parsers stay inside the run and yield the same, both
fail at the same token of it and not for want of budget, or both go past it. -/
inductive Agree {α β : Type} (φ : α → β) (ts : List Token) :
    Except ParseError (α × List Token) → Except ParseError (β × List Token) → Prop where
  | ok (v : α) (us : List Token) (hsub : us <:+ ts) (hne : us ≠ []) :
      Agree φ ts (.ok (v, W.left us)) (.ok (φ v, W.right us))
  | error (problem : Problem) (t : Token) (h : t ∈ ts) (hdeep : problem ≠ .tooDeep) :
      Agree φ ts (.error ⟨problem, t⟩) (.error ⟨problem, W.move t⟩)
  | out {x : Except ParseError (α × List Token)} {y : Except ParseError (β × List Token)}
      (hx : Reaches W.rest x) (hy : Reaches W.rest' y) : Agree φ ts x y

/-- The parsers agree on the two lists when `ts` is left of the run. -/
def At {α β : Type} (ts : List Token) (φ : α → β) (p : Parser α) (q : Parser β) : Prop :=
  W.Agree φ ts (p (W.left ts)) (q (W.right ts))

variable {W} {α β γ δ : Type} {φ : α → β} {ψ : γ → δ} {p : Parser α} {q : Parser β}
  {f : α → Parser γ} {g : β → Parser δ} {ts us : List Token}

theorem Inside.of_suffix (h : W.Inside ts) (hsub : us <:+ ts) (hne : us ≠ []) :
    W.Inside us :=
  ⟨hsub.trans h.sub, hne⟩

theorem Inside.ended (h : W.Inside ts) : Ended (W.left ts) := by
  obtain ⟨vs, hvs⟩ := h.sub
  have hall := W.ended
  rw [← hvs, List.append_assoc] at hall
  exact hall.of_suffix (List.suffix_append vs _) (List.append_ne_nil_of_left_ne_nil h.ne _)

theorem ended_of_rest {us : List Token} (hsub : us <:+ W.rest) (hne : us ≠ []) : Ended us :=
  W.ended.of_suffix (hsub.trans (List.suffix_append _ _)) hne

theorem ended_of_rest' {us : List Token} (hsub : us <:+ W.rest') (hne : us ≠ []) :
    Ended us :=
  W.ended'.of_suffix (hsub.trans (List.suffix_append _ _)) hne

/-- A token inside the run is not its last one, unless it closes something. -/
theorem Inside.tail {t : Token} (h : W.Inside (t :: us)) (ht : t.kind ∉ limits) :
    W.Inside us := by
  refine h.of_suffix (List.suffix_cons t us) ?_
  rintro rfl
  obtain ⟨vs, hvs⟩ := h.sub
  refine ht (W.last t ?_)
  rw [← hvs]
  exact List.getLast?_concat

theorem Agree.mono {x : Except ParseError (α × List Token)}
    {y : Except ParseError (β × List Token)}
    (h : W.Agree φ us x y) (hsub : us <:+ ts) : W.Agree φ ts x y := by
  cases h with
  | ok v vs hvs hne => exact .ok v vs (hvs.trans hsub) hne
  | error problem t ht hdeep => exact .error problem t (hsub.subset ht) hdeep
  | out hx hy => exact .out hx hy

/-! ## The monad -/

theorem reaches_then {x : Except ParseError (α × List Token)} {rest : List Token}
    [∀ v, Forward (f v)] (hrest : ∀ us, us <:+ rest → us ≠ [] → Ended us)
    (h : Reaches rest x) : Reaches rest (x.bind fun r => f r.1 r.2) := by
  cases x with
  | error e => exact h
  | ok r =>
      exact ((inferInstance : Forward (f r.1)).reaches r.2 (hrest r.2 h.1 h.2)).trans h.1

theorem At.bindOk [∀ v, Forward (f v)] [∀ w, Forward (g w)] (hts : W.Inside ts)
    (h : W.At ts φ p q)
    (hf : ∀ v us, us <:+ ts → W.Inside us → p (W.left ts) = .ok (v, W.left us) →
      W.At us ψ (f v) (g (φ v))) :
    W.At ts ψ (p >>= f) (q >>= g) := by
  change W.Agree ψ ts ((p (W.left ts)).bind fun r => f r.1 r.2)
    ((q (W.right ts)).bind fun r => g r.1 r.2)
  unfold At at h
  generalize p (W.left ts) = x at h hf ⊢
  generalize q (W.right ts) = y at h ⊢
  cases h with
  | ok v us hsub hne => exact (hf v us hsub (hts.of_suffix hsub hne) rfl).mono hsub
  | error problem t ht hdeep => exact .error problem t ht hdeep
  | out hx hy =>
      refine .out (reaches_then ?_ hx) (reaches_then ?_ hy)
      · exact fun _ => ended_of_rest
      · exact fun _ => ended_of_rest'

theorem At.bind [∀ v, Forward (f v)] [∀ w, Forward (g w)] (hts : W.Inside ts)
    (h : W.At ts φ p q)
    (hf : ∀ v us, us <:+ ts → W.Inside us → W.At us ψ (f v) (g (φ v))) :
    W.At ts ψ (p >>= f) (q >>= g) :=
  At.bindOk hts h fun v us hsub hus _ => hf v us hsub hus

theorem At.pure (hts : W.Inside ts) {v : α} {w : β} (h : w = φ v) :
    W.At ts φ (Pure.pure v) (Pure.pure w) := by
  subst h
  exact .ok v ts (List.suffix_refl ts) hts.ne

theorem At.map {χ : α → γ} {χ' : β → δ} (hts : W.Inside ts) (h : W.At ts φ p q)
    (hχ : ∀ v, χ' (φ v) = ψ (χ v)) : W.At ts ψ (χ <$> p) (χ' <$> q) :=
  At.bind (f := fun v => Pure.pure (χ v)) (g := fun w => Pure.pure (χ' w)) hts h
    fun v _ _ hus => At.pure hus (hχ v)

theorem At.ite {c : Prop} [Decidable c] {p' : Parser α} {q' : Parser β}
    (h : c → W.At ts φ p q) (h' : ¬ c → W.At ts φ p' q') :
    W.At ts φ (if c then p else p') (if c then q else q') := by
  split
  · next hc => exact h hc
  · next hc => exact h' hc

theorem At.get {f : List Token → Parser α} {g : List Token → Parser β}
    (h : W.At ts φ (f (W.left ts)) (g (W.right ts))) :
    W.At ts φ (MonadState.get >>= f) (MonadState.get >>= g) := h

/-! ## Looking -/

theorem Inside.cons (h : W.Inside ts) : ∃ t us, ts = t :: us :=
  List.exists_cons_of_ne_nil h.ne

theorem kindOf_left (h : W.Inside ts) : kindOf (W.left ts) 0 = kindOf ts 0 := by
  obtain ⟨t, us, rfl⟩ := h.cons
  rfl

theorem kindOf_right (h : W.Inside ts) : kindOf (W.right ts) 0 = kindOf ts 0 := by
  obtain ⟨t, us, rfl⟩ := h.cons
  rfl

/-- The token after the next is inside the run too, unless the next one closes
something. -/
theorem kindOf_one (h : W.Inside ts) (hk : kindOf ts 0 ∉ limits) :
    kindOf (W.left ts) 1 = kindOf ts 1 ∧ kindOf (W.right ts) 1 = kindOf ts 1 := by
  obtain ⟨t, us, rfl⟩ := h.cons
  obtain ⟨u, vs, rfl⟩ := (h.tail hk).cons
  exact ⟨rfl, rfl⟩

theorem At.failHere (hts : W.Inside ts) (problem : Problem) (hdeep : problem ≠ .tooDeep) :
    W.At ts φ (Parse.failHere problem) (Parse.failHere problem) := by
  obtain ⟨t, us, rfl⟩ := hts.cons
  exact .error problem t (List.mem_cons_self ..) hdeep

theorem At.peek {f : Token → Parser α} {g : Token → Parser β} (hts : W.Inside ts)
    (h : ∀ t us, ts = t :: us → W.At ts φ (f t) (g (W.move t))) :
    W.At ts φ (Parse.peek >>= f) (Parse.peek >>= g) := by
  obtain ⟨t, us, rfl⟩ := hts.cons
  exact h t us rfl

theorem At.peekKind {f : TokenKind → Parser α} {g : TokenKind → Parser β}
    (hts : W.Inside ts) (h : W.At ts φ (f (kindOf ts 0)) (g (kindOf ts 0))) :
    W.At ts φ (Parse.peekKind 0 >>= f) (Parse.peekKind 0 >>= g) := by
  change W.Agree φ ts (f (kindOf (W.left ts) 0) _) (g (kindOf (W.right ts) 0) _)
  rw [kindOf_left hts, kindOf_right hts]
  exact h

theorem At.peekNext {f : TokenKind → Parser α} {g : TokenKind → Parser β}
    (hts : W.Inside ts)
    (h : ∀ k k', (kindOf ts 0 ∉ limits → k = kindOf ts 1 ∧ k' = kindOf ts 1) →
      W.At ts φ (f k) (g k')) :
    W.At ts φ (Parse.peekKind 1 >>= f) (Parse.peekKind 1 >>= g) :=
  h _ _ (kindOf_one hts)

theorem At.atEnd {f : Bool → Parser α} {g : Bool → Parser β} (hts : W.Inside ts)
    (h : ∀ b, W.At ts φ (f b) (g b)) :
    W.At ts φ (Parse.atEnd >>= f) (Parse.atEnd >>= g) := by
  change W.Agree φ ts (f (kindOf (W.left ts) 0 == .eof) _)
    (g (kindOf (W.right ts) 0 == .eof) _)
  rw [kindOf_left hts, kindOf_right hts]
  exact h _

theorem At.check {f : Bool → Parser α} {g : Bool → Parser β} {k : TokenKind}
    (hts : W.Inside ts) (h : ∀ b, (b = true → kindOf ts 0 = k) → W.At ts φ (f b) (g b)) :
    W.At ts φ (Parse.check k >>= f) (Parse.check k >>= g) := by
  change W.Agree φ ts (f (k != .eof && kindOf (W.left ts) 0 == k) _)
    (g (k != .eof && kindOf (W.right ts) 0 == k) _)
  rw [kindOf_left hts, kindOf_right hts]
  refine h _ fun hb => ?_
  rw [Bool.and_eq_true] at hb
  exact of_decide_eq_true hb.2

/-! ## Taking -/

theorem behind_left {t : Token} (h : t.kind ≠ .eof) :
    behind (W.left (t :: us)) = W.left us := by
  simp [left, behind, h]

theorem behind_right {t : Token} (h : t.kind ≠ .eof) :
    behind (W.right (t :: us)) = W.right us := by
  have : (W.move t).kind ≠ .eof := h
  simp [right, behind, this]

theorem At.rest [Forward p] [Forward q] {t : Token} (hts : W.Inside (t :: us))
    (ht : t.kind ≠ .eof) (h : W.Inside us → W.At us φ p q) :
    W.Agree φ (t :: us) (p (W.left us)) (q (W.right us)) := by
  cases us with
  | cons u us =>
      have hsub := List.suffix_cons t (u :: us)
      exact Agree.mono (h (hts.of_suffix hsub (List.cons_ne_nil _ _))) hsub
  | nil =>
      refine .out (Forward.reaches _ ?_) (Forward.reaches _ ?_)
      · have := hts.ended.tail ht
        exact this
      · obtain ⟨vs, hvs⟩ := hts.sub
        have hall := W.ended'
        rw [← hvs, List.map_append, List.map_singleton, List.append_assoc] at hall
        have hsuffix := hall.of_suffix (List.suffix_append _ _) (List.cons_ne_nil _ _)
        exact hsuffix.tail ht

theorem At.take {f : Token → Parser α} {g : Token → Parser β} [∀ t, Forward (f t)]
    [∀ t, Forward (g t)] (hts : W.Inside ts) (hk : kindOf ts 0 ≠ .eof)
    (h : ∀ t us, ts = t :: us → W.Inside us → W.At us φ (f t) (g (W.move t))) :
    W.At ts φ (Parse.take >>= f) (Parse.take >>= g) := by
  obtain ⟨t, us, rfl⟩ := hts.cons
  change W.Agree φ _ (f t (behind (W.left (t :: us))))
    (g (W.move t) (behind (W.right (t :: us))))
  rw [behind_left hk, behind_right hk]
  exact At.rest hts hk (h t us rfl)

theorem At.takeTwo [Forward p] [Forward q] (hts : W.Inside ts) (h₀ : kindOf ts 0 ∉ limits)
    (h₁ : kindOf ts 1 ≠ .eof)
    (h : ∀ t u us, ts = t :: u :: us → W.Inside us → W.At us φ p q) :
    W.At ts φ (Parse.take >>= fun _ => Parse.take >>= fun _ => p)
      (Parse.take >>= fun _ => Parse.take >>= fun _ => q) := by
  refine At.take hts (fun heof => h₀ (by rw [heof]; decide)) ?_
  rintro t us rfl hus
  refine At.take hus h₁ ?_
  rintro u vs rfl hvs
  exact h t u vs rfl hvs

theorem At.accept {p' : Parser α} {q' : Parser β} {k : TokenKind} [Forward p] [Forward q]
    (hts : W.Inside ts) (hk : k ≠ .eof)
    (h : ∀ t us, ts = t :: us → t.kind = k → W.Inside us → W.At us φ p q)
    (h' : kindOf ts 0 ≠ k → W.At ts φ p' q') :
    W.At ts φ (Parse.accept k >>= fun b => if b = true then p else p')
      (Parse.accept k >>= fun b => if b = true then q else q') := by
  obtain ⟨t, us, rfl⟩ := hts.cons
  change W.Agree φ _ ((_ : Parser α) (t :: W.left us))
    ((_ : Parser β) (W.move t :: W.right us))
  rw [accept_run, accept_run]
  by_cases htk : t.kind = k
  · rw [if_pos ⟨hk, htk⟩, if_pos ⟨hk, htk⟩]
    exact At.rest hts (htk ▸ hk) (h t us rfl htk)
  · rw [if_neg fun h => htk h.2, if_neg fun h => htk h.2]
    exact h' htk

theorem At.expect {f : Token → Parser α} {g : Token → Parser β}
    {k : TokenKind} {what : Text}
    [∀ t, Forward (f t)] [∀ t, Forward (g t)] (hts : W.Inside ts) (hk : k ≠ .eof)
    (h : ∀ t us, ts = t :: us → t.kind = k → W.Inside us → W.At us φ (f t) (g (W.move t))) :
    W.At ts φ (Parse.expect k what >>= f) (Parse.expect k what >>= g) := by
  obtain ⟨t, us, rfl⟩ := hts.cons
  change W.Agree φ _ ((_ : Parser α) (t :: W.left us))
    ((_ : Parser β) (W.move t :: W.right us))
  rw [expect_run, expect_run]
  by_cases htk : t.kind = k
  · rw [if_pos ⟨hk, htk⟩, if_pos ⟨hk, htk⟩]
    exact At.rest hts (htk ▸ hk) (h t us rfl htk)
  · rw [if_neg fun h => htk h.2, if_neg fun h => htk h.2]
    exact .error _ t (List.mem_cons_self ..) nofun

theorem At.accepts (hts : W.Inside ts) {k : TokenKind} (hk : k ≠ .eof) :
    W.At ts id (Parse.accept k) (Parse.accept k) := by
  have h : W.At ts id
      (Parse.accept k >>= fun b => if b = true then Pure.pure true else Pure.pure false)
      (Parse.accept k >>= fun b => if b = true then Pure.pure true else Pure.pure false) :=
    At.accept hts hk (fun _ _ _ _ hus => At.pure hus rfl) fun _ => At.pure hts rfl
  have hpure : (fun b : Bool => if b = true then (Pure.pure true : Parser Bool) else
      Pure.pure false)
      = Pure.pure := by
    funext b
    cases b <;> rfl
  rwa [hpure, bind_pure] at h

theorem At.takes (hts : W.Inside ts) (hk : kindOf ts 0 ≠ .eof) :
    W.At ts W.move Parse.take Parse.take := by
  have h : W.At ts W.move (Parse.take >>= Pure.pure) (Parse.take >>= Pure.pure) :=
    At.take hts hk fun _ _ _ hus => At.pure hus rfl
  rwa [bind_pure] at h

/-! ## Groups and captured text -/

theorem skipGroup_agree (depth : Int) (hts : W.Inside ts) :
    (∃ us, us <:+ ts ∧ us ≠ [] ∧ skipGroup depth (W.left ts) = W.left us ∧
      skipGroup depth (W.right ts) = W.right us) ∨
    (skipGroup depth (W.left ts) <:+ W.rest ∧
    skipGroup depth (W.right ts) <:+ W.rest') := by
  induction ts generalizing depth with
  | nil => exact absurd rfl hts.ne
  | cons t ts ih =>
      have hsub := List.suffix_cons t ts
      have hl : W.left (t :: ts) = t :: W.left ts := rfl
      have hr : W.right (t :: ts) = W.move t :: W.right ts := rfl
      rw [hl, hr, skipGroup, skipGroup, show (W.move t).kind = t.kind from rfl]
      split
      · exact Or.inl ⟨t :: ts, List.suffix_refl _, hts.ne, rfl, rfl⟩
      · extract_lets inner
        -- the run may be used up here, and then what is left lies behind it
        by_cases hne : ts = []
        · subst hne
          refine Or.inr ?_
          split
          · exact ⟨List.suffix_refl _, List.suffix_refl _⟩
          · exact ⟨skipGroup_suffix _ _, skipGroup_suffix _ _⟩
        · split
          · exact Or.inl ⟨ts, hsub, hne, rfl, rfl⟩
          · rcases ih inner (hts.of_suffix hsub hne) with ⟨us, hus, h⟩ | h
            · exact Or.inl ⟨us, hus.trans hsub, h⟩
            · exact Or.inr h

theorem Inside.ended' (h : W.Inside ts) : Ended (W.right ts) := by
  obtain ⟨vs, hvs⟩ := h.sub
  have hall := W.ended'
  rw [← hvs, List.map_append, List.append_assoc] at hall
  refine hall.of_suffix (List.suffix_append _ _) (List.append_ne_nil_of_left_ne_nil ?_ _)
  rw [ne_eq, List.map_eq_nil_iff]
  exact h.ne

theorem At.skipGroup (hts : W.Inside ts) (depth : Int) :
    W.At ts id (modify (Parse.skipGroup depth)) (modify (Parse.skipGroup depth)) := by
  change W.Agree id ts (.ok (PUnit.unit, Parse.skipGroup depth (W.left ts)))
    (.ok (PUnit.unit, Parse.skipGroup depth (W.right ts)))
  rcases skipGroup_agree depth hts with ⟨us, hsub, hne, hl, hr⟩ | ⟨hl, hr⟩
  · rw [hl, hr]
    exact .ok PUnit.unit us hsub hne
  · exact .out ⟨hl, skipGroup_ne_nil hts.ended depth⟩
      ⟨hr, skipGroup_ne_nil hts.ended' depth⟩

theorem between_left (hsub : us <:+ ts) :
    between (W.left ts) (W.left us) = ts.take (ts.length - us.length) := by
  have hlen := hsub.length_le
  simp only [between, left, List.length_append]
  rw [List.take_append_of_le_length (by omega)]
  congr 1
  omega

theorem between_right (hsub : us <:+ ts) :
    between (W.right ts) (W.right us) = (ts.take (ts.length - us.length)).map W.move := by
  have hlen := hsub.length_le
  simp only [between, right, List.length_append, List.length_map]
  rw [List.take_append_of_le_length (by rw [List.length_map]; omega), List.map_take]
  congr 1
  omega

theorem textOf_between (hts : W.Inside ts) (hsub : us <:+ ts) :
    textOf W.source (between (W.left ts) (W.left us)) =
      textOf W.source' (between (W.right ts) (W.right us)) := by
  rw [between_left hsub, between_right hsub]
  exact W.text _ fun t ht => hts.sub.subset (List.mem_of_mem_take ht)

theorem At.textSince (hts : W.Inside ts) (hsub : us <:+ ts) (hus : W.Inside us) :
    W.At us id (Parse.textSince W.source (W.left ts))
    (Parse.textSince W.source' (W.right ts)) := by
  change W.Agree id us (.ok (textOf W.source (between (W.left ts) (W.left us)), W.left us))
    (.ok (textOf W.source' (between (W.right ts) (W.right us)), W.right us))
  rw [← textOf_between hts hsub]
  exact .ok _ us (List.suffix_refl us) hus.ne

theorem captureSize_agree (angles : Bool) (stops : List TokenKind) (depth : Nat)
    (ts : List Token) :
    (captureSize angles stops depth (W.left ts) < ts.length ∧
      captureSize angles stops depth (W.right ts) =
      captureSize angles stops depth (W.left ts)) ∨
    (ts.length ≤ captureSize angles stops depth (W.left ts) ∧
      ts.length ≤ captureSize angles stops depth (W.right ts)) := by
  induction ts generalizing depth with
  | nil => exact Or.inr ⟨Nat.zero_le _, Nat.zero_le _⟩
  | cons t ts ih =>
      have hl : W.left (t :: ts) = t :: W.left ts := rfl
      have hr : W.right (t :: ts) = W.move t :: W.right ts := rfl
      have hkind : (W.move t).kind = t.kind := rfl
      rw [hl, hr, captureSize_cons, captureSize_cons, hkind]
      cases depthBehind? angles stops depth t.kind with
      | none => exact Or.inl ⟨Nat.succ_pos _, rfl⟩
      | some d =>
          rcases ih d with ⟨h1, h2⟩ | ⟨h1, h2⟩
          · exact Or.inl ⟨Nat.succ_lt_succ h1, congrArg (· + 1) h2⟩
          · exact Or.inr ⟨Nat.succ_le_succ h1, Nat.succ_le_succ h2⟩

theorem drop_left {n : Nat} (h : ts.length ≤ n) : (W.left ts).drop n <:+ W.rest := by
  rw [left, List.drop_append, List.drop_eq_nil_of_le h]
  exact List.drop_suffix _ _

theorem drop_right {n : Nat} (h : ts.length ≤ n) : (W.right ts).drop n <:+ W.rest' := by
  rw [right, List.drop_append, List.drop_eq_nil_of_le (by rw [List.length_map]; exact h)]
  exact List.drop_suffix _ _

theorem At.capture (hts : W.Inside ts) (angles : Bool) (stops : List TokenKind) :
    W.At ts id (Parse.capture W.source angles stops)
    (Parse.capture W.source' angles stops) := by
  rcases captureSize_agree (W := W) angles stops 0 ts with ⟨hlt, heq⟩ | ⟨hl, hr⟩
  · have hne : ts.drop (captureSize angles stops 0 (W.left ts)) ≠ [] := by
      rw [ne_eq, List.drop_eq_nil_iff]
      omega
    have hsub := List.drop_suffix (captureSize angles stops 0 (W.left ts)) ts
    have hdrop : (W.left ts).drop (captureSize angles stops 0 (W.left ts))
        = W.left (ts.drop (captureSize angles stops 0 (W.left ts))) :=
      List.drop_append_of_le_length (Nat.le_of_lt hlt)
    have hdrop' : (W.right ts).drop (captureSize angles stops 0 (W.right ts))
        = W.right (ts.drop (captureSize angles stops 0 (W.left ts))) := by
      rw [heq, right, List.drop_append_of_le_length (by rw [List.length_map]; omega), right,
        List.map_drop]
    have h := At.textSince hts hsub (hts.of_suffix hsub hne)
    change W.Agree id ts (Parse.textSince W.source (W.left ts) ((W.left ts).drop _))
      (Parse.textSince W.source' (W.right ts) ((W.right ts).drop _))
    rw [hdrop, hdrop']
    exact Agree.mono h hsub
  · have hreach := Forward.reaches (p := Parse.capture W.source angles stops) _ hts.ended
    have hreach' := Forward.reaches (p := Parse.capture W.source' angles stops) _ hts.ended'
    exact .out ⟨drop_left hl, hreach.2⟩ ⟨drop_right hr, hreach'.2⟩

/-! ## Lists -/

theorem length_left (ts : List Token) : ts.length ≤ (W.left ts).length := by
  rw [left, List.length_append]
  exact Nat.le_add_right _ _

theorem length_right (ts : List Token) : ts.length ≤ (W.right ts).length := by
  rw [right, List.length_append, List.length_map]
  exact Nat.le_add_right _ _

theorem At.commaLoop [Forward p] [Forward q] {close : TokenKind} {n n' : Nat}
    (hts : W.Inside ts) (hn : ts.length < n) (hn' : ts.length < n')
    (helem : ∀ us, us <:+ ts → W.Inside us → W.At us φ p q) :
    W.At ts (List.map φ) (Parse.commaLoop close p n) (Parse.commaLoop close q n') := by
  induction n generalizing n' ts with
  | zero => exact absurd hn (Nat.not_lt_zero _)
  | succ n ih =>
      obtain ⟨n', rfl⟩ : ∃ m, n' = m + 1 := ⟨n' - 1, by omega⟩
      unfold Parse.commaLoop
      refine At.check hts fun closes _ => At.atEnd hts fun ends => At.ite ?_ ?_
      · exact fun _ => At.pure hts rfl
      · intro _
        refine At.bind hts (helem ts (List.suffix_refl ts) hts) fun v us hsub hus => ?_
        refine At.accept hus (by decide) ?_ fun _ => At.pure hus rfl
        rintro t vs rfl - hvs
        have hsub' := (List.suffix_cons t vs).trans hsub
        have hlen := hsub.length_le
        rw [List.length_cons] at hlen
        refine At.bind hvs (ih hvs (by omega) (by omega) ?_) ?_
        · exact fun ws hws => helem ws (hws.trans hsub')
        · exact fun _ _ _ hws => At.pure hws rfl

theorem At.commaList [Forward p] [Forward q] {close : TokenKind} (hts : W.Inside ts)
    (helem : ∀ us, us <:+ ts → W.Inside us → W.At us φ p q) :
    W.At ts (List.map φ) (Parse.commaList close p) (Parse.commaList close q) := by
  refine At.get (At.commaLoop hts ?_ ?_ helem)
  · exact Nat.lt_succ_of_le (length_left ts)
  · exact Nat.lt_succ_of_le (length_right ts)

end Overlap
end Deriver.Parse
