import Deriver.Proofs.Parse.Forward

/-!
# What holds after a rule

`After` says of a parser what holds of its value and of the tokens it leaves, if it
succeeds. The rules below follow the combinators.

A rule fails on a token that nothing it reads begins with: `ty_fails`, `bound_fails`
and `genericArg_fails`. A type that begins with a name in front of a colon or an equals
sign is that name and nothing more: `ty_of_name`.
-/

namespace Deriver.Parse

/-- Whether a condition holds of the value of a parser and of what it leaves of some
tokens, if it succeeds. -/
def After {α : Type} (p : Parser α) (ts : List Token) (P : α → List Token → Prop) : Prop :=
  ∀ v us, p ts = .ok (v, us) → P v us

/-- Whether a parser does not succeed on some tokens. -/
def Fails {α : Type} (p : Parser α) (ts : List Token) : Prop := After p ts fun _ _ => False

variable {source : Text} {fuel : Nat} {ts us : List Token} {k : TokenKind}

section Combinators

variable {α β : Type} {p q : Parser α} {f : α → Parser β} {P Q : α → List Token → Prop}
  {R : β → List Token → Prop}

theorem bind_of_eq {v : α} (hp : p ts = .ok (v, us)) : (p >>= f) ts = f v us := by
  change (p ts).bind (fun r => f r.1 r.2) = _
  rw [hp]
  rfl

namespace After

theorem mono (h : After p ts P) (hPQ : ∀ v us, P v us → Q v us) : After p ts Q :=
  fun v us hr => hPQ v us (h v us hr)

theorem bind (h : After p ts P) (hf : ∀ v us, P v us → After (f v) us R) :
    After (p >>= f) ts R := by
  intro w vs hr
  cases hp : p ts with
  | error e =>
      change (p ts).bind (fun r => f r.1 r.2) = _ at hr
      rw [hp] at hr
      cases hr
  | ok r =>
      rw [bind_of_eq hp] at hr
      exact hf r.1 r.2 (h _ _ hp) w vs hr

theorem bind_eq {v : α} (hp : p ts = .ok (v, us)) (hf : After (f v) us R) :
    After (p >>= f) ts R := by
  intro w vs hr
  rw [bind_of_eq hp] at hr
  exact hf w vs hr

theorem map {g : α → β} (h : After p ts fun v us => R (g v) us) : After (g <$> p) ts R := by
  rw [map_eq_pure_bind]
  refine h.bind fun v us hR => ?_
  rintro _ _ ⟨⟩
  exact hR

theorem pure {v : α} (h : P v ts) : After (pure v) ts P := by
  rintro _ _ ⟨⟩
  exact h

theorem failHere (problem : Problem) : After (failHere problem) ts P := nofun

theorem ite {c : Prop} [Decidable c] (hp : c → After p ts P) (hq : ¬ c → After q ts P) :
    After (if c then p else q) ts P := by
  split
  · next hc => exact hp hc
  · next hc => exact hq hc

theorem get {f : List Token → Parser β} (h : After (f ts) ts R) :
    After (MonadState.get >>= f) ts R := h

theorem peek {f : Token → Parser β} (h : After (f (ts.headD Token.none)) ts R) :
    After (peek >>= f) ts R := h

theorem peekKind {n : Nat} {f : TokenKind → Parser β} (h : After (f (kindOf ts n)) ts R) :
    After (peekKind n >>= f) ts R := h

end After

theorem Fails.bind (h : Fails p ts) : After (p >>= f) ts R :=
  After.bind h fun _ _ => False.elim

end Combinators

/-! ## Tokens that are not there -/

theorem kindOf_zero (ts : List Token) : kindOf ts 0 = (ts.headD Token.none).kind := by
  cases ts <;> rfl

theorem check_ne (hk : kindOf ts 0 ≠ k) : check k ts = .ok (false, ts) := by
  have hfalse : (k != .eof && kindOf ts 0 == k) = false := by
    rw [beq_eq_false_iff_ne.mpr hk, Bool.and_false]
  change Except.ok (k != .eof && kindOf ts 0 == k, ts) = _
  rw [hfalse]

theorem accept_ne (hk : kindOf ts 0 ≠ k) : accept k ts = .ok (false, ts) :=
  (bind_of_eq (check_ne hk)).trans rfl

theorem binder?_ne (h : kindOf ts 0 ≠ .forKw) : binder? ts = .ok ([], ts) :=
  (bind_of_eq (check_ne h)).trans rfl

theorem tildeConst_ne (h : kindOf ts 0 ≠ .tilde) : tildeConst ts = .ok ((), ts) :=
  (bind_of_eq (accept_ne h)).trans rfl

theorem turbofish_ne (h : kindOf ts 0 ≠ .doubleColon) : turbofish ts = .ok ((), ts) :=
  (bind_of_eq (check_ne h)).trans rfl

/-! ## What begins nothing -/

/-- Whether a kind of token can begin a type. -/
def startsTy : TokenKind → Bool
  | .lparen | .lbracket | .amp | .doubleAmp | .star | .bang | .forKw | .dynKw | .implKw | .lt
  | .doubleColon => true
  | k => startsFn k || isPathIdent k

/-- Whether a kind of token can begin a generic argument. -/
def startsArg (k : TokenKind) : Bool := k == .lifetime || startsConst k || startsTy k

theorem startsTy_of_fn (h : startsFn k = true) : startsTy k = true := by
  cases k <;> first | rfl | cases h

theorem startsTy_of_pathIdent (h : isPathIdent k = true) : startsTy k = true := by
  cases k <;> first | rfl | cases h

theorem ty_fails (h : startsTy (kindOf ts 0) = false) : Fails (ty source fuel) ts := by
  cases fuel with
  | zero => exact nofun
  | succ fuel =>
      rw [kindOf_zero] at h
      unfold ty
      refine .peek ?_
      generalize ts.headD Token.none = t at h ⊢
      dsimp only
      split
      case h_13 =>
        refine .ite (fun hfn => ?_) fun _ => .ite (fun hident => ?_) fun _ => .failHere _
        · rw [startsTy_of_fn hfn] at h
          cases h
        · rw [startsTy_of_pathIdent hident] at h
          cases h
      all_goals next hk => rw [hk] at h; cases h

theorem segment_fails (h : isPathIdent (kindOf ts 0) = false) :
    Fails (segment source fuel) ts := by
  cases fuel with
  | zero => exact nofun
  | succ fuel =>
      rw [kindOf_zero] at h
      unfold segment
      refine .peek ?_
      rw [h]
      exact .failHere _

theorem segmentLoop_fails {elem : Parser Segment} {n : Nat} (h : Fails elem ts) :
    Fails (segmentLoop elem n) ts := by
  cases n with
  | zero => exact .failHere _
  | succ n => exact h.bind

theorem path_fails (h : isPathIdent (kindOf ts 0) = false)
    (hcolons : kindOf ts 0 ≠ .doubleColon) : Fails (path source fuel) ts := by
  cases fuel with
  | zero => exact nofun
  | succ fuel =>
      unfold path
      exact .peek (.bind_eq (accept_ne hcolons)
        (.get (segmentLoop_fails (segment_fails h)).bind))

theorem bound_fails (h : startsBound (kindOf ts 0) = false) :
    Fails (bound source fuel) ts := by
  cases fuel with
  | zero => exact nofun
  | succ fuel =>
      have hne {k : TokenKind} (hk : startsBound k = true) : kindOf ts 0 ≠ k := by
        rintro rfl
        rw [h] at hk
        cases hk
      have hident : isPathIdent (kindOf ts 0) = false := by
        generalize kindOf ts 0 = k at h
        cases k <;> first | rfl | cases h
      unfold bound
      refine .bind_eq (check_ne (hne rfl)) (.bind_eq (accept_ne (hne rfl)) ?_)
      refine .bind_eq (binder?_ne (hne rfl)) (.bind_eq (tildeConst_ne (hne rfl)) ?_)
      exact .bind_eq (accept_ne (hne rfl)) (path_fails hident (hne rfl)).bind

theorem genericArg_fails (h : startsArg (kindOf ts 0) = false) :
    Fails (genericArg source fuel) ts := by
  cases fuel with
  | zero => exact nofun
  | succ fuel =>
      simp only [startsArg, Bool.or_eq_false_iff] at h
      obtain ⟨⟨hlifetime, hconst⟩, hty⟩ := h
      have hident : (kindOf ts 0 == .ident) = false := by
        generalize kindOf ts 0 = k at hty
        cases k <;> first | rfl | cases hty
      rw [kindOf_zero] at hlifetime hconst hident
      unfold genericArg
      refine .peek ?_
      dsimp only
      rw [hlifetime, hconst, hident]
      exact (ty_fails hty).bind

/-! ## A name in front of a mark -/

section Name

variable {t : Token}

theorem take_cons (h : t.kind ≠ .eof) : take (t :: ts) = .ok (t, ts) := by
  change Except.ok (t, behind (t :: ts)) = _
  rw [behind, if_neg (by simpa using h)]

/-- A segment is its name if nothing that can belong to it comes behind. -/
theorem segment_of_name (ht : isPathIdent t.kind = true)
    (hts : kindOf ts 0 ∉ [.doubleColon, .lt, .lparen]) :
    After (segment source fuel) (t :: ts) fun _ us => us = ts := by
  simp only [List.mem_cons, List.not_mem_nil, or_false, not_or] at hts
  obtain ⟨hcolons, hlt, hlparen⟩ := hts
  cases fuel with
  | zero => exact nofun
  | succ fuel =>
      have heof : t.kind ≠ .eof := by
        intro heof
        rw [heof] at ht
        cases ht
      unfold segment
      refine .peek ?_
      rw [List.headD_cons, ht]
      refine .bind_eq (take_cons heof) (.bind_eq (turbofish_ne hcolons) ?_)
      exact .bind_eq (accept_ne hlt) (.bind_eq (accept_ne hlparen) (.pure rfl))

theorem path_of_name (ht : isPathIdent t.kind = true)
    (hts : kindOf ts 0 ∉ [.doubleColon, .lt, .lparen]) :
    After (path source fuel) (t :: ts) fun _ us => us = ts := by
  have hcolons : kindOf ts 0 ≠ .doubleColon := fun h => hts (h ▸ List.mem_cons_self ..)
  have hloop (fuel n : Nat) :
      After (segmentLoop (segment source fuel) n) (t :: ts) fun _ us => us = ts := by
    cases n with
    | zero => exact .failHere _
    | succ n =>
        refine (segment_of_name ht hts).bind ?_
        rintro s us rfl
        exact .bind_eq (check_ne hcolons) (.peekKind (.pure rfl))
  cases fuel with
  | zero => exact nofun
  | succ fuel =>
      unfold path
      refine .peek (.bind_eq (accept_ne ?_)
        (.get ((hloop fuel _).bind fun _ _ h => .pure h)))
      intro h
      rw [show t.kind = _ from h] at ht
      cases ht

/-- A type that begins with a name is that name if nothing that can belong to it comes
behind. -/
theorem ty_of_name (ht : t.kind = .ident ∨ t.kind = .selfValueKw)
    (hts : kindOf ts 0 ∉ [.doubleColon, .lt, .lparen, .bang]) :
    After (ty source fuel) (t :: ts) fun _ us => us = ts := by
  have hbang : kindOf ts 0 ≠ .bang := fun h => hts (by rw [h]; decide)
  have hname : isPathIdent t.kind = true := by rcases ht with h | h <;> rw [h] <;> rfl
  have hpath (fuel : Nat) (pos : Position) :
      After (pathOrMacro source fuel pos) (t :: ts) fun _ us => us = ts := by
    cases fuel with
    | zero => exact nofun
    | succ fuel =>
        unfold pathOrMacro
        refine .get ((path_of_name hname fun h => hts (by simp_all)).bind ?_)
        rintro p us rfl
        exact .bind_eq (accept_ne hbang) (.pure rfl)
  cases fuel with
  | zero =>
      intro v us h
      cases h
  | succ fuel =>
      unfold ty
      refine .peek ?_
      rw [List.headD_cons]
      dsimp only
      rcases ht with h | h
      · rw [h]
        refine .ite (fun _ => ?_) fun _ => hpath fuel t.pos
        exact .bind_eq (take_cons (by rw [h]; decide)) (.pure rfl)
      · rw [h]
        exact hpath fuel t.pos

end Name

/-- An argument that begins like a type, and with no name in front of a mark, is one. -/
theorem genericArg_of_ty (hts : startsTy (kindOf ts 0) = true)
    (hname : kindOf ts 0 = .ident → kindOf ts 1 ∉ [.equals, .colon]) :
    genericArg source (fuel + 1) ts = (GenericArg.ty <$> ty source fuel) ts := by
  simp only [List.mem_cons, List.not_mem_nil, or_false, not_or, kindOf_zero] at hname
  have hlifetime : ((ts.headD Token.none).kind == .lifetime) = false := by
    rw [kindOf_zero] at hts
    generalize (ts.headD Token.none).kind = k at hts
    cases k <;> first | rfl | cases hts
  have hconst : startsConst (ts.headD Token.none).kind = false := by
    rw [kindOf_zero] at hts
    generalize (ts.headD Token.none).kind = k at hts
    cases k <;> first | rfl | cases hts
  rw [map_eq_pure_bind]
  unfold genericArg
  change (if _ then _ else if _ then _ else if _ then _ else _ : Parser GenericArg) ts = _
  rw [if_neg (by rw [hlifetime]; decide), if_neg (by rw [hconst]; decide)]
  split
  · next hident =>
      obtain ⟨hequals, hcolon⟩ := hname (beq_iff_eq.mp hident)
      change (if _ then _ else if _ then _ else _ : Parser GenericArg) ts = _
      rw [if_neg (by simpa using hequals), if_neg (by simpa using hcolon)]
  · rfl

end Deriver.Parse

/-!
## More of the budget changes nothing

A rule of the type grammar that succeeds with some budget yields the same with any
larger one: `ty_mono` and its like. A rule that runs out of its budget fails, so a rule
that succeeded did not miss what is added. `Below` says so of two parsers, and as a
class it is found for two runs of a rule by looking at the rule.
-/

set_option synthInstance.maxSize 1000

namespace Deriver.Parse

/-- What `p` yields `q` yields too. -/
class Below {α : Type} (p q : Parser α) : Prop where
  ok : ∀ ts r, p ts = .ok r → q ts = .ok r

section Combinators

variable {α β : Type} {p q p' q' : Parser α} {f g : α → Parser β}

instance (priority := high) (p : Parser α) : Below p p where
  ok _ _ h := h

theorem Below.bind (hp : Below p q) (hf : ∀ v, Below (f v) (g v)) :
    Below (p >>= f) (q >>= g) where
  ok ts r h := by
    change (q ts).bind (fun r => g r.1 r.2) = .ok r
    change (p ts).bind (fun r => f r.1 r.2) = .ok r at h
    cases hpts : p ts with
    | error e => rw [hpts] at h; cases h
    | ok x =>
        rw [hpts] at h
        rw [hp.ok ts x hpts]
        exact (hf x.1).ok x.2 r h

instance [Below p q] [∀ v, Below (f v) (g v)] : Below (p >>= f) (q >>= g) :=
  .bind inferInstance inferInstance

instance {h : α → β} [Below p q] : Below (h <$> p) (h <$> q) := by
  rw [map_eq_pure_bind, map_eq_pure_bind]
  infer_instance

instance {c : Prop} [Decidable c] [Below p q] [Below p' q'] :
    Below (if c then p else p') (if c then q else q') := by
  split <;> infer_instance

instance (problem : Problem) : Below (failHere problem) q where
  ok ts r h := by cases h

instance {close : TokenKind} {n : Nat} [Below p q] :
    Below (commaLoop close p n) (commaLoop close q n) := by
  induction n with
  | zero => unfold commaLoop; infer_instance
  | succ n ih => unfold commaLoop; infer_instance

instance {close : TokenKind} [Below p q] :
    Below (commaList close p) (commaList close q) := by
  unfold commaList
  infer_instance

end Combinators

/-! ## Types -/

section Lists

variable {elem elem' : Parser Ty} [Below elem elem']

instance : Below (output? elem) (output? elem') := by
  unfold output?
  infer_instance

instance (n : Nat) : Below (tupleRest elem n) (tupleRest elem' n) := by
  induction n with
  | zero => unfold tupleRest; infer_instance
  | succ n ih => unfold tupleRest; infer_instance

instance (n : Nat) : Below (fnInputs elem n) (fnInputs elem' n) := by
  induction n with
  | zero => unfold fnInputs; infer_instance
  | succ n ih => unfold fnInputs; infer_instance

instance (names : List Text) (pos : Position) :
    Below (fnType elem names pos) (fnType elem' names pos) := by
  unfold fnType
  infer_instance

end Lists

instance {elem elem' : Parser Path} [Below elem elem'] :
    Below (asTrait? elem) (asTrait? elem') := by
  unfold asTrait?
  infer_instance

section Bounds

variable {elem elem' : Parser Bound} [Below elem elem']

instance (n : Nat) : Below (boundLoop elem n) (boundLoop elem' n) := by
  induction n with
  | zero => unfold boundLoop; infer_instance
  | succ n ih => unfold boundLoop; infer_instance

instance : Below (boundList elem) (boundList elem') := by
  unfold boundList
  infer_instance

end Bounds

section Segments

variable {elem elem' : Parser Segment} [Below elem elem'] (n : Nat)

instance : Below (segmentLoop elem n) (segmentLoop elem' n) := by
  induction n with
  | zero => unfold segmentLoop; infer_instance
  | succ n ih => unfold segmentLoop; infer_instance

instance : Below (qualifiedLoop elem n) (qualifiedLoop elem' n) := by
  induction n with
  | zero => unfold qualifiedLoop; infer_instance
  | succ n ih => unfold qualifiedLoop; infer_instance

end Segments

theorem below_grammar (s : Text) {n m : Nat} (h : n ≤ m) :
    Below (ty s n) (ty s m) ∧
      (∀ pos, Below (reference s n pos) (reference s m pos)) ∧
      (∀ pos, Below (pathOrMacro s n pos) (pathOrMacro s m pos)) ∧
      Below (path s n) (path s m) ∧
      Below (segment s n) (segment s m) ∧
      Below (genericArg s n) (genericArg s m) ∧
      Below (bound s n) (bound s m) := by
  induction n generalizing m with
  | zero =>
      refine ⟨?_, fun pos => ?_, fun pos => ?_, ?_, ?_, ?_, ?_⟩
      · rw [ty]; infer_instance
      · rw [reference]; infer_instance
      · rw [pathOrMacro]; infer_instance
      · rw [path]; infer_instance
      · rw [segment]; infer_instance
      · rw [genericArg]; infer_instance
      · rw [bound]; infer_instance
  | succ n ih =>
      obtain ⟨m, rfl⟩ : ∃ k, m = k + 1 := Nat.exists_eq_add_one.mpr (Nat.zero_lt_of_lt h)
      obtain ⟨hty, hreference, hpathOrMacro, hpath, hsegment, hgenericArg, hbound⟩ :=
        ih (Nat.le_of_succ_le_succ h)
      refine ⟨?_, fun pos => ?_, fun pos => ?_, ?_, ?_, ?_, ?_⟩
      · unfold ty
        refine Below.bind inferInstance fun t => ?_
        dsimp only
        split <;> infer_instance
      · unfold reference; infer_instance
      · unfold pathOrMacro; infer_instance
      · unfold path; infer_instance
      · unfold segment; infer_instance
      · unfold genericArg; dsimp only; infer_instance
      · unfold bound; infer_instance

end Deriver.Parse
