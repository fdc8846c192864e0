import Deriver.Proofs.Parse.Isolation
import Deriver.Proofs.Parse.Lockstep

/-!
# Parsing tokens without their source

Main statement: `parseTokens_detached`. The tokens of an ASCII source are parsed to the same
items, with the same errors, places, names, other items and modules, whether the source
is at hand or not. Only captured texts differ, and each of them is captured from the same
tokens in both.

The text of a bare path in an attribute is none of these. It is put together from the
segments and the separators both times, so blanks around a separator are never part of it.

A captured text is looked at in one place: a discriminant must not be empty. It is empty
without the source just when it is with it.
-/

set_option synthInstance.maxSize 1000

namespace Deriver

namespace Parse

/-! ## Captures in lockstep -/

/-- Whether tokens are left of those of an ASCII source. -/
structure Ahead (s : Text) (top : List Token) : Prop where
  ascii : ∀ b ∈ s, b < 0x80
  sub : top <:+ (scan s).tokens

variable {s : Text} {top ts us : List Token} {t : Token}

theorem Ahead.of_suffix (h : Ahead s top) (hsub : ts <:+ top) : Ahead s ts :=
  ⟨h.ascii, hsub.trans h.sub⟩

theorem Ahead.between (h : Ahead s top) (hsub : ts <:+ top) (hne : ts ≠ []) :
    Parse.between top ts <:+: ownTokens s := by
  obtain ⟨us, rfl⟩ := hsub
  obtain ⟨pre, hpre⟩ := h.sub
  refine ⟨pre, ts.dropLast, ?_⟩
  rw [Parse.between, List.length_append, Nat.add_sub_cancel, List.take_left,
    ownTokens, ← hpre,
    List.append_assoc, ← List.append_assoc pre, ← List.append_assoc pre,
    List.dropLast_append_of_ne_nil hne]

namespace Lockstep

theorem textSince (h : Ahead s top) :
    Lockstep top (Captures s) (Parse.textSince [] top) (Parse.textSince s top) :=
  fun _ hsub hended => .ok (captures_textOf h.ascii (h.between hsub hended.ne_nil)) _

theorem capture (h : Ahead s top) (angles : Bool) (stops : List TokenKind) :
    Lockstep top (Captures s) (Parse.capture [] angles stops)
    (Parse.capture s angles stops) := by
  intro ts hsub hended
  have hne : ts.drop (captureSize angles stops 0 ts) ≠ [] := by
    rw [ne_eq, List.drop_eq_nil_iff]
    exact Nat.not_le.mpr (captureSize_lt hended angles stops 0)
  exact .ok (captures_textOf h.ascii
    ((h.of_suffix hsub).between (List.drop_suffix _ ts) hne)) _

/-! ## Lists -/

section

variable {α β : Type} {R : α → β → Prop} {p : Parser α} {q : Parser β} [Forward p]

theorem commaLoop (h : Lockstep top R p q) (close : TokenKind) (n : Nat) :
    Lockstep top (List.Forall₂ R) (Parse.commaLoop close p n)
    (Parse.commaLoop close q n) := by
  induction n with
  | zero => exact .failHere _
  | succ n ih =>
      unfold Parse.commaLoop
      refine .same fun _ => .same fun _ => .ite (.pure .nil) (.bind h fun v w hvw => ?_)
      refine .same fun _ => .ite (.bind ih fun vs ws hvs => .pure (.cons hvw hvs)) ?_
      exact .pure (.cons hvw .nil)

theorem commaList (h : Lockstep top R p q) (close : TokenKind) :
    Lockstep top (List.Forall₂ R) (Parse.commaList close p) (Parse.commaList close q) :=
  .get fun _ hsub _ => .commaLoop (h.mono hsub) close _

end

/-! ## Types -/

section

variable {elem elem' : Parser Ty} [Forward elem]

theorem tupleRest (h : Lockstep top (Ty.Twin s) elem elem') (n : Nat) :
    Lockstep top (List.Forall₂ (Ty.Twin s)) (Parse.tupleRest elem n)
    (Parse.tupleRest elem' n) := by
  induction n with
  | zero => exact .failHere _
  | succ n ih =>
      unfold Parse.tupleRest
      refine .same fun _ => .ite (.same fun _ => .ite (.pure .nil) ?_) (.pure .nil)
      exact .bind h fun t u htu => .bind ih fun ts us hts => .pure (.cons htu hts)

theorem output? (h : Lockstep top (Ty.Twin s) elem elem') :
    Lockstep top (Option.Rel (Ty.Twin s)) (Parse.output? elem) (Parse.output? elem') := by
  unfold Parse.output?
  exact .same fun _ => .ite (.bind h fun t u htu => .pure (.some htu)) (.pure .none)

theorem fnInputs (h : Lockstep top (Ty.Twin s) elem elem') (n : Nat) :
    Lockstep top (fun r r' => List.Forall₂ (Ty.Twin s) r.1 r'.1 ∧ r.2 = r'.2)
      (Parse.fnInputs elem n) (Parse.fnInputs elem' n) := by
  induction n with
  | zero => exact .failHere _
  | succ n ih =>
      unfold Parse.fnInputs
      dsimp only
      refine .same fun _ => .same fun _ => .ite (.pure ⟨.nil, rfl⟩) (.same fun _ => ?_)
      refine .ite (.pure ⟨.nil, rfl⟩)
        (.same fun _ => .bind h fun t u htu => .same fun _ => ?_)
      refine .ite (.bind ih ?_) (.pure ⟨.cons htu .nil, rfl⟩)
      exact fun r r' hr => .pure ⟨.cons htu hr.1, hr.2⟩

theorem fnType (h : Lockstep top (Ty.Twin s) elem elem') (names : List Text)
    (pos : Position) :
    Lockstep top (Ty.Twin s) (Parse.fnType elem names pos)
    (Parse.fnType elem' names pos) := by
  unfold Parse.fnType
  dsimp only
  refine .same fun isUnsafe => .same fun abi => .same fun _ => .same fun _ => ?_
  refine .get fun ts hsub _ => ?_
  have helem := h.mono hsub
  refine .bind (.fnInputs helem _) fun r r' hr => .same fun _ => ?_
  refine .bind (.output? helem) fun o o' ho => .pure (.fn pos ?_)
  rw [hr.2]
  exact .mk names isUnsafe abi r'.2 hr.1 ho

end

theorem boundList {elem elem' : Parser Bound} [Forward elem]
    (h : Lockstep top (Bound.Twin s) elem elem') :
    Lockstep top (List.Forall₂ (Bound.Twin s)) (Parse.boundList elem)
    (Parse.boundList elem') := by
  have hloop (n : Nat) : Lockstep top (List.Forall₂ (Bound.Twin s)) (boundLoop elem n)
      (boundLoop elem' n) := by
    induction n with
    | zero => exact .failHere _
    | succ n ih =>
        unfold boundLoop
        refine .same fun _ => .ite (.pure .nil) (.bind h fun b c hbc => .same fun _ => ?_)
        exact .ite (.bind ih fun bs cs hbs => .pure (.cons hbc hbs))
          (.pure (.cons hbc .nil))
  exact .get fun _ hsub _ => (hloop _).mono hsub

theorem segmentLoop {elem elem' : Parser Segment} [Forward elem]
    (h : Lockstep top (Segment.Twin s) elem elem') (n : Nat) :
    Lockstep top (List.Forall₂ (Segment.Twin s)) (Parse.segmentLoop elem n)
      (Parse.segmentLoop elem' n) := by
  induction n with
  | zero => exact .failHere _
  | succ n ih =>
      unfold Parse.segmentLoop
      refine .bind h fun a b hab => .same fun _ => .same fun _ =>
        .ite (.same fun _ => ?_) ?_
      · exact .bind ih fun as bs has => .pure (.cons hab has)
      · exact .pure (.cons hab .nil)

theorem qualifiedLoop {elem elem' : Parser Segment} [Forward elem]
    (h : Lockstep top (Segment.Twin s) elem elem') (n : Nat) :
    Lockstep top (List.Forall₂ (Segment.Twin s)) (Parse.qualifiedLoop elem n)
      (Parse.qualifiedLoop elem' n) := by
  induction n with
  | zero => exact .failHere _
  | succ n ih =>
      unfold Parse.qualifiedLoop
      refine .same fun _ => .ite (.bind h fun a b hab => ?_) (.pure .nil)
      exact .bind ih fun as bs has => .pure (.cons hab has)

theorem asTrait? {elem elem' : Parser Path} [Forward elem]
    (h : Lockstep top (Path.Twin s) elem elem') :
    Lockstep top (Option.Rel (Path.Twin s)) (Parse.asTrait? elem)
    (Parse.asTrait? elem') := by
  unfold Parse.asTrait?
  exact .same fun _ => .ite (.bind h fun p q hpq => .pure (.some hpq)) (.pure .none)

end Lockstep

theorem bindFirst_twin {bs cs : List Bound} (names : List Text)
    (h : List.Forall₂ (Bound.Twin s) bs cs) :
    List.Forall₂ (Bound.Twin s) (bindFirst names bs) (bindFirst names cs) := by
  cases h with
  | nil => exact .nil
  | cons hb hbs =>
      cases hb with
      | outlives binder name => exact .cons (.outlives names name) hbs
      | trait binder maybe hp => exact .cons (.trait names maybe hp) hbs

/-- The rules of the type grammar with some budget, without the source and with it. -/
structure Grammar (s : Text) (fuel : Nat) : Prop where
  ty : ∀ top, Ahead s top → Lockstep top (Ty.Twin s) (Parse.ty [] fuel) (Parse.ty s fuel)
  reference : ∀ pos top, Ahead s top →
    Lockstep top (Ty.Twin s) (Parse.reference [] fuel pos) (Parse.reference s fuel pos)
  pathOrMacro : ∀ pos top, Ahead s top →
    Lockstep top (Ty.Twin s) (Parse.pathOrMacro [] fuel pos) (Parse.pathOrMacro s fuel pos)
  path : ∀ top, Ahead s top →
    Lockstep top (Path.Twin s) (Parse.path [] fuel) (Parse.path s fuel)
  segment : ∀ top, Ahead s top →
    Lockstep top (Segment.Twin s) (Parse.segment [] fuel) (Parse.segment s fuel)
  genericArg : ∀ top, Ahead s top →
    Lockstep top (GenericArg.Twin s) (Parse.genericArg [] fuel) (Parse.genericArg s fuel)
  bound : ∀ top, Ahead s top →
    Lockstep top (Bound.Twin s) (Parse.bound [] fuel) (Parse.bound s fuel)

namespace Grammar

variable {fuel : Nat}

theorem reference_succ (h : Grammar s fuel) (pos : Position) (htop : Ahead s top) :
    Lockstep top (Ty.Twin s) (Parse.reference [] (fuel + 1) pos)
      (Parse.reference s (fuel + 1) pos) := by
  unfold Parse.reference
  refine .same fun _ => .same fun lifetime => .same fun isMut => ?_
  exact .bind (h.ty top htop) fun t u htu => .pure (.ref pos lifetime isMut htu)

theorem pathOrMacro_succ (h : Grammar s fuel) (pos : Position) (htop : Ahead s top) :
    Lockstep top (Ty.Twin s) (Parse.pathOrMacro [] (fuel + 1) pos)
      (Parse.pathOrMacro s (fuel + 1) pos) := by
  unfold Parse.pathOrMacro
  refine .get fun start hsub _ => ?_
  have hstart := htop.of_suffix hsub
  refine .bind (h.path start hstart) fun p q hpq => .same fun _ =>
    .ite (.same fun _ => ?_) ?_
  · exact .bind (.textSince hstart) fun raw raw' hraw => .pure (.macroCall pos hraw)
  · exact .pure (.path hpq)

theorem path_succ (h : Grammar s fuel) (htop : Ahead s top) :
    Lockstep top (Path.Twin s) (Parse.path [] (fuel + 1)) (Parse.path s (fuel + 1)) := by
  unfold Parse.path
  refine .same fun t => .same fun isGlobal => .get fun ts hsub _ => ?_
  refine .bind (.segmentLoop (h.segment ts (htop.of_suffix hsub)) _) fun ss ss' hss => ?_
  exact .pure (.mk isGlobal t.pos .none hss)

theorem segment_succ (h : Grammar s fuel) (htop : Ahead s top) :
    Lockstep top (Segment.Twin s) (Parse.segment [] (fuel + 1))
    (Parse.segment s (fuel + 1)) := by
  unfold Parse.segment
  refine .same fun t => .ite (.failHere _) (.same fun _ => .same fun _ => .same fun _ => ?_)
  refine .ite ?_ (.same fun _ => .ite ?_ (.pure (.mk t.lexeme .none)))
  · refine .bind (.commaList (h.genericArg top htop) .gt) fun as bs has => .same fun _ => ?_
    exact .pure (.mk t.lexeme (.angled has))
  · refine .bind (.commaList (h.ty top htop) .rparen) fun ts us hts => .same fun _ => ?_
    exact .bind (.output? (h.ty top htop)) fun o o' ho =>
      .pure (.mk t.lexeme (.call hts ho))

theorem genericArg_succ (h : Grammar s fuel) (htop : Ahead s top) :
    Lockstep top (GenericArg.Twin s) (Parse.genericArg [] (fuel + 1))
      (Parse.genericArg s (fuel + 1)) := by
  have hty : Lockstep top (GenericArg.Twin s) (GenericArg.ty <$> Parse.ty [] fuel)
      (GenericArg.ty <$> Parse.ty s fuel) := .map (h.ty top htop) fun t u htu => .ty htu
  unfold Parse.genericArg
  dsimp only
  refine .same fun t => .ite (.same fun _ => .pure (.lifetime t.lexeme))
    (.ite ?_ (.ite ?_ hty))
  · exact .bind (.capture htop false _) fun e e' he => .pure (.const he)
  · refine .same fun _ => .ite ?_ (.ite ?_ hty)
    · refine .same fun _ => .same fun _ => ?_
      exact .bind (h.ty top htop) fun t' u htu => .pure (.binding t.lexeme htu)
    · refine .same fun _ => .same fun _ => ?_
      exact .bind (.boundList (h.bound top htop)) fun bs cs hbs =>
        .pure (.constraint t.lexeme hbs)

theorem bound_succ (h : Grammar s fuel) (htop : Ahead s top) :
    Lockstep top (Bound.Twin s) (Parse.bound [] (fuel + 1)) (Parse.bound s (fuel + 1)) := by
  unfold Parse.bound
  refine .same fun _ => .ite (.same fun t => .pure (.outlives [] t.lexeme))
    (.same fun _ => ?_)
  refine .ite (.bind (h.bound top htop) fun b c hbc => .same fun _ => .pure hbc) ?_
  refine .same fun names => .same fun _ => .same fun maybe => ?_
  exact .bind (h.path top htop) fun p q hpq => .pure (.trait names maybe hpq)

theorem ty_succ (h : Grammar s fuel) (htop : Ahead s top) :
    Lockstep top (Ty.Twin s) (Parse.ty [] (fuel + 1)) (Parse.ty s (fuel + 1)) := by
  have hty := h.ty top htop
  have hbounds := Lockstep.boundList (h.bound top htop)
  unfold Parse.ty
  dsimp only
  refine .same fun t => ?_
  -- one case for each kind of token that a type begins with, in the order of `Parse.ty`
  split
  case h_1 =>
    refine .same fun _ => .same fun _ => .ite (.pure (.tuple t.pos .nil)) ?_
    refine .bind hty fun u u' hu => .same fun _ => .ite (.pure (.paren t.pos hu)) ?_
    refine .get fun ts hsub _ => .bind (.tupleRest (hty.mono hsub) _) fun us us' hus => ?_
    exact .same fun _ => .pure (.tuple t.pos (.cons hu hus))
  case h_2 =>
    refine .same fun _ => .bind hty fun u u' hu => .same fun _ =>
      .ite ?_ (.same fun _ => ?_)
    · refine .bind (.capture htop false _) fun len len' hlen => .same fun _ => ?_
      exact .pure (.array t.pos hu hlen)
    · exact .pure (.slice t.pos hu)
  case h_3 => exact h.reference t.pos top htop
  case h_4 =>
    exact .bind (h.reference t.pos top htop) fun u u' hu => .pure (.ref t.pos none false hu)
  case h_5 =>
    exact .same fun _ => .same fun isMut => .bind hty fun u u' hu =>
      .pure (.ptr t.pos isMut hu)
  case h_6 => exact .same fun _ => .pure (.never t.pos)
  case h_7 =>
    refine .same fun names => .same fun _ => .ite (.fnType hty names t.pos) ?_
    exact .bind hbounds fun bs cs hbs =>
      .pure (.traitObject t.pos false (bindFirst_twin names hbs))
  case h_8 =>
    exact .same fun _ => .bind hbounds fun bs cs hbs => .pure (.traitObject t.pos true hbs)
  case h_9 =>
    exact .same fun _ => .bind hbounds fun bs cs hbs => .pure (.implTrait t.pos hbs)
  case h_10 =>
    refine .same fun _ => .bind hty fun u u' hu => ?_
    refine .bind (.asTrait? (h.path top htop)) fun p q hpq => .same fun _ => ?_
    refine .get fun ts hsub _ => ?_
    refine .bind (.qualifiedLoop (h.segment ts (htop.of_suffix hsub)) _)
      fun ss ss' hss => ?_
    have hempty : ss.isEmpty = ss'.isEmpty := by
      cases hss <;> rfl
    rw [hempty]
    exact .ite (.failHere _) (.pure (.path (.mk false t.pos (.some (.mk hu hpq)) hss)))
  case h_11 =>
    exact .ite (.same fun _ => .pure (.infer t.pos)) (h.pathOrMacro t.pos top htop)
  case h_12 => exact h.pathOrMacro t.pos top htop
  case h_13 =>
    exact .ite (.fnType hty [] t.pos) (.ite (h.pathOrMacro t.pos top htop) (.failHere _))

end Grammar

theorem grammar (s : Text) (fuel : Nat) : Grammar s fuel := by
  induction fuel with
  | zero =>
      exact ⟨fun _ _ => .failHere _, fun _ _ _ => .failHere _, fun _ _ _ => .failHere _,
        fun _ _ => .failHere _, fun _ _ => .failHere _, fun _ _ => .failHere _,
        fun _ _ => .failHere _⟩
  | succ fuel h =>
      exact ⟨fun _ => h.ty_succ, fun pos _ => h.reference_succ pos,
        fun pos _ => h.pathOrMacro_succ pos, fun _ => h.path_succ, fun _ => h.segment_succ,
        fun _ => h.genericArg_succ, fun _ => h.bound_succ⟩

/-! ## Attributes in lockstep -/

theorem mem_own (h : Ahead s (t :: us)) (ht : t.kind ≠ .eof) : t ∈ ownTokens s := by
  have hmem := h.sub.subset (List.mem_cons_self ..)
  rw [scan_tokens_own, List.mem_append, List.mem_singleton] at hmem
  exact hmem.resolve_right fun heq => ht (heq ▸ rfl)

theorem captures_lexeme (ht : t ∈ ownTokens s) : Captures s t.lexeme t.lexeme := by
  obtain ⟨pre, post, hown⟩ := List.append_of_mem ht
  have hrun : [t] <:+: ownTokens s := ⟨pre, post, by rw [hown, List.append_assoc]; rfl⟩
  have h := Captures.run hrun (List.cons_ne_nil t [])
  rwa [List.head_cons, List.getLast_singleton, ← lexeme_eq_slice ht] at h

theorem raw_litOf (t : Token) : (litOf t).raw = t.lexeme := by
  unfold litOf
  split <;> rfl

theorem exists_separator (h : kindOf ts 0 = .doubleColon) :
    ∃ t us, ts = t :: us ∧ t.kind = .doubleColon ∧ behind ts = us := by
  cases ts with
  | nil => cases h
  | cons t us =>
      have ht : t.kind = .doubleColon := h
      exact ⟨t, us, rfl, ht, behind_of_not_eof (ht ▸ by decide)⟩

theorem pathText_cons (t : Token) (us : List Token) :
    pathText (t :: us) =
      (if t.kind = .doubleColon then ("::" : Text) else t.lexeme) ++ pathText us := rfl

/-- The path in front of an argument is the text of its tokens, of which one is a
separator if there are several. -/
theorem pathText_metaSegments? {n : Nat} {p : Text} {rest : List Token}
    (h : metaSegments? n ts = some (p, rest)) :
    ∃ us, ts = us ++ rest ∧ p = pathText us ∧
      ((∃ c ∈ us, c.kind = .doubleColon) ∨ ∃ t, us = [t] ∧ p = t.lexeme) := by
  induction n generalizing ts p rest with
  | zero => cases h
  | succ n ih =>
      simp only [metaSegments?] at h
      split at h
      · cases h
      · next hstart =>
          rw [Bool.or_eq_true, not_or] at hstart
          cases ts with
          | nil => exact absurd rfl hstart.1
          | cons t us =>
              have hcolon : ¬ t.kind = .doubleColon :=
                fun ht => hstart.2 (beq_iff_eq.mpr ht)
              have hend : t.kind ≠ .eof :=
                fun ht => hstart.1 (by rw [List.headD_cons, ht]; rfl)
              rw [behind_of_not_eof hend, List.headD_cons] at h
              split at h
              · next hnext =>
                  rw [Bool.and_eq_true, Bool.and_eq_true] at hnext
                  obtain ⟨c, vs, rfl, hc, hbehind⟩ :=
                    exists_separator (of_decide_eq_true hnext.1.1)
                  rw [hbehind] at h
                  obtain ⟨⟨p', rest'⟩, hp', heq⟩ := Option.map_eq_some_iff.mp h
                  obtain ⟨ws, rfl, rfl, -⟩ := ih hp'
                  cases heq
                  refine ⟨t :: c :: ws, rfl, ?_, .inl ⟨c, by simp, hc⟩⟩
                  rw [pathText_cons, pathText_cons, if_neg hcolon, if_pos hc, Text.concat,
                    List.flatten_cons, List.flatten_cons, List.flatten_cons,
                    List.flatten_nil, List.append_nil]
              · cases h
                refine ⟨[t], rfl, ?_, .inr ⟨t, rfl, rfl⟩⟩
                rw [pathText_cons, if_neg hcolon]
                exact (List.append_nil _).symm

theorem pathText_metaPath? {p : Text} {rest : List Token}
    (h : metaPath? ts = some (p, rest)) : ∃ us, ts = us ++ rest ∧ p = pathText us ∧
      ((∃ c ∈ us, c.kind = .doubleColon) ∨ ∃ t, us = [t] ∧ p = t.lexeme) := by
  unfold metaPath? at h
  split at h
  · next hcolon =>
      obtain ⟨c, vs, rfl, hc, hbehind⟩ := exists_separator (of_decide_eq_true hcolon)
      rw [hbehind] at h
      obtain ⟨⟨p', rest'⟩, hp', heq⟩ := Option.map_eq_some_iff.mp h
      obtain ⟨ws, rfl, rfl, -⟩ := pathText_metaSegments? hp'
      cases heq
      refine ⟨c :: ws, rfl, ?_, .inl ⟨c, List.mem_cons_self .., hc⟩⟩
      rw [pathText_cons, if_pos hc]
  · exact pathText_metaSegments? h

theorem adjoins_metaPath? (h : Ahead s ts) (hended : Ended ts) {p : Text}
    {rest : List Token} (hp : metaPath? ts = some (p, rest)) : Adjoins s p := by
  have hrest := (metaPath?_suffix hended hp).2
  obtain ⟨us, rfl, hpath, hform⟩ := pathText_metaPath? hp
  have hrun := h.between (List.suffix_append us rest) hrest
  rw [Parse.between, List.length_append, Nat.add_sub_cancel, List.take_left] at hrun
  rcases hform with hcolon | ⟨t, rfl, rfl⟩
  · exact .inr ⟨us, hrun, hcolon, hpath⟩
  · exact .inl (captures_lexeme (hrun.subset (List.mem_singleton_self t)))

/-- Two names, generics and contents of declarations that are the same but for captured
texts. -/
abbrev Body.Twin (s : Text) (b c : Text × Generics × Data) : Prop :=
  b.1 = c.1 ∧ Generics.Twin s b.2.1 c.2.1 ∧ Data.Twin s b.2.2 c.2.2

namespace Lockstep

theorem metaOther (h : Ahead s top) (pos : Position) :
    Lockstep top (Meta.Twin s) (Parse.metaOther [] pos) (Parse.metaOther s pos) :=
  .bind (.capture h true _) fun _ _ hraw => .pure (.other pos [] hraw)

theorem metaItem (fuel : Nat) (h : Ahead s top) :
    Lockstep top (Meta.Twin s) (Parse.metaItem [] fuel) (Parse.metaItem s fuel) := by
  induction fuel generalizing top with
  | zero => exact .failHere _
  | succ fuel ih =>
      unfold Parse.metaItem
      dsimp only
      refine .peek fun t us hsub => ?_
      have hahead := h.of_suffix hsub
      by_cases hlit : isLiteral t.kind = true
      · have ht := mem_own hahead fun heof => by
          rw [heof] at hlit
          cases hlit
        rw [if_pos hlit, if_pos hlit]
        exact .same fun _ => .pure (.lit t.pos (raw_litOf t ▸ captures_lexeme ht))
      rw [if_neg hlit, if_neg hlit]
      refine .get fun start hstart hended => ?_
      have hstart := hahead.of_suffix hstart
      -- the path is read from the tokens alone, so both take it or both capture the
      -- argument
      generalize hchoice : (if startsMetaPath t.kind then metaPath? start else none) =
        choice
      cases choice with
      | none => exact .metaOther hstart t.pos
      | some found =>
          obtain ⟨path, rest⟩ := found
          have hpath : metaPath? start = some (path, rest) := by
            split at hchoice
            · exact hchoice
            · cases hchoice
          obtain ⟨hrest, hne⟩ := metaPath?_suffix hended hpath
          have hrestEnded := hended.of_suffix hrest hne
          have hbehind := (behind_suffix rest).trans hrest
          have hbehindEnded :=
            hrestEnded.of_suffix (behind_suffix rest) (behind_ne_nil hrestEnded)
          dsimp only
          refine .ite (.set hbehind hbehindEnded ?_) (.ite (.set hbehind hbehindEnded ?_)
            (.ite (.set hrest hrestEnded ?_) (.metaOther hstart t.pos)))
          · refine .bind (.commaList (ih hstart) .rparen) fun ms ms' hms =>
              .same fun _ => ?_
            exact .bind (.textSince hstart) fun raw raw' hraw =>
              .pure (.list t.pos path hms hraw)
          · refine .same fun value => .same fun _ => .ite (.same fun _ => ?_) ?_
            · exact .bind (.textSince hstart) fun raw raw' hraw =>
                .pure (.nameValue t.pos path (litOf value) hraw)
            · refine .bind (.capture hstart true _) fun _ _ _ => ?_
              exact .bind (.textSince hstart) fun raw raw' hraw =>
                .pure (.other t.pos path hraw)
          · exact .pure (.path t.pos (adjoins_metaPath? hstart hended hpath))

theorem wholeMeta (h : Ahead s top) :
    Lockstep top (Meta.Twin s) (Parse.wholeMeta []) (Parse.wholeMeta s) :=
  .get fun _ hsub _ => .metaItem _ (h.of_suffix hsub)

theorem oneAttribute (h : Ahead s top) :
    Lockstep top (Attribute.Twin s) (Parse.oneAttribute []) (Parse.oneAttribute s) := by
  unfold Parse.oneAttribute
  refine .same fun hash => .same fun _ => .same fun _ => .same fun _ => .ite ?_ ?_
  · refine .same fun _ => .same fun _ => .bind (.wholeMeta h) fun a b hab => ?_
    exact .same fun _ => .same fun _ => .pure ⟨hab, .inr ⟨rfl, rfl⟩, rfl⟩
  · refine .get fun start hsub _ => ?_
    have hstart := h.of_suffix hsub
    refine .bind (.wholeMeta hstart) fun a b hab => ?_
    exact .bind (.textSince hstart) fun raw raw' hraw => .same fun _ =>
      .pure ⟨hab, .inl hraw, rfl⟩

theorem attributes (h : Ahead s top) :
    Lockstep top (List.Forall₂ (Attribute.Twin s)) (Parse.attributes [])
    (Parse.attributes s) := by
  have hloop (n : Nat) : Lockstep top (List.Forall₂ (Attribute.Twin s)) (attributeLoop [] n)
      (attributeLoop s n) := by
    induction n with
    | zero => exact .pure .nil
    | succ n ih =>
        unfold attributeLoop
        refine .same fun _ => .ite (.same fun _ => .ite ?_ ?_) (.pure .nil)
        · exact .same fun _ => .same fun _ => .same fun _ => ih
        · refine .bind (.oneAttribute h) fun a b hab => ?_
          exact .bind ih fun as bs has => .pure (.cons hab has)
  exact .get fun _ hsub _ => (hloop _).mono hsub

/-! ## Declarations in lockstep -/

theorem wholeTy (h : Ahead s top) :
    Lockstep top (Ty.Twin s) (Parse.wholeTy []) (Parse.wholeTy s) :=
  .get fun ts hsub _ => (grammar s _).ty ts (h.of_suffix hsub)

theorem bounds (h : Ahead s top) :
    Lockstep top (List.Forall₂ (Bound.Twin s)) (Parse.bounds []) (Parse.bounds s) :=
  .get fun ts hsub _ => .boundList ((grammar s _).bound ts (h.of_suffix hsub))

theorem bounded (h : Ahead s top) :
    Lockstep top (List.Forall₂ (Bound.Twin s)) (Parse.bounded []) (Parse.bounded s) := by
  unfold Parse.bounded
  exact .same fun _ => .ite (.bounds h) (.pure .nil)

theorem outlives_twin (names : List Text) :
    List.Forall₂ (Bound.Twin s) (names.map (.outlives [])) (names.map (.outlives [])) := by
  induction names with
  | nil => exact .nil
  | cons name names ih => exact .cons (.outlives [] name) ih

theorem defaultConst (h : Ahead s top) :
    Lockstep top (Captures s) (Parse.defaultConst []) (Parse.defaultConst s) := by
  unfold Parse.defaultConst
  exact .same fun _ => .ite (.capture h false _) (.pure .nothing)

theorem defaultTy (h : Ahead s top) :
    Lockstep top (fun u v => Captures s u v ∨ ∃ t t', Ty.Twin s t t' ∧ u = t.render ∧
    v = t'.render) (Parse.defaultTy []) (Parse.defaultTy s) := by
  unfold Parse.defaultTy
  refine .same fun _ => .ite (.map (.wholeTy h) fun t t' ht => ?_) (.pure (.inl .nothing))
  exact .inr ⟨t, t', ht, rfl, rfl⟩

theorem genericParam (h : Ahead s top) :
    Lockstep top (GenericParam.Twin s) (Parse.genericParam []) (Parse.genericParam s) := by
  unfold Parse.genericParam
  refine .same fun t => ?_
  split
  · refine .same fun _ => .same fun names => .pure ?_
    exact ⟨.lifetime, rfl, outlives_twin names, .inl .nothing, rfl⟩
  · refine .same fun _ => .same fun name => .same fun _ =>
      .bind (.wholeTy h) fun u u' hu => ?_
    exact .bind (.defaultConst h) fun e e' he => .pure ⟨.const hu, rfl, .nil, .inl he, rfl⟩
  · refine .same fun _ => .bind (.bounded h) fun bs cs hbs => ?_
    exact .bind (.defaultTy h) fun u v hdefault => .pure ⟨.type, rfl, hbs, hdefault, rfl⟩
  · exact .failHere _

theorem genericParams (h : Ahead s top) :
    Lockstep top (List.Forall₂ (GenericParam.Twin s)) (Parse.genericParams [])
      (Parse.genericParams s) := by
  have hparam : Lockstep top (GenericParam.Twin s)
      (Parse.attributes [] >>= fun _ => Parse.genericParam [])
      (Parse.attributes s >>= fun _ => Parse.genericParam s) :=
    .bind (.attributes h) fun _ _ _ => .genericParam h
  unfold Parse.genericParams
  refine .same fun _ => .ite (.bind (.commaList hparam .gt) fun ps qs hps => ?_)
    (.pure .nil)
  exact .same fun _ => .pure hps

theorem wherePredicate (h : Ahead s top) :
    Lockstep top (WherePredicate.Twin s) (Parse.wherePredicate [])
    (Parse.wherePredicate s) := by
  unfold Parse.wherePredicate
  refine .same fun names => .same fun _ => .ite ?_ ?_
  · exact .same fun name => .same fun _ => .get fun _ _ _ => .same fun bs =>
      .pure (.lifetime names name.lexeme _)
  · refine .bind (.wholeTy h) fun t u htu => .same fun _ => ?_
    exact .bind (.bounds h) fun bs cs hbs => .pure (.type names htu hbs)

theorem whereClause (h : Ahead s top) :
    Lockstep top (List.Forall₂ (WherePredicate.Twin s)) (Parse.whereClause [])
      (Parse.whereClause s) := by
  have hloop (n : Nat) : Lockstep top (List.Forall₂ (WherePredicate.Twin s))
      (whereLoop [] n)
      (whereLoop s n) := by
    induction n with
    | zero => exact .pure .nil
    | succ n ih =>
        unfold whereLoop
        refine .same fun _ => .same fun _ => .same fun _ => .ite (.pure .nil) ?_
        refine .bind (.wherePredicate h) fun p q hpq => .same fun _ => .ite ?_ ?_
        · exact .bind ih fun ps qs hps => .pure (.cons hpq hps)
        · exact .pure (.cons hpq .nil)
  unfold Parse.whereClause
  exact .same fun _ => .ite (.get fun _ hsub _ => (hloop _).mono hsub) (.pure .nil)

theorem visibility (h : Ahead s top) :
    Lockstep top (Captures s) (Parse.visibility []) (Parse.visibility s) := by
  unfold Parse.visibility
  refine .get fun start hsub _ => .same fun _ => .ite (.same fun _ => ?_) (.pure .nothing)
  exact .textSince (h.of_suffix hsub)

theorem namedField (h : Ahead s top) :
    Lockstep top (Field.Twin s) (Parse.namedField []) (Parse.namedField s) := by
  unfold Parse.namedField
  refine .bind (.attributes h) fun as bs has => .bind (.visibility h) fun u v hvis => ?_
  refine .same fun name => .same fun _ => .bind (.wholeTy h) fun t t' ht => .pure ?_
  exact ⟨has, hvis, rfl, rfl, ht, rfl⟩

theorem tupleField (h : Ahead s top) :
    Lockstep top (Field.Twin s) (Parse.tupleField []) (Parse.tupleField s) := by
  unfold Parse.tupleField
  refine .bind (.attributes h) fun as bs has => .bind (.visibility h) fun u v hvis => ?_
  exact .same fun start => .bind (.wholeTy h) fun t t' ht =>
    .pure ⟨has, hvis, rfl, rfl, ht, rfl⟩

theorem number_twin {fs gs : List Field} (h : List.Forall₂ (Field.Twin s) fs gs) :
    List.Forall₂ (Field.Twin s) (number fs) (number gs) := by
  obtain ⟨hlen, hall⟩ := List.forall₂_iff_get.mp h
  unfold number
  refine List.forall₂_iff_get.mpr ⟨by rw [List.length_mapIdx, List.length_mapIdx, hlen], ?_⟩
  intro i hi hi'
  rw [List.get_eq_getElem, List.get_eq_getElem, List.getElem_mapIdx, List.getElem_mapIdx]
  rw [List.length_mapIdx] at hi hi'
  have hfield := hall i hi hi'
  exact ⟨hfield.attrs, hfield.vis, hfield.ident, rfl, hfield.ty, hfield.pos⟩

theorem namedFields (h : Ahead s top) :
    Lockstep top (Fields.Twin s) (Parse.namedFields []) (Parse.namedFields s) := by
  unfold Parse.namedFields
  refine .same fun _ => .bind (.commaList (.namedField h) .rbrace) fun fs gs hfs => ?_
  exact .same fun _ => .pure ⟨rfl, number_twin hfs⟩

theorem tupleFields (h : Ahead s top) :
    Lockstep top (Fields.Twin s) (Parse.tupleFields []) (Parse.tupleFields s) := by
  unfold Parse.tupleFields
  refine .same fun _ => .bind (.commaList (.tupleField h) .rparen) fun fs gs hfs => ?_
  exact .same fun _ => .pure ⟨rfl, number_twin hfs⟩

theorem variantFields (h : Ahead s top) :
    Lockstep top (Fields.Twin s) (Parse.variantFields []) (Parse.variantFields s) := by
  unfold Parse.variantFields
  refine .same fun _ => .ite (.namedFields h) (.same fun _ => .ite (.tupleFields h) ?_)
  exact .pure ⟨rfl, .nil⟩

/-- The text of no tokens is empty with the source and without it, and no other text is. -/
theorem discriminant (h : Ahead s top) :
    Lockstep top (Captures s) (Parse.discriminant []) (Parse.discriminant s) := by
  unfold Parse.discriminant
  refine .same fun _ => .ite (.bind (.capture h false _) fun u v huv => ?_) (.pure .nothing)
  -- the only text that decides what comes next
  rw [huv.isEmpty_eq]
  exact .ite (.failHere _) (.pure huv)

theorem variant (h : Ahead s top) :
    Lockstep top (Variant.Twin s) (Parse.variant []) (Parse.variant s) := by
  unfold Parse.variant
  refine .bind (.attributes h) fun as bs has => .bind (.visibility h) fun _ _ _ => ?_
  refine .same fun name => .bind (.variantFields h) fun fs gs hfs => ?_
  exact .bind (.discriminant h) fun u v huv => .pure ⟨has, rfl, hfs, huv, rfl⟩

theorem structBody (h : Ahead s top) :
    Lockstep top (Body.Twin s) (Parse.structBody []) (Parse.structBody s) := by
  unfold Parse.structBody
  refine .same fun name => .bind (.genericParams h) fun ps qs hps =>
    .same fun _ => .ite ?_ ?_
  · refine .bind (.tupleFields h) fun fs gs hfs =>
      .bind (.whereClause h) fun ws ws' hws => ?_
    exact .same fun _ => .pure ⟨rfl, ⟨hps, hws⟩, .struct hfs⟩
  refine .same fun _ => .ite (.pure ⟨rfl, ⟨hps, .nil⟩, .struct ⟨rfl, .nil⟩⟩) ?_
  refine .bind (.whereClause h) fun ws ws' hws => .same fun _ => .ite ?_ ?_
  · exact .pure ⟨rfl, ⟨hps, hws⟩, .struct ⟨rfl, .nil⟩⟩
  refine .same fun _ => .ite (.bind (.namedFields h) fun fs gs hfs => ?_) (.failHere _)
  exact .pure ⟨rfl, ⟨hps, hws⟩, .struct hfs⟩

theorem enumBody (h : Ahead s top) :
    Lockstep top (Body.Twin s) (Parse.enumBody []) (Parse.enumBody s) := by
  unfold Parse.enumBody
  refine .same fun name => .bind (.genericParams h) fun ps qs hps => ?_
  refine .bind (.whereClause h) fun ws ws' hws => .same fun _ => ?_
  refine .bind (.commaList (.variant h) .rbrace) fun vs vs' hvs => .same fun _ => ?_
  exact .pure ⟨rfl, ⟨hps, hws⟩, .enum hvs⟩

theorem unionBody (h : Ahead s top) :
    Lockstep top (Body.Twin s) (Parse.unionBody []) (Parse.unionBody s) := by
  unfold Parse.unionBody
  refine .same fun name => .bind (.genericParams h) fun ps qs hps => ?_
  refine .bind (.whereClause h) fun ws ws' hws => .bind (.namedFields h) fun fs gs hfs => ?_
  exact .pure ⟨rfl, ⟨hps, hws⟩, .union hfs⟩

end Lockstep

/-! ## Items in lockstep -/

theorem filterMap_twin {α β γ : Type} {R : α → β → Prop} {xs : List α} {ys : List β}
    {f : α → Option γ} {g : β → Option γ} (h : List.Forall₂ R xs ys)
    (hfg : ∀ x y, R x y → f x = g y) : xs.filterMap f = ys.filterMap g := by
  induction h with
  | nil => rfl
  | cons hxy _ ih => rw [List.filterMap_cons, List.filterMap_cons, hfg _ _ hxy, ih]

theorem pathText_twin {m m' : Meta} (h : Meta.Twin s m m') : m.pathText = m'.pathText := by
  cases h <;> rfl

/-- What a derive list asks for is written as paths, so it is the same. -/
theorem derivesOf_twin {as bs : List Attribute}
    (h : List.Forall₂ (Attribute.Twin s) as bs) : derivesOf as = derivesOf bs := by
  have hnamed : List.Forall₂ (Attribute.Twin s) (Attribute.named as ["derive"])
      (Attribute.named bs ["derive"]) := by
    refine List.rel_filter (fun a b hab => ?_) h
    dsimp only
    rw [Attribute.path, pathText_twin hab.arg, ← Attribute.path]
  have hderives : List.Forall₂ Eq (derivesOf as) (derivesOf bs) := by
    unfold derivesOf
    refine List.rel_flatMap hnamed fun a b hab => ?_
    have harg := hab.arg
    rw [List.forall₂_eq_eq_eq]
    dsimp only
    generalize a.arg = m at harg ⊢
    generalize b.arg = m' at harg ⊢
    cases harg with
    | list pos path hms hraw => exact filterMap_twin hms fun x y hxy => by cases hxy <;> rfl
    | _ => rfl
  rwa [List.forall₂_eq_eq_eq] at hderives

/-- Two items that are the same but for captured texts. -/
inductive Item.Twin (s : Text) : Item → Item → Prop
  | decl {d e : Decl} (h : Decl.Twin s d e) : Item.Twin s (.decl d) (.decl e)
  | error (e : ParseError) : Item.Twin s (.error e) (.error e)
  | inlineModule (m : InlineModule) : Item.Twin s (.inlineModule m) (.inlineModule m)
  | skipped : Item.Twin s .skipped .skipped
  | nothing : Item.Twin s .nothing .nothing

/-- Two items that are so, and what is left behind them. -/
def Item.Level (s : Text) (x y : Item × List Token) : Prop :=
  Item.Twin s x.1 y.1 ∧ x.2 = y.2

theorem body?_twin (h : Ahead s top) (ts : List Token) :
    Option.Rel (Lockstep top (Body.Twin s)) (body? [] ts) (body? s ts) := by
  unfold body?
  split
  · exact .some (.structBody h)
  · exact .some (.enumBody h)
  · split
    · exact .some (.unionBody h)
    · exact .none
  · exact .none

theorem itemBody_level {start : List Token} {as bs : List Attribute} {u v : Text}
    (h : Ahead s start) (hsub : ts <:+ start) (hended : Ended ts)
    (has : List.Forall₂ (Attribute.Twin s) as bs) (hvis : Captures s u v) :
    Item.Level s (itemBody [] start as u ts) (itemBody s start bs v ts) := by
  have hbody := body?_twin h ts
  unfold itemBody
  dsimp only
  generalize body? [] ts = p? at hbody ⊢
  generalize body? s ts = q? at hbody ⊢
  cases hbody with
  | none =>
      dsimp only
      split
      · exact ⟨.inlineModule _, rfl⟩
      · split
        · exact ⟨.error _, rfl⟩
        · exact ⟨.skipped, rfl⟩
  | @some p q hbody =>
      have hrun := hbody (behind ts) ((behind_suffix ts).trans hsub)
        (hended.of_suffix (behind_suffix ts) (behind_ne_nil hended))
      dsimp only
      generalize p (behind ts) = x at hrun ⊢
      generalize q (behind ts) = y at hrun ⊢
      cases hrun with
      | error e => exact ⟨.error e, rfl⟩
      | ok hcontent us =>
          obtain ⟨hname, hgenerics, hdata⟩ := hcontent
          exact ⟨.decl ⟨has, hvis, hname, hgenerics, hdata, derivesOf_twin has, rfl,
            rfl, rfl⟩, rfl⟩

theorem item_level (h : Ahead s ts) (hts : Ended ts) :
    Item.Level s (item [] ts) (item s ts) := by
  have hattrs := Lockstep.attributes h ts (List.suffix_refl ts) hts
  unfold item
  generalize hx : attributes [] ts = x at hattrs ⊢
  generalize attributes s ts = y at hattrs ⊢
  cases hattrs with
  | error e => exact ⟨.error e, rfl⟩
  | ok has us =>
      obtain ⟨hus, hended⟩ := Forward.of_ok hts hx
      dsimp only
      split
      · exact ⟨.nothing, rfl⟩
      have hvis := Lockstep.visibility (h.of_suffix hus) us (List.suffix_refl us) hended
      generalize hx : visibility [] us = x at hvis ⊢
      generalize visibility s us = y at hvis ⊢
      cases hvis with
      | error e => exact ⟨.error e, rfl⟩
      | ok hvis vs =>
          obtain ⟨hvs, hended'⟩ := Forward.of_ok hended hx
          exact itemBody_level h (hvs.trans hus) hended' has hvis

theorem items_twin (h : Ahead s ts) (hts : Ended ts) :
    List.Forall₂ (Item.Twin s) (items [] ts) (items s ts) := by
  have hloop (n : Nat) : List.Forall₂ (Item.Twin s) (itemLoop [] n ts)
      (itemLoop s n ts) := by
    induction n generalizing ts with
    | zero => exact .nil
    | succ n ih =>
        unfold itemLoop
        split
        · exact .nil
        · next heof =>
            have hbehind := behind_item [] hts (by simpa using heof)
            obtain ⟨hitem, hrest⟩ := item_level h hts
            change List.Forall₂ _ ((item [] ts).1 :: itemLoop [] n (item [] ts).2)
              ((item s ts).1 :: itemLoop s n (item s ts).2)
            rw [← hrest]
            exact .cons hitem (ih (h.of_suffix hbehind.sub) (hbehind.ended hts))
  exact hloop _

theorem collect_twin {is js : List Item} (h : List.Forall₂ (Item.Twin s) is js) :
    Parsed.Twin s (collect is) (collect js) where
  decls := by
    refine List.rel_filterMap (fun i j hij => ?_) h
    cases hij with
    | decl hd => exact .some hd
    | _ => exact .none
  skipped := by
    refine (List.rel_filter (fun i j hij => ?_) h).length_eq
    cases hij <;> rfl
  modules := filterMap_twin h fun i j hij => by cases hij <;> rfl
  errors := filterMap_twin h fun i j hij => by cases hij <;> rfl

end Parse

/-- Without its source a list of tokens is parsed as it is with it, but for captured
texts. -/
theorem parseTokens_detached {s : Text} (hascii : ∀ b ∈ s, b < 0x80) :
    Parsed.Twin s (parseTokens [] (scan s).tokens) (parseTokens s (scan s).tokens) :=
  Parse.collect_twin (Parse.items_twin ⟨hascii, List.suffix_refl _⟩ (ended_scan s))

/-- What stands between the brackets is captured, and the path in it is not. -/
theorem parseTokens_detached_spaced :
    (∀ b ∈ ("#[derive(fmt :: Debug)]\nstruct S;\n" : Text), b < 0x80) ∧
      Parsed.Twin "#[derive(fmt :: Debug)]\nstruct S;\n"
        (parseTokens [] (scan "#[derive(fmt :: Debug)]\nstruct S;\n").tokens)
        (parseTokens "#[derive(fmt :: Debug)]\nstruct S;\n"
          (scan "#[derive(fmt :: Debug)]\nstruct S;\n").tokens) ∧
      (parseTokens [] (scan "#[derive(fmt :: Debug)]\nstruct S;\n").tokens).file.decls.map
        (fun d => (d.attrs.map (·.raw), d.derives.map (·.path))) =
          ([(["derive ( fmt :: Debug )"], ["fmt::Debug"])] : List (List Text × List Text)) ∧
      (parse "#[derive(fmt :: Debug)]\nstruct S;\n").file.decls.map
        (fun d => (d.attrs.map (·.raw), d.derives.map (·.path))) =
          ([(["derive(fmt :: Debug)"], ["fmt::Debug"])] : List
          (List Text × List Text)) := by
  have hascii : ∀ b ∈ ("#[derive(fmt :: Debug)]\nstruct S;\n" : Text),
      decide (b < 0x80) = true :=
    List.all_eq_true.mp (by decide)
  have hascii := fun b hb => of_decide_eq_true (hascii b hb)
  exact ⟨hascii, parseTokens_detached hascii, by decide +kernel, by decide +kernel⟩

end Deriver
