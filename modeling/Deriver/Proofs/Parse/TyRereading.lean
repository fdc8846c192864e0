import Deriver.Proofs.Parse.Rereading

/-!
# Types are read again

Main statement: `rereading`. The rule for types has a case for every kind of type, and
each of them reads the spelling of such a type. With the rules for what types are made
of this closes the induction on the budget.
-/

namespace Deriver

open Parse Scan

variable {source x y z : Text} {qs rs : List Sequel} {f : Nat}

/-! ## Function pointers -/

/-- The spelling of the ABI of a foreign function. -/
def abiText (abi : Option Text) : Text :=
  abi.elim [] fun a => "extern " ++ (a ++ (" " : Text))

/-- The spelling of the arguments of a function pointer. -/
def inputsText (inputs : List Ty) (variadic : Bool) : Text :=
  Text.join ", " (inputs.map Ty.render ++ dots variadic)

/-- The spelling of a function pointer behind its binder. -/
def pointerText (sig : FnSig) : Text :=
  Text.when sig.isUnsafe "unsafe " ++ (abiText sig.abi ++ ("fn(" ++
    (inputsText sig.inputs sig.variadic ++ (")" ++ outputText sig.output))))

theorem FnSig.render_eq (sig : FnSig) :
    sig.render = binderText sig.binder ++ pointerText sig := by
  obtain ⟨binder, isUnsafe, abi, inputs, variadic, output⟩ := sig
  have habi : (abi.map fun a => Text.concat ["extern ", a, " "]).getD [] = abiText abi := by
    cases abi with
    | none => rfl
    | some a => simp [abiText, Text.concat]
  cases output with
  | none =>
      rw [FnSig.render, habi, renderTys_eq, pointerText, outputText]
      simp [Text.concat, inputsText]
  | some output =>
      rw [FnSig.render, habi, renderTys_eq, pointerText, outputText]
      simp [Text.concat, inputsText]
      rfl

theorem next_abi (a y : Text) :
    Next (abiText (some a) ++ y) .externKw "extern" (a ++ (" " ++ y)) := by
  rw [abiText, Option.elim_some,
    show ("extern " ++ (a ++ (" " : Text))) ++ y = "extern " ++ (a ++ (" " ++ y)) by simp]
  exact next_extern _

theorem reads_abi? {abi : Option Text} (habi : ∀ a ∈ abi, Word .str a)
    (hy : Avoids source y .externKw) :
    Reads source abi? (abiText abi ++ y) fun v u => v = abi ∧ u = y := by
  unfold abi?
  cases abi with
  | none => exact .accept_no hy (.pure ⟨rfl, rfl⟩)
  | some a =>
      have hword := next_spaced (habi a rfl) rfl y
      refine .accept_yes (next_abi a y) (.check_yes hword ?_)
      exact .take hword fun t _ ht => .pure ⟨by rw [ht], rfl⟩

/-- An argument of a function pointer is neither the end of the list nor dots, and no
name stands in front of it. -/
theorem input_apart {t : Ty} {u : Text} (hu : Stop u)
    (hty : Reads source (ty source f) (t.render ++ u) fun v w => v.render = t.render ∧
    w = u) : (∀ k ∈ [.rparen, .eof, .dotDot], Avoids source (t.render ++ u) k) ∧
      Reads source argName (t.render ++ u) fun _ w => w = t.render ++ u := by
  refine ⟨fun k hk => hty.avoids fun ts hts => ty_fails ?_,
    reads_argName fun hsub hname => ?_⟩
  · rw [hts]
    exact (by decide : ∀ k ∈ [TokenKind.rparen, .eof, .dotDot], startsTy k = false) k hk
  · have hapart := hty.name_apart ?_ hsub hname
    · simp only [List.mem_cons, List.not_mem_nil, or_false, not_or] at hapart
      exact hapart.2
    · rintro v w ⟨-, rfl⟩
      exact ⟨hu.avoids (by decide), hu.avoids (by decide)⟩

theorem inputsText_cons (t : Ty) {ts : List Ty} {variadic : Bool}
    (hne : ts.map Ty.render ++ dots variadic ≠ []) :
    inputsText (t :: ts) variadic = t.render ++ (", " ++ inputsText ts variadic) := by
  obtain ⟨r, rs, hrs⟩ := List.exists_cons_of_ne_nil hne
  rw [inputsText, inputsText, List.map_cons, List.cons_append, hrs, Text.join,
    List.append_assoc]

theorem stop_rbracket (t : Text) : Stop ("]" ++ t) :=
  .mark (c := 93) rfl (by decide) (by decide) t

theorem stop_semicolon (t : Text) : Stop ("; " ++ t) :=
  .mark (c := 59) rfl (by decide) (by decide) (32 :: t)

theorem render_tuple (pos : Position) {ts : List Ty} (h : ts.length ≠ 1) :
    (Ty.tuple pos ts).render = "(" ++
    (Text.join ", " (ts.map Ty.render) ++ (")" : Text)) := by
  rw [Ty.render, renderTys_eq]
  · simp [Text.concat]
  · rintro t rfl
    exact h rfl

theorem render_single (pos : Position) (t : Ty) :
    (Ty.tuple pos [t]).render = "(" ++ (t.render ++ (",)" : Text)) := by
  rw [Ty.render]
  simp [Text.concat]

theorem stop_single (t : Text) : Stop (",)" ++ t) :=
  .mark (c := 44) rfl (by decide) (by decide) (41 :: t)

theorem reads_single {elem : Parser Ty} {n : Nat} (y : Text) :
    Reads source (tupleRest elem (n + 1)) (",)" ++ y) fun v u => v = [] ∧ u = ")" ++ y := by
  have hcomma : Next (",)" ++ y) .comma "," (")" ++ y) := next_mark rfl (41 :: y)
  unfold tupleRest
  exact .accept_yes hcomma (.check_yes (next_rparen y) (.pure ⟨rfl, rfl⟩))

theorem render_tuple_congr {pos pos' : Position} {ts us : List Ty}
    (h : ts.map Ty.render = us.map Ty.render) :
    (Ty.tuple pos ts).render = (Ty.tuple pos' us).render := by
  have hlen : ts.length = us.length := by simpa using congrArg List.length h
  by_cases hone : us.length = 1
  · obtain ⟨u, rfl⟩ := List.length_eq_one_iff.mp hone
    obtain ⟨t, rfl⟩ := List.length_eq_one_iff.mp (hlen.trans hone)
    rw [render_single, render_single, List.singleton_inj.mp h]
  · rw [render_tuple pos' hone, render_tuple pos (hlen ▸ hone), h]

/-- The spelling of the elements of a tuple type behind its first one. -/
def restText (ts : List Ty) : Text := (ts.map fun t => (", " : Text) ++ t.render).flatten

theorem restText_cons (t : Ty) (ts : List Ty) (y : Text) :
    restText (t :: ts) ++ y = ", " ++ (t.render ++ (restText ts ++ y)) := by
  rw [restText, List.map_cons, List.flatten_cons, List.append_assoc, List.append_assoc]
  rfl

theorem join_cons (t : Ty) (ts : List Ty) :
    Text.join ", " ((t :: ts).map Ty.render) = t.render ++ restText ts := by
  induction ts generalizing t with
  | nil => exact (List.append_nil _).symm
  | cons u us ih =>
      rw [List.map_cons, List.map_cons, Text.join, ← List.map_cons, ih]
      simp [restText]

theorem stop_restText (ts : List Ty) (y : Text) : Stop (restText ts ++ (")" ++ y)) := by
  cases ts with
  | nil => exact stop_rparen y
  | cons t ts =>
      rw [restText_cons]
      exact stop_comma _

theorem Respells.of_eq {α : Type} {render : α → Text} {v w : α} (h : render v = render w) :
    Respells render qs (render w ++ sequel qs z) z v (sequel qs z) :=
  ⟨by rw [h], qs, List.suffix_refl _, rfl⟩

theorem exists_of_beginsWithBinder {bs : List Bound} (h : beginsWithBinder bs = true) :
    ∃ names maybe p bs', bs = .trait names maybe p :: bs' ∧ names ≠ [] := by
  cases bs with
  | nil => cases h
  | cons b bs =>
      cases b with
      | outlives => cases h
      | trait names maybe p =>
          refine ⟨names, maybe, p, bs, rfl, ?_⟩
          rintro rfl
          cases h

theorem render_bare (pos : Position) (bs : List Bound) :
    (Ty.traitObject pos false bs).render = boundsText bs := by
  rw [Ty.render, renderBoundList_eq]
  rfl

theorem bindFirst_trait (names : List Text) (maybe : Bool) (p : Path) (bs : List Bound) :
    boundsText (bindFirst names (.trait [] maybe p :: bs)) =
      binderText names ++ boundsText (.trait [] maybe p :: bs) := by
  have hrender : (Bound.trait names maybe p).render =
      binderText names ++ (Bound.trait [] maybe p).render := by
    rw [Bound.render, Bound.render]
    simp [Text.concat, binderText]
  rw [bindFirst]
  cases bs with
  | nil => exact hrender
  | cons b bs =>
      rw [boundsText_cons _ (List.cons_ne_nil _ _),
        boundsText_cons _ (List.cons_ne_nil _ _), hrender, List.append_assoc]

theorem not_startsFn_of_startsBound {k : TokenKind} (h : startsBound k = true) :
    startsFn k = false := by
  cases k <;> first | rfl | cases h

theorem next_pointer (sig : FnSig) (y : Text) : ∃ k w u,
    (k = .fnKw ∨ k = .unsafeKw ∨ k = .externKw) ∧ Next (pointerText sig ++ y) k w u := by
  obtain ⟨binder, isUnsafe, abi, inputs, variadic, output⟩ := sig
  rw [pointerText, List.append_assoc, List.append_assoc]
  cases isUnsafe with
  | true => exact ⟨_, _, _, by decide, next_unsafeKw _⟩
  | false =>
      cases abi with
      | none => exact ⟨_, _, _, by decide, next_fn _⟩
      | some a => exact ⟨_, _, _, by decide, next_abi a _⟩

theorem render_ref (pos : Position) (lifetime : Option Text) (isMut : Bool) (elem : Ty) :
    (Ty.ref pos lifetime isMut elem).render =
      "&" ++ (targetText lifetime isMut ++ elem.render) := by
  rw [Ty.render, targetText]
  cases lifetime with
  | none => simp [Text.concat, lifetimeText, Text.when]
  | some l => simp [Text.concat, lifetimeText, Text.when]

/-- What begins with a reference sign begins with the token of one or of two. -/
theorem next_of_amp (hy : y.head? = some 38) :
    ∃ k w u, Next y k w u ∧ k ∈ [.amp, .doubleAmp] := by
  obtain ⟨r, rfl⟩ := List.head?_eq_some_iff.mp hy
  by_cases hr : r.head? = some 38
  · obtain ⟨r, rfl⟩ := List.head?_eq_some_iff.mp hr
    exact ⟨_, _, _, next_amps r, by decide⟩
  · exact ⟨_, _, _, next_amp hr, by decide⟩

theorem kind_of_amp {k : TokenKind} {w u : Text} (h : Next y k w u)
    (hy : y.head? = some 38) : k ∈ [.amp, .doubleAmp] := by
  obtain ⟨k', w', u', h', hk⟩ := next_of_amp hy
  rwa [← h.kindOf (List.suffix_refl y), h'.kindOf (List.suffix_refl y)]

theorem MacroText.head_ne (h : MacroText x) : x.head? ≠ some 38 := by
  intro hamp
  obtain ⟨k, w, u, hnext, hk⟩ := next_of_amp hamp
  obtain ⟨t, ht, -, hahead⟩ := hnext.ahead (List.suffix_refl x)
  obtain ⟨t', us, hfirst, -⟩ := h.solid.first
  rw [ahead_self, scan_tokens_own, hfirst, List.cons_append] at hahead
  obtain ⟨hkind, -⟩ := h.starts t' (by rw [hfirst]; rfl)
  rw [(List.cons.inj hahead).1, ht] at hkind
  simp only [List.mem_cons, List.not_mem_nil, or_false] at hk
  rcases hk with rfl | rfl <;> rcases hkind with h | h <;> cases h

theorem next_segments {s : Segment} (hs : Rereadable s.parts) (ss : List Segment)
    (hy : Separated y) :
    ∃ k u, isPathIdent k = true ∧ Next (segmentsText (s :: ss) ++ y) k s.ident u := by
  rcases eq_or_ne ss [] with rfl | hne
  · obtain ⟨k, hk, hnext⟩ := next_segment hs hy
    exact ⟨k, _, hk, hnext⟩
  · obtain ⟨k, hk, hnext⟩ := next_segment (y := "::" ++ (segmentsText ss ++ y)) hs
      ⟨58, _, rfl, by decide⟩
    refine ⟨k, argsText s.args ++ ("::" ++ (segmentsText ss ++ y)), hk, ?_⟩
    rwa [segmentsText_cons s hne, List.append_assoc, List.append_assoc]

theorem next_path {p : Path} (hq : p.qself = none) (ht : Rereadable (Ty.path p).parts)
    (hy : Separated y) : ∃ k w u, Next (p.render ++ y) k w u ∧
      (k = .doubleColon ∨ isPathIdent k = true) ∧ (k = .ident → w ≠ "_") := by
  rw [Ty.parts, rereadable_cons, rereadable_path] at ht
  obtain ⟨⟨hident, -⟩, ⟨⟨hne, -⟩, -⟩, -, hsegments⟩ := ht
  obtain ⟨qself, isGlobal, segments, pos⟩ := p
  obtain rfl : qself = none := hq
  obtain ⟨s, ss, rfl⟩ := List.exists_cons_of_ne_nil hne
  have hrender : (Path.mk none isGlobal (s :: ss) pos).render ++ y =
      Text.when isGlobal "::" ++ (segmentsText (s :: ss) ++ y) := by
    rw [Path.render, renderSegments_eq]
    exact List.append_assoc ..
  rw [hrender]
  cases isGlobal with
  | true => exact ⟨_, _, _, next_colons _, Or.inl rfl, nofun⟩
  | false =>
      obtain ⟨k, u, hk, hnext⟩ := next_segments (hsegments s (List.mem_cons_self ..)) ss hy
      exact ⟨k, _, u, hnext, Or.inr hk, fun _ => hident⟩

theorem exists_ref {t : Ty} (ht : Rereadable t.parts) (hy : Separated y)
    (hhead : (t.render ++ y).head? = some 38) :
    ∃ pos lifetime isMut elem, t = .ref pos lifetime isMut elem := by
  have hnext {k : TokenKind} {w u : Text} (h : Next (t.render ++ y) k w u)
      (hk : k ∉ [.amp, .doubleAmp]) : False := hk (kind_of_amp h hhead)
  cases t with
  | ref pos lifetime isMut elem => exact ⟨pos, lifetime, isMut, elem, rfl⟩
  | path p =>
      rw [Ty.render] at hhead hnext
      cases hq : p.qself with
      | some q =>
          obtain ⟨qself, isGlobal, segments, pos⟩ := p
          obtain rfl : qself = some q := hq
          obtain ⟨self, trait⟩ := q
          rw [Path.render, QSelf.render.eq_def] at hhead
          cases trait <;> cases hhead
      | none =>
          obtain ⟨k, w, u, h, hk, -⟩ := next_path hq ht hy
          refine (hnext h ?_).elim
          rcases hk with rfl | hk
          · decide
          · cases k <;> first | decide | cases hk
  | ptr pos isMut elem =>
      rw [Ty.render] at hhead
      cases isMut <;> cases hhead
  | tuple pos elems =>
      by_cases hone : elems.length = 1
      · obtain ⟨t, rfl⟩ := List.length_eq_one_iff.mp hone
        rw [render_single] at hhead
        cases hhead
      · rw [render_tuple pos hone] at hhead
        cases hhead
  | array => rw [Ty.render] at hhead; cases hhead
  | slice => rw [Ty.render] at hhead; cases hhead
  | paren => rw [Ty.render] at hhead; cases hhead
  | fn pos sig =>
      rw [Ty.render, FnSig.render_eq, List.append_assoc] at hnext
      by_cases hnil : sig.binder = []
      · obtain ⟨k, w, u, hk, h⟩ := next_pointer sig y
        rw [hnil] at hnext
        exact (hnext h (by rcases hk with rfl | rfl | rfl <;> decide)).elim
      · exact (hnext (next_binder hnil _) (by decide)).elim
  | traitObject pos dyn bs =>
      cases dyn with
      | true => rw [Ty.render] at hhead; cases hhead
      | false =>
          rw [Ty.parts, rereadable_cons] at ht
          obtain ⟨⟨-, hdistinct⟩, -⟩ := ht
          obtain ⟨names, maybe, p, bs, rfl, hne⟩ :=
            exists_of_beginsWithBinder (TyPart.distinct_iff.mp hdistinct).1
          have htext : boundsText (.trait names maybe p :: bs) =
              binderText names ++ boundsText (.trait [] maybe p :: bs) :=
            bindFirst_trait names maybe p bs
          rw [render_bare, htext, List.append_assoc] at hnext
          exact (hnext (next_binder hne _) (by decide)).elim
  | implTrait => rw [Ty.render] at hhead; cases hhead
  | never => rw [Ty.render] at hhead; cases hhead
  | infer => rw [Ty.render] at hhead; cases hhead
  | macroCall pos raw =>
      rw [Ty.parts, rereadable_cons] at ht
      have hraw : MacroText raw := ht.1.1
      obtain ⟨c, r, rfl⟩ := List.exists_cons_of_ne_nil hraw.solid.ne_nil
      rw [Ty.render] at hhead
      exact absurd hhead hraw.head_ne

theorem target_of_amp {lifetime : Option Text} {isMut : Bool}
    (hlifetime : ∀ l ∈ lifetime, Word .lifetime l)
    (h : (targetText lifetime isMut ++ y).head? = some 38) :
    lifetime = none ∧ isMut = false ∧ y.head? = some 38 := by
  rw [targetText, List.append_assoc] at h
  cases lifetime with
  | some l => exact absurd (kind_of_amp (next_lifetime (hlifetime l rfl) _) h) (by decide)
  | none =>
      cases isMut with
      | true => cases h
      | false => exact ⟨rfl, rfl, h⟩

/-- Where a path begins, the rule for types leaves it to the rule for paths. -/
theorem ty_of_startsPath {ts : List Token} (h : StartsPath (ts.headD Token.none)) :
    ty source (f + 1) ts = pathOrMacro source f (ts.headD Token.none).pos ts := by
  obtain ⟨hk, hw⟩ := h
  rw [ty, bind_of_eq (rfl : peek ts = .ok (ts.headD Token.none, ts))]
  generalize ts.headD Token.none = t at hk hw
  obtain ⟨kind, lexeme, value, pos, offset⟩ := t
  dsimp only at hk hw ⊢
  rcases hk with rfl | hk
  · rfl
  · cases kind <;> first
      | rfl
      | exact congrFun (if_neg (by simpa using hw rfl)) ts
      | cases hk

/-- The spelling of the trait of a qualified self type. -/
def traitText (trait : Option Path) : Text := trait.elim [] fun p => " as " ++ p.render

theorem stop_trait (trait : Option Path) (y : Text) :
    Stop (traitText trait ++ (">" ++ y)) := by
  cases trait with
  | none => exact stop_gt y
  | some p =>
      rw [traitText, Option.elim_some, List.append_assoc]
      exact ⟨⟨32, _, rfl, by decide, by decide⟩, _, _, _, next_as _, by decide⟩

theorem render_qualified (self : Ty) (trait : Option Path) (isGlobal : Bool)
    (ss : List Segment)
    (pos : Position) : (Ty.path ⟨some ⟨self, trait⟩, isGlobal, ss, pos⟩).render =
      "<" ++ (self.render ++ (traitText trait ++ (">" ++ qualifiedText ss))) := by
  rw [Ty.render, Path.render, renderSegments_eq, QSelf.render.eq_def]
  cases trait <;> simp [traitText, qualifiedText, Text.concat, Function.comp_def]

theorem qualifiedText_sequel (ss : List Segment) :
    qualifiedText ss ++ sequel qs z = sequel (ss.map .segment ++ qs) z := by
  induction ss with
  | nil => rfl
  | cons s ss ih =>
      rw [List.map_cons, List.cons_append, sequel, Sequel.render, ← ih]
      simp [qualifiedText, Text.concat]

/-- Behind a qualified self type the segments are written as behind another segment. -/
theorem qualifiedText_cons (s : Segment) (ss : List Segment) :
    qualifiedText (s :: ss) = "::" ++ segmentsText (s :: ss) := by
  have hsegments : segmentsText (s :: ss) ++ sequel [] [] =
      s.render ++ sequel (ss.map .segment ++ []) [] := segmentsText_sequel s ss
  have hqualified : qualifiedText (s :: ss) ++ sequel [] [] =
      sequel ((s :: ss).map .segment ++ []) [] := qualifiedText_sequel (s :: ss)
  rw [sequel, List.append_nil] at hsegments hqualified
  rw [hqualified, hsegments]
  exact List.append_assoc ..

section Rules

variable (h : Rereading source f)

include h

theorem reads_fnInputs {inputs : List Ty} {variadic : Bool} {n : Nat}
    (hinputs : ∀ t ∈ inputs, Rereadable t.parts)
    (hf : 8 * sizeAhead (inputsText inputs variadic ++ (")" ++ y)) + 4 ≤ f)
    (hn : sizeAhead (inputsText inputs variadic ++ (")" ++ y)) ≤ n) :
    Reads source (fnInputs (ty source f) n)
    (inputsText inputs variadic ++ (")" ++ y)) fun v u =>
      (v.1.map Ty.render = inputs.map Ty.render ∧ v.2 = variadic) ∧ u = ")" ++ y := by
  have hrparen := next_rparen y
  induction inputs generalizing n with
  | nil =>
      obtain ⟨n, rfl⟩ := Nat.exists_eq_add_one.mpr (sizeAhead_pos.trans_le hn)
      unfold fnInputs
      cases variadic with
      | false =>
          exact .check_yes hrparen
            (.atEnd_no (avoids_eof hrparen) (.pure ⟨⟨rfl, rfl⟩, rfl⟩))
      | true =>
          have hdots := next_dots (")" ++ y)
          refine .check_no (.of_next hdots (by decide)) (.atEnd_no (avoids_eof hdots) ?_)
          exact .accept_yes hdots (.pure ⟨⟨rfl, rfl⟩, rfl⟩)
  | cons t ts ih =>
      obtain ⟨n, rfl⟩ := Nat.exists_eq_add_one.mpr (sizeAhead_pos.trans_le hn)
      have ht := h.ty t (hinputs t (List.mem_cons_self ..))
      unfold fnInputs
      rcases eq_or_ne (ts.map Ty.render ++ dots variadic) [] with hnil | hne
      · -- the last argument
        obtain ⟨hts, hdots⟩ := List.append_eq_nil_iff.mp hnil
        obtain rfl := List.map_eq_nil_iff.mp hts
        have hvariadic : variadic = false := by
          cases variadic with
          | false => rfl
          | true => cases hdots
        subst hvariadic
        have hty := ht.closed (stop_rparen y) hf
        obtain ⟨havoids, hname⟩ := input_apart (stop_rparen y) hty
        refine .check_no (havoids _ (by decide)) (.atEnd_no (havoids _ (by decide)) ?_)
        refine .accept_no (havoids _ (by decide)) (.bind hname ?_)
        rintro _ _ rfl -
        refine .bind hty ?_
        rintro v u ⟨hv, rfl⟩ -
        refine .accept_no (.of_next hrparen (by decide)) (.pure ⟨⟨?_, rfl⟩, rfl⟩)
        rw [List.map_singleton, List.map_singleton, hv]
      · rw [inputsText_cons t hne, List.append_assoc, List.append_assoc] at hf hn ⊢
        have hcomma := next_comma (inputsText ts variadic ++ (")" ++ y))
        have hty := ht.closed (stop_comma _) hf
        obtain ⟨havoids, hname⟩ := input_apart (stop_comma _) hty
        refine .check_no (havoids _ (by decide)) (.atEnd_no (havoids _ (by decide)) ?_)
        refine .accept_no (havoids _ (by decide)) (.bind hname ?_)
        rintro _ _ rfl -
        refine .bind hty ?_
        rintro v u ⟨hv, rfl⟩ hle
        have hsize := hcomma.sizeAhead
        refine .accept_yes hcomma
          (.bind (ih (fun t ht => hinputs t (List.mem_cons_of_mem _ ht))
          (by omega) (by omega)) ?_)
        rintro ⟨vs, b⟩ u ⟨⟨hvs, rfl⟩, rfl⟩ -
        exact .pure ⟨⟨by rw [List.map_cons, List.map_cons, hv, hvs], rfl⟩, rfl⟩

theorem reads_fnType (pos : Position) {sig : FnSig} (habi : ∀ a ∈ sig.abi, Word .str a)
    (hinputs : ∀ t ∈ sig.inputs, Rereadable t.parts)
    (houtput : ∀ t ∈ sig.output, Rereadable t.parts)
    (hqs : Follow (pointerText sig) qs) (hz : Stop z)
    (hf : 8 * sizeAhead (pointerText sig ++ sequel qs z) ≤ f + 4) :
    Reads source (fnType (ty source f) sig.binder pos) (pointerText sig ++ sequel qs z)
      (Respells Ty.render qs (binderText sig.binder ++ (pointerText sig ++ sequel qs z))
      z) := by
  obtain ⟨binder, isUnsafe, abi, inputs, variadic, output⟩ := sig
  dsimp only at habi hinputs houtput
  have htext (inputs : List Ty) (output : Option Ty) (y : Text) :
      pointerText ⟨binder, isUnsafe, abi, inputs, variadic, output⟩ ++ y =
        Text.when isUnsafe "unsafe " ++
          (abiText abi ++ ("fn(" ++ (inputsText inputs variadic ++
          (")" ++ (outputText output ++ y))))) := by
    rw [pointerText]
    simp
  have hx : ∀ t ∈ output,
      t.render <:+ pointerText ⟨binder, isUnsafe, abi, inputs, variadic, output⟩ := by
    rintro t ⟨⟩
    refine ⟨Text.when isUnsafe "unsafe " ++
      (abiText abi ++ ("fn(" ++ (inputsText inputs variadic ++
      (")" ++ (" -> " : Text))))), ?_⟩
    rw [pointerText, outputText]
    simp
  have hpure {inputs' : List Ty} {output' : Option Ty} {rs : List Sequel}
      (hin : inputs'.map Ty.render = inputs.map Ty.render) (hrs : rs <:+ qs)
      (hout : outputText output' ++ sequel rs z = outputText output ++ sequel qs z) :
      Respells Ty.render qs (binderText binder ++
        (pointerText ⟨binder, isUnsafe, abi, inputs, variadic, output⟩ ++ sequel qs z)) z
        (.fn pos ⟨binder, isUnsafe, abi, inputs', variadic, output'⟩) (sequel rs z) := by
    refine ⟨?_, rs, hrs, rfl⟩
    rw [Ty.render, FnSig.render_eq, List.append_assoc, htext, htext, hout, inputsText, hin]
    rfl
  generalize hy : binderText binder ++ (pointerText _ ++ sequel qs z) = text at hpure
  rw [htext] at hf hy ⊢
  have hfn := next_fn (inputsText inputs variadic ++
    (")" ++ (outputText output ++ sequel qs z)))
  have hlparen := next_lparen (inputsText inputs variadic ++
    (")" ++ (outputText output ++ sequel qs z)))
  have hrparen := next_rparen (outputText output ++ sequel qs z)
  have hsize := hfn.sizeAhead
  have hsize' := hlparen.sizeAhead
  have hsize'' := hrparen.sizeAhead
  have havoids (k : TokenKind) (hk : k ∉ [.externKw, .fnKw]) :
      Avoids source (abiText abi ++ ("fn(" ++
      (inputsText inputs variadic ++ (")" ++ (outputText output ++ sequel qs z))))) k := by
    simp only [List.mem_cons, List.not_mem_nil, or_false, not_or] at hk
    cases abi with
    | none => exact .of_next hfn (Ne.symm hk.2)
    | some a => exact .of_next (next_abi a _) (Ne.symm hk.1)
  unfold fnType
  refine .bind (reads_flag (next_unsafeKw _) (havoids _ (by decide))) ?_
  rintro _ _ ⟨rfl, rfl⟩ hle
  refine .bind (reads_abi? habi (.of_next hfn (by decide))) ?_
  rintro _ _ ⟨rfl, rfl⟩ hle'
  refine .expect hfn fun _ _ _ => .expect hlparen fun _ _ _ => .get ?_
  refine .bind (reads_fnInputs h hinputs (by omega)
    (length_ahead source _ ▸ Nat.le_succ _)) ?_
  rintro ⟨inputs', variadic'⟩ _ ⟨⟨hin, rfl⟩, rfl⟩ hle''
  refine .expect hrparen fun _ _ _ =>
    .bind (reads_output? h houtput hqs hx hz (by omega)) ?_
  rintro output' _ ⟨hout, rs, hrs, rfl⟩ -
  exact .pure (hpure hin hrs hout)

/-! ## Types in brackets -/

theorem reads_tupleRest {ts : List Ty} {n : Nat} (hts : ∀ t ∈ ts, Rereadable t.parts)
    (hf : 8 * sizeAhead (restText ts ++ (")" ++ y)) + 4 ≤ f)
    (hn : sizeAhead (restText ts ++ (")" ++ y)) ≤ n) :
    Reads source (tupleRest (ty source f) n) (restText ts ++ (")" ++ y)) fun v u =>
      v.map Ty.render = ts.map Ty.render ∧ u = ")" ++ y := by
  induction ts generalizing n with
  | nil =>
      obtain ⟨n, rfl⟩ := Nat.exists_eq_add_one.mpr (sizeAhead_pos.trans_le hn)
      unfold tupleRest
      exact .accept_no (.of_next (next_rparen y) (by decide)) (.pure ⟨rfl, rfl⟩)
  | cons t ts ih =>
      obtain ⟨n, rfl⟩ := Nat.exists_eq_add_one.mpr (sizeAhead_pos.trans_le hn)
      rw [restText_cons] at hf hn ⊢
      have hcomma := next_comma (t.render ++ (restText ts ++ (")" ++ y)))
      have hsize := hcomma.sizeAhead
      have hty := (h.ty t (hts t (List.mem_cons_self ..))).closed
        (stop_restText ts y) (by omega)
      unfold tupleRest
      refine .accept_yes hcomma (.check_no (avoids_ty hty rfl) (.bind hty ?_))
      rintro v _ ⟨hv, rfl⟩ hle
      refine .bind (ih (fun t ht => hts t (List.mem_cons_of_mem _ ht)) (by omega)
        (by omega)) ?_
      rintro vs u ⟨hvs, rfl⟩ -
      exact .pure ⟨by rw [List.map_cons, List.map_cons, hv, hvs], rfl⟩

theorem reread_paren (pos : Position) (elem : Ty)
    (ht : Rereadable (Ty.paren pos elem).parts) :
    Rereads source 4 (f + 1) (ty source (f + 1)) Ty.render (.paren pos elem) := by
  intro qs z hqs hz hf
  rw [Ty.parts, rereadable_cons] at ht
  have htext : (Ty.paren pos elem).render ++ sequel qs z =
      "(" ++ (elem.render ++ (")" ++ sequel qs z)) := by
    rw [Ty.render]
    simp [Text.concat]
  have hsame {pos' : Position} {v : Ty} (hv : v.render = elem.render) :
      Respells Ty.render qs ((Ty.paren pos elem).render ++ sequel qs z) z (.paren pos' v)
        (sequel qs z) := .of_eq (by rw [Ty.render, Ty.render, hv])
  rw [htext] at hf hsame ⊢
  have hnext := next_lparen (elem.render ++ (")" ++ sequel qs z))
  have hsize := hnext.sizeAhead
  have hty := (h.ty elem ht.2).closed (stop_rparen (sequel qs z)) (by omega)
  unfold ty
  refine .peek hnext fun t ht _ => ?_
  rw [ht]
  refine .take hnext fun _ _ _ => .accept_no (avoids_ty hty rfl) (.bind hty ?_)
  rintro v _ ⟨hv, rfl⟩ -
  exact .accept_yes (next_rparen _) (.pure (hsame hv))

theorem reread_slice (pos : Position) (elem : Ty)
    (ht : Rereadable (Ty.slice pos elem).parts) :
    Rereads source 4 (f + 1) (ty source (f + 1)) Ty.render (.slice pos elem) := by
  intro qs z hqs hz hf
  rw [Ty.parts, rereadable_cons] at ht
  have htext : (Ty.slice pos elem).render ++ sequel qs z =
      "[" ++ (elem.render ++ ("]" ++ sequel qs z)) := by
    rw [Ty.render]
    simp [Text.concat]
  have hsame {pos' : Position} {v : Ty} (hv : v.render = elem.render) :
      Respells Ty.render qs ((Ty.slice pos elem).render ++ sequel qs z) z (.slice pos' v)
        (sequel qs z) := .of_eq (by rw [Ty.render, Ty.render, hv])
  rw [htext] at hf hsame ⊢
  have hnext := next_lbracket (elem.render ++ ("]" ++ sequel qs z))
  have hsize := hnext.sizeAhead
  have hty := (h.ty elem ht.2).closed (stop_rbracket (sequel qs z)) (by omega)
  unfold ty
  refine .peek hnext fun t ht _ => ?_
  rw [ht]
  refine .take hnext fun _ _ _ => .bind hty ?_
  rintro v _ ⟨hv, rfl⟩ -
  refine .accept_no (.of_next (next_rbracket _) (by decide)) ?_
  exact .expect (next_rbracket _) fun _ _ _ => .pure (hsame hv)

theorem reread_array (pos : Position) (elem : Ty) (len : Text)
    (ht : Rereadable (Ty.array pos elem len).parts) :
    Rereads source 4 (f + 1) (ty source (f + 1)) Ty.render (.array pos elem len) := by
  intro qs z hqs hz hf
  rw [Ty.parts, rereadable_cons] at ht
  have hlen : Captured [.rbracket] len := ht.1.1
  have htext : (Ty.array pos elem len).render ++ sequel qs z =
      "[" ++ (elem.render ++ ("; " ++ (len ++ ("]" ++ sequel qs z)))) := by
    rw [Ty.render]
    simp [Text.concat]
  have hsame {pos' : Position} {v : Ty} (hv : v.render = elem.render) :
      Respells Ty.render qs ((Ty.array pos elem len).render ++ sequel qs z) z
        (.array pos' v len)
        (sequel qs z) := .of_eq (by rw [Ty.render, Ty.render, hv])
  rw [htext] at hf hsame ⊢
  have hnext := next_lbracket (elem.render ++ ("; " ++ (len ++ ("]" ++ sequel qs z))))
  have hsize := hnext.sizeAhead
  have hsemicolon := next_semicolon (len ++ ("]" ++ sequel qs z))
  have hty := (h.ty elem ht.2).closed (stop_semicolon (len ++ ("]" ++ sequel qs z)))
    (by omega)
  -- a closing bracket forms no longer token with what is captured
  have hfits : Fits len ("]" ++ sequel qs z) :=
    ⟨93, sequel qs z, rfl, by decide, fun b _ => by simp [glues]⟩
  unfold ty
  refine .peek hnext fun t ht _ => ?_
  rw [ht]
  refine .take hnext fun _ _ _ => .bind hty ?_
  rintro v _ ⟨hv, rfl⟩ -
  refine .accept_yes hsemicolon
    (.bind (reads_capture hlen (fun _ => hfits) (next_rbracket _)
    (List.mem_singleton_self _)) ?_)
  rintro _ _ ⟨rfl, rfl⟩ -
  exact .expect (next_rbracket _) fun _ _ _ => .pure (hsame hv)

theorem reread_tuple (pos : Position) (elems : List Ty)
    (ht : Rereadable (Ty.tuple pos elems).parts) :
    Rereads source 4 (f + 1) (ty source (f + 1)) Ty.render (.tuple pos elems) := by
  intro qs z hqs hz hf
  rw [Ty.parts, rereadable_cons, partsTys_eq, rereadable_flatMap] at ht
  obtain ⟨-, helems⟩ := ht
  have hsame {pos' : Position} {vs : List Ty}
      (hvs : vs.map Ty.render = elems.map Ty.render) :
      Respells Ty.render qs ((Ty.tuple pos elems).render ++ sequel qs z) z (.tuple pos' vs)
        (sequel qs z) := .of_eq (render_tuple_congr hvs)
  cases elems with
  | nil =>
      rw [render_tuple pos (by decide)] at hf hsame ⊢
      have hnext := next_lparen (")" ++ sequel qs z)
      unfold ty
      refine .peek hnext fun t ht _ => ?_
      rw [ht]
      exact .take hnext fun _ _ _ => .accept_yes (next_rparen _) (.pure (hsame rfl))
  | cons t ts =>
      have ht := helems t (List.mem_cons_self ..)
      cases ts with
      | nil =>
          rw [render_single, List.append_assoc, List.append_assoc] at hf hsame ⊢
          have hnext := next_lparen (t.render ++ (",)" ++ sequel qs z))
          have hsize := hnext.sizeAhead
          have hty := (h.ty t ht).closed (stop_single (sequel qs z)) (by omega)
          unfold ty
          refine .peek hnext fun t ht _ => ?_
          rw [ht]
          refine .take hnext fun _ _ _ => .accept_no (avoids_ty hty rfl) (.bind hty ?_)
          rintro v _ ⟨hv, rfl⟩ -
          refine .accept_no (.of_next (next_mark (c := 44) rfl _) (by decide)) ?_
          refine .get (.bind (reads_single _) ?_)
          rintro _ _ ⟨rfl, rfl⟩ -
          refine .expect (next_rparen _) fun _ _ _ => .pure (hsame ?_)
          rw [List.map_singleton, List.map_singleton, hv]
      | cons u us =>
          rw [render_tuple pos (by simp), List.append_assoc, List.append_assoc, join_cons,
            List.append_assoc] at hf hsame ⊢
          have hnext :=
            next_lparen (t.render ++ (restText (u :: us) ++ (")" ++ sequel qs z)))
          have hsize := hnext.sizeAhead
          have hty := (h.ty t ht).closed (stop_restText (u :: us) (sequel qs z)) (by omega)
          unfold ty
          refine .peek hnext fun t ht _ => ?_
          rw [ht]
          refine .take hnext fun _ _ _ => .accept_no (avoids_ty hty rfl) (.bind hty ?_)
          rintro v _ ⟨hv, rfl⟩ hle
          have hcomma := next_comma (u.render ++ (restText us ++ (")" ++ sequel qs z)))
          rw [← restText_cons] at hcomma
          refine .accept_no (.of_next hcomma (by decide)) ?_
          refine .get (.bind
            (reads_tupleRest h (fun t ht => helems t (List.mem_cons_of_mem _ ht))
            (by omega) (length_ahead source _ ▸ Nat.le_succ _)) ?_)
          rintro vs _ ⟨hvs, rfl⟩ -
          refine .expect (next_rparen _) fun _ _ _ => .pure (hsame ?_)
          rw [List.map_cons, List.map_cons, hv, hvs]

/-! ## Types behind a mark -/

theorem reread_ptr (pos : Position) (isMut : Bool) (elem : Ty)
    (ht : Rereadable (Ty.ptr pos isMut elem).parts) :
    Rereads source 4 (f + 1) (ty source (f + 1)) Ty.render (.ptr pos isMut elem) := by
  intro qs z hqs hz hf
  rw [Ty.parts, rereadable_cons] at ht
  have hrender (pos : Position) (isMut : Bool) (t : Ty) (y : Text) :
      (Ty.ptr pos isMut t).render ++ y =
      "*" ++ ((if isMut then "mut " else "const ") ++ (t.render ++ y)) := by
    rw [Ty.render]
    cases isMut <;> simp <;> rfl
  have hfollow : Follow elem.render qs :=
    hqs.of_suffix (by rw [Ty.render]; exact List.suffix_append _ _)
  rw [hrender] at hf ⊢
  have hnext :=
    next_star ((if isMut then "mut " else "const ") ++ (elem.render ++ sequel qs z))
  have hsize := hnext.sizeAhead
  have hkind : Reads source pointerKind ((if isMut then "mut " else "const ") ++
      (elem.render ++ sequel qs z)) fun b u => b = isMut ∧
      u = elem.render ++ sequel qs z := by
    unfold pointerKind
    cases isMut with
    | true => exact .accept_yes (next_mut _) (.pure ⟨rfl, rfl⟩)
    | false =>
        have hconst := next_const (elem.render ++ sequel qs z)
        exact .accept_no (.of_next hconst (by decide)) (.expect hconst fun _ _ _ =>
          .pure ⟨rfl, rfl⟩)
  unfold ty
  refine .peek hnext fun t ht _ => ?_
  rw [ht]
  refine .take hnext fun _ _ _ => .bind hkind ?_
  rintro _ _ ⟨rfl, rfl⟩ hle
  refine .bind (h.ty elem ht.2 qs z hfollow hz (by omega)) ?_
  rintro v _ ⟨hv, rs, hrs, rfl⟩ -
  exact .pure ⟨by rw [hrender, hv], rs, hrs, rfl⟩

omit h in
theorem reread_never (pos : Position) :
    Rereads source 4 (f + 1) (ty source (f + 1)) Ty.render (.never pos) := by
  intro qs z hqs hz hf
  have hrender (pos : Position) : (Ty.never pos).render = "!" := by rw [Ty.render]
  have hnext := next_bang (separated_sequel qs hz)
  rw [hrender] at hf ⊢
  unfold ty
  refine .peek hnext fun t ht _ => ?_
  rw [ht]
  exact .take hnext fun _ _ _ => .pure ⟨by rw [hrender], qs, List.suffix_refl _, rfl⟩

omit h in
theorem reread_infer (pos : Position) :
    Rereads source 4 (f + 1) (ty source (f + 1)) Ty.render (.infer pos) := by
  intro qs z hqs hz hf
  have hrender (pos : Position) : (Ty.infer pos).render = "_" := by rw [Ty.render]
  have hnext := next_infer (separated_sequel qs hz)
  rw [hrender] at hf ⊢
  unfold ty
  refine .peek hnext fun t ht hw => ?_
  rw [ht, hw]
  exact .take hnext fun _ _ _ => .pure ⟨by rw [hrender], qs, List.suffix_refl _, rfl⟩

theorem reread_dyn (pos : Position) (bs : List Bound)
    (ht : Rereadable (Ty.traitObject pos true bs).parts) :
    Rereads source 4 (f + 1) (ty source (f + 1)) Ty.render (.traitObject pos true bs) := by
  intro qs z hqs hz hf
  rw [Ty.parts, rereadable_cons, partsBounds_eq, rereadable_flatMap] at ht
  have hrender (pos : Position) (bs : List Bound) (y : Text) :
      (Ty.traitObject pos true bs).render ++ y = "dyn " ++ (boundsText bs ++ y) := by
    rw [Ty.render, renderBoundList_eq]
    simp [Text.when, boundsText]
  have hx : boundsText bs <:+ (Ty.traitObject pos true bs).render := by
    refine ⟨"dyn ", ?_⟩
    rw [Ty.render, renderBoundList_eq]
    rfl
  rw [hrender] at hf ⊢
  have hnext := next_dyn (boundsText bs ++ sequel qs z)
  have hsize := hnext.sizeAhead
  unfold ty
  refine .peek hnext fun t hk _ => ?_
  rw [hk]
  refine .take hnext fun _ _ _ =>
    .bind (reads_boundList h.bound ht.2 hqs hx hz (by omega)) ?_
  rintro cs _ ⟨-, hcs, rs, hrs, rfl⟩ -
  exact .pure ⟨by rw [hrender, hcs], rs, hrs, rfl⟩

theorem reread_impl (pos : Position) (bs : List Bound)
    (ht : Rereadable (Ty.implTrait pos bs).parts) :
    Rereads source 4 (f + 1) (ty source (f + 1)) Ty.render (.implTrait pos bs) := by
  intro qs z hqs hz hf
  rw [Ty.parts, rereadable_cons, partsBounds_eq, rereadable_flatMap] at ht
  have hrender (pos : Position) (bs : List Bound) (y : Text) :
      (Ty.implTrait pos bs).render ++ y = "impl " ++ (boundsText bs ++ y) := by
    rw [Ty.render, renderBoundList_eq]
    simp [boundsText]
  have hx : boundsText bs <:+ (Ty.implTrait pos bs).render := by
    refine ⟨"impl ", ?_⟩
    rw [Ty.render, renderBoundList_eq]
    rfl
  rw [hrender] at hf ⊢
  have hnext := next_impl (boundsText bs ++ sequel qs z)
  have hsize := hnext.sizeAhead
  unfold ty
  refine .peek hnext fun t hk _ => ?_
  rw [hk]
  refine .take hnext fun _ _ _ =>
    .bind (reads_boundList h.bound ht.2 hqs hx hz (by omega)) ?_
  rintro cs _ ⟨-, hcs, rs, hrs, rfl⟩ -
  exact .pure ⟨by rw [hrender, hcs], rs, hrs, rfl⟩

/-- A trait object without `dyn` is known by the `for` in front of its first bound. -/
theorem reread_bare (pos : Position) (names : List Text) (maybe : Bool) (p : Path)
    (bs : List Bound) (hne : names ≠ [])
    (ht : Rereadable (Ty.traitObject pos false (.trait names maybe p :: bs)).parts) :
    Rereads source 4 (f + 1) (ty source (f + 1)) Ty.render
      (.traitObject pos false (.trait names maybe p :: bs)) := by
  intro qs z hqs hz hf
  rw [Ty.parts, rereadable_cons, partsBounds, rereadable_append, partsBounds_eq,
    rereadable_flatMap, Bound.parts, rereadable_cons] at ht
  obtain ⟨-, ⟨⟨⟨hnames, hq⟩, -⟩, hp⟩, hbs⟩ := ht
  have hfirst : Rereadable (Bound.trait [] maybe p).parts := by
    rw [Bound.parts, rereadable_cons]
    exact ⟨⟨⟨List.forall_mem_nil _, hq⟩, rfl⟩, hp⟩
  have hall : ∀ b ∈ .trait [] maybe p :: bs, Rereadable b.parts := by
    simpa using ⟨hfirst, hbs⟩
  have htext : boundsText (.trait names maybe p :: bs) =
      binderText names ++ boundsText (.trait [] maybe p :: bs) :=
        bindFirst_trait names maybe p bs
  rw [render_bare, htext] at hqs hf ⊢
  rw [List.append_assoc] at hf ⊢
  have hnext := next_binder hne (boundsText (.trait [] maybe p :: bs) ++ sequel qs z)
  have hle := sizeAhead_binder hnames (boundsText (.trait [] maybe p :: bs) ++ sequel qs z)
  have hbounds := reads_boundList h.bound hall hqs (List.suffix_append _ _) hz (by omega)
  unfold ty
  refine .peek hnext fun t hk _ => ?_
  rw [hk]
  refine .bind (reads_binder hne hnames _) ?_
  rintro _ _ ⟨rfl, rfl⟩ -
  have hstart :=
    h.bound _ hfirst _ z (follow_bounds hbs (hqs.of_suffix (List.suffix_append _ _))) hz
    (by rw [← boundsText_sequel]; omega)
  rw [← boundsText_sequel] at hstart
  refine .peekKind_of (hstart.starts fun ts => bound_fails) fun k hk => ?_
  rw [not_startsFn_of_startsBound hk]
  refine .bind hbounds ?_
  rintro cs _ ⟨hhead, hcs, rs, hrs, rfl⟩ -
  obtain ⟨c, cs, rfl, hbinder⟩ := hhead _ rfl
  -- what was read first is a trait without a `for`, which is moved in front of it
  cases c with
  | outlives => cases hbinder
  | trait names' maybe' p' =>
      obtain rfl := Option.some.inj hbinder
      refine .pure ⟨?_, rs, hrs, rfl⟩
      rw [render_bare, bindFirst_trait, List.append_assoc, hcs]

theorem reread_fn (pos : Position) (sig : FnSig) (ht : Rereadable (Ty.fn pos sig).parts) :
    Rereads source 4 (f + 1) (ty source (f + 1)) Ty.render (.fn pos sig) := by
  intro qs z hqs hz hf
  rw [Ty.parts, rereadable_cons] at ht
  obtain ⟨⟨⟨hnames, habi⟩, -⟩, hparts⟩ := ht
  have hinputs : (∀ t ∈ sig.inputs, Rereadable t.parts) ∧
      ∀ t ∈ sig.output, Rereadable t.parts := by
    obtain ⟨names, isUnsafe, abi, inputs, variadic, output⟩ := sig
    rw [FnSig.parts, rereadable_append, partsTys_eq, rereadable_flatMap] at hparts
    refine ⟨hparts.1, ?_⟩
    rintro t ⟨⟩
    exact hparts.2
  rw [Ty.render, FnSig.render_eq] at hqs hf ⊢
  rw [List.append_assoc] at hf ⊢
  have hle := sizeAhead_binder hnames (pointerText sig ++ sequel qs z)
  have hpointer (pos : Position) := reads_fnType h pos habi hinputs.1 hinputs.2
    (hqs.of_suffix (List.suffix_append _ _)) hz (by omega)
  obtain ⟨k, w, u, hk, hnext⟩ := next_pointer sig (sequel qs z)
  unfold ty
  by_cases hnil : sig.binder = []
  · rw [hnil] at hpointer ⊢
    refine .peek hnext fun t ht _ => ?_
    rw [ht]
    rcases hk with rfl | rfl | rfl <;> exact hpointer t.pos
  · have hbinder := next_binder hnil (pointerText sig ++ sequel qs z)
    refine .peek hbinder fun t ht _ => ?_
    rw [ht]
    refine .bind (reads_binder hnil hnames _) ?_
    rintro _ _ ⟨rfl, rfl⟩ -
    refine .peekKind hnext ?_
    rw [if_pos (by rcases hk with rfl | rfl | rfl <;> rfl)]
    exact hpointer t.pos

/-- A reference that is read behind its own sign is one behind any sign. -/
theorem reread_ref (pos : Position) (lifetime : Option Text) (isMut : Bool) (elem : Ty)
    (ht : Rereadable (Ty.ref pos lifetime isMut elem).parts) :
    Rereads source 4 (f + 1) (ty source (f + 1)) Ty.render
    (.ref pos lifetime isMut elem) := by
  intro qs z hqs hz hf
  rw [Ty.parts, rereadable_cons] at ht
  obtain ⟨⟨hlifetime, -⟩, helem⟩ := ht
  have hlifetime : ∀ l ∈ lifetime, Word .lifetime l := hlifetime
  rw [render_ref] at hqs hf ⊢
  have hfollow : Follow elem.render qs :=
    hqs.of_suffix ((List.suffix_append _ _).trans (List.suffix_append _ _))
  rw [List.append_assoc, List.append_assoc] at hf ⊢
  by_cases hamp : (targetText lifetime isMut ++ (elem.render ++ sequel qs z)).head? =
    some 38
  · -- two signs are one token, and the reference behind it is the one that is referred to
    obtain ⟨rfl, rfl, hhead⟩ := target_of_amp hlifetime hamp
    obtain ⟨pos', lifetime', isMut', elem', rfl⟩ :=
      exists_ref helem (separated_sequel _ hz) hhead
    rw [Ty.parts, rereadable_cons] at helem
    rw [render_ref] at hf hfollow ⊢
    have htext : "&" ++ (targetText none false ++ (("&" ++ (targetText lifetime' isMut' ++
        elem'.render)) ++ sequel qs z)) =
        "&&" ++ (targetText lifetime' isMut' ++ (elem'.render ++ sequel qs z)) := by
      simp [targetText, lifetimeText, Text.when]
      rfl
    rw [htext] at hf ⊢
    have hnext := next_amps (targetText lifetime' isMut' ++ (elem'.render ++ sequel qs z))
    unfold ty
    refine .peek hnext fun t ht _ => ?_
    rw [ht]
    refine .bind (h.reference t.pos lifetime' isMut' elem' qs z _ _ _ helem.1.1 helem.2
      (hfollow.of_suffix ((List.suffix_append _ _).trans (List.suffix_append _ _))) hz hnext
      (by omega)) ?_
    rintro _ _ ⟨elem'', rfl, hspells, rs, hrs, rfl⟩ -
    refine .pure ⟨?_, rs, hrs, rfl⟩
    rw [render_ref, render_ref, ← hspells]
    simp [targetText, lifetimeText, Text.when]
    rfl
  · have hnext := next_amp hamp
    unfold ty
    refine .peek hnext fun t ht _ => ?_
    rw [ht]
    refine (h.reference t.pos lifetime isMut elem qs z _ _ _ hlifetime helem
      hfollow hz hnext (by omega)).mono ?_
    rintro _ _ ⟨elem', rfl, hspells, rs, hrs, rfl⟩
    refine ⟨?_, rs, hrs, rfl⟩
    rw [render_ref, ← hspells]
    simp

/-! ## Paths -/

omit h in
theorem reread_macro (pos : Position) (raw : Text)
    (ht : Rereadable (Ty.macroCall pos raw).parts) :
    Rereads source 4 (f + 1) (ty source (f + 1)) Ty.render (.macroCall pos raw) := by
  intro qs z hqs hz hf
  rw [Ty.parts, rereadable_cons] at ht
  obtain ⟨⟨hraw, hdistinct⟩, -⟩ := ht
  have hraw : MacroText raw := hraw
  rw [Ty.render] at hqs hf ⊢
  have hfits : Fits raw (sequel qs z) :=
    fits_sequel hz (of_decide_eq_true (TyPart.distinct_iff.mp hdistinct).1) hqs
  obtain ⟨f, rfl⟩ : ∃ f', f = f' + 1 := ⟨f - 1, by omega⟩
  intro hsub
  obtain ⟨pre, -, hahead⟩ := hraw.solid.ahead hfits hsub
  obtain ⟨t, us, hfirst, -⟩ := hraw.solid.first
  have hstart : StartsPath ((ahead source (raw ++ sequel qs z)).headD Token.none) := by
    rw [hahead, hfirst]
    exact hraw.starts t (by rw [hfirst]; rfl)
  have hread : Reads source (pathOrMacro source (f + 1)
      ((ahead source (raw ++ sequel qs z)).headD Token.none).pos) (raw ++ sequel qs z)
      fun v u => v.render = raw ∧ u = sequel qs z := reads_macro hraw hfits (by omega)
  refine (hread.mono ?_).of_eq (fun _ => ty_of_startsPath hstart) hsub
  rintro v _ ⟨hv, rfl⟩
  exact ⟨by rw [hv], qs, List.suffix_refl _, rfl⟩

theorem reread_pathTy (p : Path) (hq : p.qself = none) (ht : Rereadable (Ty.path p).parts) :
    Rereads source 4 (f + 1) (ty source (f + 1)) Ty.render (.path p) := by
  intro qs z hqs hz hf hsub
  obtain ⟨k, w, u, hnext, hk, hw⟩ := next_path hq ht (separated_sequel qs hz)
  have hrender : (Ty.path p).render = p.render := by rw [Ty.render]
  rw [Ty.parts, rereadable_cons] at ht
  have hstart :
      StartsPath ((ahead source ((Ty.path p).render ++ sequel qs z)).headD Token.none) := by
    rw [← hrender] at hnext
    obtain ⟨t, rfl, rfl, hahead⟩ := hnext.ahead hsub
    rw [hahead]
    exact ⟨hk, hw⟩
  exact (h.pathOrMacro p _ hq ht.2 qs z hqs hz (by omega)).of_eq
    (fun _ => ty_of_startsPath hstart) hsub

theorem reads_asTrait? {trait : Option Path}
    (htrait : ∀ p ∈ trait, p.qself = none ∧ Rereadable p.parts)
    (hf : 8 * sizeAhead (traitText trait ++ (">" ++ y)) + 2 ≤ f + 8) :
    Reads source (asTrait? (path source f)) (traitText trait ++ (">" ++ y)) fun v u =>
      traitText v = traitText trait ∧ u = ">" ++ y := by
  unfold asTrait?
  cases trait with
  | none => exact .accept_no (.of_next (next_gt y) (by decide)) (.pure ⟨rfl, rfl⟩)
  | some p =>
      obtain ⟨hq, hp⟩ := htrait p rfl
      rw [traitText, Option.elim_some, List.append_assoc] at hf ⊢
      have hnext := next_as (p.render ++ (">" ++ y))
      have hsize := hnext.sizeAhead
      refine .accept_yes hnext (.bind ((h.path p hq hp).closed (stop_gt y) (by omega)) ?_)
      rintro v _ ⟨hv, rfl⟩ -
      exact .pure ⟨by rw [traitText, Option.elim_some, hv], rfl⟩

/-- A qualified path: the segments behind the self type are sequels of it. -/
theorem reread_qualified (self : Ty) (trait : Option Path) (isGlobal : Bool)
    (ss : List Segment)
    (pos : Position)
    (ht : Rereadable (Ty.path ⟨some ⟨self, trait⟩, isGlobal, ss, pos⟩).parts) :
    Rereads source 4 (f + 1) (ty source (f + 1)) Ty.render
      (.path ⟨some ⟨self, trait⟩, isGlobal, ss, pos⟩) := by
  intro qs z hqs hz hf
  rw [Ty.parts, rereadable_cons, rereadable_path] at ht
  obtain ⟨-, ⟨⟨hne, hq⟩, hdistinct⟩, hself, hss⟩ := ht
  have hlast := not_colon_of_distinct hdistinct
  rw [partsQSelf?, QSelf.parts, rereadable_append] at hself
  obtain ⟨hself, htrait⟩ := hself
  have htrait : ∀ p ∈ trait, p.qself = none ∧ Rereadable p.parts := by
    rintro p ⟨⟩
    exact ⟨hq _ rfl p rfl, htrait⟩
  have hrender := render_qualified self trait isGlobal ss pos
  obtain ⟨s, ss, rfl⟩ := List.exists_cons_of_ne_nil hne
  have hfollow : Follow s.render (ss.map .segment ++ qs) := by
    refine follow_segments (fun t ht => hss t (List.mem_cons_of_mem s ht)) hlast
      (hqs.of_suffix ?_)
    rw [hrender, qualifiedText_cons]
    exact ⟨"<" ++ (self.render ++ (traitText trait ++ (">" ++ ("::" : Text)))), by simp⟩
  have hfollow' : Follow ">" ((s :: ss).map .segment ++ qs) :=
    .segment (by decide) (hss s (List.mem_cons_self ..)) hfollow
  -- what was read is spelled the same if its three pieces are
  have hpure {self' : Ty} {trait' : Option Path} {ss' : List Segment} {pos' : Position}
      {rs : List Sequel} (hself' : self'.render = self.render)
      (htrait' : traitText trait' = traitText trait)
      (hss' : qualifiedText ss' ++ sequel rs z = sequel ((s :: ss).map .segment ++ qs) z)
      (hrs : rs <:+ qs) :
      Respells Ty.render qs
        ((Ty.path ⟨some ⟨self, trait⟩, isGlobal, s :: ss, pos⟩).render ++ sequel qs z) z
        (.path ⟨some ⟨self', trait'⟩, false, ss', pos'⟩) (sequel rs z) := by
    refine ⟨?_, rs, hrs, rfl⟩
    rw [hrender, render_qualified, hself', htrait']
    simp only [List.append_assoc]
    rw [hss', qualifiedText_sequel]
  rw [hrender] at hf hpure ⊢
  simp only [List.append_assoc, qualifiedText_sequel] at hf hpure ⊢
  have hlt := next_lt (self.render ++ (traitText trait ++ (">" ++
    sequel ((s :: ss).map .segment ++ qs) z)))
  have hgt := next_gt (sequel ((s :: ss).map .segment ++ qs) z)
  have hsize := hlt.sizeAhead
  have hsize' := hgt.sizeAhead
  unfold ty
  refine .peek hlt fun t ht _ => ?_
  rw [ht]
  refine .take hlt fun _ _ _ => ?_
  refine .bind ((h.ty self hself).closed (stop_trait trait _) (by omega)) ?_
  rintro self' _ ⟨hself', rfl⟩ hle
  refine .bind (reads_asTrait? h htrait (by omega)) ?_
  rintro trait' _ ⟨htrait', rfl⟩ hle'
  refine .expect hgt fun _ _ _ => .get ?_
  refine .bind (reads_qualifiedLoop h.segment hfollow' (List.suffix_refl _) hz (by omega)
    (length_ahead source _ ▸ Nat.le_succ _)) ?_
  rintro ss' _ ⟨hne', hss', rs, hrs, hhead, rfl⟩ -
  have hne' : ss' ≠ [] := hne' _ rfl rfl
  rw [qualifiedText_sequel] at hss'
  rw [if_neg (by simpa using hne')]
  exact .pure (hpure hself' htrait' hss'
    (suffix_of_head hrs (by simp [Sequel.isSegment]) hhead))

theorem reread_ty (t : Ty) (ht : Rereadable t.parts) :
    Rereads source 4 (f + 1) (ty source (f + 1)) Ty.render t := by
  cases t with
  | path p =>
      obtain ⟨qself, isGlobal, segments, pos⟩ := p
      cases qself with
      | none => exact reread_pathTy h _ rfl ht
      | some q =>
          obtain ⟨self, trait⟩ := q
          exact reread_qualified h self trait isGlobal segments pos ht
  | ref pos lifetime isMut elem => exact reread_ref h pos lifetime isMut elem ht
  | ptr pos isMut elem => exact reread_ptr h pos isMut elem ht
  | tuple pos elems => exact reread_tuple h pos elems ht
  | array pos elem len => exact reread_array h pos elem len ht
  | slice pos elem => exact reread_slice h pos elem ht
  | paren pos elem => exact reread_paren h pos elem ht
  | fn pos sig => exact reread_fn h pos sig ht
  | traitObject pos dyn bs =>
      cases dyn with
      | true => exact reread_dyn h pos bs ht
      | false =>
          have hbinder :=
            (TyPart.distinct_iff.mp (rereadable_cons.mp (Ty.parts.eq_def _ ▸ ht)).1.2).1
          obtain ⟨names, maybe, p, bs, rfl, hne⟩ := exists_of_beginsWithBinder hbinder
          exact reread_bare h pos names maybe p bs hne ht
  | implTrait pos bs => exact reread_impl h pos bs ht
  | never pos => exact reread_never pos
  | infer pos => exact reread_infer pos
  | macroCall pos raw => exact reread_macro pos raw ht

end Rules

/-- Whatever can be read again is, if the budget is enough for the tokens ahead. -/
theorem rereading (source : Text) (f : Nat) : Rereading source f := by
  induction f with
  | zero =>
      have hpos (y : Text) : 0 < sizeAhead y := sizeAhead_pos
      refine ⟨?_, ?_, ?_, ?_, ?_, ?_, ?_⟩
      · exact fun _ _ _ _ _ _ hf => absurd hf (by omega)
      · exact fun _ _ _ _ _ _ _ _ hf => absurd hf (by omega)
      · exact fun _ _ _ _ _ _ _ hf => absurd hf (by omega)
      · exact fun _ _ _ _ _ _ hf => absurd hf (by omega)
      · exact fun _ _ _ _ _ hf => absurd hf (by omega)
      · exact fun _ _ _ _ _ _ hf => absurd hf (by omega)
      · exact fun _ _ _ _ _ _ y _ _ _ _ _ _ _ hf => absurd (hpos y) (by omega)
  | succ f ih =>
      exact {
        ty := reread_ty ih
        pathOrMacro := reread_pathOrMacro ih
        path := reread_path ih
        segment := reread_segment ih
        genericArg := reread_genericArg ih
        bound := reread_bound ih
        reference := fun _ _ _ _ _ _ _ _ _ => reread_reference ih _ _ _ _ _ _ _ _ _ }

end Deriver
