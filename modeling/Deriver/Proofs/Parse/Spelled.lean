import Deriver.Proofs.Parse.After
import Deriver.Proofs.Parse.Sequel

/-!
# What is read is spelled by tokens

Main statement: `settling`. In a type that was read from a clean, trimmed source
the words are tokens by themselves, and what was captured is captured again.

A capture and the group of a macro call end where the next token is looked at, and only
what comes next shows that the group was closed and that no quote was cut in two. So
every rule is said to yield something spelled by tokens if what it leaves is `Unquoted`,
and who calls the rule knows that from the token it takes next.
-/

namespace Deriver

open Parse Scan

/-- Whether each of some parts is readable. -/
def Spelled (ps : List TyPart) : Prop := ∀ p ∈ ps, p.Readable

section

variable {p : TyPart} {ps qs : List TyPart}

@[simp] theorem spelled_nil : Spelled [] := nofun

@[simp] theorem spelled_cons : Spelled (p :: ps) ↔ p.Readable ∧ Spelled ps :=
  List.forall_mem_cons

@[simp] theorem spelled_append : Spelled (ps ++ qs) ↔ Spelled ps ∧ Spelled qs :=
  List.forall_mem_append

theorem spelled_flatMap {α : Type} {xs : List α} {f : α → List TyPart} :
    Spelled (xs.flatMap f) ↔ ∀ x ∈ xs, Spelled (f x) := by
  simp only [Spelled, List.mem_flatMap]
  constructor
  · exact fun h x hx p hp => h p ⟨x, hx, hp⟩
  · rintro h p ⟨x, hx, hp⟩
    exact h x hx p hp

end

namespace Parse

variable {source : Text} {ts us : List Token} {k : TokenKind}

/-! ## Tokens that are left -/

/-- Whether tokens are left of those of a source. -/
structure Left (source : Text) (ts : List Token) : Prop where
  sub : ts <:+ (scan source).tokens
  ne : ts ≠ []

/-- Whether what comes next is neither the end nor begins with a quote. -/
def Unquoted (ts : List Token) : Prop := kindOf ts 0 ∉ [.eof, .char, .lifetime]

theorem unquoted_of (hk : kindOf ts 0 = k) (h : k ∉ [.eof, .char, .lifetime]) :
    Unquoted ts :=
  fun hmem => h (hk ▸ hmem)

namespace Left

theorem ended (h : Left source ts) : Ended ts := (ended_scan source).of_suffix h.sub h.ne

theorem of_ok {α : Type} {p : Parser α} [Forward p] {v : α} (h : Left source ts)
    (hp : p ts = .ok (v, us)) : Left source us :=
  ⟨(Forward.of_ok h.ended hp).1.trans h.sub, (Forward.of_ok h.ended hp).2.ne_nil⟩

theorem tail {t : Token} (h : Left source (t :: us)) (ht : t.kind ≠ .eof) :
    Left source us :=
  ⟨(List.suffix_cons t us).trans h.sub, (h.ended.tail ht).ne_nil⟩

/-- The next token is that token by itself, unless it is a character. -/
theorem word (hs : (scan source).errors = []) (h : Left source ts) (hk : kindOf ts 0 = k)
    (hne : k ∉ [.eof, .char]) : Word k (ts.headD Token.none).lexeme := by
  obtain ⟨t, us, rfl, -⟩ := h.ended.cases
  obtain rfl : t.kind = k := hk
  simp only [List.mem_cons, List.not_mem_nil, or_false, not_or] at hne
  have hmem := h.sub.subset (List.mem_cons_self (a := t) (l := us))
  rw [scan_tokens_own, List.mem_append, List.mem_singleton] at hmem
  rcases hmem with hmem | rfl
  · exact word_of_mem hs hmem hne.2
  · exact absurd rfl hne.1

end Left

namespace After

variable {α β : Type} {p q : Parser α} {f : α → Parser β} {P : α → List Token → Prop}
  {R : β → List Token → Prop}

theorem step [Forward p] (hts : Left source ts) (hp : After p ts P)
    (hf : ∀ v us, Left source us → P v us → After (f v) us R) : After (p >>= f) ts R := by
  refine After.bind (P := fun v us => Left source us ∧ P v us) ?_ fun v us h =>
    hf v us h.1 h.2
  exact fun v us hr => ⟨hts.of_ok hr, hp v us hr⟩

theorem skip [Forward p] (hts : Left source ts)
    (hf : ∀ v us, Left source us → After (f v) us R) : After (p >>= f) ts R :=
  step (P := fun _ _ => True) hts (fun _ _ _ => trivial) fun v us hus _ => hf v us hus

theorem take {f : Token → Parser β} (hts : Left source ts)
    (hf : ∀ us, Left source us → After (f (ts.headD Token.none)) us R) :
    After (take >>= f) ts R :=
  step (p := Parse.take) (P := fun v _ => v = ts.headD Token.none) hts
    (fun _ _ hr => by cases hr; rfl) fun _ us hus ht => ht ▸ hf us hus

theorem accept (hts : Left source ts) (hk : k ≠ .eof)
    (hyes : ∀ us, Left source us → kindOf ts 0 = k → After p us P)
    (hno : kindOf ts 0 ≠ k → After q ts P) :
    After (Parse.accept k >>= fun b => if b = true then p else q) ts P := by
  obtain ⟨t, us, rfl, -⟩ := hts.ended.cases
  unfold After
  rw [accept_run]
  split
  · next h => exact hyes us (hts.tail (h.2 ▸ hk)) h.2
  · next h => exact hno fun hkind => h ⟨hk, hkind⟩

theorem accepts (hts : Left source ts) (hk : k ≠ .eof) :
    After (Parse.accept k) ts fun b us =>
      if b = true then kindOf ts 0 = k else kindOf ts 0 ≠ k ∧ us = ts := by
  have h : After (Parse.accept k >>= fun b => if b = true then
      (Pure.pure true : Parser Bool) else Pure.pure false) ts fun b us =>
        if b = true then kindOf ts 0 = k else kindOf ts 0 ≠ k ∧ us = ts := by
    refine accept hts hk (fun us _ hkind => .pure ?_) fun hkind => .pure ?_
    · rwa [if_pos rfl]
    · rw [if_neg Bool.false_ne_true]
      exact ⟨hkind, rfl⟩
  have hpure : (fun b : Bool =>
        if b = true then (Pure.pure true : Parser Bool) else Pure.pure false)
      = Pure.pure := by
    funext b
    cases b <;> rfl
  rwa [hpure, bind_pure] at h

theorem expect {f : Token → Parser β} {what : Text} (hts : Left source ts) (hk : k ≠ .eof)
    (hf : ∀ us, Left source us → kindOf ts 0 = k → After (f (ts.headD Token.none)) us R) :
    After (Parse.expect k what >>= f) ts R := by
  obtain ⟨t, us, rfl, -⟩ := hts.ended.cases
  unfold After
  rw [expect_run]
  split
  · next h => exact hf us (hts.tail (h.2 ▸ hk)) h.2
  · exact nofun

theorem check (hyes : kindOf ts 0 = k → After p ts P) (hno : After q ts P) :
    After (Parse.check k >>= fun b => if b = true then p else q) ts P := by
  change After (if (k != .eof && kindOf ts 0 == k) = true then p else q) ts P
  refine .ite (fun h => hyes ?_) fun _ => hno
  rw [Bool.and_eq_true] at h
  exact beq_iff_eq.mp h.2

end After

/-! ## Captured text -/

/-- Whether no text from one token of a source to another has white space to trim. The
scanner takes white space outside ASCII for letters, and where that begins or ends what is
captured, the trimmed text is another one: a raw string with a blank of that kind in front
of its `r` becomes a raw string only when it is trimmed. Every other source is trimmed
(`trimmed_of_blanks`). -/
def Trimmed (source : Text) : Prop := ∀ x, Solid x → x <:+: source → x.trim = x

/-- A source without white space outside ASCII is trimmed. -/
theorem trimmed_of_blanks
    (h : ∀ c ∈ Text.blanks, 0x80 ≤ c.toNat → ¬ Text.ofChar c <:+: source) :
    Trimmed source := by
  intro x hx hsub
  refine Text.trim_eq_self_iff.mpr fun c hc => ?_
  by_cases hlow : c.toNat < 0x80
  · rw [Text.ofChar_low hlow]
    have hall : (Text.blanks.all fun c =>
        !decide (c.toNat < 0x80) || Text.blankBytes.contains (UInt8.ofNat c.toNat)) = true := by
      decide
    have hblank : UInt8.ofNat c.toNat ∈ Text.blankBytes := by
      have hc := List.all_eq_true.mp hall c hc
      rw [decide_eq_true hlow] at hc
      exact List.contains_iff_mem.mp hc
    refine ⟨fun hpre => ?_, fun hsuf => ?_⟩
    · obtain ⟨u, rfl⟩ := hpre
      exact hx.head_not_blank rfl hblank
    · obtain ⟨u, rfl⟩ := hsuf
      exact hx.last_not_blank List.getLast?_concat hblank
  · have hnot := h c hc (Nat.le_of_not_lt hlow)
    exact ⟨fun hpre => hnot (hpre.isInfix.trans hsub),
      fun hsuf => hnot (hsuf.isInfix.trans hsub)⟩

theorem trimmed_of_ascii (h : ∀ b ∈ source, b < 0x80) : Trimmed source :=
  trimmed_of_blanks fun c _ hhigh hsub => by
    obtain ⟨b, hb⟩ := List.exists_mem_of_ne_nil _ (Text.ofChar_ne_nil c)
    exact absurd (h b (hsub.subset hb))
      (UInt8.not_lt.mpr (Text.high_of_mem_ofChar hhigh hb))

/-- The text from one token of a clean, trimmed source to another one. -/
theorem Left.exists_text (hs : (scan source).errors = []) (htrimmed : Trimmed source)
    {vs : List Token} (hts : Left source (vs ++ us)) (hus : Left source us) (hvs : vs ≠ [])
    (hun : Unquoted us) : ∃ pre x post, source = pre ++ x ++ post ∧ Solid x ∧ x.trim = x ∧
      vs = (ownTokens x).map (behindText pre) ∧ textOf source vs = x := by
  obtain ⟨ws, rfl, hown⟩ := own_of_suffix hus.sub hus.ne
  have hown' : vs ++ ws <:+ ownTokens source := by
    have hsub := hts.sub
    rw [scan_tokens_own, ← List.append_assoc] at hsub
    exact ((List.suffix_append_inj_of_length_eq rfl).mp hsub).1
  obtain ⟨pre, x, post, hx, rfl, hvs'⟩ := exists_solid hs hown' hvs fun t u _ hu _ => by
    obtain ⟨ws, rfl⟩ := List.head?_eq_some_iff.mp hu
    have hk : u.kind ∉ [.eof, .char, .lifetime] := hun
    simp only [List.mem_cons, List.not_mem_nil, or_false, not_or] at hk
    exact hk.2
  have htrim : x.trim = x := htrimmed x hx ⟨pre, post, List.append_assoc ..⟩
  refine ⟨pre, x, post, (List.append_assoc ..).symm, hx, htrim, hvs', ?_⟩
  have htext := textOf_own pre post (fun _ h => h) (Position.start.after pre).shift (x := x)
  rw [hvs', ← List.append_assoc]
  exact htext.symm.trans (hx.textOf.trans htrim)

/-- A capture that ends in front of a token of the source ends there wherever it is met
again. -/
theorem captureSize_again {stops : List TokenKind} {depth : Nat}
    {vs ws rest : List Token} {t : Token}
    (hsize : captureSize false stops depth (vs ++ us) = vs.length) (hne : us ≠ [])
    (hus : kindOf us 0 ≠ .eof) (hkinds : ws.map (·.kind) = vs.map (·.kind))
    (ht : t.kind ∈ stops) :
    captureSize false stops depth (ws ++ t :: rest) = ws.length := by
  induction vs generalizing depth ws with
  | nil =>
      obtain rfl := List.map_eq_nil_iff.mp hkinds
      obtain ⟨u, us, rfl⟩ := List.exists_cons_of_ne_nil hne
      have hu : u.kind ≠ .eof := hus
      cases depth with
      | zero => exact captureSize_of_stop ht
      | succ depth =>
          rw [List.nil_append, captureSize_cons] at hsize
          cases hd : depthBehind? false stops (depth + 1) u.kind with
          | none => exact absurd (eof_of_depthBehind hd) hu
          | some d =>
              rw [hd] at hsize
              cases hsize
  | cons v vs ih =>
      obtain ⟨w, ws, rfl, hw, hws⟩ := List.map_eq_cons_iff.mp hkinds
      rw [List.cons_append, captureSize_cons, List.length_cons] at hsize ⊢
      rw [hw]
      cases hd : depthBehind? false stops depth v.kind with
      | none =>
          rw [hd] at hsize
          cases hsize
      | some d =>
          rw [hd] at hsize
          exact congrArg (· + 1) (ih (Nat.succ.inj hsize) hws)

/-- A group that ends in front of a token of the source ends there wherever it is met
again. -/
theorem skipGroup_again (depth : Int) (hts : Ended ts)
    (hun : kindOf (skipGroup depth ts) 0 ≠ .eof) :
    ∃ vs, ts = vs ++ skipGroup depth ts ∧ ∀ ws rest, ws.map (·.kind) = vs.map (·.kind) →
      skipGroup depth (ws ++ rest) = rest := by
  induction ts generalizing depth with
  | nil => exact absurd rfl hts.ne_nil
  | cons t ts ih =>
      rw [skipGroup] at hun ⊢
      split at hun
      · next h => exact absurd (beq_iff_eq.mp h) hun
      next h =>
      rw [if_neg h]
      -- the token opens or closes something, or neither
      extract_lets inner at hun
      extract_lets
      have hstep (vs : List Token) (hvs : ∀ ws rest, ws.map (·.kind) = vs.map (·.kind) →
          (if inner ≤ 0 then ws ++ rest else skipGroup inner (ws ++ rest)) = rest) :
          ∀ ws rest, ws.map (·.kind) = (t :: vs).map (·.kind) →
            skipGroup depth (ws ++ rest) = rest := by
        intro ws rest hws
        cases ws with
        | nil => cases hws
        | cons w ws =>
            obtain ⟨hw, hws⟩ := List.cons.inj hws
            have hw : w.kind = t.kind := hw
            rw [List.cons_append, skipGroup, hw, if_neg h]
            exact hvs ws rest hws
      split at hun
      · next hle =>
          rw [if_pos hle]
          refine ⟨[t], rfl, hstep [] fun ws rest hws => ?_⟩
          rw [if_pos hle, List.map_eq_nil_iff.mp hws, List.nil_append]
      · next hle =>
          rw [if_neg hle]
          obtain ⟨vs, hsplit, hvs⟩ := ih inner (hts.tail (by simpa using h)) hun
          refine ⟨t :: vs, by rw [List.cons_append, ← hsplit],
            hstep vs fun ws rest hws => ?_⟩
          rw [if_neg hle, hvs ws rest hws]

section Captures

variable (hs : (scan source).errors = []) (htrimmed : Trimmed source)

include hs htrimmed

/-- What is captured is captured again, and begins with the token it began with. -/
theorem after_capture {stops : List TokenKind} (hts : Left source ts) :
    After (capture source false stops) ts fun x us => Unquoted us → Captured stops x ∧
      (captureSize false stops 0 ts ≠ 0 →
        ∃ t vs, ownTokens x = t :: vs ∧ t.kind = kindOf ts 0) := by
  intro x us hr hun
  have hus : Left source us := hts.of_ok hr
  have hlt := captureSize_lt hts.ended false stops 0
  obtain ⟨rfl, rfl⟩ : textOf source
      (between ts (ts.drop (captureSize false stops 0 ts))) = x ∧
      ts.drop (captureSize false stops 0 ts) = us := by
    have hok := Except.ok.inj hr
    exact ⟨congrArg Prod.fst hok, congrArg Prod.snd hok⟩
  generalize hn : captureSize false stops 0 ts = n at hlt hun hus ⊢
  obtain ⟨vs, us, rfl, rfl⟩ : ∃ vs us, ts = vs ++ us ∧ n = vs.length :=
    ⟨ts.take n, ts.drop n, (List.take_append_drop ..).symm, by rw [List.length_take]; omega⟩
  rw [List.drop_left] at hun hus ⊢
  rw [between_append]
  rcases eq_or_ne vs [] with rfl | hvs
  · refine ⟨⟨Or.inl rfl, rfl, fun ws t rest hws ht => ?_⟩, fun hne => absurd rfl hne⟩
    obtain rfl := List.map_eq_nil_iff.mp hws
    exact captureSize_of_stop ht
  · obtain ⟨pre, x, post, -, hx, htrim, htokens, htext⟩ :=
      hts.exists_text hs htrimmed hus hvs hun
    rw [htext]
    refine ⟨⟨Or.inr hx, htrim, fun ws t rest hws ht => ?_⟩, fun _ => ?_⟩
    · refine captureSize_again hn hus.ne (fun heof => hun (by rw [heof]; decide)) ?_ ht
      rw [hws, htokens, List.map_map]
      rfl
    · obtain ⟨t, ts, hown, -⟩ := hx.first
      exact ⟨t, ts, hown, by rw [htokens, hown]; rfl⟩

theorem macroText_of_path {p : Path} {b : Token} {fuel : Nat} (hts : Left source ts)
    (hstart : StartsPath (ts.headD Token.none))
    (hpath : path source fuel ts = .ok (p, b :: us))
    (hb : b.kind = .bang) (hun : Unquoted (skipGroup 0 us)) :
    MacroText (textOf source (between ts (skipGroup 0 us))) := by
  obtain ⟨ws, rfl⟩ := (Forward.of_ok hts.ended hpath).1
  have hus : Left source us := (hts.of_ok hpath).tail (by rw [hb]; decide)
  obtain ⟨vs, hsplit, hskip⟩ := skipGroup_again 0 hus.ended
    fun heof => hun (by rw [heof]; decide)
  generalize hrest : skipGroup 0 us = rest at hun hsplit hskip ⊢
  have hleft : Left source rest :=
    ⟨(hrest ▸ skipGroup_suffix 0 us).trans hus.sub, hrest ▸ skipGroup_ne_nil hus.ended 0⟩
  have hall : ws ++ b :: us = (ws ++ b :: vs) ++ rest := by rw [hsplit]; simp
  rw [hall, between_append]
  rw [hall] at hts
  obtain ⟨pre, x, post, hsource, hx, htrim, htokens, htext⟩ :=
    hts.exists_text hs htrimmed hleft
    (by simp) hun
  rw [htext]
  -- the tokens of the call are those of the text, behind what stands in front of it
  obtain ⟨ws', us', hown, hws, hus'⟩ := List.map_eq_append_iff.mp htokens.symm
  obtain ⟨b', vs', rfl, rfl, rfl⟩ := List.map_eq_cons_iff.mp hus'
  subst hws
  have hended : Ended (vs'.map (behindText pre) ++ rest) := hsplit ▸ hus.ended
  rw [hsplit] at hpath
  subst hsource
  refine ⟨hx, htrim, fun t ht => ?_, ws', b', vs', fuel + (8 * (ws'.length + 1) + 2), ?_⟩
  · obtain ⟨ts, hts⟩ := List.head?_eq_some_iff.mp ht
    have hhead : (ws'.map (behindText pre) ++ behindText pre b' :: us).headD Token.none =
        behindText pre t := by
      have := congrArg (fun l => (l.map (behindText pre)).headD Token.none)
        (hown.symm.trans hts)
      cases ws' <;> simpa using this
    rw [hhead] at hstart
    exact hstart
  · have hmore :=
      (below_grammar _ (Nat.le_add_right fuel (8 * (ws'.length + 1) + 2))).2.2.2.1.ok _ _
      hpath
    obtain ⟨p', hp'⟩ :=
      path_of_call hown hb post hended (Nat.le_add_left _ _) (Nat.le_add_left _ _)
      hmore
    refine ⟨p', hown, hb, Nat.le_add_left _ _, hp', fun us ks hus => ?_⟩
    exact hskip us ks (by rw [hus, List.map_map]; rfl)

/-! ## Words -/

omit htrimmed

theorem after_lifetime? (hts : Left source ts) :
    After lifetime? ts fun o _ => ∀ l ∈ o, Word .lifetime l := by
  unfold lifetime?
  refine .check (fun hk => .take hts fun _ _ => .pure ?_) (.pure nofun)
  rintro l ⟨⟩
  exact hts.word hs hk (by decide)

theorem after_lifetimes {sep : TokenKind} (hsep : sep ≠ .eof) (n : Nat)
    (hts : Left source ts) :
    After (lifetimes sep n) ts fun ls _ => ∀ l ∈ ls, Word .lifetime l := by
  induction n generalizing ts with
  | zero => exact .pure nofun
  | succ n ih =>
      unfold lifetimes
      refine .check (fun hk => .take hts fun us hus => ?_) (.pure nofun)
      have hword := hts.word hs hk (by decide)
      refine .accept hus hsep (fun vs hvs _ => ?_) fun _ =>
        .pure (List.forall_mem_singleton.mpr hword)
      exact .step hvs (ih hvs) fun ls _ _ hls =>
        .pure (List.forall_mem_cons.mpr ⟨hword, hls⟩)

theorem after_binder (hts : Left source ts) :
    After binder ts fun ls _ => ∀ l ∈ ls, Word .lifetime l := by
  unfold binder
  refine .expect hts (by decide) fun us hus _ =>
    .expect hus (by decide) fun vs hvs _ => .get ?_
  exact .step hvs (after_lifetimes hs (by decide) _ hvs) fun ls ws hws hls =>
    .expect hws (by decide) fun _ _ _ => .pure hls

theorem after_binder? (hts : Left source ts) :
    After binder? ts fun ls _ => ∀ l ∈ ls, Word .lifetime l := by
  unfold binder?
  exact .check (fun _ => after_binder hs hts) (.pure nofun)

theorem after_abi? (hts : Left source ts) :
    After abi? ts fun o _ => ∀ a ∈ o, Word .str a := by
  unfold abi?
  refine .accept hts (by decide) (fun us hus _ => ?_) fun _ => .pure nofun
  refine .check (fun hk => .take hus fun _ _ => .pure ?_) (.pure ?_)
  · rintro l ⟨⟩
    exact hus.word hs hk (by decide)
  · rintro l ⟨⟩
    exact ⟨_, (pieces_cons 34 [67, 34]).trans (congrArg _ pieces_nil)⟩

end Captures

/-! ## Lists of types and bounds -/

/-- Whether what a rule yields has a property when what comes next is unquoted. -/
def Settles (source : Text) {α : Type} (P : α → Prop) (p : Parser α) : Prop :=
  ∀ ts, Left source ts → After p ts fun v us => Unquoted us → P v

section Lists

variable {α : Type} {P : α → Prop}

theorem after_commaLoop {elem : Parser α} [Forward elem] (helem : Settles source P elem)
    {close : TokenKind} (n : Nat) (hts : Left source ts) :
    After (commaLoop close elem n) ts fun vs us => Unquoted us → ∀ v ∈ vs, P v := by
  induction n generalizing ts with
  | zero => exact .failHere _
  | succ n ih =>
      unfold commaLoop
      refine .skip hts fun _ us hus => .skip hus fun _ vs hvs =>
        .ite (fun _ => .pure fun _ => nofun) ?_
      refine fun _ => .step hvs (helem vs hvs) fun v ws hws hv =>
        .accept hws (by decide) ?_ ?_
      · refine fun xs hxs hk => .step hxs (ih hxs) fun us _ _ hus => .pure fun hun => ?_
        exact List.forall_mem_cons.mpr ⟨hv (unquoted_of hk (by decide)), hus hun⟩
      · exact fun _ => .pure fun hun => List.forall_mem_singleton.mpr (hv hun)

theorem after_commaList {β : Type} {elem : Parser α} [Forward elem]
    (helem : Settles source P elem)
    {close k : TokenKind} {what : Text} {f : List α → Token → Parser β}
    {R : β → List Token → Prop} (hk : k ∉ [.eof, .char, .lifetime]) (hts : Left source ts)
    (hf : ∀ vs t us, Left source us → (∀ v ∈ vs, P v) → After (f vs t) us R) :
    After (commaList close elem >>= fun vs => expect k what >>= f vs) ts R := by
  refine .step hts (.get (after_commaLoop helem _ hts)) fun vs us hus hvs => ?_
  refine .expect hus (fun heof => hk (by rw [heof]; decide)) fun ws hws hkind => ?_
  exact hf vs _ ws hws (hvs (unquoted_of hkind hk))

/-- The properties of what is read, as far as the budget goes. -/
structure Settling (source : Text) (f : Nat) : Prop where
  ty : Settles source (fun t => Spelled t.parts) (Parse.ty source f)
  reference : ∀ pos, Settles source (fun t => Spelled t.parts)
    (Parse.reference source f pos)
  pathOrMacro : ∀ pos ts, Left source ts → StartsPath (ts.headD Token.none) →
    After (Parse.pathOrMacro source f pos) ts fun t us => Unquoted us → Spelled t.parts
  path : ∀ ts, Left source ts → After (Parse.path source f) ts fun p us =>
    (p.qself = none ∧ (p.isGlobal = true ∨ p.segments.head?.map (·.ident) =
      some (ts.headD Token.none).lexeme)) ∧ (Unquoted us → Spelled p.parts)
  segment : ∀ ts, Left source ts → After (Parse.segment source f) ts fun s us =>
    s.ident = (ts.headD Token.none).lexeme ∧ (Unquoted us → Spelled s.parts)
  genericArg : Settles source (fun a => Spelled a.parts) (Parse.genericArg source f)
  bound : Settles source (fun b => Spelled b.parts) (Parse.bound source f)

theorem settles_output? {elem : Parser Ty} [Forward elem]
    (helem : Settles source (fun t => Spelled t.parts) elem) :
    Settles source (fun o => ∀ t ∈ o, Spelled t.parts) (output? elem) := by
  intro ts hts
  unfold output?
  refine .accept hts (by decide) (fun us hus _ => ?_) fun _ => .pure fun _ => nofun
  refine .step hus (helem us hus) fun t vs _ ht => .pure fun hun => ?_
  rintro _ ⟨⟩
  exact ht hun

theorem after_tupleRest {elem : Parser Ty} [Forward elem]
    (helem : Settles source (fun t => Spelled t.parts) elem) (n : Nat)
    (hts : Left source ts) : After (tupleRest elem n) ts fun vs us => Unquoted us →
      Unquoted ts ∧ ∀ t ∈ vs, Spelled t.parts := by
  induction n generalizing ts with
  | zero => exact .failHere _
  | succ n ih =>
      unfold tupleRest
      refine .accept hts (by decide) (fun us hus hk => ?_) fun _ =>
        .pure fun hun => ⟨hun, nofun⟩
      have hcomma := unquoted_of hk (by decide)
      refine .check (fun _ => .pure fun _ => ⟨hcomma, nofun⟩) ?_
      refine .step hus (helem us hus) fun t vs hvs ht => .step hvs (ih hvs)
        fun rest ws _ hrest => ?_
      refine .pure fun hun =>
        ⟨hcomma, List.forall_mem_cons.mpr ⟨ht (hrest hun).1, (hrest hun).2⟩⟩

theorem settles_fnInputs {elem : Parser Ty} [Forward elem]
    (helem : Settles source (fun t => Spelled t.parts) elem) (n : Nat) :
    Settles source (fun r => ∀ t ∈ r.1, Spelled t.parts) (fnInputs elem n) := by
  induction n with
  | zero => exact fun _ _ => .failHere _
  | succ n ih =>
      intro ts hts
      unfold fnInputs
      refine .skip hts fun _ us hus => .skip hus fun _ vs hvs =>
        .ite (fun _ => .pure fun _ => nofun) ?_
      refine fun _ => .accept hvs (by decide)
        (fun _ _ _ => .pure fun _ => nofun) fun _ => ?_
      refine .skip hvs fun _ ws hws => .step hws (helem ws hws) fun t xs hxs ht => ?_
      refine .accept hxs (by decide) (fun ys hys hk => ?_) fun _ => .pure fun hun => ?_
      · refine .step hys (ih ys hys) fun r _ _ hr => .pure fun hun => ?_
        exact List.forall_mem_cons.mpr ⟨ht (unquoted_of hk (by decide)), hr hun⟩
      · exact List.forall_mem_singleton.mpr (ht hun)

theorem settles_boundList {elem : Parser Bound} [Forward elem]
    (helem : Settles source (fun b => Spelled b.parts) elem) :
    Settles source (fun bs => ∀ b ∈ bs, Spelled b.parts) (boundList elem) := by
  have hloop (n : Nat) :
      Settles source (fun bs => ∀ b ∈ bs, Spelled b.parts) (boundLoop elem n) := by
    induction n with
    | zero => exact fun _ _ => .failHere _
    | succ n ih =>
        intro ts hts
        unfold boundLoop
        refine .peekKind (.ite (fun _ => .pure fun _ => nofun) fun _ => ?_)
        refine .step hts (helem ts hts) fun b us hus hb => .accept hus (by decide) ?_ ?_
        · refine fun vs hvs hk => .step hvs (ih vs hvs) fun bs _ _ hbs =>
            .pure fun hun => ?_
          exact List.forall_mem_cons.mpr ⟨hb (unquoted_of hk (by decide)), hbs hun⟩
        · exact fun _ => .pure fun hun => List.forall_mem_singleton.mpr (hb hun)
  exact fun ts hts => .get (hloop _ ts hts)

theorem after_segmentLoop {elem : Parser Segment} [Forward elem]
    (helem : ∀ ts, Left source ts → After elem ts fun s us =>
      s.ident = (ts.headD Token.none).lexeme ∧ (Unquoted us → Spelled s.parts)) (n : Nat)
    (hts : Left source ts) :
    After (segmentLoop elem n) ts fun ss us =>
      ss.head?.map (·.ident) = some (ts.headD Token.none).lexeme ∧
      (Unquoted us → ∀ s ∈ ss, Spelled s.parts) := by
  induction n generalizing ts with
  | zero => exact .failHere _
  | succ n ih =>
      unfold segmentLoop
      refine .step hts (helem ts hts) fun s us hus hs => ?_
      have hhead (ss : List Segment) : (s :: ss).head?.map (·.ident) =
          some (ts.headD Token.none).lexeme := congrArg some hs.1
      change After (if ((TokenKind.doubleColon != .eof && kindOf us 0 == .doubleColon) &&
        isPathIdent (kindOf us 1)) = true then _ else _) us _
      refine .ite (fun hmore => ?_) fun _ => .pure ⟨hhead [], fun hun => ?_⟩
      · have hk : kindOf us 0 = .doubleColon := by
          simp only [Bool.and_eq_true, beq_iff_eq] at hmore
          exact hmore.1.2
        refine .skip hus fun _ vs hvs => .step hvs (ih hvs) fun ss _ _ hss => ?_
        exact .pure ⟨hhead ss, fun hun =>
          List.forall_mem_cons.mpr ⟨hs.2 (unquoted_of hk (by decide)), hss.2 hun⟩⟩
      · exact List.forall_mem_singleton.mpr (hs.2 hun)

theorem after_qualifiedLoop {elem : Parser Segment} [Forward elem]
    (helem : Settles source (fun s => Spelled s.parts) elem) (n : Nat)
    (hts : Left source ts) : After (qualifiedLoop elem n) ts fun ss us => Unquoted us →
      Unquoted ts ∧ ∀ s ∈ ss, Spelled s.parts := by
  induction n generalizing ts with
  | zero => exact .failHere _
  | succ n ih =>
      unfold qualifiedLoop
      refine .accept hts (by decide) (fun us hus hk => ?_) fun _ =>
        .pure fun hun => ⟨hun, nofun⟩
      refine .step hus (helem us hus) fun s vs hvs hs =>
        .step hvs (ih hvs) fun ss ws _ hss => ?_
      exact .pure fun hun => ⟨unquoted_of hk (by decide),
        List.forall_mem_cons.mpr ⟨hs (hss hun).1, (hss hun).2⟩⟩

/-- What stands in front of `as` is told by it, or by what is told by the rest. -/
theorem after_asTrait? {elem : Parser Path} [Forward elem] (hts : Left source ts)
    (helem : ∀ ts, Left source ts → After elem ts fun p us =>
      p.qself = none ∧ (Unquoted us → Spelled p.parts)) :
    After (asTrait? elem) ts fun o us => (∀ p ∈ o, p.qself = none) ∧ (Unquoted us →
      Unquoted ts ∧ ∀ p ∈ o, Spelled p.parts) := by
  unfold asTrait?
  refine .accept hts (by decide) (fun us hus hk => ?_) fun _ =>
    .pure ⟨nofun, fun hun => ⟨hun, nofun⟩⟩
  refine .step hus (helem us hus) fun p vs _ hp =>
    .pure ⟨?_, fun hun => ⟨unquoted_of hk (by decide), ?_⟩⟩
  · rintro _ ⟨⟩
    exact hp.1
  · rintro _ ⟨⟩
    exact hp.2 hun

end Lists

/-! ## The rules of the grammar -/

theorem kind_of_underscore (h : Word k "_") : k = .ident := by
  obtain ⟨v, hv⟩ := h
  have hpieces : pieces "_" = [⟨"_", some (.ident, none), []⟩] :=
    (pieces_cons 95 []).trans (congrArg _ pieces_nil)
  have hsome := congrArg (·.head?.bind (·.token)) (hv.symm.trans hpieces)
  exact (Prod.mk.inj (Option.some.inj hsome)).1

theorem spelled_bindFirst {names : List Text} {bs : List Bound}
    (hnames : ∀ l ∈ names, Word .lifetime l) (hbs : ∀ b ∈ bs, Spelled b.parts) :
    ∀ b ∈ bindFirst names bs, Spelled b.parts := by
  cases bs with
  | nil => exact nofun
  | cons b bs =>
      obtain ⟨hb, htail⟩ := List.forall_mem_cons.mp hbs
      cases b with
      | outlives _ l =>
          rw [bindFirst, List.forall_mem_cons]
          rw [Bound.parts, spelled_cons] at hb ⊢
          exact ⟨hb, htail⟩
      | trait _ maybe p =>
          rw [bindFirst, List.forall_mem_cons]
          rw [Bound.parts, spelled_cons] at hb ⊢
          exact ⟨⟨⟨hnames, hb.1.2⟩, hb.2⟩, htail⟩

theorem captureSize_of_const (h : startsConst (kindOf ts 0) = true) :
    captureSize false [.comma, .gt] 0 ts ≠ 0 := by
  cases ts with
  | nil => cases h
  | cons t ts =>
      have h : startsConst t.kind = true := h
      rw [captureSize_cons]
      generalize t.kind = k at h
      cases k <;> first | exact Nat.succ_ne_zero _ | cases h

section Rules

variable {f : Nat} (hs : (scan source).errors = []) (htrimmed : Trimmed source)
  (h : Settling source f)

include h

theorem after_path {ts : List Token} (hts : Left source ts) :
    After (path source (f + 1)) ts fun p us =>
      (p.qself = none ∧ (p.isGlobal = true ∨ p.segments.head?.map (·.ident) =
        some (ts.headD Token.none).lexeme)) ∧ (Unquoted us → Spelled p.parts) := by
  unfold path
  refine .peek (.step hts (.accepts hts (by decide)) fun isGlobal us hus hglobal => .get ?_)
  refine .step hus (after_segmentLoop h.segment _ hus) fun ss vs _ hss => ?_
  refine .pure ⟨⟨rfl, ?_⟩, fun hun => ?_⟩
  · cases isGlobal with
    | true => exact Or.inl rfl
    | false => exact Or.inr (hss.1.trans (by rw [hglobal.2]))
  · have hne : ss ≠ [] := by
      rintro rfl
      cases hss.1
    simp only [Path.parts, partsQSelf?, List.nil_append, spelled_cons, partsSegments_eq,
      spelled_flatMap]
    exact ⟨⟨hne, fun q hq => absurd hq (Option.not_mem_none q)⟩, hss.2 hun⟩

include hs

theorem settles_fnType {names : List Text} (pos : Position)
    (hnames : ∀ l ∈ names, Word .lifetime l) :
    Settles source (fun t => Spelled t.parts) (fnType (ty source f) names pos) := by
  intro ts hts
  unfold fnType
  refine .skip hts fun _ us hus => .step hus (after_abi? hs hus) fun abi vs hvs habi => ?_
  refine .expect hvs (by decide) fun ws hws _ =>
    .expect hws (by decide) fun xs hxs _ => .get ?_
  refine .step hxs (settles_fnInputs h.ty _ xs hxs) fun r ys hys hr => ?_
  refine .expect hys (by decide) fun zs hzs hk => ?_
  refine .step hzs (settles_output? h.ty zs hzs) fun o _ _ ho => .pure fun hun => ?_
  have hinputs : Spelled (partsTys r.1) := by
    rw [partsTys_eq, spelled_flatMap]
    exact hr (unquoted_of hk (by decide))
  have houtput : Spelled (partsTy? o) := by
    cases o with
    | none => exact spelled_nil
    | some t => exact ho hun t rfl
  simp only [Ty.parts, FnSig.parts, spelled_cons, spelled_append]
  exact ⟨⟨hnames, habi⟩, hinputs, houtput⟩

theorem settles_reference (pos : Position) :
    Settles source (fun t => Spelled t.parts) (reference source (f + 1) pos) := by
  intro ts hts
  unfold reference
  refine .skip hts fun _ us hus => .step hus (after_lifetime? hs hus) fun l vs hvs hl => ?_
  refine .skip hvs fun _ ws hws => .step hws (h.ty ws hws) fun t _ _ ht =>
    .pure fun hun => ?_
  simp only [Ty.parts, spelled_cons]
  exact ⟨hl, ht hun⟩

theorem after_segment {ts : List Token} (hts : Left source ts) :
    After (Parse.segment source (f + 1)) ts fun s us =>
      s.ident = (ts.headD Token.none).lexeme ∧ (Unquoted us → Spelled s.parts) := by
  unfold Parse.segment
  refine .peek (.ite (fun _ => .failHere _) fun hident => ?_)
  have hident : isPathIdent (kindOf ts 0) = true := by
    rw [kindOf_zero]
    simpa using hident
  have hword : ∃ k, isPathIdent k = true ∧ Word k (ts.headD Token.none).lexeme := by
    refine ⟨_, hident, hts.word hs rfl fun hmem => ?_⟩
    generalize kindOf ts 0 = k at hident hmem
    rcases List.mem_pair.mp hmem with rfl | rfl <;> cases hident
  refine .skip hts fun _ us hus => .skip hus fun _ vs hvs => ?_
  refine .accept hvs (by decide) (fun ws hws _ => ?_) fun _ =>
    .accept hvs (by decide) ?_ fun _ => ?_
  · refine after_commaList h.genericArg (by decide) hws fun args _ _ _ hargs =>
      .pure ⟨rfl, fun _ => ?_⟩
    simp only [Segment.parts, Args.parts, spelled_cons, partsArgs_eq, spelled_flatMap]
    exact ⟨hword, hargs⟩
  · refine fun ws hws _ => after_commaList h.ty
      (by decide) hws fun inputs _ xs hxs hinputs => ?_
    refine .step hxs (settles_output? h.ty xs hxs) fun o _ _ ho =>
      .pure ⟨rfl, fun hun => ?_⟩
    have houtput : Spelled (partsTy? o) := by
      cases o with
      | none => exact spelled_nil
      | some t => exact ho hun t rfl
    simp only [Segment.parts, Args.parts, spelled_cons, spelled_append, partsTys_eq,
      spelled_flatMap]
    exact ⟨hword, hinputs, houtput⟩
  · refine .pure ⟨rfl, fun _ => ?_⟩
    simp only [Segment.parts, Args.parts, spelled_cons]
    exact ⟨hword, spelled_nil⟩

theorem settles_bound :
    Settles source (fun b => Spelled b.parts) (bound source (f + 1)) := by
  intro ts hts
  unfold bound
  refine .check (fun hk => .take hts fun _ _ => .pure fun _ => ?_) ?_
  · have hword : Word .lifetime (ts.headD Token.none).lexeme := hts.word hs hk (by decide)
    simp only [Bound.parts, spelled_cons]
    exact ⟨hword, spelled_nil⟩
  refine .accept hts (by decide) (fun us hus _ => ?_) fun _ => ?_
  · refine .step hus (h.bound us hus) fun b vs hvs hb =>
      .expect hvs (by decide) fun _ _ hk => ?_
    exact .pure fun _ => hb (unquoted_of hk (by decide))
  · refine .step hts (after_binder? hs hts) fun names us hus hnames => ?_
    refine .skip hus fun _ vs hvs => .skip hvs fun _ ws hws => ?_
    refine .step hws (h.path ws hws) fun p _ _ hp => .pure fun hun => ?_
    simp only [Bound.parts, spelled_cons]
    exact ⟨⟨hnames, hp.1.1⟩, hp.2 hun⟩

include htrimmed

theorem after_pathOrMacro (pos : Position) {ts : List Token} (hts : Left source ts)
    (hstart : StartsPath (ts.headD Token.none)) :
    After (pathOrMacro source (f + 1) pos) ts fun t us => Unquoted us →
    Spelled t.parts := by
  unfold pathOrMacro
  refine .get (.step (P := fun p us => path source f ts = .ok (p, us)) hts
    (fun _ _ hr => hr) ?_)
  intro p us hus hpath
  obtain ⟨⟨hqself, hfirst⟩, hparts⟩ := h.path ts hts p us hpath
  obtain ⟨b, vs, rfl, -⟩ := hus.ended.cases
  unfold After
  rw [accept_run]
  split
  · next hb =>
      rintro _ _ ⟨⟩ hun
      simp only [Ty.parts, spelled_cons]
      exact ⟨macroText_of_path hs htrimmed hts hstart hpath hb.2 hun, spelled_nil⟩
  · rintro _ _ ⟨⟩ hun
    simp only [Ty.parts, spelled_cons]
    refine ⟨?_, hparts hun⟩
    obtain ⟨qself, isGlobal, segments, pos⟩ := p
    obtain rfl : qself = none := hqself
    cases isGlobal with
    | true => trivial
    | false =>
        cases segments with
        | nil => trivial
        | cons s ss =>
            have hident : s.ident = (ts.headD Token.none).lexeme :=
              Option.some.inj (hfirst.resolve_left Bool.false_ne_true)
            have hkind : kindOf ts 0 ∉ [.eof, .char] := by
              have hbegin := hstart.1
              rw [kindOf_zero]
              generalize (ts.headD Token.none).kind = k at hbegin
              rcases hbegin with rfl | hk
              · decide
              · cases k <;> first | decide | cases hk
            have hword := hts.word hs rfl hkind
            intro hblank
            rw [← hident, hblank] at hword
            exact hstart.2 ((kindOf_zero ts).symm.trans (kind_of_underscore hword))
              (hident.symm.trans hblank)

theorem settles_genericArg :
    Settles source (fun a => Spelled a.parts) (genericArg source (f + 1)) := by
  intro ts hts
  unfold genericArg
  refine .peek ?_
  dsimp only
  refine .ite (fun hk => .skip hts fun _ us hus => .pure fun _ => ?_) fun _ =>
    .ite (fun hk => ?_) fun _ => ?_
  · have hword : Word .lifetime (ts.headD Token.none).lexeme :=
      hts.word hs ((kindOf_zero ts).trans (beq_iff_eq.mp hk)) (by decide)
    simp only [GenericArg.parts, spelled_cons]
    exact ⟨hword, spelled_nil⟩
  · refine .step hts (after_capture hs htrimmed hts) fun x us _ hx => .pure fun hun => ?_
    simp only [GenericArg.parts, spelled_cons]
    obtain ⟨hcaptured, hfirst⟩ := hx hun
    obtain ⟨t, vs, hown, ht⟩ := hfirst (captureSize_of_const ((kindOf_zero ts).symm ▸ hk))
    exact ⟨⟨hcaptured, t, vs, hown, by rwa [ht, kindOf_zero]⟩, spelled_nil⟩
  have hplain : After (GenericArg.ty <$> ty source f) ts fun a us =>
      Unquoted us → Spelled a.parts := by
    refine .map ((h.ty ts hts).mono fun t us ht hun => ?_)
    simp only [GenericArg.parts, spelled_cons]
    exact ⟨trivial, ht hun⟩
  rw [map_eq_pure_bind] at hplain
  refine .ite (fun hk => .peekKind ?_) fun _ => hplain
  have hword : Word .ident (ts.headD Token.none).lexeme :=
    hts.word hs ((kindOf_zero ts).trans (beq_iff_eq.mp hk)) (by decide)
  refine .ite (fun _ => .skip hts fun _ us hus => .skip hus fun _ vs hvs => ?_) fun _ =>
    .ite (fun _ => .skip hts fun _ us hus => .skip hus fun _ vs hvs => ?_) fun _ => hplain
  · refine .step hvs (h.ty vs hvs) fun t _ _ ht => .pure fun hun => ?_
    simp only [GenericArg.parts, spelled_cons]
    exact ⟨hword, ht hun⟩
  · refine .step hvs (settles_boundList h.bound vs hvs) fun bs _ _ hbs =>
      .pure fun hun => ?_
    simp only [GenericArg.parts, spelled_cons, partsBounds_eq, spelled_flatMap]
    exact ⟨hword, hbs hun⟩

theorem settles_ty : Settles source (fun t => Spelled t.parts) (ty source (f + 1)) := by
  intro ts hts
  have hk := kindOf_zero ts
  unfold ty
  refine .peek ?_
  generalize ht : ts.headD Token.none = t at hk
  dsimp only
  split
  · next hkind =>
      refine .skip hts fun _ us hus =>
        .accept hus (by decide) (fun _ _ _ => .pure fun _ => ?_) fun _ => ?_
      · simp [Ty.parts, partsTys, TyPart.Readable]
      refine .step hus (h.ty us hus) fun t vs hvs ht =>
        .accept hvs (by decide) ?_ fun _ => .get ?_
      · refine fun _ _ hk => .pure fun _ => ?_
        simp only [Ty.parts, spelled_cons]
        exact ⟨trivial, ht (unquoted_of hk (by decide))⟩
      · refine .step hvs (after_tupleRest h.ty _ hvs) fun rest ws hws hrest => ?_
        refine .expect hws (by decide) fun _ _ hk => .pure fun _ => ?_
        obtain ⟨hun, hrest⟩ := hrest (unquoted_of hk (by decide))
        simp only [Ty.parts, spelled_cons, partsTys, spelled_append, partsTys_eq,
          spelled_flatMap]
        exact ⟨trivial, ht hun, hrest⟩
  · refine .skip hts fun _ us hus => .step hus (h.ty us hus) fun t vs hvs ht => ?_
    refine .accept hvs (by decide) (fun ws hws hk => ?_) fun _ => ?_
    · refine .step hws (after_capture hs htrimmed hws) fun len xs hxs hlen => ?_
      refine .expect hxs (by decide) fun _ _ hk' => .pure fun _ => ?_
      simp only [Ty.parts, spelled_cons]
      exact ⟨(hlen (unquoted_of hk' (by decide))).1, ht (unquoted_of hk (by decide))⟩
    · refine .expect hvs (by decide) fun _ _ hk => .pure fun _ => ?_
      simp only [Ty.parts, spelled_cons]
      exact ⟨trivial, ht (unquoted_of hk (by decide))⟩
  · exact h.reference t.pos ts hts
  · refine .step hts (h.reference t.pos ts hts) fun elem _ _ helem => .pure fun hun => ?_
    simp only [Ty.parts, spelled_cons]
    exact ⟨fun l hl => absurd hl (Option.not_mem_none l), helem hun⟩
  · refine .skip hts fun _ us hus => .skip hus fun _ vs hvs => ?_
    refine .step hvs (h.ty vs hvs) fun elem _ _ helem => .pure fun hun => ?_
    simp only [Ty.parts, spelled_cons]
    exact ⟨trivial, helem hun⟩
  · refine .skip hts fun _ us hus => .pure fun _ => ?_
    simp [Ty.parts, TyPart.Readable]
  · refine .step hts (after_binder hs hts) fun names us hus hnames => .peekKind ?_
    refine .ite (fun _ => settles_fnType hs h t.pos hnames us hus) fun _ => ?_
    refine .step hus (settles_boundList h.bound us hus) fun bs _ _ hbs =>
      .pure fun hun => ?_
    simp only [Ty.parts, spelled_cons, partsBounds_eq, spelled_flatMap]
    exact ⟨trivial, spelled_bindFirst hnames (hbs hun)⟩
  · refine .skip hts fun _ us hus => ?_
    refine .step hus (settles_boundList h.bound us hus) fun bs _ _ hbs =>
      .pure fun hun => ?_
    simp only [Ty.parts, spelled_cons, partsBounds_eq, spelled_flatMap]
    exact ⟨trivial, hbs hun⟩
  · refine .skip hts fun _ us hus => ?_
    refine .step hus (settles_boundList h.bound us hus) fun bs _ _ hbs =>
      .pure fun hun => ?_
    simp only [Ty.parts, spelled_cons, partsBounds_eq, spelled_flatMap]
    exact ⟨trivial, hbs hun⟩
  · refine .skip hts fun _ us hus => .step hus (h.ty us hus) fun self vs hvs hself => ?_
    have htrait := after_asTrait? hvs fun ts hts => (h.path ts hts).mono fun _ _ hp =>
      ⟨hp.1.1, hp.2⟩
    refine .step hvs htrait fun trait ws hws htrait => .expect hws (by decide)
      fun xs hxs hk => .get ?_
    have hloop :=
      after_qualifiedLoop (fun ts hts => (h.segment ts hts).mono fun _ _ hs => hs.2)
      (xs.length + 1) hxs
    refine .step hxs hloop fun ss _ _ hss => .ite (fun _ => .failHere _) fun hne =>
      .pure fun hun => ?_
    obtain ⟨hunself, htraits⟩ := htrait.2 (unquoted_of hk (by decide))
    have htraits : Spelled (partsPath? trait) := by
      cases trait with
      | none => exact spelled_nil
      | some p => exact htraits p rfl
    simp only [Ty.parts, Path.parts, partsQSelf?, QSelf.parts, spelled_cons, spelled_append,
      partsSegments_eq, spelled_flatMap]
    refine ⟨trivial, ⟨by simpa using hne, ?_⟩, ⟨hself hunself, htraits⟩, (hss hun).2⟩
    rintro _ ⟨⟩
    exact htrait.1
  · next hkind =>
    refine .ite (fun _ => .skip hts fun _ _ _ => .pure fun _ => ?_) fun hw => ?_
    · simp [Ty.parts, TyPart.Readable]
    · exact h.pathOrMacro t.pos ts hts
        (ht ▸ ⟨Or.inr (hkind ▸ rfl), fun _ => by simpa using hw⟩)
  · next hkind =>
      exact h.pathOrMacro t.pos ts hts
        (ht ▸ ⟨Or.inl hkind, fun h => by rw [hkind] at h; cases h⟩)
  · refine .ite (fun _ => settles_fnType hs h t.pos (List.forall_mem_nil _) ts hts)
      fun _ => ?_
    refine .ite (fun hident => ?_) fun _ => .failHere _
    have hne : t.kind ≠ .ident := by assumption
    exact h.pathOrMacro t.pos ts hts (ht ▸ ⟨Or.inr hident, fun h => absurd h hne⟩)

end Rules

/-- Whatever is read of a clean, trimmed source is spelled by tokens. -/
theorem settling (hs : (scan source).errors = []) (htrimmed : Trimmed source) (f : Nat) :
    Settling source f := by
  induction f with
  | zero =>
      exact {
        ty := fun _ _ => .failHere _
        reference := fun _ _ _ => .failHere _
        pathOrMacro := fun _ _ _ _ => .failHere _
        path := fun _ _ => .failHere _
        segment := fun _ _ => .failHere _
        genericArg := fun _ _ => .failHere _
        bound := fun _ _ => .failHere _ }
  | succ f ih =>
      exact {
        ty := settles_ty hs htrimmed ih
        reference := settles_reference hs ih
        pathOrMacro := fun pos _ => after_pathOrMacro hs htrimmed ih pos
        path := fun _ => after_path ih
        segment := fun _ => after_segment hs ih
        genericArg := settles_genericArg hs htrimmed ih
        bound := settles_bound hs ih }

end Parse

end Deriver
