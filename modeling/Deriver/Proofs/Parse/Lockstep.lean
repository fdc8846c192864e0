import Deriver.Proofs.Parse.Forward
import Deriver.Proofs.Token.Fragment
import Mathlib.Data.List.Forall2
import Mathlib.Data.Option.Basic

/-!
# Parsing with the source and without it

Some parts of a declaration are kept as text: visibilities, discriminants, lengths,
constants, macros and arguments of attributes. Such a text is captured from a run of
tokens, out of the source if it is at hand, and put together from the lexemes if it
is not. `Captures` relates the two texts of a run, and the `Twin` relations two trees
that are the same but for such texts.

Two parsers are in lockstep when they take the same tokens, fail at the same ones and
yield related values. Each combinator has a rule for it, so the lockstep of a rule of
the grammar is put together in the shape of the rule.
-/

namespace Deriver

/-! ## Captured texts -/

/-- Two texts captured from the same tokens of a source. The first one joins their lexemes
by spaces; the second one is what stands between the beginning of the first token and the
end of the last. -/
inductive Captures (s : Text) : Text → Text → Prop
  | nothing : Captures s [] []
  | run {us : List Token} (h : us <:+: ownTokens s) (hne : us ≠ []) :
      Captures s (Text.join " " (us.map (·.lexeme)))
        (slice s (us.head hne).offset (us.getLast hne).stop)

/-- The text of a path: its segments and the separators, with nothing between them. -/
def pathText (us : List Token) : Text :=
  Text.concat (us.map fun t => if t.kind = .doubleColon then ("::" : Text) else t.lexeme)

/-- Whether a text is that of a path in a source. One segment is captured like all else;
blanks around a separator are left out. -/
def Adjoins (s p : Text) : Prop :=
  Captures s p p ∨
    ∃ us, us <:+: ownTokens s ∧ (∃ c ∈ us, c.kind = .doubleColon) ∧ p = pathText us

section

variable (s : Text)

/-! ## Types -/

mutual

/-- Two types that are the same but for captured texts. -/
inductive Ty.Twin : Ty → Ty → Prop
  | path {p q : Path} (h : Path.Twin p q) : Ty.Twin (.path p) (.path q)
  | ref (pos : Position) (lifetime : Option Text) (isMut : Bool) {t u : Ty}
    (h : Ty.Twin t u) :
      Ty.Twin (.ref pos lifetime isMut t) (.ref pos lifetime isMut u)
  | ptr (pos : Position) (isMut : Bool) {t u : Ty} (h : Ty.Twin t u) :
      Ty.Twin (.ptr pos isMut t) (.ptr pos isMut u)
  | tuple (pos : Position) {ts us : List Ty} (h : List.Forall₂ Ty.Twin ts us) :
      Ty.Twin (.tuple pos ts) (.tuple pos us)
  | array (pos : Position) {t u : Ty} {len len' : Text} (h : Ty.Twin t u)
      (hlen : Captures s len len') : Ty.Twin (.array pos t len) (.array pos u len')
  | slice (pos : Position) {t u : Ty} (h : Ty.Twin t u) :
      Ty.Twin (.slice pos t) (.slice pos u)
  | paren (pos : Position) {t u : Ty} (h : Ty.Twin t u) :
      Ty.Twin (.paren pos t) (.paren pos u)
  | fn (pos : Position) {f g : FnSig} (h : FnSig.Twin f g) : Ty.Twin (.fn pos f) (.fn pos g)
  | traitObject (pos : Position) (dyn : Bool) {bs cs : List Bound}
      (h : List.Forall₂ Bound.Twin bs cs) :
      Ty.Twin (.traitObject pos dyn bs) (.traitObject pos dyn cs)
  | implTrait (pos : Position) {bs cs : List Bound} (h : List.Forall₂ Bound.Twin bs cs) :
      Ty.Twin (.implTrait pos bs) (.implTrait pos cs)
  | never (pos : Position) : Ty.Twin (.never pos) (.never pos)
  | infer (pos : Position) : Ty.Twin (.infer pos) (.infer pos)
  | macroCall (pos : Position) {raw raw' : Text} (h : Captures s raw raw') :
      Ty.Twin (.macroCall pos raw) (.macroCall pos raw')

inductive Path.Twin : Path → Path → Prop
  | mk {q q' : Option QSelf} (isGlobal : Bool) {ss ss' : List Segment} (pos : Position)
      (hq : Option.Rel QSelf.Twin q q') (hs : List.Forall₂ Segment.Twin ss ss') :
      Path.Twin ⟨q, isGlobal, ss, pos⟩ ⟨q', isGlobal, ss', pos⟩

inductive QSelf.Twin : QSelf → QSelf → Prop
  | mk {t u : Ty} {p q : Option Path} (h : Ty.Twin t u) (hp : Option.Rel Path.Twin p q) :
      QSelf.Twin ⟨t, p⟩ ⟨u, q⟩

inductive Segment.Twin : Segment → Segment → Prop
  | mk (ident : Text) {as bs : Args} (h : Args.Twin as bs) :
      Segment.Twin ⟨ident, as⟩ ⟨ident, bs⟩

inductive Args.Twin : Args → Args → Prop
  | none : Args.Twin .none .none
  | angled {as bs : List GenericArg} (h : List.Forall₂ GenericArg.Twin as bs) :
      Args.Twin (.angled as) (.angled bs)
  | call {ts us : List Ty} {o o' : Option Ty} (h : List.Forall₂ Ty.Twin ts us)
      (ho : Option.Rel Ty.Twin o o') : Args.Twin (.call ts o) (.call us o')

inductive GenericArg.Twin : GenericArg → GenericArg → Prop
  | ty {t u : Ty} (h : Ty.Twin t u) : GenericArg.Twin (.ty t) (.ty u)
  | lifetime (name : Text) : GenericArg.Twin (.lifetime name) (.lifetime name)
  | const {e e' : Text} (h : Captures s e e') : GenericArg.Twin (.const e) (.const e')
  | binding (name : Text) {t u : Ty} (h : Ty.Twin t u) :
      GenericArg.Twin (.binding name t) (.binding name u)
  | constraint (name : Text) {bs cs : List Bound} (h : List.Forall₂ Bound.Twin bs cs) :
      GenericArg.Twin (.constraint name bs) (.constraint name cs)

inductive Bound.Twin : Bound → Bound → Prop
  | outlives (binder : List Text) (name : Text) :
      Bound.Twin (.outlives binder name) (.outlives binder name)
  | trait (binder : List Text) (maybe : Bool) {p q : Path} (h : Path.Twin p q) :
      Bound.Twin (.trait binder maybe p) (.trait binder maybe q)

inductive FnSig.Twin : FnSig → FnSig → Prop
  | mk (binder : List Text) (isUnsafe : Bool) (abi : Option Text) {ts us : List Ty}
      (variadic : Bool) {o o' : Option Ty} (h : List.Forall₂ Ty.Twin ts us)
      (ho : Option.Rel Ty.Twin o o') :
      FnSig.Twin ⟨binder, isUnsafe, abi, ts, variadic, o⟩
        ⟨binder, isUnsafe, abi, us, variadic, o'⟩

end

/-! ## Attributes -/

/-- Two arguments of attributes that are the same but for captured texts. The text of a
path is not captured: it is put together from its tokens. -/
inductive Meta.Twin : Meta → Meta → Prop
  | path (pos : Position) {p : Text} (h : Adjoins s p) :
      Meta.Twin (.path pos p) (.path pos p)
  | list (pos : Position) (path : Text) {ms ms' : List Meta} {raw raw' : Text}
      (h : List.Forall₂ Meta.Twin ms ms') (hraw : Captures s raw raw') :
      Meta.Twin (.list pos path ms raw) (.list pos path ms' raw')
  | nameValue (pos : Position) (path : Text) (value : Lit) {raw raw' : Text}
      (hraw : Captures s raw raw') :
      Meta.Twin (.nameValue pos path value raw) (.nameValue pos path value raw')
  | lit (pos : Position) {value : Lit} (hraw : Captures s value.raw value.raw) :
      Meta.Twin (.lit pos value) (.lit pos value)
  | other (pos : Position) (path : Text) {raw raw' : Text} (hraw : Captures s raw raw') :
      Meta.Twin (.other pos path raw) (.other pos path raw')

/-- The same of attributes. What stands between the brackets is captured, or is that of the
argument. -/
structure Attribute.Twin (a b : Attribute) : Prop where
  arg : Meta.Twin s a.arg b.arg
  raw : Captures s a.raw b.raw ∨ a.raw = a.arg.raw ∧ b.raw = b.arg.raw
  pos : a.pos = b.pos

/-! ## Declarations -/

inductive ParamKind.Twin : ParamKind → ParamKind → Prop
  | lifetime : ParamKind.Twin .lifetime .lifetime
  | type : ParamKind.Twin .type .type
  | const {t u : Ty} (h : Ty.Twin s t u) : ParamKind.Twin (.const t) (.const u)

/-- The same of parameters. A default is captured, or is the spelling of a type. -/
structure GenericParam.Twin (p q : GenericParam) : Prop where
  kind : ParamKind.Twin s p.kind q.kind
  name : p.name = q.name
  bounds : List.Forall₂ (Bound.Twin s) p.bounds q.bounds
  default : Captures s p.default q.default ∨
    ∃ t u, Ty.Twin s t u ∧ p.default = t.render ∧ q.default = u.render
  pos : p.pos = q.pos

inductive WherePredicate.Twin : WherePredicate → WherePredicate → Prop
  | lifetime (binder : List Text) (name : Text) (bounds : List Bound) :
      WherePredicate.Twin (.lifetime binder name bounds) (.lifetime binder name bounds)
  | type (binder : List Text) {t u : Ty} {bs cs : List Bound} (h : Ty.Twin s t u)
      (hbounds : List.Forall₂ (Bound.Twin s) bs cs) :
      WherePredicate.Twin (.type binder t bs) (.type binder u cs)

structure Generics.Twin (g h : Generics) : Prop where
  params : List.Forall₂ (GenericParam.Twin s) g.params h.params
  predicates : List.Forall₂ (WherePredicate.Twin s) g.predicates h.predicates

structure Field.Twin (f g : Field) : Prop where
  attrs : List.Forall₂ (Attribute.Twin s) f.attrs g.attrs
  vis : Captures s f.vis g.vis
  ident : f.ident = g.ident
  index : f.index = g.index
  ty : Ty.Twin s f.ty g.ty
  pos : f.pos = g.pos

structure Fields.Twin (fs gs : Fields) : Prop where
  style : fs.style = gs.style
  list : List.Forall₂ (Field.Twin s) fs.list gs.list

structure Variant.Twin (v w : Variant) : Prop where
  attrs : List.Forall₂ (Attribute.Twin s) v.attrs w.attrs
  ident : v.ident = w.ident
  fields : Fields.Twin s v.fields w.fields
  discriminant : Captures s v.discriminant w.discriminant
  pos : v.pos = w.pos

inductive Data.Twin : Data → Data → Prop
  | struct {fs gs : Fields} (h : Fields.Twin s fs gs) : Data.Twin (.struct fs) (.struct gs)
  | enum {vs ws : List Variant} (h : List.Forall₂ (Variant.Twin s) vs ws) :
      Data.Twin (.enum vs) (.enum ws)
  | union {fs gs : Fields} (h : Fields.Twin s fs gs) : Data.Twin (.union fs) (.union gs)

/-- Two declarations that are the same but for captured texts. -/
structure Decl.Twin (d e : Decl) : Prop where
  attrs : List.Forall₂ (Attribute.Twin s) d.attrs e.attrs
  vis : Captures s d.vis e.vis
  name : d.name = e.name
  generics : Generics.Twin s d.generics e.generics
  data : Data.Twin s d.data e.data
  derives : d.derives = e.derives
  pos : d.pos = e.pos
  first : d.first = e.first
  stop : d.stop = e.stop

/-- Two files with declarations that are the same but for captured texts, and with the same
modules, the same number of other items and the same errors. -/
structure Parsed.Twin (p q : Parsed) : Prop where
  decls : List.Forall₂ (Decl.Twin s) p.file.decls q.file.decls
  skipped : p.file.skipped = q.file.skipped
  modules : p.file.modules = q.file.modules
  errors : p.errors = q.errors

end

/-! ## What is captured -/

theorem head?_slice {s : Text} {first stop : Nat} (h : first < stop) :
    (slice s first stop).head? = s[first]? := by
  rw [slice, List.head?_take, if_neg (Nat.sub_ne_zero_of_lt h), List.head?_drop]

theorem getLast?_slice {s : Text} {first stop : Nat} (h : first < stop)
    (hstop : stop ≤ s.length) : (slice s first stop).getLast? = s[stop - 1]? := by
  have hlast : first + (stop - first - 1) = stop - 1 := by omega
  have hlt : stop - 1 < s.length := by omega
  rw [slice, List.getLast?_take, if_neg (Nat.sub_ne_zero_of_lt h),
    List.getElem?_drop, hlast, List.getElem?_eq_getElem hlt]
  rfl

section

variable {s u v : Text} {us : List Token} {t : Token}

theorem lexeme_eq_slice (ht : t ∈ ownTokens s) : t.lexeme = slice s t.offset t.stop :=
  (take_offset (scan_tokens_own s ▸ List.mem_append_left _ ht)).2.2

theorem ends_of_mem (ht : t ∈ ownTokens s) :
    (∀ c, t.lexeme.head? = some c → c ∉ Text.blankBytes) ∧
      ∀ c, t.lexeme.getLast? = some c → c ∉ Text.blankBytes := by
  obtain ⟨qs, p, rs, hsplit, htoken, htext, -, -⟩ := exists_of_mem_ownTokens ht
  have hmem : p ∈ Scan.pieces s := by
    rw [hsplit]
    simp
  rw [htext]
  refine ⟨fun c hc hblank => ?_, fun c hc =>
    Scan.not_blank_of_lasts (Scan.lasts_of_piece hmem htoken hc)⟩
  obtain ⟨b, rest, -, rfl, -⟩ := Scan.pieces_split hsplit
  cases hc
  rw [Scan.piece, Scan.token_of_blank hblank] at htoken
  cases htoken

/-- The last one of some tokens in a row ends behind the beginning of the first. -/
theorem head_lt_getLast (h : us <:+: ownTokens s) (hne : us ≠ []) :
    (us.head hne).offset < (us.getLast hne).stop := by
  have hlast := offset_lt_stop (h.subset (List.getLast_mem hne))
  have hpairs : us.Pairwise fun t u => t.offset < u.offset ∧ t.stop ≤ u.offset := by
    have hall := scan_pairwise s
    rw [scan_tokens_own] at hall
    exact (List.pairwise_append.mp hall).1.sublist h.sublist
  cases us with
  | nil => exact absurd rfl hne
  | cons t us =>
      rw [List.head_cons]
      cases us with
      | nil => exact hlast
      | cons u us =>
          have hmem := List.getLast_mem (List.cons_ne_nil u us)
          have hbefore := (List.pairwise_cons.mp hpairs).1 _ hmem
          rw [List.getLast_cons (List.cons_ne_nil u us)] at hlast ⊢
          exact hbefore.1.trans hlast

theorem Captures.isEmpty_eq (h : Captures s u v) : u.isEmpty = v.isEmpty := by
  cases h with
  | nothing => rfl
  | @run us h hne =>
      have hlt := head_lt_getLast h hne
      have hle := stop_le_length (h.subset (List.getLast_mem hne))
      have hslice : slice s (us.head hne).offset (us.getLast hne).stop ≠ [] := by
        intro hnil
        have hhead := head?_slice (s := s) hlt
        rw [hnil, List.getElem?_eq_getElem (hlt.trans_le hle)] at hhead
        cases hhead
      have hjoin : Text.join " " (us.map (·.lexeme)) ≠ [] := by
        obtain ⟨t, us, rfl⟩ := List.exists_cons_of_ne_nil hne
        have ht := lexeme_ne_nil (h.subset (List.mem_cons_self ..))
        cases us with
        | nil => exact ht
        | cons u us =>
            have hblank := List.append_ne_nil_of_left_ne_nil ht (" " : Text)
            exact List.append_ne_nil_of_left_ne_nil hblank _
      rw [List.isEmpty_eq_false_iff.mpr hjoin, List.isEmpty_eq_false_iff.mpr hslice]

/-- The text from one token of an ASCII source to another one is not trimmed. -/
theorem trim_slice (hascii : ∀ b ∈ s, b < 0x80) (h : us <:+: ownTokens s) (hne : us ≠ []) :
    (slice s (us.head hne).offset (us.getLast hne).stop).trim =
      slice s (us.head hne).offset (us.getLast hne).stop := by
  have hfirst := h.subset (List.head_mem hne)
  have hlast := h.subset (List.getLast_mem hne)
  have hlt := head_lt_getLast h hne
  refine Text.trim_of_ends (fun c hc => ?_) fun c hc => ?_
  · rw [head?_slice hlt] at hc
    refine ⟨hascii c (List.mem_of_getElem? hc), (ends_of_mem hfirst).1 c ?_⟩
    rw [lexeme_eq_slice hfirst, head?_slice (offset_lt_stop hfirst), hc]
  · rw [getLast?_slice hlt (stop_le_length hlast)] at hc
    refine ⟨hascii c (List.mem_of_getElem? hc), (ends_of_mem hlast).2 c ?_⟩
    rw [lexeme_eq_slice hlast, getLast?_slice (offset_lt_stop hlast)
      (stop_le_length hlast), hc]

theorem captures_textOf (hascii : ∀ b ∈ s, b < 0x80) (h : us <:+: ownTokens s) :
    Captures s (Parse.textOf [] us) (Parse.textOf s us) := by
  by_cases hne : us = []
  · subst hne
    exact .nothing
  · have hs : s.isEmpty = false := by
      rw [List.isEmpty_eq_false_iff]
      rintro rfl
      exact hne (List.eq_nil_of_infix_nil h)
    have hrun := Captures.run h hne
    rw [← trim_slice hascii h hne] at hrun
    unfold Parse.textOf
    rw [List.head?_eq_some_head hne, List.getLast?_eq_some_getLast hne, hs]
    exact hrun

end

namespace Parse

/-! ## Parsers in lockstep -/

/-- Two results that are the same error, or leave the same tokens with related values. -/
inductive Abreast {α β : Type} (R : α → β → Prop) :
    Except ParseError (α × List Token) → Except ParseError (β × List Token) → Prop
  | ok {v : α} {w : β} (h : R v w) (us : List Token) : Abreast R (.ok (v, us)) (.ok (w, us))
  | error (e : ParseError) : Abreast R (.error e) (.error e)

/-- Whether two parsers give such results wherever they begin in some tokens. -/
def Lockstep {α β : Type} (top : List Token) (R : α → β → Prop) (p : Parser α)
    (q : Parser β) : Prop :=
  ∀ ts, ts <:+ top → Ended ts → Abreast R (p ts) (q ts)

namespace Lockstep

section

variable {α β γ δ : Type} {top us : List Token} {R : α → β → Prop} {S : γ → δ → Prop}
  {p p' : Parser α} {q q' : Parser β} {f : α → Parser γ} {g : β → Parser δ}

theorem mono (h : Lockstep top R p q) (hsub : us <:+ top) : Lockstep us R p q :=
  fun ts hts => h ts (hts.trans hsub)

theorem bind [Forward p] (h : Lockstep top R p q)
    (hf : ∀ v w, R v w → Lockstep top S (f v) (g w)) :
    Lockstep top S (p >>= f) (q >>= g) := by
  intro ts hsub hended
  have hp := h ts hsub hended
  change Abreast S ((p ts).bind fun r => f r.1 r.2) ((q ts).bind fun r => g r.1 r.2)
  generalize hx : p ts = x at hp
  generalize q ts = y at hp
  cases hp with
  | error e => exact .error e
  | ok hR us =>
      obtain ⟨hus, hended'⟩ := Forward.of_ok hended hx
      exact hf _ _ hR us (hus.trans hsub) hended'

theorem same {f : α → Parser γ} {g : α → Parser δ} [Forward p]
    (hf : ∀ v, Lockstep top S (f v) (g v)) : Lockstep top S (p >>= f) (p >>= g) := by
  refine bind (R := Eq) (fun ts _ _ => ?_) fun v w hvw => hvw ▸ hf v
  cases p ts with
  | error e => exact .error e
  | ok r => exact .ok rfl r.2

theorem pure {v : α} {w : β} (h : R v w) : Lockstep top R (Pure.pure v) (Pure.pure w) :=
  fun ts _ _ => .ok h ts

theorem map [Forward p] {f : α → γ} {g : β → δ} (h : Lockstep top R p q)
    (hf : ∀ v w, R v w → S (f v) (g w)) : Lockstep top S (f <$> p) (g <$> q) :=
  bind h fun v w hvw => pure (hf v w hvw)

theorem failHere (problem : Problem) :
    Lockstep top R (Parse.failHere problem) (Parse.failHere problem) :=
  fun _ _ _ => .error _

theorem ite {c : Prop} [Decidable c] (h : Lockstep top R p q) (h' : Lockstep top R p' q') :
    Lockstep top R (if c then p else p') (if c then q else q') := by
  split
  · exact h
  · exact h'

theorem peek {f : Token → Parser α} {g : Token → Parser β}
    (h : ∀ t us, t :: us <:+ top → Lockstep (t :: us) R (f t) (g t)) :
    Lockstep top R (Parse.peek >>= f) (Parse.peek >>= g) := by
  intro ts hsub hended
  obtain ⟨t, us, rfl, -⟩ := hended.cases
  exact h t us hsub (t :: us) (List.suffix_refl _) hended

theorem set {f : PUnit → Parser α} {g : PUnit → Parser β} (hsub : us <:+ top)
    (hended : Ended us) (h : Lockstep top R (f ⟨⟩) (g ⟨⟩)) :
    Lockstep top R (MonadStateOf.set us >>= f) (MonadStateOf.set us >>= g) :=
  fun _ _ _ => h us hsub hended

theorem get {f : List Token → Parser α} {g : List Token → Parser β}
    (h : ∀ ts, ts <:+ top → Ended ts → Lockstep ts R (f ts) (g ts)) :
    Lockstep top R (MonadState.get >>= f) (MonadState.get >>= g) :=
  fun ts hsub hended => h ts hsub hended ts (List.suffix_refl ts) hended

end

end Lockstep

end Parse

end Deriver
