import Deriver.Bounds.Header
import Deriver.Proofs.Format.Arguments
import Deriver.Proofs.Parse.Rendered
import Deriver.Proofs.Token.Apart

/-!
# Which types mention a parameter

Main statement: `mentions_iff`. A type mentions a parameter exactly if one of its parts uses
one: a path begins with its name, a lifetime is applied, or a captured expression has a
constant's name between two word edges. What is inside a macro call is no part of it.

Whether words agree with tokens is a question of the captured text alone. A token is found
as a word if it begins and ends in ASCII (`wordIn_of_token`), and a word need not be a
token, since strings and comments have words too. For the rest of a type `Ty.shows` goes
through all its constructors: every name that is written in a type is a token of its
spelling. `Shows` is what carries that induction; it says how a text stands in front of
others, because a spelling is put together of pieces that might form longer tokens with
each other.
-/

namespace Deriver

open Parse Scan

variable {w x y z : Text} {k : TokenKind}

/-! ## Words in a text -/

/-- Whether a name stands in a text with a word edge on both sides. -/
def WordIn (name x : Text) : Prop :=
  ∃ u w, x = u ++ (name ++ w) ∧ name ++ w ≠ [] ∧
    isWordEdge u.getLast? (name ++ w).head? = true ∧ isWordEdge name.getLast? w.head? = true

theorem hasWord_iff {name x : Text} {before : Option UInt8} : hasWord name before x = true ↔
    ∃ u w, x = u ++ (name ++ w) ∧ name ++ w ≠ [] ∧
      isWordEdge (u.getLast?.or before) (name ++ w).head? = true ∧
      isWordEdge name.getLast? w.head? = true := by
  induction x generalizing before with
  | nil =>
      refine iff_of_false nofun ?_
      rintro ⟨u, w, h, hne, -⟩
      exact hne (List.append_eq_nil_iff.mp h.symm).2
  | cons b rest ih =>
      rw [hasWord, Bool.or_eq_true, ih, Bool.and_eq_true, Bool.and_eq_true,
        List.isPrefixOf_iff_prefix]
      constructor
      · rintro (⟨⟨⟨w, hw⟩, hedge⟩, hedge'⟩ | ⟨u, w, rfl, hne, hedge, hedge'⟩)
        · rw [← hw, List.drop_left] at hedge'
          refine ⟨[], w, hw.symm, hw ▸ List.cons_ne_nil b rest, ?_, hedge'⟩
          rw [hw]
          exact hedge
        · refine ⟨b :: u, w, rfl, hne, ?_, hedge'⟩
          cases u with
          | nil => exact hedge
          | cons c u => exact hedge
      · rintro ⟨u, w, h, hne, hedge, hedge'⟩
        cases u with
        | nil =>
            have h : b :: rest = name ++ w := h
            rw [← h] at hedge
            refine .inl ⟨⟨⟨w, h.symm⟩, hedge⟩, ?_⟩
            rwa [h, List.drop_left]
        | cons c u =>
            obtain ⟨rfl, rfl⟩ := List.cons.inj h
            refine .inr ⟨u, w, rfl, hne, ?_, hedge'⟩
            cases u with
            | nil => exact hedge
            | cons c u => exact hedge

theorem hasWord_iff_wordIn {name x : Text} :
    hasWord name none x = true ↔ WordIn name x := by
  simp only [hasWord_iff, Option.or_none, WordIn]

/-- Whether a text begins and ends with a byte of a word. -/
def Edged (n : Text) : Prop :=
  n.head?.any isWordByte = true ∧ n.getLast?.any isWordByte = true

/-- What a word begins with begins a name, unless it is a digit. -/
theorem isNameStart_of_wordByte : ∀ {b : UInt8}, isWordByte b = true → isAlpha b = true →
    FormatSpec.isNameStart b = true :=
  @(forall_byte (by decide +kernel))

theorem isAlpha_of_isIdent {n : Text} (h : IsIdent n) {b : UInt8} (hb : n.head? = some b) :
    isAlpha b = true := by
  unfold IsIdent Text.dropStart Text.dropStart? at h
  split at h
  · next hmark =>
      obtain ⟨u, rfl⟩ := List.isPrefixOf_iff_prefix.mp hmark
      cases hb
      rfl
  · obtain ⟨c, u, rfl, hc, -⟩ := h
    cases hb
    exact hc

/-- A name that is a token of a clean text is a word of it if it begins and ends in
ASCII. -/
theorem wordIn_of_token {t : Token} (hclean : (scan x).errors = []) (ht : t ∈ ownTokens x)
    (hkind : t.kind = .ident) (hedged : Edged t.lexeme) : WordIn t.lexeme x := by
  obtain ⟨hfirst, hlast⟩ := hedged
  obtain ⟨b, hb, hword⟩ := (Option.any_eq_true ..).mp hfirst
  have hident : IsIdent t.lexeme :=
    isIdent_of_mem (by rw [scan_tokens_own]; exact List.mem_append_left _ ht) (.inl hkind)
  have hstart := isNameStart_of_wordByte hword (isAlpha_of_isIdent hident hb)
  obtain ⟨u, w, hx, hfront, hbehind⟩ :=
    Format.parted_of_ident hclean ht hkind (by rw [hb]; exact hstart)
  have hnone {o : Option UInt8} (h : ∀ c, o = some c → isWordByte c = false) :
      o.any isWordByte = false := by
    cases o with
    | none => rfl
    | some c => exact h c rfl
  have hne : t.lexeme ++ w ≠ [] := by
    intro hnil
    rw [(List.append_eq_nil_iff.mp hnil).1] at hb
    cases hb
  refine ⟨u, w, hx, hne, ?_, ?_⟩
  · rw [isWordEdge, hnone hfront, List.head?_append, hb]
    exact bne_iff_ne.mpr (by rw [Option.some_or, Option.any_some, hword]; decide)
  · rw [isWordEdge, hnone hbehind, hlast]
    rfl

/-! ## What a walk meets -/

/-- The type that a part is, if it is one. -/
@[simp] def TyPart.ty? : TyPart → Option Ty
  | .ty t => some t
  | _ => none

/-- The lifetime that a part applies, if it is a reference, an argument or a bound with
one. -/
@[simp] def TyPart.lifetime? : TyPart → Option Text
  | .ty (.ref _ lifetime _ _) => lifetime
  | .arg (.lifetime name) => some name
  | .bound (.outlives _ name) => some name
  | _ => none

/-- The captured expression that a part has, if it is an array or a constant argument. -/
@[simp] def TyPart.expr? : TyPart → Option Text
  | .ty (.array _ _ len) => some len
  | .arg (.const expr) => some expr
  | _ => none

/-- What a part adds to a walk. -/
def TyPart.met (p : TyPart) : List Visit :=
  (p.ty?.map Visit.ty).toList ++
    ((p.lifetime?.map Visit.lifetime).toList ++ (p.expr?.map constVisit).getD [])

section

variable (f : Visit → Bool)

mutual

theorem Ty.any_visits : ∀ t : Ty, t.visits.any f = t.parts.any (·.met.any f)
  | .path p => by
      simp [Ty.visits, Ty.parts, TyPart.met, Path.any_visits p]
  | .ref pos l m elem => by
      simp [Ty.visits, Ty.parts, TyPart.met, Ty.any_visits elem, Bool.or_assoc]
  | .ptr pos m elem => by
      simp [Ty.visits, Ty.parts, TyPart.met, Ty.any_visits elem]
  | .tuple pos elems => by
      simp [Ty.visits, Ty.parts, TyPart.met, any_visitTys elems]
  | .array pos elem len => by
      simp [Ty.visits, Ty.parts, TyPart.met, Ty.any_visits elem]
      ac_rfl
  | .slice pos elem => by
      simp [Ty.visits, Ty.parts, TyPart.met, Ty.any_visits elem]
  | .paren pos elem => by
      simp [Ty.visits, Ty.parts, TyPart.met, Ty.any_visits elem]
  | .fn pos sig => by
      simp [Ty.visits, Ty.parts, TyPart.met, FnSig.any_visits sig]
  | .traitObject pos d bounds => by
      simp [Ty.visits, Ty.parts, TyPart.met, any_visitBounds bounds]
  | .implTrait pos bounds => by
      simp [Ty.visits, Ty.parts, TyPart.met, any_visitBounds bounds]
  | .never pos => by simp [Ty.visits, Ty.parts, TyPart.met]
  | .infer pos => by simp [Ty.visits, Ty.parts, TyPart.met]
  | .macroCall pos raw => by simp [Ty.visits, Ty.parts, TyPart.met]

theorem any_visitTys : ∀ ts : List Ty, (visitTys ts).any f = (partsTys ts).any (·.met.any f)
  | [] => rfl
  | t :: ts => by
      simp [visitTys, partsTys, Ty.any_visits t, any_visitTys ts]

theorem Path.any_visits : ∀ p : Path, p.visits.any f = p.parts.any (·.met.any f)
  | ⟨none, _, segments, _⟩ => by
      simp [Path.visits, Path.parts, partsQSelf?, TyPart.met, any_visitSegments segments]
  | ⟨some q, _, segments, _⟩ => by
      simp [Path.visits, Path.parts, partsQSelf?, TyPart.met, QSelf.any_visits q,
        any_visitSegments segments]

theorem QSelf.any_visits : ∀ q : QSelf, q.visits.any f = q.parts.any (·.met.any f)
  | ⟨t, none⟩ => by
      simp [QSelf.visits, QSelf.parts, partsPath?, Ty.any_visits t]
  | ⟨t, some p⟩ => by
      simp [QSelf.visits, QSelf.parts, partsPath?, Ty.any_visits t, Path.any_visits p]

theorem any_visitSegments : ∀ ss : List Segment,
    (visitSegments ss).any f = (partsSegments ss).any (·.met.any f)
  | [] => rfl
  | s :: ss => by
      simp [visitSegments, partsSegments, Segment.any_visits s, any_visitSegments ss]

theorem Segment.any_visits : ∀ s : Segment, s.visits.any f = s.parts.any (·.met.any f)
  | ⟨_, .none⟩ => rfl
  | ⟨_, .angled args⟩ => by
      simp [Segment.visits, Segment.parts, Args.parts, TyPart.met, any_visitArgs args]
  | ⟨_, .call inputs none⟩ => by
      simp [Segment.visits, Segment.parts, Args.parts, partsTy?, TyPart.met,
        any_visitTys inputs]
  | ⟨_, .call inputs (some output)⟩ => by
      simp [Segment.visits, Segment.parts, Args.parts, partsTy?, TyPart.met,
        any_visitTys inputs, Ty.any_visits output]

theorem any_visitArgs : ∀ as : List GenericArg,
    (visitArgs as).any f = (partsArgs as).any (·.met.any f)
  | [] => rfl
  | a :: as => by
      simp [visitArgs, partsArgs, GenericArg.any_visits a, any_visitArgs as]

theorem GenericArg.any_visits : ∀ a : GenericArg, a.visits.any f = a.parts.any (·.met.any f)
  | .ty t => by
      simp [GenericArg.visits, GenericArg.parts, TyPart.met, Ty.any_visits t]
  | .lifetime _ => by simp [GenericArg.visits, GenericArg.parts, TyPart.met]
  | .const _ => by simp [GenericArg.visits, GenericArg.parts, TyPart.met]
  | .binding _ t => by
      simp [GenericArg.visits, GenericArg.parts, TyPart.met, Ty.any_visits t]
  | .constraint _ bounds => by
      simp [GenericArg.visits, GenericArg.parts, TyPart.met, any_visitBounds bounds]

theorem any_visitBounds : ∀ bs : List Bound,
    (visitBounds bs).any f = (partsBounds bs).any (·.met.any f)
  | [] => rfl
  | b :: bs => by
      simp [visitBounds, partsBounds, Bound.any_visits b, any_visitBounds bs]

theorem Bound.any_visits : ∀ b : Bound, b.visits.any f = b.parts.any (·.met.any f)
  | .outlives _ _ => by simp [Bound.visits, Bound.parts, TyPart.met]
  | .trait _ _ p => by
      simp [Bound.visits, Bound.parts, TyPart.met, Path.any_visits p]

theorem FnSig.any_visits : ∀ s : FnSig, s.visits.any f = s.parts.any (·.met.any f)
  | ⟨_, _, _, inputs, _, none⟩ => by
      simp [FnSig.visits, FnSig.parts, partsTy?, any_visitTys inputs]
  | ⟨_, _, _, inputs, _, some output⟩ => by
      simp [FnSig.visits, FnSig.parts, partsTy?, any_visitTys inputs, Ty.any_visits output]

end

end

/-! ## Uses of a parameter -/

/-- The first segment of a type that is a path, unless the path is global or behind a self
type. -/
def Ty.head? : Ty → Option Text
  | .path ⟨none, false, s :: _, _⟩ => some s.ident
  | _ => none

/-- The head of the type that a part is. -/
def TyPart.head? (p : TyPart) : Option Text := p.ty?.bind Ty.head?

/-- Whether a part uses a parameter: a type or a constant as the head of a path, a
lifetime, or a constant as a word of an expression. -/
def TyPart.Uses (g : Generics) (p : TyPart) : Prop :=
  (∃ n ∈ p.head?, n ∈ g.typeNames ∨ n ∈ g.constNames) ∨
    (∃ n ∈ p.lifetime?, n ∈ g.lifetimeNames) ∨
    ∃ x ∈ p.expr?, ∃ n ∈ g.constNames, WordIn n x

theorem any_constVisit (g : Generics) (x : Text) :
    (constVisit x).any (Visit.mentions g) = true ↔ ∃ n ∈ g.constNames, WordIn n x := by
  unfold constVisit
  split
  · next hempty =>
      refine iff_of_false nofun ?_
      rintro ⟨n, -, u, w, hx, hne, -⟩
      rw [List.isEmpty_iff.mp hempty] at hx
      exact hne (List.append_eq_nil_iff.mp hx.symm).2
  · rw [List.any_cons, List.any_nil, Bool.or_false, Visit.mentions, List.any_eq_true]
    simp only [hasWord_iff_wordIn]

theorem mentions_ty (g : Generics) (t : Ty) : Visit.mentions g (.ty t) = true ↔
    ∃ n ∈ t.head?, n ∈ g.typeNames ∨ n ∈ g.constNames := by
  cases t with
  | path p =>
      obtain ⟨_ | q, _ | _, _ | ⟨s, ss⟩, pos⟩ := p <;> simp [Visit.mentions, Ty.head?]
  | _ => simp [Visit.mentions, Ty.head?]

/-- What a part adds to a walk mentions a parameter exactly if the part uses one. -/
theorem TyPart.met_mentions (g : Generics) (p : TyPart) :
    p.met.any (Visit.mentions g) = true ↔ p.Uses g := by
  have hty : (p.ty?.map Visit.ty).toList.any (Visit.mentions g) = true ↔
      ∃ n ∈ p.head?, n ∈ g.typeNames ∨ n ∈ g.constNames := by
    unfold TyPart.head?
    cases p.ty? with
    | none => simp
    | some t => simp [mentions_ty]
  have hlifetime : (p.lifetime?.map Visit.lifetime).toList.any (Visit.mentions g) = true ↔
      ∃ n ∈ p.lifetime?, n ∈ g.lifetimeNames := by
    cases p.lifetime? <;> simp [Visit.mentions]
  have hexpr : ((p.expr?.map constVisit).getD []).any (Visit.mentions g) = true ↔
      ∃ x ∈ p.expr?, ∃ n ∈ g.constNames, WordIn n x := by
    cases p.expr? with
    | none => simp
    | some x => simpa using any_constVisit g x
  rw [TyPart.met, List.any_append, List.any_append, Bool.or_eq_true, Bool.or_eq_true, hty,
    hlifetime, hexpr, TyPart.Uses]

theorem Ty.mentions_uses (t : Ty) (g : Generics) :
    t.mentions g = true ↔ ∃ p ∈ t.parts, p.Uses g := by
  rw [Ty.mentions, Ty.any_visits, List.any_eq_true]
  simp only [TyPart.met_mentions]

/-! ## Names in a type -/

/-- The names that are written in a part itself. -/
def TyPart.names : TyPart → List Text
  | .segment s => [s.ident]
  | p => p.head?.toList ++ (p.lifetime?.toList ++ (p.expr?.map nameTokens).getD [])

/-- The names that are written in some parts. -/
def partNames (ps : List TyPart) : List Text := ps.flatMap TyPart.names

@[simp] theorem partNames_nil : partNames [] = [] := rfl

@[simp] theorem partNames_cons (p : TyPart) (ps : List TyPart) :
    partNames (p :: ps) = p.names ++ partNames ps := List.flatMap_cons

@[simp] theorem partNames_append (ps qs : List TyPart) :
    partNames (ps ++ qs) = partNames ps ++ partNames qs := List.flatMap_append

theorem partNames_flatMap {α : Type} (f : α → List TyPart) (as : List α) :
    partNames (as.flatMap f) = as.flatMap fun a => partNames (f a) := List.flatMap_assoc

theorem head_names {p : Path} {n : Text} (h : n ∈ (TyPart.ty (.path p)).head?) :
    n ∈ partNames p.parts := by
  obtain ⟨_ | q, _ | _, _ | ⟨s, ss⟩, pos⟩ := p <;> cases h
  obtain ⟨ident, args⟩ := s
  simp [Path.parts, partsQSelf?, partsSegments, Segment.parts, TyPart.names, TyPart.head?]

/-! ### Marks -/

theorem sealed_when {m : Text} (c : Bool) (h : Sealed m) : Sealed (Text.when c m) := by
  cases c with
  | true => exact h
  | false => exact .nil

theorem sealed_binder {binder : List Text} (h : ∀ l ∈ binder, Word .lifetime l) :
    Sealed (binderText binder) := by
  unfold binderText
  split
  · exact .nil
  · have hopen : Sealed "for<" := .of_seals rfl
    have hlist : Closed (Text.join ", " binder) :=
      .join divides_comma fun l hl => (h l hl).closed
    have hbinder :=
      hopen.append ((hlist.ended divides_gt).append (.of_seals rfl : Sealed " "))
    have htext : Text.concat ["for<", Text.join ", " binder, "> "] =
        "for<" ++ (Text.join ", " binder ++ ">" ++ " ") := by
      simp [Text.concat]
      rfl
    rw [htext]
    exact hbinder

theorem sealed_abi {abi : Option Text} (h : ∀ a ∈ abi, Word .str a) :
    Sealed (abiText abi) := by
  cases abi with
  | none => exact .nil
  | some a =>
      have hopen : Sealed "extern " := .of_seals rfl
      exact hopen.append ((h a rfl).closed.ended divides_blank)

theorem shows_ident {s : Segment} (h : (TyPart.segment s).Readable) :
    Shows s.ident (TyPart.segment s).names := by
  obtain ⟨k, hk, hword⟩ := h
  exact hword.shows (by rw [TokenKind.isName, hk, Bool.true_or])

theorem Segment.exists_cons {s : Segment} (h : Spelled s.parts) :
    ∃ b u, s.render = b :: u ∧ b ≠ 58 := by
  obtain ⟨ident, args⟩ := s
  rw [Segment.parts, spelled_cons] at h
  obtain ⟨k, hk, hword⟩ := h.1
  obtain ⟨b, u, hident, hb⟩ :=
    hword.exists_cons (by rw [TokenKind.isName, hk, Bool.true_or])
  obtain rfl : ident = b :: u := hident
  exact ⟨b, _, Segment.render_args _, hb⟩

theorem shows_inputs {inputs : List Ty} (variadic : Bool)
    (h : ∀ t ∈ inputs, Shows t.render (partNames t.parts)) :
    Shows (inputsText inputs variadic) (inputs.flatMap fun t => partNames t.parts) := by
  have hinputs : List.Forall₂ Shows (inputs.map Ty.render)
      (inputs.map fun t => partNames t.parts) :=
    List.forall₂_map_left_iff.mpr (List.forall₂_map_right_iff.mpr (List.forall₂_same.mpr h))
  have hdots : List.Forall₂ Shows (dots variadic) (if variadic then [[]] else []) := by
    cases variadic with
    | true => exact .cons (Closed.of_isSolid rfl) .nil
    | false => exact .nil
  refine (Shows.joined divides_comma (List.rel_append hinputs hdots)).mono ?_
  rw [List.flatten_append, List.flatMap_def]
  exact List.subset_append_left _ _

mutual

theorem Ty.shows : ∀ t : Ty, Spelled t.parts → Shows t.render (partNames t.parts)
  | .path p, h => by
      rw [Ty.parts, spelled_cons] at h
      rw [Ty.render, Ty.parts, partNames_cons]
      refine (Path.shows p h.2).mono (List.append_subset.mpr ⟨?_, List.Subset.refl _⟩)
      intro n hn
      refine head_names ?_
      simpa [TyPart.names] using hn
  | .ref pos l m elem, h => by
      rw [Ty.parts, spelled_cons] at h
      have helem :=
        Shows.behind (sealed_when m (.of_seals rfl : Sealed "mut ")) (Ty.shows elem h.2)
      rw [render_ref, targetText, Ty.parts, partNames_cons, List.append_assoc]
      refine .amp ?_
      cases l with
      | none => exact helem
      | some l =>
          have hl := ((h.1 l rfl).shows rfl).divided divides_blank helem
          rw [lifetimeText, Option.elim_some, List.append_assoc]
          exact hl
  | .ptr pos m elem, h => by
      rw [Ty.parts, spelled_cons] at h
      rw [Ty.render, Ty.parts, partNames_cons]
      refine .behind ?_ (Ty.shows elem h.2)
      cases m <;> exact .of_seals rfl
  | .tuple pos elems, h => by
      rw [Ty.parts, spelled_cons, partsTys_eq, spelled_flatMap] at h
      have helems : ∀ t ∈ elems, Shows t.render (partNames t.parts) := tys_shows elems h.2
      rw [Ty.parts, partNames_cons, partsTys_eq, partNames_flatMap]
      by_cases hone : elems.length = 1
      · obtain ⟨t, rfl⟩ := List.length_eq_one_iff.mp hone
        rw [render_single, List.flatMap_cons, List.flatMap_nil, List.append_nil]
        refine .behind (.of_seals rfl) ?_
        exact (helems t (List.mem_singleton_self t)).ended (divides_of_seals rfl rfl)
      · rw [render_tuple pos hone]
        exact .behind (.of_seals rfl)
          ((Shows.join divides_comma helems).ended divides_rparen)
  | .array pos elem len, h => by
      rw [Ty.parts, spelled_cons] at h
      have hlen : Captured [.rbracket] len := h.1
      have htext : (Ty.array pos elem len).render =
          "[" ++ (elem.render ++ ("; " ++ (len ++ ("]" : Text)))) := by
        rw [Ty.render]
        simp [Text.concat]
      rw [htext, Ty.parts, partNames_cons]
      refine .behind (.of_seals rfl) ?_
      refine ((Ty.shows elem h.2).divided divides_semicolon
        ((Shows.of_solid hlen.solid).ended divides_rbracket)).mono ?_
      simp [TyPart.names, TyPart.head?, Ty.head?]
  | .slice pos elem, h => by
      rw [Ty.parts, spelled_cons] at h
      have htext : (Ty.slice pos elem).render = "[" ++ (elem.render ++ ("]" : Text)) := by
        rw [Ty.render]
        simp [Text.concat]
      rw [htext, Ty.parts, partNames_cons]
      exact .behind (.of_seals rfl) ((Ty.shows elem h.2).ended divides_rbracket)
  | .paren pos elem, h => by
      rw [Ty.parts, spelled_cons] at h
      have htext : (Ty.paren pos elem).render = "(" ++ (elem.render ++ (")" : Text)) := by
        rw [Ty.render]
        simp [Text.concat]
      rw [htext, Ty.parts, partNames_cons]
      exact .behind (.of_seals rfl) ((Ty.shows elem h.2).ended divides_rparen)
  | .fn pos sig, h => by
      rw [Ty.parts, spelled_cons] at h
      rw [Ty.render, Ty.parts, partNames_cons]
      exact FnSig.shows sig h.1.1 h.1.2 h.2
  | .traitObject pos d bounds, h => by
      rw [Ty.parts, spelled_cons, partsBounds_eq, spelled_flatMap] at h
      rw [Ty.render, Ty.parts, partNames_cons, renderBoundList_eq, partsBounds_eq,
        partNames_flatMap]
      refine .behind (sealed_when d (.of_seals rfl)) ?_
      exact Shows.join divides_plus (bounds_shows bounds h.2)
  | .implTrait pos bounds, h => by
      rw [Ty.parts, spelled_cons, partsBounds_eq, spelled_flatMap] at h
      rw [Ty.render, Ty.parts, partNames_cons, renderBoundList_eq, partsBounds_eq,
        partNames_flatMap]
      refine .behind (.of_seals rfl) ?_
      exact Shows.join divides_plus (bounds_shows bounds h.2)
  | .never _, _ => by
      have hword : Word .bang "!" :=
        ⟨none, (pieces_cons 33 []).trans (congrArg _ pieces_nil)⟩
      rw [Ty.render]
      exact hword.closed
  | .infer _, _ => by
      have hword : Word .ident "_" :=
        ⟨none, (pieces_cons 95 []).trans (congrArg _ pieces_nil)⟩
      rw [Ty.render]
      exact hword.closed
  | .macroCall pos raw, h => by
      rw [Ty.parts, spelled_cons] at h
      have hraw : MacroText raw := h.1
      rw [Ty.render, Ty.parts]
      exact hraw.solid.closed

theorem tys_shows : ∀ ts : List Ty, (∀ t ∈ ts, Spelled t.parts) →
    ∀ t ∈ ts, Shows t.render (partNames t.parts)
  | [], _ => nofun
  | t :: ts, h => by
      obtain ⟨ht, hts⟩ := List.forall_mem_cons.mp h
      exact List.forall_mem_cons.mpr ⟨Ty.shows t ht, tys_shows ts hts⟩

theorem Path.shows : ∀ p : Path, Spelled p.parts → Shows p.render (partNames p.parts)
  | ⟨none, isGlobal, segments, pos⟩, h => by
      rw [Path.parts, spelled_cons, partsQSelf?, List.nil_append, partsSegments_eq,
        spelled_flatMap] at h
      rw [Path.render, Path.parts, partNames_cons, partsQSelf?, List.nil_append,
        renderSegments_eq, partsSegments_eq, partNames_flatMap]
      refine .behind (sealed_when isGlobal Apart.colons) ?_
      exact .join_colons (segments_shows segments h.2) fun s hs =>
        Segment.exists_cons (h.2 s hs)
  | ⟨some q, isGlobal, segments, pos⟩, h => by
      rw [Path.parts, spelled_cons, partsQSelf?, spelled_append, partsSegments_eq,
        spelled_flatMap] at h
      have htext : (Path.mk (some q) isGlobal segments pos).render =
          q.render ++ qualifiedText segments := by
        rw [Path.render, renderSegments_eq]
        simp [Text.concat, qualifiedText, Function.comp_def]
      rw [htext, Path.parts, partNames_cons, partsQSelf?, partNames_append,
        partsSegments_eq, partNames_flatMap]
      have hq := QSelf.shows q h.2.1
      have hsegments := segments_shows segments h.2.2
      cases segments with
      | nil => exact hq.append .nil stopped_nil
      | cons s ss =>
          rw [qualifiedText_cons]
          exact hq.following_colons hsegments fun s hs => Segment.exists_cons (h.2.2 s hs)

theorem QSelf.shows : ∀ q : QSelf, Spelled q.parts → Shows q.render (partNames q.parts)
  | ⟨t, none⟩, h => by
      rw [QSelf.parts, spelled_append] at h
      have htext : (QSelf.mk t none).render = "<" ++ (t.render ++ (">" : Text)) := by
        rw [QSelf.render]
        simp [Text.concat]
      rw [htext, QSelf.parts, partNames_append, partsPath?, partNames_nil, List.append_nil]
      exact .behind (.of_seals rfl) ((Ty.shows t h.1).ended divides_gt)
  | ⟨t, some p⟩, h => by
      rw [QSelf.parts, spelled_append] at h
      have htext : (QSelf.mk t (some p)).render =
          "<" ++ (t.render ++ (" as " ++ (p.render ++ (">" : Text)))) := by
        rw [QSelf.render]
        simp [Text.concat]
      rw [htext, QSelf.parts, partNames_append, partsPath?]
      refine .behind (.of_seals rfl) ?_
      exact (Ty.shows t h.1).divided divides_as ((Path.shows p h.2).ended divides_gt)

theorem segments_shows : ∀ ss : List Segment, (∀ s ∈ ss, Spelled s.parts) →
    ∀ s ∈ ss, Shows s.render (partNames s.parts)
  | [], _ => nofun
  | s :: ss, h => by
      obtain ⟨hs, hss⟩ := List.forall_mem_cons.mp h
      exact List.forall_mem_cons.mpr ⟨Segment.shows s hs, segments_shows ss hss⟩

theorem Segment.shows : ∀ s : Segment, Spelled s.parts → Shows s.render (partNames s.parts)
  | ⟨ident, .none⟩, h => by
      rw [Segment.parts, spelled_cons] at h
      rw [Segment.render, Segment.parts, partNames_cons, Args.parts]
      exact shows_ident h.1
  | ⟨ident, .angled args⟩, h => by
      rw [Segment.parts, spelled_cons, Args.parts, partsArgs_eq, spelled_flatMap] at h
      have hargs := Shows.join divides_comma (args_shows args h.2)
      rw [Segment.render_args, Segment.parts, partNames_cons, Args.parts, partsArgs_eq,
        partNames_flatMap]
      refine (shows_ident h.1).append ?_ ?_
      · rw [argsText]
        split
        · next hempty => 
            obtain rfl := List.isEmpty_iff.mp hempty
            exact .nil
        · exact .behind (.of_seals rfl) (hargs.ended divides_gt)
      · rw [argsText]
        split
        · exact stopped_nil
        · exact stopped_cons (by decide)
  | ⟨ident, .call inputs output⟩, h => by
      rw [Segment.parts, spelled_cons, Args.parts, spelled_append, partsTys_eq,
        spelled_flatMap] at h
      have hinputs := Shows.join divides_comma (tys_shows inputs h.2.1)
      rw [Segment.render_args, Segment.parts, partNames_cons, Args.parts, partNames_append,
        partsTys_eq, partNames_flatMap, argsText]
      refine (shows_ident h.1).divided divides_lparen ?_
      exact hinputs.divided divides_rparen (output?_shows output h.2.2)

theorem output?_shows : ∀ output : Option Ty, Spelled (partsTy? output) →
    Shows (outputText output) (partNames (partsTy? output))
  | none, _ => .nil
  | some t, h => .behind (.of_seals rfl) (Ty.shows t h)

theorem args_shows : ∀ as : List GenericArg, (∀ a ∈ as, Spelled a.parts) →
    ∀ a ∈ as, Shows a.render (partNames a.parts)
  | [], _ => nofun
  | a :: as, h => by
      obtain ⟨ha, has⟩ := List.forall_mem_cons.mp h
      exact List.forall_mem_cons.mpr ⟨GenericArg.shows a ha, args_shows as has⟩

theorem GenericArg.shows : ∀ a :
    GenericArg, Spelled a.parts → Shows a.render (partNames a.parts)
  | .ty t, h => by
      rw [GenericArg.parts, spelled_cons] at h
      rw [GenericArg.render, GenericArg.parts, partNames_cons]
      exact Ty.shows t h.2
  | .lifetime name, h => by
      rw [GenericArg.parts, spelled_cons] at h
      rw [GenericArg.render, GenericArg.parts]
      exact Word.shows h.1 rfl
  | .const expr, h => by
      rw [GenericArg.parts, spelled_cons] at h
      have hexpr : Captured [.comma, .gt] expr := h.1.1
      rw [GenericArg.render, GenericArg.parts]
      refine (Shows.of_solid hexpr.solid).mono ?_
      simp [TyPart.names, TyPart.head?]
  | .binding name t, h => by
      rw [GenericArg.parts, spelled_cons] at h
      have htext : (GenericArg.binding name t).render = name ++ (" = " ++ t.render) := by
        rw [GenericArg.render]
        simp [Text.concat]
      rw [htext, GenericArg.parts, partNames_cons]
      exact Shows.divided (Word.closed h.1) divides_equals (Ty.shows t h.2)
  | .constraint name bounds, h => by
      rw [GenericArg.parts, spelled_cons, partsBounds_eq, spelled_flatMap] at h
      have htext : (GenericArg.constraint name bounds).render =
          name ++ (": " ++ Text.join " + " (bounds.map Bound.render)) := by
        rw [GenericArg.render, renderBoundList_eq]
        simp [Text.concat]
      rw [htext, GenericArg.parts, partNames_cons, partsBounds_eq, partNames_flatMap]
      exact Shows.divided (Word.closed h.1) divides_colon
        (Shows.join divides_plus (bounds_shows bounds h.2))

theorem bounds_shows : ∀ bs : List Bound, (∀ b ∈ bs, Spelled b.parts) →
    ∀ b ∈ bs, Shows b.render (partNames b.parts)
  | [], _ => nofun
  | b :: bs, h => by
      obtain ⟨hb, hbs⟩ := List.forall_mem_cons.mp h
      exact List.forall_mem_cons.mpr ⟨Bound.shows b hb, bounds_shows bs hbs⟩

theorem Bound.shows : ∀ b : Bound, Spelled b.parts → Shows b.render (partNames b.parts)
  | .outlives binder name, h => by
      rw [Bound.parts, spelled_cons] at h
      rw [Bound.render, Bound.parts]
      exact Word.shows h.1 rfl
  | .trait binder maybe p, h => by
      rw [Bound.parts, spelled_cons] at h
      have htext : (Bound.trait binder maybe p).render =
          binderText binder ++ (Text.when maybe "?" ++ p.render) := by
        rw [Bound.render]
        simp [Text.concat]
      rw [htext, Bound.parts, partNames_cons]
      refine .behind (sealed_binder h.1.1)
        (.behind (sealed_when maybe ?_) (Path.shows p h.2))
      exact fun s => .mark rfl s

theorem FnSig.shows : ∀ s : FnSig, (∀ l ∈ s.binder, Word .lifetime l) →
    (∀ a ∈ s.abi, Word .str a) → Spelled s.parts → Shows s.render (partNames s.parts)
  | ⟨binder, isUnsafe, abi, inputs, variadic, output⟩, hbinder, habi, h => by
      rw [FnSig.parts, spelled_append, partsTys_eq, spelled_flatMap] at h
      rw [FnSig.render_eq, FnSig.parts, partNames_append, partsTys_eq, partNames_flatMap]
      have hinputs := shows_inputs variadic (tys_shows inputs h.1)
      have hcall := hinputs.divided divides_rparen (output?_shows output h.2)
      refine .behind (sealed_binder hbinder)
        (.behind (sealed_when isUnsafe (.of_seals rfl)) ?_)
      exact .behind (sealed_abi habi) (.behind (.of_seals rfl) hcall)

end

/-! ## Mentions and tokens -/

namespace TyPart

variable {p : TyPart} {n : Text}

theorem names_head (h : n ∈ p.head?) : n ∈ p.names := by
  cases p with
  | segment s => cases h
  | _ => exact List.mem_append_left _ (Option.mem_toList.mpr h)

theorem names_lifetime (h : n ∈ p.lifetime?) : n ∈ p.names := by
  cases p with
  | segment s => cases h
  | _ => exact List.mem_append_right _ (List.mem_append_left _ (Option.mem_toList.mpr h))

theorem names_expr (h : x ∈ p.expr?) (hn : n ∈ nameTokens x) : n ∈ p.names := by
  have hmem : n ∈ (p.expr?.map nameTokens).getD [] := by
    rw [Option.mem_def.mp h]
    exact hn
  cases p with
  | segment s => cases h
  | _ => exact List.mem_append_right _ (List.mem_append_right _ hmem)

end TyPart

/-- What a part uses is one of the names that are written in it, unless it is a word of an
expression and no token. -/
theorem TyPart.Uses.named {g : Generics} {p : TyPart} (h : p.Uses g) :
    (∃ n ∈ p.names, n ∈ g.params.map (·.name)) ∨
      ∃ x ∈ p.expr?, ∃ n ∈ g.constNames, WordIn n x ∧ n ∉ nameTokens x := by
  have hdeclared {n : Text} {f : GenericParam →
      Bool} (hn : n ∈ (g.params.filter f).map (·.name)) :
      n ∈ g.params.map (·.name) := List.map_subset _ (List.filter_subset_self _) hn
  rcases h with ⟨n, hhead, hn⟩ | ⟨n, hlifetime, hn⟩ | ⟨x, hexpr, n, hn, hword⟩
  · exact .inl ⟨n, names_head hhead, hn.elim hdeclared hdeclared⟩
  · exact .inl ⟨n, names_lifetime hlifetime, hdeclared hn⟩
  · by_cases htoken : n ∈ nameTokens x
    · exact .inl ⟨n, names_expr hexpr htoken, hdeclared hn⟩
    · exact .inr ⟨x, hexpr, n, hn, hword, htoken⟩

theorem TyPart.Readable.clean {p : TyPart} (h : p.Readable) (hx : x ∈ p.expr?) :
    (scan x).errors = [] := by
  have hcaptured {stops : List TokenKind} (h : Captured stops x) :
      (scan x).errors = [] := by
    rcases h.solid with rfl | hsolid
    · rfl
    · exact hsolid.clean
  cases p with
  | ty t =>
      cases t <;> cases hx
      exact hcaptured h
  | arg a =>
      cases a <;> cases hx
      exact hcaptured h.1
  | _ => cases hx

/-- A type mentions a parameter exactly if one of its parts uses one. Where a captured
expression has no lexical errors, a constant that is a token of it is used if its name
begins and ends in ASCII. The types of a clean, trimmed source have such expressions only,
and they mention nothing if no name among the tokens of their spelling is declared, unless
a constant is a word of an expression without being a token, as in a string. -/
theorem mentions_iff (t : Ty) (g : Generics) :
    (t.mentions g = true ↔ ∃ p ∈ t.parts, p.Uses g) ∧
    (∀ p ∈ t.parts, ∀ x ∈ p.expr?, (scan x).errors = [] →
    ∀ v ∈ ownTokens x, v.kind = .ident →
      v.lexeme ∈ g.constNames → Edged v.lexeme → t.mentions g = true) ∧
    ∀ source, (scan source).errors = [] → Trimmed source →
      ∀ d ∈ (parse source).file.decls, t ∈ d.fieldTypes →
        (∀ p ∈ t.parts, ∀ x ∈ p.expr?, (scan x).errors = []) ∧
        (t.mentions g = true → (∃ n ∈ nameTokens t.render, n ∈ g.params.map (·.name)) ∨
          ∃ p ∈ t.parts, ∃ x ∈ p.expr?, ∃ n ∈ g.constNames, WordIn n x ∧
          n ∉ nameTokens x) := by
  refine ⟨t.mentions_uses g, ?_, ?_⟩
  · intro p hp x hx hclean v hv hkind hconst hedged
    refine (t.mentions_uses g).mpr ⟨p, hp, .inr (.inr ⟨x, hx, v.lexeme, hconst, ?_⟩)⟩
    exact wordIn_of_token hclean hv hkind hedged
  · intro source hs htrimmed d hd ht
    have hspelled := spelled_of_parse hs htrimmed hd ht
    refine ⟨fun p hp x hx => (hspelled p hp).clean hx, fun hmentions => ?_⟩
    obtain ⟨p, hp, huses⟩ := (t.mentions_uses g).mp hmentions
    rcases huses.named with ⟨n, hn, hdeclared⟩ | ⟨x, hx, hword⟩
    · exact .inl ⟨n, (t.shows hspelled).subset (List.mem_flatMap.mpr ⟨p, hp, hn⟩),
        hdeclared⟩
    · exact .inr ⟨p, hp, x, hx, hword⟩

/-- A constant outside ASCII is not found as a length. -/
theorem mentions_iff_accented :
    ∃ d ∈ (parse "struct S<const é: usize>([u8; é]);").file.decls, ∃ t ∈ d.fieldTypes,
      nameTokens t.render = ["u8", "é"] ∧ d.generics.constNames = ["é"] ∧
        ¬ ∃ p ∈ t.parts, p.Uses d.generics := by
  have hdecls : (parse "struct S<const é: usize>([u8; é]);").file.decls = [_] := rfl
  refine ⟨_, hdecls ▸ List.mem_singleton.mpr rfl, _,
    List.mem_map_of_mem (List.mem_singleton.mpr rfl), by decide +kernel, by
      decide +kernel, ?_⟩
  intro huses
  have hmentions := (mentions_iff _ _).1.mpr huses
  revert hmentions
  decide +kernel

end Deriver
