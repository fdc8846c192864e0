import Deriver.Bounds.Header
import Deriver.Proofs.Decl.Place
import Deriver.Proofs.Text.Basic
import Mathlib.Data.List.Basic
import Mathlib.Data.List.Perm.Basic

/-!
# Bounds in headers of implementations

Main statements: `ImplGenerics.predicate_mem_addFieldBounds` and
`ImplGenerics.augments_foldl_add`. Adding predicates takes none away and leaves the
declaration as it is.

## Additions

Types that are spelled the same count as one, and the first of them decides whether they get
a predicate. What a header holds after any number of additions is carried through them by
`Holds`: the predicates that were asked for, each once and in the order in which they were
first asked for, and the parameters, lifetimes apart from the others.
-/

namespace Deriver

/-! ## Distinct types -/

namespace Ty

theorem same_iff {t u : Ty} : t.same u = true ↔ t.render = u.render := beq_iff_eq

/-- One more type, unless one of before is spelled the same. -/
def note (seen : List Ty) (t : Ty) : List Ty :=
  if seen.any t.same then seen else seen ++ [t]

theorem distinct_eq_foldl (ts : List Ty) : distinct ts = ts.foldl note [] := rfl

theorem mem_of_mem_note {t u : Ty} {seen : List Ty} (h : t ∈ note seen u) :
    t ∈ seen ∨ t = u := by
  unfold note at h
  split at h
  · exact .inl h
  · exact (List.mem_append.mp h).imp_right List.mem_singleton.mp

theorem mem_note {t u : Ty} {seen : List Ty} (h : t ∈ seen) : t ∈ note seen u := by
  unfold note
  split
  · exact h
  · exact List.mem_append_left _ h

theorem exists_note (t : Ty) (seen : List Ty) : ∃ u ∈ note seen t, u.render = t.render := by
  unfold note
  split
  · next hany =>
      obtain ⟨u, hu, hsame⟩ := List.any_eq_true.mp hany
      exact ⟨u, hu, (same_iff.mp hsame).symm⟩
  · exact ⟨t, List.mem_append_right _ (List.mem_singleton_self t), rfl⟩

theorem mem_foldl_note {t : Ty} {seen : List Ty} (ts : List Ty) (h : t ∈ seen) :
    t ∈ ts.foldl note seen := by
  induction ts generalizing seen with
  | nil => exact h
  | cons u ts ih => exact ih (mem_note h)

theorem mem_of_mem_foldl_note {t : Ty} {ts seen : List Ty} (h : t ∈ ts.foldl note seen) :
    t ∈ seen ∨ t ∈ ts := by
  induction ts generalizing seen with
  | nil => exact .inl h
  | cons u ts ih =>
      rcases ih h with h | h
      · exact (mem_of_mem_note h).imp_right fun (heq : t = u) =>
          List.mem_cons.mpr (.inl heq)
      · exact .inr (List.mem_cons_of_mem u h)

theorem mem_of_mem_distinct {t : Ty} {ts : List Ty} (h : t ∈ distinct ts) : t ∈ ts :=
  (mem_of_mem_foldl_note h).elim (fun h => nomatch h) id

theorem exists_distinct {t : Ty} {ts : List Ty} (h : t ∈ ts) :
    ∃ u ∈ distinct ts, u.render = t.render := by
  rw [distinct_eq_foldl]
  generalize ([] : List Ty) = seen
  induction ts generalizing seen with
  | nil => cases h
  | cons v ts ih =>
      rcases List.mem_cons.mp h with rfl | h
      · obtain ⟨u, hu, hsame⟩ := exists_note t seen
        exact ⟨u, mem_foldl_note ts hu, hsame⟩
      · exact ih h _

end Ty

/-! ## Predicates -/

/-- A predicate on a type. -/
def Ty.predicate (t : Ty) (bound : Text) : Text := Text.concat [t.render, ": ", bound]

/-- Whether every type of a list that is spelled like `t` mentions a parameter and does
not contain the subject. -/
def Ty.NeedsBound (t : Ty) (types : List Ty) (subject : Ty) (g : Generics) : Prop :=
  ∀ u ∈ types, u.render = t.render → u.mentions g = true ∧ u.containsSubject subject = false

theorem mem_fieldPredicates {fields : List Ty} {subject : Ty} {g : Generics}
    {bound : Ty → Text}
    {t : Ty} (hbound : ∀ u, u.render = t.render → bound u = bound t) (ht : t ∈ fields)
    (hneeds : t.NeedsBound fields subject g) :
    t.predicate (bound t) ∈ fieldPredicates fields subject g bound := by
  obtain ⟨u, hu, hsame⟩ := Ty.exists_distinct ht
  obtain ⟨hmentions, hsubject⟩ := hneeds u (Ty.mem_of_mem_distinct hu) hsame
  refine List.mem_map.mpr ⟨u, List.mem_filter.mpr ⟨hu, ?_⟩, ?_⟩
  · rw [hmentions, hsubject]
    rfl
  · rw [hsame, hbound u hsame]
    rfl

namespace ImplGenerics

variable {g : ImplGenerics} {p : Text}

theorem mem_addPredicate {q : Text} :
    p ∈ (g.addPredicate q).predicates ↔ p ∈ g.predicates ∨ p = q := by
  unfold addPredicate
  split
  · next hmem =>
      exact ⟨.inl, fun h => h.elim id fun heq => heq ▸ List.contains_iff_mem.mp hmem⟩
  · rw [List.mem_append, List.mem_singleton]

@[simp] theorem declared_addPredicate (q : Text) :
    (g.addPredicate q).declared = g.declared := by
  unfold addPredicate
  split <;> rfl

@[simp] theorem declared_addBound (t : Ty) (bound : Text) :
    (g.addBound t bound).declared = g.declared :=
  declared_addPredicate _

@[simp] theorem declared_addParam (decl : Text) :
    (g.addParam decl).declared = g.declared := by
  unfold addParam
  split <;> rfl

@[simp] theorem declared_addParamBound (name bound : Text) :
    (g.addParamBound name bound).declared = g.declared :=
  declared_addPredicate _

theorem mem_foldl_addPredicate (qs : List Text) :
    p ∈ (qs.foldl addPredicate g).predicates ↔ p ∈ g.predicates ∨ p ∈ qs := by
  induction qs generalizing g with
  | nil => exact ⟨.inl, fun h => h.elim id fun h => nomatch h⟩
  | cons q qs ih => rw [List.foldl_cons, ih, mem_addPredicate, List.mem_cons, or_assoc]

theorem declared_foldl_addPredicate (qs : List Text) :
    (qs.foldl addPredicate g).declared = g.declared := by
  induction qs generalizing g with
  | nil => rfl
  | cons q qs ih => rw [List.foldl_cons, ih, declared_addPredicate]

theorem mem_addFieldBounds {fields : List Ty} {subject : Ty} {bound : Ty → Text} :
    p ∈ (g.addFieldBounds fields subject bound).predicates ↔
      p ∈ g.predicates ∨ p ∈ fieldPredicates fields subject g.declared bound :=
  mem_foldl_addPredicate _

theorem subset_addFieldBounds (fields : List Ty) (subject : Ty) (bound : Ty → Text)
    (hp : p ∈ g.predicates) : p ∈ (g.addFieldBounds fields subject bound).predicates :=
  mem_addFieldBounds.mpr (.inl hp)

/-- A field type that needs a bound has it where the bounds of its fields are added. -/
theorem predicate_mem_addFieldBounds {fields : List Ty} {subject : Ty}
    {bound : Ty → Text} {t : Ty}
    (hbound : ∀ u, u.render = t.render → bound u = bound t) (ht : t ∈ fields)
    (hneeds : t.NeedsBound fields subject g.declared) :
    t.predicate (bound t) ∈ (g.addFieldBounds fields subject bound).predicates :=
  mem_addFieldBounds.mpr (.inr (mem_fieldPredicates hbound ht hneeds))

@[simp] theorem declared_addFieldBounds (fields : List Ty) (subject : Ty)
    (bound : Ty → Text) : (g.addFieldBounds fields subject bound).declared = g.declared :=
  declared_foldl_addPredicate _

end ImplGenerics

/-! ## The predicates of fields, one by one -/

namespace Ty

/-- Whether a type stands in a list in front of all others that are spelled like it. -/
def FirstIn (t : Ty) (ts : List Ty) : Prop :=
  ∃ before after, ts = before ++ t :: after ∧ ∀ u ∈ before, u.render ≠ t.render

theorem distinct_concat (ts : List Ty) (t : Ty) :
    distinct (ts ++ [t]) = note (distinct ts) t := by
  rw [distinct_eq_foldl, List.foldl_append]
  rfl

theorem any_same_distinct {ts : List Ty} {t : Ty} :
    (distinct ts).any t.same = true ↔ ∃ u ∈ ts, u.render = t.render := by
  simp only [List.any_eq_true, same_iff]
  constructor
  · rintro ⟨u, hu, hsame⟩
    exact ⟨u, mem_of_mem_distinct hu, hsame.symm⟩
  · rintro ⟨u, hu, hsame⟩
    obtain ⟨v, hv, hsame'⟩ := exists_distinct hu
    exact ⟨v, hv, (hsame'.trans hsame).symm⟩

theorem firstIn_concat {ts : List Ty} {t u : Ty} :
    t.FirstIn (ts ++ [u]) ↔ t.FirstIn ts ∨ t = u ∧ ∀ v ∈ ts, v.render ≠ t.render := by
  constructor
  · rintro ⟨before, after, hts, hfirst⟩
    rcases List.eq_nil_or_concat after with rfl | ⟨after, w, rfl⟩
    · obtain ⟨rfl, hu⟩ := List.append_inj' hts rfl
      cases hu
      exact .inr ⟨rfl, hfirst⟩
    · rw [List.concat_eq_append, ← List.cons_append, ← List.append_assoc] at hts
      obtain ⟨rfl, -⟩ := List.append_inj' hts rfl
      exact .inl ⟨before, after, rfl, hfirst⟩
  · rintro (⟨before, after, rfl, hfirst⟩ | ⟨rfl, hfirst⟩)
    · exact ⟨before, after ++ [u], by simp, hfirst⟩
    · exact ⟨ts, [], rfl, hfirst⟩

theorem mem_distinct_iff {t : Ty} {ts : List Ty} : t ∈ distinct ts ↔ t.FirstIn ts := by
  induction ts using List.reverseRecOn with
  | nil => simp [distinct, FirstIn]
  | append_singleton ts u ih =>
      rw [distinct_concat, firstIn_concat, ← ih]
      unfold note
      split
      · next hseen =>
          obtain ⟨v, hv, hsame⟩ := any_same_distinct.mp hseen
          simp only [iff_self_or, and_imp]
          intro heq hnew
          exact absurd (heq ▸ hsame) (hnew v hv)
      · next hnew =>
          rw [List.mem_append, List.mem_singleton]
          refine or_congr_right (iff_self_and.mpr ?_)
          rintro rfl v hv hsame
          exact hnew (any_same_distinct.mpr ⟨v, hv, hsame⟩)

end Ty

/-- The predicates of fields are those on the types that mention a parameter and do not
contain the subject, where of types that are spelled the same the first counts. -/
theorem mem_fieldPredicates_iff {fields : List Ty} {subject : Ty} {g : Generics}
    {bound : Ty → Text} {p : Text} : p ∈ fieldPredicates fields subject g bound ↔
      ∃ t : Ty, t.FirstIn fields ∧ t.mentions g = true ∧ t.containsSubject subject = false ∧
        p = t.predicate (bound t) := by
  unfold fieldPredicates
  simp only [List.mem_map, List.mem_filter, Ty.mem_distinct_iff, Bool.and_eq_true,
    Bool.not_eq_true', and_assoc]
  exact exists_congr fun t => and_congr_right fun _ => and_congr_right fun _ =>
    and_congr_right fun _ => eq_comm

/-! ## Any number of additions -/

/-- Something that an implementation adds to its header. -/
inductive Addition where
  /-- a predicate on a type -/
  | bound (ty : Ty) (bound : Text)
  /-- a predicate on a parameter -/
  | paramBound (name bound : Text)
  /-- a predicate as written -/
  | predicate (pred : Text)
  /-- a parameter of the implementation alone -/
  | param (decl : Text)
  /-- a predicate for each field type that needs one -/
  | fieldBounds (fields : List Ty) (subject : Ty) (bound : Ty → Text)

namespace Addition

/-- The predicates that are asked for, in order, where `g` is declared. -/
def asked (g : Generics) : Addition → List Text
  | bound ty asked => [ty.predicate asked]
  | paramBound name asked => [Text.concat [name, ": ", asked]]
  | predicate pred => [pred]
  | param _ => []
  | fieldBounds fields subject asked => fieldPredicates fields subject g asked

/-- The parameters that are asked for. -/
def params : Addition → List Text
  | param decl => [decl]
  | _ => []

end Addition

/-- Whether an added parameter is a lifetime. -/
def isLifetimeDecl (decl : Text) : Bool := decl.startsWith "'"

/-- The words of a where clause, or nothing. -/
def whereText (preds : List Text) : Text :=
  if preds.isEmpty then [] else "where " ++ Text.join ", " preds

namespace ImplGenerics

/-- The header with an addition. -/
def add (h : ImplGenerics) : Addition → ImplGenerics
  | .bound ty bound => h.addBound ty bound
  | .paramBound name bound => h.addParamBound name bound
  | .predicate pred => h.addPredicate pred
  | .param decl => h.addParam decl
  | .fieldBounds fields subject bound => h.addFieldBounds fields subject bound

variable {g : Generics} {h : ImplGenerics} {ps : List Text}

/-- Whether a header is the declared one with what was asked for, in order: predicates
once each, and lifetimes apart from the other parameters. -/
structure Holds (g : Generics) (preds params : List Text) (h : ImplGenerics) : Prop where
  declared : h.declared = g
  predicates : h.predicates = Text.distinct preds
  lifetimes : h.lifetimes = params.filter isLifetimeDecl
  others : h.params = params.filter (!isLifetimeDecl ·)

variable {preds params : List Text}

theorem Holds.addPredicate (hh : Holds g preds params h) (p : Text) :
    Holds g (preds ++ [p]) params (h.addPredicate p) := by
  have hpredicates : (h.addPredicate p).predicates = Text.distinct (preds ++ [p]) := by
    rw [Text.distinct_concat, ← hh.predicates]
    unfold ImplGenerics.addPredicate
    split <;> rfl
  unfold ImplGenerics.addPredicate at hpredicates ⊢
  split at hpredicates
  · next hseen =>
      rw [if_pos hseen]
      exact ⟨hh.declared, hpredicates, hh.lifetimes, hh.others⟩
  · next hnew =>
      rw [if_neg hnew]
      exact ⟨hh.declared, hpredicates, hh.lifetimes, hh.others⟩

theorem Holds.foldl_addPredicate (hh : Holds g preds params h) (qs : List Text) :
    Holds g (preds ++ qs) params (qs.foldl ImplGenerics.addPredicate h) := by
  induction qs generalizing h preds with
  | nil => rwa [List.append_nil]
  | cons q qs ih =>
      rw [List.append_cons]
      exact ih (hh.addPredicate q)

theorem Holds.addParam (hh : Holds g preds params h) (decl : Text) :
    Holds g preds (params ++ [decl]) (h.addParam decl) := by
  have hl := hh.lifetimes
  have ho := hh.others
  unfold ImplGenerics.addParam
  split
  · next hdecl =>
      refine ⟨hh.declared, hh.predicates, ?_, ?_⟩
      · simp [hl, isLifetimeDecl, hdecl]
      · simp [ho, isLifetimeDecl, hdecl]
  · next hdecl =>
      refine ⟨hh.declared, hh.predicates, ?_, ?_⟩
      · simp [hl, isLifetimeDecl, hdecl]
      · simp [ho, isLifetimeDecl, hdecl]

theorem Holds.add (hh : Holds g preds params h) (a : Addition) :
    Holds g (preds ++ a.asked g) (params ++ a.params) (h.add a) := by
  cases a with
  | bound | paramBound | predicate =>
      simp only [Addition.params, Addition.asked, List.append_nil]
      exact hh.addPredicate _
  | param decl =>
      rw [Addition.asked, List.append_nil]
      exact hh.addParam decl
  | fieldBounds fields subject bound =>
      obtain rfl := hh.declared
      simp only [Addition.params, Addition.asked, List.append_nil]
      exact hh.foldl_addPredicate (fieldPredicates fields subject h.declared bound)

theorem holds_foldl_add (g : Generics) (as : List Addition) :
    Holds g (as.flatMap (·.asked g)) (as.flatMap (·.params))
    (as.foldl add (.ofGenerics g)) := by
  induction as using List.reverseRecOn with
  | nil => exact ⟨rfl, rfl, rfl, rfl⟩
  | append_singleton as a ih =>
      rw [List.foldl_append, List.flatMap_append, List.flatMap_append,
        List.flatMap_singleton, List.flatMap_singleton]
      exact ih.add a

theorem parts_eq (h : ImplGenerics) :
    h.parts = ⟨angled ((h.declared.params.filter (·.isLifetime)).map (·.declare) ++
    h.lifetimes ++
        ((h.declared.params.filter (!·.isLifetime)).map (·.declare) ++ h.params)),
      angled (h.declared.params.map (·.name)),
      whereText (h.declared.predicates.map WherePredicate.render ++ h.predicates)⟩ := by
  unfold parts
  rw [List.partition_eq_filter_filter]
  simp only [List.append_assoc]
  rfl

/-- What a header is after any number of additions. -/
structure Augments (g : Generics) (as : List Addition) (h : ImplGenerics) : Prop where
  declared : h.declared = g
  nodup : h.predicates.Nodup
  asked : ∀ p, p ∈ h.predicates ↔ p ∈ as.flatMap (·.asked g)
  order : ∀ p ∈ h.predicates, ∀ q ∈ h.predicates,
    (h.predicates.idxOf p < h.predicates.idxOf q ↔
      (as.flatMap (·.asked g)).idxOf p < (as.flatMap (·.asked g)).idxOf q)
  fields : ∀ fields subject bound p,
    p ∈ (h.addFieldBounds fields subject bound).predicates ↔ p ∈ h.predicates ∨
      ∃ t : Ty, t.FirstIn fields ∧ t.mentions g = true ∧ t.containsSubject subject = false ∧
        p = t.predicate (bound t)
  params : ∃ lifetimes others, h.parts.params = angled (lifetimes ++ others) ∧
    lifetimes = (g.params.filter (·.isLifetime)).map (·.declare) ++
      (as.flatMap (·.params)).filter isLifetimeDecl ∧
    others = (g.params.filter (!·.isLifetime)).map (·.declare) ++
      (as.flatMap (·.params)).filter (!isLifetimeDecl ·) ∧
    (lifetimes ++ others).Perm (g.params.map (·.declare) ++ as.flatMap (·.params))
  args : h.parts.args = angled (g.params.map (·.name))
  clause : h.parts.clause =
    whereText (g.predicates.map WherePredicate.render ++ h.predicates)

theorem filter_append_perm_map {α β : Type} (p : α → Bool) (f : α → β) (as : List α)
    (q : β → Bool) (bs : List β) :
    ((as.filter p).map f ++ bs.filter q ++
    ((as.filter (!p ·)).map f ++ bs.filter (!q ·))).Perm (as.map f ++ bs) := by
  have hleft : ((as.filter p).map f ++ (as.filter (!p ·)).map f).Perm (as.map f) := by
    rw [← List.map_append]
    exact (List.filter_append_perm p as).map f
  rw [List.append_assoc]
  refine ((List.perm_append_comm_assoc ..).append_left _).trans ?_
  rw [← List.append_assoc]
  exact hleft.append (List.filter_append_perm q bs)

theorem augments_foldl_add (g : Generics) (as : List Addition) :
    Augments g as (as.foldl add (.ofGenerics g)) := by
  have hh := holds_foldl_add g as
  generalize as.foldl add (.ofGenerics g) = h at hh
  obtain ⟨rfl, hpredicates, hlifetimes, hothers⟩ := hh
  refine ⟨rfl, ?_, ?_, ?_, ?_, ?_, ?_, ?_⟩
  · rw [hpredicates]
    exact Text.nodup_distinct _
  · intro p
    rw [hpredicates, Text.mem_distinct]
  · intro p hp q hq
    rw [hpredicates, Text.mem_distinct] at hp hq
    rw [hpredicates, Text.idxOf_distinct_lt hp hq]
  · intro fields subject bound p
    rw [mem_addFieldBounds, mem_fieldPredicates_iff]
  · refine ⟨_, _, ?_, rfl, rfl, filter_append_perm_map ..⟩
    rw [parts_eq, hlifetimes, hothers]
  · rw [parts_eq]
  · rw [parts_eq]

end ImplGenerics

end Deriver

/-!
## Bounds do not look at positions

Which types get a bound, and what the header of an implementation says, depends on
how types are spelled and on what they contain, and so is the same for a declaration
at another place. The header has to be carried along as a value, since derives add to
it step by step: `ImplGenerics.place`.
-/

namespace Deriver

variable (f : Position → Position)

/-! ## Walks -/

/-- What is met on a walk, with other positions. -/
def Visit.place : Visit → Visit
  | .ty t => .ty (t.place f)
  | .lifetime name => .lifetime name
  | .const expr => .const expr

theorem constVisit_place (expr : Text) :
    (constVisit expr).map (Visit.place f) = constVisit expr := by
  unfold constVisit
  split <;> rfl

mutual

theorem Ty.visits_place : ∀ t : Ty, (t.place f).visits = t.visits.map (Visit.place f)
  | .path p => by
      rw [Ty.place, Ty.visits, Ty.visits, Path.visits_place p, List.map_cons,
        Visit.place, Ty.place]
  | .ref _ lifetime _ elem => by
      rw [Ty.place, Ty.visits, Ty.visits, Ty.visits_place elem]
      cases lifetime <;> rfl
  | .ptr _ _ elem => by
      rw [Ty.place, Ty.visits, Ty.visits, Ty.visits_place elem, List.map_cons,
        Visit.place, Ty.place]
  | .tuple _ elems => by
      rw [Ty.place, Ty.visits, Ty.visits, visitTys_place elems, List.map_cons,
        Visit.place, Ty.place]
  | .array _ elem len => by
      rw [Ty.place, Ty.visits, Ty.visits, Ty.visits_place elem, List.map_cons,
        List.map_append, constVisit_place, Visit.place, Ty.place]
  | .slice _ elem => by
      rw [Ty.place, Ty.visits, Ty.visits, Ty.visits_place elem, List.map_cons,
        Visit.place, Ty.place]
  | .paren _ elem => by
      rw [Ty.place, Ty.visits, Ty.visits, Ty.visits_place elem, List.map_cons,
        Visit.place, Ty.place]
  | .fn _ sig => by
      rw [Ty.place, Ty.visits, Ty.visits, FnSig.visits_place sig,
        List.map_cons, Visit.place, Ty.place]
  | .traitObject _ _ bounds => by
      rw [Ty.place, Ty.visits, Ty.visits, visitBounds_place bounds,
        List.map_cons, Visit.place, Ty.place]
  | .implTrait _ bounds => by
      rw [Ty.place, Ty.visits, Ty.visits, visitBounds_place bounds,
        List.map_cons, Visit.place, Ty.place]
  | .never _ => rfl
  | .infer _ => rfl
  | .macroCall _ _ => rfl

theorem visitTys_place : ∀ ts :
    List Ty, visitTys (placeTys f ts) = (visitTys ts).map (Visit.place f)
  | [] => rfl
  | t :: ts => by
      rw [placeTys, visitTys, visitTys, Ty.visits_place t, visitTys_place ts,
        List.map_append]

theorem Path.visits_place : ∀ p : Path, (p.place f).visits = p.visits.map (Visit.place f)
  | ⟨none, _, segments, _⟩ => by
      rw [Path.place, placeQSelf?, Path.visits, Path.visits, visitSegments_place segments]
  | ⟨some qself, _, segments, _⟩ => by
      rw [Path.place, placeQSelf?, Path.visits, Path.visits, visitSegments_place segments,
        QSelf.visits_place qself, List.map_append]

theorem QSelf.visits_place : ∀ q : QSelf, (q.place f).visits = q.visits.map (Visit.place f)
  | ⟨ty, none⟩ => by
      rw [QSelf.place, placePath?, QSelf.visits, QSelf.visits, Ty.visits_place ty]
  | ⟨ty, some trait⟩ => by
      rw [QSelf.place, placePath?, QSelf.visits, QSelf.visits, Ty.visits_place ty,
        Path.visits_place trait, List.map_append]

theorem visitSegments_place : ∀ ss : List Segment,
    visitSegments (placeSegments f ss) = (visitSegments ss).map (Visit.place f)
  | [] => rfl
  | s :: ss => by
      rw [placeSegments, visitSegments, visitSegments, Segment.visits_place s,
        visitSegments_place ss, List.map_append]

theorem Segment.visits_place : ∀ s :
    Segment, (s.place f).visits = s.visits.map (Visit.place f)
  | ⟨_, .none⟩ => rfl
  | ⟨_, .angled args⟩ => by
      rw [Segment.place, Args.place, Segment.visits, Segment.visits, visitArgs_place args]
  | ⟨_, .call inputs none⟩ => by
      rw [Segment.place, Args.place, placeTy?, Segment.visits, Segment.visits,
        visitTys_place inputs]
  | ⟨_, .call inputs (some output)⟩ => by
      rw [Segment.place, Args.place, placeTy?, Segment.visits, Segment.visits,
        visitTys_place inputs, Ty.visits_place output, List.map_append]

theorem visitArgs_place : ∀ as : List GenericArg,
    visitArgs (placeArgs f as) = (visitArgs as).map (Visit.place f)
  | [] => rfl
  | a :: as => by
      rw [placeArgs, visitArgs, visitArgs, GenericArg.visits_place a, visitArgs_place as,
        List.map_append]

theorem GenericArg.visits_place : ∀ a : GenericArg,
    (a.place f).visits = a.visits.map (Visit.place f)
  | .ty t => by rw [GenericArg.place, GenericArg.visits, GenericArg.visits,
  Ty.visits_place t]
  | .lifetime _ => rfl
  | .const expr => by
      rw [GenericArg.place, GenericArg.visits, constVisit_place]
  | .binding _ t => by
      rw [GenericArg.place, GenericArg.visits, GenericArg.visits, Ty.visits_place t]
  | .constraint _ bounds => by
      rw [GenericArg.place, GenericArg.visits, GenericArg.visits, visitBounds_place bounds]

theorem visitBounds_place : ∀ bs : List Bound,
    visitBounds (placeBounds f bs) = (visitBounds bs).map (Visit.place f)
  | [] => rfl
  | b :: bs => by
      rw [placeBounds, visitBounds, visitBounds, Bound.visits_place b, visitBounds_place bs,
        List.map_append]

theorem Bound.visits_place : ∀ b : Bound, (b.place f).visits = b.visits.map (Visit.place f)
  | .outlives _ _ => rfl
  | .trait _ _ path =>
      by rw [Bound.place, Bound.visits, Bound.visits, Path.visits_place path]

theorem FnSig.visits_place : ∀ s : FnSig, (s.place f).visits = s.visits.map (Visit.place f)
  | ⟨_, _, _, inputs, _, none⟩ => by
      rw [FnSig.place, placeTy?, FnSig.visits, FnSig.visits, visitTys_place inputs]
  | ⟨_, _, _, inputs, _, some output⟩ => by
      rw [FnSig.place, placeTy?, FnSig.visits, FnSig.visits, visitTys_place inputs,
        Ty.visits_place output, List.map_append]

end

/-! ## Parameters -/

namespace GenericParam

variable (p : GenericParam)

@[simp] theorem name_place : (p.place f).name = p.name := rfl

@[simp] theorem isLifetime_place : (p.place f).isLifetime = p.isLifetime := by
  obtain ⟨kind, _⟩ := p
  cases kind <;> rfl

@[simp] theorem isType_place : (p.place f).isType = p.isType := by
  obtain ⟨kind, _⟩ := p
  cases kind <;> rfl

@[simp] theorem isConst_place : (p.place f).isConst = p.isConst := by
  obtain ⟨kind, _⟩ := p
  cases kind <;> rfl

theorem renderBounds_place (bs : List Bound) :
    renderBounds (bs.map (Bound.place f)) = renderBounds bs := by
  simp only [renderBounds, List.map_map, Function.comp_def, Bound.render_place]

@[simp] theorem declare_place : (p.place f).declare = p.declare := by
  obtain ⟨kind, name, bounds, _⟩ := p
  cases kind with
  | const ty => simp only [declare, place, ParamKind.place, Ty.render_place]
  | lifetime | type =>
      simp only [declare, place, ParamKind.place, renderBounds_place, List.isEmpty_map]

end GenericParam

theorem WherePredicate.render_place (p : WherePredicate) :
    (p.place f).render = p.render := by
  cases p <;> simp only [place, render, GenericParam.renderBounds_place, Ty.render_place]

namespace Generics

variable (g : Generics)

@[simp] theorem typeNames_place : (g.place f).typeNames = g.typeNames := by
  simp only [typeNames, place, List.filter_map, List.map_map, Function.comp_def,
    GenericParam.isType_place, GenericParam.name_place]

@[simp] theorem constNames_place : (g.place f).constNames = g.constNames := by
  simp only [constNames, place, List.filter_map, List.map_map, Function.comp_def,
    GenericParam.isConst_place, GenericParam.name_place]

@[simp] theorem lifetimeNames_place : (g.place f).lifetimeNames = g.lifetimeNames := by
  simp only [lifetimeNames, place, List.filter_map, List.map_map, Function.comp_def,
    GenericParam.isLifetime_place, GenericParam.name_place]

end Generics

/-! ## What needs a bound -/

theorem Visit.mentions_place (g : Generics) (v : Visit) :
    (v.place f).mentions (g.place f) = v.mentions g := by
  cases v with
  | ty t =>
      cases t with
      | path p =>
          obtain ⟨_ | qself, _ | _, _ | ⟨s, ss⟩, pos⟩ := p
          case none.false.cons =>
            have hident : (s.place f).ident = s.ident := by cases s; rfl
            simp only [Visit.place, Ty.place, Path.place, placeQSelf?,
              placeSegments, mentions, Generics.typeNames_place, Generics.constNames_place,
              hident]
          all_goals rfl
      | _ => rfl
  | lifetime => simp only [Visit.place, mentions, Generics.lifetimeNames_place]
  | const => simp only [Visit.place, mentions, Generics.constNames_place]

theorem Ty.mentions_place (t : Ty) (g : Generics) :
    (t.place f).mentions (g.place f) = t.mentions g := by
  simp only [mentions, visits_place, List.any_map, Function.comp_def, Visit.mentions_place]

theorem Path.isIdent_place (p : Path) (name : Text) :
    (p.place f).isIdent name = p.isIdent name := by
  obtain ⟨_ | qself, _ | _, _ | ⟨⟨ident, _ | ⟨_ | ⟨a, as⟩⟩ | _⟩, _ | ⟨s, ss⟩⟩, pos⟩ := p
  all_goals rfl

theorem Ty.lastSegment_place (t : Ty) : (t.place f).lastSegment = t.lastSegment := by
  cases t with
  | path p =>
      simp only [place, lastSegment]
      obtain ⟨qself, isGlobal, segments, pos⟩ := p
      simp only [Path.place, placeSegments_eq, List.getLast?_map, Option.map_map,
        Function.comp_def, Segment.render_place]
  | _ => rfl

/-- Whether two types are spelled alike, as far as it matters for one that is declared. -/
structure Ty.Alike (a b : Ty) : Prop where
  render : a.render = b.render
  lastSegment : a.lastSegment = b.lastSegment

variable {subject subject' : Ty}

theorem Visit.isSubject_place (h : subject'.Alike subject) (v : Visit) :
    (v.place f).isSubject subject' = v.isSubject subject := by
  cases v with
  | ty t =>
      cases t with
      | path p =>
          have hpath := (Ty.path p).lastSegment_place f
          rw [Ty.place] at hpath
          have hqself : (p.place f).qself.isNone = p.qself.isNone := by
            obtain ⟨_ | qself, isGlobal, segments, pos⟩ := p <;> rfl
          have hlength : (p.place f).segments.length = p.segments.length := by
            obtain ⟨qself, isGlobal, segments, pos⟩ := p
            rw [Path.place, placeSegments_eq, List.length_map]
          simp only [Visit.place, Ty.place, isSubject, hqself, Path.isIdent_place,
            Path.render_place, h.render, h.lastSegment, hlength, hpath]
      | _ => rfl
  | _ => rfl

theorem Ty.containsSubject_place (h : subject'.Alike subject) (t : Ty) :
    (t.place f).containsSubject subject' = t.containsSubject subject := by
  simp only [containsSubject, visits_place, List.any_map, Function.comp_def,
    Visit.isSubject_place f h]

theorem Ty.distinct_place (ts : List Ty) :
    distinct (ts.map (Ty.place f)) = (distinct ts).map (Ty.place f) := by
  have hstep (seen : List Ty) :
      (ts.map (Ty.place f)).foldl
          (fun seen t => if seen.any t.same then seen else seen ++ [t])
            (seen.map (Ty.place f)) =
        (ts.foldl (fun seen t => if seen.any t.same then seen else seen ++ [t]) seen).map
          (Ty.place f) := by
    induction ts generalizing seen with
    | nil => rfl
    | cons t ts ih =>
        rw [List.map_cons, List.foldl_cons, List.foldl_cons, ← ih]
        have hany : (seen.map (Ty.place f)).any (t.place f).same = seen.any t.same := by
          rw [List.any_map]
          congr 1
          funext u
          simp only [Function.comp_def, same, render_place]
        rw [hany]
        congr 1
        split
        · rfl
        · rw [List.map_append, List.map_singleton]
  exact hstep []

/-- The predicates do not depend on the place, if what they say of a type does not. -/
theorem fieldPredicates_place (h : subject'.Alike subject) (ts : List Ty) (g : Generics)
    {bound : Ty → Text} (hbound : ∀ t, bound (t.place f) = bound t) :
    fieldPredicates (ts.map (Ty.place f)) subject' (g.place f) bound =
      fieldPredicates ts subject g bound := by
  simp only [fieldPredicates, Ty.distinct_place, List.filter_map, List.map_map,
    Function.comp_def, Ty.mentions_place, Ty.containsSubject_place f h, Ty.render_place,
    hbound]

/-! ## Headers -/

namespace ImplGenerics

/-- The generics of an implementation, the declared ones with other positions. -/
def place (g : ImplGenerics) : ImplGenerics := { g with declared := g.declared.place f }

variable (g : ImplGenerics)

@[simp] theorem ofGenerics_place (d : Generics) :
    ofGenerics (d.place f) = (ofGenerics d).place f := rfl

@[simp] theorem addPredicate_place (pred : Text) :
    (g.place f).addPredicate pred = (g.addPredicate pred).place f := by
  unfold addPredicate
  split
  · next h => rw [if_pos (show g.predicates.contains pred = true from h)]
  · next h => rw [if_neg (show ¬ g.predicates.contains pred = true from h)]; rfl

@[simp] theorem addParamBound_place (name bound : Text) :
    (g.place f).addParamBound name bound = (g.addParamBound name bound).place f :=
  g.addPredicate_place f _

@[simp] theorem addBound_place (t : Ty) (bound : Text) :
    (g.place f).addBound (t.place f) bound = (g.addBound t bound).place f := by
  rw [addBound, Ty.render_place, addPredicate_place]
  rfl

@[simp] theorem addParam_place (decl : Text) :
    (g.place f).addParam decl = (g.addParam decl).place f := by
  unfold addParam
  split <;> rfl

theorem foldl_addPredicate_place (preds : List Text) :
    preds.foldl addPredicate (g.place f) = (preds.foldl addPredicate g).place f := by
  induction preds generalizing g with
  | nil => rfl
  | cons p preds ih => rw [List.foldl_cons, List.foldl_cons, addPredicate_place, ih]

theorem addFieldBounds_place (h : subject'.Alike subject) (ts : List Ty) {bound : Ty → Text}
    (hbound : ∀ t, bound (t.place f) = bound t) :
    (g.place f).addFieldBounds (ts.map (Ty.place f)) subject' bound =
      (g.addFieldBounds ts subject bound).place f := by
  unfold addFieldBounds
  rw [show (g.place f).declared = g.declared.place f from rfl,
    fieldPredicates_place f h ts _ hbound, foldl_addPredicate_place]

@[simp] theorem parts_place : (g.place f).parts = g.parts := by
  simp only [parts, place, Generics.place, List.partition_eq_filter_filter, List.filter_map,
    List.map_map, Function.comp_def, GenericParam.declare_place, GenericParam.name_place,
    GenericParam.isLifetime_place, WherePredicate.render_place]

@[simp] theorem header_place (trait name : Text) :
    (g.place f).header trait name = g.header trait name := by
  unfold header
  rw [parts_place]

@[simp] theorem inherentHeader_place (name : Text) :
    (g.place f).inherentHeader name = g.inherentHeader name := g.header_place f [] name

end ImplGenerics

end Deriver
