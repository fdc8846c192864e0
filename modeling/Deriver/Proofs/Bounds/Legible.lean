import Deriver.Bounds.Header
import Deriver.Proofs.Bounds.Mentions
import Deriver.Proofs.Parse.Declared
import Deriver.Proofs.Token.Apart

/-!
# Headers that can be read

Main statements: `ImplGenerics.Legible.closed_header` and `Generics.Spelled.legible`. If the
names, types and bounds of a declaration are cut off from what stands behind them, then so
is the header of an implementation that is made of them, with the predicates that were
added to it. They are if the declaration is spelled by tokens.
-/

namespace Deriver

open Scan

variable {x y s : Text} {g : ImplGenerics}

/-! ## Generics -/

theorem closed_angled {ts : List Text} (h : ∀ t ∈ ts, Closed t) :
    Sealed (ImplGenerics.angled ts) ∧ Stopped (ImplGenerics.angled ts) := by
  rw [ImplGenerics.angled]
  split
  · exact ⟨.nil, stopped_nil⟩
  · refine ⟨?_, stopped_cons (by decide)⟩
    have hopen : Sealed "<" := .of_seals rfl
    have := hopen.append ((Closed.join divides_comma h).ended divides_gt)
    simpa [Text.concat] using this

/-- Whether the parameters and predicates of a declaration can be read. -/
structure Generics.Legible (g : Generics) : Prop where
  names : ∀ p ∈ g.params, Closed p.name
  params : ∀ p ∈ g.params, Closed p.declare
  predicates : ∀ p ∈ g.predicates, Closed p.render

namespace ImplGenerics

/-- Whether the generics of an implementation can be read. -/
structure Legible (g : ImplGenerics) : Prop where
  declared : g.declared.Legible
  lifetimes : ∀ t ∈ g.lifetimes, Closed t
  params : ∀ t ∈ g.params, Closed t
  predicates : ∀ t ∈ g.predicates, Closed t

namespace Legible

theorem ofGenerics {g : Generics} (h : g.Legible) : (ofGenerics g).Legible :=
  ⟨h, nofun, nofun, nofun⟩

theorem addPredicate (h : g.Legible) (hx : Closed x) : (g.addPredicate x).Legible := by
  rw [ImplGenerics.addPredicate]
  split
  · exact h
  · refine ⟨h.declared, h.lifetimes, h.params, ?_⟩
    exact List.forall_mem_append.mpr ⟨h.predicates, List.forall_mem_singleton.mpr hx⟩

theorem addFieldBound (h : g.Legible) {t : Ty} (ht : Closed t.render) (hx : Closed x)
    (subject : Ty) : (g.addFieldBounds [t] subject fun _ => x).Legible := by
  have hpreds : ∀ p ∈ fieldPredicates [t] subject g.declared fun _ => x, Closed p := by
    intro p hp
    obtain ⟨u, hu, rfl⟩ := List.mem_map.mp hp
    have hmem := List.mem_of_mem_filter hu
    obtain rfl : u = t := by simpa [Ty.distinct] using hmem
    have := ht.divided divides_colon hx
    simpa [Text.concat] using this
  rw [ImplGenerics.addFieldBounds]
  generalize fieldPredicates [t] subject g.declared (fun _ => x) = preds at hpreds
  induction preds generalizing g with
  | nil => exact h
  | cons p preds ih =>
      obtain ⟨hp, hpreds⟩ := List.forall_mem_cons.mp hpreds
      exact ih (h.addPredicate hp) hpreds

theorem closed_header (h : g.Legible) {trait name : Text} (htrait : Closed trait)
    (hname : Closed name) : Closed (g.header trait name) := by
  have hblank : Sealed " " := .of_seals rfl
  have hdeclared (keep : GenericParam → Bool) :
      ∀ t ∈ (g.declared.params.filter keep).map (·.declare), Closed t := by
    intro t ht
    obtain ⟨p, hp, rfl⟩ := List.mem_map.mp ht
    exact h.declared.params p (List.mem_of_mem_filter hp)
  obtain ⟨hparams, hfirst⟩ : Sealed g.parts.params ∧ Stopped g.parts.params := by
    rw [parts, List.partition_eq_filter_filter]
    exact closed_angled (by
      simp only [List.forall_mem_append]
      exact ⟨⟨⟨hdeclared _, h.lifetimes⟩, hdeclared _⟩, h.params⟩)
  obtain ⟨hargs, hfirst'⟩ : Sealed g.parts.args ∧ Stopped g.parts.args :=
    closed_angled fun t ht => by
      obtain ⟨p, hp, rfl⟩ := List.mem_map.mp ht
      exact h.declared.names p hp
  obtain ⟨hclause, hfirst''⟩ :
      Closed (if g.parts.clause.isEmpty then [] else " " ++ g.parts.clause) ∧
      Stopped (if g.parts.clause.isEmpty then [] else " " ++ g.parts.clause) := by
    split
    · exact ⟨.nil, stopped_nil⟩
    · next hsome =>
      refine ⟨hblank.append_closed ?_, stopped_space _⟩
      rw [parts] at hsome ⊢
      dsimp only at hsome ⊢
      split at hsome
      · exact absurd rfl hsome
      · next hpreds =>
        rw [if_neg hpreds]
        have hwhere : Sealed "where " := .of_seals rfl
        refine hwhere.append_closed (Closed.join divides_comma ?_)
        refine List.forall_mem_append.mpr ⟨fun t ht => ?_, h.predicates⟩
        obtain ⟨p, hp, rfl⟩ := List.mem_map.mp ht
        exact h.declared.predicates p hp
  have htarget : Sealed (if trait.isEmpty then [] else trait ++ " for ") := by
    have hfor : Sealed " for " := .of_seals rfl
    split
    · exact .nil
    · exact htrait.ended (hfor.divides fun _ => stopped_cons (by decide))
  rw [header]
  simp only [Text.concat, List.flatten_cons, List.flatten_nil, List.append_nil]
  have himpl : Closed "impl" := .of_isSolid rfl
  refine himpl.append (hparams.append_closed
    (hblank.append_closed (htarget.append_closed ?_)))
    (hfirst.append (stopped_space _))
  exact hname.append (hargs.append_closed hclause) (hfirst'.append hfirst'')

end Legible

end ImplGenerics

/-! ## Generics of a source -/

theorem closed_renderBounds {bs : List Bound} (h : ∀ b ∈ bs, Spelled b.parts) :
    Closed (renderBounds bs) := by
  refine Closed.join divides_plus fun t ht => ?_
  obtain ⟨b, hb, rfl⟩ := List.mem_map.mp ht
  exact (b.shows (h b hb)).closed

theorem GenericParam.Spelled.closed_name {p : GenericParam} (h : p.Spelled) :
    Closed p.name := by
  obtain ⟨k, hk⟩ := h.name
  exact hk.closed

theorem GenericParam.Spelled.closed_declare {p : GenericParam} (h : p.Spelled) :
    Closed p.declare := by
  have hname := h.closed_name
  unfold declare
  split
  · next t hkind =>
      have hconst : Sealed "const " := .of_seals rfl
      have hty : Closed t.render := (t.shows (h.ty t hkind)).closed
      have := hconst.append_closed (hname.divided divides_colon hty)
      simpa [Text.concat] using this
  · split
    · exact hname
    · have := hname.divided divides_colon (closed_renderBounds h.bounds)
      simpa [Text.concat] using this

theorem WherePredicate.Spelled.closed {p : WherePredicate} (h : p.Spelled) :
    Closed p.render := by
  cases p with
  | lifetime binder name bounds =>
      obtain ⟨hbinder, hname, hbounds⟩ := h
      have := (sealed_binder hbinder).append_closed
        (hname.closed.divided divides_colon (closed_renderBounds hbounds))
      simpa [render, Text.concat] using this
  | type binder t bounds =>
      obtain ⟨hbinder, ht, hbounds⟩ := h
      have := (sealed_binder hbinder).append_closed
        ((t.shows ht).closed.divided divides_colon (closed_renderBounds hbounds))
      simpa [render, Text.concat] using this

theorem Generics.Spelled.legible {g : Generics} (h : g.Spelled) : g.Legible :=
  ⟨fun p hp => (h.params p hp).closed_name, fun p hp => (h.params p hp).closed_declare,
    fun p hp => (h.predicates p hp).closed⟩

end Deriver
