import Deriver.Proofs.Derive.Payload
import Deriver.Proofs.Derive.Values
import Mathlib.Data.List.Perm.Basic

/-!
# Conversions that overlap

Main statement: `conversions_apart`. A declaration is converted from the tuples of its
field lists, and converted into the tuple of its fields, by value or by reference; extra
types may be named for both. Tuples are compared before anything is emitted
(`converts_fromVariants`), extra types are not. So the conversions of a declaration are told
apart just when the extra types are distinct and none of them is one of the tuples.
-/

namespace Deriver.Derive

/-- What is converted, and into what. -/
structure Conversion where
  source : Text
  target : Text
  deriving DecidableEq

/-- Whether an implementation makes a conversion, whatever its generics are and the value
that it returns. -/
def Converts (i : Impl) (c : Conversion) : Prop :=
  ∃ params clause value, i = .block
    (Text.concat ["impl", params, " ", generic Core.fromTrait c.source, " for ",
      c.target, clause])
    [.inline, .block (Text.concat ["fn from(original: ", c.source, ") -> Self"])
      [.line value]]

/-- Tuples and extra types are distinct together just when each are among themselves and
no tuple is an extra type. -/
theorem nodup_flatMap_cons {α β : Type} (as : List α) (key : α → β) (extra : α → List β) :
    (as.flatMap fun a => key a :: extra a).Nodup ↔
      (as.map key).Nodup ∧ (as.flatMap extra).Nodup ∧
      ∀ a ∈ as, ∀ b ∈ as, key a ∉ extra b := by
  rw [← (List.map_append_flatMap_perm as key extra).nodup_iff, List.nodup_append]
  refine and_congr_right fun _ => and_congr_right fun _ => ⟨fun h a ha b hb hmem => ?_, ?_⟩
  · exact h _ (List.mem_map_of_mem ha) _ (List.mem_flatMap.mpr ⟨b, hb, hmem⟩) rfl
  · rintro h k hk k' hk' rfl
    obtain ⟨a, ha, rfl⟩ := List.mem_map.mp hk
    obtain ⟨b, hb, hmem⟩ := List.mem_flatMap.mp hk'
    exact h a ha b hb hmem

/-! ## From the fields -/

/-- The fields that take part, as one type. -/
def tuple (fields : FieldsView) : Text := tupleOf (fields.types.map Ty.render)

/-- A field list that a declaration is made from, with the extra types it is made from. -/
structure Carrier where
  fields : FieldsView
  extra : List Text

namespace Carrier

/-- A variant with its extra types. -/
def ofVariant (v : VariantView) : Carrier := ⟨v.fields, v.options.types⟩

/-- The variants of which a field takes part. -/
def ofVariants (variants : List VariantView) : List Carrier :=
  (variants.filter fun v => !v.fields.enabled.isEmpty).map ofVariant

/-- The field lists that a declaration is made from. -/
def all (s : Selection) : List Carrier :=
  match s.shape with
  | .struct fields => [⟨fields, s.container.types⟩]
  | .enum variants => ofVariants (variants.filter (·.enabled))

/-- What a field list is converted from. -/
def sources (c : Carrier) : List Text := tuple c.fields :: c.extra

end Carrier

/-- What a declaration is converted from. -/
def origins (s : Selection) : List Text := (Carrier.all s).flatMap Carrier.sources

/-- The declared type as the header of an implementation names it. -/
def implementor (s : Selection) : Text := s.decl.name ++ s.generics.parts.args

section

variable {s : Selection} {fields : FieldsView} {path : Text} {extra : List Text}
  {impls : List Impl}

/-- An implementation from `source` converts it, whatever predicates it has. -/
theorem converts_fromImpl {g : ImplGenerics} {source : Text} {value : Built}
    (hpath : s.spec.path = Core.fromTrait) (hg : g.declared = s.decl.generics) :
    Converts (fromImpl g s source value) ⟨source, implementor s⟩ := by
  refine ⟨g.parts.params, if g.parts.clause.isEmpty then [] else " " ++ g.parts.clause,
    value.render, ?_⟩
  have hargs : g.parts.args = s.generics.parts.args := by
    unfold ImplGenerics.parts
    dsimp only
    rw [hg]
    rfl
  have htrait : (generic s.spec.path source).isEmpty = false := by
    rw [hpath]
    rfl
  rw [fromImpl, ImplGenerics.header, htrait, hargs, hpath, implementor]
  simp [Text.concat]

theorem converts_fromFields (hpath : s.spec.path = Core.fromTrait)
    (h : fromFields s fields path extra = .ok impls) :
    List.Forall₂ (fun i source => Converts i ⟨source, implementor s⟩) impls
      (Carrier.sources ⟨fields, extra⟩) := by
  have hdeclared := ImplGenerics.declared_addFieldBounds (g := s.generics)
    (fields.skipped.map (·.ty)) s.self fun _ => Core.default
  unfold fromFields at h
  dsimp only at h
  split at h
  · next hnone =>
      cases h
      rw [Carrier.sources, List.isEmpty_iff.mp hnone]
      exact .cons (converts_fromImpl hpath hdeclared) .nil
  · split at h
    · cases h
      refine .cons (converts_fromImpl hpath hdeclared) ?_
      rw [List.forall₂_map_left_iff, List.forall₂_same]
      exact fun ty _ => converts_fromImpl hpath
        ((ImplGenerics.declared_addPredicate _).trans hdeclared)
    · cases h

/-- The step to a variant of which a field takes part: its tuple is new, and its
conversions come first. -/
theorem fromVariants_cons_ok {owners : List (Text × Text)} {v : VariantView}
    {variants : List VariantView} (hsome : v.fields.enabled.isEmpty = false)
    (h : fromVariants s owners (v :: variants) = .ok impls) :
    owners.lookup (tuple v.fields) = none ∧ ∃ own rest,
      fromFields s v.fields v.path v.options.types = .ok own ∧
      fromVariants s ((tuple v.fields, v.name) :: owners) variants = .ok rest ∧
      impls = own ++ rest := by
  unfold fromVariants at h
  rw [hsome, if_neg Bool.false_ne_true] at h
  dsimp only at h
  split at h
  · cases h
  · next hnew =>
      obtain ⟨own, hown, h⟩ := of_bind_ok h
      obtain ⟨rest, hrest, h⟩ := of_bind_ok h
      cases h
      exact ⟨hnew, own, rest, hown, hrest, rfl⟩

/-- The variants of which a field takes part are converted from their tuples, no two of
which are the same or among those of before, and from their extra types. -/
theorem converts_fromVariants {owners : List (Text × Text)} {variants : List VariantView}
    (hpath : s.spec.path = Core.fromTrait)
    (h : fromVariants s owners variants = .ok impls) :
    List.Forall₂ (fun i source => Converts i ⟨source, implementor s⟩) impls
        ((Carrier.ofVariants variants).flatMap Carrier.sources) ∧
      ((Carrier.ofVariants variants).map fun c => tuple c.fields).Nodup ∧
      ∀ c ∈ Carrier.ofVariants variants, owners.lookup (tuple c.fields) = none := by
  induction variants generalizing owners impls with
  | nil =>
      cases h
      exact ⟨.nil, List.nodup_nil, fun _ hc => nomatch hc⟩
  | cons v variants ih =>
      unfold Carrier.ofVariants
      rw [List.filter_cons]
      cases hempty : v.fields.enabled.isEmpty with
      | true =>
          refine ih ?_
          unfold fromVariants at h
          rwa [hempty] at h
      | false =>
          obtain ⟨hnew, own, rest, hown, hrest, rfl⟩ := fromVariants_cons_ok hempty h
          obtain ⟨hconverts, hnodup, hfresh⟩ := ih hrest
          -- What is fresh beside the tuple of this variant differs from it and was fresh
          -- before.
          have hbeside (c) (hc : c ∈ Carrier.ofVariants variants) :
              tuple c.fields ≠ tuple v.fields ∧ owners.lookup (tuple c.fields) = none := by
            have hlookup := hfresh c hc
            rw [List.lookup_cons] at hlookup
            split at hlookup
            · cases hlookup
            · next hne => exact ⟨ne_of_beq_false hne, hlookup⟩
          refine ⟨List.rel_append (converts_fromFields hpath hown) hconverts,
            List.nodup_cons.mpr ⟨fun hmem => ?_, hnodup⟩, fun c hc => ?_⟩
          · obtain ⟨c, hc, heq⟩ := List.mem_map.mp hmem
            exact (hbeside c hc).1 heq
          · rcases List.mem_cons.mp hc with rfl | hc
            · exact hnew
            · exact (hbeside c hc).2

end

/-! ## Into the fields -/

/-- The forms in which the fields of a struct are asked for. -/
def intoForms (s : Selection) : List RefForm :=
  RefForm.ofSet (Selection.accessorsOf s.container {})

/-- The conversion of a declaration into its fields, in one form. -/
def inForm (s : Selection) (fields : FieldsView) (form : RefForm) : Conversion :=
  ⟨form.typeMark ++ s.self.render,
    tupleOf (fields.types.map fun t => form.typeMark ++ t.render)⟩

/-- The conversions of a declaration into its fields and into the extra types. -/
def outcomes (s : Selection) (fields : FieldsView) : List Conversion :=
  (intoForms s).map (inForm s fields) ++ s.container.types.map fun ty => ⟨s.self.render, ty⟩

section

variable {s : Selection} {fields : FieldsView}

theorem nodup_ofSet (set : AccessorSet) : (RefForm.ofSet set).Nodup :=
  List.Nodup.filter _ (by decide)

theorem typeMark_inj (t : Text) {form form' : RefForm}
    (h : form.typeMark ++ t = form'.typeMark ++ t) : form = form' := by
  have hmark := List.append_cancel_right h
  revert hmark
  cases form <;> cases form' <;> decide

theorem inForm_owned : inForm s fields .owned = ⟨s.self.render, tuple fields⟩ := rfl

theorem nodup_outcomes : (outcomes s fields).Nodup ↔
    s.container.types.Nodup ∧ (.owned ∈ intoForms s →
    tuple fields ∉ s.container.types) := by
  have hforms : ((intoForms s).map (inForm s fields)).Nodup :=
    (nodup_ofSet _).map_on fun form _ form' _ heq =>
      typeMark_inj _ (congrArg Conversion.source heq)
  have hextra : (s.container.types.map fun ty => Conversion.mk s.self.render ty).Nodup ↔
      s.container.types.Nodup :=
    List.nodup_map_iff fun _ _ heq => congrArg Conversion.target heq
  rw [outcomes, List.nodup_append, hextra]
  constructor
  · rintro ⟨-, hnodup, hcross⟩
    refine ⟨hnodup, fun howned hmem => ?_⟩
    exact hcross _ (List.mem_map_of_mem howned) _ (List.mem_map_of_mem hmem) inForm_owned
  · rintro ⟨hnodup, hcross⟩
    refine ⟨hforms, hnodup, fun c hc c' hc' heq => ?_⟩
    obtain ⟨form, hform, rfl⟩ := List.mem_map.mp hc
    obtain ⟨ty, hty, rfl⟩ := List.mem_map.mp hc'
    obtain rfl : form = .owned :=
      typeMark_inj s.self.render (congrArg Conversion.source heq)
    rw [inForm_owned] at heq
    cases heq
    exact hcross hform hty

theorem converts_intoImpl (g : ImplGenerics) (source target value : Text) :
    Converts (intoImpl g source target value) ⟨source, target⟩ :=
  ⟨_, _, _, rfl⟩

theorem of_selectStruct_ok {decl : Decl} {spec : TraitSpec}
    (h : selectStruct decl spec = .ok (s, fields)) :
    Selection.ofDecl decl spec = .ok s ∧ s.shape = .struct fields := by
  unfold selectStruct at h
  dsimp only at h
  split at h
  · cases h
  · obtain ⟨s', hs, h⟩ := of_bind_ok h
    obtain ⟨fields', hfields, h⟩ := of_bind_ok h
    cases h
    exact ⟨hs, Selection.shape_of_structFields hfields⟩

theorem converts_intoPayload {decl : Decl} {spec : TraitSpec} {impls : List Impl}
    (h : intoPayload decl spec = .ok impls) :
    ∃ s fields, Selection.ofDecl decl spec = .ok s ∧ s.shape = .struct fields ∧
      List.Forall₂ Converts impls (outcomes s fields) := by
  obtain ⟨⟨s, fields⟩, hselect, h⟩ := of_bind_ok h
  obtain ⟨hs, hshape⟩ := of_selectStruct_ok hselect
  refine ⟨s, fields, hs, hshape, ?_⟩
  have hmain : List.Forall₂ Converts ((intoForms s).map (intoForm s fields))
      ((intoForms s).map (inForm s fields)) := by
    rw [List.forall₂_map_left_iff, List.forall₂_map_right_iff, List.forall₂_same]
    exact fun form _ => converts_intoImpl _ _ _ _
  dsimp only at h
  split at h
  · next hnone =>
      cases h
      rw [outcomes, List.isEmpty_iff.mp hnone, List.map_nil, List.append_nil]
      exact hmain
  · split at h
    · cases h
      refine List.rel_append hmain ?_
      rw [List.forall₂_map_left_iff, List.forall₂_map_right_iff, List.forall₂_same]
      exact fun ty _ => converts_intoImpl _ _ _ _
    · cases h

end

/-! ## Both -/

/-- What the conversions of a declaration are. `From` emits one for each tuple and each
extra type, in order. The tuples are distinct, so two conversions have one source just when
an extra type is named twice or is one of the tuples. `Into` emits one for each form that
is asked for and each extra type, of which two agree just when an extra type is named twice,
or is the tuple of the fields and they are given by value. -/
theorem conversions_apart {d : Derive} {support : Support} {decl : Decl} {e : Expansion}
    (h : d.run support decl = .ok e) :
    (find? "From" = some d → ∃ s, Selection.ofDecl decl d.spec = .ok s ∧
      List.Forall₂ (fun i source => Converts i ⟨source, implementor s⟩)
      e.impls (origins s) ∧ ((Carrier.all s).map fun c => tuple c.fields).Nodup ∧
      ((origins s).Nodup ↔ ((Carrier.all s).flatMap (·.extra)).Nodup ∧
        ∀ c ∈ Carrier.all s, ∀ c' ∈ Carrier.all s, tuple c.fields ∉ c'.extra)) ∧
    (find? "Into" = some d → ∃ s fields, Selection.ofDecl decl d.spec = .ok s ∧
      s.shape = .struct fields ∧ List.Forall₂ Converts e.impls (outcomes s fields) ∧
      ((outcomes s fields).Nodup ↔ s.container.types.Nodup ∧
        (.owned ∈ intoForms s → tuple fields ∉ s.container.types))) := by
  constructor
  · intro hd
    cases hd
    obtain ⟨s, hs, hfrom⟩ := of_bind_ok (of_run_entry h)
    have hpath : s.spec.path = Core.fromTrait := by
      rw [(Selection.of_ofDecl hs).2]
      rfl
    have hemitted : List.Forall₂ (fun i source =>
        Converts i ⟨source, implementor s⟩) e.impls
        (origins s) ∧ ((Carrier.all s).map fun c => tuple c.fields).Nodup := by
      split at hfrom
      · next fields hshape =>
          have hall : Carrier.all s = [⟨fields, s.container.types⟩] := by
            simp only [Carrier.all, hshape]
          rw [origins, hall, List.flatMap_singleton]
          exact ⟨converts_fromFields hpath hfrom, List.nodup_singleton _⟩
      · next variants hshape =>
          have hall : Carrier.all s = Carrier.ofVariants (variants.filter (·.enabled)) := by
            simp only [Carrier.all, hshape]
          obtain ⟨hconverts, hnodup, -⟩ := converts_fromVariants hpath hfrom
          rw [origins, hall]
          exact ⟨hconverts, hnodup⟩
    refine ⟨s, hs, hemitted.1, hemitted.2, ?_⟩
    exact (nodup_flatMap_cons _ _ _).trans (and_iff_right hemitted.2)
  · intro hd
    cases hd
    obtain ⟨s, fields, hs, hshape, hconverts⟩ := converts_intoPayload (of_run_entry h)
    exact ⟨s, fields, hs, hshape, hconverts, nodup_outcomes⟩

/-- A variant that is converted from the type that another one holds. -/
theorem conversions_apart_extra : ∃ d decl e s, find? "From" = some d ∧
    (parse "enum E { A(i32), #[from(types(i32))] B(u8) }").file.decls = [decl] ∧
    d.run {} decl = .ok e ∧ Selection.ofDecl decl d.spec = .ok s ∧
    List.Forall₂ (fun i source => Converts i ⟨source, implementor s⟩) e.impls (origins s) ∧
    ¬ (origins s).Nodup := by
  obtain ⟨d, decl, e, s, hd, hdecls, he, hs, hextra⟩ : ∃ d decl e s, find? "From" = some d ∧
      (parse "enum E { A(i32), #[from(types(i32))] B(u8) }").file.decls = [decl] ∧
      d.run {} decl = .ok e ∧ Selection.ofDecl decl d.spec = .ok s ∧
      ¬ ∀ c ∈ Carrier.all s, ∀ c' ∈ Carrier.all s, tuple c.fields ∉ c'.extra :=
    ⟨_, _, _, _, rfl, rfl, rfl, rfl, by decide +kernel⟩
  obtain ⟨s', hs', hemitted, -, hiff⟩ := (conversions_apart he).1 hd
  cases hs.symm.trans hs'
  exact ⟨d, decl, e, s, hd, hdecls, he, hs, hemitted,
    fun hnodup => hextra (hiff.mp hnodup).2⟩

end Deriver.Derive
