import Deriver.Proofs.Derive.Shapes

/-!
# Names in generated code

Main statement: `composed_names`. Whatever a derive puts together for a name in its code
is one identifier: what fields are bound to in patterns, by lines and as parameters, if it
is not the name they are declared by, and what functions for variants are called. A
constant for a discriminant is one identifier just when its variant is declared without
the raw mark, since the mark is taken along; but constants of variants with different
names are different.
-/

namespace Deriver

/-- The names of the constants in the function of an implementation that takes an integer,
in order. -/
def Impl.constants (i : Impl) : List Text :=
  ((i.tryFrom?.getD []).filterMap Code.constant?).map (·.1)

namespace Derive

section

variable {decl : Decl} {spec : TraitSpec} {s : Selection} {impls : List Impl}

/-! ## Names of fields -/

/-- The name that a selected field is declared by is one of the declaration. -/
theorem owns_of_struct {fields : FieldsView} {f : FieldView} {x : Text}
    (hs : Selection.ofDecl decl spec = .ok s) (hshape : s.shape = .struct fields)
    (hf : f ∈ fields.all) (hx : f.field.ident = some x) : decl.data.Owns x := by
  cases hdata : decl.data with
  | union fs => exact absurd hs (Selection.not_ofDecl_union hdata)
  | enum vs =>
      obtain ⟨-, views, henum, -⟩ := Selection.enum_resolves hs hdata
      rw [hshape] at henum
      cases henum
  | struct fs =>
      obtain ⟨-, v, hstruct, hresolves⟩ := Selection.struct_resolves hs hdata
      rw [hshape] at hstruct
      cases hstruct
      exact ⟨f.field, hresolves.members ▸ List.mem_map_of_mem hf, hx⟩

theorem owns_of_enum {views : List VariantView} {w : VariantView} {f : FieldView} {x : Text}
    (hstyled : decl.data.Styled) (hs : Selection.ofDecl decl spec = .ok s)
    (hshape : s.shape = .enum views) (hw : w ∈ views) (hf : f ∈ w.fields.all)
    (hx : f.field.ident = some x) : decl.data.Owns x := by
  obtain ⟨hvariants, hfaithful⟩ := data_of_enum hstyled hs hshape
  have hfield : f.field ∈ w.variant.fields.list :=
    (hfaithful w hw).fields ▸ List.mem_map_of_mem hf
  exact Data.owns_of_variant (hvariants ▸ List.mem_map_of_mem hw) hfield hx

theorem fields_of_written {w : Written} (h : w ∈ written s) :
    s.shape = .struct w.fields ∨
      ∃ views, s.shape = .enum views ∧ ∃ v ∈ views, v.fields = w.fields := by
  have hdebugged (own : Option FormatSpec) (fields : FieldsView) :
      (debugged own fields).fields = fields := by
    cases own <;> rfl
  unfold written displayed at h
  split at h
  all_goals split at h
  · next fields hshape =>
      rw [List.mem_singleton.mp h, hdebugged]
      exact .inl hshape
  · next views hshape =>
      obtain ⟨v, hv, rfl⟩ := List.mem_map.mp h
      exact .inr ⟨views, hshape, v, hv, (hdebugged _ _).symm⟩
  · next fields hshape =>
      rw [List.mem_singleton.mp h]
      exact .inl hshape
  · next views hshape =>
      obtain ⟨v, hv, rfl⟩ := List.mem_map.mp h
      refine .inr ⟨views, hshape, v, hv, ?_⟩
      split <;> rfl

/-- A formatting trait binds fields to the names that they have in formats. -/
theorem binds_of_written {i : Impl} (hstyled : decl.data.Styled)
    (hs : Selection.ofDecl decl spec = .ok s)
    (hbinds : List.Forall₂ Written.Binds (written s) i.scopes) :
    ∀ names ∈ i.scopes, ∀ x ∈ names, decl.data.Binds x := by
  intro names hnames x hx
  obtain ⟨w, hw, hbound⟩ := exists_of_mem_forall₂ hbinds hnames
  obtain ⟨f, hf, rfl⟩ := List.mem_map.mp (hbound.fields.mem hx)
  refine f.word_formatName.imp_right fun hown => ?_
  rcases fields_of_written hw with hshape | ⟨views, hshape, v, hv, heq⟩
  · exact owns_of_struct hs hshape hf hown
  · exact owns_of_enum hstyled hs hshape hv (heq ▸ hf) hown

/-- Whether the parameters of the function `new` have names that fields may be bound to. -/
def Parametrized (decl : Decl) (impls : List Impl) : Prop :=
  ∃ header body, ∃ params : List (Text × Text), impls = [.block header [.inline,
      .block (Text.concat ["pub const fn new(",
        Text.join ", " (params.map fun p => Text.concat [p.1, ": ", p.2]), ") -> Self"])
          body]] ∧
    ∀ p ∈ params, decl.data.Binds p.1

theorem parametrized_constructor (h : constructor decl spec = .ok impls) :
    Parametrized decl impls := by
  obtain ⟨⟨s, fields⟩, hselect, h⟩ := of_bind_ok h
  obtain ⟨hs, hshape⟩ := of_selectStruct_ok hselect
  have hparams : fields.all.map (fun f => Text.concat [paramName f, ": ", f.ty.render]) =
      (fields.all.map fun f => (paramName f, f.ty.render)).map
        fun p => Text.concat [p.1, ": ", p.2] := by
    rw [List.map_map]
    rfl
  dsimp only at h
  rw [hparams] at h
  cases h
  refine ⟨_, _, _, rfl, List.forall_mem_map.mpr fun f hf => ?_⟩
  exact (word_paramName f).imp_right (owns_of_struct hs hshape hf)

/-! ## Names of variants -/

theorem isIdent_of_variants (hnamed : decl.Named) :
    ∀ v ∈ decl.data.variants, IsIdent v.ident := by
  have hdata := hnamed.data
  cases heq : decl.data with
  | enum variants =>
      rw [heq] at hdata
      exact fun v hv => (hdata v hv).1
  | struct | union => exact nofun

theorem word_of_emits {f : Family} (hnamed : decl.Named) (h : f.Emits decl spec impls) :
    ∀ i ∈ impls, ∀ x ∈ i.methods, Word .ident x := by
  obtain ⟨s, variants, i, hs, hshape, rfl, hmethods⟩ := h
  refine List.forall_mem_singleton.mpr fun x hx => ?_
  rw [hmethods] at hx
  obtain ⟨v, hv, hx⟩ := List.mem_flatMap.mp hx
  obtain ⟨form, -, rfl⟩ := List.mem_map.mp hx
  exact Family.word_methodName (isIdent_of_selected hnamed hs hshape v hv) f form

theorem consts_number (base : Text) (offset : Nat) (vs : List Variant) :
    (Discriminant.number base offset vs).map (·.const) =
      (vs.filter (·.fields.list.isEmpty)).map Discriminant.constName := by
  induction vs generalizing base offset with
  | nil => rfl
  | cons v vs ih =>
      rw [Discriminant.number, List.filter_cons]
      dsimp only
      split
      · rw [List.map_cons, List.map_cons, ih]
        rfl
      · exact ih _ _

theorem constants_tryFromRepr {support : Support} (hnamed : decl.Named)
    (h : tryFromRepr support decl spec = .ok impls) : ∃ i, impls = [i] ∧
      i.constants =
        (decl.data.variants.filter (·.fields.list.isEmpty)).map Discriminant.constName := by
  obtain ⟨⟨s, views⟩, -, h⟩ := of_bind_ok h
  cases h
  refine ⟨_, rfl, ?_⟩
  have hconsts := consts_number "0" 0 decl.data.variants
  have hcolon : ∀ d ∈ Discriminant.all decl.data.variants, 58 ∉ d.const := by
    intro d hd
    have hconst := List.mem_map_of_mem (f := fun d : Discriminant => d.const) hd
    rw [Discriminant.all, hconsts] at hconst
    obtain ⟨v, hv, heq⟩ := List.mem_map.mp hconst
    rw [← heq]
    refine fun h => (List.mem_append.mp h).elim (by decide) ?_
    exact (isIdent_of_variants hnamed v (List.mem_of_mem_filter hv)).not_mem
      (by decide) (by decide)
  have hlines := filterMap_constLines hcolon (not_space_repr decl.attrs)
  rw [Impl.constants, tryFrom?_block rfl, Option.getD_some]
  change ((constLines _ (Discriminant.all decl.data.variants) ++ _).filterMap _).map _ = _
  rw [List.filterMap_append, hlines, List.filterMap_cons_none rfl, List.filterMap_nil,
    List.append_nil, List.map_map]
  exact hconsts

end

/-! ## All derives -/

/-- The names that a derive puts together for a declaration, as they stand in its code. -/
structure Composes (d : Derive) (decl : Decl) (impls : List Impl) : Prop where
  /-- what a pattern binds fields to -/
  patterns : ∀ i ∈ impls, ∀ p ∈ i.patterns, ∀ x ∈ p.names, decl.data.Binds x
  /-- what a formatting trait binds fields to -/
  scopes : d ∈ formats → ∀ i ∈ impls, ∀ names ∈ i.scopes, ∀ x ∈ names, decl.data.Binds x
  /-- the parameters of the constructor -/
  parameters : d.name = "Constructor" → Parametrized decl impls
  /-- the functions for variants -/
  methods : ∀ f : Family, d.name = f.derive → ∀ i ∈ impls, ∀ x ∈ i.methods, Word .ident x
  /-- the constants for the variants without fields -/
  constants : d.name = "TryFrom" → ∃ i, impls = [i] ∧
    i.constants = (decl.data.variants.filter (·.fields.list.isEmpty)).map
      Discriminant.constName

/-- The names in the code for a parsed declaration are identifiers, except the constants
of variants with the raw mark. Variants with different names have different constants. -/
theorem composed_names {name source : Text} {d : Derive} {support : Support} {decl : Decl}
    {e : Expansion} (hd : find? name = some d) (hdecl : decl ∈ (parse source).file.decls)
    (h : d.run support decl = .ok e) :
    Composes d decl e.impls ∧ ∀ v ∈ decl.data.variants,
      (Word .ident (Discriminant.constName v) ↔ plainName v.ident = v.ident) ∧
      ∀ w ∈ decl.data.variants,
        Discriminant.constName v = Discriminant.constName w → v.ident = w.ident := by
  have hstyled := styled_of_parse hdecl
  have hnamed := named_of_parse hdecl
  have hmem := List.mem_of_find?_eq_some hd
  have hname : d.name = name := by simpa using List.find?_some hd
  obtain ⟨warnings, hexpand⟩ := of_run_ok h
  refine ⟨⟨fun i hi p hp => ?_, fun hformat => ?_, fun hnew => ?_, fun f hfamily => ?_,
    fun hnumber => ?_⟩, fun v hv => ⟨Discriminant.word_constName_iff
      (isIdent_of_variants hnamed v hv), fun w _ => List.append_cancel_left⟩⟩
  · exact ((declares_of_mem d hmem support hstyled hexpand i hi).patterns p hp).names
  · obtain ⟨s, i, hs, hi, hbinds⟩ := scoped_formats d hformat hnamed.data hstyled h
    rw [hi]
    exact List.forall_mem_singleton.mpr (binds_of_written hstyled hs hbinds)
  · obtain rfl := hname.symm.trans hnew
    cases hd
    exact parametrized_constructor (of_run_entry h)
  · obtain rfl := hname.symm.trans hfamily
    have hemits : f.Emits decl d.spec e.impls := by
      rcases f with _ | (_ | _ | _ | _)
      all_goals cases hd
      · exact emits_isVariant hnamed (of_run_entry h)
      all_goals exact emits_variantAccessors hnamed (of_run_entry h)
    exact word_of_emits hnamed hemits
  · obtain rfl := hname.symm.trans hnumber
    cases hd
    exact constants_tryFromRepr hnamed (of_run_entry h)

/-- The constant of a variant with the raw mark. -/
theorem composed_names_raw : ∃ d decl e v i, find? "TryFrom" = some d ∧
    (parse "enum E \x7b r#type \x7d").file.decls = [decl] ∧ d.run {} decl = .ok e ∧
    v ∈ decl.data.variants ∧ e.impls = [i] ∧ i.constants = [Discriminant.constName v] ∧
    ¬ Word .ident (Discriminant.constName v) := by
  obtain ⟨d, decl, e, v, hd, hdecls, he, hvariants, hnone, hraw⟩ : ∃ d decl e v,
      find? "TryFrom" = some d ∧ (parse "enum E \x7b r#type \x7d").file.decls = [decl] ∧
      d.run {} decl = .ok e ∧ decl.data.variants = [v] ∧ v.fields.list.isEmpty = true ∧
      plainName v.ident ≠ v.ident :=
    ⟨_, _, _, _, rfl, rfl, rfl, rfl, rfl, by decide⟩
  obtain ⟨hcomposes, hvariant⟩ :=
    composed_names hd (hdecls ▸ List.mem_singleton_self decl) he
  have hname : d.name = "TryFrom" := by simpa using List.find?_some hd
  have hv : v ∈ decl.data.variants := hvariants ▸ List.mem_singleton_self v
  obtain ⟨i, hi, hconstants⟩ := hcomposes.constants hname
  rw [hvariants, List.filter_singleton, hnone] at hconstants
  exact ⟨d, decl, e, v, i, hd, hdecls, he, hv, hi, hconstants, mt (hvariant v hv).1.mp hraw⟩

end Derive

end Deriver
