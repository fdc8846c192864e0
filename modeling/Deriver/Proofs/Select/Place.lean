import Deriver.Proofs.Bounds.Header
import Deriver.Proofs.Helper.Place
import Deriver.Select.Basic

/-!
# What takes part at another place

Main statement: `Selection.moves_ofDecl`. The same variants and fields take part in a
derive wherever the declaration stands, and a declaration that is refused is refused
for the same reason.

Below it are the questions that derives ask of a selection. A derive never sees more
of it than these, so what it generates is settled by them.
-/

namespace Deriver

variable (μ : Move)

/-! ## Views -/

/-- The field with its options at another place. -/
def FieldView.place (v : FieldView) : FieldView :=
  { v with field := v.field.place μ.pos, options := v.options.place μ }

/-- The fields at another place. -/
def FieldsView.place (v : FieldsView) : FieldsView :=
  ⟨v.style, v.all.map (FieldView.place μ)⟩

/-- The variant with its options and fields at another place. -/
def VariantView.place (v : VariantView) : VariantView :=
  { v with variant := v.variant.place μ.pos, options := v.options.place μ
           fields := v.fields.place μ }

/-- What a selected declaration holds, at another place. -/
def ShapeView.place : ShapeView → ShapeView
  | .struct fields => .struct (fields.place μ)
  | .enum variants => .enum (variants.map (VariantView.place μ))

namespace FieldView

variable (v : FieldView)

@[simp] theorem name_place : (v.place μ).name = v.name := rfl

@[simp] theorem ty_place : (v.place μ).ty = v.ty.place μ.pos := rfl

@[simp] theorem index_place : (v.place μ).index = v.index := rfl

@[simp] theorem enabled_place : (v.place μ).enabled = v.enabled := rfl

@[simp] theorem forward_place : (v.place μ).forward = v.forward := rfl

@[simp] theorem ident_place : (v.place μ).field.ident = v.field.ident := rfl

@[simp] theorem options_place : (v.place μ).options = v.options.place μ := rfl

@[simp] theorem of_place (value : Text) : (v.place μ).of value = v.of value := rfl

@[simp] theorem member_place : (v.place μ).member = v.member := rfl

@[simp] theorem binding_place (tag : Text) : (v.place μ).binding tag = v.binding tag := rfl

end FieldView

namespace FieldsView

variable (v : FieldsView)

@[simp] theorem style_place : (v.place μ).style = v.style := rfl

@[simp] theorem all_place : (v.place μ).all = v.all.map (FieldView.place μ) := rfl

@[simp] theorem enabled_place :
    (v.place μ).enabled = v.enabled.map (FieldView.place μ) := by
  simp only [enabled, all_place, List.filter_map, Function.comp_def,
    FieldView.enabled_place]

@[simp] theorem skipped_place :
    (v.place μ).skipped = v.skipped.map (FieldView.place μ) := by
  simp only [skipped, all_place, List.filter_map, Function.comp_def,
    FieldView.enabled_place]

@[simp] theorem types_place : (v.place μ).types = v.types.map (Ty.place μ.pos) := by
  simp only [types, enabled_place, List.map_map, Function.comp_def, FieldView.ty_place]

@[simp] theorem rank_place (f : FieldView) : (v.place μ).rank (f.place μ) = v.rank f := by
  simp only [rank, enabled_place, List.filter_map, Function.comp_def, List.length_map]
  rfl

@[simp] theorem isUnit_place : (v.place μ).isUnit = v.isUnit := by
  simp only [isUnit, all_place, List.isEmpty_map]

theorem patternWith_place (path : Text) (entry : FieldView → Pat) :
    (v.place μ).patternWith path entry = v.patternWith path fun f => entry (f.place μ) := by
  simp only [patternWith, style_place, all_place, List.map_map, Function.comp_def,
    FieldView.name_place]

@[simp] theorem pattern_place (path tag : Text) :
    (v.place μ).pattern path tag = v.pattern path tag := by
  simp only [pattern, patternWith_place, FieldView.binding_place]

@[simp] theorem patternEnabled_place (path tag : Text) :
    (v.place μ).patternEnabled path tag = v.patternEnabled path tag := by
  simp only [patternEnabled, style_place, all_place, enabled_place,
    skipped_place, List.map_map, Function.comp_def, List.isEmpty_map]
  rfl

@[simp] theorem construct_place (path : Text) (expr : FieldView → Text) :
    (v.place μ).construct path expr = v.construct path fun f => expr (f.place μ) := by
  simp only [construct, style_place, all_place, List.map_map, Function.comp_def,
    FieldView.name_place]

end FieldsView

theorem Variant.anyPattern_place (f : Position → Position) (v : Variant) (path : Text) :
    (v.place f).fields.anyPattern path = v.fields.anyPattern path := rfl

namespace VariantView

variable (v : VariantView)

@[simp] theorem name_place : (v.place μ).name = v.name := rfl

@[simp] theorem path_place : (v.place μ).path = v.path := rfl

@[simp] theorem enabled_place : (v.place μ).enabled = v.enabled := rfl

@[simp] theorem accessors_place : (v.place μ).accessors = v.accessors := rfl

@[simp] theorem fields_place : (v.place μ).fields = v.fields.place μ := rfl

@[simp] theorem options_place : (v.place μ).options = v.options.place μ := rfl

@[simp] theorem pos_place : (v.place μ).variant.pos = μ.pos v.variant.pos := rfl

@[simp] theorem anyPattern_place : (v.place μ).anyPattern = v.anyPattern := rfl

end VariantView

theorem ShapeView.types_place (s : ShapeView) :
    (s.place μ).types = s.types.map (Ty.place μ.pos) := by
  cases s with
  | struct fields => exact fields.types_place μ
  | enum variants =>
      simp only [place, types, List.flatMap_map, List.map_flatMap, VariantView.fields_place,
        FieldsView.types_place]

/-! ## Selecting -/

namespace Selection

variable {μ} {spec : TraitSpec}

theorem takesPart_place (own : Options) (optedIn : Bool) :
    takesPart (own.place μ) optedIn = takesPart own optedIn := rfl

theorem any_optsIn_place (own : List Options) :
    (own.map (Options.place μ)).any (·.optsIn) = own.any (·.optsIn) := by
  rw [List.any_map]
  rfl

theorem mapIdx_map {α β γ δ : Type} {κ : α → β} (κ' : γ → δ) {g : Nat → α → γ}
    {g' : Nat → β → δ} (h : ∀ i a, g' i (κ a) = κ' (g i a)) (as : List α) :
    (as.map κ).mapIdx g' = (as.mapIdx g).map κ' := by
  refine List.ext_getElem? fun i => ?_
  simp only [List.getElem?_mapIdx, List.getElem?_map, Option.map_map, Function.comp_def, h]

theorem moves_fieldOptions (fields : List Field) :
    MovesIn μ (List.map (Options.place μ)) (fieldOptions spec fields)
      (fieldOptions spec (fields.map (Field.place μ.pos))) := by
  have hfields : (fields.map (Field.place μ.pos)).mapIdx (fun i f => (i, f)) =
      (fields.mapIdx fun i f => (i, f)).map (Prod.map id (Field.place μ.pos)) := by
    rw [mapIdx_map]
    exact fun _ _ => rfl
  unfold fieldOptions
  rw [hfields]
  refine Moves.mapM _ fun p _ => ?_
  obtain ⟨i, f⟩ := p
  refine (Options.moves_ofAttributes f.attrs spec.attrs .field spec.params).mapError
    fun e => ?_
  cases e <;> rfl

theorem moves_viewFields (inherited : Bool) (fields : Fields) :
    MovesIn μ (FieldsView.place μ) (viewFields spec inherited fields)
      (viewFields spec inherited (fields.place μ.pos)) := by
  unfold viewFields
  refine .bind (moves_fieldOptions fields.list) fun own _ => .ok_of_eq ?_
  rw [any_optsIn_place]
  simp only [Fields.place, FieldsView.place, List.zip_map]
  rw [mapIdx_map (FieldView.place μ)]
  exact fun _ _ => rfl

theorem moves_viewVariant (container : Options) (optedIn : Bool) (v : Variant)
    (own : Options) :
    MovesIn μ (VariantView.place μ) (viewVariant spec container optedIn v own)
      (viewVariant spec (container.place μ) optedIn (v.place μ.pos) (own.place μ)) := by
  unfold viewVariant
  refine .bind ((moves_viewFields _ v.fields).mapError ?_) fun fields _ => .ok_of_eq ?_
  · intro e
    cases e <;> rfl
  · rw [takesPart_place]
    unfold VariantView.place
    split
    · rfl
    · simp only [FieldsView.place, List.map_map, Function.comp_def]
      rfl

theorem moves_viewVariants (container : Options) (variants : List Variant) :
    MovesIn μ (List.map (VariantView.place μ)) (viewVariants spec container variants)
      (viewVariants spec (container.place μ) (variants.map (Variant.place μ.pos))) := by
  unfold viewVariants
  refine .bind (show MovesIn μ (List.map (Options.place μ)) _ _ from
    Moves.mapM variants fun v _ => ?_) fun own _ => ?_
  · refine (Options.moves_ofAttributes v.attrs spec.attrs .variant spec.params).mapError
      fun e => ?_
    cases e <;> rfl
  · rw [any_optsIn_place, List.zip_map]
    exact Moves.mapM _ fun (v, o) _ => moves_viewVariant container _ v o

variable (μ) (n : Nat)

/-- The selection at another place. -/
def place (s : Selection) : Selection :=
  ⟨s.decl.place μ.pos n, s.spec, s.container.place μ, s.shape.place μ⟩

theorem diagnose_place (spec : TraitSpec) (decl : Decl) (e : HelperFault) :
    diagnose spec (decl.place μ.pos n) (e.map (Diagnostic.move μ)) =
      (diagnose spec decl e).move μ := by
  cases e with
  | diagnostic d =>
      simp only [HelperFault.map, diagnose, aboutDecl]
      rw [show (d.move μ).trait = d.trait from rfl]
      split <;> rfl
  | noFormatText => exact Position.diagnose_move μ ..

variable {μ n}

theorem moves_ofDecl (decl : Decl) :
    MovesBy μ (place μ n) (ofDecl decl spec) (ofDecl (decl.place μ.pos n) spec) := by
  obtain ⟨attrs, vis, name, generics, data, derives, pos, first, stop⟩ := decl
  unfold ofDecl
  cases data with
  | union fields => exact .error_of_eq (Position.diagnose_move μ ..)
  | struct fields =>
      refine Moves.mapError (show MovesIn μ _ _ _ from ?_) (diagnose_place μ n spec _)
      refine .bind (Options.moves_ofAttributes attrs _ _ _) fun container _ => ?_
      exact .bind (moves_viewFields _ fields) fun view _ => .ok _
  | enum variants =>
      refine Moves.mapError (show MovesIn μ _ _ _ from ?_) (diagnose_place μ n spec _)
      refine .bind (Options.moves_ofAttributes attrs _ _ _) fun container _ => ?_
      exact .bind (moves_viewVariants _ variants) fun views _ => .ok _

end Selection

/-! ## Asking -/

section Asking

variable {μ} {n : Nat} {s : Selection}

@[simp] theorem Selection.spec_place : (s.place μ n).spec = s.spec := rfl

@[simp] theorem Selection.decl_place : (s.place μ n).decl = s.decl.place μ.pos n := rfl

@[simp] theorem Selection.container_place :
    (s.place μ n).container = s.container.place μ := rfl

@[simp] theorem Selection.shape_place : (s.place μ n).shape = s.shape.place μ := rfl

@[simp] theorem Selection.generics_place :
    (s.place μ n).generics = s.generics.place μ.pos := rfl

theorem Selection.refuse_place (cause : Text → Text → Cause) :
    (s.place μ n).refuse cause = (s.refuse cause).move μ := Position.diagnose_move μ ..

theorem Decl.argOf_place (f : Position → Position) (p : GenericParam) :
    (argOf (p.place f)).render = (argOf p).render := by
  obtain ⟨kind, name, _⟩ := p
  cases kind <;> rfl

theorem Decl.selfType_place (f : Position → Position) (d : Decl) :
    (d.place f n).selfType.Alike d.selfType := by
  have hargs : (d.generics.params.map fun p => (argOf (p.place f)).render) =
      d.generics.params.map fun p => (argOf p).render :=
    List.map_congr_left fun p _ => argOf_place f p
  have hrender (as : List GenericArg) : renderArgs as = as.map GenericArg.render := by
    induction as with
    | nil => rfl
    | cons a as ih => rw [renderArgs, ih, List.map_cons]
  have hsegment : ∀ args args' : List GenericArg,
      args'.map GenericArg.render = args.map GenericArg.render →
        (Segment.mk d.name (.angled args')).render =
          (Segment.mk d.name (.angled args)).render := by
    intro args args' h
    have hempty : args'.isEmpty = args.isEmpty := by
      have := congrArg List.isEmpty h
      simpa using this
    simp only [Segment.render, hrender, h, hempty]
  have h : ((d.place f n).generics.params.map argOf).map GenericArg.render =
      (d.generics.params.map argOf).map GenericArg.render := by
    simp only [place, Generics.place, List.map_map, Function.comp_def]
    exact hargs
  have hnone : (d.place f n).generics.params.isEmpty = d.generics.params.isEmpty := by
    simp only [place, Generics.place, List.isEmpty_map]
  have hname : (d.place f n).name = d.name := rfl
  unfold selfType selfPath
  rw [hnone, hname]
  split
  · exact ⟨rfl, rfl⟩
  · have hseg := hsegment _ _ h
    refine ⟨?_, ?_⟩
    · simp only [Ty.render, Path.render, renderSegments, hseg]
    · simp only [Ty.lastSegment, List.getLast?_singleton, Option.map_some, hseg]

theorem Selection.self_place : (s.place μ n).self.Alike s.self :=
  s.decl.selfType_place μ.pos

@[simp] theorem Selection.render_self_place : (s.place μ n).self.render = s.self.render :=
  self_place.render

@[simp] theorem Selection.addFieldBounds_place (g : ImplGenerics) (ts : List Ty)
    {bound : Ty → Text} (hbound : ∀ t, bound (t.place μ.pos) = bound t) :
    (g.place μ.pos).addFieldBounds (ts.map (Ty.place μ.pos)) (s.place μ n).self bound =
      (g.addFieldBounds ts s.self bound).place μ.pos :=
  g.addFieldBounds_place μ.pos self_place ts hbound

@[simp] theorem Selection.addFieldBound_place (g : ImplGenerics) (t : Ty)
    {bound : Ty → Text} (hbound : ∀ t, bound (t.place μ.pos) = bound t) :
    (g.place μ.pos).addFieldBounds [t.place μ.pos] (s.place μ n).self bound =
      (g.addFieldBounds [t] s.self bound).place μ.pos :=
  addFieldBounds_place g [t] hbound

@[simp] theorem Selection.addBound_self_place (g : ImplGenerics) (bound : Text) :
    (g.place μ.pos).addBound (s.place μ n).self bound =
    (g.addBound s.self bound).place μ.pos := by
  rw [ImplGenerics.addBound, render_self_place, ImplGenerics.addPredicate_place]
  rfl

/-- A field that is passed on to, at another place. -/
def SingleField.place (μ : Move) (s : SingleField) : SingleField :=
  { s with field := s.field.place μ }

@[simp] theorem SingleField.field_place (s : SingleField) :
    (s.place μ).field = s.field.place μ := rfl

@[simp] theorem SingleField.casted_place (s : SingleField) :
    (s.place μ).casted = s.casted := by
  rw [casted, casted, field_place, FieldView.ty_place, Ty.render_place]
  rfl

namespace Selection

theorem moves_structFields :
    MovesBy μ (FieldsView.place μ) s.structFields (s.place μ n).structFields := by
  unfold structFields
  rw [shape_place]
  cases s.shape with
  | struct fields => exact .ok fields
  | enum variants => exact .error_of_eq (refuse_place _)

theorem moves_enumVariants :
    MovesBy μ (List.map (VariantView.place μ)) s.enumVariants
    (s.place μ n).enumVariants := by
  unfold enumVariants
  rw [shape_place]
  cases s.shape with
  | struct fields => exact .error_of_eq (refuse_place _)
  | enum variants => exact .ok variants

theorem moves_someFields :
    MovesBy μ (FieldsView.place μ) s.someFields (s.place μ n).someFields := by
  unfold someFields
  refine .bind moves_structFields fun fields _ => ?_
  simp only [FieldsView.isUnit_place, FieldsView.enabled_place, List.isEmpty_map]
  refine .ite (fun _ => .error_of_eq (refuse_place _)) fun _ => ?_
  exact .ite (fun _ => .error_of_eq (refuse_place _)) fun _ => .ok fields

theorem moves_singleOf (fields : FieldsView) (subject : Text) :
    MovesBy μ (SingleField.place μ) (s.singleOf fields subject)
      ((s.place μ n).singleOf (fields.place μ) subject) := by
  unfold singleOf
  rw [FieldsView.enabled_place]
  match fields.enabled with
  | [f] =>
      refine .ok_of_eq ?_
      rw [generics_place, ImplGenerics.parts_place]
      rfl
  | [] => exact .error_of_eq (Position.diagnose_move μ ..)
  | f :: f' :: fs =>
      refine .error_of_eq ?_
      simp only [List.length_cons, List.length_map]
      exact Position.diagnose_move μ ..

theorem moves_singleField :
    MovesBy μ (SingleField.place μ) s.singleField (s.place μ n).singleField := by
  unfold singleField
  refine .bind moves_structFields fun fields _ => ?_
  rw [FieldsView.isUnit_place]
  exact .ite (fun _ => .error_of_eq (refuse_place _)) fun _ => moves_singleOf fields _

theorem moves_variantField (v : VariantView) :
    MovesBy μ (SingleField.place μ) (s.variantField v)
    ((s.place μ n).variantField (v.place μ)) :=
  moves_singleOf v.fields _

end Selection

end Asking

end Deriver
