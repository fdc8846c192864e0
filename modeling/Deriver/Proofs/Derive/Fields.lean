import Deriver.Derive.Access
import Deriver.Derive.Arithmetic
import Deriver.Derive.Construction
import Deriver.Derive.Error
import Deriver.Proofs.Select.Place

/-!
# Derives that work field by field, at another place

Operators, access through a field, constructors, comparisons and errors generate the
same for a declaration at another place. What they generate from a selection is the
same, and the diagnostics they give on the way are moved.
-/

namespace Deriver.Derive

variable {μ : Move} {n : Nat} {decl : Decl} {spec : TraitSpec} {s : Selection}

/-! ## Asking for a shape -/

theorem wrongShape_place (reason : Text) :
    wrongShape (decl.place μ.pos n) spec reason = (wrongShape decl spec reason).move μ :=
  Position.diagnose_move μ ..

theorem isEnum_place : (decl.place μ.pos n).isEnum = decl.isEnum := by
  obtain ⟨_, _, _, _, data, _⟩ := decl
  cases data <;> rfl

theorem moves_selectStruct :
    MovesBy μ (Prod.map (Selection.place μ n) (FieldsView.place μ)) (selectStruct decl spec)
      (selectStruct (decl.place μ.pos n) spec) := by
  unfold selectStruct
  rw [isEnum_place]
  refine .ite (fun _ => .error_of_eq (wrongShape_place _)) fun _ => ?_
  refine .bind (Selection.moves_ofDecl decl) fun s _ => ?_
  exact .bind Selection.moves_structFields fun fields _ => .ok (s, fields)

theorem moves_selectFields :
    MovesBy μ (Prod.map (Selection.place μ n) (FieldsView.place μ)) (selectFields decl spec)
      (selectFields (decl.place μ.pos n) spec) := by
  unfold selectFields
  refine .bind moves_selectStruct fun (s, _) _ => ?_
  exact .bind Selection.moves_someFields fun fields _ => .ok (s, fields)

theorem moves_selectEnum :
    MovesBy μ (Prod.map (Selection.place μ n) (List.map (VariantView.place μ)))
      (selectEnum decl spec) (selectEnum (decl.place μ.pos n) spec) := by
  obtain ⟨attrs, vis, name, generics, data, derives, pos, first, stop⟩ := decl
  unfold selectEnum
  cases data with
  | struct _ => exact .error_of_eq (wrongShape_place _)
  | enum _ | union _ =>
      refine .bind (Selection.moves_ofDecl _) fun s _ => ?_
      exact .bind Selection.moves_enumVariants fun variants _ => .ok (s, variants)

/-! ## What derives build with -/

@[simp] theorem decl_name_place : (decl.place μ.pos n).name = decl.name := rfl

@[simp] theorem typeNames_decl_place :
    (decl.place μ.pos n).generics.typeNames = decl.generics.typeNames :=
  decl.generics.typeNames_place μ.pos

@[simp] theorem closedUnder_place (trait : Text) (t : Ty) :
    closedUnder trait (t.place μ.pos) = closedUnder trait t := by
  rw [closedUnder, closedUnder, Ty.render_place]

@[simp] theorem closedUnder_self_place (trait : Text) :
    closedUnder trait (s.place μ n).self = closedUnder trait s.self := by
  rw [closedUnder, closedUnder, Selection.render_self_place]

@[simp] theorem map_ty_place (fs : List FieldView) :
    (fs.map (FieldView.place μ)).map (·.ty) = (fs.map (·.ty)).map (Ty.place μ.pos) := by
  simp only [List.map_map, Function.comp_def, FieldView.ty_place]

@[simp] theorem flatMap_types_place (vs : List VariantView) :
    (vs.map (VariantView.place μ)).flatMap (·.fields.types) =
      (vs.flatMap (·.fields.types)).map (Ty.place μ.pos) := by
  simp only [List.flatMap_map, List.map_flatMap, VariantView.fields_place,
    FieldsView.types_place]

@[simp] theorem filter_enabled_place (vs : List VariantView) :
    (vs.map (VariantView.place μ)).filter (·.enabled) =
      (vs.filter (·.enabled)).map (VariantView.place μ) := by
  rw [List.filter_map]
  rfl

/-! ## Operators -/

theorem addStruct_place (v : FieldsView) :
    addStruct (s.place μ n) (v.place μ) = addStruct s v := by
  simp [addStruct, -List.map_map]
  rfl

theorem addArm_place (support : Support) (v : VariantView) :
    addArm support spec (v.place μ) = addArm support spec v := by
  simp [addArm]

theorem moves_addEnum (support : Support) (vs : List VariantView) :
    MovesBy μ id (addEnum support s vs)
      (addEnum support (s.place μ n) (vs.map (VariantView.place μ))) := by
  unfold addEnum
  simp only [List.find?_map, Function.comp_def, VariantView.fields_place,
    FieldsView.skipped_place, List.isEmpty_map]
  cases vs.find? fun v => !v.fields.skipped.isEmpty with
  | some v => exact .error_of_eq (wrongShape_place _)
  | none =>
      refine .ok_of_eq ?_
      simp [Function.comp_def, addArm_place]

theorem moves_addLike (support : Support) :
    MovesBy μ id (addLike support decl spec)
    (addLike support (decl.place μ.pos n) spec) := by
  unfold addLike
  refine .bind (Selection.moves_ofDecl decl) fun s _ => ?_
  rw [Selection.shape_place]
  cases s.shape with
  | struct _ =>
      exact .bind Selection.moves_someFields fun v _ => .ok_of_eq (addStruct_place v)
  | enum vs => exact moves_addEnum support vs

theorem scalarBounds_place (g : ImplGenerics) (v : FieldsView) {bound : Ty → Text}
    (hbound : ∀ t, bound (t.place μ.pos) = bound t) :
    scalarBounds (g.place μ.pos) (v.place μ) bound =
    (scalarBounds g v bound).place μ.pos := by
  have hfold (ts : List Ty) (g : ImplGenerics) :
      (ts.map (Ty.place μ.pos)).foldl (fun g t => g.addBound t (bound t)) (g.place μ.pos) =
        (ts.foldl (fun g t => g.addBound t (bound t)) g).place μ.pos := by
    induction ts generalizing g with
    | nil => rfl
    | cons t ts ih =>
        rw [List.map_cons, List.foldl_cons, List.foldl_cons, hbound,
          ImplGenerics.addBound_place, ih]
  unfold scalarBounds
  rw [FieldsView.types_place, Ty.distinct_place, ImplGenerics.addParam_place, hfold,
    FieldsView.enabled_place, List.length_map]
  dsimp only
  rw [ImplGenerics.addParamBound_place]
  split <;> rfl

theorem moves_mulLike :
    MovesBy μ id (mulLike decl spec) (mulLike (decl.place μ.pos n) spec) := by
  unfold mulLike
  refine .bind moves_selectFields fun (s, v) _ => .ok_of_eq ?_
  simp [scalarBounds_place, Ty.render_place]
  rfl

theorem notArm_place (support : Support) (hasUnit : Bool) (v : VariantView) :
    notArm support spec hasUnit (v.place μ) = notArm support spec hasUnit v := by
  simp [notArm]

theorem moves_notLike (support : Support) :
    MovesBy μ id (notLike support decl spec)
    (notLike support (decl.place μ.pos n) spec) := by
  unfold notLike
  refine .bind (Selection.moves_ofDecl decl) fun s _ => ?_
  rw [Selection.shape_place]
  cases s.shape with
  | struct _ =>
      refine .bind Selection.moves_someFields fun v _ => .ok_of_eq ?_
      simp
  | enum vs =>
      refine .ok_of_eq ?_
      simp [Function.comp_def, notArm_place]

theorem moves_assignLike (isScalar : Bool) :
    MovesBy μ id (assignLike isScalar decl spec)
    (assignLike isScalar (decl.place μ.pos n) spec) := by
  unfold assignLike
  refine .bind moves_selectFields fun (s, v) _ => .ok_of_eq ?_
  cases isScalar <;> simp [scalarBounds_place, Function.comp_def]

theorem moves_fold (path method : Text) :
    MovesBy μ id (fold path method decl spec)
    (fold path method (decl.place μ.pos n) spec) := by
  unfold fold
  refine .bind moves_selectFields fun (s, v) _ => .ok_of_eq ?_
  by_cases h : decl.generics.typeNames.isEmpty = true <;> simp [h, Ty.render_place]

/-! ## Access -/

/-- What a value dereferences to, at another place. -/
def DerefTarget.place (μ : Move) (t : DerefTarget) : DerefTarget :=
  { t with field := t.field.place μ }

namespace DerefTarget

@[simp] theorem ofField_place (f : FieldView) :
    ofField (f.place μ) = (ofField f).place μ := by
  unfold ofField
  rw [FieldView.forward_place, FieldView.ty_place, Ty.render_place]
  split <;> rfl

@[simp] theorem project_place (isMut : Bool) (t : DerefTarget) (ref : Text) :
    (t.place μ).project isMut ref = t.project isMut ref := by
  simp [project, place, Ty.render_place]

@[simp] theorem bound_place (isMut : Bool) (g : ImplGenerics) (t : DerefTarget) :
    (t.place μ).bound isMut (s.place μ n) (g.place μ.pos) =
    (t.bound isMut s g).place μ.pos := by
  unfold bound
  rw [show (t.place μ).field = t.field.place μ from rfl, FieldView.forward_place]
  split
  · exact Selection.addFieldBounds_place g [t.field.ty] fun _ => rfl
  · rfl

end DerefTarget

theorem moves_derefTargets (vs : List VariantView) :
    MovesBy μ (List.map (Prod.map (VariantView.place μ) (DerefTarget.place μ)))
    (derefTargets s vs) (derefTargets (s.place μ n) (vs.map (VariantView.place μ))) := by
  have hall (first : DerefTarget) :
      MovesBy μ (List.map (Prod.map (VariantView.place μ) (DerefTarget.place μ)))
        (vs.mapM fun v => do
          let t := DerefTarget.ofField (← s.variantField v).field
          if t.type != first.type then
            throw (v.variant.pos.diagnose
              (.nonUniform s.spec.name s.decl.name "dereference target"
              first.shown (Text.concat [t.shown, " in ", tick v.name])))
          return (v, t))
        ((vs.map (VariantView.place μ)).mapM fun v => do
          let t := DerefTarget.ofField (← (s.place μ n).variantField v).field
          if t.type != (first.place μ).type then
            throw (v.variant.pos.diagnose (.nonUniform (s.place μ n).spec.name
              (s.place μ n).decl.name "dereference target" (first.place μ).shown
              (Text.concat [t.shown, " in ", tick v.name])))
          return (v, t)) := by
    refine Moves.mapM vs fun v _ => .bind (Selection.moves_variantField v)
      fun single _ => ?_
    simp only [SingleField.field_place, DerefTarget.ofField_place]
    refine .ite (fun _ => ?_) fun _ => .ok _
    exact .error_of_eq (Position.diagnose_move μ ..)
  unfold derefTargets
  cases vs with
  | nil => exact .error_of_eq (wrongShape_place _)
  | cons v vs =>
      refine .bind (Selection.moves_variantField v) fun single _ => ?_
      simp only [SingleField.field_place, DerefTarget.ofField_place]
      exact hall _

theorem derefImpl_place (isMut : Bool) (g : ImplGenerics) (target : Text)
    (body : List Code) :
    derefImpl isMut (g.place μ.pos) (s.place μ n) target body =
    derefImpl isMut g s target body := by
  simp [derefImpl]

theorem foldl_bound_place (isMut : Bool) (g : ImplGenerics)
    (ts : List (VariantView × DerefTarget)) :
    (ts.map (Prod.map (VariantView.place μ) (DerefTarget.place μ))).foldl
        (fun g (_, t) => t.bound isMut (s.place μ n) g) (g.place μ.pos) =
      (ts.foldl (fun g (_, t) => t.bound isMut s g) g).place μ.pos := by
  induction ts generalizing g with
  | nil => rfl
  | cons t ts ih =>
      rw [List.map_cons, List.foldl_cons, List.foldl_cons, ← ih, ← DerefTarget.bound_place]
      rfl

theorem moves_deref (isMut : Bool) :
    MovesBy μ id (deref isMut decl spec) (deref isMut (decl.place μ.pos n) spec) := by
  unfold deref
  refine .bind (Selection.moves_ofDecl decl) fun s _ => ?_
  rw [Selection.shape_place]
  cases s.shape with
  | struct _ =>
      refine .bind Selection.moves_singleField fun single _ => .ok_of_eq ?_
      simp [SingleField.place, derefImpl_place]
      rfl
  | enum vs =>
      refine .bind (moves_derefTargets vs) fun ts _ => .ok_of_eq ?_
      simp only [Selection.generics_place, foldl_bound_place, derefImpl_place, List.map_map,
        Function.comp_def, Prod.map, List.head?_map, Option.map_map,
        VariantView.fields_place, FieldsView.patternEnabled_place,
        DerefTarget.project_place, VariantView.path_place]
      rfl

theorem moves_derefToInner (isMut : Bool) :
    MovesBy μ id (derefToInner isMut decl spec)
    (derefToInner isMut (decl.place μ.pos n) spec) := by
  unfold derefToInner
  refine .bind moves_selectStruct fun (s, _) _ => ?_
  refine .bind Selection.moves_singleField fun single _ => .ok_of_eq ?_
  simp [SingleField.place, derefImpl_place, Ty.render_place]

theorem moves_indexedFields (vs : List VariantView) :
    MovesBy μ (List.map (Prod.map (VariantView.place μ) (FieldView.place μ)))
    (indexedFields s vs)
      (indexedFields (s.place μ n) (vs.map (VariantView.place μ))) := by
  have hall (first : Ty) :
      MovesBy μ (List.map (Prod.map (VariantView.place μ) (FieldView.place μ)))
        (vs.mapM fun v => do
          let f := (← s.variantField v).field
          if !f.ty.same first then
            throw (v.variant.pos.diagnose
              (.nonUniform s.spec.name s.decl.name "indexed field type"
              (tick first.render) (Text.concat [tick f.ty.render, " in ", tick v.name])))
          return (v, f))
        ((vs.map (VariantView.place μ)).mapM fun v => do
          let f := (← (s.place μ n).variantField v).field
          if !f.ty.same (first.place μ.pos) then
            throw (v.variant.pos.diagnose (.nonUniform (s.place μ n).spec.name
              (s.place μ n).decl.name "indexed field type" (tick (first.place μ.pos).render)
              (Text.concat [tick f.ty.render, " in ", tick v.name])))
          return (v, f)) := by
    refine Moves.mapM vs fun v _ => .bind (Selection.moves_variantField v)
      fun single _ => ?_
    simp only [SingleField.field_place, FieldView.ty_place, Ty.same, Ty.render_place]
    refine .ite (fun _ => ?_) fun _ => .ok _
    exact .error_of_eq (Position.diagnose_move μ ..)
  unfold indexedFields
  cases vs with
  | nil => exact .error_of_eq (wrongShape_place _)
  | cons v vs => exact .bind (Selection.moves_variantField v) fun single _ => hall _

theorem moves_index (isMut : Bool) :
    MovesBy μ id (index isMut decl spec) (index isMut (decl.place μ.pos n) spec) := by
  unfold index
  refine .bind (Selection.moves_ofDecl decl) fun s _ => ?_
  rw [Selection.shape_place]
  cases s.shape with
  | struct _ =>
      refine .bind Selection.moves_singleField fun single _ => .ok_of_eq ?_
      simp [Ty.render_place]
  | enum vs =>
      refine .bind (moves_indexedFields vs) fun fields _ => .ok_of_eq ?_
      cases fields with
      | nil =>
          -- no field gives the type, so it stands nowhere
          have hinfer (g : ImplGenerics) (bound : Text) :
              (g.place μ.pos).addBound (.infer .unknown) bound =
                (g.addBound (.infer .unknown) bound).place μ.pos :=
                  g.addPredicate_place μ.pos _
          simp [hinfer]
      | cons f fields => simp [Ty.render_place, Function.comp_def]

theorem moves_iterator :
    MovesBy μ id (iterator decl spec) (iterator (decl.place μ.pos n) spec) := by
  unfold iterator
  refine .bind moves_selectStruct fun (s, _) _ => ?_
  refine .bind Selection.moves_singleField fun single _ => .ok_of_eq ?_
  simp

@[simp] theorem generics_form_place (form : RefForm) (g : ImplGenerics) :
    form.generics (g.place μ.pos) = (form.generics g).place μ.pos := by
  unfold RefForm.generics
  split
  · rfl
  · exact g.addParam_place μ.pos _

theorem intoIteratorIn_place (f : FieldView) (form : RefForm) :
    intoIteratorIn (s.place μ n) (f.place μ) form = intoIteratorIn s f form := by
  have hmentions : (f.place μ).ty.mentions (s.place μ n).decl.generics =
      f.ty.mentions s.decl.generics := f.ty.mentions_place μ.pos s.decl.generics
  have hself : (f.place μ).ty.containsSubject (s.place μ n).self =
      f.ty.containsSubject s.self :=
    Ty.containsSubject_place μ.pos Selection.self_place f.ty
  unfold intoIteratorIn
  rw [hmentions, hself]
  split <;> simp [Ty.render_place]

theorem moves_intoIterator :
    MovesBy μ id (intoIterator decl spec) (intoIterator (decl.place μ.pos n) spec) := by
  unfold intoIterator
  refine .bind moves_selectStruct fun (s, _) _ => ?_
  refine .bind Selection.moves_singleField fun single _ => .ok_of_eq ?_
  rw [SingleField.field_place]
  exact List.map_congr_left fun form _ => intoIteratorIn_place single.field form

theorem foldl_addFieldBounds_place (bound : Text) (g : ImplGenerics)
    (fields : List (VariantView × FieldView)) :
    (fields.map (Prod.map (VariantView.place μ) (FieldView.place μ))).foldl
        (fun g (_, f) => g.addFieldBounds [f.ty] (s.place μ n).self fun _ => bound)
        (g.place μ.pos) =
      (fields.foldl (fun g (_, f) => g.addFieldBounds [f.ty] s.self fun _ => bound) g).place
        μ.pos := by
  induction fields generalizing g with
  | nil => rfl
  | cons f fields ih =>
      rw [List.map_cons, List.foldl_cons, List.foldl_cons, ← ih,
        ← Selection.addFieldBound_place (n := n) g f.2.ty fun _ => rfl]
      rfl

theorem moves_read : MovesBy μ id (read decl spec) (read (decl.place μ.pos n) spec) := by
  unfold read
  refine .bind (Selection.moves_ofDecl decl) fun s _ => ?_
  rw [Selection.shape_place]
  cases s.shape with
  | struct _ =>
      refine .bind Selection.moves_singleField fun single _ => .ok_of_eq ?_
      simp [Ty.render_place]
  | enum vs =>
      refine .bind
        (show MovesBy μ (List.map (Prod.map (VariantView.place μ) (FieldView.place μ)))
        _ _ from ?_) fun fields _ => .ok_of_eq ?_
      · refine Moves.mapM vs fun v _ => ?_
        exact .bind (Selection.moves_variantField v) fun single _ => .ok _
      · simp [foldl_addFieldBounds_place, Ty.render_place, Function.comp_def]

/-! ## Construction and equality -/

theorem paramName_place (f : FieldView) : paramName (f.place μ) = paramName f := rfl

theorem moves_constructor :
    MovesBy μ id (constructor decl spec) (constructor (decl.place μ.pos n) spec) := by
  unfold constructor
  refine .bind moves_selectStruct fun (s, v) _ => .ok_of_eq ?_
  by_cases h : v.style = .named <;>
    simp [h, Function.comp_def, paramName_place, Ty.render_place]

theorem moves_defaultVariant (vs : List VariantView) :
    MovesBy μ (VariantView.place μ) (defaultVariant decl spec vs)
      (defaultVariant (decl.place μ.pos n) spec (vs.map (VariantView.place μ))) := by
  unfold defaultVariant
  rw [filter_enabled_place, List.isEmpty_map]
  generalize vs.filter (fun v => v.enabled) = es
  match es with
  | [v] => exact .ok v
  | [] => exact .error_of_eq (wrongShape_place _)
  | v :: v' :: rest =>
      refine .error_of_eq ?_
      rw [← wrongShape_place (n := n)]
      simp [Function.comp_def]

theorem moves_default :
    MovesBy μ id (default decl spec) (default (decl.place μ.pos n) spec) := by
  unfold default
  refine .bind (Selection.moves_ofDecl decl) fun s _ => ?_
  rw [Selection.shape_place]
  cases s.shape with
  | struct v =>
      refine .ok_of_eq ?_
      simp [-List.map_map]
  | enum vs =>
      refine .bind (moves_defaultVariant vs) fun v _ => .ok_of_eq ?_
      simp [-List.map_map]

theorem compareFields_place (v : FieldsView) (left right : FieldView → Text) :
    compareFields (v.place μ) left right =
      compareFields v (fun f => left (f.place μ)) fun f => right (f.place μ) := by
  simp [compareFields, Function.comp_def]

theorem equalArm_place (v : VariantView) : equalArm (v.place μ) = equalArm v := by
  simp [equalArm, compareFields_place]

theorem equalBody_place (shape : ShapeView) :
    equalBody (shape.place μ) = equalBody shape := by
  match shape with
  | .struct v => simp [ShapeView.place, equalBody, compareFields_place]
  | .enum [] => rfl
  | .enum (v :: vs) =>
      simp [ShapeView.place, equalBody, equalArm_place, Function.comp_def]

theorem moves_equality (isMarker : Bool) :
    MovesBy μ id (equality isMarker decl spec)
    (equality isMarker (decl.place μ.pos n) spec) := by
  unfold equality
  refine .bind (Selection.moves_ofDecl decl) fun s _ => ?_
  cases isMarker with
  | true =>
      refine .ok_of_eq ?_
      simp [ShapeView.types_place]
  | false =>
      refine .ok_of_eq ?_
      simp [ShapeView.types_place, equalBody_place]

/-! ## Errors -/

theorem isBacktrace_place (f : Position → Position) (t : Ty) :
    isBacktrace (t.place f) = isBacktrace t := by
  cases t with
  | path p =>
      obtain ⟨qself, isGlobal, segments, pos⟩ := p
      simp only [Ty.place, Path.place, isBacktrace, placeSegments_eq, List.getLast?_map]
      cases segments.getLast? with
      | none => rfl
      | some s =>
          obtain ⟨ident, _ | ⟨_ | ⟨a, as⟩⟩ | _⟩ := s <;> rfl
  | _ => rfl

theorem optionInner_place (f : Position → Position) : ∀ t : Ty,
    optionInner (t.place f) = (optionInner t).map (Ty.place f)
  | .paren _ elem => optionInner_place f elem
  | .path ⟨none, isGlobal, segments, pos⟩ => by
      simp only [Ty.place, Path.place, placeQSelf?, optionInner, placeSegments_eq,
        List.getLast?_map]
      cases segments.getLast? with
      | none => rfl
      | some s =>
          obtain ⟨ident, _ | ⟨_ | ⟨a, as⟩⟩ | _⟩ := s
          case angled.cons =>
            cases a with
            | ty inner =>
                simp only [Option.map_some, Segment.place, Args.place, placeArgs,
                  GenericArg.place]
                split <;> rfl
            | _ => rfl
          all_goals rfl
  | .path ⟨some _, _, _, _⟩ => rfl
  | .ref .. | .ptr .. | .tuple .. | .array .. | .slice .. | .fn .. | .traitObject
    .. | .implTrait ..
  | .never .. | .infer .. | .macroCall .. => rfl

theorem moves_pickField (v : FieldsView) (subject key : Text) {toggle : Options → Toggle}
    {recognised : FieldView → Bool} (htoggle : ∀ o, toggle (o.place μ) = toggle o)
    {recognised' : FieldView → Bool} (hrec : ∀ f, recognised' (f.place μ) = recognised f) :
    MovesBy μ (Option.map (FieldView.place μ)) (pickField s v subject key toggle recognised)
      (pickField (s.place μ n) (v.place μ) subject key toggle recognised') := by
  unfold pickField
  have hmarked : (v.place μ).enabled.filter (fun f => toggle f.options = .on) =
      (v.enabled.filter fun f => toggle f.options = .on).map (FieldView.place μ) := by
    simp only [FieldsView.enabled_place, List.filter_map, Function.comp_def,
      FieldView.options_place, htoggle]
  have himplied : (v.place μ).enabled.filter
        (fun f => toggle f.options = .unset && recognised' f) =
      (v.enabled.filter fun f => toggle f.options = .unset && recognised f).map
        (FieldView.place μ) := by
    simp only [FieldsView.enabled_place, List.filter_map, Function.comp_def,
      FieldView.options_place, htoggle, hrec]
  rw [hmarked, himplied]
  generalize v.enabled.filter (fun f => toggle f.options = .on) = marked
  generalize v.enabled.filter (fun f => toggle f.options = .unset && recognised f) = implied
  match marked, implied with
  | [f], _ => exact .ok (some f)
  | _ :: _ :: _, _ => exact .error_of_eq (wrongShape_place _)
  | [], [f] => exact .ok (some f)
  | [], [] => exact .ok none
  | [], _ :: _ :: _ => exact .error_of_eq (wrongShape_place _)

theorem moves_sourceField (v : FieldsView) (subject : Text) :
    MovesBy μ (Option.map (FieldView.place μ)) (sourceField s v subject)
      (sourceField (s.place μ n) (v.place μ) subject) := by
  unfold sourceField
  refine .bind (moves_pickField v subject "source" (fun _ => rfl) fun f => ?_)
    fun source _ => ?_
  · simp [isBacktrace_place]
  refine .bind (moves_pickField v subject "backtrace" (fun _ => rfl) fun f => ?_)
    fun backtrace _ => ?_
  · simp [isBacktrace_place]
    rfl
  rw [FieldsView.all_place]
  match source, backtrace, v.all with
  | none, some b, [first, second] =>
      refine .ok_of_eq ?_
      simp only [FieldView.index_place, FieldsView.style_place]
      by_cases hb : b.index = 0
      · simp only [hb, if_true]
        exact (apply_ite (Option.map (FieldView.place μ)) _ (some second) none).symm
      · simp only [hb, if_false]
        exact (apply_ite (Option.map (FieldView.place μ)) _ (some first) none).symm
  | some f, _, _ => exact .ok (some f)
  | none, none, _ => exact .ok none
  | none, some b, [] => exact .ok none
  | none, some b, [_] => exact .ok none
  | none, some b, _ :: _ :: _ :: _ => exact .ok none

theorem someSource_place (expr : Text) (f : FieldView) :
    someSource expr (f.place μ) = someSource expr f := by
  unfold someSource
  rw [FieldView.ty_place, optionInner_place, Option.isSome_map]

theorem sourcePattern_place (v : VariantView) (f : FieldView) :
    sourcePattern (v.place μ) (f.place μ) = sourcePattern v f := by
  unfold sourcePattern
  simp only [VariantView.fields_place, FieldsView.style_place,
    FieldsView.all_place, List.map_map]
  rfl

theorem sourceBound_place (g : ImplGenerics) (f : FieldView) :
    sourceBound (s.place μ n) (g.place μ.pos) (f.place μ) =
    (sourceBound s g f).place μ.pos := by
  have hty : (optionInner (f.place μ).ty).getD (f.place μ).ty =
      ((optionInner f.ty).getD f.ty).place μ.pos := by
    rw [FieldView.ty_place, optionInner_place]
    cases optionInner f.ty <;> rfl
  have hparams : (⟨(s.place μ n).decl.generics.params.filter (·.isType), []⟩ : Generics) =
      (⟨s.decl.generics.params.filter (·.isType), []⟩ : Generics).place μ.pos := by
    simp only [Selection.decl_place, Decl.place, Generics.place, List.filter_map,
      Function.comp_def, GenericParam.isType_place, List.map_nil]
  unfold sourceBound
  dsimp only
  rw [hty, hparams, Ty.mentions_place, ImplGenerics.addBound_place]
  split <;> rfl

theorem foldl_sourceBound_place (fs : List FieldView) (g : ImplGenerics) :
    (fs.map (FieldView.place μ)).foldl (sourceBound (s.place μ n)) (g.place μ.pos) =
      (fs.foldl (sourceBound s) g).place μ.pos := by
  induction fs generalizing g with
  | nil => rfl
  | cons f fs ih =>
      rw [List.map_cons, List.foldl_cons, List.foldl_cons, sourceBound_place, ih]

theorem moves_sourceArms (vs : List VariantView) :
    MovesBy μ (List.map (Prod.map (VariantView.place μ) (FieldView.place μ)))
    (sourceArms s vs) (sourceArms (s.place μ n) (vs.map (VariantView.place μ))) := by
  unfold sourceArms
  refine .bind (show MovesBy μ
    (List.map (Prod.map (VariantView.place μ) (Option.map (FieldView.place μ)))) _ _
      from ?_)
    fun found _ => .ok_of_eq ?_
  · refine Moves.mapM vs fun v _ => ?_
    exact .bind (moves_sourceField v.fields _) fun f _ => .ok _
  · rw [List.filterMap_map, List.map_filterMap]
    congr 1
    funext ⟨v, f⟩
    cases f <;> rfl

theorem moves_error (support : Support) :
    MovesBy μ id (error support decl spec) (error support (decl.place μ.pos n) spec) := by
  unfold error
  refine .bind (Selection.moves_ofDecl decl) fun s _ => ?_
  rw [Selection.shape_place]
  cases s.shape with
  | struct v =>
      refine .bind (moves_sourceField v _) fun source _ => ?_
      cases source with
      | none =>
          refine .ok_of_eq ?_
          by_cases h : decl.generics.typeNames.isEmpty = true <;> simp [h]
      | some f =>
          refine .ok_of_eq ?_
          have hfold := foldl_sourceBound_place (s := s) (μ := μ) (n := n) [f] s.generics
          rw [List.map_cons, List.map_nil] at hfold
          by_cases h : decl.generics.typeNames.isEmpty = true <;>
            simp [h, someSource_place, sourceBound_place]
  | enum vs =>
      rw [show ShapeView.place μ (.enum vs) = .enum (vs.map (VariantView.place μ)) from rfl]
      dsimp only
      rw [filter_enabled_place]
      refine .bind (moves_sourceArms _) fun found _ => .ok_of_eq ?_
      have hsources :
          ((found.map (Prod.map (VariantView.place μ) (FieldView.place μ))).map (·.2)) =
          (found.map (·.2)).map (FieldView.place μ) := by
        simp only [List.map_map, Function.comp_def, Prod.map]
      have harms : ((found.map (Prod.map (VariantView.place μ) (FieldView.place μ))).map
            fun x => Arm.yields (sourcePattern x.1 x.2) (someSource "source" x.2)) =
          found.map fun x => Arm.yields (sourcePattern x.1 x.2)
            (someSource "source" x.2) := by
        simp only [List.map_map, Function.comp_def, Prod.map, sourcePattern_place,
          someSource_place]
      by_cases h : decl.generics.typeNames.isEmpty = true <;>
        simp [h, hsources, harms, foldl_sourceBound_place, -List.map_map]

end Deriver.Derive
