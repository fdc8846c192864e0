import Deriver.Derive.Conversion
import Deriver.Derive.Display
import Deriver.Derive.File
import Deriver.Derive.Parsing
import Deriver.Derive.Variants
import Deriver.Proofs.Derive.Fields

/-!
# Conversions and functions for variants, at another place

Conversions keep a record of the types they have an implementation for, and so does
the parser of an enum for its literals. Both records hold texts, and are the same
wherever the declaration stands.
-/

namespace Deriver.Derive

variable {μ : Move} {n : Nat} {decl : Decl} {spec : TraitSpec} {s : Selection}

/-! ## From the fields -/

theorem extraTypes_place (place : Text) (count : Nat) :
    extraTypes (s.place μ n) place count = (extraTypes s place count).move μ :=
  wrongShape_place _

theorem fromImpl_place (g : ImplGenerics) (source : Text) (value : Built) :
    fromImpl (g.place μ.pos) (s.place μ n) source value = fromImpl g s source value := by
  simp [fromImpl]

@[simp] theorem map_render_place (ts : List Ty) :
    (ts.map (Ty.place μ.pos)).map Ty.render = ts.map Ty.render := by
  simp only [List.map_map, Function.comp_def, Ty.render_place]

theorem moves_fromFields (v : FieldsView) (path : Text) (extra : List Text) :
    MovesBy μ id (fromFields s v path extra)
      (fromFields (s.place μ n) (v.place μ) path extra) := by
  have hg : (s.place μ n).generics.addFieldBounds ((v.place μ).skipped.map (·.ty))
        (s.place μ n).self (fun _ => Core.default) =
      (s.generics.addFieldBounds (v.skipped.map (·.ty)) s.self fun _ => Core.default).place
        μ.pos := by
    rw [FieldsView.skipped_place, map_ty_place, Selection.generics_place,
      Selection.addFieldBounds_place _ _ fun _ => rfl]
  unfold fromFields
  simp only [hg, fromImpl_place, FieldsView.construct_place, FieldsView.types_place,
    map_render_place, FieldsView.enabled_place, List.length_map]
  refine .ite (fun _ => .ok_of_eq ?_) fun _ => ?_
  · simp
  · match v.enabled with
    | [field] =>
        refine .ok_of_eq ?_
        simp [Ty.render_place, fromImpl_place]
    | [] => exact .error_of_eq (extraTypes_place _ _)
    | _ :: _ :: _ =>
        refine .error_of_eq ?_
        simp only [List.length_cons, List.length_map]
        exact extraTypes_place _ _

theorem moves_fromVariants (owners : List (Text × Text)) (vs : List VariantView) :
    MovesBy μ id (fromVariants s owners vs)
      (fromVariants (s.place μ n) owners (vs.map (VariantView.place μ))) := by
  induction vs generalizing owners with
  | nil => exact .ok []
  | cons v vs ih =>
      rw [List.map_cons, fromVariants, fromVariants]
      simp only [VariantView.fields_place, FieldsView.enabled_place, List.isEmpty_map,
        FieldsView.types_place, map_render_place, VariantView.name_place,
        VariantView.path_place]
      refine .ite (fun _ => ih owners) fun _ => ?_
      cases owners.lookup (tupleOf (v.fields.types.map Ty.render)) with
      | some owner => exact .error_of_eq (wrongShape_place _)
      | none =>
          refine .bind (moves_fromFields v.fields _ _) fun impls _ => ?_
          exact .bind (ih _) fun rest _ => .ok _

theorem moves_fromPayload :
    MovesBy μ id (fromPayload decl spec) (fromPayload (decl.place μ.pos n) spec) := by
  unfold fromPayload
  refine .bind (Selection.moves_ofDecl decl) fun s _ => ?_
  rw [Selection.shape_place]
  cases s.shape with
  | struct v => exact moves_fromFields v _ _
  | enum vs =>
      rw [show ShapeView.place μ (.enum vs) = .enum (vs.map (VariantView.place μ)) from rfl]
      dsimp only
      rw [filter_enabled_place]
      exact moves_fromVariants [] _

/-! ## Into the fields -/

theorem intoImpl_place (g : ImplGenerics) (source target value : Text) :
    intoImpl (g.place μ.pos) source target value = intoImpl g source target value := by
  simp [intoImpl]

theorem intoForm_place (v : FieldsView) (form : RefForm) :
    intoForm (s.place μ n) (v.place μ) form = intoForm s v form := by
  simp [intoForm, intoImpl_place, Function.comp_def, Ty.render_place]

theorem moves_intoPayload :
    MovesBy μ id (intoPayload decl spec) (intoPayload (decl.place μ.pos n) spec) := by
  unfold intoPayload
  refine .bind moves_selectStruct fun (s, v) _ => ?_
  have hmain : (RefForm.ofSet (Selection.accessorsOf (s.container.place μ) {})).map
        (intoForm (s.place μ n) (v.place μ)) =
      (RefForm.ofSet (Selection.accessorsOf s.container {})).map (intoForm s v) :=
    List.map_congr_left fun form _ => intoForm_place v form
  simp only [Prod.map, Selection.container_place, FieldsView.enabled_place, hmain]
  refine .ite (fun _ => .ok _) fun _ => ?_
  match v.enabled with
  | [field] =>
      refine .ok_of_eq ?_
      simp [Ty.render_place, intoImpl_place]
  | [] => exact .error_of_eq (extraTypes_place _ _)
  | _ :: _ :: _ =>
      refine .error_of_eq ?_
      simp only [List.length_cons, List.length_map]
      exact extraTypes_place _ _

/-! ## References to the fields -/

theorem refImpl_place (isMut : Bool) (g : ImplGenerics) (target value : Text) :
    refImpl isMut (g.place μ.pos) (s.place μ n) target value =
    refImpl isMut g s target value := by
  simp [refImpl]

theorem moves_refField (isMut alone : Bool) (f : FieldView) :
    MovesBy μ id (refField isMut s alone f)
    (refField isMut (s.place μ n) alone (f.place μ)) := by
  unfold refField
  simp only [FieldView.ty_place, Ty.render_place, FieldView.member_place,
    FieldView.forward_place, Selection.generics_place, Selection.spec_place,
    FieldView.options_place, Selection.container_place, ImplGenerics.addParam_place,
    ImplGenerics.addPredicate_place, refImpl_place]
  refine .ite (fun _ => ?_) fun _ => .ite (fun _ => .ok _) fun _ => .ok _
  exact .ite (fun _ => .error_of_eq (wrongShape_place _)) fun _ => .ok _

theorem moves_claimTargets (f : FieldView) (claimed : List (Text × Text))
    (targets : List Text) : MovesBy μ id (claimTargets s f claimed targets)
      (claimTargets (s.place μ n) (f.place μ) claimed targets) := by
  induction targets generalizing claimed with
  | nil => exact .ok claimed
  | cons target rest ih =>
      rw [claimTargets, claimTargets]
      cases claimed.lookup target with
      | some other => exact .error_of_eq (wrongShape_place _)
      | none => exact ih _

theorem moves_refFields (isMut alone : Bool) (claimed : List (Text × Text))
    (fs : List FieldView) :
    MovesBy μ id (refFields isMut s alone claimed fs)
      (refFields isMut (s.place μ n) alone claimed (fs.map (FieldView.place μ))) := by
  induction fs generalizing claimed with
  | nil => exact .ok []
  | cons f fs ih =>
      rw [List.map_cons, refFields, refFields]
      refine .bind (moves_refField isMut alone f) fun own _ => ?_
      refine .bind (moves_claimTargets f claimed _) fun claimed _ => ?_
      exact .bind (ih claimed) fun rest _ => .ok _

theorem moves_refConversion (isMut : Bool) :
    MovesBy μ id (refConversion isMut decl spec)
      (refConversion isMut (decl.place μ.pos n) spec) := by
  unfold refConversion
  refine .bind moves_selectFields fun (s, v) _ => ?_
  simp only [Prod.map, Selection.container_place, FieldsView.enabled_place, List.length_map]
  refine .ite (fun _ => .error_of_eq (extraTypes_place _ _)) fun _ => ?_
  exact moves_refFields isMut _ [] _

/-! ## From a number -/

theorem Attribute.reprInt?_place (f : Position → Position) (attrs : List Attribute) :
    Attribute.reprInt? (attrs.map (Attribute.place f)) = Attribute.reprInt? attrs := by
  unfold Attribute.reprInt?
  rw [Attribute.named_place, List.findSome?_map]
  congr 1
  funext ⟨arg, raw, pos⟩
  cases arg with
  | list p path items raw =>
      simp only [Function.comp_def, Attribute.place, Meta.place, placeMetas_eq,
        List.findSome?_map]
      congr 1
      funext m
      cases m <;> rfl
  | _ => rfl

theorem Discriminant.number_place (f : Position → Position) (base : Text) (offset : Nat)
    (vs : List Variant) :
    Discriminant.number base offset (vs.map (Variant.place f)) =
      Discriminant.number base offset vs := by
  induction vs generalizing base offset with
  | nil => rfl
  | cons v vs ih =>
      have hempty : (v.place f).fields.list.isEmpty = v.fields.list.isEmpty :=
        List.isEmpty_map ..
      rw [List.map_cons, number, number, hempty]
      simp only [ih]
      rfl

theorem variants_place (f : Position → Position) (d : Data) :
    (d.place f).variants = d.variants.map (Variant.place f) := by
  cases d <;> rfl

theorem moves_tryFromRepr (support : Support) :
    MovesBy μ id (tryFromRepr support decl spec)
      (tryFromRepr support (decl.place μ.pos n) spec) := by
  unfold tryFromRepr
  refine .bind moves_selectEnum fun (s, _) _ => .ok_of_eq ?_
  have hrepr : Attribute.reprInt? (decl.place μ.pos n).attrs =
      Attribute.reprInt? decl.attrs :=
    Attribute.reprInt?_place μ.pos decl.attrs
  have hds : Discriminant.all (decl.place μ.pos n).data.variants =
      Discriminant.all decl.data.variants := by
    rw [show (decl.place μ.pos n).data = decl.data.place μ.pos from rfl, variants_place]
    exact Discriminant.number_place μ.pos "0" 0 _
  rw [hrepr, hds]
  simp

/-! ## Into a payload -/

/-- The variants that convert to one payload, at another place. -/
def PayloadGroup.place (μ : Move) (g : PayloadGroup) : PayloadGroup :=
  { g with members := g.members.map (VariantView.place μ) }

theorem addToGroup_place (v : VariantView) (form : RefForm) (payload : Text)
    (gs : List PayloadGroup) :
    addToGroup (v.place μ) form payload (gs.map (PayloadGroup.place μ)) =
      (addToGroup v form payload gs).map (PayloadGroup.place μ) := by
  induction gs with
  | nil => rfl
  | cons g gs ih =>
      rw [List.map_cons, addToGroup, addToGroup]
      rw [show (g.place μ).form = g.form from rfl, show (g.place μ).payload =
        g.payload from rfl]
      split
      · simp only [List.map_cons, PayloadGroup.place, List.map_append, List.map_nil]
      · rw [ih, List.map_cons]

theorem payloadGroups_place (vs : List VariantView) :
    payloadGroups (vs.map (VariantView.place μ)) =
      (payloadGroups vs).map (PayloadGroup.place μ) := by
  have hforms (v : VariantView) (payload : Text) (forms : List RefForm)
      (gs : List PayloadGroup) :
      forms.foldl (fun gs form => addToGroup (v.place μ) form payload gs)
          (gs.map (PayloadGroup.place μ)) =
        (forms.foldl (fun gs form => addToGroup v form payload gs) gs).map
          (PayloadGroup.place μ) := by
    induction forms generalizing gs with
    | nil => rfl
    | cons form forms ih => rw [List.foldl_cons, List.foldl_cons, addToGroup_place, ih]
  have hall (gs : List PayloadGroup) :
      (vs.map (VariantView.place μ)).foldl (fun gs v =>
          let payload := Text.join ", " (v.fields.types.map Ty.render)
          (RefForm.ofSet v.accessors).foldl
            (fun gs form => addToGroup v form payload gs) gs)
          (gs.map (PayloadGroup.place μ)) =
        (vs.foldl (fun gs v =>
          let payload := Text.join ", " (v.fields.types.map Ty.render)
          (RefForm.ofSet v.accessors).foldl
            (fun gs form => addToGroup v form payload gs) gs)
          gs).map (PayloadGroup.place μ) := by
    induction vs generalizing gs with
    | nil => rfl
    | cons v vs ih =>
        rw [List.map_cons, List.foldl_cons, List.foldl_cons, ← ih, ← hforms,
          VariantView.fields_place, FieldsView.types_place, map_render_place]
        rfl
  exact hall []

theorem payloadPattern_place (v : FieldsView) (path : Text) :
    payloadPattern (v.place μ) path = payloadPattern v path := by
  unfold payloadPattern
  simp only [FieldsView.style_place, FieldsView.all_place, FieldsView.enabled_place,
    FieldsView.skipped_place, FieldsView.rank_place, List.map_map, Function.comp_def,
    List.isEmpty_map]
  rfl

theorem tryIntoImpl_place (support : Support) (group : PayloadGroup) :
    tryIntoImpl support (s.place μ n) (group.place μ) = tryIntoImpl support s group := by
  have htypes : ((group.place μ).members.head?.map fun v => v.fields.types.map Ty.render) =
      group.members.head?.map fun v => v.fields.types.map Ty.render := by
    rw [show (group.place μ).members = group.members.map (VariantView.place μ) from rfl,
      List.head?_map, Option.map_map]
    simp only [Function.comp_def, VariantView.fields_place, FieldsView.types_place,
      map_render_place]
  unfold tryIntoImpl
  simp only [htypes]
  simp [PayloadGroup.place, payloadPattern_place, Function.comp_def]

theorem moves_tryIntoPayload (support : Support) :
    MovesBy μ id (tryIntoPayload support decl spec)
      (tryIntoPayload support (decl.place μ.pos n) spec) := by
  unfold tryIntoPayload
  refine .bind moves_selectEnum fun (s, vs) _ => .ok_of_eq ?_
  simp only [filter_enabled_place, payloadGroups_place, List.map_map]
  exact List.map_congr_left fun group _ => tryIntoImpl_place support group

/-! ## Parsing -/

theorem moves_parseStruct : MovesBy μ id (parseStruct s) (parseStruct (s.place μ n)) := by
  unfold parseStruct
  refine .bind Selection.moves_singleField fun single _ => ?_
  refine .bind Selection.moves_structFields fun v _ => .ok_of_eq ?_
  simp

theorem renamed_place (casing : Casing) (arms : List LiteralArm) (vs : List VariantView) :
    LiteralArm.renamed casing arms (vs.map (VariantView.place μ)) =
      Prod.map id (List.map (Prod.map (VariantView.place μ) id))
        (LiteralArm.renamed casing arms vs) := by
  induction vs generalizing arms with
  | nil => rfl
  | cons v vs ih =>
      rw [List.map_cons, LiteralArm.renamed, LiteralArm.renamed, VariantView.name_place]
      cases arms.find? (·.literal == casing.apply v.name) with
      | some kept =>
          simp only [ih]
          rfl
      | none => exact ih _

theorem literalArms_place (vs : List VariantView) :
    literalArms (s.place μ n) (vs.map (VariantView.place μ)) =
      Prod.map id (List.map (Diagnostic.move μ)) (literalArms s vs) := by
  unfold literalArms
  rw [Selection.container_place, Options.renameAll_place]
  cases s.container.renameAll with
  | none => simp only [List.map_map]; rfl
  | some casing =>
      simp only [renamed_place, Prod.map, id_eq, List.map_map]
      refine congrArg (Prod.mk _) (List.map_congr_left fun d _ => ?_)
      exact Position.diagnose_move μ ..

/-- Of the results of `FromStr` the warnings move. -/
theorem moves_fromStr (support : Support) :
    MovesBy μ (Prod.map id (List.map (Diagnostic.move μ))) (fromStr support decl spec)
      (fromStr support (decl.place μ.pos n) spec) := by
  unfold fromStr
  refine .bind (Selection.moves_ofDecl decl) fun s _ => ?_
  rw [Selection.shape_place]
  cases s.shape with
  | struct _ => exact .bind moves_parseStruct fun impls _ => .ok (impls, [])
  | enum vs =>
      rw [show ShapeView.place μ (.enum vs) = .enum (vs.map (VariantView.place μ)) from rfl]
      dsimp only
      rw [filter_enabled_place, List.find?_map]
      have hunit : ((fun v => !v.fields.isUnit) ∘ VariantView.place μ) =
          fun v => !v.fields.isUnit :=
        funext fun v => congrArg (!·) (v.fields.isUnit_place μ)
      rw [hunit]
      cases (vs.filter (·.enabled)).find? fun v => !v.fields.isUnit with
      | some v => exact .error_of_eq (wrongShape_place _)
      | none =>
          refine .ok_of_eq ?_
          simp [literalArms_place]
          rfl

/-! ## Functions for variants -/

theorem payloadOf_place (v : VariantView) : payloadOf (v.place μ) = payloadOf v := by
  unfold payloadOf
  simp only [VariantView.fields_place, FieldsView.style_place, FieldsView.all_place,
    VariantView.path_place, List.length_map, List.map_map, Function.comp_def,
    FieldView.ty_place, Ty.render_place]

theorem accessorFn_place (support : Support) (kind : Accessor) (name : Text)
    (all : List VariantView) (v : VariantView) (form : RefForm) :
    accessorFn support kind name (all.map (VariantView.place μ)) (v.place μ) form =
      accessorFn support kind name all v form := by
  have hothers : (all.map (VariantView.place μ)).filter (·.name != v.name) =
      (all.filter (·.name != v.name)).map (VariantView.place μ) := by
    rw [List.filter_map]
    rfl
  cases kind <;>
    simp [accessorFn, payloadOf_place, hothers, Function.comp_def]

theorem isVariantFn_place (v : VariantView) : isVariantFn (v.place μ) = isVariantFn v := by
  simp [isVariantFn]

theorem moves_isVariant :
    MovesBy μ id (isVariant decl spec) (isVariant (decl.place μ.pos n) spec) := by
  unfold isVariant
  refine .bind moves_selectEnum fun (s, vs) _ => .ok_of_eq ?_
  simp [Function.comp_def, isVariantFn_place]

theorem moves_variantAccessors (kind : Accessor) (support : Support) :
    MovesBy μ id (variantAccessors kind support decl spec)
      (variantAccessors kind support (decl.place μ.pos n) spec) := by
  unfold variantAccessors
  refine .bind moves_selectEnum fun (s, vs) _ => ?_
  simp only [Prod.map]
  rw [filter_enabled_place, List.find?_map]
  have hnamed : ((fun v => v.fields.style = .named && !v.fields.isUnit) ∘
      VariantView.place μ) =
      fun v => v.fields.style = .named && !v.fields.isUnit :=
    funext fun v => by
      simp only [Function.comp_def, VariantView.fields_place, FieldsView.isUnit_place]
      rfl
  rw [hnamed]
  cases (vs.filter (·.enabled)).find? fun v => v.fields.style =
    .named && !v.fields.isUnit with
  | some v => exact .error_of_eq (wrongShape_place _)
  | none =>
      refine .ok_of_eq ?_
      simp [List.flatMap_map, accessorFn_place]

end Deriver.Derive

/-!
# Declarations at another place

Main statement: `Decl.expand_place`. No derive of the catalogue looks at where its
declaration stands (`indifferent_of_mem`), so a declaration further down in a file
expands to the same code, with the same to report further down. A diagnostic that
stands nowhere is put where its derive is asked for; no derive makes one for a
declaration that stands somewhere.

The formatting traits come first. What a format string refers to does not depend on where
it stands; where it stands is only said when it cannot be used. The predicates of an
implementation are collected from one variant to the next, and the collected ones are the
same too.
-/

namespace Deriver

/-! ## Formatting traits -/

section

variable {μ : Move} {n : Nat} {s : Selection}

/-! ### Formats -/

namespace FormatSpec

variable (f : FormatSpec)

theorem refuse_place (attr reason : Text) :
    (f.place μ).refuse attr reason = (f.refuse attr reason).move μ :=
    Position.diagnose_move μ ..

theorem resolve_place (next : Nat) (ps : List Placeholder) :
    (f.place μ).resolve next ps = f.resolve next ps := by
  induction ps generalizing next with
  | nil => rfl
  | cons p ps ih =>
      rw [resolve, resolve, show (f.place μ).positional = f.positional from rfl,
        show (f.place μ).named? p.arg = f.named? p.arg from rfl]
      simp only [ih]

theorem moves_uses (attr : Text) : MovesBy μ id (f.uses attr) ((f.place μ).uses attr) := by
  unfold uses
  rw [show (f.place μ).value = f.value from rfl]
  cases Placeholder.all f.value with
  | error fault => exact .error_of_eq (f.refuse_place attr _)
  | ok ps =>
      simp only [resolve_place]
      cases f.resolve 0 ps with
      | error reason => exact .error_of_eq (f.refuse_place attr reason)
      | ok us => exact .ok us

@[simp] theorem mentioned_place : (f.place μ).mentioned = f.mentioned := rfl

@[simp] theorem write_place : (f.place μ).write = f.write := rfl

@[simp] theorem arguments_place : (f.place μ).arguments = f.arguments := rfl

@[simp] theorem lit_place : (f.place μ).lit = f.lit := rfl

end FormatSpec

@[simp] theorem FieldView.formatName_place (f : FieldView) :
    (f.place μ).formatName = f.formatName := rfl

namespace FieldsView

variable (v : FieldsView)

@[simp] theorem bindings_place (used : List Text) :
    (v.place μ).bindings used = v.bindings used := by
  simp only [bindings, all_place, List.filter_map, List.map_map, Function.comp_def,
    FieldView.formatName_place, FieldView.member_place]

@[simp] theorem formatPattern_place (path : Text) (used : List Text) :
    (v.place μ).formatPattern path used = v.formatPattern path used := by
  simp only [formatPattern, style_place, all_place, List.filter_map, List.map_map,
    Function.comp_def, FieldView.formatName_place, FieldView.ident_place, List.isEmpty_map,
    List.length_map]
  rfl

@[simp] theorem boundUses_place (uses : List FormatUse) (g : ImplGenerics) :
    (v.place μ).boundUses (s.place μ n).self uses (g.place μ.pos) =
      (v.boundUses s.self uses g).place μ.pos := by
  unfold boundUses
  induction uses generalizing g with
  | nil => rfl
  | cons u uses ih =>
      rw [List.foldl_cons, List.foldl_cons, ← ih]
      congr 1
      rw [all_place, ← List.map_reverse, List.find?_map]
      simp only [Function.comp_def, FieldView.formatName_place]
      cases v.all.reverse.find? fun f => f.formatName == u.expr.dropWhile (· == 38) with
      | none => rfl
      | some f => exact Selection.addFieldBound_place g f.ty fun _ => rfl

end FieldsView

namespace Derive

variable {decl : Decl} {spec : TraitSpec}

/-- Predicates at another place with what they are collected for. -/
abbrev placeFirst (μ : Move) {α : Type} : ImplGenerics × α → ImplGenerics × α :=
  Prod.map (ImplGenerics.place μ.pos) id

/-! ### Display -/

@[simp] theorem formatImpl_place (g : ImplGenerics) (body : List Code) :
    formatImpl (g.place μ.pos) (s.place μ n) body = formatImpl g s body := by
  simp [formatImpl]

theorem needsFormat_place (pos : Position) (subject : Text) (count : Nat) :
    needsFormat (μ.pos pos) spec subject count =
    (needsFormat pos spec subject count).move μ :=
  Position.diagnose_move μ ..

theorem moves_displayStruct (v : FieldsView) :
    MovesBy μ (placeFirst μ) (displayStruct s v)
      (displayStruct (s.place μ n) (v.place μ)) := by
  unfold displayStruct
  rw [Selection.container_place, Options.format_place, FieldsView.all_place]
  match s.container.format, v.all with
  | some f, _ =>
      refine .bind (f.moves_uses _) fun uses _ => .ok_of_eq ?_
      simp
  | none, [] => exact .ok _
  | none, [field] =>
      refine .ok_of_eq ?_
      simp
  | none, _ :: _ :: _ =>
      refine .error_of_eq ?_
      simp only [List.length_cons, List.length_map]
      exact needsFormat_place ..

/-- A shared format at another place. -/
def SharedFormat.place (μ : Move) (f : SharedFormat) : SharedFormat :=
  { f with format := f.format.place μ }

theorem moves_sharedFormat :
    MovesBy μ (Option.map (SharedFormat.place μ)) (sharedFormat s)
    (sharedFormat (s.place μ n)) := by
  unfold sharedFormat
  rw [Selection.container_place, Options.format_place]
  cases s.container.format with
  | none => exact .ok none
  | some f =>
      refine .bind (f.moves_uses _) fun uses _ => ?_
      exact .ite (fun _ => .error_of_eq (f.refuse_place ..)) fun _ => .ok _

theorem moves_variantOutput (placeholder : Text) (inShared : Bool) (v : VariantView)
    (g : ImplGenerics) :
    MovesBy μ (placeFirst μ) (variantOutput placeholder s inShared v g)
      (variantOutput placeholder (s.place μ n) inShared (v.place μ) (g.place μ.pos)) := by
  unfold variantOutput
  rw [VariantView.options_place, Options.format_place, VariantView.fields_place,
    FieldsView.all_place]
  match v.options.format, v.fields.all with
  | some f, _ =>
      refine .bind (f.moves_uses _) fun uses _ => .ok_of_eq ?_
      simp
  | none, [] => exact .ok _
  | none, [field] =>
      refine .ok_of_eq ?_
      simp
  | none, _ :: _ :: _ =>
      refine .error_of_eq ?_
      simp only [List.length_cons, List.length_map]
      exact needsFormat_place ..

theorem usedNames_place (shared : Option SharedFormat) (delegates : Bool)
    (v : VariantView) :
    usedNames (shared.map (SharedFormat.place μ)) delegates (v.place μ) =
      usedNames shared delegates v := by
  have hshared : ((shared.map (SharedFormat.place μ)).map fun f => f.format.mentioned) =
      shared.map fun f => f.format.mentioned := by
    cases shared <;> rfl
  unfold usedNames
  rw [hshared, VariantView.options_place, Options.format_place, VariantView.fields_place,
    FieldsView.all_place]
  match v.options.format, v.fields.all with
  | some f, _ => rfl
  | none, [] | none, [_] | none, _ :: _ :: _ => rfl

theorem moves_displayArm (placeholder : Text) (shared : Option SharedFormat)
    (g : ImplGenerics) (v : VariantView) :
    MovesBy μ (placeFirst μ) (displayArm placeholder s shared g v)
      (displayArm placeholder (s.place μ n) (shared.map (SharedFormat.place μ))
      (g.place μ.pos) (v.place μ)) := by
  have hdelegates : ((shared.map (SharedFormat.place μ)).map SharedFormat.delegates) =
      shared.map SharedFormat.delegates := by
    cases shared <;> rfl
  unfold displayArm
  simp only [hdelegates, usedNames_place, VariantView.options_place, Options.format_place,
    Option.isNone_map, VariantView.fields_place, FieldsView.isUnit_place,
    Selection.spec_place, FieldsView.formatPattern_place, VariantView.path_place]
  refine .ite (fun _ => .error_of_eq (Position.diagnose_move μ ..)) fun _ => ?_
  cases shared with
  | none => exact .bind (moves_variantOutput placeholder false v g) fun (g, text) _ => .ok _
  | some f =>
      simp only [Option.map_some, show (f.place μ).uses = f.uses from rfl,
        FieldsView.boundUses_place]
      refine .ite (fun _ => .ok _) fun _ => ?_
      exact .bind (moves_variantOutput placeholder true v _) fun (g, text) _ => .ok _

theorem moves_displayArms (placeholder : Text) (shared : Option SharedFormat)
    (g : ImplGenerics) (vs : List VariantView) :
    MovesBy μ (placeFirst μ) (displayArms placeholder s shared g vs)
      (displayArms placeholder (s.place μ n) (shared.map (SharedFormat.place μ))
      (g.place μ.pos) (vs.map (VariantView.place μ))) := by
  induction vs generalizing g with
  | nil => exact .ok (g, [])
  | cons v vs ih =>
      rw [List.map_cons, displayArms, displayArms]
      refine .bind (moves_displayArm placeholder shared g v) fun (g, arm) _ => ?_
      exact .bind (ih g) fun (g, arms) _ => .ok (g, arm :: arms)

theorem moves_display (placeholder : Text) :
    MovesBy μ id (display placeholder decl spec)
      (display placeholder (decl.place μ.pos n) spec) := by
  unfold display
  refine .bind (Selection.moves_ofDecl decl) fun s _ => ?_
  rw [Selection.shape_place]
  match s.shape with
  | .struct v =>
      refine .bind (moves_displayStruct v) fun (g, body) _ => .ok_of_eq ?_
      simp
  | .enum [] =>
      refine .ok_of_eq ?_
      simp
  | .enum (v :: vs) =>
      refine .bind moves_sharedFormat fun shared _ => ?_
      refine .bind (moves_displayArms placeholder shared s.generics (v :: vs))
        fun (g, arms) _ => ?_
      refine .ok_of_eq ?_
      simp

/-! ### Debug -/

theorem moves_checkFieldFormats (subject : Text) (own : Option FormatSpec)
    (v : FieldsView) : MovesBy μ id (checkFieldFormats s subject own v)
      (checkFieldFormats (s.place μ n) subject (own.map (FormatSpec.place μ))
      (v.place μ)) := by
  have hfind : (v.place μ).all.find? (·.options.format.isSome) =
      (v.all.find? (·.options.format.isSome)).map (FieldView.place μ) := by
    rw [FieldsView.all_place, List.find?_map]
    simp only [Function.comp_def, FieldView.options_place, Options.format_place,
      Option.isSome_map]
  unfold checkFieldFormats
  rw [hfind]
  cases own with
  | none => exact .ok ()
  | some format =>
      cases v.all.find? (·.options.format.isSome) with
      | none => exact .ok ()
      | some f => exact .error_of_eq (wrongShape_place _)

@[simp] theorem debugNames_place (own : Option FormatSpec) (v : FieldsView) :
    debugNames (own.map (FormatSpec.place μ)) (v.place μ) = debugNames own v := by
  cases own with
  | some f => rfl
  | none =>
      unfold debugNames
      simp only [Option.map_none, FieldsView.enabled_place, List.flatMap_map,
        FieldView.options_place, Options.format_place]
      congr 1
      funext f
      cases f.options.format <;> rfl

theorem moves_debugField (v : FieldsView) (g : ImplGenerics) (f : FieldView) :
    MovesBy μ (placeFirst μ) (debugField s v g f)
      (debugField (s.place μ n) (v.place μ) (g.place μ.pos) (f.place μ)) := by
  unfold debugField
  rw [FieldView.options_place, Options.format_place]
  cases f.options.format with
  | some format =>
      refine .bind (format.moves_uses _) fun uses _ => .ok_of_eq ?_
      simp
  | none =>
      refine .ok_of_eq ?_
      simp

theorem moves_debugFields (v : FieldsView) (g : ImplGenerics) (fs : List FieldView) :
    MovesBy μ (placeFirst μ) (debugFields s v g fs)
      (debugFields (s.place μ n) (v.place μ) (g.place μ.pos)
      (fs.map (FieldView.place μ))) := by
  induction fs generalizing g with
  | nil => exact .ok (g, [])
  | cons f fs ih =>
      rw [List.map_cons, debugFields, debugFields]
      refine .bind (moves_debugField v g f) fun (g, value) _ => ?_
      exact .bind (ih g) fun (g, calls) _ => .ok _

theorem moves_debugOutput (name : Text) (own : Option FormatSpec) (v : FieldsView)
    (g : ImplGenerics) :
    MovesBy μ (placeFirst μ) (debugOutput s name own v g)
      (debugOutput (s.place μ n) name (own.map (FormatSpec.place μ)) (v.place μ)
        (g.place μ.pos)) := by
  unfold debugOutput
  rw [FieldsView.style_place]
  match own, v.style with
  | some f, _ =>
      refine .bind (f.moves_uses _) fun uses _ => .ok_of_eq ?_
      simp
  | none, .unit => exact .ok (g, _)
  | none, .named | none, .tuple =>
      rw [FieldsView.enabled_place, FieldsView.skipped_place, List.isEmpty_map]
      exact .bind (moves_debugFields v g v.enabled) fun (g, calls) _ => .ok _

theorem moves_debugArm (g : ImplGenerics) (v : VariantView) :
    MovesBy μ (placeFirst μ) (debugArm s g v)
      (debugArm (s.place μ n) (g.place μ.pos) (v.place μ)) := by
  unfold debugArm
  simp only [VariantView.options_place, Options.format_place, VariantView.fields_place]
  refine .bind (moves_checkFieldFormats _ _ v.fields) fun _ _ => ?_
  refine .bind (moves_debugOutput _ _ v.fields g) fun (g, out) _ => .ok_of_eq ?_
  simp

theorem moves_debugArms (g : ImplGenerics) (vs : List VariantView) :
    MovesBy μ (placeFirst μ) (debugArms s g vs)
      (debugArms (s.place μ n) (g.place μ.pos) (vs.map (VariantView.place μ))) := by
  induction vs generalizing g with
  | nil => exact .ok (g, [])
  | cons v vs ih =>
      rw [List.map_cons, debugArms, debugArms]
      refine .bind (moves_debugArm g v) fun (g, arm) _ => ?_
      exact .bind (ih g) fun (g, arms) _ => .ok (g, arm :: arms)

theorem moves_debug : MovesBy μ id (debug decl spec) (debug (decl.place μ.pos n) spec) := by
  unfold debug
  refine .bind (Selection.moves_ofDecl decl) fun s _ => ?_
  rw [Selection.shape_place]
  match s.shape with
  | .struct v =>
      refine .bind (moves_checkFieldFormats decl.name s.container.format v) fun _ _ => ?_
      refine .bind (moves_debugOutput decl.name s.container.format v s.generics)
        fun (g, out) _ => .ok_of_eq ?_
      simp
  | .enum [] =>
      refine .ok_of_eq ?_
      simp
  | .enum (v :: vs) =>
      refine .bind (moves_debugArms s.generics (v :: vs)) fun (g, arms) _ => .ok_of_eq ?_
      simp

end Derive

end

/-! ## The catalogue -/

/-- Whether a derive expands a declaration wherever it stands to the same. -/
def Derive.Indifferent (d : Derive) : Prop :=
  ∀ (μ : Move) (n : Nat) (support : Support) (decl : Decl) (spec : TraitSpec),
    MovesBy μ (Prod.map id (List.map (Diagnostic.move μ))) (d.expand support decl spec)
      (d.expand support (decl.place μ.pos n) spec)

namespace Derive

theorem indifferent_entry {family name path method : Text} {params : Params}
    {expand : Support → Expand}
    (h : ∀ (μ : Move) (n : Nat) (support : Support) (decl : Decl) (spec : TraitSpec),
      MovesBy μ id (expand support decl spec) (expand support (decl.place μ.pos n) spec)) :
    (entry family name path method params expand).Indifferent :=
  fun μ n support decl spec => .bind (h μ n support decl spec) fun impls _ =>
    .ok (impls, [])

theorem Indifferent.withAttrs {d : Derive} (h : d.Indifferent) (attrs : List Text) :
    (d.withAttrs attrs).Indifferent := h

theorem indifferent_conversions : ∀ d ∈ conversions, d.Indifferent := by
  simp only [conversions, List.forall_mem_cons]
  refine ⟨indifferent_entry fun _ _ _ _ _ => moves_fromPayload,
    indifferent_entry fun _ _ _ _ _ => moves_intoPayload,
    indifferent_entry fun _ _ _ _ _ => moves_tryFromRepr _,
    indifferent_entry fun _ _ _ _ _ => moves_tryIntoPayload _,
    indifferent_entry fun _ _ _ _ _ => moves_refConversion _,
    indifferent_entry fun _ _ _ _ _ => moves_refConversion _,
    indifferent_entry fun _ _ _ _ _ => moves_refConversion _,
    indifferent_entry fun _ _ _ _ _ => moves_refConversion _,
    fun _ _ _ _ _ => moves_fromStr _, List.forall_mem_nil _⟩

theorem indifferent_operators : ∀ d ∈ operators, d.Indifferent := by
  simp only [operators, List.forall_mem_append, List.forall_mem_map]
  exact ⟨⟨⟨⟨fun _ _ => indifferent_entry fun _ _ _ _ _ => moves_addLike _,
    fun _ _ => indifferent_entry fun _ _ _ _ _ => moves_mulLike⟩,
    fun _ _ => indifferent_entry fun _ _ _ _ _ => moves_notLike _⟩,
    fun _ _ => indifferent_entry fun _ _ _ _ _ => moves_assignLike _⟩,
    fun _ _ => indifferent_entry fun _ _ _ _ _ => moves_assignLike _⟩

theorem indifferent_access : ∀ d ∈ access, d.Indifferent := by
  simp only [access, List.forall_mem_cons]
  exact ⟨indifferent_entry fun _ _ _ _ _ => moves_deref _,
    indifferent_entry fun _ _ _ _ _ => moves_deref _,
    indifferent_entry fun _ _ _ _ _ => moves_derefToInner _,
    indifferent_entry fun _ _ _ _ _ => moves_derefToInner _,
    indifferent_entry fun _ _ _ _ _ => moves_index _,
    indifferent_entry fun _ _ _ _ _ => moves_index _,
    indifferent_entry fun _ _ _ _ _ => moves_iterator,
    indifferent_entry fun _ _ _ _ _ => moves_intoIterator,
    indifferent_entry fun _ _ _ _ _ => moves_read, List.forall_mem_nil _⟩

theorem indifferent_others : ∀ d ∈ others, d.Indifferent := by
  have haccessors (kind : Accessor)
      (name : Text) : (entry "variants" name [] [] accessorParams
      (variantAccessors kind)).Indifferent :=
    indifferent_entry fun _ _ _ _ _ => moves_variantAccessors kind _
  simp only [others, List.forall_mem_cons]
  exact ⟨(indifferent_entry fun _ _ _ _ _ => moves_equality _).withAttrs _,
    (indifferent_entry fun _ _ _ _ _ => moves_equality _).withAttrs _,
    indifferent_entry fun _ _ _ _ _ => moves_isVariant,
    haccessors .asVariant "AsVariant", haccessors .unwrap "Unwrap",
    haccessors .tryInto "TryIntoVariant", haccessors .tryUnwrap "TryUnwrap",
    indifferent_entry fun _ _ _ _ _ => moves_fold _ _,
    indifferent_entry fun _ _ _ _ _ => moves_fold _ _,
    indifferent_entry fun _ _ _ _ _ => moves_error _, List.forall_mem_nil _⟩

theorem indifferent_formats : ∀ d ∈ formats, d.Indifferent := by
  have hdisplay (name placeholder : Text) : (formatting name placeholder).Indifferent :=
    indifferent_entry fun _ _ _ _ _ => moves_display placeholder
  simp only [formats, List.forall_mem_cons]
  exact ⟨hdisplay _ _, hdisplay _ _, hdisplay _ _, hdisplay _ _, hdisplay _ _, hdisplay _ _,
    hdisplay _ _, hdisplay _ _, indifferent_entry fun _ _ _ _ _ => moves_debug,
    List.forall_mem_nil _⟩

theorem indifferent_of_mem : ∀ d ∈ catalogue, d.Indifferent := by
  simp only [catalogue, List.cons_append, List.forall_mem_cons, List.forall_mem_append]
  exact ⟨indifferent_entry fun _ _ _ _ _ => moves_constructor,
    ⟨⟨⟨⟨indifferent_conversions, indifferent_operators⟩, indifferent_access⟩,
      indifferent_others⟩, indifferent_formats⟩,
    indifferent_entry fun _ _ _ _ _ => moves_default, List.forall_mem_nil _⟩

theorem indifferent_of_find? {name : Text} {d : Derive} (h : find? name = some d) :
    d.Indifferent :=
  indifferent_of_mem d (List.mem_of_find?_eq_some h)

end Derive

/-! ## What is to report -/

variable {μ : Move} {support : Support} {decl : Decl} {k n : Nat}

/-- The expansion with its warnings at their new sites. -/
def Expansion.move (μ : Move) (e : Expansion) : Expansion :=
  { e with warnings := e.warnings.map (Diagnostic.move μ) }

theorem Derive.Indifferent.run {d : Derive} (h : d.Indifferent) (μ : Move) (n : Nat)
    (support : Support) (decl : Decl) :
    MovesBy μ (Expansion.move μ) (d.run support decl)
    (d.run support (decl.place μ.pos n)) :=
  .bind (h μ n support decl d.spec) fun (impls, warnings) _ =>
    .ok (⟨d.spec.name, impls, warnings⟩ : Expansion)

/-- Down by some lines. -/
def Move.down (k : Nat) : Move where
  pos p := ⟨p.line + k, p.column⟩
  site s := ⟨s.line + k, s.column⟩
  site_coe _ := rfl

/-- From above the first line down to it. -/
def Move.known : Move where
  pos p := ⟨max 1 p.line, p.column⟩
  site s := ⟨max 1 s.line, s.column⟩
  site_coe p := by
    have hline : max (1 : Int) (p.line : Int) = ((max 1 p.line : Nat) : Int) := by omega
    exact congrArg (Site.mk · p.column) hline

/-- Whether every part of the declaration stands on some line. -/
def Decl.Known (decl : Decl) : Prop := decl.place Move.known.pos 0 = decl

theorem Diagnostic.line_of_known {d : Diagnostic} (h : d.move .known = d) :
    1 ≤ d.site.line := by
  have hline : max 1 d.site.line = d.site.line := congrArg (fun d => d.site.line) h
  omega

/-- What is wrong with a declaration that stands somewhere does so too. -/
theorem Derive.Indifferent.line_of_error {d : Derive} (h : d.Indifferent)
    (hdecl : decl.Known)
    {e : Diagnostic} (he : d.run support decl = .error e) : 1 ≤ e.site.line := by
  have hrun := h.run .known 0 support decl
  rw [hdecl, he] at hrun
  exact Diagnostic.line_of_known (Except.error.inj hrun.eq_error).symm

theorem Diagnostic.complete_of_site {d : Diagnostic} (h : d.site ≠ ⟨0, 0⟩)
    (trait subject : Text) (pos : Position) :
    d.complete trait subject pos =
      if d.trait.isEmpty then d.withSubject trait subject else d := by
  unfold complete
  split <;> exact if_neg h

theorem Diagnostic.complete_down {d : Diagnostic} (h : 1 ≤ d.site.line)
    (trait subject : Text) (pos : Position) :
    (d.move (.down k)).complete trait subject ((Move.down k).pos pos) =
      (d.complete trait subject pos).move (.down k) := by
  have hsite : d.site ≠ ⟨0, 0⟩ := fun heq => by
    have hline : d.site.line = 0 := congrArg Site.line heq
    omega
  have hsite' : (d.move (.down k)).site ≠ ⟨0, 0⟩ := fun heq => by
    have hline : d.site.line + k = 0 := congrArg Site.line heq
    omega
  rw [complete_of_site hsite, complete_of_site hsite',
    apply_ite (Diagnostic.move (.down k))]
  rfl

/-! ## Declarations -/

/-- The outcome with its diagnostics at their new sites. -/
def Outcome.move (μ : Move) : Outcome → Outcome
  | .expanded e => .expanded (e.move μ)
  | .failed d => .failed (d.move μ)
  | .ignored name => .ignored name

theorem Decl.answer_place (h : decl.Known) (r : DeriveRequest) :
    (decl.place (Move.down k).pos n).answer support (r.place (Move.down k).pos) =
      (decl.answer support r).move (.down k) := by
  unfold answer
  rw [show (r.place (Move.down k).pos).name = r.name from rfl]
  cases hfind : Derive.find? r.name with
  | none => rfl
  | some d =>
      have hd := Derive.indifferent_of_find? hfind
      have hmoves := hd.run (.down k) n support decl
      have hline (e) (he : d.run support decl = .error e) := hd.line_of_error h he
      dsimp only
      generalize d.run support decl = x at hmoves hline
      generalize d.run support (decl.place (Move.down k).pos n) = y at hmoves
      cases hmoves with
      | ok e => rfl
      | error e => exact congrArg _ (Diagnostic.complete_down (hline e rfl) ..)

theorem uniqueRequests_place (f : Position → Position) (seen : List Text)
    (rs : List DeriveRequest) :
    uniqueRequests seen (rs.map (DeriveRequest.place f)) =
      (uniqueRequests seen rs).map (DeriveRequest.place f) := by
  induction rs generalizing seen with
  | nil => rfl
  | cons r rs ih =>
      rw [List.map_cons, uniqueRequests, uniqueRequests, show (r.place f).name =
        r.name from rfl]
      dsimp only
      rw [ih, ih, apply_ite (List.map (DeriveRequest.place f)), List.map_cons]

namespace ExpandedDecl

/-- What expanding a declaration yields, at its new place. -/
def move (μ : Move) (r : ExpandedDecl) : ExpandedDecl :=
  { r with
    pos := μ.pos r.pos
    expansions := r.expansions.map (Expansion.move μ)
    diagnostics := r.diagnostics.map (Diagnostic.move μ) }

variable (r : ExpandedDecl)

theorem generates_move : (r.move μ).generates = r.generates := by
  simp only [generates, failed, move, List.any_map, Function.comp_def,
    Diagnostic.isError_move, List.isEmpty_map]

theorem listing_move : (r.move μ).listing = r.listing := by
  simp only [listing, traits, move, List.map_map, Function.comp_def, Expansion.move,
    Expansion.code]

end ExpandedDecl

/-- A declaration further down expands to the same, with the same to report further
down. -/
theorem Decl.expand_place (h : decl.Known) :
    (decl.place (Move.down k).pos n).expand support =
      (decl.expand support).move (.down k) := by
  have houtcomes : (uniqueRequests [] (decl.place (Move.down k).pos n).derives).map
      ((decl.place (Move.down k).pos n).answer support) =
        ((uniqueRequests [] decl.derives).map (decl.answer support)).map
          (Outcome.move (.down k)) := by
    change (uniqueRequests [] (decl.derives.map _)).map _ = _
    rw [uniqueRequests_place, List.map_map, List.map_map]
    exact List.map_congr_left fun r _ => answer_place h r
  unfold expand ExpandedDecl.move
  dsimp only
  rw [houtcomes]
  generalize (uniqueRequests [] decl.derives).map (decl.answer support) = outcomes
  congr 1
  · rw [List.filterMap_map, List.map_filterMap]
    congr 1
    funext o
    cases o <;> rfl
  · rw [List.flatMap_map, List.map_flatMap]
    congr 1
    funext o
    cases o <;> rfl
  · rw [List.filterMap_map]
    congr 1
    funext o
    cases o <;> rfl

end Deriver
