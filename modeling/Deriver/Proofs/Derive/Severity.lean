import Deriver.Build.Basic

/-!
# How bad what is reported is

Main statement: `Decl.expand_made`. A derive fails with an error and with nothing
less, and what it says besides is a warning. So there is nothing to say about an
expansion that has neither errors nor warnings. Neither has lines of the source with
it yet: those are for the caller to put there.

Everything that can fail is described by `Throws`, which says what its errors are
like; it is proved along the program, one rule for each way of putting steps together.
-/

namespace Deriver

/-! ## Causes -/

/-- How bad a cause is. -/
def Cause.severity : Cause → Severity
  | .duplicateLiteral .. => .warning
  | _ => .error

/-- A diagnostic of a severity as it is made: no lines of the source are with it. -/
structure Diagnostic.Made (d : Diagnostic) (s : Severity) : Prop where
  severity : d.severity = s
  bare : d.snippet = none

theorem Position.made_diagnose (p : Position) (c : Cause) :
    (p.diagnose c).Made c.severity := by
  cases c <;> exact ⟨rfl, rfl⟩

/-! ## Steps that can fail -/

/-- A computation that succeeds, or fails with an error of a kind. -/
inductive Throws {ε α : Type} (P : ε → Prop) : Except ε α → Prop where
  | ok (v : α) : Throws P (.ok v)
  | error {e : ε} (h : P e) : Throws P (.error e)

section Throws

variable {ε ε' α β : Type} {P : ε → Prop} {Q : ε' →
  Prop} {x y : Except ε α} {f : α → Except ε β}

theorem Throws.bind (h : Throws P x) (hf : ∀ v, Throws P (f v)) : Throws P (x >>= f) := by
  cases h with
  | ok v => exact hf v
  | error h => exact .error h

theorem Throws.of_error {e : ε} (h : Throws P (.error e : Except ε α)) : P e := by
  cases h with
  | error h => exact h

theorem Throws.mapError {θ : ε → ε'} (h : Throws P x) (hθ : ∀ e, P e → Q (θ e)) :
    Throws Q (x.mapError θ) := by
  cases h with
  | ok v => exact .ok v
  | error h => exact .error (hθ _ h)

theorem Throws.ite {c : Prop} [Decidable c] (h : Throws P x) (h' : Throws P y) :
    Throws P (if c then x else y) := by
  split
  · exact h
  · exact h'

theorem Throws.mapM {g : β → Except ε α} (as : List β) (h : ∀ a, Throws P (g a)) :
    Throws P (as.mapM g) := by
  induction as with
  | nil => exact .ok []
  | cons a as ih =>
      rw [List.mapM_cons]
      exact .bind (h a) fun v => .bind ih fun vs => .ok (v :: vs)

end Throws

/-- Fails with errors only. -/
abbrev Errs {α : Type} (x : Except Diagnostic α) : Prop :=
  Throws (Diagnostic.Made · .error) x

/-- Whether a fault in helper attributes is an error. -/
def HelperFault.IsError : HelperFault → Prop
  | .diagnostic d => d.Made .error
  | .noFormatText => True

/-- Reads helper attributes and fails with errors only. -/
abbrev ErrsIn {α : Type} (x : Except HelperFault α) : Prop := Throws HelperFault.IsError x

/-- A fault stays an error if what it says changes, but not how bad it is. -/
theorem HelperFault.IsError.map {f : Diagnostic → Diagnostic}
    (hf : ∀ d s, d.Made s → (f d).Made s) {e : HelperFault} (h : e.IsError) :
    (e.map f).IsError := by
  cases e with
  | diagnostic d => exact hf d _ h
  | noFormatText => trivial

/-! ## Options -/

namespace Options

variable (attr key : Text) (item : Meta) (o : Options)

theorem errs_setRenameAll : Errs (setRenameAll attr item o) := by
  unfold setRenameAll
  split
  · refine .ite ?_ (.error ⟨rfl, rfl⟩)
    split
    · exact .ok _
    · split <;> exact .error ⟨rfl, rfl⟩
  · exact .error ⟨rfl, rfl⟩

theorem errs_setError : Errs (setError attr item o) := by
  unfold setError
  split
  · exact .ok _
  · exact .ok _
  · exact .error ⟨rfl, rfl⟩
  · exact .error ⟨rfl, rfl⟩

theorem errs_setTypes : Errs (setTypes attr item o) := by
  unfold setTypes
  split
  · split
    · exact .error ⟨rfl, rfl⟩
    · exact .ok _
  · exact .error ⟨rfl, rfl⟩

theorem errs_setFormat : ErrsIn (setFormat item o) := by
  unfold setFormat
  split
  · exact .ok _
  · exact .ok _
  · exact .error trivial

theorem errs_setKey : ErrsIn (setKey attr key item o) := by
  unfold setKey
  split
  · exact .ite (.ok _) (.error ⟨rfl, rfl⟩)
  · refine .ite ((errs_setRenameAll attr item o).mapError fun _ h => h) ?_
    refine .ite ((errs_setError attr item o).mapError fun _ h => h) ?_
    refine .ite ((errs_setTypes attr item o).mapError fun _ h => h) ?_
    exact .ite (errs_setFormat item o) (.ok o)

theorem Reading.made_conflict? {r : Reading} {d : Diagnostic}
    (h : r.conflict? attr = some d) : d.Made .error := by
  obtain ⟨⟨first, second⟩, -, hd⟩ := List.exists_of_findSome?_eq_some h
  dsimp only at hd
  split at hd
  · cases hd
    exact ⟨rfl, rfl⟩
  · cases hd

theorem Reading.errs_item (g : Grammar) (r : Reading) (m : Meta) : ErrsIn (r.item g m) := by
  unfold Reading.item
  refine .ite (.error ⟨rfl, rfl⟩) (.ite (.error ⟨rfl, rfl⟩) (.ite (.error ⟨rfl, rfl⟩) ?_))
  exact .bind (errs_setKey ..) fun o => .ok _

theorem Reading.errs_items (g : Grammar) (raw : Text) (r : Reading) (isFirst : Bool)
    (ms : List Meta) : ErrsIn (Reading.items g raw r isFirst ms) := by
  induction ms generalizing r isFirst with
  | nil => exact .ok r
  | cons m ms ih =>
      rw [Reading.items]
      refine .bind (errs_item g r m) fun r' => ?_
      split
      · exact ih r' false
      · exact .ite (.ok _) (.error ⟨rfl, rfl⟩)

theorem errs_ofAttributes (attrs : List Attribute) (names : List Text) (level : Level)
    (params : Params) : ErrsIn (ofAttributes attrs names level params) := by
  unfold ofAttributes
  split
  · exact .ok _
  · exact .error ⟨rfl, rfl⟩
  · dsimp only
    split
    · exact .ok _
    · exact .ok _
    · refine .bind (Reading.errs_items ..) fun r => ?_
      split
      · next hd => exact .error (Reading.made_conflict? _ hd)
      · exact .ok _
    · exact .error ⟨rfl, rfl⟩

end Options

/-! ## Selections -/

namespace Selection

variable (spec : TraitSpec) (decl : Decl)

theorem made_aboutField (f : Field) (i : Nat) (d : Diagnostic) (s : Severity)
    (h : d.Made s) : (aboutField f i d).Made s := ⟨h.severity, h.bare⟩

theorem errs_fieldOptions (fields : List Field) : ErrsIn (fieldOptions spec fields) :=
  .mapM _ fun (i, f) =>
    (Options.errs_ofAttributes ..).mapError fun _ h => h.map (made_aboutField f i)

theorem errs_viewFields (inherited : Bool) (fields : Fields) :
    ErrsIn (viewFields spec inherited fields) :=
  .bind (errs_fieldOptions spec fields.list) fun _ => .ok _

theorem made_aboutVariant (v : Variant) (d : Diagnostic) (s : Severity) (h : d.Made s) :
    (aboutVariant v d).Made s := ⟨h.severity, h.bare⟩

theorem errs_viewVariant (container : Options) (optedIn : Bool) (v : Variant)
    (own : Options) : ErrsIn (viewVariant spec container optedIn v own) :=
  .bind ((errs_viewFields spec _ v.fields).mapError fun _ h => h.map (made_aboutVariant v))
    fun _ => .ok _

theorem errs_viewVariants (container : Options) (variants : List Variant) :
    ErrsIn (viewVariants spec container variants) := by
  refine .bind (.mapM _ fun v => ?_) fun own => .mapM _ fun (v, o) => ?_
  · exact (Options.errs_ofAttributes ..).mapError fun _ h => h.map (made_aboutVariant v)
  · exact errs_viewVariant spec container _ v o

theorem made_diagnose {e : HelperFault} (h : e.IsError) :
    (diagnose spec decl e).Made .error := by
  cases e with
  | diagnostic d =>
      change (aboutDecl spec decl d).Made .error
      unfold aboutDecl
      split <;> exact ⟨h.severity, h.bare⟩
  | noFormatText => exact ⟨rfl, rfl⟩

theorem errs_ofDecl : Errs (ofDecl decl spec) := by
  unfold ofDecl
  dsimp only
  split
  · exact .error ⟨rfl, rfl⟩
  · refine Throws.mapError ?_ fun _ h => made_diagnose spec decl h
    exact .bind (Options.errs_ofAttributes ..) fun c =>
      .bind (errs_viewFields ..) fun _ => .ok _
  · refine Throws.mapError ?_ fun _ h => made_diagnose spec decl h
    exact .bind (Options.errs_ofAttributes ..) fun c =>
      .bind (errs_viewVariants ..) fun _ => .ok _

variable (s : Selection)

theorem errs_structFields : Errs s.structFields := by
  unfold structFields
  split
  · exact .ok _
  · exact .error ⟨rfl, rfl⟩

theorem errs_enumVariants : Errs s.enumVariants := by
  unfold enumVariants
  split
  · exact .ok _
  · exact .error ⟨rfl, rfl⟩

theorem errs_someFields : Errs s.someFields :=
  .bind (errs_structFields s) fun _ => .ite (.error ⟨rfl, rfl⟩)
    (.ite (.error ⟨rfl, rfl⟩) (.ok _))

theorem errs_singleOf (fields : FieldsView) (subject : Text) :
    Errs (s.singleOf fields subject) := by
  unfold singleOf
  split
  · exact .ok _
  · exact .error ⟨rfl, rfl⟩

theorem errs_singleField : Errs s.singleField :=
  .bind (errs_structFields s) fun fields =>
    .ite (.error ⟨rfl, rfl⟩) (errs_singleOf s fields _)

theorem errs_variantField (v : VariantView) : Errs (s.variantField v) := errs_singleOf s _ _

end Selection

/-! ## Formats -/

theorem FormatSpec.errs_uses (f : FormatSpec) (attr : Text) : Errs (f.uses attr) := by
  unfold uses
  split
  · exact .error ⟨rfl, rfl⟩
  · generalize f.resolve 0 _ = resolved
    cases resolved with
    | ok _ => exact .ok _
    | error _ => exact .error ⟨rfl, rfl⟩

/-! ## Derives -/

namespace Derive

open Selection

variable {decl : Decl} {spec : TraitSpec}

theorem errs_selectStruct : Errs (selectStruct decl spec) :=
  .ite (.error ⟨rfl, rfl⟩) (.bind (errs_ofDecl spec decl) fun s =>
    .bind (errs_structFields s) fun _ => .ok _)

theorem errs_selectFields : Errs (selectFields decl spec) :=
  .bind errs_selectStruct fun (s, _) => .bind (errs_someFields s) fun _ => .ok _

theorem errs_selectEnum : Errs (selectEnum decl spec) := by
  unfold selectEnum
  split
  · exact .error ⟨rfl, rfl⟩
  · exact .bind (errs_ofDecl spec decl) fun s => .bind (errs_enumVariants s) fun _ => .ok _

/-! ### Access -/

variable (support : Support) (s : Selection)

theorem errs_derefTargets (variants : List VariantView) :
    Errs (derefTargets s variants) := by
  unfold derefTargets
  dsimp only
  split
  · exact .error ⟨rfl, rfl⟩
  · refine .bind (errs_variantField ..) fun _ => .bind (.ok _) fun first =>
      .mapM _ fun v => ?_
    exact .bind (errs_variantField ..) fun _ => .ite (.error ⟨rfl, rfl⟩) (.ok _)

theorem errs_deref (isMut : Bool) : Errs (deref isMut decl spec) := by
  unfold deref
  refine .bind (errs_ofDecl spec decl) fun s => ?_
  split
  · exact .bind (errs_singleField s) fun _ => .ok _
  · exact .bind (errs_derefTargets s _) fun _ => .ok _

theorem errs_derefToInner (isMut : Bool) : Errs (derefToInner isMut decl spec) :=
  .bind errs_selectStruct fun (s, _) => .bind (errs_singleField s) fun _ => .ok _

theorem errs_indexedFields (variants : List VariantView) :
    Errs (indexedFields s variants) := by
  unfold indexedFields
  dsimp only
  split
  · exact .error ⟨rfl, rfl⟩
  · refine .bind (errs_variantField ..) fun _ => .bind (.ok _) fun first =>
      .mapM _ fun v => ?_
    exact .bind (errs_variantField ..) fun _ => .ite (.error ⟨rfl, rfl⟩) (.ok _)

theorem errs_index (isMut : Bool) : Errs (index isMut decl spec) := by
  unfold index
  refine .bind (errs_ofDecl spec decl) fun s => ?_
  dsimp only
  split
  · exact .bind (errs_singleField s) fun _ => .bind (.ok _) fun _ => .ok _
  · exact .bind (errs_indexedFields s _) fun _ => .bind (.ok _) fun _ => .ok _

theorem errs_iterator : Errs (iterator decl spec) :=
  .bind errs_selectStruct fun (s, _) => .bind (errs_singleField s) fun _ => .ok _

theorem errs_intoIterator : Errs (intoIterator decl spec) :=
  .bind errs_selectStruct fun (s, _) => .bind (errs_singleField s) fun _ => .ok _

theorem errs_read : Errs (read decl spec) := by
  unfold read
  refine .bind (errs_ofDecl spec decl) fun s => ?_
  dsimp only
  split
  · exact .bind (errs_singleField s) fun _ => .bind (.ok _) fun _ => .ok _
  · refine .bind (.mapM _ fun v => ?_) fun _ => .bind (.ok _) fun _ => .ok _
    exact .bind (errs_variantField ..) fun _ => .ok _

/-! ### Operators -/

theorem errs_addEnum (variants : List VariantView) : Errs (addEnum support s variants) := by
  unfold addEnum
  dsimp only
  split
  · exact .error ⟨rfl, rfl⟩
  · exact .ok _

theorem errs_addLike : Errs (addLike support decl spec) := by
  unfold addLike
  refine .bind (errs_ofDecl spec decl) fun s => ?_
  split
  · exact .bind (errs_someFields s) fun _ => .ok _
  · exact errs_addEnum support s _

theorem errs_mulLike : Errs (mulLike decl spec) := .bind errs_selectFields fun _ => .ok _

theorem errs_notLike : Errs (notLike support decl spec) := by
  unfold notLike
  refine .bind (errs_ofDecl spec decl) fun s => ?_
  dsimp only
  split
  · exact .bind (errs_someFields s) fun _ => .ok _
  · exact .ok _

theorem errs_assignLike (isScalar : Bool) : Errs (assignLike isScalar decl spec) :=
  .bind errs_selectFields fun _ => .ok _

theorem errs_fold (path method : Text) : Errs (fold path method decl spec) :=
  .bind errs_selectFields fun _ => .ok _

/-! ### Construction and comparison -/

theorem errs_constructor : Errs (constructor decl spec) :=
  .bind errs_selectStruct fun _ => .ok _

theorem errs_defaultVariant (variants : List VariantView) :
    Errs (defaultVariant decl spec variants) := by
  unfold defaultVariant
  split
  · exact .ok _
  · exact .error ⟨rfl, rfl⟩
  · exact .error ⟨rfl, rfl⟩

theorem errs_default : Errs (default decl spec) := by
  unfold default
  refine .bind (errs_ofDecl spec decl) fun s => ?_
  dsimp only
  split
  · exact .ok _
  · exact .bind (errs_defaultVariant _) fun _ => .ok _

theorem errs_equality (isMarker : Bool) : Errs (equality isMarker decl spec) :=
  .bind (errs_ofDecl spec decl) fun _ => .ite (.ok _) (.ok _)

/-! ### Conversions -/

theorem errs_fromFields (fields : FieldsView) (path : Text) (extra : List Text) :
    Errs (fromFields s fields path extra) := by
  unfold fromFields
  dsimp only
  refine .ite (.ok _) ?_
  split
  · exact .ok _
  · exact .error ⟨rfl, rfl⟩

theorem errs_fromVariants (owners : List (Text × Text)) (variants : List VariantView) :
    Errs (fromVariants s owners variants) := by
  induction variants generalizing owners with
  | nil => exact .ok []
  | cons v vs ih =>
      rw [fromVariants]
      refine .ite (ih owners) ?_
      dsimp only
      split
      · exact .error ⟨rfl, rfl⟩
      · exact .bind (errs_fromFields ..) fun _ => .bind (ih _) fun _ => .ok _

theorem errs_fromPayload : Errs (fromPayload decl spec) := by
  unfold fromPayload
  refine .bind (errs_ofDecl spec decl) fun s => ?_
  split
  · exact errs_fromFields ..
  · exact errs_fromVariants ..

theorem errs_intoPayload : Errs (intoPayload decl spec) := by
  unfold intoPayload
  refine .bind errs_selectStruct fun (s, fields) => .ite (.ok _) ?_
  split
  · exact .ok _
  · exact .error ⟨rfl, rfl⟩

theorem errs_refField (isMut alone : Bool) (f : FieldView) :
    Errs (refField isMut s alone f) :=
  .ite (.ite (.error ⟨rfl, rfl⟩) (.ok _)) (.ite (.ok _) (.ok _))

theorem errs_claimTargets (f : FieldView) (claimed : List (Text × Text))
    (targets : List Text) : Errs (claimTargets s f claimed targets) := by
  induction targets generalizing claimed with
  | nil => exact .ok claimed
  | cons target rest ih =>
      rw [claimTargets]
      split
      · exact .error ⟨rfl, rfl⟩
      · exact ih _

theorem errs_refFields (isMut alone : Bool) (claimed : List (Text × Text))
    (fields : List FieldView) : Errs (refFields isMut s alone claimed fields) := by
  induction fields generalizing claimed with
  | nil => exact .ok []
  | cons f fs ih =>
      rw [refFields]
      refine .bind (errs_refField ..) fun own => .bind (errs_claimTargets ..) fun _ => ?_
      exact .bind (ih _) fun _ => .ok _

theorem errs_refConversion (isMut : Bool) : Errs (refConversion isMut decl spec) :=
  .bind errs_selectFields fun _ => .ite (.error ⟨rfl, rfl⟩) (errs_refFields ..)

theorem errs_tryFromRepr : Errs (tryFromRepr support decl spec) :=
  .bind errs_selectEnum fun _ => .ok _

theorem errs_tryIntoPayload : Errs (tryIntoPayload support decl spec) :=
  .bind errs_selectEnum fun _ => .ok _

/-! ### Formatting -/

theorem errs_displayStruct (fields : FieldsView) : Errs (displayStruct s fields) := by
  unfold displayStruct
  split
  · exact .bind (FormatSpec.errs_uses ..) fun _ => .ok _
  · exact .ok _
  · exact .ok _
  · exact .error ⟨rfl, rfl⟩

theorem errs_sharedFormat : Errs (sharedFormat s) := by
  unfold sharedFormat
  split
  · exact .ok _
  · exact .bind (FormatSpec.errs_uses ..) fun _ => .ite (.error ⟨rfl, rfl⟩) (.ok _)

theorem errs_variantOutput (placeholder : Text) (inShared : Bool) (v : VariantView)
    (g : ImplGenerics) : Errs (variantOutput placeholder s inShared v g) := by
  unfold variantOutput
  split
  · exact .bind (FormatSpec.errs_uses ..) fun _ => .ok _
  · exact .ok _
  · exact .ok _
  · exact .error ⟨rfl, rfl⟩

theorem errs_displayArm (placeholder : Text) (shared : Option SharedFormat)
    (g : ImplGenerics)
    (v : VariantView) : Errs (displayArm placeholder s shared g v) := by
  unfold displayArm
  refine .ite (.error ⟨rfl, rfl⟩) ?_
  dsimp only
  split
  · exact .bind (errs_variantOutput ..) fun _ => .ok _
  · exact .ite (.ok _) (.bind (errs_variantOutput ..) fun _ => .ok _)

theorem errs_displayArms (placeholder : Text) (shared : Option SharedFormat)
    (g : ImplGenerics)
    (variants : List VariantView) : Errs (displayArms placeholder s shared g variants) := by
  induction variants generalizing g with
  | nil => exact .ok _
  | cons v vs ih =>
      rw [displayArms]
      exact .bind (errs_displayArm ..) fun _ => .bind (ih _) fun _ => .ok _

theorem errs_display (placeholder : Text) : Errs (display placeholder decl spec) := by
  unfold display
  refine .bind (errs_ofDecl spec decl) fun s => ?_
  dsimp only
  split
  · exact .bind (errs_displayStruct ..) fun _ => .ok _
  · exact .bind (.ok _) fun _ => .ok _
  · refine .bind (errs_sharedFormat s) fun _ => .bind (errs_displayArms ..) fun _ => ?_
    exact .bind (.ok _) fun _ => .ok _

theorem errs_checkFieldFormats (subject : Text) (own : Option FormatSpec)
    (fields : FieldsView) : Errs (checkFieldFormats s subject own fields) := by
  unfold checkFieldFormats
  split
  · exact .error ⟨rfl, rfl⟩
  · exact .ok _

theorem errs_debugField (fields : FieldsView) (g : ImplGenerics) (f : FieldView) :
    Errs (debugField s fields g f) := by
  unfold debugField
  split
  · exact .bind (FormatSpec.errs_uses ..) fun _ => .ok _
  · exact .ok _

theorem errs_debugFields (fields : FieldsView) (g : ImplGenerics) (fs : List FieldView) :
    Errs (debugFields s fields g fs) := by
  induction fs generalizing g with
  | nil => exact .ok _
  | cons f fs ih =>
      rw [debugFields]
      exact .bind (errs_debugField ..) fun _ => .bind (ih _) fun _ => .ok _

theorem errs_debugOutput (name : Text) (own : Option FormatSpec) (fields : FieldsView)
    (g : ImplGenerics) : Errs (debugOutput s name own fields g) := by
  unfold debugOutput
  split
  · exact .bind (FormatSpec.errs_uses ..) fun _ => .ok _
  · exact .ok _
  · exact .bind (errs_debugFields ..) fun _ => .ok _

theorem errs_debugArm (g : ImplGenerics) (v : VariantView) : Errs (debugArm s g v) :=
  .bind (errs_checkFieldFormats ..) fun _ => .bind (errs_debugOutput ..) fun _ => .ok _

theorem errs_debugArms (g : ImplGenerics) (variants : List VariantView) :
    Errs (debugArms s g variants) := by
  induction variants generalizing g with
  | nil => exact .ok _
  | cons v vs ih =>
      rw [debugArms]
      exact .bind (errs_debugArm ..) fun _ => .bind (ih _) fun _ => .ok _

theorem errs_debug : Errs (debug decl spec) := by
  unfold debug
  refine .bind (errs_ofDecl spec decl) fun s => ?_
  split
  · exact .bind (errs_checkFieldFormats ..) fun _ =>
      .bind (errs_debugOutput ..) fun _ => .ok _
  · exact .ok _
  · exact .bind (errs_debugArms ..) fun _ => .ok _

/-! ### Errors and variants -/

theorem errs_pickField (fields : FieldsView) (subject key : Text)
    (toggle : Options → Toggle)
    (recognised : FieldView → Bool) :
    Errs (pickField s fields subject key toggle recognised) := by
  unfold pickField
  dsimp only
  split
  · exact .ok _
  · exact .error ⟨rfl, rfl⟩
  · exact .ok _
  · exact .ok _
  · exact .error ⟨rfl, rfl⟩

theorem errs_sourceField (fields : FieldsView) (subject : Text) :
    Errs (sourceField s fields subject) := by
  unfold sourceField
  refine .bind (errs_pickField ..) fun _ => .bind (errs_pickField ..) fun _ => ?_
  split
  · exact .ok _
  · exact .ok _

theorem errs_sourceArms (variants : List VariantView) : Errs (sourceArms s variants) :=
  .bind (.mapM _ fun _ => .bind (errs_sourceField ..) fun _ => .ok _) fun _ => .ok _

theorem errs_error : Errs (error support decl spec) := by
  unfold error
  refine .bind (errs_ofDecl spec decl) fun s => ?_
  dsimp only
  split
  · refine .bind (errs_sourceField ..) fun source => ?_
    split
    · exact .ok _
    · exact .ok _
  · exact .bind (errs_sourceArms ..) fun _ => .ok _

theorem errs_isVariant : Errs (isVariant decl spec) := .bind errs_selectEnum fun _ => .ok _

theorem errs_variantAccessors (kind : Accessor) :
    Errs (variantAccessors kind support decl spec) := by
  unfold variantAccessors
  refine .bind errs_selectEnum fun (s, variants) => ?_
  dsimp only
  split
  · exact .error ⟨rfl, rfl⟩
  · exact .ok _

/-! ### Parsing -/

theorem errs_parseStruct : Errs (parseStruct s) :=
  .bind (errs_singleField s) fun _ => .bind (errs_structFields s) fun _ => .ok _

theorem errs_fromStr : Errs (fromStr support decl spec) := by
  unfold fromStr
  refine .bind (errs_ofDecl spec decl) fun s => ?_
  split
  · exact .bind (errs_parseStruct s) fun _ => .ok _
  · dsimp only
    split
    · exact .error ⟨rfl, rfl⟩
    · exact .ok _

theorem made_literalArms (variants : List VariantView) :
    ∀ w ∈ (literalArms s variants).2, w.Made .warning := by
  intro w hw
  unfold literalArms at hw
  split at hw
  · cases hw
  · obtain ⟨⟨v, kept⟩, -, rfl⟩ := List.mem_map.mp hw
    exact ⟨rfl, rfl⟩

theorem made_fromStr {impls : List Impl} {warnings : List Diagnostic}
    (h : fromStr support decl spec = .ok (impls, warnings)) :
    ∀ w ∈ warnings, w.Made .warning := by
  unfold fromStr at h
  cases hs : Selection.ofDecl decl spec with
  | error e => rw [hs] at h; cases h
  | ok s =>
      rw [hs] at h
      dsimp only [bind, Except.bind] at h
      split at h
      · cases hparse : parseStruct s with
        | error e => rw [hparse] at h; cases h
        | ok _ =>
            rw [hparse] at h
            cases h
            nofun
      · split at h
        · cases h
        · cases h
          exact made_literalArms s _

/-! ## The catalogue -/

/-- A derive that fails with errors only and warns with warnings only. -/
structure Graded (d : Derive) : Prop where
  errs : ∀ support decl spec, Errs (d.expand support decl spec)
  warns : ∀ support decl spec impls warnings, d.expand support decl spec =
    .ok (impls, warnings) →
    ∀ w ∈ warnings, w.Made .warning

variable {support}

theorem Graded.errs_run {d : Derive} (h : d.Graded) : Errs (d.run support decl) :=
  .bind (h.errs ..) fun _ => .ok _

theorem Graded.warns_run {d : Derive} (h : d.Graded) {e : Expansion}
    (hrun : d.run support decl = .ok e) : ∀ w ∈ e.warnings, w.Made .warning := by
  unfold run at hrun
  cases hx : d.expand support decl d.spec with
  | error e => rw [hx] at hrun; cases hrun
  | ok v =>
      rw [hx] at hrun
      cases hrun
      exact h.warns _ _ _ _ _ hx

theorem graded_entry {family name path method : Text} {params : Params}
    {expand : Support → Expand}
    (h : ∀ support decl spec, Errs (expand support decl spec)) :
    (entry family name path method params expand).Graded where
  errs support decl spec := .bind (h support decl spec) fun _ => .ok _
  warns support decl spec impls warnings hok := by
    change (expand support decl spec >>= _) = _ at hok
    cases hx : expand support decl spec with
    | error e => rw [hx] at hok; cases hok
    | ok v =>
        rw [hx] at hok
        cases hok
        nofun

theorem Graded.withAttrs {d : Derive} (h : d.Graded) (attrs : List Text) :
    (d.withAttrs attrs).Graded := ⟨h.errs, h.warns⟩

theorem graded_parsing : parsing.Graded :=
  ⟨fun support _ _ => errs_fromStr support, fun support _ _ _ _ h => made_fromStr support h⟩

theorem graded_conversions : ∀ d ∈ conversions, d.Graded := by
  simp only [conversions, List.forall_mem_cons]
  exact ⟨graded_entry fun _ _ _ => errs_fromPayload,
    graded_entry fun _ _ _ => errs_intoPayload,
    graded_entry fun _ _ _ => errs_tryFromRepr _,
    graded_entry fun _ _ _ => errs_tryIntoPayload _,
    graded_entry fun _ _ _ => errs_refConversion _,
    graded_entry fun _ _ _ => errs_refConversion _,
    graded_entry fun _ _ _ => errs_refConversion _,
    graded_entry fun _ _ _ => errs_refConversion _, graded_parsing, List.forall_mem_nil _⟩

theorem graded_operators : ∀ d ∈ operators, d.Graded := by
  simp only [operators, List.forall_mem_append, List.forall_mem_map]
  exact ⟨⟨⟨⟨fun _ _ => graded_entry fun _ _ _ => errs_addLike _,
    fun _ _ => graded_entry fun _ _ _ => errs_mulLike⟩,
    fun _ _ => graded_entry fun _ _ _ => errs_notLike _⟩,
    fun _ _ => graded_entry fun _ _ _ => errs_assignLike _⟩,
    fun _ _ => graded_entry fun _ _ _ => errs_assignLike _⟩

theorem graded_access : ∀ d ∈ access, d.Graded := by
  simp only [access, List.forall_mem_cons]
  exact ⟨graded_entry fun _ _ _ => errs_deref _, graded_entry fun _ _ _ => errs_deref _,
    graded_entry fun _ _ _ => errs_derefToInner _,
    graded_entry fun _ _ _ => errs_derefToInner _,
    graded_entry fun _ _ _ => errs_index _, graded_entry fun _ _ _ => errs_index _,
    graded_entry fun _ _ _ => errs_iterator, graded_entry fun _ _ _ => errs_intoIterator,
    graded_entry fun _ _ _ => errs_read, List.forall_mem_nil _⟩

theorem graded_others : ∀ d ∈ others, d.Graded := by
  have haccessors (kind : Accessor)
      (name : Text) : (entry "variants" name [] [] accessorParams
      (variantAccessors kind)).Graded :=
    graded_entry fun support _ _ => errs_variantAccessors support kind
  simp only [others, List.forall_mem_cons]
  exact ⟨(graded_entry fun _ _ _ => errs_equality _).withAttrs _,
    (graded_entry fun _ _ _ => errs_equality _).withAttrs _,
    graded_entry fun _ _ _ => errs_isVariant, haccessors .asVariant "AsVariant",
    haccessors .unwrap "Unwrap", haccessors .tryInto "TryIntoVariant",
    haccessors .tryUnwrap "TryUnwrap", graded_entry fun _ _ _ => errs_fold _ _,
    graded_entry fun _ _ _ => errs_fold _ _, graded_entry fun _ _ _ => errs_error _,
    List.forall_mem_nil _⟩

theorem graded_formats : ∀ d ∈ formats, d.Graded := by
  have hdisplay (name placeholder : Text) : (formatting name placeholder).Graded :=
    graded_entry fun _ _ _ => errs_display placeholder
  simp only [formats, List.forall_mem_cons]
  exact ⟨hdisplay _ _, hdisplay _ _, hdisplay _ _, hdisplay _ _, hdisplay _ _, hdisplay _ _,
    hdisplay _ _, hdisplay _ _, graded_entry fun _ _ _ => errs_debug, List.forall_mem_nil _⟩

theorem graded_of_mem : ∀ d ∈ catalogue, d.Graded := by
  simp only [catalogue, List.cons_append, List.forall_mem_cons, List.forall_mem_append]
  exact ⟨graded_entry fun _ _ _ => errs_constructor,
    ⟨⟨⟨⟨graded_conversions, graded_operators⟩, graded_access⟩, graded_others⟩,
      graded_formats⟩,
    graded_entry fun _ _ _ => errs_default, List.forall_mem_nil _⟩

theorem graded_of_find? {name : Text} {d : Derive} (h : find? name = some d) : d.Graded :=
  graded_of_mem d (List.mem_of_find?_eq_some h)

end Derive

/-! ## Declarations -/

theorem Diagnostic.Made.complete {d : Diagnostic} {s : Severity} (h : d.Made s)
    (trait subject : Text) (pos : Position) : (d.complete trait subject pos).Made s := by
  unfold Diagnostic.complete
  dsimp only
  split <;> split <;> exact ⟨h.severity, h.bare⟩

/-- What is to report on a declaration are errors and warnings, as they were made. -/
theorem Decl.expand_made (support : Support) (decl : Decl) :
    ∀ d ∈ (decl.expand support).diagnostics, d.Made .error ∨ d.Made .warning := by
  intro d hd
  obtain ⟨outcome, houtcome, hd⟩ := List.mem_flatMap.mp hd
  obtain ⟨r, -, rfl⟩ := List.mem_map.mp houtcome
  unfold Decl.answer at hd
  cases hfind : Derive.find? r.name with
  | none =>
      rw [hfind] at hd
      cases hd
  | some derive =>
      have hgraded := Derive.graded_of_find? hfind
      cases hrun : derive.run support decl with
      | error e =>
          have herr := (hrun ▸ hgraded.errs_run : Errs (.error e)).of_error
          simp only [hfind, hrun] at hd
          obtain rfl := List.mem_singleton.mp hd
          exact Or.inl (herr.complete ..)
      | ok v =>
          simp only [hfind, hrun] at hd
          exact Or.inr (hgraded.warns_run hrun d hd)

/-! ## Sources -/

/-- What a diagnostic of a source is made from: an error or a warning as it was made, with
its lines and the name of a file. -/
def Diagnostic.Raised (source : Text) (d : Diagnostic) : Prop :=
  ∃ (raw : Diagnostic) (file : Text), (raw.Made .error ∨ raw.Made .warning) ∧
    d = { raw.withSource (source.splitOn "\n") with file := file }

theorem raised_placeDiagnostics {path source : Text} {ds : List Diagnostic}
    (h : ∀ d ∈ ds, d.Made .error ∨ d.Made .warning) :
    ∀ d ∈ placeDiagnostics path source ds, d.Raised source := by
  intro d hd
  obtain ⟨shown, hshown, rfl⟩ := List.mem_map.mp hd
  obtain ⟨raw, hraw, rfl⟩ := List.mem_map.mp hshown
  split
  · exact ⟨raw, path, h raw hraw, rfl⟩
  · exact ⟨raw, _, h raw hraw, rfl⟩

/-- Everything that is reported on a source was made by a rule of the grammar or a
derive. -/
theorem BuildOptions.raised_expandSource (o : BuildOptions) (path source : Text) :
    ∀ d ∈ (o.expandSource path source).diagnostics, d.Raised source := by
  intro d hd
  unfold expandSource expandParsed at hd
  dsimp only at hd
  split at hd
  · obtain ⟨r, hr, hd⟩ := List.mem_flatMap.mp hd
    obtain ⟨r₀, hr₀, rfl⟩ := List.mem_map.mp hr
    obtain ⟨decl, -, rfl⟩ := List.mem_map.mp hr₀
    exact raised_placeDiagnostics (Decl.expand_made o.support decl) d hd
  · refine raised_placeDiagnostics (fun d hd => ?_) d hd
    obtain ⟨e, -, rfl⟩ := List.mem_map.mp hd
    exact .inl (Position.made_diagnose ..)

end Deriver
