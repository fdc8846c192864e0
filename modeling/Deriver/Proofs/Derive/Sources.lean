import Deriver.Proofs.Derive.Exhaustive

/-!
# The source of an error

Main statement: `error_binds_source`. A key goes to the field that is marked with it, or if
none is to the one that is inferred, and more than one is an error. The source of a list of
fields is what its key selects or, in a tuple of two, what stands beside the backtrace
(`sourceField_ok_iff`). The arms of a match are those of the variants that have a source, so
as many are missing as have none, and the arm of a variant is found by its name.
-/

namespace Deriver.Derive

theorem exists_error_iff {ε α : Type} {r : Except ε α} {p : Prop} {a : α}
    (h : ∀ b, r = .ok b ↔ p ∧ b = a) : (∃ e, r = .error e) ↔ ¬ p := by
  cases r with
  | error e =>
      refine iff_of_true ⟨e, rfl⟩ fun hp => ?_
      exact absurd ((h a).mpr ⟨hp, rfl⟩) nofun
  | ok b => exact iff_of_false nofun (not_not_intro ((h b).mp rfl).1)

/-! ## The field a key selects -/

/-- A key for the fields of an error: how a field is marked with it, and which fields it
goes to when none is marked. -/
structure ErrorKey where
  name : Text
  toggle : Options → Toggle
  recognises : FieldsView → FieldView → Bool

namespace ErrorKey

/-- A field in braces is recognised as the source by its name, the only field of a tuple by
its type. -/
def source : ErrorKey where
  name := "source"
  toggle := (·.source)
  recognises fields f :=
    if fields.style = .named then f.name == "source"
    else fields.all.length = 1 && !isBacktrace f.ty

/-- A field is recognised as the backtrace by its type, and in braces by its name too. -/
def backtrace : ErrorKey where
  name := "backtrace"
  toggle := (·.backtrace)
  recognises fields f :=
    (fields.style = .named && f.name == "backtrace") || isBacktrace f.ty

variable (k : ErrorKey) (fields : FieldsView)

/-- The fields that are marked. -/
def marked : List FieldView := fields.enabled.filter fun f => k.toggle f.options = .on

/-- The fields that count when none is marked. -/
def inferred : List FieldView :=
  fields.enabled.filter fun f => k.toggle f.options = .unset && k.recognises fields f

/-- Whether two fields are marked, or none is and two are inferred. -/
def Ambiguous : Prop :=
  1 < (k.marked fields).length ∨ k.marked fields = [] ∧ 1 < (k.inferred fields).length

/-- What a key selects. -/
def pick (s : Selection) (subject : Text) : Except Diagnostic (Option FieldView) :=
  pickField s fields subject k.name k.toggle (k.recognises fields)

/-- Whether a key is decided by what is marked, and else by what is inferred. -/
structure Picks (r : Except Diagnostic (Option FieldView)) : Prop where
  fails : (∃ d, r = .error d) ↔ k.Ambiguous fields
  allowed : ∀ f, r = .ok (some f) → f ∈ fields.enabled ∧ k.toggle f.options ≠ .off
  marked : ∀ f, k.marked fields = [f] → r = .ok (some f)
  inferred : ∀ f, k.marked fields = [] → k.inferred fields = [f] → r = .ok (some f)
  none : r = .ok none ↔ k.marked fields = [] ∧ k.inferred fields = []

variable {k fields}

theorem allowed_of_marked {f : FieldView} (h : f ∈ k.marked fields) :
    f ∈ fields.enabled ∧ k.toggle f.options ≠ .off := by
  simp only [ErrorKey.marked, List.mem_filter, decide_eq_true_eq] at h
  exact ⟨h.1, by simp [h.2]⟩

theorem allowed_of_inferred {f : FieldView} (h : f ∈ k.inferred fields) :
    f ∈ fields.enabled ∧ k.toggle f.options ≠ .off := by
  simp only [ErrorKey.inferred, List.mem_filter, Bool.and_eq_true, decide_eq_true_eq] at h
  exact ⟨h.1, by simp [h.2.1]⟩

/-- The field that is marked, or else the one that is inferred. -/
def selected (k : ErrorKey) (fields : FieldsView) : Option FieldView :=
  (k.marked fields).head?.or (k.inferred fields).head?

theorem allowed_of_selected {f : FieldView} (h : k.selected fields = some f) :
    f ∈ fields.enabled ∧ k.toggle f.options ≠ .off := by
  rcases Option.or_eq_some_iff.mp h with h | ⟨-, h⟩
  · exact allowed_of_marked (List.mem_of_head? h)
  · exact allowed_of_inferred (List.mem_of_head? h)

theorem pick_ok_iff {s : Selection} {subject : Text} {f? : Option FieldView} :
    k.pick fields s subject = .ok f? ↔ ¬ k.Ambiguous fields ∧ f? = k.selected fields := by
  unfold pick pickField Ambiguous selected ErrorKey.marked ErrorKey.inferred
  dsimp only
  generalize fields.enabled.filter (fun f => k.toggle f.options = .on) = marked
  generalize fields.enabled.filter (fun f =>
    k.toggle f.options = .unset && k.recognises fields f) = inferred
  match marked, inferred with
  | [f], _ => simp [eq_comm]
  | _ :: _ :: _, _ => simp
  | [], [] => simp [eq_comm]
  | [], [f] => simp [eq_comm]
  | [], _ :: _ :: _ => simp

theorem picks_pick (k : ErrorKey) (fields : FieldsView) (s : Selection) (subject : Text) :
    k.Picks fields (k.pick fields s subject) := by
  refine ⟨?_, fun f hf => ?_, fun f hf => ?_, fun f hm hf => ?_, ?_⟩
  · rw [exists_error_iff fun f? => pick_ok_iff, not_not]
  · exact allowed_of_selected (pick_ok_iff.mp hf).2.symm
  · exact pick_ok_iff.mpr (by simp [Ambiguous, selected, hf])
  · exact pick_ok_iff.mpr (by simp [Ambiguous, selected, hm, hf])
  · rw [pick_ok_iff, eq_comm, selected, Option.or_eq_none_iff, List.head?_eq_none_iff,
      List.head?_eq_none_iff]
    refine ⟨fun h => h.2, fun h => ⟨?_, h⟩⟩
    simp [Ambiguous, h.1, h.2]

end ErrorKey

/-! ## The source of a list of fields -/

/-- Whether a field stands beside the backtrace in a tuple of two, and may be the source. -/
def BesideBacktrace (fields : FieldsView) (f : FieldView) : Prop :=
  fields.style ≠ .named ∧ fields.all.length = 2 ∧ f ∈ fields.enabled ∧
    f.options.source ≠ .off ∧
    ∃ b, ErrorKey.backtrace.selected fields = some b ∧ f.index ≠ b.index

/-- Whether the source of a list of fields is the one that the key selects, or if there is
none the one that stands beside the backtrace. -/
structure SelectsSource (fields : FieldsView) (r : Except Diagnostic (Option FieldView)) :
    Prop where
  fails : (∃ d, r = .error d) ↔
    ErrorKey.source.Ambiguous fields ∨ ErrorKey.backtrace.Ambiguous fields
  allowed : ∀ f, r = .ok (some f) → f ∈ fields.enabled ∧ f.options.source ≠ .off
  marked : ∀ f f?, ErrorKey.source.marked fields = [f] → r = .ok f? → f? = some f
  inferred : ∀ f f?, ErrorKey.source.marked fields = [] →
    ErrorKey.source.inferred fields = [f] →
    r = .ok f? → f? = some f
  beside : ∀ f?, ErrorKey.source.marked fields = [] → ErrorKey.source.inferred fields = [] →
    r = .ok f? → ∀ f, f? = some f ↔ BesideBacktrace fields f

/-- The field beside the backtrace, as it is looked up. -/
def besideBacktrace? (fields : FieldsView) (backtrace : Option FieldView) :
    Option FieldView :=
  match backtrace, fields.all with
  | some b, [first, second] =>
      let other := if b.index = 0 then second else first
      if fields.style ≠ .named ∧ other.enabled ∧ other.options.source ≠ .off then some other
      else none
  | _, _ => none

theorem besideBacktrace?_eq_some {fields : FieldsView} (hordered : fields.Ordered)
    {f : FieldView} :
    besideBacktrace? fields (ErrorKey.backtrace.selected fields) = some f ↔
      BesideBacktrace fields f := by
  unfold besideBacktrace? BesideBacktrace FieldsView.enabled
  cases hb : ErrorKey.backtrace.selected fields with
  | none => simp
  | some b =>
      match hall : fields.all with
      | [] | [_] | _ :: _ :: _ :: _ => simp
      | [first, second] =>
          have hfirst : first.index = 0 := hordered.index 0 first (by rw [hall]; rfl)
          have hsecond : second.index = 1 := hordered.index 1 second (by rw [hall]; rfl)
          have hmem : b = first ∨ b = second := by
            have hmem := List.mem_of_mem_filter (ErrorKey.allowed_of_selected hb).1
            simpa [hall] using hmem
          rcases hmem with rfl | rfl
          · simp only [hfirst, if_true, List.length_cons, List.length_nil, List.mem_filter,
              List.mem_cons, List.not_mem_nil, or_false, Option.some.injEq, exists_eq_left',
              Option.ite_none_right_eq_some]
            grind
          · simp only [hsecond, Nat.one_ne_zero, if_false, List.length_cons,
              List.length_nil, List.mem_filter, List.mem_cons, List.not_mem_nil, or_false,
              Option.some.injEq, exists_eq_left', Option.ite_none_right_eq_some]
            grind

theorem sourceField_eq (s : Selection) (fields : FieldsView) (subject : Text) :
    sourceField s fields subject = (do
      let source ← ErrorKey.source.pick fields s subject
      let backtrace ← ErrorKey.backtrace.pick fields s subject
      return source.or (besideBacktrace? fields backtrace)) := by
  refine bind_congr fun source => bind_congr fun backtrace => ?_
  unfold besideBacktrace?
  match source, backtrace, fields.all with
  | some f, _, _ => rfl
  | none, none, _ => rfl
  | none, some b, [first, second] => simp [and_assoc]
  | none, some b, [] | none, some b, [_] | none, some b, _ :: _ :: _ :: _ => rfl

theorem sourceField_ok_iff {s : Selection} {fields : FieldsView} {subject : Text}
    {f? : Option FieldView} : sourceField s fields subject = .ok f? ↔
      ¬ ErrorKey.source.Ambiguous fields ∧ ¬ ErrorKey.backtrace.Ambiguous fields ∧
        f? = (ErrorKey.source.selected fields).or
          (besideBacktrace? fields (ErrorKey.backtrace.selected fields)) := by
  rw [sourceField_eq]
  constructor
  · intro h
    obtain ⟨source, hsource, h⟩ := of_bind_ok h
    obtain ⟨backtrace, hbacktrace, h⟩ := of_bind_ok h
    cases h
    obtain ⟨hclear, rfl⟩ := ErrorKey.pick_ok_iff.mp hsource
    obtain ⟨hclear', rfl⟩ := ErrorKey.pick_ok_iff.mp hbacktrace
    exact ⟨hclear, hclear', rfl⟩
  · rintro ⟨hclear, hclear', rfl⟩
    rw [ErrorKey.pick_ok_iff.mpr ⟨hclear, rfl⟩]
    simp only [ErrorKey.pick_ok_iff.mpr ⟨hclear', rfl⟩]
    rfl

theorem selectsSource_sourceField (s : Selection) {fields : FieldsView}
    (hordered : fields.Ordered)
    (subject : Text) : SelectsSource fields (sourceField s fields subject) := by
  refine ⟨?_, fun f hf => ?_, fun f f? hf hok => ?_, fun f f? hnone hf hok => ?_,
    fun f? hnone hnone' hok f => ?_⟩
  · rw [exists_error_iff fun f? => sourceField_ok_iff.trans and_assoc.symm,
      not_and_or, not_not, not_not]
  · obtain ⟨-, -, hselected⟩ := sourceField_ok_iff.mp hf
    rcases Option.or_eq_some_iff.mp hselected.symm with h | ⟨-, h⟩
    · exact ErrorKey.allowed_of_selected h
    · obtain ⟨-, -, henabled, hsource, -⟩ := (besideBacktrace?_eq_some hordered).mp h
      exact ⟨henabled, hsource⟩
  · obtain ⟨-, -, rfl⟩ := sourceField_ok_iff.mp hok
    simp [ErrorKey.selected, hf]
  · obtain ⟨-, -, rfl⟩ := sourceField_ok_iff.mp hok
    simp [ErrorKey.selected, hnone, hf]
  · obtain ⟨-, -, rfl⟩ := sourceField_ok_iff.mp hok
    rw [← besideBacktrace?_eq_some hordered, ErrorKey.selected, hnone, hnone']
    rfl

/-! ## The arms of a match -/

/-- How diagnostics name a variant. -/
def variantSubject (s : Selection) (v : VariantView) : Text :=
  Text.concat [s.decl.name, "::", v.name]

/-- The source of a variant, if it takes part and has one. -/
def sourceOf (s : Selection) (v : VariantView) : Option FieldView :=
  if v.enabled then (sourceField s v.fields (variantSubject s v)).toOption.join else none

/-- The arm of a variant with a source. -/
def sourceArm (v : VariantView) (f : FieldView) : Arm :=
  .yields (sourcePattern v f) (someSource "source" f)

/-- An arm with a source answers `Some` of what it binds as `source`, as a trait object.
What is optional is unpacked first, and the function ends without a source if there is
nothing in it. -/
theorem sourceArm_eq (v : VariantView) (f : FieldView) :
    sourceArm v f = .yields (sourcePattern v f)
    (Text.concat ["::core::option::Option::Some(",
      if (optionInner f.ty).isSome then "::core::option::Option::as_ref(source)?"
      else "source", ".__derivekit_as_dyn_error())"]) := by
  unfold sourceArm someSource
  split <;> rfl

/-- The arm for all variants without one. -/
def noSourceArm : Arm := .yields .wild Core.none

/-- The arm that is meant for a variant. -/
def armOf (s : Selection) (v : VariantView) : Arm :=
  ((sourceOf s v).map (sourceArm v)).getD noSourceArm

/-- Whether a pattern is that of a variant and binds `source` to a field and nothing
else. -/
structure BindsSource (v : VariantView) (f : FieldView) (p : Pat) : Prop where
  mem : f ∈ v.fields.all
  path : p.path? = some v.path
  takes : p.takes v.variant = true
  members : p.members = [(f.name, Text.ofString "source")]
  names : p.names = ["source"]

/-- Whether the arms of a match are those of the variants with a source, in order, and one
for the others if there are any. A variant that shares its name with no other one is taken
by the arm that is meant for it. -/
structure MatchesSources (s : Selection) (views : List VariantView) (arms : List Arm) :
    Prop where
  listed : arms = (views.filterMap fun v => (sourceOf s v).map (sourceArm v)) ++
    if views.any (fun v => (sourceOf s v).isNone) then [noSourceArm] else []
  binds : ∀ v ∈ views, ∀ f ∈ sourceOf s v, BindsSource v f (sourcePattern v f)
  others : noSourceArm ∈ arms ↔ ∃ v ∈ views, sourceOf s v = none
  taken : ∀ v ∈ views, (∀ w ∈ views, w.name = v.name → w = v) →
    arms.find? (·.takes v.variant) = some (armOf s v)

theorem of_sourceArms_enabled {s : Selection} {views : List VariantView}
    {found : List (VariantView × FieldView)}
    (h : sourceArms s (views.filter (·.enabled)) = .ok found) :
    (∀ v ∈ views, v.enabled → sourceField s v.fields (variantSubject s v) =
    .ok (sourceOf s v)) ∧ found = views.filterMap fun v => (sourceOf s v).map (v, ·) := by
  obtain ⟨pairs, hpairs, h⟩ := of_bind_ok h
  cases h
  have hall := forall₂_of_mapM hpairs
  have hpairs : pairs = (views.filter (·.enabled)).map fun v =>
      (v, (sourceField s v.fields (variantSubject s v)).toOption.join) := by
    refine (List.map_id _).symm.trans (map_eq_map_of_forall₂ hall fun v t ht => ?_)
    obtain ⟨f?, hf?, ht⟩ := of_bind_ok ht
    cases ht
    rw [variantSubject, hf?]
    rfl
  refine ⟨fun v hv henabled => ?_, ?_⟩
  · obtain ⟨t, -, ht⟩ :=
      exists_of_mem_forall₂ hall.flip (List.mem_filter.mpr ⟨hv, henabled⟩)
    obtain ⟨f?, hf?, ht⟩ := of_bind_ok ht
    unfold sourceOf
    rw [if_pos henabled, variantSubject, hf?]
    rfl
  · rw [hpairs, List.filterMap_map, List.filterMap_filter]
    refine List.filterMap_congr fun v _ => ?_
    unfold sourceOf
    cases v.enabled <;> rfl

theorem bindsSource_sourcePattern {v : VariantView} (hfaithful : v.Faithful) {f : FieldView}
    (hf : f ∈ v.fields.all) : BindsSource v f (sourcePattern v f) := by
  have htakes := takes_sourcePattern hfaithful hf
  have hindex := hfaithful.ordered.filter_index hf
  unfold sourcePattern at htakes ⊢
  cases hstyle : v.fields.style with
  | unit =>
      rw [hfaithful.ordered.all_eq_nil hstyle] at hf
      cases hf
  | named =>
      rw [hstyle] at htakes
      exact ⟨hf, rfl, htakes, rfl, rfl⟩
  | tuple =>
      rw [hstyle] at htakes
      refine ⟨hf, rfl, htakes, ?_, ?_⟩
      · have hnumbered (i : Nat) (g : FieldView) (hg : v.fields.all[i]? = some g) :
            g.name = Text.ofNat (0 + i) := by
          rw [hfaithful.ordered.name_eq hstyle hg, Nat.zero_add]
        have hmembers :=
          members_entries (fun g => g.index = f.index) (fun _ => "source") 0 hnumbered
        simp only [hindex, decide_eq_true_eq] at hmembers
        exact hmembers
      · have hnames :=
          names_entries v.fields.all (fun g => g.index = f.index) fun _ => "source"
        simp only [hindex, decide_eq_true_eq] at hnames
        exact hnames

section

variable {s : Selection} {views : List VariantView}

/-- The arms of the variants with a source, in order. -/
def sourceArmsOf (s : Selection) (views : List VariantView) : List Arm :=
  views.filterMap fun v => (sourceOf s v).map (sourceArm v)

theorem length_sourceArmsOf :
    (sourceArmsOf s views).length < views.length ↔ ∃ v ∈ views, sourceOf s v = none := by
  unfold sourceArmsOf
  rw [Nat.lt_iff_le_and_ne, and_iff_right (List.length_filterMap_le ..), ne_eq,
    List.filterMap_length_eq_length]
  simp

theorem name_of_takes_sourceArm (hsource : ∀ v ∈ views, ∀ f ∈ sourceOf s v,
    f ∈ v.fields.all)
    (hfaithful : ∀ v ∈ views, v.Faithful) {v w : VariantView} (hw : w ∈ views)
    (h : ((sourceOf s w).map (sourceArm w)).any (·.takes v.variant) = true) :
    w.name = v.name := by
  cases hf : sourceOf s w with
  | none =>
      rw [hf] at h
      cases h
  | some f =>
      rw [hf] at h
      exact VariantView.name_of_takes
        (bindsSource_sourcePattern (hfaithful w hw) (hsource w hw f hf)).path h

theorem find?_sourceArms (hsource : ∀ v ∈ views, ∀ f ∈ sourceOf s v, f ∈ v.fields.all)
    (hfaithful : ∀ v ∈ views, v.Faithful) {v : VariantView} (hv : v ∈ views)
    (hown : ∀ w ∈ views, w.name = v.name → w = v) :
    (sourceArmsOf s views).find? (·.takes v.variant) =
    (sourceOf s v).map (sourceArm v) := by
  have heq : ∀ w ∈ views, ((sourceOf s w).map (sourceArm w)).any
      (·.takes v.variant) = true →
      w = v := fun w hw h => hown w hw (name_of_takes_sourceArm hsource hfaithful hw h)
  rw [sourceArmsOf, List.find?_filterMap]
  cases hf : sourceOf s v with
  | none =>
      rw [List.find?_eq_none.mpr]
      · rfl
      · intro w hw h
        obtain rfl := heq w hw h
        simp [hf] at h
  | some f =>
      have htakes : ((sourceOf s v).map (sourceArm v)).any (·.takes v.variant) = true := by
        rw [hf]
        exact (bindsSource_sourcePattern (hfaithful v hv) (hsource v hv f hf)).takes
      have hfound : (views.find? fun w =>
          ((sourceOf s w).map (sourceArm w)).any (·.takes v.variant)).isSome = true :=
        List.find?_isSome.mpr ⟨v, hv, htakes⟩
      obtain ⟨w, hw⟩ := Option.isSome_iff_exists.mp hfound
      have htakes' := List.find?_some hw
      obtain rfl := heq w (List.mem_of_find?_eq_some hw) htakes'
      rw [hw, Option.bind_some, hf]

theorem matchesSources (hsource : ∀ v ∈ views, ∀ f ∈ sourceOf s v, f ∈ v.fields.all)
    (hfaithful : ∀ v ∈ views, v.Faithful) :
    MatchesSources s views (sourceArmsOf s views ++
      if (sourceArmsOf s views).length < views.length then [noSourceArm] else []) := by
  have hnot : noSourceArm ∉ sourceArmsOf s views := by
    intro h
    obtain ⟨v, -, hv⟩ := List.mem_filterMap.mp h
    obtain ⟨f, -, hf⟩ := Option.map_eq_some_iff.mp hv
    unfold sourceArm sourcePattern noSourceArm at hf
    split at hf <;> cases hf
  refine ⟨?_, fun v hv f hf => ?_, ?_, fun v hv hown => ?_⟩
  · rw [sourceArmsOf]
    refine congrArg _ (if_congr ?_ rfl rfl)
    rw [← sourceArmsOf, length_sourceArmsOf]
    simp
  · exact bindsSource_sourcePattern (hfaithful v hv) (hsource v hv f hf)
  · rw [List.mem_append, or_iff_right hnot, ← length_sourceArmsOf]
    split <;> simp_all
  · rw [List.find?_append, find?_sourceArms hsource hfaithful hv hown, armOf]
    cases hf : sourceOf s v with
    | some f => rfl
    | none =>
        rw [if_pos (length_sourceArmsOf.mpr ⟨v, hv, hf⟩)]
        rfl

end

/-! ## What is emitted for an enum -/

/-- Whether an implementation has a function just if some variant has a source, which then
consists of a match on the sources. -/
def EmitsSources (s : Selection) (views : List VariantView) (i : Impl) : Prop :=
  ∃ header body, i = .block header body ∧
    ((∀ v ∈ views, sourceOf s v = none) → body = []) ∧
    ((∃ v ∈ views, sourceOf s v ≠ none) → ∃ head use arms,
      body = [.block head [.line use, .choose "self" arms]] ∧ MatchesSources s views arms)

/-- What is made of an enum. -/
structure ErrorOfEnum (decl : Decl) (spec : TraitSpec) (variants : List Variant)
    (impls : List Impl) (s : Selection) (views : List VariantView) : Prop where
  selection : Selection.ofDecl decl spec = .ok s
  shape : s.shape = .enum views
  variants : views.map (·.variant) = variants
  faithful : ∀ v ∈ views, v.Faithful
  enabled : ∀ v ∈ views, v.enabled →
    sourceField s v.fields (variantSubject s v) = .ok (sourceOf s v)
  disabled : ∀ v ∈ views, ¬ v.enabled → sourceOf s v = none
  emits : ∃ i, impls = [i] ∧ EmitsSources s views i

theorem errorOfEnum_error {support : Support} {decl : Decl} {spec : TraitSpec}
    {variants : List Variant} {impls : List Impl} (hdata : decl.data = .enum variants)
    (hstyled : decl.data.Styled) (h : error support decl spec = .ok impls) :
    ∃ s views, ErrorOfEnum decl spec variants impls s views := by
  obtain ⟨s, hs, h⟩ := of_bind_ok h
  obtain ⟨views, hshape, rfl, hfaithful⟩ := views_of_ofDecl hdata hstyled hs
  rw [hshape] at h
  dsimp only at h
  obtain ⟨found, hfound, h⟩ := of_bind_ok h
  obtain ⟨henabled, rfl⟩ := of_sourceArms_enabled hfound
  have hdisabled : ∀ v ∈ views, ¬ v.enabled → sourceOf s v = none := fun v _ h => if_neg h
  refine ⟨s, views, hs, hshape, rfl, hfaithful, henabled, hdisabled, ?_⟩
  have hsource : ∀ v ∈ views, ∀ f ∈ sourceOf s v, f ∈ v.fields.all := by
    intro v hv f hf
    by_cases hv' : v.enabled
    · exact mem_of_sourceField ((henabled v hv hv').trans (congrArg _ hf))
    · exact absurd ((hdisabled v hv hv').symm.trans hf) nofun
  have harms (F : VariantView × FieldView → Arm) (hF : ∀ v f, F (v, f) = sourceArm v f) :
      (views.filterMap fun v => (sourceOf s v).map (v, ·)).map F =
        sourceArmsOf s views := by
    unfold sourceArmsOf
    rw [List.map_filterMap]
    simp only [Option.map_map, Function.comp_def, hF]
  have hnil : sourceArmsOf s views = [] ↔ ∀ v ∈ views, sourceOf s v = none := by
    simp [sourceArmsOf, List.filterMap_eq_nil_iff]
  rw [harms _ fun _ _ => rfl] at h
  by_cases hnone : sourceArmsOf s views = []
  · rw [hnone] at h
    cases h
    refine ⟨_, rfl, _, _, rfl, fun _ => rfl, fun hsome => ?_⟩
    obtain ⟨v, hv, hsome⟩ := hsome
    exact absurd (hnil.mp hnone v hv) hsome
  · rw [if_neg (by simpa using hnone)] at h
    cases h
    refine ⟨_, rfl, _, _, rfl, fun hall => absurd (hnil.mpr hall) hnone, fun _ => ?_⟩
    exact ⟨_, _, _, rfl, matchesSources hsource hfaithful⟩

/-- A key is decided by the fields that are marked, or else by those that are inferred,
and more than one is an error. In the code for a parsed enum the arm of a variant with a
source binds that field alone, and a last arm that is there just if some variant has none
takes those. -/
theorem error_binds_source :
    (∀ s fields subject, ErrorKey.source.Picks fields
    (ErrorKey.source.pick fields s subject) ∧
      ErrorKey.backtrace.Picks fields (ErrorKey.backtrace.pick fields s subject) ∧
      (fields.Ordered → SelectsSource fields (sourceField s fields subject))) ∧
    ∀ {source : Text} {decl : Decl} {d : Derive} {support : Support} {e : Expansion}
      {variants : List Variant}, find? "Error" = some d →
      decl ∈ (parse source).file.decls → decl.data = .enum variants →
      d.run support decl = .ok e →
      ∃ s views, ErrorOfEnum decl d.spec variants e.impls s views := by
  refine ⟨fun s fields subject =>
    ⟨ErrorKey.picks_pick .., ErrorKey.picks_pick .., fun hordered =>
    selectsSource_sourceField s hordered subject⟩, ?_⟩
  intro source decl d support e variants hd hdecl hdata h
  cases hd
  exact errorOfEnum_error hdata (styled_of_parse hdecl) (of_run_entry h)

/-- Of two variants the one without fields has no source. -/
theorem error_binds_source_second : ∃ d decl e variants s views, find? "Error" = some d ∧
    (parse "enum E { A(X), B }").file.decls = [decl] ∧ decl.data = .enum variants ∧
    d.run {} decl = .ok e ∧ ErrorOfEnum decl d.spec variants e.impls s views ∧
    views.map (fun v => (sourceOf s v).map (·.index)) = [some 0, none] := by
  obtain ⟨d, decl, e, variants, s, views, hd, hdecls, hdata, he, hs, hshape, hsources⟩ :
      ∃ d decl e variants s views, find? "Error" = some d ∧
        (parse "enum E { A(X), B }").file.decls = [decl] ∧ decl.data = .enum variants ∧
        d.run {} decl = .ok e ∧ Selection.ofDecl decl d.spec = .ok s ∧
          s.shape = .enum views ∧
        views.map (fun v => (sourceOf s v).map (·.index)) = [some 0, none] :=
    ⟨_, _, _, _, _, _, rfl, rfl, rfl, rfl, rfl, rfl, rfl⟩
  obtain ⟨s', views', herror⟩ := error_binds_source.2 hd
    (hdecls ▸ List.mem_singleton_self decl) hdata he
  cases hs.symm.trans herror.selection
  cases hshape.symm.trans herror.shape
  exact ⟨d, decl, e, variants, s, views, hd, hdecls, hdata, he, herror, hsources⟩

end Deriver.Derive
