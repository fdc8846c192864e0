import Deriver.Proofs.Helper.Arguments
import Deriver.Proofs.Select.Views

/-!
# The rule of what takes part

Main statements: `Selection.resolution_of_ofDecl` and `Selection.oneState_of_ofDecl`.
What a field or variant comes to is a rule on the options of its list alone, and on
what the tiers above say: it takes part unless it is ignored or only siblings opted in,
it is forwarded if it takes part and any tier says so, and the lists of those that take
part are the declared ones that the rule chooses, in their order.
-/

namespace Deriver

/-! ## The rule -/

namespace Options

/-- Whether an item takes part among all items of its list: it is not ignored, and it
opts in or nobody does. -/
def TakesPart (all : List Options) (own : Options) : Prop :=
  own.ignore = false ∧ (own.optsIn = true ∨ ∀ o ∈ all, o.optsIn = false)

instance (all : List Options) (own : Options) : Decidable (TakesPart all own) :=
  inferInstanceAs (Decidable (_ ∧ _))

/-- It is the siblings that count: an item that opts in itself takes part. -/
theorem takesPart_iff_siblings {all : List Options} {own : Options} {i : Nat}
    (hown : all[i]? = some own) : TakesPart all own ↔
      own.ignore = false ∧ (own.optsIn = true ∨
      ∀ o ∈ all.eraseIdx i, o.optsIn = false) := by
  refine and_congr_right fun _ => ?_
  constructor
  · rintro (hopts | hall)
    · exact .inl hopts
    · exact .inr fun o ho => hall o (List.mem_of_mem_eraseIdx ho)
  · rintro (hopts | hothers)
    · exact .inl hopts
    · cases hopts : own.optsIn with
      | true => exact .inl rfl
      | false =>
          refine .inr fun o ho => ?_
          obtain ⟨hi, rfl⟩ := List.getElem?_eq_some_iff.mp hown
          rcases List.mem_iff_getElem.mp ho with ⟨j, hj, rfl⟩
          by_cases hji : j = i
          · subst hji
            exact hopts
          · exact hothers _ (List.mem_eraseIdx_iff_getElem.mpr ⟨j, hj, hji, rfl⟩)

/-- The members that take part, by the options of all of them. -/
def chosen {α : Type} (own : List Options) (members : List α) : List α :=
  ((members.zip own).filter fun p => decide (TakesPart own p.2)).map (·.1)

/-- The forms of access that an item names, if it names any. -/
def accessorSet? (o : Options) : Option AccessorSet :=
  if o.owned || o.ref || o.refMut then some ⟨o.owned, o.ref, o.refMut⟩ else none

/-- Whether options are those that the attributes of the members ask for, one by one. -/
def OfMembers (spec : TraitSpec) (level : Level) (members : List (List Attribute))
    (own : List Options) : Prop :=
  List.Forall₂ (fun attrs o => ofAttributes attrs spec.attrs level spec.params =
    .ok o) members own

end Options

/-! ## What a selection comes to -/

/-- What the fields of a list come to by the rule. `held` says whether their holder takes
part, and `inherited` whether a tier above them says `forward`. -/
structure FieldsView.Resolves (spec : TraitSpec) (held inherited : Bool) (fields : Fields)
    (v : FieldsView) : Prop where
  style : v.style = fields.style
  members : v.all.map (·.field) = fields.list
  options : Options.OfMembers spec .field (fields.list.map (·.attrs))
    (v.all.map (·.options))
  enabled : ∀ f ∈ v.all, f.enabled = true ↔
    held = true ∧ Options.TakesPart (v.all.map (·.options)) f.options
  skipped : ∀ f ∈ v.all, f.skipped = f.options.ignore
  forward : ∀ f ∈ v.all, f.forward = true ↔
    Options.TakesPart (v.all.map (·.options)) f.options ∧
      (f.options.forward = true ∨ inherited = true)

/-- How the fields that take part and the others are listed. -/
structure FieldsView.Lists (held : Bool) (fields : Fields) (v : FieldsView) : Prop where
  enabled : v.enabled.map (·.field) =
    if held then Options.chosen (v.all.map (·.options)) fields.list else []
  ordered : v.enabled.Sublist v.all ∧ v.skipped.Sublist v.all
  parted : (v.enabled ++ v.skipped).Perm v.all
  apart : v.enabled.Disjoint v.skipped

/-- What a variant comes to by the rule, among variants with the given options. -/
structure VariantView.Resolves (spec : TraitSpec) (container : Options) (all : List Options)
    (w : VariantView) : Prop where
  enabled : w.enabled = true ↔ Options.TakesPart all w.options
  skipped : w.skipped = w.options.ignore
  forward : w.forward = true ↔
    Options.TakesPart all w.options ∧ (w.options.forward = true ∨ container.forward = true)
  accessors : w.accessors =
    (w.options.accessorSet?.or container.accessorSet?).getD ⟨true, false, false⟩
  fields : w.fields.Resolves spec w.enabled (w.options.forward || container.forward)
    w.variant.fields
  lists : w.fields.Lists w.enabled w.variant.fields

/-- What a declaration comes to by the rule. -/
def Selection.Resolution (s : Selection) : Prop :=
  match s.decl.data with
  | .union _ => False
  | .struct fields =>
      Options.ofAttributes s.decl.attrs s.spec.attrs .struct s.spec.params =
        .ok s.container ∧
      ∃ v, s.structFields = .ok v ∧ v.Resolves s.spec true s.container.forward fields ∧
        v.Lists true fields ∧ s.fieldsTakingPart =
          Options.chosen (v.all.map (·.options)) fields.list
  | .enum variants =>
      Options.ofAttributes s.decl.attrs s.spec.attrs .enum s.spec.params = .ok s.container ∧
      ∃ views, s.enumVariants = .ok views ∧ views.map (·.variant) = variants ∧
        Options.OfMembers s.spec .variant (variants.map (·.attrs)) (views.map (·.options)) ∧
        (∀ w ∈ views, w.Resolves s.spec s.container (views.map (·.options))) ∧
        (∃ enabled, s.enabledVariants = .ok enabled ∧ enabled.Sublist views ∧
          enabled.map (·.variant) = Options.chosen (views.map (·.options)) variants) ∧
        s.variantsTakingPart = Options.chosen (views.map (·.options)) variants

/-! ## Options that were read -/

namespace Options

variable {attrs : List Attribute} {names : List Text} {level : Level} {params : Params}
  {o container : Options}

theorem accessors_of_ofAttributes (h : ofAttributes attrs names level params = .ok o) :
    o.accessors = (o.owned || o.ref || o.refMut) := by
  rcases ofAttributes_eq_ok_iff.mp h with ⟨-, rfl⟩ | ⟨a, -, hasks⟩
  · rfl
  · cases hasks <;> rfl

theorem optsIn_of_ignore (h : ofAttributes attrs names level params = .ok o)
    (hignore : o.ignore = true) : o.optsIn = false := by
  rcases ofAttributes_eq_ok_iff.mp h with ⟨-, rfl⟩ | ⟨a, -, hasks⟩
  · cases hignore
  · cases hasks with
    | bare => cases hignore
    | format => cases hignore
    | keys hargs haccepts hnodup hcompatible =>
        rcases hcompatible ("ignore", "forward") (by decide) with hnone | hnone
        · rw [asked, hnone] at hignore
          cases hignore
        · unfold optsIn asked
          rw [hnone]
          rfl

/-- An item that does not take part does not say `forward`. -/
theorem forward_of_not_takesPart {all : List Options}
    (h : ofAttributes attrs names level params = .ok o) (hout : ¬ TakesPart all o) :
    o.forward = false := by
  have hopts : o.optsIn = false := by
    cases hignore : o.ignore with
    | true => exact optsIn_of_ignore h hignore
    | false => exact Bool.eq_false_iff.mpr fun hopts => hout ⟨hignore, .inl hopts⟩
  exact (Bool.or_eq_false_iff.mp hopts).2

theorem accessorsOf_eq (hown : o.accessors = (o.owned || o.ref || o.refMut))
    (hcontainer : container.accessors =
    (container.owned || container.ref || container.refMut)) :
    Selection.accessorsOf container o =
      (o.accessorSet?.or container.accessorSet?).getD ⟨true, false, false⟩ := by
  unfold Selection.accessorsOf accessorSet?
  rw [hown, hcontainer]
  split
  · rfl
  · split <;> rfl

theorem takesPart_iff (all : List Options) :
    Selection.takesPart o (all.any (·.optsIn)) = true ↔ TakesPart all o := by
  unfold Selection.takesPart TakesPart
  rw [Bool.and_eq_true, Bool.or_eq_true, Bool.not_eq_true', Bool.not_eq_true',
    List.any_eq_false]
  simp only [Bool.not_eq_true]

theorem map_filter_eq_chosen {α β : Type} {views : List β} {member : β → α}
    {own : β → Options}
    {p : β → Bool} (hp : ∀ w ∈ views, p w = true ↔ TakesPart (views.map own) (own w)) :
    (views.filter p).map member = chosen (views.map own) (views.map member) := by
  unfold chosen
  rw [List.zip_map', List.filter_map, List.map_map]
  refine congrArg (List.map _) (List.filter_congr fun w hw => ?_)
  rw [Bool.eq_iff_iff, hp w hw]
  exact decide_eq_true_iff.symm

end Options

/-! ## One list of fields -/

section Fields

variable {spec : TraitSpec} {held inherited : Bool} {fields : Fields} {v : FieldsView}

theorem FieldsView.Resolves.not_enabled (h : v.Resolves spec held inherited fields)
    {f : FieldView}
    (hf : f ∈ v.all) (hskipped : f.skipped = true) : f.enabled = false := by
  refine Bool.eq_false_iff.mpr fun henabled => ?_
  rw [h.skipped f hf, ((h.enabled f hf).mp henabled).2.1] at hskipped
  cases hskipped

theorem FieldsView.Resolves.lists (h : v.Resolves spec held inherited fields) :
    v.Lists held fields := by
  refine ⟨?_, ⟨List.filter_sublist, List.filter_sublist⟩, List.filter_append_perm _ _, ?_⟩
  · rw [← h.members]
    cases held with
    | true =>
        refine Options.map_filter_eq_chosen fun f hf => ?_
        rw [h.enabled f hf]
        exact and_iff_right rfl
    | false =>
        have hnone : v.enabled = [] := List.filter_eq_nil_iff.mpr fun f hf henabled =>
          nomatch ((h.enabled f hf).mp henabled).1
        rw [hnone]
        rfl
  · intro f hf hf'
    have henabled := (List.mem_filter.mp hf).2
    have hskipped := (List.mem_filter.mp hf').2
    rw [henabled] at hskipped
    cases hskipped

namespace Selection

theorem ofMembers_fieldOptions {list : List Field} {own : List Options}
    (h : fieldOptions spec list = .ok own) :
    Options.OfMembers spec .field (list.map (·.attrs)) own := by
  have hattrs : list.map (·.attrs) = (list.mapIdx fun i f => (i, f)).map (·.2.attrs) :=
    List.ext_getElem (by simp) fun i hi hi' => by simp
  unfold Options.OfMembers
  rw [hattrs, List.forall₂_map_left_iff]
  exact (forall₂_of_mapM h).imp fun _ _ hf => of_mapError_ok hf

theorem resolves_viewFields (h : viewFields spec inherited fields = .ok v) :
    v.Resolves spec true inherited fields := by
  obtain ⟨hstyle, hmembers⟩ := fields_viewFields h
  unfold viewFields at h
  obtain ⟨own, hown, h⟩ := of_bind_ok h
  have hread := ofMembers_fieldOptions hown
  have hlength : fields.list.length = own.length := by
    rw [← hread.length_eq, List.length_map]
  have hv := Except.ok.inj h
  have hoptions : v.all.map (·.options) = own := by
    rw [← hv]
    exact List.ext_getElem (by simp [hlength]) fun i hi hi' => by simp [viewField]
  -- every view is made from the options of its field and of the list
  have hview : ∀ f ∈ v.all,
      ∃ field i, f = viewField inherited (own.any (·.optsIn)) field i f.options := by
    rw [← hv]
    intro f hf
    obtain ⟨i, hi, rfl⟩ := List.mem_mapIdx.mp hf
    exact ⟨_, _, rfl⟩
  refine ⟨hstyle, hmembers, by rwa [hoptions], fun f hf => ?_, fun f hf => ?_,
    fun f hf => ?_⟩
  all_goals obtain ⟨field, i, heq⟩ := hview f hf
  · rw [hoptions, ← Options.takesPart_iff, heq]
    exact (and_iff_right rfl).symm
  · rw [heq]
    rfl
  · rw [hoptions, ← Options.takesPart_iff, heq]
    simp only [viewField, Bool.and_eq_true, Bool.or_eq_true]

end Selection

end Fields

/-! ## Variants -/

section Variants

variable {spec : TraitSpec} {container : Options} {inherited : Bool} {fields : Fields}
  {v : FieldsView}

/-- Fields that are left out with their holder are what the rule says of them. -/
theorem FieldsView.Resolves.leftOut (h : v.Resolves spec true inherited fields) :
    FieldsView.Resolves spec false inherited fields
      { v with all := v.all.map fun f => { f with enabled := false } } := by
  have hoptions : (v.all.map fun f => { f with enabled := false }).map (·.options) =
      v.all.map (·.options) := by
    rw [List.map_map]
    rfl
  refine ⟨h.style, ?_, ?_, fun f hf => ?_, fun f hf => ?_, fun f hf => ?_⟩
  · rw [← h.members, List.map_map]
    rfl
  · rw [hoptions]
    exact h.options
  all_goals obtain ⟨g, hg, rfl⟩ := List.mem_map.mp hf
  · exact iff_of_false nofun nofun
  · exact h.skipped g hg
  · rw [hoptions]
    exact h.forward g hg

namespace Selection

theorem resolves_viewVariant {all : List Options} {variant : Variant} {own : Options}
    {w : VariantView}
    (h : viewVariant spec container (all.any (·.optsIn)) variant own = .ok w)
    (hown : Options.ofAttributes variant.attrs spec.attrs .variant spec.params = .ok own)
    (hcontainer : container.accessors =
    (container.owned || container.ref || container.refMut)) :
    w.variant = variant ∧ w.options = own ∧ w.Resolves spec container all := by
  unfold viewVariant at h
  obtain ⟨fields, hfields, h⟩ := of_bind_ok h
  have hresolves := resolves_viewFields (of_mapError_ok hfields)
  cases h
  have hlaw : FieldsView.Resolves spec (takesPart own (all.any (·.optsIn)))
      (own.forward || container.forward) variant.fields
      (if takesPart own (all.any (·.optsIn)) then fields
        else { fields with all := fields.all.map fun f =>
          { f with enabled := false } }) := by
    cases takesPart own (all.any (·.optsIn)) with
    | true => exact hresolves
    | false => exact hresolves.leftOut
  refine ⟨rfl, rfl, Options.takesPart_iff all, rfl, ?_, ?_, hlaw, hlaw.lists⟩
  · rw [← Options.takesPart_iff]
    simp only [Bool.and_eq_true, Bool.or_eq_true]
  · exact Options.accessorsOf_eq (Options.accessors_of_ofAttributes hown) hcontainer

theorem resolves_viewVariants {variants : List Variant} {views : List VariantView}
    (h : viewVariants spec container variants = .ok views)
    (hcontainer : container.accessors =
    (container.owned || container.ref || container.refMut)) :
    views.map (·.variant) = variants ∧
    Options.OfMembers spec .variant (variants.map (·.attrs)) (views.map (·.options)) ∧
    ∀ w ∈ views, w.Resolves spec container (views.map (·.options)) := by
  unfold viewVariants at h
  obtain ⟨own, hown, h⟩ := of_bind_ok h
  have hread : List.Forall₂ (fun v o => Options.ofAttributes v.attrs spec.attrs .variant
      spec.params = .ok o) variants own :=
    (forall₂_of_mapM hown).imp fun _ _ hv => of_mapError_ok hv
  have hlength := hread.length_eq
  -- every view is made from a variant and its options
  have hmade : List.Forall₂ (fun (p : Variant × Options) w =>
      Options.ofAttributes p.1.attrs spec.attrs .variant spec.params = .ok p.2 ∧
      viewVariant spec container (own.any (·.optsIn)) p.1 p.2 = .ok w)
        (variants.zip own) views :=
    (List.forall₂_and_left ..).mpr
      ⟨fun p hp => List.forall₂_zip hread hp, forall₂_of_mapM h⟩
  have hviews := hmade.imp fun _ _ hw => resolves_viewVariant hw.2 hw.1 hcontainer
  have hvariants : views.map (·.variant) = variants := by
    rw [map_eq_map_of_forall₂ hviews fun _ _ hw => hw.1,
      List.map_fst_zip (Nat.le_of_eq hlength)]
  have hoptions : views.map (·.options) = own := by
    rw [map_eq_map_of_forall₂ hviews fun _ _ hw => hw.2.1,
      List.map_snd_zip (Nat.le_of_eq hlength.symm)]
  rw [hoptions]
  refine ⟨hvariants, List.forall₂_map_left_iff.mpr hread, fun w hw => ?_⟩
  obtain ⟨p, -, -, -, hresolves⟩ := exists_of_mem_forall₂ hviews hw
  exact hresolves

end Selection

end Variants

/-! ## Declarations -/

namespace Selection

variable {decl : Decl} {spec : TraitSpec} {s : Selection}

theorem struct_resolves {fields : Fields} (h : ofDecl decl spec = .ok s)
    (hdata : decl.data = .struct fields) :
    Options.ofAttributes decl.attrs spec.attrs .struct spec.params = .ok s.container ∧
    ∃ v, s.shape = .struct v ∧ v.Resolves spec true s.container.forward fields := by
  unfold ofDecl at h
  rw [hdata] at h
  obtain ⟨container, hcontainer, h⟩ := of_bind_ok (of_mapError_ok h)
  obtain ⟨v, hview, h⟩ := of_bind_ok h
  cases h
  exact ⟨hcontainer, v, rfl, resolves_viewFields hview⟩

theorem enum_resolves {variants : List Variant} (h : ofDecl decl spec = .ok s)
    (hdata : decl.data = .enum variants) :
    Options.ofAttributes decl.attrs spec.attrs .enum spec.params = .ok s.container ∧
    ∃ views, s.shape = .enum views ∧ views.map (·.variant) = variants ∧
      Options.OfMembers spec .variant (variants.map (·.attrs)) (views.map (·.options)) ∧
      ∀ w ∈ views, w.Resolves spec s.container (views.map (·.options)) := by
  unfold ofDecl at h
  rw [hdata] at h
  obtain ⟨container, hcontainer, h⟩ := of_bind_ok (of_mapError_ok h)
  obtain ⟨views, hview, h⟩ := of_bind_ok h
  cases h
  exact ⟨hcontainer, views, rfl,
    resolves_viewVariants hview (Options.accessors_of_ofAttributes hcontainer)⟩

theorem not_ofDecl_union {fields : Fields} (hdata : decl.data = .union fields) :
    ofDecl decl spec ≠ .ok s := by
  unfold ofDecl
  rw [hdata]
  exact nofun

/-- What is selected of a declaration is what the rule says, and the lists of what takes
part are the declared members that the rule chooses. -/
theorem resolution_of_ofDecl (h : ofDecl decl spec = .ok s) :
    s.decl = decl ∧ s.spec = spec ∧ s.Resolution := by
  obtain ⟨hdecl, hspec⟩ := of_ofDecl h
  refine ⟨hdecl, hspec, ?_⟩
  unfold Resolution
  rw [hdecl, hspec]
  cases hdata : decl.data with
  | union fields => exact not_ofDecl_union hdata h
  | struct fields =>
      obtain ⟨hcontainer, v, hshape, hresolves⟩ := struct_resolves h hdata
      unfold structFields fieldsTakingPart
      rw [hshape]
      exact ⟨hcontainer, v, rfl, hresolves, hresolves.lists, hresolves.lists.enabled⟩
  | enum variants =>
      obtain ⟨hcontainer, views, hshape, hvariants, hoptions, hresolves⟩ :=
        enum_resolves h hdata
      have hchosen : (views.filter (·.enabled)).map (·.variant) =
          Options.chosen (views.map (·.options)) variants := by
        rw [← hvariants]
        exact Options.map_filter_eq_chosen fun w hw => (hresolves w hw).enabled
      unfold enabledVariants enumVariants variantsTakingPart
      rw [hshape]
      exact ⟨hcontainer, views, rfl, hvariants, hoptions, hresolves,
        ⟨_, rfl, List.filter_sublist, hchosen⟩, hchosen⟩

/-- A variant that opts in, with a field that is ignored. -/
theorem resolution_of_ofDecl_marked : ∃ decl s,
    (parse "#[a(ref)] enum E { A, #[a(forward)] B(#[a(skip)] X, Y) }").file.decls = [decl] ∧
    ofDecl decl ⟨"T", "T", [], ["a"], ⟨["ref"], ["forward"], [], ["skip"]⟩⟩ = .ok s ∧
    s.variantsTakingPart.map (·.ident) = ["B"] ∧ s.Resolution := by
  obtain ⟨decl, s, hdecls, hs, hnames⟩ : ∃ decl s,
      (parse "#[a(ref)] enum E { A, #[a(forward)] B(#[a(skip)] X, Y) }").file.decls =
        [decl] ∧
      ofDecl decl ⟨"T", "T", [], ["a"], ⟨["ref"], ["forward"], [], ["skip"]⟩⟩ = .ok s ∧
      s.variantsTakingPart.map (·.ident) = ["B"] := ⟨_, _, rfl, rfl, rfl⟩
  exact ⟨decl, s, hdecls, hs, hnames, (resolution_of_ofDecl hs).2.2⟩

/-! ## One state for each member -/

/-- Whether no member is in two states, but for the fields of a variant that is left
out: of these the ones that take part by their own rule stay forwarded, if they or the
declaration say `forward`. -/
def OneState (s : Selection) : Prop :=
  match s.shape with
  | .struct v => ∀ f ∈ v.all,
      (f.forward = true → f.enabled = true) ∧ (f.skipped = true → f.enabled = false)
  | .enum views => ∀ w ∈ views,
      (w.forward = true → w.enabled = true) ∧ (w.skipped = true → w.enabled = false) ∧
      ∀ f ∈ w.fields.all, (f.skipped = true → f.enabled = false) ∧
        (w.enabled = false → f.enabled = false) ∧
        (f.forward = true ∧ f.enabled = false ↔ w.enabled = false ∧
          Options.TakesPart (w.fields.all.map (·.options)) f.options ∧
          (f.options.forward = true ∨ s.container.forward = true))

/-- The members of a selection have one state each, as far as `OneState` says. -/
theorem oneState_of_ofDecl (h : ofDecl decl spec = .ok s) : s.OneState := by
  unfold OneState
  cases hdata : decl.data with
  | union fields => exact absurd h (not_ofDecl_union hdata)
  | struct fields =>
      obtain ⟨-, v, hshape, hresolves⟩ := struct_resolves h hdata
      rw [hshape]
      exact fun f hf => ⟨fun hforward => (hresolves.enabled f hf).mpr
        ⟨rfl, ((hresolves.forward f hf).mp hforward).1⟩, hresolves.not_enabled hf⟩
  | enum variants =>
      obtain ⟨-, views, hshape, -, hoptions, hresolves⟩ := enum_resolves h hdata
      rw [hshape]
      intro w hw
      obtain ⟨henabled, hskipped, hforward, -, hfields, -⟩ := hresolves w hw
      obtain ⟨attrs, -, hread⟩ := exists_of_mem_forall₂ hoptions (List.mem_map_of_mem hw)
      refine ⟨fun hw => henabled.mpr (hforward.mp hw).1, fun hskip => ?_, fun f hf =>
        ⟨hfields.not_enabled hf, fun hout => ?_, ?_⟩⟩
      · rw [hskipped] at hskip
        exact Bool.eq_false_iff.mpr fun hw => by
          rw [(henabled.mp hw).1] at hskip
          cases hskip
      · exact Bool.eq_false_iff.mpr fun hf' => by
          rw [((hfields.enabled f hf).mp hf').1] at hout
          cases hout
      · -- a variant that is left out does not say `forward` itself
        have hsilent (hout : w.enabled = false) : w.options.forward = false :=
          Options.forward_of_not_takesPart hread fun hpart => by
            rw [henabled.mpr hpart] at hout
            cases hout
        rw [hfields.forward f hf, ← Bool.not_eq_true, hfields.enabled f hf, Bool.or_eq_true]
        cases hout : w.enabled with
        | true => exact iff_of_false (fun h => h.2 ⟨rfl, h.1.1⟩) nofun
        | false => simp [hsilent hout]

/-- The field of a variant that is left out for its sibling stays forwarded, as the
declaration says. -/
theorem oneState_of_ofDecl_leftOut : ∃ decl s w w' f,
    (parse "#[a(forward)] enum E { A(X), #[a] B(Y) }").file.decls = [decl] ∧
    ofDecl decl ⟨"T", "T", [], ["a"], ⟨["forward"], [], [], []⟩⟩ = .ok s ∧
    s.shape = .enum [w, w'] ∧ w.fields.all = [f] ∧ f.forward = true ∧ f.enabled = false ∧
    s.OneState := by
  obtain ⟨decl, s, w, w', f, hdecls, hs, hshape, hfields, hforward,
      henabled⟩ : ∃ decl s w w' f,
      (parse "#[a(forward)] enum E { A(X), #[a] B(Y) }").file.decls = [decl] ∧
      ofDecl decl ⟨"T", "T", [], ["a"], ⟨["forward"], [], [], []⟩⟩ = .ok s ∧
      s.shape = .enum [w, w'] ∧ w.fields.all = [f] ∧ f.forward = true ∧ f.enabled = false :=
    ⟨_, _, _, _, _, rfl, rfl, rfl, rfl, rfl, rfl⟩
  exact ⟨decl, s, w, w', f, hdecls, hs, hshape, hfields, hforward, henabled,
    oneState_of_ofDecl hs⟩

end Selection

end Deriver
