import Deriver.Proofs.Derive.Building

/-!
# Patterns and values in the declared form

Main statement: `declared_forms`. A struct or variant is declared with parentheses, with
braces or without either, and the patterns and values that are written for it follow that,
brackets around nothing included. There are two exceptions: the functions that take a
variant apart match one with empty braces by its bare path, and the parser of an enum
builds a variant with empty brackets of either kind by its bare path.

Every derive has a lemma that says which patterns and answers its implementations have
(`Forms`). The derives that build no values are told by what their answers begin with
(`Foreign`).
-/

namespace Deriver.Derive

section

variable {spec : TraitSpec} {s : Selection} {decl : Decl} {views : List VariantView}
  {fields : FieldsView} {name : Text} {A : Text → Prop}

/-! ## Texts that begin with no path of the declared type -/

theorem Foreign.append {t u : Text} (h : Foreign t) : Foreign (t ++ u) := by
  intro rest
  rw [List.append_assoc]
  exact h _

theorem Foreign.concat {t : Text} {ts : List Text} (h : Foreign t) :
    Foreign (Text.concat (t :: ts)) := h.append

theorem Foreign.join {sep t : Text} {ts : List Text} (h : Foreign t) :
    Foreign (Text.join sep (t :: ts)) := by
  cases ts with
  | nil => exact h
  | cons u us => exact h.append.append

/-- What stands in `Ok` may not begin so either. -/
theorem Foreign.ok {t : Text} (h : Foreign t) :
    Foreign (Text.concat [Core.ok, "(", t, ")"]) := by
  intro rest
  have hinner := h ((")" : Text) ++ rest)
  rw [Bool.or_eq_false_iff] at hinner
  have hassoc : Text.concat [Core.ok, "(", t, ")"] ++ rest =
      (Core.ok ++ ("(" : Text)) ++ (t ++ ((")" : Text) ++ rest)) := by
    simp [Text.concat]
  rw [hassoc]
  exact hinner.1

theorem foreign_tupleOf {ts : List Text} (h : ∀ t ∈ ts, Foreign t) :
    Foreign (tupleOf ts) := by
  unfold tupleOf
  split
  · exact h _ (List.mem_singleton_self _)
  · exact fun _ => rfl

theorem foreign_borrow {form : RefForm} {t : Text} (h : Foreign t) :
    Foreign (form.borrow ++ t) := by
  cases form with
  | owned => exact h
  | ref => exact fun _ => rfl
  | refMut => exact fun _ => rfl

/-! ## Derives that reach through to a field -/

/-- A pattern that binds the components of a payload has the form of its variant. -/
theorem shaped_payloadPattern {w : VariantView} (h : w.Faithful) (path : Text) :
    (payloadPattern w.fields path).Shaped w.variant.fields path := by
  unfold payloadPattern
  cases hstyle : w.fields.style with
  | tuple => exact h.shaped_tuple hstyle path fun f => by cases f.enabled <;> rfl
  | named =>
      exact h.shaped_record hstyle path _ (fun _ _ => rfl) (fun _ => rfl)
        fun hall => FieldsView.enabled_eq_all (by simpa using hall)
  | unit => exact ⟨rfl, h.style ▸ hstyle⟩

theorem foreign_ref (isMut : Bool) (t : Text) :
    Foreign (Text.ofString (if isMut then "&mut " else "&") ++ t) := by
  cases isMut with
  | true => exact fun _ => rfl
  | false => exact fun _ => rfl

theorem foreign_project (isMut : Bool) {t : DerefTarget} {ref : Text} (h : Foreign ref) :
    Foreign (t.project isMut ref) := by
  unfold DerefTarget.project
  split
  · exact fun _ => rfl
  · exact h

/-- The type that is reached is named where the shared access is implemented. -/
theorem meets_reach {isMut : Bool} {header head line : Text} {c : Code} {P : Pat → Prop}
    (h : Code.Meets P A c) :
    ∀ i ∈ [Impl.block header ((if isMut then [] else [Code.line line, .blank]) ++
      [.inline, .block head [c]])], i.Meets P A := by
  refine List.forall_mem_singleton.mpr ?_
  cases isMut with
  | true => exact Impl.meets_method [_] rfl (Code.bodyMeets_one h)
  | false => exact Impl.meets_method [_, _, _] rfl (Code.bodyMeets_one h)

theorem foreign_compareFields {left right : FieldView → Text} (h : ∀ f, Foreign (left f)) :
    Foreign (compareFields fields left right) := by
  unfold compareFields
  cases fields.enabled with
  | nil => exact fun _ => rfl
  | cons f fs => exact (h f).concat.join

section

variable (hother : spec.name ∉ builders ∧ spec.name ≠ "IsVariant")

include hother

theorem answer_foreign {text : Text} (h : Foreign text) : Answer spec.name decl text :=
  .other hother.1 hother.2 h

theorem forms_intoPayload : Forms intoPayload spec := by
  intro decl impls hstyled h
  obtain ⟨⟨s, fields⟩, -, h⟩ := of_bind_ok h
  have hof (f : FieldView) : Foreign (f.of "original") := fun _ => rfl
  have hforms (forms : List RefForm) : ∀ i ∈ forms.map (intoForm s fields),
      i.Meets (Drawn spec.name decl) (Answer spec.name decl) := by
    rw [List.forall_mem_map]
    refine fun form _ => Impl.meets_line [_] rfl
      (answer_foreign hother (foreign_tupleOf ?_))
    exact List.forall_mem_map.mpr fun f _ => foreign_borrow (hof f)
  dsimp only at h
  split at h
  · cases h
    exact hforms _
  · split at h
    · cases h
      exact List.forall_mem_append.mpr ⟨hforms _, List.forall_mem_map.mpr fun ty _ =>
        Impl.meets_line [_] rfl (answer_foreign hother fun _ => rfl)⟩
    · cases h

theorem meets_refField {isMut alone : Bool} {f : FieldView} {own : List (Text × Impl)}
    (h : refField isMut s alone f = .ok own) :
    ∀ t ∈ own, Impl.Meets (Drawn spec.name decl) (Answer spec.name decl) t.2 := by
  have hmember := foreign_ref isMut f.member
  have hvalue {g : ImplGenerics} {target value : Text} (hvalue : Foreign value) :
      (refImpl isMut g s target value).Meets (Drawn spec.name decl)
        (Answer spec.name decl) :=
    Impl.meets_line [_] rfl (answer_foreign hother hvalue)
  unfold refField at h
  dsimp only at h
  generalize (if f.options.types.isEmpty then s.container.types else f.options.types) =
    types at h
  split at h
  · split at h
    · cases h
    · cases h
      exact List.forall_mem_singleton.mpr (hvalue fun _ => rfl)
  · split at h
    · cases h
      exact List.forall_mem_singleton.mpr (hvalue hmember)
    · cases h
      refine List.forall_mem_map.mpr fun target _ => ?_
      split
      · exact hvalue hmember
      · exact hvalue fun _ => rfl

theorem meets_refFields {isMut alone : Bool} {claimed : List (Text × Text)}
    {fs : List FieldView}
    {impls : List Impl} (h : refFields isMut s alone claimed fs = .ok impls) :
    ∀ i ∈ impls, i.Meets (Drawn spec.name decl) (Answer spec.name decl) := by
  induction fs generalizing claimed impls with
  | nil =>
      cases h
      exact List.forall_mem_nil _
  | cons f fs ih =>
      obtain ⟨own, hown, h⟩ := of_bind_ok h
      obtain ⟨claimed', -, h⟩ := of_bind_ok h
      obtain ⟨rest, hrest, h⟩ := of_bind_ok h
      cases h
      rw [List.forall_mem_append, List.forall_mem_map]
      exact ⟨meets_refField hother hown, ih hrest⟩

theorem forms_refConversion (isMut : Bool) : Forms (refConversion isMut) spec := by
  intro decl impls hstyled h
  obtain ⟨⟨s, fields⟩, -, h⟩ := of_bind_ok h
  dsimp only at h
  split at h
  · cases h
  · exact meets_refFields hother h

theorem forms_tryIntoPayload (support : Support) : Forms (tryIntoPayload support) spec := by
  intro decl impls hstyled h i hi
  obtain ⟨⟨s, views⟩, hselect, h⟩ := of_bind_ok h
  obtain ⟨hs, hshape⟩ := of_selectEnum_ok hselect
  obtain ⟨hvariants, hfaithful⟩ := data_of_enum hstyled hs hshape
  cases h
  obtain ⟨group, hgroup, rfl⟩ := List.mem_map.mp hi
  obtain ⟨rfl, rfl⟩ := Selection.of_ofDecl hs
  refine Impl.meets_choose [_, _, _] rfl ?_
  simp only [List.forall_mem_cons]
  refine ⟨Arm.meets_yields ?_ (answer_foreign hother (Foreign.ok (foreign_tupleOf ?_))),
    Arm.meets_wild (answer_foreign hother fun _ => rfl), List.forall_mem_nil _⟩
  · rw [Pat.parts, Pat.partsIn_eq_flatMap, List.flatMap_map]
    intro p hp
    obtain ⟨w, hw, hp⟩ := List.mem_flatMap.mp hp
    have hmember := ((byKey_payloadGroups _).members group hgroup w).mp hw
    have hmem : w ∈ views := List.mem_of_mem_filter hmember.1
    have hshaped := shaped_payloadPattern (hfaithful w hmem)
      (Text.concat [s.decl.name, "::", w.name])
    rw [hshaped.parts_eq, List.mem_singleton] at hp
    rw [hp]
    refine ⟨.shaped (hvariants ▸ List.mem_map_of_mem hmem) (.inr rfl) hshaped,
      fun x hx => ?_⟩
    rw [names_payloadPattern (hfaithful w hmem).ordered] at hx
    obtain ⟨f, -, rfl⟩ := List.mem_map.mp hx
    exact .inl (word_component _)
  · exact List.forall_mem_map.mpr fun n _ => fun _ => rfl

theorem forms_assignLike (isScalar : Bool) (hpath : Foreign spec.path) :
    Forms (assignLike isScalar) spec := by
  intro decl impls hstyled h i hi
  obtain ⟨⟨s, fields⟩, -, h⟩ := of_bind_ok h
  cases h
  rw [List.mem_singleton.mp hi]
  exact Impl.meets_method [_] rfl (Code.bodyMeets_lines fun f _ =>
    answer_foreign hother (Foreign.concat hpath.concat))

theorem meets_enabled {α : Type} {targets : List (VariantView × α)}
    {value : VariantView × α → Text}
    (hvariants : decl.data.variants = views.map (·.variant))
    (hfaithful : ∀ w ∈ views, w.Faithful) (htargets : targets.map (·.1) = views)
    (hvalue : ∀ t ∈ targets, Foreign (value t)) :
    ∀ a ∈ targets.map fun t => Arm.yields (t.1.fields.patternEnabled t.1.path "self")
    (value t), Arm.Meets (Drawn spec.name decl) (Answer spec.name decl) a := by
  rw [List.forall_mem_map]
  intro t ht
  have hmem : t.1 ∈ views := htargets ▸ List.mem_map_of_mem ht
  exact Arm.meets_yields (drawn_patternEnabled _ (hvariants ▸ List.mem_map_of_mem hmem)
    (hfaithful _ hmem) "self" rfl) (answer_foreign hother (hvalue t ht))

theorem forms_deref (isMut : Bool) : Forms (deref isMut) spec := by
  intro decl impls hstyled h
  obtain ⟨s, hs, h⟩ := of_bind_ok h
  split at h
  · obtain ⟨single, -, h⟩ := of_bind_ok h
    cases h
    exact meets_reach (Code.meets_line
      (answer_foreign hother (foreign_project _ (foreign_ref _ _))))
  · next views hshape =>
      obtain ⟨hvariants, hfaithful⟩ := data_of_enum hstyled hs hshape
      obtain ⟨targets, htargets, h⟩ := of_bind_ok h
      cases h
      exact meets_reach (Code.meets_choose (meets_enabled hother hvariants hfaithful
        (of_derefTargets htargets).1 fun t _ => foreign_project _ fun _ => rfl))

theorem forms_derefToInner (isMut : Bool) : Forms (derefToInner isMut) spec := by
  intro decl impls hstyled h
  obtain ⟨⟨s, fields⟩, -, h⟩ := of_bind_ok h
  obtain ⟨single, -, h⟩ := of_bind_ok h
  cases h
  exact meets_reach (Code.meets_line (answer_foreign hother (foreign_ref _ _)))

theorem forms_index (isMut : Bool) : Forms (index isMut) spec := by
  intro decl impls hstyled h
  obtain ⟨s, hs, h⟩ := of_bind_ok h
  dsimp only at h
  split at h
  · obtain ⟨single, -, h⟩ := of_bind_ok h
    cases h
    exact meets_reach (Code.meets_line (answer_foreign hother fun _ => rfl))
  · next views hshape =>
      obtain ⟨hvariants, hfaithful⟩ := data_of_enum hstyled hs hshape
      obtain ⟨targets, htargets, h⟩ := of_bind_ok h
      cases h
      exact meets_reach (Code.meets_choose (meets_enabled hother hvariants hfaithful
        (of_indexedFields htargets).1 fun t _ => fun _ => rfl))

theorem forms_iterator : Forms iterator spec := by
  intro decl impls hstyled h
  obtain ⟨⟨s, fields⟩, -, h⟩ := of_bind_ok h
  obtain ⟨single, -, h⟩ := of_bind_ok h
  cases h
  exact List.forall_mem_singleton.mpr
    (Impl.meets_line [_, _, _] rfl (answer_foreign hother fun _ => rfl))

theorem forms_intoIterator : Forms intoIterator spec := by
  intro decl impls hstyled h
  obtain ⟨⟨s, fields⟩, -, h⟩ := of_bind_ok h
  obtain ⟨single, -, h⟩ := of_bind_ok h
  cases h
  exact List.forall_mem_map.mpr fun form _ =>
    Impl.meets_line [_, _, _, _] rfl (answer_foreign hother fun _ => rfl)

theorem forms_read : Forms read spec := by
  intro decl impls hstyled h
  obtain ⟨s, hs, h⟩ := of_bind_ok h
  split at h
  · obtain ⟨single, -, h⟩ := of_bind_ok h
    cases h
    exact List.forall_mem_singleton.mpr
      (Impl.meets_line [_] rfl (answer_foreign hother fun _ => rfl))
  · next views hshape =>
      obtain ⟨hvariants, hfaithful⟩ := data_of_enum hstyled hs hshape
      obtain ⟨targets, htargets, h⟩ := of_bind_ok h
      cases h
      exact List.forall_mem_singleton.mpr (Impl.meets_choose [_] rfl
        (meets_enabled hother hvariants hfaithful (map_fst_of_paired htargets) fun t _ =>
          fun _ => rfl))

/-! ## Equality -/

theorem forms_equality (isMarker : Bool) : Forms (equality isMarker) spec := by
  intro decl impls hstyled h
  obtain ⟨s, hs, h⟩ := of_bind_ok h
  cases isMarker with
  | true =>
      cases h
      exact List.forall_mem_singleton.mpr Obeys.nil
  | false =>
      cases h
      refine List.forall_mem_singleton.mpr
        (Impl.meets_method [_] rfl (Code.bodyMeets_one ?_))
      cases hshape : s.shape with
      | struct fields =>
          exact Code.meets_line
            (answer_foreign hother (foreign_compareFields fun _ => fun _ => rfl))
      | enum views =>
          obtain ⟨hvariants, hfaithful⟩ := data_of_enum hstyled hs hshape
          cases views with
          | nil => exact Code.meets_chooseNone _
          | cons w ws =>
              refine Code.meets_choose (List.forall_mem_append.mpr
                ⟨?_, Arm.meets_wild_if _ (answer_foreign hother fun _ => rfl)⟩)
              refine List.forall_mem_map.mpr fun v hv => ?_
              have hvariant : v.variant ∈ decl.data.variants :=
                hvariants ▸ List.mem_map_of_mem hv
              have hpat := drawn_of_pair
                (drawn_patternEnabled spec.name hvariant (hfaithful v hv) "self" rfl)
                (drawn_patternEnabled spec.name hvariant (hfaithful v hv) "other" rfl)
              exact Arm.meets_yields hpat
                (answer_foreign hother (foreign_compareFields fun _ => fun _ => rfl))

/-! ## Errors -/

theorem forms_error (support : Support) : Forms (error support) spec := by
  intro decl impls hstyled h
  obtain ⟨s, hs, h⟩ := of_bind_ok h
  have hsome (expr : Text) (f : FieldView) :
      Answer spec.name decl (someSource expr f) := answer_foreign hother fun _ => rfl
  dsimp only at h
  split at h
  · obtain ⟨source, -, h⟩ := of_bind_ok h
    split at h
    · cases h
      exact List.forall_mem_singleton.mpr (Impl.meets_method [] rfl
        (Code.bodyMeets_last [_] rfl (Code.meets_line (hsome _ _))))
    · cases h
      exact List.forall_mem_singleton.mpr Obeys.nil
  · next views hshape =>
      obtain ⟨hvariants, hfaithful⟩ := data_of_enum hstyled hs hshape
      obtain ⟨found, hfound, h⟩ := of_bind_ok h
      obtain ⟨hsublist, hmem⟩ := of_sourceArms hfound
      cases h
      refine List.forall_mem_singleton.mpr ?_
      cases found with
      | nil => exact Obeys.nil
      | cons t ts =>
          refine Impl.meets_method [] rfl (Code.bodyMeets_last [_] rfl
            (Code.meets_choose (List.forall_mem_append.mpr
              ⟨?_, Arm.meets_wild_if _ (answer_foreign hother fun _ => rfl)⟩)))
          refine List.forall_mem_map.mpr fun u hu => ?_
          have hview : u.1 ∈ views :=
            List.mem_of_mem_filter (hsublist.mem (List.mem_map_of_mem hu))
          refine Arm.meets_yields (drawn_of_shaped _ (hvariants ▸ List.mem_map_of_mem hview)
            (shaped_sourcePattern (hfaithful _ hview) (hmem u hu)) fun x hx => ?_)
              (hsome _ _)
          rw [mem_names_sourcePattern hx]
          exact .inl word_source

end

/-! ## Functions for variants -/

theorem itemsMeet_spaced {groups : List (List Code)}
    (h : ∀ g ∈ groups, Code.ItemsMeet P A g) : Code.ItemsMeet P A (spaced groups) := by
  intro head
  have hanswers : Code.answersOf (spaced groups) = groups.flatMap Code.answersOf :=
    flatMap_spaced rfl groups
  rw [matchesAll_spaced, hanswers]
  induction groups with
  | nil => exact Obeys.nil
  | cons g gs ih =>
      obtain ⟨hg, hgs⟩ := List.forall_mem_cons.mp h
      exact (hg head).append (ih hgs (flatMap_spaced rfl gs))

theorem forms_isVariant (hname : spec.name = "IsVariant") : Forms isVariant spec := by
  intro decl impls hstyled h
  obtain ⟨⟨s, views⟩, hselect, h⟩ := of_bind_ok h
  obtain ⟨hs, hshape⟩ := of_selectEnum_ok hselect
  obtain ⟨hvariants, -⟩ := data_of_enum hstyled hs hshape
  cases h
  refine List.forall_mem_singleton.mpr
    (itemsMeet_spaced (List.forall_mem_map.mpr fun v hv => ?_) _)
  have hmem : v.variant ∈ decl.data.variants :=
    hvariants ▸ List.mem_map_of_mem (List.mem_of_mem_filter hv)
  exact Code.itemsMeet_method [_, _, _] rfl (Code.bodyMeets_one (Code.meets_line
    (.asked hname hmem (Pat.shaped_anyPattern _ _))))

/-- The pattern that takes a variant apart is in the declared form, or the bare path of a
variant with empty braces. -/
theorem drawn_of_payload {w : VariantView} (hname : name ∈ takers)
    (hv : w.variant ∈ decl.data.variants) (hfaithful : w.Faithful)
    (hplain : ¬ (w.fields.style = .named ∧ w.fields.isUnit = false)) :
    ∀ p ∈ (payloadOf w).pattern.parts, Drawn name decl p := by
  by_cases hstyle : w.fields.style = .named
  · have hunit : w.fields.isUnit = true := by simpa [hstyle] using hplain
    rw [pattern_payloadOf hstyle, Pat.parts]
    exact List.forall_mem_singleton.mpr ⟨.bare hname hv (hfaithful.style ▸ hstyle)
      (list_eq_nil_of_isUnit hfaithful hunit) rfl, List.forall_mem_nil _⟩
  · refine drawn_of_shaped _ hv (shaped_payloadOf hfaithful hstyle) fun x hx => ?_
    obtain ⟨n, rfl⟩ := mem_names_payloadOf hx
    exact .inl (word_component n)

theorem foreign_payload (w : VariantView) : Foreign (payloadOf w).value := by
  unfold payloadOf
  split
  · refine foreign_tupleOf (List.forall_mem_map.mpr fun i _ => ?_)
    exact fun _ => rfl
  · exact fun _ => rfl

theorem meets_accessorArms {support : Support} {kind : Accessor} {owner : Text}
    {v : VariantView} (form : RefForm) (hother : name ∉ builders ∧ name ≠ "IsVariant")
    (hpayload : ∀ p ∈ (payloadOf v).pattern.parts, Drawn name decl p)
    (hviews : ∀ w ∈ views, w.variant ∈ decl.data.variants) :
    ∀ a ∈ (accessorFn support kind owner views v form).arms,
      Arm.Meets (Drawn name decl) (Answer name decl) a := by
  have hforeign {text : Text} (h : Foreign text) : Answer name decl text :=
    .other hother.1 hother.2 h
  have hothers (value : VariantView → Text) (hvalue : ∀ w, Foreign (value w))
      (pat : VariantView → Pat) (hpat : ∀ w, (pat w).parts = w.anyPattern.parts) :
      ∀ a ∈ (views.filter (·.name != v.name)).map fun w => Arm.yields (pat w) (value w),
        Arm.Meets (Drawn name decl) (Answer name decl) a := by
    refine List.forall_mem_map.mpr fun w hw => Arm.meets_yields ?_ (hforeign (hvalue w))
    rw [hpat]
    refine drawn_of_shaped _ (hviews w (List.mem_of_mem_filter hw))
      (Pat.shaped_anyPattern _ _) ?_
    rw [names_anyPattern]
    exact List.forall_mem_nil _
  cases kind with
  | asVariant =>
      exact List.forall_mem_cons.mpr ⟨Arm.meets_yields hpayload (hforeign fun _ => rfl),
        Arm.meets_wild_if _ (hforeign fun _ => rfl)⟩
  | unwrap =>
      exact List.forall_mem_cons.mpr
        ⟨Arm.meets_yields hpayload (hforeign (foreign_payload v)),
        hothers _ (fun _ _ => rfl) _ fun _ => rfl⟩
  | tryInto =>
      refine List.forall_mem_cons.mpr
        ⟨Arm.meets_yields hpayload (hforeign (foreign_payload v).ok), fun a ha => ?_⟩
      split at ha
      · rw [List.mem_singleton.mp ha]
        exact Arm.meets_yields (List.forall_mem_nil _) (hforeign fun _ => rfl)
      · cases ha
  | tryUnwrap =>
      refine List.forall_mem_cons.mpr
        ⟨Arm.meets_yields hpayload (hforeign (foreign_payload v).ok),
        hothers _ (fun _ _ => rfl) _ fun w => ?_⟩
      rw [Pat.parts]

theorem forms_variantAccessors (kind : Accessor) (support : Support)
    (hname : spec.name ∈ takers)
    (hother : spec.name ∉ builders ∧ spec.name ≠ "IsVariant") :
    Forms (variantAccessors kind support) spec := by
  intro decl impls hstyled h
  obtain ⟨⟨s, views⟩, hselect, h⟩ := of_bind_ok h
  obtain ⟨hs, hshape⟩ := of_selectEnum_ok hselect
  obtain ⟨hvariants, hfaithful⟩ := data_of_enum hstyled hs hshape
  dsimp only at h
  split at h
  · cases h
  · next hplain =>
      cases h
      refine List.forall_mem_singleton.mpr (itemsMeet_spaced (fun code hcode => ?_) _)
      obtain ⟨v, hv, hcode⟩ := List.mem_flatMap.mp hcode
      obtain ⟨form, -, rfl⟩ := List.mem_map.mp hcode
      have hmem := List.mem_of_mem_filter hv
      have hviews : ∀ w ∈ views, w.variant ∈ decl.data.variants :=
        fun w hw => hvariants ▸ List.mem_map_of_mem hw
      have hpayload := drawn_of_payload hname (hviews v hmem) (hfaithful v hmem)
        (by simpa using List.find?_eq_none.mp hplain v hv)
      unfold AccessorFn.code
      exact Code.itemsMeet_method _ (by simp [Code.isPlain]) (Code.bodyMeets_one
        (Code.meets_choose (meets_accessorArms form hother hpayload hviews)))

/-! ## Formatting -/

theorem meets_formatImpl {g : ImplGenerics} {body : List Code} {P : Pat → Prop}
    (h : Code.BodyMeets P A body) : Impl.Meets P A (formatImpl g s body) :=
  Impl.meets_method [] rfl (Code.bodyMeets_one (Code.meets_reflow h))

theorem foreign_variantOutput {placeholder text : Text} {v : VariantView}
    {g g' : ImplGenerics} (hspec : s.spec = spec) (hpath : Foreign spec.path)
    (h : variantOutput placeholder s false v g = .ok (g', text)) : Foreign text := by
  unfold variantOutput at h
  split at h
  · obtain ⟨uses, -, h⟩ := of_bind_ok h
    cases h
    exact fun _ => rfl
  · cases h
    exact fun _ => rfl
  · cases h
    exact hspec ▸ hpath.concat
  · cases h

theorem meets_of_arms {arms : List Arm} {P : Pat → Prop}
    (h : List.Forall₂ (fun _ a => a.Meets P A) views arms) : ∀ a ∈ arms, a.Meets P A := by
  intro a ha
  obtain ⟨w, -, hw⟩ := exists_of_mem_forall₂ h ha
  exact hw

theorem foreign_debugOutput {own : Option FormatSpec} {out subject : Text}
    {g g' : ImplGenerics}
    (h : debugOutput s subject own fields g = .ok (g', out)) : Foreign out := by
  unfold debugOutput at h
  split at h
  · obtain ⟨uses, -, h⟩ := of_bind_ok h
    cases h
    exact fun _ => rfl
  · cases h
    exact fun _ => rfl
  · obtain ⟨⟨g'', calls⟩, -, h⟩ := of_bind_ok h
    cases h
    exact fun _ => rfl

section

variable (hother : spec.name ∉ builders ∧ spec.name ≠ "IsVariant")

include hother

theorem bodyMeets_displayStruct {body : List Code} {g : ImplGenerics} {P : Pat → Prop}
    (hspec : s.spec = spec) (hpath : Foreign spec.path)
    (h : displayStruct s fields = .ok (g, body)) :
    Code.BodyMeets P (Answer spec.name decl) body := by
  unfold displayStruct at h
  split at h
  · obtain ⟨uses, -, h⟩ := of_bind_ok h
    cases h
    refine Code.bodyMeets_last _ (List.all_map.trans (List.all_eq_true.mpr fun _ _ => rfl))
      (Code.meets_line ?_)
    exact answer_foreign hother fun _ => rfl
  · cases h
    exact Code.bodyMeets_one (Code.meets_line (answer_foreign hother fun _ => rfl))
  · cases h
    exact Code.bodyMeets_one
      (Code.meets_line (answer_foreign hother (hspec ▸ hpath.concat)))
  · cases h

theorem meets_displayArm {placeholder : Text} {shared : Option SharedFormat}
    {w : VariantView}
    {arm : Arm} {g g' : ImplGenerics} (hspec : s.spec = spec) (hpath : Foreign spec.path)
    (hv : w.variant ∈ decl.data.variants) (hfaithful : w.Faithful)
    (h : displayArm placeholder s shared g w = .ok (g', arm)) :
    Arm.Meets (Drawn spec.name decl) (Answer spec.name decl) arm := by
  have hpat (used : List Text) := drawn_of_shaped spec.name hv
    (hfaithful.shaped_formatPattern w.path used) fun _ =>
      binds_of_mem_formatPattern hv hfaithful
  unfold displayArm at h
  dsimp only at h
  split at h
  · cases h
  cases shared with
  | none =>
      obtain ⟨⟨g'', text⟩, htext, h⟩ := of_bind_ok h
      cases h
      exact Arm.meets_yields (hpat _)
        (answer_foreign hother (foreign_variantOutput hspec hpath htext))
  | some f =>
      dsimp only at h
      split at h
      · cases h
        exact Arm.meets_yields (hpat _) (answer_foreign hother fun _ => rfl)
      · obtain ⟨⟨g'', text⟩, -, h⟩ := of_bind_ok h
        cases h
        exact Arm.meets_chooses (hpat _) (List.forall_mem_singleton.mpr
          (Arm.meets_yields (List.forall_mem_nil _) (answer_foreign hother fun _ => rfl)))

theorem forms_display (placeholder : Text) (hpath : Foreign spec.path) :
    Forms (display placeholder) spec := by
  intro decl impls hstyled h
  obtain ⟨s, hs, h⟩ := of_bind_ok h
  have hspec := (Selection.of_ofDecl hs).2
  dsimp only at h
  cases hshape : s.shape with
  | struct fields =>
      rw [hshape] at h
      obtain ⟨⟨g, body⟩, hbody, h⟩ := of_bind_ok h
      cases h
      exact List.forall_mem_singleton.mpr
        (meets_formatImpl (bodyMeets_displayStruct hother hspec hpath hbody))
  | enum views =>
      obtain ⟨hvariants, hfaithful⟩ := data_of_enum hstyled hs hshape
      rw [hshape] at h
      cases views with
      | nil =>
          cases h
          exact List.forall_mem_singleton.mpr
            (meets_formatImpl (Code.bodyMeets_one (Code.meets_chooseNone _)))
      | cons w ws =>
          obtain ⟨shared, -, h⟩ := of_bind_ok h
          obtain ⟨⟨g', arms⟩, harms, h⟩ := of_bind_ok h
          cases h
          refine List.forall_mem_singleton.mpr (meets_formatImpl (Code.bodyMeets_one
            (Code.meets_choose
              (meets_of_arms (forall₂_of_arms (fun _ => rfl) (fun _ _ _ => rfl)
              (fun v hv _ _ _ hv' => ?_) harms)))))
          exact meets_displayArm hother hspec hpath (hvariants ▸ List.mem_map_of_mem hv)
            (hfaithful v hv) hv'

theorem meets_debugArm {w : VariantView} {arm : Arm} {g g' : ImplGenerics}
    (hv : w.variant ∈ decl.data.variants) (hfaithful : w.Faithful)
    (h : debugArm s g w = .ok (g', arm)) :
    Arm.Meets (Drawn spec.name decl) (Answer spec.name decl) arm := by
  have hpat (used : List Text) := drawn_of_shaped spec.name hv
    (hfaithful.shaped_formatPattern w.path used) fun _ =>
      binds_of_mem_formatPattern hv hfaithful
  obtain ⟨-, -, h⟩ := of_bind_ok h
  obtain ⟨⟨g'', out⟩, hout, h⟩ := of_bind_ok h
  cases h
  have hanswer : Answer spec.name decl out :=
    answer_foreign hother (foreign_debugOutput hout)
  split
  · exact Arm.meets_runs (hpat _) (Code.bodyMeets_one
      (Code.meets_reflow (Code.bodyMeets_one (Code.meets_line hanswer))))
  · exact Arm.meets_yields (hpat _) hanswer

theorem forms_debug : Forms debug spec := by
  intro decl impls hstyled h
  obtain ⟨s, hs, h⟩ := of_bind_ok h
  cases hshape : s.shape with
  | struct fields =>
      rw [hshape] at h
      obtain ⟨-, -, h⟩ := of_bind_ok h
      obtain ⟨⟨g, out⟩, hout, h⟩ := of_bind_ok h
      cases h
      refine List.forall_mem_singleton.mpr (meets_formatImpl (Code.bodyMeets_last _
        (List.all_map.trans (List.all_eq_true.mpr fun _ _ => rfl)) ?_))
      exact Code.meets_reflow (Code.bodyMeets_one
        (Code.meets_line (answer_foreign hother (foreign_debugOutput hout))))
  | enum views =>
      obtain ⟨hvariants, hfaithful⟩ := data_of_enum hstyled hs hshape
      rw [hshape] at h
      cases views with
      | nil =>
          cases h
          exact List.forall_mem_singleton.mpr
            (meets_formatImpl (Code.bodyMeets_one (Code.meets_chooseNone _)))
      | cons w ws =>
          obtain ⟨⟨g', arms⟩, harms, h⟩ := of_bind_ok h
          cases h
          refine List.forall_mem_singleton.mpr (meets_formatImpl (Code.bodyMeets_one
            (Code.meets_choose
              (meets_of_arms (forall₂_of_arms (fun _ => rfl) (fun _ _ _ => rfl)
              (fun v hv _ _ _ hv' => ?_) harms)))))
          exact meets_debugArm hother (hvariants ▸ List.mem_map_of_mem hv)
            (hfaithful v hv) hv'

end

end

/-! ## The catalogue -/

/-- A derive whose patterns and values are in the declared form, with the exceptions that
its name has. -/
def Declares (d : Derive) : Prop :=
  ∀ support, ∀ {decl : Decl} {impls : List Impl} {warnings : List Diagnostic},
    decl.data.Styled → d.expand support decl d.spec = .ok (impls, warnings) →
    ∀ i ∈ impls, Impl.Meets (Drawn d.name decl) (Answer d.name decl) i

theorem declares_of_forms {d : Derive} {expand : Support → Expand}
    (hexpand : d.expand = fun support decl spec =>
    do return (← expand support decl spec, []))
    (h : ∀ support, Forms (expand support) d.spec) : d.Declares := by
  intro support decl impls warnings hstyled hok
  rw [hexpand] at hok
  obtain ⟨impls', himpls, hok⟩ := of_bind_ok hok
  cases hok
  exact h support decl impls hstyled himpls

theorem declares_entry {family name path method : Text} {params : Params}
    {expand : Support → Expand}
    (h : ∀ support, Forms (expand support)
    (entry family name path method params expand).spec) :
    (entry family name path method params expand).Declares :=
  declares_of_forms rfl h

theorem declares_conversions : ∀ d ∈ conversions, d.Declares := by
  simp only [conversions, List.forall_mem_cons]
  exact ⟨declares_entry fun _ => forms_fromPayload (by decide),
    declares_entry fun _ => forms_intoPayload (by decide),
    declares_entry fun _ => forms_tryFromRepr _ (by decide),
    declares_entry fun _ => forms_tryIntoPayload (by decide) _,
    declares_entry fun _ => forms_refConversion (by decide) _,
    declares_entry fun _ => forms_refConversion (by decide) _,
    declares_entry fun _ => forms_refConversion (by decide) _,
    declares_entry fun _ => forms_refConversion (by decide) _,
    fun _ _ _ _ hstyled h => forms_fromStr rfl hstyled h, List.forall_mem_nil _⟩

/-- The assignments are no builders, whatever their operator. -/
theorem not_mem_builders {names : List Text} {name : Text}
    (hnames : names.all (fun n => !builders.contains (n ++ "Assign") &&
      (n ++ "Assign") != ("IsVariant" : Text)) = true)
    (hname : name ∈ names) :
    name ++ "Assign" ∉ builders ∧ name ++ "Assign" ≠ ("IsVariant" : Text) := by
  simpa using List.all_eq_true.mp hnames name hname

theorem mem_builders {names : List Text} {name : Text}
    (hnames : names.all builders.contains = true) (hname : name ∈ names) :
    name ∈ builders :=
  List.contains_iff_mem.mp (List.all_eq_true.mp hnames name hname)

theorem declares_operators : ∀ d ∈ operators, d.Declares := by
  simp only [operators, List.forall_mem_append, List.forall_mem_map]
  refine ⟨⟨⟨⟨fun name hname => ?_, fun name hname => ?_⟩, fun name hname => ?_⟩,
    fun name hname => ?_⟩, fun name hname => ?_⟩
  · exact declares_entry fun _ => forms_addLike _ (mem_builders (by decide) hname)
  · exact declares_entry fun _ => forms_mulLike (mem_builders (by decide) hname)
  · exact declares_entry fun _ => forms_notLike _ (mem_builders (by decide) hname)
  · exact declares_entry fun _ =>
      forms_assignLike (not_mem_builders (by decide) hname) _ fun _ => rfl
  · exact declares_entry fun _ =>
      forms_assignLike (not_mem_builders (by decide) hname) _ fun _ => rfl

theorem declares_access : ∀ d ∈ access, d.Declares := by
  simp only [access, List.forall_mem_cons]
  exact ⟨declares_entry fun _ => forms_deref (by decide) _,
    declares_entry fun _ => forms_deref (by decide) _,
    declares_entry fun _ => forms_derefToInner (by decide) _,
    declares_entry fun _ => forms_derefToInner (by decide) _,
    declares_entry fun _ => forms_index (by decide) _,
    declares_entry fun _ => forms_index (by decide) _,
    declares_entry fun _ => forms_iterator (by decide),
    declares_entry fun _ => forms_intoIterator (by decide),
    declares_entry fun _ => forms_read (by decide), List.forall_mem_nil _⟩

theorem declares_others : ∀ d ∈ others, d.Declares := by
  simp only [others, List.forall_mem_cons]
  exact ⟨declares_of_forms rfl fun _ => forms_equality (by decide) false,
    declares_of_forms rfl fun _ => forms_equality (by decide) true,
    declares_entry fun _ => forms_isVariant rfl,
    declares_entry fun _ => forms_variantAccessors .asVariant _ (by decide) (by decide),
    declares_entry fun _ => forms_variantAccessors .unwrap _ (by decide) (by decide),
    declares_entry fun _ => forms_variantAccessors .tryInto _ (by decide) (by decide),
    declares_entry fun _ => forms_variantAccessors .tryUnwrap _ (by decide) (by decide),
    declares_entry fun _ => forms_fold _ _ (by decide),
    declares_entry fun _ => forms_fold _ _ (by decide),
    declares_entry fun _ => forms_error (by decide) _, List.forall_mem_nil _⟩

theorem declares_formats : ∀ d ∈ formats, d.Declares := by
  simp only [formats, List.forall_mem_cons]
  exact ⟨declares_entry fun _ => forms_display (by decide) _ fun _ => rfl,
    declares_entry fun _ => forms_display (by decide) _ fun _ => rfl,
    declares_entry fun _ => forms_display (by decide) _ fun _ => rfl,
    declares_entry fun _ => forms_display (by decide) _ fun _ => rfl,
    declares_entry fun _ => forms_display (by decide) _ fun _ => rfl,
    declares_entry fun _ => forms_display (by decide) _ fun _ => rfl,
    declares_entry fun _ => forms_display (by decide) _ fun _ => rfl,
    declares_entry fun _ => forms_display (by decide) _ fun _ => rfl,
    declares_entry fun _ => forms_debug (by decide), List.forall_mem_nil _⟩

theorem declares_of_mem : ∀ d ∈ catalogue, d.Declares := by
  simp only [catalogue, List.cons_append, List.forall_mem_cons, List.forall_mem_append]
  exact ⟨declares_entry fun _ => forms_constructor (by decide),
    ⟨⟨⟨⟨declares_conversions, declares_operators⟩, declares_access⟩, declares_others⟩,
      declares_formats⟩,
    declares_entry fun _ => forms_default (by decide), List.forall_mem_nil _⟩

/-! ## The exceptions -/

section

variable {spec : TraitSpec} {s : Selection} {decl : Decl} {views : List VariantView}
  {support : Support} {impls : List Impl} {w : VariantView}

theorem exists_form {container : Options} {all : List Options}
    (h : w.Resolves spec container all) : ∃ form, form ∈ RefForm.ofSet w.accessors := by
  have hset (o : Options) : ∀ set ∈ o.accessorSet?, ∃ form, RefForm.on set form = true := by
    intro set hset
    unfold Options.accessorSet? at hset
    split at hset
    · next hany =>
        cases hset
        simp only [Bool.or_eq_true] at hany
        rcases hany with (howned | href) | hmut
        · exact ⟨.owned, howned⟩
        · exact ⟨.ref, href⟩
        · exact ⟨.refMut, hmut⟩
    · cases hset
  have hon : ∃ form, RefForm.on w.accessors form = true := by
    rw [h.accessors]
    cases hown : w.options.accessorSet? with
    | some set => exact hset _ set hown
    | none =>
        cases hcontainer : container.accessorSet? with
        | some set => exact hset _ set hcontainer
        | none => exact ⟨.owned, rfl⟩
  obtain ⟨form, hform⟩ := hon
  refine ⟨form, List.mem_filter.mpr ⟨?_, hform⟩⟩
  cases form <;> decide

/-- The functions that take a variant apart match one with empty braces by its bare path. -/
theorem unit_mem_patterns {kind : Accessor}
    (h : variantAccessors kind support decl spec = .ok impls)
    (hs : Selection.ofDecl decl spec = .ok s) (hshape : s.shape = .enum views)
    (hw : w ∈ views.filter (·.enabled)) (hform : ∃ form, form ∈ RefForm.ofSet w.accessors)
    (hstyle : w.fields.style = .named) : ∃ i ∈ impls, Pat.unit w.path ∈ i.patterns := by
  obtain ⟨form, hform⟩ := hform
  obtain ⟨⟨s', views'⟩, hselect, h⟩ := of_bind_ok h
  obtain ⟨hs', hshape'⟩ := of_selectEnum_ok hselect
  cases hs.symm.trans hs'
  cases hshape.symm.trans hshape'
  have hfirst : ∃ value rest, (accessorFn support kind decl.name views w form).arms =
      .yields (payloadOf w).pattern value :: rest := by
    cases kind <;> exact ⟨_, _, rfl⟩
  obtain ⟨value, rest, harms⟩ := hfirst
  dsimp only at h
  split at h
  · cases h
  · cases h
    refine ⟨_, List.mem_singleton_self _, ?_⟩
    have hcode : (accessorFn support kind decl.name views w form).code form ∈
        (views.filter (·.enabled)).flatMap fun v =>
          (RefForm.ofSet v.accessors).map fun form =>
          (accessorFn support kind decl.name views v form).code form :=
      List.mem_flatMap.mpr ⟨w, hw, List.mem_map_of_mem hform⟩
    have hmatch : ∃ m ∈ Code.matchesAll (s.generics.inherentHeader decl.name)
        ((accessorFn support kind decl.name views w form).code form),
        Arm.yields (payloadOf w).pattern value ∈ m.arms := by
      rw [matchesAll_accessorCode, Code.matches, harms]
      exact ⟨_, List.mem_cons_self .., List.mem_cons_self ..⟩
    obtain ⟨m, hm, harm⟩ := hmatch
    rw [Impl.patterns, Impl.matches, matchesAll_spaced]
    refine Match.mem_patterns (List.mem_flatMap.mpr ⟨_, hcode, hm⟩) harm ?_
    rw [Arm.pat, pattern_payloadOf hstyle, Pat.parts]
    exact List.mem_singleton_self _

/-- Every name has an arm, of the names of one form that are given more than once too. -/
theorem exists_literalArm {names : List Text} {n : Text} (hn : n ∈ names) :
    ∃ a ∈ LiteralArm.anyCase names, a.variant = n := by
  have hmem : n ∈ names.filter fun m => m.fold == n.fold :=
    List.mem_filter.mpr ⟨hn, beq_self_eq_true _⟩
  have harm : ∃ a ∈ LiteralArm.group n.fold (names.filter fun m => m.fold == n.fold),
      a.variant = n := by
    unfold LiteralArm.group
    split
    · next name hone =>
        rw [hone, List.mem_singleton] at hmem
        exact ⟨_, List.mem_singleton_self _, hmem.symm⟩
    · exact ⟨_, List.mem_map_of_mem hmem, rfl⟩
  obtain ⟨a, ha, hvariant⟩ := harm
  exact ⟨a, List.mem_flatMap.mpr
    ⟨n.fold, Text.mem_distinct.mpr (List.mem_map_of_mem hn), ha⟩, hvariant⟩

theorem path_mem_answers {warnings : List Diagnostic}
    (h : fromStr support decl spec = .ok (impls, warnings))
    (hs : Selection.ofDecl decl spec = .ok s) (hshape : s.shape = .enum views)
    (hw : w ∈ views.filter (·.enabled)) (hany : s.container.renameAll = none) :
    ∃ i ∈ impls, Text.concat [Core.ok, "(", w.path, ")"] ∈ i.answers := by
  obtain ⟨variants, hdata⟩ := exists_variants hs hshape
  obtain ⟨s', views', hs', hshape', -, header, rfl, -, -⟩ := of_fromStr hdata h
  cases hs.symm.trans hs'
  cases hshape.symm.trans hshape'
  refine ⟨_, List.mem_singleton_self _, ?_⟩
  obtain ⟨a, ha, hvariant⟩ := exists_literalArm (List.mem_map_of_mem (f := (·.name)) hw)
  have harms : a ∈ (literalArms s (views.filter (·.enabled))).1 := by
    unfold literalArms
    rw [hany]
    exact ha
  have hvalue : Text.concat [Core.ok, "(", w.path, ")"] ∈ a.arm.answers := by
    have htext : Text.concat [Core.ok, "(", w.path, ")"] =
        Text.concat [Core.ok, "(Self::", a.variant, ")"] := by
      rw [hvariant]
      exact (concat_path w.variant).symm
    rw [htext]
    unfold LiteralArm.arm
    cases a.guard <;> exact List.mem_singleton_self _
  have hmem :=
    Arm.mem_answersIn (List.mem_append_left [.yields .wild (notParsed support decl)]
    (List.mem_map_of_mem (f := LiteralArm.arm) harms)) hvalue
  have hanswers (scrutinee : Text) (arms : List LiteralArm) :
      (parserOf support decl header scrutinee arms).answers =
        Arm.answersIn (arms.map LiteralArm.arm ++
          [.yields .wild (notParsed support decl)]) :=
    List.append_nil _
  rw [hanswers]
  exact hmem

end

theorem of_enabledVariants {s : Selection} {vs : List VariantView}
    (h : s.enabledVariants = .ok vs) :
    ∃ views, s.shape = .enum views ∧ vs = views.filter (·.enabled) := by
  obtain ⟨views, hviews, h⟩ := of_bind_ok h
  cases h
  exact ⟨views, Selection.shape_of_enumVariants hviews, rfl⟩

/-- A derive that takes variants apart expands by `variantAccessors`. -/
theorem accessors_of_run {name : Text} {d : Derive} {support : Support} {decl : Decl}
    {e : Expansion} (hname : name ∈ takers) (hd : find? name = some d)
    (h : d.run support decl = .ok e) :
    ∃ kind, variantAccessors kind support decl d.spec = .ok e.impls := by
  simp only [takers, List.mem_cons, List.not_mem_nil, or_false] at hname
  rcases hname with rfl | rfl | rfl | rfl
  · cases hd
    exact ⟨.asVariant, of_run_entry h⟩
  · cases hd
    exact ⟨.unwrap, of_run_entry h⟩
  · cases hd
    exact ⟨.tryInto, of_run_entry h⟩
  · cases hd
    exact ⟨.tryUnwrap, of_run_entry h⟩

/-- In the code for a parsed declaration every pattern with a path is in the form that its
variant is declared in, and every function comes to a value in the form that the struct or
the variant is declared in, or to no value of the declared type at all. There are two
exceptions, and these do occur: each variant with empty braces that takes part is matched
by its bare path by the functions that take it apart, and each variant without fields is
built by its bare path by the parser of an enum, be it declared with brackets or not. -/
theorem declared_forms {name source : Text} {d : Derive} {support : Support} {decl : Decl}
    {e : Expansion} (hd : find? name = some d) (hdecl : decl ∈ (parse source).file.decls)
    (h : d.run support decl = .ok e) :
    (∀ i ∈ e.impls, (∀ p ∈ i.patterns, Pattern name decl p) ∧
      ∀ t ∈ i.answers, Answer name decl t) ∧
    ∀ s vs, Selection.ofDecl decl d.spec = .ok s → s.enabledVariants = .ok vs → ∀ w ∈ vs,
      w.variant.fields.list = [] →
        (name ∈ takers → w.variant.fields.style = .named →
          ∃ i ∈ e.impls, Pat.unit w.path ∈ i.patterns) ∧
        (name = "FromStr" → s.container.renameAll = none →
          ∃ i ∈ e.impls, Text.concat [Core.ok, "(", w.path, ")"] ∈ i.answers) := by
  have hstyled := styled_of_parse hdecl
  have hname : d.name = name := by simpa using List.find?_some hd
  obtain ⟨warnings, hexpand⟩ := of_run_ok h
  refine ⟨fun i hi => ?_, fun s vs hs hvs w hw _ =>
    ⟨fun htaker hnamed => ?_, fun hparser hany => ?_⟩⟩
  · have hforms :=
      declares_of_mem d (List.mem_of_find?_eq_some hd) support hstyled hexpand i hi
    rw [hname] at hforms
    exact ⟨fun p hp => (hforms.patterns p hp).pattern, hforms.answers⟩
  · obtain ⟨kind, himpls⟩ := accessors_of_run htaker hd h
    obtain ⟨views, hshape, rfl⟩ := of_enabledVariants hvs
    have hmem := List.mem_of_mem_filter hw
    obtain ⟨variants, hdata⟩ := exists_variants hs hshape
    obtain ⟨-, views', hshape', -, -, hresolves⟩ := Selection.enum_resolves hs hdata
    cases hshape.symm.trans hshape'
    obtain ⟨-, hfaithful⟩ := data_of_enum hstyled hs hshape
    exact unit_mem_patterns himpls hs hshape hw (exists_form (hresolves w hmem))
      ((hfaithful w hmem).style.trans hnamed)
  · obtain ⟨views, hshape, rfl⟩ := of_enabledVariants hvs
    subst hparser
    cases hd
    exact path_mem_answers hexpand hs hshape hw hany

set_option maxRecDepth 2000 in
/-- A variant with empty braces is matched by its bare path, which is not its form. -/
theorem declared_forms_braces : ∃ d decl e i v, find? "AsVariant" = some d ∧
    (parse "#[derive(AsVariant)] enum E \x7b A \x7b\x7d \x7d").file.decls = [decl] ∧
    d.run {} decl = .ok e ∧ i ∈ e.impls ∧ v ∈ decl.data.variants ∧
    Pat.unit v.path ∈ i.patterns ∧ ¬ (Pat.unit v.path).Shaped v.fields v.path := by
  obtain ⟨d, decl, e, s, w, v, hd, hdecls, he, hs, hvs, hdata, hv, hstyle, hnone⟩ :
      ∃ d decl e s w v, find? "AsVariant" = some d ∧
        (parse "#[derive(AsVariant)] enum E \x7b A \x7b\x7d \x7d").file.decls = [decl] ∧
        d.run {} decl = .ok e ∧ Selection.ofDecl decl d.spec = .ok s ∧
        s.enabledVariants = .ok [w] ∧ decl.data = .enum [v] ∧ w.variant = v ∧
        v.fields.style = .named ∧ v.fields.list = [] :=
    ⟨_, _, _, _, _, _, rfl, rfl, rfl, rfl, rfl, rfl, rfl, rfl, rfl⟩
  subst hv
  obtain ⟨-, hexceptions⟩ := declared_forms hd (hdecls ▸ List.mem_singleton_self decl) he
  obtain ⟨htaken, -⟩ := hexceptions s [w] hs hvs w (List.mem_singleton_self w) hnone
  obtain ⟨i, hi, hp⟩ := htaken (by decide) hstyle
  refine ⟨d, decl, e, i, w.variant, hd, hdecls, he, hi, ?_, hp, fun hshaped => ?_⟩
  · rw [hdata]
    exact List.mem_singleton_self _
  · obtain ⟨-, hunit⟩ := hshaped
    rw [hstyle] at hunit
    cases hunit

end Deriver.Derive
