import Deriver.Proofs.Code.Matches
import Deriver.Proofs.Derive.Accessors
import Deriver.Proofs.Derive.Discriminants
import Deriver.Proofs.Derive.Parsing

/-!
# Generated matches are exhaustive

Main statement: `matches_exhaustive`. Each derive decides for itself which variants of an
enum get an arm, and whether a last arm takes the rest: the arms are made for all
variants, or for some with a last arm whenever a variant has none. A match without arms is
made for an enum without variants only, and is then by value, except that of `Read`.
-/

namespace Deriver.Derive

/-- Whether every match that an expansion of an enum emits is complete. -/
def Completes (byValue : Bool) (expand : Expand) (spec : TraitSpec) : Prop :=
  ∀ (decl : Decl) (variants : List Variant) (impls : List Impl), decl.data =
    .enum variants →
    decl.data.Styled → expand decl spec = .ok impls →
      ∀ i ∈ impls, i.Complete variants byValue

variable {byValue : Bool} {spec : TraitSpec} {s : Selection} {views : List VariantView}

/-! ## Derives for structs -/

theorem selectStruct_ne {decl : Decl} {variants : List Variant} {r : Selection × FieldsView}
    (hdata : decl.data = .enum variants) : selectStruct decl spec ≠ .ok r := by
  intro h
  unfold selectStruct Decl.isEnum at h
  rw [hdata] at h
  cases h

theorem of_selectFields {decl : Decl} {r : Selection × FieldsView}
    (h : selectFields decl spec = .ok r) : ∃ r, selectStruct decl spec = .ok r := by
  obtain ⟨r, hr, -⟩ := of_bind_ok h
  exact ⟨r, hr⟩

/-- Nothing is emitted for an enum by a derive that selects the fields of a struct. -/
theorem completes_of_selectStruct {expand : Expand}
    (h : ∀ decl impls, expand decl spec = .ok impls → ∃ r, selectStruct decl spec = .ok r) :
    Completes byValue expand spec := by
  intro decl variants impls hdata _ hok
  obtain ⟨r, hr⟩ := h decl impls hok
  exact absurd hr (selectStruct_ne hdata)

theorem completes_constructor : Completes byValue constructor spec :=
  completes_of_selectStruct fun _ _ h => (of_bind_ok h).imp fun _ h => h.1

theorem completes_intoPayload : Completes byValue intoPayload spec :=
  completes_of_selectStruct fun _ _ h => (of_bind_ok h).imp fun _ h => h.1

theorem completes_refConversion (isMut : Bool) :
    Completes byValue (refConversion isMut) spec :=
  completes_of_selectStruct fun _ _ h => have ⟨_, h, _⟩ := of_bind_ok h; of_selectFields h

theorem completes_mulLike : Completes byValue mulLike spec :=
  completes_of_selectStruct fun _ _ h => have ⟨_, h, _⟩ := of_bind_ok h; of_selectFields h

theorem completes_assignLike (isScalar : Bool) :
    Completes byValue (assignLike isScalar) spec :=
  completes_of_selectStruct fun _ _ h => have ⟨_, h, _⟩ := of_bind_ok h; of_selectFields h

theorem completes_fold (path method : Text) : Completes byValue (fold path method) spec :=
  completes_of_selectStruct fun _ _ h => have ⟨_, h, _⟩ := of_bind_ok h; of_selectFields h

theorem completes_derefToInner (isMut : Bool) :
    Completes byValue (derefToInner isMut) spec :=
  completes_of_selectStruct fun _ _ h => (of_bind_ok h).imp fun _ h => h.1

theorem completes_iterator : Completes byValue iterator spec :=
  completes_of_selectStruct fun _ _ h => (of_bind_ok h).imp fun _ h => h.1

theorem completes_intoIterator : Completes byValue intoIterator spec :=
  completes_of_selectStruct fun _ _ h => (of_bind_ok h).imp fun _ h => h.1

/-! ## Derives without matches -/

theorem views_of_ofDecl {decl : Decl} {variants : List Variant}
    (hdata : decl.data = .enum variants)
    (hstyled : decl.data.Styled) (hs : Selection.ofDecl decl spec = .ok s) :
    ∃ views, s.shape = .enum views ∧ views.map (·.variant) = variants ∧
      ∀ w ∈ views, w.Faithful := by
  obtain ⟨-, views, hshape, hvariants, -⟩ := Selection.enum_resolves hs hdata
  exact ⟨views, hshape, hvariants, Selection.faithful_of_ofDecl hstyled hs hshape⟩

theorem completes_fromPayload (hpath : spec.path = Core.fromTrait) :
    Completes byValue fromPayload spec := by
  intro decl variants impls hdata hstyled h i hi
  obtain ⟨s, hs, h⟩ := of_bind_ok h
  obtain ⟨views, hshape, -, -⟩ := views_of_ofDecl hdata hstyled hs
  rw [hshape] at h
  obtain ⟨hconverts, -, -⟩ := converts_fromVariants ((Selection.of_ofDecl hs).2 ▸ hpath) h
  obtain ⟨source, -, params, clause, value, rfl⟩ :=
    exists_of_mem_forall₂ hconverts.flip hi
  exact Impl.complete_of_matches rfl

theorem matchesAll_spaced (head : Text) (groups : List (List Code)) :
    Code.matchesAll head (spaced groups) = groups.flatMap (Code.matchesAll head) := by
  rw [Code.matchesAll_eq_flatMap, flatMap_spaced rfl]
  exact List.flatMap_congr fun g _ => (Code.matchesAll_eq_flatMap head g).symm

theorem completes_isVariant : Completes byValue isVariant spec := by
  intro decl variants impls hdata hstyled h i hi
  obtain ⟨⟨s, views⟩, -, h⟩ := of_bind_ok h
  cases h
  obtain rfl := List.mem_singleton.mp hi
  refine Impl.complete_of_matches ?_
  rw [Impl.matches, matchesAll_spaced, List.flatMap_map]
  exact List.flatMap_eq_nil_iff.mpr fun _ _ => rfl

theorem completes_default : Completes byValue default spec := by
  intro decl variants impls hdata hstyled h i hi
  obtain ⟨s, hs, h⟩ := of_bind_ok h
  obtain ⟨views, hshape, -, -⟩ := views_of_ofDecl hdata hstyled hs
  rw [hshape] at h
  obtain ⟨v, -, h⟩ := of_bind_ok h
  cases h
  obtain rfl := List.mem_singleton.mp hi
  exact Impl.complete_of_matches rfl

/-! ## Derives with a last arm -/

section

variable {header head : Text} {code : Code} {variants : List Variant}
  (items lines : List Code)

/-- An implementation of one function, whose last piece of code holds the matches. -/
theorem complete_method (hitems : ∀ c ∈ items, c.matches header = [])
    (hlines : ∀ c ∈ lines, c.matches head = [])
    (hcode : ∀ m ∈ code.matches head, m.Complete variants byValue) :
    (Impl.block header (items ++ [.block head (lines ++ [code])])).Complete
    variants byValue := by
  intro m hm
  rw [Impl.matches, Code.matchesAll_last hitems, Code.matches,
    Code.matchesAll_last hlines] at hm
  exact hcode m hm

theorem complete_function (hitems : ∀ c ∈ items, c.matches header = [])
    (hlines : ∀ c ∈ lines, c.matches head = [])
    (hcode : ∀ m ∈ code.matches head, m.Complete variants byValue) :
    (Impl.block header (items ++ [.inline, .block head (lines ++ [code])])).Complete
    variants byValue := by
  have hitems' : ∀ c ∈ items ++ [.inline], c.matches header = [] :=
    List.forall_mem_append.mpr ⟨hitems, List.forall_mem_singleton.mpr rfl⟩
  rw [List.append_cons]
  exact complete_method _ _ hitems' hlines hcode

end

theorem matches_typeItems (header line : Text) :
    ∀ c ∈ [Code.line line, .blank], c.matches header = [] := by
  simp only [List.forall_mem_cons]
  exact ⟨rfl, rfl, List.forall_mem_nil _⟩

/-- A match whose last arm takes everything, and whose arms hold no others. -/
theorem complete_of_last {head scrutinee value : Text} {variants : List Variant}
    {arms : List Arm} (harms : ∀ a ∈ arms, a.matches head = []) :
    ∀ m ∈ Code.matches head (.choose scrutinee (arms ++ [.yields .wild value])),
      m.Complete variants byValue := by
  have hall : ∀ a ∈ arms ++ [Arm.yields .wild value], a.matches head = [] := by
    simp only [List.forall_mem_append, List.forall_mem_singleton]
    exact ⟨harms, rfl⟩
  rw [Code.matches_choose hall, List.forall_mem_singleton]
  exact Match.complete_of_isOpen (List.mem_append_right _ (List.mem_singleton_self _)) rfl

theorem completes_tryFromRepr (support : Support) :
    Completes byValue (tryFromRepr support) spec := by
  intro decl variants impls hdata hstyled h i hi
  obtain ⟨⟨s, views⟩, -, h⟩ := of_bind_ok h
  cases h
  obtain rfl := List.mem_singleton.mp hi
  have hlines (head type : Text) (ds : List Discriminant) :
      ∀ l ∈ constLines type ds, l.matches head = [] := by
    intro l hl
    obtain ⟨d, -, hl⟩ := List.mem_flatMap.mp hl
    simp only [List.mem_cons, List.not_mem_nil, or_false] at hl
    rcases hl with rfl | rfl <;> rfl
  refine complete_function _ _ (matches_typeItems _ _) (hlines _ _ _)
    (complete_of_last fun a ha => ?_)
  obtain ⟨d, -, rfl⟩ := List.mem_map.mp ha
  rfl

theorem completes_tryIntoPayload (support : Support) :
    Completes byValue (tryIntoPayload support) spec := by
  intro decl variants impls hdata hstyled h i hi
  obtain ⟨⟨s, views⟩, -, h⟩ := of_bind_ok h
  cases h
  obtain ⟨group, -, rfl⟩ := List.mem_map.mp hi
  exact List.forall_mem_singleton.mpr
    (Match.complete_of_isOpen (List.mem_cons_of_mem _ (List.mem_singleton_self _)) rfl)

theorem complete_parserOf {support : Support} {decl : Decl} {header scrutinee : Text}
    {arms : List LiteralArm} {variants : List Variant} :
    (parserOf support decl header scrutinee arms).Complete variants byValue := by
  refine complete_function _ [] (matches_typeItems _ _) (List.forall_mem_nil _)
    (complete_of_last fun a ha => ?_)
  obtain ⟨a, -, rfl⟩ := List.mem_map.mp ha
  unfold LiteralArm.arm
  cases a.guard <;> rfl

/-! ## Derives that match two values -/

/-- A match of two values is complete if each variant has an arm for its own pairs, and a
last arm takes the rest if there are two variants. -/
theorem complete_pairs {head scrutinee value : Text} {arm : VariantView → Arm}
    (hpair : (Match.mk head scrutinee []).isOfPair = true) (hsome : views ≠ [])
    (hown : ∀ w ∈ views, (arm w).takesPair w.variant w.variant = true)
    (harm : ∀ w ∈ views, (arm w).matches head = []) :
    ∀ m ∈ Code.matches head (.choose scrutinee
        (views.map arm ++ if 1 < views.length then [.yields .wild value] else [])),
      m.Complete (views.map (·.variant)) byValue := by
  have hall : ∀ a ∈ views.map arm ++
      (if 1 < views.length then [Arm.yields .wild value] else []),
      a.matches head = [] := by
    rw [List.forall_mem_append, List.forall_mem_map]
    refine ⟨harm, fun a ha => ?_⟩
    split at ha
    · rw [List.mem_singleton.mp ha]
      rfl
    · cases ha
  rw [Code.matches_choose hall, List.forall_mem_singleton]
  refine Match.complete_of_takesPair hpair (Match.exists_takesPair hown rfl) fun hnone => ?_
  exact absurd (List.map_eq_nil_iff.mp (List.append_eq_nil_iff.mp hnone).1) hsome

theorem takesPair_addArm (support : Support) (spec : TraitSpec) {w : VariantView}
    (hfaithful : w.Faithful) :
    (addArm support spec w).takesPair w.variant w.variant = true := by
  have htakes : (Pat.pair (w.fields.pattern w.path "self")
      (w.fields.pattern w.path "rhs")).takesPair w.variant w.variant = true := by
    rw [Pat.takesPair, hfaithful.takes_pattern, hfaithful.takes_pattern]
    rfl
  unfold addArm
  split <;> exact htakes

theorem isByValue_binarySignature (arms : List Arm) (hmethod : 40 ∉ spec.method) :
    (Match.mk (binarySignature spec) "self" arms).isByValue = true := by
  have hhead : binarySignature spec =
      ("fn " ++ spec.method) ++ 40 :: Text.ofString "self, rhs: Self) -> Self::Output" := by
    rw [binarySignature, Text.concat, List.flatten_cons, List.flatten_cons,
      List.flatten_singleton, ← List.append_assoc]
    rfl
  rw [hhead]
  refine Match.isByValue_self arms (fun h => ?_) rfl
  exact (List.mem_append.mp h).elim (by decide) hmethod

theorem complete_addEnum {support : Support} {impls : List Impl}
    (hmethod : 40 ∉ s.spec.method) (hfaithful : ∀ w ∈ views, w.Faithful)
    (h : addEnum support s views = .ok impls) :
    ∀ i ∈ impls, i.Complete (views.map (·.variant)) true := by
  unfold addEnum at h
  dsimp only at h
  split at h
  · cases h
  · cases h
    refine List.forall_mem_singleton.mpr
      (complete_function _ [] (matches_typeItems _ _) (List.forall_mem_nil _) ?_)
    cases views with
    | nil =>
        exact List.forall_mem_singleton.mpr
          (Match.complete_of_no_variants rfl (isByValue_binarySignature [] hmethod))
    | cons w ws =>
        refine complete_pairs rfl (List.cons_ne_nil w ws)
          (fun w hw => takesPair_addArm support s.spec (hfaithful w hw)) fun w _ => ?_
        unfold addArm
        split <;> rfl

theorem completes_addLike (support : Support) (hmethod : 40 ∉ spec.method) :
    Completes true (addLike support) spec := by
  intro decl variants impls hdata hstyled h
  obtain ⟨s, hs, h⟩ := of_bind_ok h
  obtain ⟨views, hshape, rfl, hfaithful⟩ := views_of_ofDecl hdata hstyled hs
  rw [hshape] at h
  exact complete_addEnum ((Selection.of_ofDecl hs).2 ▸ hmethod) hfaithful h

theorem completes_equality (isMarker : Bool) : Completes true (equality isMarker) spec := by
  intro decl variants impls hdata hstyled h i hi
  obtain ⟨s, hs, h⟩ := of_bind_ok h
  obtain ⟨views, hshape, rfl, hfaithful⟩ := views_of_ofDecl hdata hstyled hs
  cases isMarker with
  | true =>
      cases h
      rw [List.mem_singleton.mp hi]
      exact Impl.complete_of_matches rfl
  | false =>
      cases h
      rw [List.mem_singleton.mp hi, hshape]
      refine complete_function [] [] (List.forall_mem_nil _) (List.forall_mem_nil _) ?_
      cases views with
      | nil => exact List.forall_mem_singleton.mpr (Match.complete_of_no_variants rfl rfl)
      | cons w ws =>
          refine complete_pairs rfl (List.cons_ne_nil w ws) (fun w hw => ?_) fun _ _ => rfl
          change (_ && _) = true
          rw [(hfaithful w hw).takes_patternEnabled, (hfaithful w hw).takes_patternEnabled]
          rfl

/-! ## Derives that match one value -/

/-- A match of a value is complete if each variant has an arm, or one of its name has, and
the matches in its arms are. -/
theorem complete_choose {head : Text} {arms : List Arm}
    (hown : ∀ w ∈ views, ∃ x ∈ views, x.name = w.name ∧
    ∃ a ∈ arms, a.takes x.variant = true)
    (harms : ∀ a ∈ arms, ∀ m ∈ a.matches head, m.Complete (views.map (·.variant)) byValue)
    (hempty : arms = [] → (Match.mk head "self" []).isByValue = byValue) :
    ∀ m ∈ Code.matches head (.choose "self" arms),
    m.Complete (views.map (·.variant)) byValue := by
  rw [Code.matches, List.forall_mem_cons]
  refine ⟨Match.complete_of_takes rfl (fun v hv => ?_) fun hnone => ?_, fun m hm => ?_⟩
  · obtain ⟨w, hw, rfl⟩ := List.mem_map.mp hv
    obtain ⟨x, hx, hname, harm⟩ := hown w hw
    exact ⟨x.variant, List.mem_map_of_mem hx, hname, harm⟩
  · obtain rfl : arms = [] := hnone
    exact hempty rfl
  · rw [Arm.matchesAll_eq_flatMap] at hm
    obtain ⟨a, ha, hm⟩ := List.mem_flatMap.mp hm
    exact harms a ha m hm

theorem complete_named {head : Text} {arms : List Arm}
    (hown : ∀ w ∈ views, ∃ x ∈ views, x.name = w.name ∧
    ∃ a ∈ arms, a.takes x.variant = true) (harms : ∀ a ∈ arms, a.matches head = [])
    (hempty : arms = [] → (Match.mk head "self" []).isByValue = byValue) :
    ∀ m ∈ Code.matches head (.choose "self" arms),
    m.Complete (views.map (·.variant)) byValue :=
  complete_choose hown (fun a ha _ hm => absurd (harms a ha ▸ hm) List.not_mem_nil) hempty

theorem complete_self {head : Text} {arms : List Arm}
    (hown : ∀ w ∈ views, ∃ a ∈ arms, a.takes w.variant = true)
    (harms : ∀ a ∈ arms, a.matches head = [])
    (hempty : arms = [] → (Match.mk head "self" []).isByValue = byValue) :
    ∀ m ∈ Code.matches head (.choose "self" arms),
    m.Complete (views.map (·.variant)) byValue :=
  complete_named (fun w hw => ⟨w, hw, rfl, hown w hw⟩) harms hempty

theorem completes_notLike (support : Support) (hmethod : 40 ∉ spec.method) :
    Completes true (notLike support) spec := by
  intro decl variants impls hdata hstyled h i hi
  obtain ⟨s, hs, h⟩ := of_bind_ok h
  obtain ⟨views, hshape, rfl, hfaithful⟩ := views_of_ofDecl hdata hstyled hs
  rw [hshape] at h
  cases h
  rw [List.mem_singleton.mp hi]
  refine complete_function _ [] (matches_typeItems _ _) (List.forall_mem_nil _)
    (complete_self (fun w hw => ⟨_, List.mem_map_of_mem hw, ?_⟩)
      (fun a ha => ?_) fun _ => ?_)
  · unfold notArm
    split <;> exact (hfaithful w hw).takes_pattern "self"
  · obtain ⟨w, -, rfl⟩ := List.mem_map.mp ha
    unfold notArm
    split <;> rfl
  · have hhead : Text.concat ["fn ", spec.method, "(self) -> Self::Output"] =
        ("fn " ++ spec.method) ++ 40 :: Text.ofString "self) -> Self::Output" := by
      rw [Text.concat, List.flatten_cons, List.flatten_cons, List.flatten_singleton,
        ← List.append_assoc]
      rfl
    rw [hhead]
    refine Match.isByValue_self [] (fun h => ?_) rfl
    exact (List.mem_append.mp h).elim (by decide) hmethod

/-- A match of a value is complete if there is an arm for each variant that passes over its
disabled fields. -/
theorem complete_enabled {α : Type} {head : Text} {targets : List (VariantView × α)}
    {value : VariantView × α → Text} (hfaithful : ∀ w ∈ views, w.Faithful)
    (htargets : targets.map (·.1) = views)
    (hempty : views = [] → (Match.mk head "self" []).isByValue = byValue) :
    ∀ m ∈ Code.matches head (.choose "self" (targets.map fun t =>
        .yields (t.1.fields.patternEnabled t.1.path "self") (value t))),
      m.Complete (views.map (·.variant)) byValue := by
  refine complete_self (fun w hw => ?_) (fun a ha => ?_) fun hnone => hempty ?_
  · rw [← htargets] at hw
    obtain ⟨t, ht, rfl⟩ := List.mem_map.mp hw
    exact ⟨_, List.mem_map_of_mem ht,
      (hfaithful _ (htargets ▸ List.mem_map_of_mem ht)).takes_patternEnabled "self"⟩
  · obtain ⟨t, -, rfl⟩ := List.mem_map.mp ha
    rfl
  · rw [← htargets, List.map_eq_nil_iff.mp hnone, List.map_nil]

theorem map_fst_of_mapM {α : Type} {g : VariantView → Except Diagnostic (VariantView × α)}
    {targets : List (VariantView × α)} (h : views.mapM g = .ok targets)
    (hfst : ∀ v t, g v = .ok t → t.1 = v) : targets.map (·.1) = views :=
  (map_eq_map_of_forall₂ (g := id) (forall₂_of_mapM h) hfst).trans (List.map_id _)

theorem map_fst_of_paired {α β : Type} {g : VariantView → Except Diagnostic α} {f : α → β}
    {targets : List (VariantView × β)}
    (h : (views.mapM fun v => do return (v, f (← g v))) = .ok targets) :
    targets.map (·.1) = views :=
  map_fst_of_mapM h fun v t ht => by
    obtain ⟨a, -, ht⟩ := of_bind_ok ht
    cases ht
    rfl

theorem of_derefTargets {targets : List (VariantView × DerefTarget)}
    (h : derefTargets s views = .ok targets) : targets.map (·.1) = views ∧ views ≠ [] := by
  cases views with
  | nil => cases h
  | cons w ws =>
      obtain ⟨single, -, h⟩ := of_bind_ok h
      obtain ⟨first, -, h⟩ := of_bind_ok h
      refine ⟨map_fst_of_mapM h fun v t ht => ?_, List.cons_ne_nil w ws⟩
      obtain ⟨single, -, ht⟩ := of_bind_ok ht
      dsimp only at ht
      split at ht
      · cases ht
      · cases ht
        rfl

/-- What stands in front of a function that reaches through: the type, where it is
declared. -/
theorem matches_typeItems_if (isMut : Bool) (header line : Text) :
    ∀ c ∈ (if isMut then [] else [Code.line line, .blank]), c.matches header = [] := by
  cases isMut with
  | true => exact List.forall_mem_nil _
  | false => exact matches_typeItems header line

theorem completes_deref (isMut : Bool) : Completes byValue (deref isMut) spec := by
  intro decl variants impls hdata hstyled h i hi
  obtain ⟨s, hs, h⟩ := of_bind_ok h
  obtain ⟨views, hshape, rfl, hfaithful⟩ := views_of_ofDecl hdata hstyled hs
  rw [hshape] at h
  obtain ⟨targets, htargets, h⟩ := of_bind_ok h
  obtain ⟨hfst, hsome⟩ := of_derefTargets htargets
  cases h
  rw [List.mem_singleton.mp hi]
  exact complete_function _ [] (matches_typeItems_if isMut _ _) (List.forall_mem_nil _)
    (complete_enabled hfaithful hfst fun hnone => absurd hnone hsome)

theorem of_indexedFields {targets : List (VariantView × FieldView)}
    (h : indexedFields s views = .ok targets) : targets.map (·.1) = views ∧ views ≠ [] := by
  cases views with
  | nil => cases h
  | cons w ws =>
      obtain ⟨single, -, h⟩ := of_bind_ok h
      obtain ⟨first, -, h⟩ := of_bind_ok h
      refine ⟨map_fst_of_mapM h fun v t ht => ?_, List.cons_ne_nil w ws⟩
      obtain ⟨single, -, ht⟩ := of_bind_ok ht
      dsimp only at ht
      split at ht
      · cases ht
      · cases ht
        rfl

theorem completes_index (isMut : Bool) : Completes byValue (index isMut) spec := by
  intro decl variants impls hdata hstyled h i hi
  obtain ⟨s, hs, h⟩ := of_bind_ok h
  obtain ⟨views, hshape, rfl, hfaithful⟩ := views_of_ofDecl hdata hstyled hs
  rw [hshape] at h
  obtain ⟨targets, htargets, h⟩ := of_bind_ok h
  obtain ⟨hfst, hsome⟩ := of_indexedFields htargets
  cases h
  rw [List.mem_singleton.mp hi]
  exact complete_function _ [] (matches_typeItems_if isMut _ _) (List.forall_mem_nil _)
    (complete_enabled hfaithful hfst fun hnone => absurd hnone hsome)

theorem completes_read : Completes false read spec := by
  intro decl variants impls hdata hstyled h i hi
  obtain ⟨s, hs, h⟩ := of_bind_ok h
  obtain ⟨views, hshape, rfl, hfaithful⟩ := views_of_ofDecl hdata hstyled hs
  rw [hshape] at h
  obtain ⟨targets, htargets, h⟩ := of_bind_ok h
  cases h
  rw [List.mem_singleton.mp hi]
  exact complete_function [] [] (List.forall_mem_nil _) (List.forall_mem_nil _)
    (complete_enabled hfaithful (map_fst_of_paired htargets) fun _ => rfl)

/-! ## Functions for variants -/

/-- The pattern that takes a variant apart has its form, if it is not declared with
braces. -/
theorem shaped_payloadOf {w : VariantView} (hfaithful : w.Faithful)
    (hstyle : w.fields.style ≠ .named) :
    (payloadOf w).pattern.Shaped w.variant.fields w.path := by
  unfold payloadOf
  split
  · next htuple =>
      refine Pat.shaped_tuple (hfaithful.style ▸ htuple) ?_ fun p hp => ?_
      · rw [List.length_map, List.length_map, List.length_range, hfaithful.length_all]
      · obtain ⟨name, -, rfl⟩ := List.mem_map.mp hp
        rfl
  · next htuple =>
      refine ⟨rfl, ?_⟩
      rw [← hfaithful.style]
      cases hother : w.fields.style with
      | tuple => exact absurd hother htuple
      | named => exact absurd hother hstyle
      | unit => rfl

theorem pattern_payloadOf {w : VariantView} (hstyle : w.fields.style = .named) :
    (payloadOf w).pattern = .unit w.path := by
  unfold payloadOf
  rw [hstyle]
  rfl

theorem list_eq_nil_of_isUnit {w : VariantView} (hfaithful : w.Faithful)
    (hunit : w.fields.isUnit = true) : w.variant.fields.list = [] := by
  rw [← hfaithful.fields, List.isEmpty_iff.mp hunit]
  rfl

/-- The pattern that takes a variant apart takes it, if its fields are in parentheses or
there are none. -/
theorem takes_payloadOf {w : VariantView} (hfaithful : w.Faithful)
    (hplain : ¬ (w.fields.style = .named ∧ w.fields.isUnit = false)) :
    (payloadOf w).pattern.takes w.variant = true := by
  by_cases hstyle : w.fields.style = .named
  · have hunit : w.fields.isUnit = true := by simpa [hstyle] using hplain
    rw [pattern_payloadOf hstyle]
    exact Pat.takes_unit (list_eq_nil_of_isUnit hfaithful hunit)
  · exact hfaithful.takes_of_shaped (shaped_payloadOf hfaithful hstyle)

section

variable {head : Text} {v : VariantView} {first : Arm} {pat : Pat} {value : Text}

/-- One arm for the variant itself, and a last one if there are others. -/
theorem complete_first_last {last : Arm} (hv : v ∈ views)
    (hfirst : first.takes v.variant = true)
    (hlast : last.isOpen = true) (hmatches : first.matches head = [])
    (hmatches' : last.matches head = []) :
    ∀ m ∈ Code.matches head (.choose "self"
    (first :: if 1 < views.length then [last] else [])),
      m.Complete (views.map (·.variant)) byValue := by
  refine complete_self (Match.exists_takes hv hfirst hlast) (fun a ha => ?_) nofun
  rcases List.mem_cons.mp ha with rfl | ha
  · exact hmatches
  · split at ha
    · exact List.mem_singleton.mp ha ▸ hmatches'
    · cases ha

/-- One arm for the variant itself, and one for each variant of another name. -/
theorem complete_first_others {other : VariantView → Arm} (hv : v ∈ views)
    (hfirst : first.takes v.variant = true)
    (hother : ∀ w ∈ views, (other w).takes w.variant = true)
    (hmatches : first.matches head = [])
    (hmatches' : ∀ w ∈ views, (other w).matches head = []) :
    ∀ m ∈ Code.matches head (.choose "self"
        (first :: (views.filter (·.name != v.name)).map other)),
      m.Complete (views.map (·.variant)) byValue := by
  refine complete_named (fun w hw => ?_) (fun a ha => ?_) nofun
  · by_cases hname : w.name = v.name
    · exact ⟨v, hv, hname.symm, first, List.mem_cons_self .., hfirst⟩
    · have hmem : w ∈ views.filter (·.name != v.name) :=
        List.mem_filter.mpr ⟨hw, bne_iff_ne.mpr hname⟩
      exact ⟨w, hw, rfl, other w, List.mem_cons_of_mem _ (List.mem_map_of_mem hmem),
        hother w hw⟩
  · rcases List.mem_cons.mp ha with rfl | ha
    · exact hmatches
    · obtain ⟨w, hw, rfl⟩ := List.mem_map.mp ha
      exact hmatches' w (List.mem_of_mem_filter hw)

end

theorem complete_accessorFn {support : Support} {kind : Accessor} {owner head : Text}
    {v : VariantView} (form : RefForm) (hfaithful : ∀ w ∈ views, w.Faithful)
    (hv : v ∈ views) (hpayload : (payloadOf v).pattern.takes v.variant = true) :
    ∀ m ∈ Code.matches head (.choose "self"
    (accessorFn support kind owner views v form).arms),
      m.Complete (views.map (·.variant)) byValue := by
  have hother : ∀ w ∈ views, w.anyPattern.takes w.variant = true :=
    fun w hw => (hfaithful w hw).takes_anyPattern
  cases kind with
  | asVariant => exact complete_first_last hv hpayload rfl rfl rfl
  | tryInto => exact complete_first_last hv hpayload rfl rfl rfl
  | unwrap => exact complete_first_others hv hpayload hother rfl fun _ _ => rfl
  | tryUnwrap => exact complete_first_others hv hpayload hother rfl fun _ _ => rfl

theorem matchesAll_accessorCode (header : Text) (f : AccessorFn) (form : RefForm) :
    Code.matchesAll header (f.code form) =
      Code.matches (Text.concat ["pub fn ", f.name, "(", form.receiver, ") -> ", f.returns])
        (.choose "self" f.arms) := by
  refine (Code.matchesAll_last ?_).trans (List.append_nil _)
  simp only [List.forall_mem_append, List.forall_mem_map]
  exact ⟨fun _ _ => rfl, fun _ _ => rfl⟩

theorem completes_variantAccessors (kind : Accessor) (support : Support) :
    Completes byValue (variantAccessors kind support) spec := by
  intro decl variants impls hdata hstyled h i hi
  obtain ⟨⟨s, views⟩, hselect, h⟩ := of_bind_ok h
  obtain ⟨hs, hshape⟩ := of_selectEnum_ok hselect
  obtain ⟨views', hshape', rfl, hfaithful⟩ := views_of_ofDecl hdata hstyled hs
  cases hshape.symm.trans hshape'
  dsimp only at h
  split at h
  · cases h
  · next hplain =>
      cases h
      rw [List.mem_singleton.mp hi]
      intro m hm
      rw [Impl.matches, matchesAll_spaced] at hm
      obtain ⟨code, hcode, hm⟩ := List.mem_flatMap.mp hm
      obtain ⟨v, hv, hcode⟩ := List.mem_flatMap.mp hcode
      obtain ⟨form, -, rfl⟩ := List.mem_map.mp hcode
      rw [matchesAll_accessorCode] at hm
      have hmem := List.mem_of_mem_filter hv
      refine complete_accessorFn form hfaithful hmem
        (takes_payloadOf (hfaithful v hmem) ?_) m hm
      simpa using List.find?_eq_none.mp hplain v hv

/-! ## Errors -/

theorem mem_of_pickField {fields : FieldsView} {subject key : Text}
    {toggle : Options → Toggle} {recognised : FieldView → Bool} {f : FieldView}
    (h : pickField s fields subject key toggle recognised = .ok (some f)) :
    f ∈ fields.all := by
  unfold pickField at h
  dsimp only at h
  split at h
  · next hmarked =>
      cases h
      exact List.mem_of_mem_filter
        (List.mem_of_mem_filter (hmarked ▸ List.mem_singleton_self _))
  · cases h
  · next himplied =>
      cases h
      exact List.mem_of_mem_filter
        (List.mem_of_mem_filter (himplied ▸ List.mem_singleton_self _))
  · cases h
  · cases h

theorem mem_of_sourceField {fields : FieldsView} {subject : Text} {f : FieldView}
    (h : sourceField s fields subject = .ok (some f)) : f ∈ fields.all := by
  obtain ⟨source, hsource, h⟩ := of_bind_ok h
  obtain ⟨backtrace, -, h⟩ := of_bind_ok h
  dsimp only at h
  split at h
  · next b first second hall _ =>
      have hother : (if b.index = 0 then second else first) ∈ fields.all := by
        rw [hall]
        split
        · exact List.mem_cons_of_mem _ (List.mem_singleton_self _)
        · exact List.mem_cons_self ..
      generalize (if b.index = 0 then second else first) = other at h hother
      split at h
      · cases h
        exact hother
      · cases h
  · cases h
    exact mem_of_pickField hsource

theorem sublist_filterMap {α β : Type} (pairs : List (α × Option β)) :
    ((pairs.filterMap fun (a, b?) => b?.map fun b => (a, b)).map (·.1)).Sublist
      (pairs.map (·.1)) := by
  induction pairs with
  | nil => exact .slnil
  | cons p ps ih =>
      obtain ⟨a, _ | b⟩ := p
      · exact ih.cons a
      · exact ih.cons_cons a

/-- Each variant that has a source is found once, in order, with a field of its own. -/
theorem of_sourceArms {found : List (VariantView × FieldView)}
    (h : sourceArms s views = .ok found) :
    (found.map (·.1)).Sublist views ∧ ∀ t ∈ found, t.2 ∈ t.1.fields.all := by
  obtain ⟨pairs, hpairs, h⟩ := of_bind_ok h
  cases h
  have hfst : pairs.map (·.1) = views := map_fst_of_paired hpairs
  have hsource : ∀ t ∈ pairs, ∀ f ∈ t.2, f ∈ t.1.fields.all := by
    intro t ht f hf
    obtain ⟨v, -, ht⟩ := exists_of_mem_forall₂ (forall₂_of_mapM hpairs) ht
    obtain ⟨f?, hf?, ht⟩ := of_bind_ok ht
    cases ht
    exact mem_of_sourceField (hf?.trans (congrArg _ hf))
  refine ⟨?_, fun t ht => ?_⟩
  · exact hfst ▸ sublist_filterMap pairs
  · obtain ⟨⟨v, f?⟩, hmem, ht⟩ := List.mem_filterMap.mp ht
    obtain ⟨f, hf, rfl⟩ := Option.map_eq_some_iff.mp ht
    exact hsource _ hmem f hf

theorem shaped_sourcePattern {w : VariantView} (hfaithful : w.Faithful) {f : FieldView}
    (hf : f ∈ w.fields.all) : (sourcePattern w f).Shaped w.variant.fields w.path := by
  unfold sourcePattern
  cases hstyle : w.fields.style with
  | named =>
      refine ⟨rfl, hfaithful.style ▸ hstyle, ?_, List.forall_mem_singleton.mpr rfl, nofun⟩
      exact List.singleton_sublist.mpr (hfaithful.name_mem hf)
  | tuple => exact hfaithful.shaped_tuple hstyle w.path fun g => by split <;> rfl
  | unit =>
      rw [hfaithful.ordered.all_eq_nil hstyle] at hf
      cases hf

theorem takes_sourcePattern {w : VariantView} (hfaithful : w.Faithful) {f : FieldView}
    (hf : f ∈ w.fields.all) : (sourcePattern w f).takes w.variant = true :=
  hfaithful.takes_of_shaped (shaped_sourcePattern hfaithful hf)

/-- A match of the variants that have a source is complete: a last arm takes the rest,
unless the variants are all of them. -/
theorem complete_sourceMatch {head : Text} {found : List (VariantView × FieldView)}
    (hfaithful : ∀ w ∈ views, w.Faithful) (hsublist : (found.map (·.1)).Sublist views)
    (hmem : ∀ t ∈ found, t.2 ∈ t.1.fields.all) (hsome : found ≠ []) :
    let arms := found.map fun (v, f) =>
      Arm.yields (sourcePattern v f) (someSource "source" f)
    ∀ m ∈ Code.matches head (.choose "self" (arms ++
        if arms.length < views.length then [.yields .wild Core.none] else [])),
      m.Complete (views.map (·.variant)) byValue := by
  intro arms
  have hlength : arms.length = found.length := List.length_map _
  refine complete_self (fun w hw => ?_) (fun a ha => ?_) fun hnone => ?_
  · by_cases hfewer : arms.length < views.length
    · rw [if_pos hfewer]
      exact ⟨_, List.mem_append_right _ (List.mem_singleton_self _), rfl⟩
    · have hall : found.map (·.1) = views := by
        refine hsublist.eq_of_length_le ?_
        rw [List.length_map]
        exact hlength ▸ Nat.le_of_not_lt hfewer
      obtain ⟨t, ht, rfl⟩ := List.mem_map.mp (hall ▸ hw)
      exact ⟨_, List.mem_append_left _ (List.mem_map_of_mem ht),
        takes_sourcePattern (hfaithful _ hw) (hmem t ht)⟩
  · rcases List.mem_append.mp ha with ha | ha
    · obtain ⟨t, -, rfl⟩ := List.mem_map.mp ha
      rfl
    · split at ha
      · rw [List.mem_singleton.mp ha]
        rfl
      · cases ha
  · exact absurd (List.map_eq_nil_iff.mp (List.append_eq_nil_iff.mp hnone).1) hsome

theorem completes_error (support : Support) : Completes byValue (error support) spec := by
  intro decl variants impls hdata hstyled h i hi
  obtain ⟨s, hs, h⟩ := of_bind_ok h
  obtain ⟨views, hshape, rfl, hfaithful⟩ := views_of_ofDecl hdata hstyled hs
  rw [hshape] at h
  dsimp only at h
  obtain ⟨found, hfound, h⟩ := of_bind_ok h
  obtain ⟨hsublist, hmem⟩ := of_sourceArms hfound
  cases h
  rw [List.mem_singleton.mp hi]
  cases found with
  | nil => exact Impl.complete_of_matches rfl
  | cons t ts =>
      refine complete_method [] [_] (List.forall_mem_nil _)
        (List.forall_mem_singleton.mpr rfl) ?_
      exact complete_sourceMatch hfaithful (hsublist.trans List.filter_sublist) hmem
        (List.cons_ne_nil t ts)

/-! ## Formatting -/

/-- Whether an arm takes a variant, and the matches in it are complete. -/
structure Serves (variants : List Variant) (byValue : Bool) (w : VariantView) (a : Arm) :
    Prop where
  takes : a.takes w.variant = true
  nested : ∀ head, ∀ m ∈ a.matches head, m.Complete variants byValue

variable {variants : List Variant} {g g' : ImplGenerics}

theorem serves_displayArm {placeholder : Text} {shared : Option SharedFormat}
    {w : VariantView}
    {arm : Arm} (hfaithful : w.Faithful)
    (h : displayArm placeholder s shared g w = .ok (g', arm)) :
    Serves variants byValue w arm := by
  have htakes := hfaithful.takes_formatPattern
  unfold displayArm at h
  dsimp only at h
  split at h
  · cases h
  cases shared with
  | none =>
      obtain ⟨⟨g'', text⟩, -, h⟩ := of_bind_ok h
      cases h
      exact ⟨htakes _, fun _ => List.forall_mem_nil _⟩
  | some f =>
      dsimp only at h
      split at h
      · cases h
        exact ⟨htakes _, fun _ => List.forall_mem_nil _⟩
      · obtain ⟨⟨g'', text⟩, -, h⟩ := of_bind_ok h
        cases h
        -- the output of the variant itself is bound by a match of its own
        exact ⟨htakes _, fun _ => List.forall_mem_singleton.mpr
          (Match.complete_of_isOpen (List.mem_singleton_self _) rfl)⟩

theorem serves_debugArm {w : VariantView} {arm : Arm} (hfaithful : w.Faithful)
    (h : debugArm s g w = .ok (g', arm)) : Serves variants byValue w arm := by
  have htakes := hfaithful.takes_formatPattern
  unfold debugArm at h
  obtain ⟨-, -, h⟩ := of_bind_ok h
  obtain ⟨⟨g'', out⟩, -, h⟩ := of_bind_ok h
  cases h
  split <;> exact ⟨htakes _, fun _ => List.forall_mem_nil _⟩

/-- Arms that are collected from left to right are made for the variants in order. -/
theorem forall₂_of_arms {R : VariantView → Arm → Prop} {arms : List Arm}
    {arm : ImplGenerics → VariantView → Except Diagnostic (ImplGenerics × Arm)}
    {all : ImplGenerics → List VariantView → Except Diagnostic (ImplGenerics × List Arm)}
    (hnil : ∀ g, all g [] = .ok (g, []))
    (hcons : ∀ g v vs, all g (v :: vs) = do
      let (g, a) ← arm g v
      let (g, as) ← all g vs
      return (g, a :: as))
    (harm : ∀ w ∈ views, ∀ g g' a, arm g w = .ok (g', a) → R w a)
    (h : all g views = .ok (g', arms)) : List.Forall₂ R views arms := by
  induction views generalizing g arms with
  | nil =>
      rw [hnil] at h
      cases h
      exact .nil
  | cons w ws ih =>
      obtain ⟨hw, hws⟩ := List.forall_mem_cons.mp harm
      rw [hcons] at h
      obtain ⟨⟨g₁, a⟩, ha, h⟩ := of_bind_ok h
      obtain ⟨⟨g₂, rest⟩, hrest, h⟩ := of_bind_ok h
      cases h
      exact .cons (hw _ _ _ ha) (ih hws hrest)

/-- An enum is written by a match that dereferences it if there are no variants. -/
theorem complete_formatImpl_nil : (formatImpl g s [.chooseNone "*self"]).Complete [] true :=
  complete_method [] [] (List.forall_mem_nil _) (List.forall_mem_nil _)
    (List.forall_mem_singleton.mpr (Match.complete_of_no_variants rfl rfl))

theorem complete_formatImpl {arms : List Arm} (hsome : views ≠ [])
    (hserves : List.Forall₂ (Serves (views.map (·.variant)) byValue) views arms) :
    (formatImpl g s [.choose "self" arms]).Complete (views.map (·.variant)) byValue := by
  refine complete_method [] [] (List.forall_mem_nil _) (List.forall_mem_nil _) ?_
  intro m hm
  rw [Code.matches, Code.matchesAll, Code.matchesAll, List.append_nil] at hm
  refine complete_choose (fun w hw => ?_) (fun a ha => ?_) (fun hnone => ?_) m hm
  · obtain ⟨a, ha, hwa⟩ := exists_of_mem_forall₂ hserves.flip hw
    exact ⟨w, hw, rfl, a, ha, hwa.takes⟩
  · obtain ⟨w, -, hwa⟩ := exists_of_mem_forall₂ hserves ha
    exact hwa.nested _
  · rw [hnone] at hserves
    exact absurd (List.forall₂_nil_right_iff.mp hserves) hsome

theorem completes_display (placeholder : Text) :
    Completes true (display placeholder) spec := by
  intro decl variants impls hdata hstyled h i hi
  obtain ⟨s, hs, h⟩ := of_bind_ok h
  obtain ⟨views, hshape, rfl, hfaithful⟩ := views_of_ofDecl hdata hstyled hs
  dsimp only at h
  rw [hshape] at h
  cases views with
  | nil =>
      cases h
      rw [List.mem_singleton.mp hi]
      exact complete_formatImpl_nil
  | cons w ws =>
      obtain ⟨shared, -, h⟩ := of_bind_ok h
      obtain ⟨⟨g', arms⟩, harms, h⟩ := of_bind_ok h
      cases h
      rw [List.mem_singleton.mp hi]
      refine complete_formatImpl (List.cons_ne_nil w ws)
        (forall₂_of_arms (fun _ => rfl) (fun _ _ _ => rfl) (fun v hv _ _ _ hv' => ?_) harms)
      exact serves_displayArm (hfaithful v hv) hv'

theorem completes_debug : Completes true debug spec := by
  intro decl variants impls hdata hstyled h i hi
  obtain ⟨s, hs, h⟩ := of_bind_ok h
  obtain ⟨views, hshape, rfl, hfaithful⟩ := views_of_ofDecl hdata hstyled hs
  rw [hshape] at h
  cases views with
  | nil =>
      cases h
      rw [List.mem_singleton.mp hi]
      exact complete_formatImpl_nil
  | cons w ws =>
      obtain ⟨⟨g', arms⟩, harms, h⟩ := of_bind_ok h
      cases h
      rw [List.mem_singleton.mp hi]
      refine complete_formatImpl (List.cons_ne_nil w ws)
        (forall₂_of_arms (fun _ => rfl) (fun _ _ _ => rfl) (fun v hv _ _ _ hv' => ?_) harms)
      exact serves_debugArm (hfaithful v hv) hv'

/-! ## The catalogue -/

/-- A derive whose matches of an enum are complete: one without arms is by value, unless the
derive is `Read`. -/
def Exhausts (d : Derive) : Prop :=
  ∀ support, ∀ {decl : Decl} {variants : List Variant} {impls : List Impl}
    {warnings : List Diagnostic}, decl.data = .enum variants → decl.data.Styled →
    d.expand support decl d.spec = .ok (impls, warnings) →
    ∀ i ∈ impls, i.Complete variants (d.name != "Read")

theorem exhausts_of_completes {d : Derive} {expand : Support → Expand}
    (hname : (d.name != "Read") = byValue)
    (hexpand : d.expand = fun support decl spec =>
    do return (← expand support decl spec, []))
    (h : ∀ support, Completes byValue (expand support) d.spec) : d.Exhausts := by
  intro support decl variants impls warnings hdata hstyled hok
  rw [hexpand] at hok
  obtain ⟨impls', himpls, hok⟩ := of_bind_ok hok
  cases hok
  exact hname ▸ h support decl variants impls hdata hstyled himpls

theorem exhausts_entry {family name path method : Text} {params : Params}
    {expand : Support → Expand} (hname : (name != "Read") = byValue)
    (h : ∀ support, Completes byValue (expand support)
      (entry family name path method params expand).spec) :
    (entry family name path method params expand).Exhausts :=
  exhausts_of_completes hname rfl h

theorem exhausts_parsing : parsing.Exhausts := by
  intro support decl variants impls warnings hdata hstyled h i hi
  obtain ⟨s, views, -, -, -, header, rfl, -⟩ := of_fromStr hdata h
  rw [List.mem_singleton.mp hi]
  exact complete_parserOf

theorem exhausts_conversions : ∀ d ∈ conversions, d.Exhausts := by
  simp only [conversions, List.forall_mem_cons]
  exact ⟨exhausts_entry rfl fun _ => completes_fromPayload rfl,
    exhausts_entry rfl fun _ => completes_intoPayload,
    exhausts_entry rfl fun _ => completes_tryFromRepr _,
    exhausts_entry rfl fun _ => completes_tryIntoPayload _,
    exhausts_entry rfl fun _ => completes_refConversion _,
    exhausts_entry rfl fun _ => completes_refConversion _,
    exhausts_entry rfl fun _ => completes_refConversion _,
    exhausts_entry rfl fun _ => completes_refConversion _,
    exhausts_parsing, List.forall_mem_nil _⟩

theorem not_mem_fold {names : List Text} {name : Text}
    (hnames : names.all (fun n => !n.fold.contains 40 && n != "Read") = true)
    (hname : name ∈ names) :
    40 ∉ name.fold ∧ (name != "Read") = true := by
  simpa using List.all_eq_true.mp hnames name hname

theorem exhausts_operators : ∀ d ∈ operators, d.Exhausts := by
  simp only [operators, List.forall_mem_append, List.forall_mem_map]
  refine ⟨⟨⟨⟨fun name hname => ?_, fun name _ => ?_⟩, fun name hname => ?_⟩,
    fun name _ => ?_⟩, fun name _ => ?_⟩
  · obtain ⟨hmethod, hread⟩ := not_mem_fold (by decide) hname
    exact exhausts_entry hread fun _ => completes_addLike _ hmethod
  · exact exhausts_entry rfl fun _ => completes_mulLike
  · obtain ⟨hmethod, hread⟩ := not_mem_fold (by decide) hname
    exact exhausts_entry hread fun _ => completes_notLike _ hmethod
  · exact exhausts_entry rfl fun _ => completes_assignLike _
  · exact exhausts_entry rfl fun _ => completes_assignLike _

theorem exhausts_access : ∀ d ∈ access, d.Exhausts := by
  simp only [access, List.forall_mem_cons]
  exact ⟨exhausts_entry rfl fun _ => completes_deref _,
    exhausts_entry rfl fun _ => completes_deref _,
    exhausts_entry rfl fun _ => completes_derefToInner _,
    exhausts_entry rfl fun _ => completes_derefToInner _,
    exhausts_entry rfl fun _ => completes_index _,
    exhausts_entry rfl fun _ => completes_index _,
    exhausts_entry rfl fun _ => completes_iterator,
    exhausts_entry rfl fun _ => completes_intoIterator,
    exhausts_entry rfl fun _ => completes_read, List.forall_mem_nil _⟩

theorem exhausts_others : ∀ d ∈ others, d.Exhausts := by
  have haccessors (kind : Accessor)
      (name : Text) : (entry "variants" name [] [] accessorParams
      (variantAccessors kind)).Exhausts :=
    exhausts_entry rfl fun support => completes_variantAccessors kind support
  simp only [others, List.forall_mem_cons]
  exact ⟨exhausts_of_completes rfl rfl fun _ => completes_equality false,
    exhausts_of_completes rfl rfl fun _ => completes_equality true,
    exhausts_entry rfl fun _ => completes_isVariant, haccessors .asVariant "AsVariant",
    haccessors .unwrap "Unwrap", haccessors .tryInto "TryIntoVariant",
    haccessors .tryUnwrap "TryUnwrap", exhausts_entry rfl fun _ => completes_fold _ _,
    exhausts_entry rfl fun _ => completes_fold _ _,
    exhausts_entry rfl fun _ => completes_error _, List.forall_mem_nil _⟩

theorem exhausts_formats : ∀ d ∈ formats, d.Exhausts := by
  have hdisplay {name : Text} (hname : (name != "Read") = true) (placeholder : Text) :
      (formatting name placeholder).Exhausts :=
    exhausts_entry hname fun _ => completes_display placeholder
  simp only [formats, List.forall_mem_cons]
  exact ⟨hdisplay rfl _, hdisplay rfl _, hdisplay rfl _, hdisplay rfl _, hdisplay rfl _,
    hdisplay rfl _, hdisplay rfl _, hdisplay rfl _,
    exhausts_entry rfl fun _ => completes_debug, List.forall_mem_nil _⟩

theorem exhausts_of_mem : ∀ d ∈ catalogue, d.Exhausts := by
  simp only [catalogue, List.cons_append, List.forall_mem_cons, List.forall_mem_append]
  exact ⟨exhausts_entry rfl fun _ => completes_constructor,
    ⟨⟨⟨⟨exhausts_conversions, exhausts_operators⟩, exhausts_access⟩, exhausts_others⟩,
      exhausts_formats⟩,
    exhausts_entry rfl fun _ => completes_default, List.forall_mem_nil _⟩

/-- In the code for a parsed enum every match is exhaustive: each variant, and each two
variants where two values are matched, have an arm that takes them, and what else is
matched has an arm that takes everything. A match without arms is by value or dereferences
the value, unless it is that of `Read`, which matches a reference. -/
theorem matches_exhaustive {source : Text} {decl : Decl} {d : Derive} {support : Support}
    {e : Expansion} {variants : List Variant} (hd : d ∈ catalogue)
    (hdecl : decl ∈ (parse source).file.decls) (hdata : decl.data = .enum variants)
    (h : d.run support decl = .ok e) :
    ∀ i ∈ e.impls, ∀ m ∈ i.matches, m.Exhaustive variants ∧
      (m.arms = [] → (m.isByValue = true ↔ d.name ≠ "Read")) := by
  unfold run at h
  obtain ⟨⟨impls, warnings⟩, hexpand, h⟩ := of_bind_ok h
  cases h
  intro i hi m hm
  have hcomplete :=
    exhausts_of_mem d hd support hdata (styled_of_parse hdecl) hexpand i hi m hm
  refine ⟨hcomplete.exhaustive, fun hnone => ?_⟩
  rw [hcomplete.empty hnone, bne_iff_ne]

/-- Without variants, `Read` matches a reference and has no arm for it. -/
theorem matches_exhaustive_read : ∃ d decl e i m, d ∈ catalogue ∧
    (parse "enum E {}").file.decls = [decl] ∧ decl.data = .enum [] ∧ d.run {} decl = .ok e ∧
    e.impls = [i] ∧ m ∈ i.matches ∧ m.arms = [] ∧ ¬ m.isByValue = true := by
  obtain ⟨d, decl, e, i, m, hd, hread, hdecls, hdata, he, hi, hm, hnone⟩ :
      ∃ d decl e i m, find? "Read" = some d ∧ d.name = "Read" ∧
      (parse "enum E {}").file.decls = [decl] ∧ decl.data = .enum [] ∧
        d.run {} decl = .ok e ∧
      e.impls = [i] ∧ i.matches = [m] ∧ m.arms = [] :=
    ⟨_, _, _, _, _, rfl, rfl, rfl, rfl, rfl, rfl, rfl, rfl⟩
  have hmem : m ∈ i.matches := hm ▸ List.mem_singleton_self m
  obtain ⟨-, hempty⟩ := matches_exhaustive (List.mem_of_find?_eq_some hd)
    (hdecls ▸ List.mem_singleton_self decl) hdata he i
      (hi ▸ List.mem_singleton_self i) m hmem
  exact ⟨d, decl, e, i, m, List.mem_of_find?_eq_some hd, hdecls, hdata, he, hi, hmem, hnone,
    fun hvalue => (hempty hnone).mp hvalue hread⟩

end Deriver.Derive
