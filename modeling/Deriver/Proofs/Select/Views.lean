import Deriver.Proofs.Parse.Names
import Deriver.Select.Basic
import Mathlib.Data.List.Forall2

/-!
# Where a field stands among those that take part

Main statements: `Selection.ordered_of_ofDecl` and `FieldsView.Ordered.map_rank_enabled`.
The fields of a selection carry their places in the list and are such as their style
says, so the ranks of those that take part are `0`, `1` and so on, in order.
-/

namespace Deriver

/-! ## Views of field lists -/

/-- Whether each field carries its place, and whether the fields are such as their
style says. -/
structure FieldsView.Ordered (v : FieldsView) : Prop where
  index : ∀ i (f : FieldView), v.all[i]? = some f → f.index = i
  styled : Fields.Styled ⟨v.style, v.all.map (·.field)⟩

/-- Whether the fields of a struct, or those of every variant, are in order. -/
def ShapeView.Ordered : ShapeView → Prop
  | .struct fields => fields.Ordered
  | .enum variants => ∀ v ∈ variants, v.fields.Ordered

/-- Whether the names of the fields are names. -/
def FieldsView.Named (v : FieldsView) : Prop :=
  ∀ f ∈ v.all, ∀ name ∈ f.field.ident, IsIdent name

/-- Whether the names of the variants and fields are names. -/
def ShapeView.Named : ShapeView → Prop
  | .struct fields => fields.Named
  | .enum variants => ∀ v ∈ variants, IsIdent v.name ∧ v.fields.Named

namespace FieldsView.Ordered

variable {v : FieldsView} {f : FieldView}

theorem pairwise (h : v.Ordered) : v.all.Pairwise (·.index < ·.index) := by
  rw [List.pairwise_iff_getElem]
  intro i j hi hj hlt
  rw [h.index i _ (List.getElem?_eq_getElem hi), h.index j _ (List.getElem?_eq_getElem hj)]
  exact hlt

theorem filter_index (h : v.Ordered) (hf : f ∈ v.all) :
    v.all.filter (fun g => g.index = f.index) = [f] := by
  obtain ⟨before, after, hall⟩ := List.append_of_mem hf
  obtain ⟨-, hafter, hbefore⟩ := List.pairwise_append.mp (hall ▸ h.pairwise)
  have hnone : before.filter (fun g => g.index = f.index) = [] :=
    List.filter_eq_nil_iff.mpr fun g hg heq =>
      Nat.ne_of_lt (hbefore g hg f (List.mem_cons_self ..)) (of_decide_eq_true heq)
  have hnone' : after.filter (fun g => g.index = f.index) = [] :=
    List.filter_eq_nil_iff.mpr fun g hg heq =>
      Nat.ne_of_gt (List.rel_of_pairwise_cons hafter hg) (of_decide_eq_true heq)
  rw [hall, List.filter_append, hnone, List.filter_cons, hnone']
  simp only [decide_true, if_true, List.nil_append]

theorem rank_eq {before after : List FieldView} (h : v.Ordered)
    (heq : v.enabled = before ++ f :: after) : v.rank f = before.length := by
  have hpairs : (before ++ f :: after).Pairwise (·.index < ·.index) :=
    heq ▸ h.pairwise.sublist List.filter_sublist
  obtain ⟨-, htail, hcross⟩ := List.pairwise_append.mp hpairs
  have hbefore : before.filter (fun e => e.index < f.index) = before :=
    List.filter_eq_self.mpr fun e he =>
      decide_eq_true (hcross e he f (List.mem_cons_self ..))
  have hafter : (f :: after).filter (fun e => e.index < f.index) = [] := by
    refine List.filter_eq_nil_iff.mpr fun e he => ?_
    rw [decide_eq_true_eq, Nat.not_lt]
    rcases List.mem_cons.mp he with rfl | he
    · exact Nat.le_refl _
    · exact Nat.le_of_lt (List.rel_of_pairwise_cons htail he)
  unfold rank
  rw [heq, List.filter_append, hbefore, hafter, List.append_nil]

/-- The ranks of the fields that take part are their places among them. -/
theorem map_rank_enabled (h : v.Ordered) :
    v.enabled.map v.rank = List.range v.enabled.length := by
  refine List.ext_getElem (by simp) fun k hk hk' => ?_
  rw [List.getElem_map, List.getElem_range]
  rw [List.length_map] at hk
  have hsplit : v.enabled = v.enabled.take k ++ v.enabled[k] :: v.enabled.drop (k + 1) := by
    rw [List.getElem_cons_drop, List.take_append_drop]
  rw [h.rank_eq hsplit, List.length_take, Nat.min_eq_left (Nat.le_of_lt hk)]

theorem name_eq (h : v.Ordered) (hstyle : v.style = .tuple) {i : Nat}
    (hf : v.all[i]? = some f) : f.name = Text.ofNat i := by
  have hnone : f.field.ident = none := by
    have hall := h.styled
    unfold Fields.Styled at hall
    rw [hstyle] at hall
    exact hall _ (List.mem_map_of_mem (List.mem_of_getElem? hf))
  unfold FieldView.name
  rw [hnone, h.index i f hf]
  rfl

theorem all_eq_nil (h : v.Ordered) (hstyle : v.style = .unit) : v.all = [] := by
  have hall := h.styled
  unfold Fields.Styled at hall
  rw [hstyle] at hall
  exact List.map_eq_nil_iff.mp hall

theorem leftOut (h : v.Ordered) :
    FieldsView.Ordered { v with all := v.all.map fun f =>
    { f with enabled := false } } := by
  refine ⟨fun i f hf => ?_, ?_⟩
  · rw [List.getElem?_map, Option.map_eq_some_iff] at hf
    obtain ⟨g, hg, rfl⟩ := hf
    exact h.index i g hg
  · rw [List.map_map]
    exact h.styled

end FieldsView.Ordered

/-! ## What may fail -/

section

variable {ε ε' α β : Type}

theorem of_bind_ok {x : Except ε α} {g : α → Except ε β} {b : β} (h : x >>= g = .ok b) :
    ∃ a, x = .ok a ∧ g a = .ok b := by
  cases x with
  | error e => cases h
  | ok a => exact ⟨a, rfl, h⟩

theorem of_mapError_ok {θ : ε → ε'} {x : Except ε α} {a : α} (h : x.mapError θ = .ok a) :
    x = .ok a := by
  cases x with
  | error e => cases h
  | ok b => cases h; rfl

theorem forall₂_of_mapM {g : α → Except ε β} {as : List α} {bs : List β}
    (h : as.mapM g = .ok bs) : List.Forall₂ (fun a b => g a = .ok b) as bs := by
  induction as generalizing bs with
  | nil =>
      cases h
      exact .nil
  | cons a as ih =>
      rw [List.mapM_cons] at h
      obtain ⟨b, ha, h⟩ := of_bind_ok h
      obtain ⟨rest, hrest, h⟩ := of_bind_ok h
      cases h
      exact .cons ha (ih hrest)

theorem length_of_mapM {g : α → Except ε β} {as : List α} {bs : List β}
    (h : as.mapM g = .ok bs) : bs.length = as.length := (forall₂_of_mapM h).length_eq.symm

theorem map_eq_map_of_forall₂ {γ : Type} {R : α → β → Prop} {f : β → γ}
    {g : α → γ} {as : List α}
    {bs : List β} (h : List.Forall₂ R as bs) (hR : ∀ a b, R a b → f b = g a) :
    bs.map f = as.map g := by
  induction h with
  | nil => rfl
  | cons hab _ ih => rw [List.map_cons, List.map_cons, hR _ _ hab, ih]

theorem exists_of_mem_forall₂ {R : α → β → Prop} {as : List α} {bs : List β}
    (h : List.Forall₂ R as bs) {b : β} (hb : b ∈ bs) : ∃ a ∈ as, R a b := by
  induction h with
  | nil => cases hb
  | cons hab _ ih =>
      rcases List.mem_cons.mp hb with rfl | hb
      · exact ⟨_, List.mem_cons_self, hab⟩
      · obtain ⟨a, ha, hR⟩ := ih hb
        exact ⟨a, List.mem_cons_of_mem _ ha, hR⟩

theorem of_mem_mapM {g : α → Except ε β} {as : List α} {bs : List β}
    (h : as.mapM g = .ok bs) {b : β} (hb : b ∈ bs) : ∃ a ∈ as, g a = .ok b :=
  exists_of_mem_forall₂ (forall₂_of_mapM h) hb

end

/-! ## Selections -/

namespace Selection

variable {spec : TraitSpec} {container : Options}

/-- Every field is viewed once, in order. -/
theorem fields_viewFields {inherited : Bool} {fields : Fields} {v : FieldsView}
    (h : viewFields spec inherited fields = .ok v) :
    v.style = fields.style ∧ v.all.map (·.field) = fields.list := by
  unfold viewFields at h
  obtain ⟨own, hown, h⟩ := of_bind_ok h
  have hlen : own.length = fields.list.length := by
    rw [length_of_mapM hown, List.length_mapIdx]
  cases h
  refine ⟨rfl, List.ext_getElem ?_ fun i hi hi' => ?_⟩
  · rw [List.length_map, List.length_mapIdx, List.length_zip, hlen, Nat.min_self]
  · rw [List.getElem_map, List.getElem_mapIdx, List.getElem_zip]
    rfl

theorem ordered_viewFields {inherited : Bool} {fields : Fields} {v : FieldsView}
    (hstyled : fields.Styled) (h : viewFields spec inherited fields = .ok v) :
    v.Ordered := by
  obtain ⟨hstyle, hfields⟩ := fields_viewFields h
  refine ⟨fun i f hf => ?_, ?_⟩
  · unfold viewFields at h
    obtain ⟨own, -, h⟩ := of_bind_ok h
    cases h
    rw [List.getElem?_mapIdx, Option.map_eq_some_iff] at hf
    obtain ⟨_, -, rfl⟩ := hf
    rfl
  · rw [hfields, hstyle]
    exact hstyled

theorem ordered_viewVariant {optedIn : Bool} {v : Variant} {own : Options} {w : VariantView}
    (hstyled : v.fields.Styled) (h : viewVariant spec container optedIn v own = .ok w) :
    w.fields.Ordered := by
  unfold viewVariant at h
  obtain ⟨fields, hfields, h⟩ := of_bind_ok h
  have hordered := ordered_viewFields hstyled (of_mapError_ok hfields)
  cases h
  dsimp only
  split
  · exact hordered
  · exact hordered.leftOut

theorem ordered_viewVariants {variants : List Variant} {views : List VariantView}
    (hstyled : ∀ v ∈ variants, v.fields.Styled)
    (h : viewVariants spec container variants = .ok views) :
    ∀ w ∈ views, w.fields.Ordered := by
  intro w hw
  unfold viewVariants at h
  obtain ⟨own, -, h⟩ := of_bind_ok h
  obtain ⟨⟨v, o⟩, hmem, hview⟩ := of_mem_mapM h hw
  exact ordered_viewVariant (hstyled v (List.of_mem_zip hmem).1) hview

theorem ordered_of_ofDecl {decl : Decl} {s : Selection} (hstyled : decl.data.Styled)
    (h : ofDecl decl spec = .ok s) : s.shape.Ordered := by
  unfold ofDecl at h
  dsimp only at h
  split at h
  · cases h
  · next fields hdata =>
      rw [hdata] at hstyled
      obtain ⟨container, -, h⟩ := of_bind_ok (of_mapError_ok h)
      obtain ⟨v, hview, h⟩ := of_bind_ok h
      cases h
      exact ordered_viewFields hstyled hview
  · next variants hdata =>
      rw [hdata] at hstyled
      obtain ⟨container, -, h⟩ := of_bind_ok (of_mapError_ok h)
      obtain ⟨views, hview, h⟩ := of_bind_ok h
      cases h
      exact ordered_viewVariants hstyled hview

theorem named_viewFields {inherited : Bool} {fields : Fields} {v : FieldsView}
    (hnamed : fields.Named) (h : viewFields spec inherited fields = .ok v) : v.Named := by
  intro f hf
  refine hnamed f.field ?_
  rw [← (fields_viewFields h).2]
  exact List.mem_map_of_mem hf

theorem named_viewVariant {optedIn : Bool} {v : Variant} {own : Options} {w : VariantView}
    (hnamed : v.fields.Named) (h : viewVariant spec container optedIn v own = .ok w) :
    w.variant = v ∧ w.fields.Named := by
  unfold viewVariant at h
  obtain ⟨fields, hfields, h⟩ := of_bind_ok h
  have hfields := named_viewFields hnamed (of_mapError_ok hfields)
  cases h
  refine ⟨rfl, ?_⟩
  dsimp only
  split
  · exact hfields
  · intro f hf
    obtain ⟨g, hg, rfl⟩ := List.mem_map.mp hf
    exact hfields g hg

theorem named_of_ofDecl {decl : Decl} {s : Selection} (hnamed : decl.data.Named)
    (h : ofDecl decl spec = .ok s) : s.shape.Named := by
  unfold ofDecl at h
  dsimp only at h
  split at h
  · cases h
  · next fields hdata =>
      rw [hdata] at hnamed
      obtain ⟨container, -, h⟩ := of_bind_ok (of_mapError_ok h)
      obtain ⟨v, hview, h⟩ := of_bind_ok h
      cases h
      exact named_viewFields hnamed hview
  · next variants hdata =>
      rw [hdata] at hnamed
      obtain ⟨container, -, h⟩ := of_bind_ok (of_mapError_ok h)
      obtain ⟨views, hview, h⟩ := of_bind_ok h
      cases h
      intro w hw
      unfold viewVariants at hview
      obtain ⟨own, -, hview⟩ := of_bind_ok hview
      obtain ⟨⟨v, o⟩, hmem, hview⟩ := of_mem_mapM hview hw
      obtain ⟨hname, hfields⟩ := hnamed v (List.of_mem_zip hmem).1
      obtain ⟨hvariant, hfields⟩ := named_viewVariant hfields hview
      exact ⟨by rw [VariantView.name, hvariant]; exact hname, hfields⟩

theorem of_ofDecl {decl : Decl} {s : Selection} (h : ofDecl decl spec = .ok s) :
    s.decl = decl ∧ s.spec = spec := by
  unfold ofDecl at h
  dsimp only at h
  split at h
  · cases h
  · obtain ⟨container, -, h⟩ := of_bind_ok (of_mapError_ok h)
    obtain ⟨v, -, h⟩ := of_bind_ok h
    cases h
    exact ⟨rfl, rfl⟩
  · obtain ⟨container, -, h⟩ := of_bind_ok (of_mapError_ok h)
    obtain ⟨views, -, h⟩ := of_bind_ok h
    cases h
    exact ⟨rfl, rfl⟩

theorem struct_of_ofDecl {decl : Decl} {s : Selection} (h : ofDecl decl spec = .ok s)
    (hdecl : decl.isEnum = false) : ∃ fields, s.shape = .struct fields := by
  unfold ofDecl at h
  unfold Decl.isEnum at hdecl
  dsimp only at h
  split at h
  · cases h
  · obtain ⟨container, -, h⟩ := of_bind_ok (of_mapError_ok h)
    obtain ⟨v, -, h⟩ := of_bind_ok h
    cases h
    exact ⟨v, rfl⟩
  · next hdata =>
      rw [hdata] at hdecl
      cases hdecl

/-! ## What a derive asks for -/

variable {s : Selection}

theorem shape_of_structFields {fields : FieldsView} (h : s.structFields = .ok fields) :
    s.shape = .struct fields := by
  unfold structFields at h
  split at h
  · next hshape =>
      cases h
      exact hshape
  · cases h

theorem shape_of_enumVariants {variants : List VariantView}
    (h : s.enumVariants = .ok variants) : s.shape = .enum variants := by
  unfold enumVariants at h
  split at h
  · next hshape =>
      cases h
      exact hshape
  · cases h

theorem shape_of_someFields {fields : FieldsView} (h : s.someFields = .ok fields) :
    s.shape = .struct fields := by
  unfold someFields at h
  obtain ⟨fields', hfields, h⟩ := of_bind_ok h
  dsimp only at h
  split at h
  · cases h
  · split at h
    · cases h
    · cases h
      exact shape_of_structFields hfields

theorem of_singleField {single : SingleField} (h : s.singleField = .ok single) :
    ∃ fields, s.shape = .struct fields ∧ fields.enabled = [single.field] ∧
      single.trait = s.spec.path := by
  unfold singleField at h
  obtain ⟨fields, hfields, h⟩ := of_bind_ok h
  refine ⟨fields, shape_of_structFields hfields, ?_⟩
  dsimp only at h
  split at h
  · cases h
  · unfold singleOf at h
    split at h
    · next f hone =>
        cases h
        exact ⟨hone, rfl⟩
    · cases h

end Selection

end Deriver
