import Deriver.Derive.Catalogue
import Deriver.Proofs.Select.Views
import Mathlib.Data.List.Forall2
import Mathlib.Data.List.Nodup
import Mathlib.Data.List.Pairwise

/-!
# Conversions into payloads

Main statement: `tryInto_partitions`. The variants that take part are put into groups
by form and by the text of their types, and each group becomes one implementation,
whose patterns bind the fields that take part to numbers in order. Whether the
implementations are told apart by source and target, and whether each variant is in
the one for its own payload, depends on what that text leaves out: the parentheses of
a payload of several types. `tupleOf_eq_iff` says when they make a difference.
-/

namespace Deriver

/-! ## Patterns -/

namespace Pat

mutual

/-- The names that a pattern binds, in order. -/
def names : Pat → List Text
  | .wild | .rest | .const _ | .unit _ => []
  | .bind name => [name]
  | .tuple _ entries => namesIn entries
  | .record _ entries _ => namesOf entries
  | .pair left right => left.names ++ right.names
  | .anyOf choices => namesIn choices
  | .named name pat => name :: pat.names

/-- The names that a list of patterns binds, in order. -/
def namesIn : List Pat → List Text
  | [] => []
  | p :: ps => p.names ++ namesIn ps

/-- The names that named entries bind, in order. -/
def namesOf : List (Text × Option Pat) → List Text
  | [] => []
  | (name, none) :: es => name :: namesOf es
  | (_, some p) :: es => p.names ++ namesOf es

end

/-- The members that a pattern with one entry for a field binds, with their names. A
member of a tuple is called by its place. -/
def members : Pat → List (Text × Text)
  | .tuple _ entries => entries.zipIdx.filterMap fun
      | (.bind name, i) => some (Text.ofNat i, name)
      | _ => none
  | .record _ entries _ => entries.filterMap fun
      | (member, some (.bind name)) => some (member, name)
      | _ => none
  | _ => []

theorem namesIn_eq_flatMap (ps : List Pat) : namesIn ps = ps.flatMap names := by
  induction ps with
  | nil => rfl
  | cons p ps ih => rw [namesIn, ih, List.flatMap_cons]

theorem namesOf_some {α : Type} (as : List α) (name : α → Text) (pat : α → Pat) :
    namesOf (as.map fun a => (name a, some (pat a))) =
    as.flatMap fun a => (pat a).names := by
  induction as with
  | nil => rfl
  | cons a as ih => rw [List.map_cons, namesOf, ih, List.flatMap_cons]

end Pat

namespace Derive

section

variable {v : FieldsView}

theorem names_entries (fs : List FieldView) (p : FieldView → Bool)
    (name : FieldView → Text) :
    Pat.namesIn (fs.map fun f => if p f then .bind (name f) else .wild) =
      (fs.filter p).map name := by
  induction fs with
  | nil => rfl
  | cons f fs ih =>
      rw [List.map_cons, Pat.namesIn, ih, List.filter_cons]
      cases p f <;> rfl

/-- Every field that takes part is bound, to its rank. -/
theorem names_payloadPattern (h : v.Ordered) (path : Text) :
    (payloadPattern v path).names = v.enabled.map fun f => component (v.rank f) := by
  unfold payloadPattern
  split
  · exact names_entries v.all (·.enabled) _
  · rw [Pat.names, Pat.namesOf_some]
    exact List.map_eq_flatMap.symm
  · next hstyle =>
      unfold FieldsView.enabled
      rw [h.all_eq_nil hstyle]
      rfl

/-- The members that such entries bind, of which the first has the number `n`. -/
theorem members_entries {fs : List FieldView} (p : FieldView → Bool)
    (name : FieldView → Text)
    (n : Nat) (h : ∀ i f, fs[i]? = some f → f.name = Text.ofNat (n + i)) :
    (((fs.map fun f => if p f then Pat.bind (name f) else .wild).zipIdx n).filterMap fun
      | (.bind name, i) => some (Text.ofNat i, name)
      | _ => none) = (fs.filter p).map fun f => (f.name, name f) := by
  induction fs generalizing n with
  | nil => rfl
  | cons f fs ih =>
      have hfirst : f.name = Text.ofNat n := h 0 f rfl
      have hrest := ih (n + 1) fun i g hg => by
        rw [h (i + 1) g hg, Nat.add_right_comm, Nat.add_assoc]
      rw [List.map_cons, List.zipIdx_cons, List.filterMap_cons, List.filter_cons, hrest]
      cases p f
      · rfl
      · change (Text.ofNat n, name f) :: _ = (f.name, name f) :: _
        rw [hfirst]

theorem members_payloadPattern (h : v.Ordered) (path : Text) :
    (payloadPattern v path).members = v.enabled.map fun f =>
    (f.name, component (v.rank f)) := by
  unfold payloadPattern
  split
  · next hstyle =>
      refine members_entries (·.enabled) (fun f => component (v.rank f)) 0 fun i f hf => ?_
      rw [h.name_eq hstyle hf, Nat.zero_add]
  · rw [Pat.members, List.filterMap_map]
    exact congrFun List.filterMap_eq_map' _
  · next hstyle =>
      unfold FieldsView.enabled
      rw [h.all_eq_nil hstyle]
      rfl

end

end Derive

/-! ## Variants and their groups -/

namespace VariantView

open Derive

variable (v : VariantView)

/-- The types of the fields that take part, as written. -/
def payload : List Text := v.fields.types.map Ty.render

/-- The text by which a payload is told from others. -/
def key : Text := Text.join ", " v.payload

/-- The forms in which a variant is asked for. -/
def forms : List RefForm := RefForm.ofSet v.accessors

/-- What a variant converts to in a form. -/
def target (form : RefForm) : Text := tupleOf (v.payload.map (form.typeMark ++ ·))

/-- The pattern by which a variant gives its payload away. -/
def giving (s : Selection) : Pat :=
  payloadPattern v.fields (Text.concat [s.decl.name, "::", v.name])

/-- Whether a pattern binds the fields that take part to the first numbers, in order. -/
def BoundBy (p : Pat) : Prop :=
  p.names = (List.range v.payload.length).map component ∧
    p.members = (v.fields.enabled.map (·.name)).zip p.names

theorem boundBy_giving (h : v.fields.Ordered) (s : Selection) : v.BoundBy (v.giving s) := by
  have hlen : v.payload.length = v.fields.enabled.length := by
    rw [payload, FieldsView.types, List.length_map, List.length_map]
  have hnames := names_payloadPattern h (Text.concat [s.decl.name, "::", v.name])
  refine ⟨?_, ?_⟩
  · rw [giving, hnames, hlen, ← h.map_rank_enabled, List.map_map]
    rfl
  · rw [giving, members_payloadPattern h, hnames, List.zip_map']

end VariantView

namespace Derive

namespace PayloadGroup

/-- The types of a group, which are those of its first variant. -/
def types (g : PayloadGroup) : List Text := (g.members.head?.map (·.payload)).getD []

/-- What a group converts to. -/
def target (g : PayloadGroup) : Text := tupleOf (g.types.map (g.form.typeMark ++ ·))

/-- The components of what a group returns. -/
def components (g : PayloadGroup) : List Text := (List.range g.types.length).map component

/-- What a group is known by. -/
def key (g : PayloadGroup) : RefForm × Text := (g.form, g.payload)

end PayloadGroup

/-- Whether the groups hold each of the variants in each of the forms that are given. -/
structure Grouped (held : List (VariantView × RefForm)) (gs : List PayloadGroup) :
    Prop where
  nodup : (gs.map (·.key)).Nodup
  keys : ∀ k, k ∈ gs.map (·.key) ↔ ∃ p ∈ held, k = (p.2, p.1.key)
  members : ∀ g ∈ gs,
    g.members = (held.filter fun p => (p.2, p.1.key) = g.key).map (·.1)

section

variable {v : VariantView} {form : RefForm} {payload : Text} {gs : List PayloadGroup}

theorem keys_addToGroup : (addToGroup v form payload gs).map (·.key) =
    if (form, payload) ∈ gs.map (·.key) then gs.map (·.key)
    else gs.map (·.key) ++ [(form, payload)] := by
  induction gs with
  | nil => rfl
  | cons g gs ih =>
      unfold addToGroup
      by_cases hg : g.form = form ∧ g.payload = payload
      · rw [if_pos hg, if_pos]
        · rfl
        · rw [List.map_cons, PayloadGroup.key, hg.1, hg.2]
          exact List.mem_cons_self ..
      · have hne : (form, payload) ≠ g.key := fun heq =>
          hg ⟨(congrArg Prod.fst heq).symm, (congrArg Prod.snd heq).symm⟩
        rw [if_neg hg, List.map_cons, List.map_cons, ih]
        by_cases hmem : (form, payload) ∈ gs.map (·.key)
        · rw [if_pos hmem, if_pos (List.mem_cons_of_mem _ hmem)]
        · rw [if_neg hmem, if_neg (fun h => (List.mem_cons.mp h).elim hne hmem)]
          rfl

/-- A group with a variant added is one of before, except that the one for the variant's
payload has it at its end. -/
theorem mem_addToGroup {g : PayloadGroup} (hnodup : (gs.map (·.key)).Nodup)
    (h : g ∈ addToGroup v form payload gs) :
    (g.key ≠ (form, payload) ∧ g ∈ gs) ∨
    (g.key = (form, payload) ∧ (form, payload) ∉ gs.map (·.key) ∧ g.members = [v]) ∨
    ∃ g' ∈ gs, g'.key = (form, payload) ∧ g = { g' with members := g'.members ++ [v] } := by
  induction gs with
  | nil =>
      cases List.mem_singleton.mp h
      exact .inr (.inl ⟨rfl, List.not_mem_nil, rfl⟩)
  | cons g' gs ih =>
      rw [List.map_cons, List.nodup_cons] at hnodup
      unfold addToGroup at h
      by_cases hg : g'.form = form ∧ g'.payload = payload
      · have hkey : g'.key = (form, payload) := by rw [PayloadGroup.key, hg.1, hg.2]
        rw [if_pos hg] at h
        rcases List.mem_cons.mp h with rfl | h
        · exact .inr (.inr ⟨g', List.mem_cons_self .., hkey, rfl⟩)
        · refine .inl ⟨fun heq => hnodup.1 ?_, List.mem_cons_of_mem g' h⟩
          rw [hkey, ← heq]
          exact List.mem_map_of_mem h
      · have hne : g'.key ≠ (form, payload) := fun heq =>
          hg ⟨congrArg Prod.fst heq, congrArg Prod.snd heq⟩
        rw [if_neg hg] at h
        rcases List.mem_cons.mp h with rfl | h
        · exact .inl ⟨hne, List.mem_cons_self ..⟩
        · rcases ih hnodup.2 h with ⟨hkey, hmem⟩ | ⟨hkey, hnew, hmembers⟩
            | ⟨g'', hmem, hkey, heq⟩
          · exact .inl ⟨hkey, List.mem_cons_of_mem g' hmem⟩
          · exact .inr (.inl ⟨hkey, fun h =>
              (List.mem_cons.mp h).elim (hne ·.symm) hnew, hmembers⟩)
          · exact .inr (.inr ⟨g'', List.mem_cons_of_mem g' hmem, hkey, heq⟩)

end

theorem grouped_nil : Grouped [] [] :=
  ⟨List.nodup_nil, fun _ => ⟨fun h => (nomatch h), fun ⟨_, h, _⟩ => (nomatch h)⟩,
    fun _ h => (nomatch h)⟩

theorem Grouped.add {held : List (VariantView × RefForm)} {gs : List PayloadGroup}
    (h : Grouped held gs) (p : VariantView × RefForm) :
    Grouped (held ++ [p]) (addToGroup p.1 p.2 p.1.key gs) := by
  refine ⟨?_, fun k => ?_, fun g hg => ?_⟩
  · rw [keys_addToGroup]
    split
    · exact h.nodup
    · next hnew =>
        exact List.nodup_append.mpr ⟨h.nodup, List.nodup_singleton _,
          fun a ha b hb heq => hnew (List.mem_singleton.mp hb ▸ heq ▸ ha)⟩
  · have hkeys : k ∈ (addToGroup p.1 p.2 p.1.key gs).map (·.key) ↔
        k ∈ gs.map (·.key) ∨ k = (p.2, p.1.key) := by
      rw [keys_addToGroup]
      split
      · next hold => exact ⟨.inl, fun hk => hk.elim id fun heq => heq ▸ hold⟩
      · rw [List.mem_append, List.mem_singleton]
    rw [hkeys, h.keys]
    constructor
    · rintro (⟨q, hq, heq⟩ | heq)
      · exact ⟨q, List.mem_append_left _ hq, heq⟩
      · exact ⟨p, List.mem_append_right _ (List.mem_singleton_self p), heq⟩
    · rintro ⟨q, hq, heq⟩
      rcases List.mem_append.mp hq with hq | hq
      · exact .inl ⟨q, hq, heq⟩
      · exact .inr (List.mem_singleton.mp hq ▸ heq)
  · rw [List.filter_append, List.map_append]
    rcases mem_addToGroup h.nodup hg with ⟨hne, hg⟩ | ⟨hkey, hnew, hmembers⟩
      | ⟨g', hg', hkey, rfl⟩
    · have hnone : [p].filter (fun q => (q.2, q.1.key) = g.key) = [] :=
        List.filter_eq_nil_iff.mpr fun q hq => by
          rw [List.mem_singleton.mp hq, decide_eq_true_eq]
          exact hne.symm
      rw [hnone, List.map_nil, List.append_nil]
      exact h.members g hg
    · have hnone : held.filter (fun q => (q.2, q.1.key) = g.key) = [] :=
        List.filter_eq_nil_iff.mpr fun q hq heq => hnew <| by
          rw [decide_eq_true_eq, hkey] at heq
          exact (h.keys _).mpr ⟨q, hq, heq.symm⟩
      rw [hmembers, hnone, hkey]
      simp
    · have hkey' : PayloadGroup.key { g' with members := g'.members ++ [p.1] } =
          (p.2, p.1.key) := hkey
      rw [hkey', h.members g' hg', hkey]
      simp

theorem Grouped.addForms {held : List (VariantView × RefForm)} {gs : List PayloadGroup}
    (h : Grouped held gs) (v : VariantView) (forms : List RefForm) :
    Grouped (held ++ forms.map (v, ·))
      (forms.foldl (fun gs form => addToGroup v form v.key gs) gs) := by
  induction forms generalizing held gs with
  | nil => rwa [List.map_nil, List.append_nil]
  | cons form forms ih =>
      have hrest := ih (h.add (v, form))
      rwa [List.append_assoc] at hrest

theorem Grouped.addAll {held : List (VariantView × RefForm)} {gs : List PayloadGroup}
    (h : Grouped held gs) (variants : List VariantView) :
    Grouped (held ++ variants.flatMap fun v => v.forms.map (v, ·))
      (variants.foldl (fun gs v => v.forms.foldl
      (fun gs form => addToGroup v form v.key gs) gs) gs) := by
  induction variants generalizing held gs with
  | nil => rwa [List.flatMap_nil, List.append_nil]
  | cons v variants ih =>
      have hrest := ih (h.addForms v v.forms)
      rw [List.append_assoc] at hrest
      rwa [List.flatMap_cons]

/-- Whether every variant is, in each of its forms, in the one group of its key. -/
structure ByKey (variants : List VariantView) (gs : List PayloadGroup) : Prop where
  nodup : (gs.map (·.key)).Nodup
  placed : ∀ v ∈ variants, ∀ form ∈ v.forms, ∃ g ∈ gs, g.key = (form, v.key)
  members : ∀ g ∈ gs, ∀ v, v ∈ g.members ↔
    v ∈ variants ∧ g.form ∈ v.forms ∧ v.key = g.payload
  occupied : ∀ g ∈ gs, g.members ≠ []

theorem byKey_payloadGroups (variants : List VariantView) :
    ByKey variants (payloadGroups variants) := by
  have h : Grouped (variants.flatMap fun v => v.forms.map (v, ·))
      (payloadGroups variants) :=
    grouped_nil.addAll variants
  have hheld (p : VariantView × RefForm) :
      p ∈ (variants.flatMap fun v => v.forms.map (v, ·)) ↔
        p.1 ∈ variants ∧ p.2 ∈ p.1.forms := by
    rw [List.mem_flatMap]
    constructor
    · rintro ⟨v, hv, hp⟩
      obtain ⟨form, hform, rfl⟩ := List.mem_map.mp hp
      exact ⟨hv, hform⟩
    · exact fun ⟨hv, hform⟩ => ⟨p.1, hv, List.mem_map_of_mem hform⟩
  have hmem (g : PayloadGroup) (hg : g ∈ payloadGroups variants) (v : VariantView) :
      v ∈ g.members ↔ v ∈ variants ∧ g.form ∈ v.forms ∧ v.key = g.payload := by
    rw [h.members g hg, List.mem_map]
    constructor
    · rintro ⟨p, hp, rfl⟩
      obtain ⟨hp, hkey⟩ := List.mem_filter.mp hp
      obtain ⟨hv, hform⟩ := (hheld p).mp hp
      obtain ⟨hf, hk⟩ := Prod.mk.inj (of_decide_eq_true hkey)
      exact ⟨hv, hf ▸ hform, hk⟩
    · rintro ⟨hv, hform, hk⟩
      refine ⟨(v, g.form), List.mem_filter.mpr ⟨(hheld _).mpr ⟨hv, hform⟩, ?_⟩, rfl⟩
      rw [decide_eq_true_eq, hk]
      rfl
  refine ⟨h.nodup, fun v hv form hform => ?_, hmem, fun g hg hnil => ?_⟩
  · obtain ⟨g, hg, heq⟩ := List.mem_map.mp
      ((h.keys (form, v.key)).mpr ⟨(v, form), (hheld _).mpr ⟨hv, hform⟩, rfl⟩)
    exact ⟨g, hg, heq⟩
  · obtain ⟨p, hp, hkey⟩ := (h.keys g.key).mp (List.mem_map_of_mem hg)
    obtain ⟨hf, hk⟩ := Prod.mk.inj hkey
    obtain ⟨hv, hform⟩ := (hheld p).mp hp
    have hin := (hmem g hg p.1).mpr ⟨hv, hf ▸ hform, hk.symm⟩
    rw [hnil] at hin
    cases hin

/-! ## Telling payloads apart -/

/-- What is wanted of the conversions of some variants: no two have one source and one
target, each variant is in exactly one for its own payload in each of its forms, and
its pattern binds as many fields as there are components in what is returned. -/
structure Partitions (variants : List VariantView) (gs : List PayloadGroup) : Prop where
  apart : gs.Pairwise fun g g' => g.form = g'.form → g.target ≠ g'.target
  listed : ∀ v ∈ variants, ∀ form ∈ v.forms,
    ∃! g, g ∈ gs ∧ g.form = form ∧ g.target = v.target form ∧ v ∈ g.members
  counts : ∀ g ∈ gs, ∀ v ∈ g.members, g.components.length = v.payload.length

/-- Whether payloads have one key just when they are one target, with as many types. -/
structure Legible (variants : List VariantView) : Prop where
  targets : ∀ v ∈ variants, ∀ w ∈ variants, ∀ form ∈ v.forms, form ∈ w.forms →
    (v.key = w.key ↔ v.target form = w.target form)
  lengths : ∀ v ∈ variants, ∀ w ∈ variants, ∀ form ∈ v.forms, form ∈ w.forms →
    v.key = w.key → v.payload.length = w.payload.length

instance (variants : List VariantView) : Decidable (Legible variants) :=
  decidable_of_iff
    ((∀ v ∈ variants, ∀ w ∈ variants, ∀ form ∈ v.forms, form ∈ w.forms →
        (v.key = w.key ↔ v.target form = w.target form)) ∧
      ∀ v ∈ variants, ∀ w ∈ variants, ∀ form ∈ v.forms, form ∈ w.forms →
        v.key = w.key → v.payload.length = w.payload.length)
    ⟨fun ⟨h, h'⟩ => ⟨h, h'⟩, fun h => ⟨h.targets, h.lengths⟩⟩

section

variable {variants : List VariantView} {gs : List PayloadGroup}

theorem ByKey.eq_of_key (h : ByKey variants gs) {g g' : PayloadGroup} (hg : g ∈ gs)
    (hg' : g' ∈ gs) (heq : g.key = g'.key) : g = g' :=
  List.inj_on_of_nodup_map h.nodup hg hg' heq

theorem ByKey.exists_first (h : ByKey variants gs) {g : PayloadGroup} (hg : g ∈ gs) :
    ∃ w ∈ g.members, g.types = w.payload := by
  cases hmembers : g.members with
  | nil => exact absurd hmembers (h.occupied g hg)
  | cons w ws =>
      refine ⟨w, List.mem_cons_self .., ?_⟩
      rw [PayloadGroup.types, hmembers]
      rfl

theorem length_components (g : PayloadGroup) : g.components.length = g.types.length := by
  rw [PayloadGroup.components, List.length_map, List.length_range]

/-- When payloads are told apart by their keys, a group is what each of its variants is. -/
theorem ByKey.same (h : ByKey variants gs) (hl : Legible variants) {g : PayloadGroup}
    {v : VariantView} (hg : g ∈ gs) (hv : v ∈ g.members) :
    g.target = v.target g.form ∧ g.components.length = v.payload.length := by
  obtain ⟨w, hw, htypes⟩ := h.exists_first hg
  obtain ⟨hwv, hwform, hwkey⟩ := (h.members g hg w).mp hw
  obtain ⟨hvv, hvform, hvkey⟩ := (h.members g hg v).mp hv
  have hkey : w.key = v.key := hwkey.trans hvkey.symm
  rw [length_components, PayloadGroup.target, htypes]
  exact ⟨(hl.targets w hwv v hvv g.form hwform hvform).mp hkey,
    hl.lengths w hwv v hvv g.form hwform hvform hkey⟩

theorem Partitions.eq_of_target (h : Partitions variants gs)
    {g g' : PayloadGroup} (hg : g ∈ gs)
    (hg' : g' ∈ gs) (hform : g.form = g'.form) (htarget : g.target = g'.target) :
    g = g' := by
  have hsymm : Std.Symm fun g g' : PayloadGroup => g.form = g'.form →
      g.target ≠ g'.target :=
    ⟨fun _ _ hr hf ht => hr hf.symm ht.symm⟩
  by_contra hne
  exact h.apart.forall hg hg' hne hform htarget

/-- The groups are what is wanted just when payloads are told apart by their keys. -/
theorem ByKey.partitions_iff (h : ByKey variants gs) :
    Partitions variants gs ↔ Legible variants := by
  constructor
  · intro hp
    -- In a form the group that is for a variant's own payload is the group of its key.
    have hgroup : ∀ v ∈ variants, ∀ form ∈ v.forms, ∃ g ∈ gs, g.key = (form, v.key) ∧
        g.target = v.target form := by
      intro v hv form hform
      obtain ⟨g, ⟨hg, hgform, htarget, hvg⟩, -⟩ := hp.listed v hv form hform
      refine ⟨g, hg, ?_, htarget⟩
      rw [PayloadGroup.key, hgform, ← ((h.members g hg v).mp hvg).2.2]
    refine ⟨fun v hv w hw form hvform hwform => ?_,
      fun v hv w hw form hvform hwform hkey => ?_⟩
    · obtain ⟨g, hg, hgkey, hgtarget⟩ := hgroup v hv form hvform
      obtain ⟨g', hg', hgkey', hgtarget'⟩ := hgroup w hw form hwform
      constructor
      · intro hkey
        have heq : g = g' := h.eq_of_key hg hg' (by rw [hgkey, hgkey', hkey])
        rw [← hgtarget, ← hgtarget', heq]
      · intro htarget
        have hform : g.form = g'.form :=
          (congrArg Prod.fst hgkey).trans (congrArg Prod.fst hgkey').symm
        have heq : g = g' :=
          hp.eq_of_target hg hg' hform (by rw [hgtarget, hgtarget', htarget])
        rw [heq, hgkey'] at hgkey
        exact (congrArg Prod.snd hgkey).symm
    · obtain ⟨g, hg, hgkey, -⟩ := hgroup v hv form hvform
      obtain ⟨hgform, hgpayload⟩ := Prod.mk.inj hgkey
      have hvg := (h.members g hg v).mpr ⟨hv, hgform ▸ hvform, hgpayload.symm⟩
      have hwg := (h.members g hg w).mpr ⟨hw, hgform ▸ hwform, (hgpayload.trans hkey).symm⟩
      exact (hp.counts g hg v hvg).symm.trans (hp.counts g hg w hwg)
  · intro hl
    refine ⟨?_, fun v hv form hform => ?_, fun g hg v hv => (h.same hl hg hv).2⟩
    · refine (List.pairwise_map.mp h.nodup).imp_of_mem
        fun {g g'} hg hg' hne hform htarget => ?_
      obtain ⟨w, hw, -⟩ := h.exists_first hg
      obtain ⟨w', hw', -⟩ := h.exists_first hg'
      obtain ⟨hwv, hwform, hwkey⟩ := (h.members g hg w).mp hw
      obtain ⟨hwv', hwform', hwkey'⟩ := (h.members g' hg' w').mp hw'
      rw [(h.same hl hg hw).1, (h.same hl hg' hw').1, hform] at htarget
      have hkey := (hl.targets w hwv w' hwv' g'.form (hform ▸ hwform) hwform').mpr htarget
      refine hne ?_
      rw [PayloadGroup.key, PayloadGroup.key, hform, ← hwkey, ← hwkey', hkey]
    · obtain ⟨g, hg, hgkey⟩ := h.placed v hv form hform
      obtain ⟨hgform, hgpayload⟩ := Prod.mk.inj hgkey
      have hvg := (h.members g hg v).mpr ⟨hv, hgform ▸ hform, hgpayload.symm⟩
      refine ⟨g, ⟨hg, hgform, hgform ▸ (h.same hl hg hvg).1, hvg⟩, ?_⟩
      rintro g' ⟨hg', hgform', -, hvg'⟩
      refine h.eq_of_key hg' hg ?_
      rw [hgkey, PayloadGroup.key, hgform', ((h.members g' hg' v).mp hvg').2.2]

end

/-- Two lists of types are one tuple if their texts are, or if one of them is a single
type that is written like the tuple of the other. -/
theorem tupleOf_eq_iff {as bs : List Text} : tupleOf as = tupleOf bs ↔
    (Text.join ", " as = Text.join ", " bs ∧ (as.length = 1 ↔ bs.length = 1)) ∨
      (bs.length ≠ 1 ∧ as = [tupleOf bs]) ∨ (as.length ≠ 1 ∧ bs = [tupleOf as]) := by
  have hwide {ts : List Text} (h : ts.length ≠ 1) :
      tupleOf ts = ("(" : Text) ++ (Text.join ", " ts ++ (")" : Text)) := by
    unfold tupleOf
    split
    · exact absurd rfl h
    · simp [Text.concat]
  by_cases ha : as.length = 1 <;> by_cases hb : bs.length = 1
  · obtain ⟨a, rfl⟩ := List.length_eq_one_iff.mp ha
    obtain ⟨b, rfl⟩ := List.length_eq_one_iff.mp hb
    simp [tupleOf, Text.join]
  · obtain ⟨a, rfl⟩ := List.length_eq_one_iff.mp ha
    simp [hb, show tupleOf [a] = a from rfl]
  · obtain ⟨b, rfl⟩ := List.length_eq_one_iff.mp hb
    simp [ha, show tupleOf [b] = b from rfl, eq_comm]
  · rw [hwide ha, hwide hb, List.append_cancel_left_eq, List.append_cancel_right_eq]
    constructor
    · exact fun h => .inl ⟨h, iff_of_false ha hb⟩
    · rintro (h | ⟨-, rfl⟩ | ⟨-, rfl⟩)
      · exact h.1
      · exact absurd rfl ha
      · exact absurd rfl hb

/-- Where no variant is asked for by reference, payloads are told apart by their keys just
when these tell how many types there are, and none is written like the tuple of another. -/
theorem legible_iff_of_owned {variants : List VariantView}
    (howned : ∀ v ∈ variants, v.forms = [.owned]) : Legible variants ↔
      ∀ v ∈ variants, ∀ w ∈ variants,
        (v.key = w.key → v.payload.length = w.payload.length) ∧
          (w.payload.length ≠ 1 → v.payload ≠ [tupleOf w.payload]) := by
  have htarget (v : VariantView) : v.target .owned = tupleOf v.payload := by
    simp [VariantView.target, RefForm.typeMark]
  have hform {v : VariantView} (hv : v ∈ variants) : RefForm.owned ∈ v.forms := by
    rw [howned v hv]
    exact List.mem_singleton_self _
  have honly {v : VariantView} {form : RefForm} (hv : v ∈ variants) (h : form ∈ v.forms) :
      form = .owned := by
    rw [howned v hv] at h
    exact List.mem_singleton.mp h
  constructor
  · intro h v hv w hw
    have hlengths := h.lengths v hv w hw .owned (hform hv) (hform hw)
    refine ⟨hlengths, fun hwide hwrap => hwide ?_⟩
    have hsame : v.target .owned = w.target .owned := by
      rw [htarget, htarget, hwrap]
      rfl
    rw [← hlengths ((h.targets v hv w hw .owned (hform hv) (hform hw)).mpr hsame), hwrap]
    rfl
  · intro h
    refine ⟨fun v hv w hw form hvform _ => ?_, fun v hv w hw _ _ _ => (h v hv w hw).1⟩
    rw [honly hv hvform, htarget, htarget, tupleOf_eq_iff]
    constructor
    · exact fun hkey => .inl ⟨hkey, by rw [(h v hv w hw).1 hkey]⟩
    · rintro (hkey | ⟨hwide, hwrap⟩ | ⟨hwide, hwrap⟩)
      · exact hkey.1
      · exact absurd hwrap ((h v hv w hw).2 hwide)
      · exact absurd hwrap ((h w hw v hv).2 hwide)

/-! ## What is emitted -/

/-- Whether an implementation tries to convert `value`: patterns that lead to what is
returned, and an error for all that they do not match. -/
def Tries (i : Impl) (header : Text) (patterns : List Pat) (returned : Text) : Prop :=
  ∃ error signature fail, i = .block header
    [.line error, .blank, .inline,
     .block signature [.choose "value"
       [.yields (.anyOf patterns) (Text.concat [Core.ok, "(", returned, ")"]),
        .yields .wild (Text.concat [Core.err, "(", fail, ")"])]]]

/-- The header of the implementation for a group. -/
def PayloadGroup.header (s : Selection) (g : PayloadGroup) : Text :=
  headerFor (g.form.generics s.generics).parts
    (generic s.spec.path (g.form.typeMark ++ s.self.render)) g.target

theorem tries_tryIntoImpl (support : Support) (s : Selection) (g : PayloadGroup) :
    Tries (tryIntoImpl support s g) (g.header s) (g.members.map (·.giving s))
      (tupleOf g.components) :=
  ⟨_, _, _, rfl⟩

theorem of_selectEnum_ok {decl : Decl} {spec : TraitSpec} {s : Selection}
    {variants : List VariantView} (h : selectEnum decl spec = .ok (s, variants)) :
    Selection.ofDecl decl spec = .ok s ∧ s.shape = .enum variants := by
  unfold selectEnum at h
  dsimp only at h
  split at h
  · cases h
  · obtain ⟨s', hs, h⟩ := of_bind_ok h
    obtain ⟨variants', hvariants, h⟩ := of_bind_ok h
    cases h
    exact ⟨hs, Selection.shape_of_enumVariants hvariants⟩

/-- What the conversions of a parsed enum into its payloads are. There is one for each
group of variants of one form and key, and the pattern of every variant binds its fields
that take part to the first numbers, in order. They are told apart by form and target,
with every variant in the one for its own payload, just when keys tell payloads apart. -/
theorem tryInto_partitions {source : Text} {decl : Decl} {spec : TraitSpec}
    {support : Support} {impls : List Impl} (hdecl : decl ∈ (parse source).file.decls)
    (h : tryIntoPayload support decl spec = .ok impls) :
    ∃ s variants gs, Selection.ofDecl decl spec = .ok s ∧ s.shape = .enum variants ∧
      List.Forall₂ (fun i g => Tries i (PayloadGroup.header s g)
      (g.members.map (·.giving s)) (tupleOf g.components)) impls gs ∧
      (∀ v ∈ variants, v.BoundBy (v.giving s)) ∧
      ByKey (variants.filter (·.enabled)) gs ∧
      (Partitions (variants.filter (·.enabled)) gs ↔
      Legible (variants.filter (·.enabled))) := by
  obtain ⟨⟨s, variants⟩, hselect, h⟩ := of_bind_ok h
  cases h
  obtain ⟨hs, hshape⟩ := of_selectEnum_ok hselect
  have hordered := Selection.ordered_of_ofDecl (styled_of_parse hdecl) hs
  rw [hshape] at hordered
  have hkey := byKey_payloadGroups (variants.filter (·.enabled))
  refine ⟨s, variants, _, hs, hshape, ?_, fun v hv =>
    v.boundBy_giving (hordered v hv) s, hkey, hkey.partitions_iff⟩
  rw [List.forall₂_map_left_iff, List.forall₂_same]
  exact fun g _ => tries_tryIntoImpl support s g

/-- A payload of one type that is written like the tuple of another payload. -/
theorem tryInto_partitions_wrapped :
    ∃ d decl impls s variants gs, find? "TryInto" = some d ∧
    (parse "enum E { A((i32, u8)), B(i32, u8) }").file.decls = [decl] ∧
    tryIntoPayload {} decl d.spec = .ok impls ∧ s.shape = .enum variants ∧
    List.Forall₂ (fun i g => Tries i (PayloadGroup.header s g) (g.members.map (·.giving s))
      (tupleOf g.components)) impls gs ∧
    ¬ Partitions (variants.filter (·.enabled)) gs := by
  obtain ⟨d, decl, impls, s, variants, hd, hdecls, himpls, hs, hshape, hlegible⟩ :
      ∃ d decl impls s variants, find? "TryInto" = some d ∧
        (parse "enum E { A((i32, u8)), B(i32, u8) }").file.decls = [decl] ∧
        tryIntoPayload {} decl d.spec = .ok impls ∧
        Selection.ofDecl decl d.spec = .ok s ∧ s.shape = .enum variants ∧
        ¬ Legible (variants.filter (·.enabled)) :=
    ⟨_, _, _, _, _, rfl, rfl, rfl, rfl, rfl, by decide +kernel⟩
  obtain ⟨s', variants', gs, hs', hshape', htries, -, -, hiff⟩ :=
    tryInto_partitions (hdecls ▸ List.mem_singleton_self decl) himpls
  cases hs.symm.trans hs'
  cases hshape.symm.trans hshape'
  exact ⟨d, decl, impls, s, variants, gs, hd, hdecls, himpls, hshape, htries,
    fun hp => hlegible (hiff.mp hp)⟩

end Derive

end Deriver
