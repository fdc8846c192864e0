import Deriver.Proofs.Derive.Exhaustive
import Deriver.Proofs.Parse.MetaTree

/-!
# Names that are put together

A derive puts a name together from a front and what it is given: the name of a variant, or
the number of a field. No reserved word begins with such a front (`Unreserved`), so
letters and digits behind it make one identifier. The constants of discriminants are the
exception. They take the name of the variant with the raw mark, if it has one, and the
mark is no part of a name further on.
-/

namespace Deriver

open Scan

/-! ## Fronts -/

/-- No reserved word begins with a text. -/
def Unreserved (front : Text) : Prop := ∀ e ∈ TokenKind.keywords, ¬ front <+: (e.1 : Text)

instance (front : Text) : Decidable (Unreserved front) :=
  inferInstanceAs (Decidable (∀ _ ∈ _, _))

/-- Behind a front that begins no reserved word, letters and digits make an identifier. -/
theorem word_of_front {front u : Text} (hfront : IsWord front) (hfree : Unreserved front)
    (hu : u.Wordy) : Word .ident (front ++ u) := by
  have hword : IsWord (front ++ u) := by
    obtain ⟨b, t, rfl, hb, ht⟩ := hfront
    exact ⟨b, t ++ u, rfl, hb, Text.wordy_append.mpr ⟨ht, hu⟩⟩
  have hkind : nameKind (front ++ u) = .ident := by
    cases hk : TokenKind.ofKeyword? (front ++ u) with
    | none => rw [nameKind, hk]; rfl
    | some k =>
        obtain ⟨e, he, heq, -⟩ := exists_of_ofKeyword? hk
        exact absurd (heq ▸ List.prefix_append _ _) (hfree e he)
  exact hkind ▸ word_of_isWord hword

theorem Word.isIdent {w : Text} (h : Word .ident w) : IsIdent w := by
  obtain ⟨v, hown⟩ := h.ownTokens
  have hmem : (⟨.ident, w, v, .start, 0⟩ : Token) ∈ (scan w).tokens := by
    rw [scan_tokens_own, hown]
    exact List.mem_cons_self ..
  exact isIdent_of_mem hmem (.inl rfl)

/-! ## The names of fields -/

/-- Whether a field of a declaration is declared by a name. -/
def Data.Owns (data : Data) (x : Text) : Prop :=
  match data with
  | .struct fs | .union fs => ∃ f ∈ fs.list, f.ident = some x
  | .enum vs => ∃ v ∈ vs, ∃ f ∈ v.fields.list, f.ident = some x

/-- Whether a field may be bound to a name: to one identifier, or to the name that it is
declared by. -/
def Data.Binds (data : Data) (x : Text) : Prop := Word .ident x ∨ data.Owns x

theorem Data.owns_of_variant {data : Data} {v : Variant} {f : Field} {x : Text}
    (hv : v ∈ data.variants) (hf : f ∈ v.fields.list) (hx : f.ident = some x) :
    data.Owns x := by
  cases data with
  | enum vs => exact ⟨v, hv, f, hf, hx⟩
  | struct fs | union fs => cases hv

namespace FieldView

theorem word_binding (f : FieldView) {tag : Text} (htag : tag.Wordy) :
    Word .ident (f.binding tag) := by
  have heq : f.binding tag = "__" ++ (tag ++ ("_" ++ Text.ofNat f.index)) := by
    simp [binding, Text.concat]
  rw [heq]
  exact word_of_front (by decide) (by decide) (Text.wordy_append.mpr
    ⟨htag, Text.wordy_append.mpr ⟨List.all_eq_true.mp rfl, Text.wordy_ofNat _⟩⟩)

theorem word_formatName (f : FieldView) :
    Word .ident f.formatName ∨ f.field.ident = some f.formatName := by
  unfold formatName name
  cases f.field.ident with
  | some x => exact .inr rfl
  | none => exact .inl (word_of_front (by decide) (by decide) (Text.wordy_ofNat _))

end FieldView

namespace Derive

theorem word_source : Word .ident "source" :=
  have h : IsWord "source" := by decide
  word_of_isWord h

theorem word_component (n : Nat) : Word .ident (component n) :=
  word_of_front (by decide) (by decide) (Text.wordy_ofNat n)

theorem word_paramName (f : FieldView) :
    Word .ident (paramName f) ∨ f.field.ident = some (paramName f) := by
  unfold paramName FieldView.name
  cases f.field.ident with
  | some x => exact .inr rfl
  | none => exact .inl (word_component f.index)

/-! ## The names of functions and constants -/

theorem Family.word_methodName {v : VariantView} (hname : IsIdent v.name) (f : Family)
    (form : RefForm) : Word .ident (f.methodName v form) := by
  have hverb : IsWord f.verb ∧ Unreserved f.verb := by
    rcases f with _ | (_ | _ | _ | _)
    all_goals exact ⟨by decide, by decide⟩
  have heq : f.methodName v form = f.verb ++ (Casing.snakeCase v.name ++ form.ending) := by
    simp [methodName, Text.concat]
  have hwordy := wordy_methodName hname f form
  rw [heq] at hwordy ⊢
  exact word_of_front hverb.1 hverb.2 (Text.wordy_append.mp hwordy).2

/-- The constant of a variant is one identifier, unless the variant has the raw mark. -/
theorem Discriminant.word_constName_iff {v : Variant} (hv : IsIdent v.ident) :
    Word .ident (constName v) ↔ plainName v.ident = v.ident := by
  constructor
  · intro h
    -- the front has no mark, so the constant is a name without one
    have hplain : (constName v).dropStart "r#" = constName v := rfl
    have hword : IsWord (constName v) := hplain ▸ h.isIdent
    have hident : v.ident.Wordy := (Text.wordy_append.mp hword.wordy).2
    unfold plainName Text.dropStart Text.dropStart?
    split
    · next hmark =>
        obtain ⟨u, hu⟩ := List.isPrefixOf_iff_prefix.mp hmark
        exact absurd (hident 35 (hu ▸ List.mem_append_left u (by decide))) (by decide)
    · rfl
  · intro h
    have hword : IsWord v.ident := h ▸ hv
    exact word_of_front (by decide) (by decide) hword.wordy

/-! ## The names in patterns -/

section

variable {v : FieldsView} {w : VariantView} {path tag x : Text}

theorem mem_names_patternWith {entry : FieldView → Pat}
    (h : x ∈ (v.patternWith path entry).names) : ∃ f ∈ v.all, x ∈ (entry f).names := by
  unfold FieldsView.patternWith at h
  split at h
  · rw [Pat.names, Pat.namesIn_eq_flatMap, List.flatMap_map] at h
    exact List.mem_flatMap.mp h
  · rw [Pat.names, Pat.namesOf_some] at h
    exact List.mem_flatMap.mp h
  · cases h

theorem mem_names_pattern (h : x ∈ (v.pattern path tag).names) :
    ∃ f ∈ v.all, x = f.binding tag := by
  obtain ⟨f, hf, hx⟩ := mem_names_patternWith h
  exact ⟨f, hf, List.mem_singleton.mp hx⟩

theorem mem_names_patternEnabled (h : x ∈ (v.patternEnabled path tag).names) :
    ∃ f ∈ v.all, x = f.binding tag := by
  unfold FieldsView.patternEnabled at h
  split at h
  · rw [Pat.names, names_entries v.all (·.enabled)] at h
    obtain ⟨f, hf, rfl⟩ := List.mem_map.mp h
    exact ⟨f, List.mem_of_mem_filter hf, rfl⟩
  · rw [Pat.names, Pat.namesOf_some] at h
    obtain ⟨f, hf, hx⟩ := List.mem_flatMap.mp h
    exact ⟨f, List.mem_of_mem_filter hf, List.mem_singleton.mp hx⟩
  · cases h

/-- A variant is matched under the names that its fields have in formats. -/
theorem binds_of_mem_formatPattern {data : Data} {used : List Text}
    (hv : w.variant ∈ data.variants)
    (hfaithful : w.Faithful) (h : x ∈ (w.fields.formatPattern path used).names) :
    data.Binds x := by
  rw [FieldsView.names_formatPattern hfaithful.ordered] at h
  obtain ⟨⟨f, hf, rfl⟩, -⟩ := FieldsView.mem_boundNames.mp h
  have hfield : f.field ∈ w.variant.fields.list := hfaithful.fields ▸ List.mem_map_of_mem hf
  exact f.word_formatName.imp_right fun hown => Data.owns_of_variant hv hfield hown

theorem mem_names_payloadOf (h : x ∈ (payloadOf w).pattern.names) :
    ∃ n, x = component n := by
  unfold payloadOf at h
  split at h
  · rw [Pat.names, Pat.namesIn_eq_flatMap, List.flatMap_map, List.flatMap_map] at h
    obtain ⟨n, -, hx⟩ := List.mem_flatMap.mp h
    exact ⟨n, List.mem_singleton.mp hx⟩
  · cases h

theorem mem_names_sourcePattern {f : FieldView} (h : x ∈ (sourcePattern w f).names) :
    x = "source" := by
  unfold sourcePattern at h
  split at h
  · rw [Pat.names, Pat.namesOf, Pat.namesOf, List.append_nil] at h
    exact List.mem_singleton.mp h
  · rw [Pat.names, Pat.namesIn_eq_flatMap, List.flatMap_map] at h
    obtain ⟨g, -, hx⟩ := List.mem_flatMap.mp h
    split at hx
    · exact List.mem_singleton.mp hx
    · cases hx

theorem names_anyPattern (w : VariantView) : w.anyPattern.names = [] := by
  unfold VariantView.anyPattern Fields.anyPattern
  cases w.variant.fields.style <;> rfl

end

end Derive

end Deriver
