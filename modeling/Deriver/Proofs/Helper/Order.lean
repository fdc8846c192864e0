import Deriver.Parse.File
import Deriver.Proofs.Helper.Arguments
import Deriver.Proofs.Helper.Place

/-!
# The order of arguments

Main statement: `ofAttributes_rearranged`. The arguments of a helper attribute can stand in
any order, as long as none is called `format`.

An attribute asks for what the arguments under their keys say. No key is written twice, so
that which argument stands under a key does not depend on the order; and what an argument
says does not depend on where it stands.
-/

namespace Deriver

/-- The argument with all that is nested in it, wherever it stands. -/
def Meta.stripped : Meta → Meta := Meta.place fun _ => .unknown

/-- Two attributes that differ at most in the order of their arguments, in where these stand
and in how the whole is written. -/
inductive Attribute.Rearranged : Attribute → Attribute → Prop
  | refl (a : Attribute) : Rearranged a a
  | list {items items' : List Meta} {path : Text}
      (h : (items.map Meta.stripped).Perm (items'.map Meta.stripped))
      (inner inner' pos : Position) (list list' raw raw' : Text) :
      Rearranged ⟨.list inner path items list, raw, pos⟩
        ⟨.list inner' path items' list', raw', pos⟩

namespace Attribute.Rearranged

variable {a a' : Attribute} {attrs attrs' : List Attribute}

theorem symm (h : Rearranged a a') : Rearranged a' a := by
  cases h with
  | refl => exact .refl _
  | list h => exact .list h.symm ..

theorem path_eq (h : Rearranged a a') : a'.path = a.path := by
  cases h <;> rfl

theorem pos_eq (h : Rearranged a a') : a'.pos = a.pos := by
  cases h <;> rfl

theorem args (h : Rearranged a a') :
    (a.args.map Meta.stripped).Perm (a'.args.map Meta.stripped) := by
  cases h with
  | refl => exact .refl _
  | list h => exact h

theorem exists_arg {m' : Meta} (h : Rearranged a a') (hm' : m' ∈ a'.args) :
    ∃ m ∈ a.args, m.stripped = m'.stripped :=
  List.mem_map.mp (h.args.mem_iff.mpr (List.mem_map_of_mem hm'))

theorem isBare (h : Rearranged a a') (hbare : a.isBare = true) : a'.isBare = true := by
  cases h with
  | refl => exact hbare
  | @list items items' _ h =>
      cases items with
      | cons => cases hbare
      | nil =>
          obtain rfl := List.map_eq_nil_iff.mp (List.nil_perm.mp h)
          rfl

theorem named (h : List.Forall₂ Rearranged attrs attrs') (names : List Text) :
    List.Forall₂ Rearranged (Attribute.named attrs names)
    (Attribute.named attrs' names) := by
  unfold Attribute.named
  induction h with
  | nil => exact .nil
  | @cons a a' _ _ ha _ ih =>
      rw [List.filter_cons, List.filter_cons, ha.path_eq]
      split
      · exact .cons ha ih
      · exact ih

end Attribute.Rearranged

namespace Options

/-! ## What an argument says, wherever it stands -/

section Stripped

variable (m : Meta)

theorem keyOf_stripped : keyOf m.stripped = keyOf m := keyOf_place _ m

theorem casing?_stripped : casing? m.stripped = casing? m := by cases m <;> rfl

theorem literal?_stripped : literal? m.stripped = literal? m := by cases m <;> rfl

theorem slot_stripped : slot m.stripped = slot m := by
  unfold slot
  rw [keyOf_stripped]

theorem customError?_stripped : customError? m.stripped = customError? m := by
  cases m with
  | list pos p items raw =>
      have hraw (type : Meta) : (type.place fun _ => .unknown).raw = type.raw :=
        Meta.raw_place ..
      match items with
      | [] => rfl
      | [type] => simp only [Meta.stripped, Meta.place, placeMetas, customError?, hraw]
      | [type, conv] =>
          cases conv <;> simp only [Meta.stripped, Meta.place, placeMetas,
            customError?, hraw]
      | _ :: second :: _ :: _ => cases second <;> rfl
  | _ => rfl

theorem types?_stripped : types? m.stripped = types? m := by
  cases m with
  | list pos p items raw =>
      cases items with
      | nil => rfl
      | cons first rest =>
          have hplaced : (first.place fun _ => .unknown) ::
              placeMetas (fun _ => .unknown) rest =
              (first :: rest).map (Meta.place fun _ => .unknown) := by
            rw [placeMetas_eq, List.map_cons]
          simp only [Meta.stripped, Meta.place, placeMetas, types?]
          rw [hplaced, List.all_map, List.map_map]
          simp only [Function.comp_def, isTypeLike_place, Meta.raw_place]
  | _ => rfl

theorem accepts_stripped {level : Level} {params : Params} :
    Accepts level params m.stripped ↔ Accepts level params m := by
  have hbare : isBareKey m.stripped = isBareKey m := isBareKey_place _ m
  simp only [accepts_iff, fits_iff, keyOf_stripped, hbare, casing?_stripped,
    customError?_stripped, types?_stripped, literal?_stripped]

theorem keyOf_of_stripped {m m' : Meta} (h : m.stripped = m'.stripped) :
    keyOf m = keyOf m' := by
  rw [← keyOf_stripped m, h, keyOf_stripped]

end Stripped

/-! ## What arguments say under their keys -/

variable {ms ms' : List Meta} {k : Text} {m : Meta}

theorem bySlot?_eq_some_iff (hnodup : (ms.map slot).Nodup) :
    bySlot? ms k = some m ↔ m ∈ ms ∧ slot m = k := by
  constructor
  · intro h
    exact ⟨List.mem_of_find?_eq_some h, by simpa using List.find?_some h⟩
  · rintro ⟨hm, rfl⟩
    obtain ⟨found, hfound⟩ := Option.isSome_iff_exists.mp
      (List.find?_isSome (p := fun m' => slot m' == slot m).mpr ⟨m, hm, beq_self_eq_true _⟩)
    have hslot : slot found = slot m := by simpa using List.find?_some hfound
    rw [bySlot?, hfound, List.inj_on_of_nodup_map hnodup
      (List.mem_of_find?_eq_some hfound) hm hslot]

/-- Of arguments with keys of their own the same is found in any order. -/
theorem bySlot?_perm (h : ms.Perm ms') (hnodup : (ms.map slot).Nodup) :
    bySlot? ms = bySlot? ms' := by
  have hnodup' := (h.map slot).nodup_iff.mp hnodup
  refine funext fun k => Option.ext fun m => ?_
  rw [bySlot?_eq_some_iff hnodup, bySlot?_eq_some_iff hnodup', h.mem_iff]

theorem bySlot?_stripped :
    bySlot? (ms.map Meta.stripped) = fun k => (bySlot? ms k).map Meta.stripped := by
  funext k
  rw [bySlot?, List.find?_map]
  simp only [Function.comp_def, slot_stripped]
  rfl

theorem compatible_stripped {arg? : Text → Option Meta} :
    Compatible (fun k => (arg? k).map Meta.stripped) ↔ Compatible arg? := by
  simp only [Compatible, Option.map_eq_none_iff]

theorem asked_stripped (pos : Position) (arg? : Text → Option Meta) :
    asked pos (fun k => (arg? k).map Meta.stripped) = asked pos arg? := by
  simp only [asked, Option.isSome_map, Option.bind_map, Function.comp_def, casing?_stripped,
    customError?_stripped, types?_stripped]

/-! ## Rearranged attributes -/

section Rearranged

variable {a a' : Attribute} {attrs attrs' : List Attribute} {names : List Text}
  {level : Level}
  {params : Params} {o : Options}

/-- An attribute without a format asks for the same in any order of its arguments. -/
theorem Asks.rearranged (h : a.Rearranged a') (hplain : ∀ m ∈ a.args, keyOf m ≠ "format")
    (hasks : Asks level params a o) : Asks level params a' o := by
  cases hasks with
  | bare hbare =>
      rw [← h.pos_eq]
      exact .bare (h.isBare hbare)
  | format hargs hformat => exact absurd hformat (hplain _ (hargs ▸ List.mem_cons_self))
  | keys hargs haccepts hnodup hcompatible =>
      have hslots (ms : List Meta) : (ms.map Meta.stripped).map slot = ms.map slot := by
        rw [List.map_map]
        exact List.map_congr_left fun m _ => slot_stripped m
      have hnodup' : (a'.args.map slot).Nodup := by
        rw [← hslots]
        exact (h.args.map slot).nodup_iff.mp (hslots a.args ▸ hnodup)
      have hfound := bySlot?_perm h.args (hslots a.args ▸ hnodup)
      rw [bySlot?_stripped, bySlot?_stripped] at hfound
      rw [← asked_stripped, hfound, asked_stripped, ← h.pos_eq]
      refine .keys (fun hnil => hargs ?_) (fun m' hm' => ?_) hnodup' ?_
      · have hperm := h.args
        rw [hnil, List.map_nil, List.perm_nil, List.map_eq_nil_iff] at hperm
        exact hperm
      · obtain ⟨m, hm, heq⟩ := h.exists_arg hm'
        obtain ⟨hformat, haccepted⟩ := haccepts m hm
        rw [← accepts_stripped, heq, accepts_stripped] at haccepted
        exact ⟨keyOf_of_stripped heq ▸ hformat, haccepted⟩
      · rwa [← compatible_stripped, ← hfound, compatible_stripped]

theorem plain_rearranged (h : a.Rearranged a') (hplain : ∀ m ∈ a.args, keyOf m ≠ "format") :
    ∀ m ∈ a'.args, keyOf m ≠ "format" := by
  intro m' hm'
  obtain ⟨m, hm, heq⟩ := h.exists_arg hm'
  exact keyOf_of_stripped heq ▸ hplain m hm

/-- Where no argument is called `format`, the options that are read of attributes do not
depend on the order of the arguments of any, nor does whether options can be read. -/
theorem ofAttributes_rearranged (h : List.Forall₂ Attribute.Rearranged attrs attrs')
    (hplain : ∀ a ∈ attrs, ∀ m ∈ a.args, keyOf m ≠ "format") :
    ofAttributes attrs names level params = .ok o ↔
      ofAttributes attrs' names level params = .ok o := by
  have hnamed := Attribute.Rearranged.named h names
  rw [ofAttributes_eq_ok_iff, ofAttributes_eq_ok_iff]
  refine or_congr (and_congr_left' ?_) ⟨?_, ?_⟩
  · rw [← List.length_eq_zero_iff, hnamed.length_eq, List.length_eq_zero_iff]
  · rintro ⟨a, hone, hasks⟩
    rw [hone] at hnamed
    obtain ⟨a', rest, ha, hrest, hone'⟩ := List.forall₂_cons_left_iff.mp hnamed
    obtain rfl := List.forall₂_nil_left_iff.mp hrest
    have hmem : a ∈ attrs := (List.mem_filter.mp (hone ▸ List.mem_singleton_self a)).1
    exact ⟨a', hone', hasks.rearranged ha (hplain a hmem)⟩
  · rintro ⟨a', hone', hasks⟩
    rw [hone'] at hnamed
    obtain ⟨a, rest, ha, hrest, hone⟩ := List.forall₂_cons_right_iff.mp hnamed
    obtain rfl := List.forall₂_nil_right_iff.mp hrest
    have hmem : a ∈ attrs := (List.mem_filter.mp (hone ▸ List.mem_singleton_self a)).1
    exact ⟨a, hone, hasks.rearranged ha.symm (plain_rearranged ha (hplain a hmem))⟩

/-- Three arguments, and the same ones from the last to the first. -/
theorem ofAttributes_rearranged_reversed : ∃ decl decl' o params,
    (parse "#[into(owned, ref, types(i32))] struct S;").file.decls = [decl] ∧
    (parse "#[into(types(i32), ref, owned)] struct S;").file.decls = [decl'] ∧
    ofAttributes decl.attrs ["into"] .struct params = .ok o ∧
    ofAttributes decl'.attrs ["into"] .struct params = .ok o ∧ o.types = ["i32"] := by
  let params : Params := { struct := ["owned", "ref", "types"] }
  obtain ⟨decl, decl', o, p, q, r, t, p', q', r', t', inner, inner', list, list', raw, raw',
      hdecls, hdecls', ho, htypes, hattrs, hattrs'⟩ :
      ∃ decl decl' o p q r t p' q' r' t' inner inner' list list' raw raw',
        (parse "#[into(owned, ref, types(i32))] struct S;").file.decls = [decl] ∧
        (parse "#[into(types(i32), ref, owned)] struct S;").file.decls = [decl'] ∧
        ofAttributes decl.attrs ["into"] .struct params = .ok o ∧ o.types = ["i32"] ∧
        decl.attrs = [⟨.list inner "into"
          [.path p "owned", .path q "ref",
            .list r "types" [.path t "i32"] "types(i32)"] list,
          raw, ⟨1, 1⟩⟩] ∧
        decl'.attrs = [⟨.list inner' "into"
          [.list r' "types" [.path t' "i32"] "types(i32)", .path q' "ref",
            .path p' "owned"] list',
          raw', ⟨1, 1⟩⟩] :=
    ⟨_, _, _, _, _, _, _, _, _, _, _, _, _, _, _, _, _, rfl, rfl, rfl, rfl, rfl, rfl⟩
  have hrearranged : List.Forall₂ Attribute.Rearranged decl.attrs decl'.attrs := by
    rw [hattrs, hattrs']
    exact .cons (.list (List.reverse_perm _).symm ..) .nil
  have hplain : ∀ a ∈ decl.attrs, ∀ m ∈ a.args, keyOf m ≠ "format" := by
    rw [hattrs]
    simp [Attribute.args, keyOf, Text.ofString_inj]
  exact ⟨decl, decl', o, params, hdecls, hdecls', ho,
    (ofAttributes_rearranged hrearranged hplain).mp ho, htypes⟩

end Rearranged

end Options

end Deriver
