import Deriver.Parse.File
import Deriver.Proofs.Helper.Arguments

/-!
# What derives rely on

Main statements: `ofAttributes_answers_iff` and `ofAttributes_consistent`. Reading the
options of an item ends with options or with a diagnostic unless it comes to an argument
that is called `format` and is no literal. Options that are read are consistent: what
excludes each other is not asked for at once, a format string comes first and takes the
other arguments, and no key is written twice.
-/

namespace Deriver.Options

variable {attrs : List Attribute} {names : List Text} {level : Level}
  {params : Params} {o : Options}

/-! ## Answers -/

/-- A key can be set by an argument if and only if that has the form for it. -/
theorem exists_setKey_iff {attr : Text} {m : Meta} :
    (∃ o', setKey attr (keyOf m) m o = .ok o') ↔ Fits m := by
  refine ⟨fun ⟨_, h⟩ => fits_of_setKey h, fun hfits => ?_⟩
  have hbare := setFlag?_isSome_iff (keyOf m)
  unfold setKey
  cases hflag : setFlag? (keyOf m) with
  | some set =>
      rw [hflag] at hbare
      exact ⟨_, if_pos (hfits.bare (hbare.mp rfl))⟩
  | none =>
      simp only [beq_iff_eq]
      split_ifs with hrename herror htypes hformat
      · obtain ⟨c, hc⟩ := Option.isSome_iff_exists.mp (hfits.renameAll hrename)
        exact ⟨_, mapError_eq_ok_iff.mpr (setRenameAll_eq_ok_iff.mpr ⟨c, hc, rfl⟩)⟩
      · obtain ⟨e, he⟩ := Option.isSome_iff_exists.mp (hfits.error herror)
        exact ⟨_, mapError_eq_ok_iff.mpr (setError_eq_ok_iff.mpr ⟨e, he, rfl⟩)⟩
      · obtain ⟨ts, hts⟩ := Option.isSome_iff_exists.mp (hfits.types htypes)
        exact ⟨_, mapError_eq_ok_iff.mpr (setTypes_eq_ok_iff.mpr ⟨ts, hts, rfl⟩)⟩
      · obtain ⟨v, hv⟩ := Option.isSome_iff_exists.mp (hfits.format hformat)
        exact ⟨_, setFormat_eq_ok_iff.mpr ⟨v, hv, rfl⟩⟩
      · exact ⟨_, rfl⟩

/-- Arguments that are accepted are followed by one that is called `format` and is no
literal. -/
def MissesText (level : Level) (params : Params) (ms : List Meta) : Prop :=
  ∃ before m after, ms = before ++ m :: after ∧
    (∀ b ∈ before, keyOf b ≠ "format" ∧ Accepts level params b) ∧ (before.map slot).Nodup ∧
    keyOf m = "format" ∧ keyOf m ∈ params.on level ∧ literal? m = none

namespace Reading

variable {g : Grammar} {raw : Text} {r : Reading} {ms : List Meta} {isFirst : Bool}

/-- An argument is read if and only if it is accepted and takes up a key of its own. -/
theorem exists_item_iff {m : Meta} :
    (∃ r', r.item g m = .ok r') ↔ Accepts g.level g.params m ∧ r.at? (slot m) = none := by
  constructor
  · rintro ⟨r', h⟩
    obtain ⟨hkey, hnew, o, ho, -⟩ := item_eq_ok_iff.mp h
    exact ⟨⟨hkey, fits_of_setKey ho⟩, hnew⟩
  · rintro ⟨haccepts, hnew⟩
    obtain ⟨o, ho⟩ := exists_setKey_iff.mpr haccepts.fits
    exact ⟨_, item_eq_ok_iff.mpr ⟨haccepts.key, hnew, o, ho, rfl⟩⟩

/-- Reading cannot be answered if and only if it comes to a format without a text. -/
theorem items_eq_noFormatText_iff (hplain : r.options.format = none) :
    items g raw r isFirst ms = .error .noFormatText ↔
      ∃ before m after, ms = before ++ m :: after ∧
        (∀ b ∈ before, keyOf b ≠ "format" ∧ Accepts g.level g.params b) ∧
        Fresh r (before ++ [m]) ∧
        keyOf m = "format" ∧ keyOf m ∈ g.params.on g.level ∧ literal? m = none := by
  induction ms generalizing r isFirst with
  | nil =>
      refine iff_of_false nofun fun ⟨before, m, after, hsplit, _⟩ => ?_
      cases before <;> cases hsplit
  | cons m ms ih =>
      cases hitem : r.item g m with
      | error e =>
          have herror := item_eq_noFormatText_iff (r := r) (g := g) (m := m)
          rw [items_of_error hitem, ← hitem, herror]
          constructor
          · rintro ⟨hkey, hnew, hformat, hnone⟩
            exact ⟨[], m, ms, rfl, List.forall_mem_nil _,
              ⟨List.forall_mem_singleton.mpr hnew, List.nodup_singleton _⟩,
              hformat, hkey, hnone⟩
          · rintro ⟨before, m', after, hsplit, haccepts, hfresh, hformat, hkey, hnone⟩
            cases before with
            | nil =>
                obtain ⟨rfl, rfl⟩ := List.cons.inj hsplit
                exact ⟨hkey, hfresh.1 _ (List.mem_singleton_self _), hformat, hnone⟩
            | cons b before =>
                obtain ⟨rfl, rfl⟩ := List.cons.inj hsplit
                obtain ⟨r', hr'⟩ := exists_item_iff.mpr
                  ⟨(haccepts m List.mem_cons_self).2, hfresh.1 m List.mem_cons_self⟩
                rw [hitem] at hr'
                cases hr'
      | ok r₁ =>
          obtain ⟨haccepted, hnew⟩ := exists_item_iff.mp ⟨r₁, hitem⟩
          have hafter := format_item hitem
          by_cases hm : keyOf m = "format"
          · obtain ⟨v, hv⟩ := Option.isSome_iff_exists.mp (haccepted.fits.format hm)
            rw [if_pos hm, hv] at hafter
            rw [items_of_format hitem hafter]
            refine iff_of_false (by split <;> exact nofun) ?_
            rintro ⟨before, m', after, hsplit, haccepts, -, -, -, hnone⟩
            cases before with
            | nil =>
                rw [← (List.cons.inj hsplit).1, hv] at hnone
                cases hnone
            | cons b before =>
                exact (haccepts b List.mem_cons_self).1 ((List.cons.inj hsplit).1 ▸ hm)
          · rw [if_neg hm, hplain] at hafter
            rw [items_of_plain hitem hafter, ih hafter]
            obtain ⟨-, -, o, -, rfl⟩ := item_eq_ok_iff.mp hitem
            constructor
            · rintro ⟨before, m', after, rfl, haccepts, hfresh, hrest⟩
              exact ⟨m :: before, m', after, rfl,
                List.forall_mem_cons.mpr ⟨⟨hm, haccepted⟩, haccepts⟩,
                fresh_cons.mpr ⟨hnew, hfresh⟩, hrest⟩
            · rintro ⟨before, m', after, hsplit, haccepts, hfresh, hformat, hrest⟩
              cases before with
              | nil => exact absurd ((List.cons.inj hsplit).1 ▸ hformat) hm
              | cons b before =>
                  obtain ⟨rfl, rfl⟩ := List.cons.inj hsplit
                  exact ⟨before, m', after, rfl, (List.forall_mem_cons.mp haccepts).2,
                    (fresh_cons.mp hfresh).2, hformat, hrest⟩

end Reading

theorem slot_eq_format_iff {m : Meta} : slot m = "format" ↔ keyOf m = "format" := by
  unfold slot
  split
  · next hskip => rw [hskip]; decide
  · rfl

/-- From the start, a format takes up a key of its own behind arguments that are none. -/
theorem items_start_eq_noFormatText_iff {g : Grammar} {raw : Text} {pos : Position}
    {ms : List Meta} :
    Reading.items g raw (Reading.start pos) true ms = .error .noFormatText ↔
      MissesText g.level g.params ms := by
  rw [Reading.items_eq_noFormatText_iff rfl]
  refine exists_congr fun before => exists_congr fun m => exists_congr fun after =>
    and_congr_right fun _ => and_congr_right fun haccepts =>
      and_congr_left fun ⟨hformat, _⟩ => ?_
  have hother : slot m ∉ before.map slot := by
    intro hmem
    obtain ⟨b, hb, heq⟩ := List.mem_map.mp hmem
    rw [slot_eq_format_iff.mpr hformat] at heq
    exact (haccepts b hb).1 (slot_eq_format_iff.mp heq)
  rw [Reading.fresh_start, List.map_append, List.map_singleton, List.nodup_append]
  exact ⟨And.left, fun h => ⟨h, List.nodup_singleton _, fun k hk k' hk' heq =>
    hother (List.mem_singleton.mp hk' ▸ heq ▸ hk)⟩⟩

theorem ofAttributes_eq_noFormatText_iff :
    ofAttributes attrs names level params = .error .noFormatText ↔
      ∃ a, Attribute.named attrs names = [a] ∧ MissesText level params a.args := by
  have hnothing : ¬ MissesText level params [] := by
    rintro ⟨before, m, after, hsplit, -⟩
    cases before <;> cases hsplit
  match hnamed : Attribute.named attrs names with
  | [] =>
      rw [ofAttributes_of_none hnamed]
      simp
  | _ :: _ :: _ =>
      obtain ⟨d, hd⟩ := ofAttributes_of_many hnamed
      rw [hd]
      simp
  | [a] =>
      have hone : (∃ b, [a] = [b] ∧ MissesText level params b.args) ↔
          MissesText level params a.args := by simp
      rw [hone]
      cases hargs : a.args with
      | nil =>
          refine iff_of_false ?_ hnothing
          cases hbare : a.isBare with
          | true =>
              rw [ofAttributes_of_bare hnamed hbare]
              exact nofun
          | false =>
              obtain ⟨d, hd⟩ := ofAttributes_of_other hnamed hbare hargs
              rw [hd]
              exact nofun
      | cons m ms =>
          have hread : Reading.items ⟨a.path, level, params⟩ a.raw
              (Reading.start a.pos) true
              (m :: ms) = .error .noFormatText ↔ MissesText level params (m :: ms) :=
            items_start_eq_noFormatText_iff
          rw [ofAttributes_of_args hnamed hargs, ← hread]
          cases Reading.items ⟨a.path, level, params⟩ a.raw (Reading.start a.pos) true
            (m :: ms) with
          | error e => simp [Except.bind]
          | ok r =>
              simp only [Except.bind]
              cases r.conflict? a.path <;> simp

/-- Reading the options of an item ends with options or a diagnostic, unless it comes to a
format without a text. -/
theorem ofAttributes_answers_iff :
    ((∃ o, ofAttributes attrs names level params = .ok o) ∨
      ∃ d, ofAttributes attrs names level params = .error (.diagnostic d)) ↔
      ¬ ∃ a, Attribute.named attrs names = [a] ∧ MissesText level params a.args := by
  rw [← ofAttributes_eq_noFormatText_iff]
  cases ofAttributes attrs names level params with
  | ok o => simp
  | error e => cases e <;> simp

-- `format` is accepted as a key, and stands there bare
example : ∃ decl, (parse "#[display(format)] struct S;").file.decls = [decl] ∧
    (ofAttributes decl.attrs ["display"] .struct { struct := ["format"] } matches
      .error .noFormatText) = true :=
  ⟨_, rfl, rfl⟩

/-! ## Consistency -/

/-- What derives rely on in the options that were read from some attributes. -/
structure Consistent (attrs : List Attribute) (names : List Text) (level : Level)
    (params : Params) (o : Options) : Prop where
  one : (Attribute.named attrs names).length ≤ 1
  bare : o.bare = true → o = { present := true, bare := true, pos := o.pos }
  ignore : o.ignore = true →
    o.forward = false ∧ o.owned = false ∧ o.ref = false ∧ o.refMut = false ∧ o.format = none
  accessors : o.accessors = true ↔ o.owned = true ∨ o.ref = true ∨ o.refMut = true
  /-- A format string is the first argument, and has the other ones as its own. -/
  format : ∀ f, o.format = some f → ∃ a pos v rest, Attribute.named attrs names = [a] ∧
    a.args = .lit pos v :: rest ∧ v.kind = .str ∧
    f = ⟨v.raw, v.value, rest.map fun arg => arg.raw.trim, pos⟩
  keys : o.format = none → ∀ a ∈ Attribute.named attrs names,
    (∀ m ∈ a.args, keyOf m ∈ params.on level) ∧ (a.args.map slot).Nodup ∧
    ¬ ((∃ m ∈ a.args, keyOf m = "source") ∧ ∃ m ∈ a.args, keyOf m = "not(source)") ∧
    ¬ ((∃ m ∈ a.args, keyOf m = "backtrace") ∧ ∃ m ∈ a.args, keyOf m = "not(backtrace)")

theorem bySlot?_ne_none {ms : List Meta} {m : Meta} (hm : m ∈ ms) :
    bySlot? ms (slot m) ≠ none :=
  fun hnone => List.find?_eq_none.mp hnone m hm (beq_self_eq_true _)

/-- Arguments that do not exclude each other have not both of two keys that do. -/
theorem not_both {ms : List Meta} {k k' : Text} (hcompatible : Compatible (bySlot? ms))
    (hpair : (k, k') ∈ Reading.exclusive) :
    ¬ ((∃ m ∈ ms, keyOf m = k) ∧ ∃ m ∈ ms, keyOf m = k') := by
  have htaken {m : Meta} {key : Text} (hm : m ∈ ms) (hkey : keyOf m = key)
      (hne : key ≠ "skip") :
      bySlot? ms key ≠ none := by
    have hslot : slot m = key := (if_neg (hkey ▸ hne)).trans hkey
    exact hslot ▸ bySlot?_ne_none hm
  have hskip : ∀ pair ∈ Reading.exclusive, pair.1 ≠ ("skip" : Text) ∧
      pair.2 ≠ ("skip" : Text) := by
    decide
  rintro ⟨⟨m, hm, hkey⟩, m', hm', hkey'⟩
  exact (hcompatible _ hpair).elim (htaken hm hkey (hskip _ hpair).1)
    (htaken hm' hkey' (hskip _ hpair).2)

/-- Options that were read are consistent, where no argument is called `format` but a
string literal. -/
theorem ofAttributes_consistent
    (hspelled : ∀ a ∈ attrs, ∀ m ∈ a.args, keyOf m = "format" →
      ∃ pos v, m = .lit pos v ∧ v.kind = .str)
    (h : ofAttributes attrs names level params = .ok o) :
    Consistent attrs names level params o := by
  rcases ofAttributes_eq_ok_iff.mp h with ⟨hnone, rfl⟩ | ⟨a, hone, hasks⟩
  · exact {
      one := hnone ▸ Nat.zero_le 1
      bare := nofun
      ignore := nofun
      accessors := by simp
      format := nofun
      keys := fun _ a ha => absurd (hnone ▸ ha) List.not_mem_nil }
  · have hmem : a ∈ attrs := (List.mem_filter.mp (hone ▸ List.mem_singleton_self a)).1
    have hlength : (Attribute.named attrs names).length ≤ 1 := hone ▸ Nat.le_refl 1
    cases hasks with
    | bare hbare =>
        exact {
          one := hlength
          bare := fun _ => rfl
          ignore := nofun
          accessors := by simp
          format := nofun
          keys := fun _ b hb => by
            obtain rfl := List.mem_singleton.mp (hone ▸ hb)
            rw [Attribute.args_of_isBare hbare]
            simp }
    | @format m rest v hargs hformat hkey hv =>
        obtain ⟨pos, v', rfl, hkind⟩ :=
          hspelled a hmem m (hargs ▸ List.mem_cons_self) hformat
        obtain rfl : v' = v := Option.some.inj hv
        exact {
          one := hlength
          bare := nofun
          ignore := nofun
          accessors := by simp
          format := fun f hf => ⟨a, pos, v', rest, hone, hargs, hkind,
            (Option.some.inj hf).symm⟩
          keys := nofun }
    | keys hargs haccepts hnodup hcompatible =>
        exact {
          one := hlength
          bare := nofun
          ignore := fun hignore => by
            have hother {k : Text} (hpair : (("ignore" : Text), k) ∈ Reading.exclusive) :
                (bySlot? a.args k).isSome = false := by
              rcases hcompatible _ hpair with hnone | hnone
              · rw [asked, hnone] at hignore
                cases hignore
              · rw [hnone]
                rfl
            exact ⟨hother (by decide), hother (by decide), hother (by decide),
              hother (by decide), rfl⟩
          accessors := by simp [asked, or_assoc]
          format := nofun
          keys := fun _ b hb => by
            obtain rfl := List.mem_singleton.mp (hone ▸ hb)
            exact ⟨fun m hm => (haccepts m hm).2.key, hnodup,
              not_both hcompatible (by decide), not_both hcompatible (by decide)⟩ }

/-- A format string, and its argument behind it. -/
theorem ofAttributes_consistent_format : ∃ decl o f,
    (parse "#[display(\"\x7b\x7d\", x)] struct S;").file.decls = [decl] ∧
    ofAttributes decl.attrs ["display"] .struct { struct := ["format"] } = .ok o ∧
    o.format = some f ∧ f.args = ["x"] ∧
    Consistent decl.attrs ["display"] .struct { struct := ["format"] } o := by
  obtain ⟨decl, o, f, a, pos, v, pos', hdecls, ho, hf, hargs, hattrs, hwritten, hkind⟩ :
      ∃ decl o f a pos v pos',
        (parse "#[display(\"\x7b\x7d\", x)] struct S;").file.decls = [decl] ∧
        ofAttributes decl.attrs ["display"] .struct { struct := ["format"] } = .ok o ∧
        o.format = some f ∧ f.args = ["x"] ∧ decl.attrs = [a] ∧
        a.args = [.lit pos v, .path pos' "x"] ∧ v.kind = .str :=
    ⟨_, _, _, _, _, _, _, rfl, rfl, rfl, rfl, rfl, rfl, rfl⟩
  refine ⟨decl, o, f, hdecls, ho, hf, hargs,
    ofAttributes_consistent (fun b hb m hm hformat => ?_) ho⟩
  obtain rfl := List.mem_singleton.mp (hattrs ▸ hb)
  rw [hwritten] at hm
  rcases List.mem_cons.mp hm with rfl | hm
  · exact ⟨pos, v, rfl, hkind⟩
  · obtain rfl := List.mem_singleton.mp hm
    exact absurd (show ("x" : Text) = "format" from hformat) (by decide)

end Deriver.Options
