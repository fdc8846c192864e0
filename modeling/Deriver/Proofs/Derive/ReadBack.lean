import Deriver.Proofs.Code.Matches
import Deriver.Proofs.Derive.Parsing
import Deriver.Proofs.Parse.Names

/-!
# Variants are read back from what is written for them

Main statement: `fromStr_readsBack`. Both derives spell a variant by its name, but `Display`
without the mark of a raw identifier, and `FromStr` in lower case and with the mark. So what
is written for a variant is parsed as this variant unless the name is a raw identifier, as
far as strings are lowered at run time in the way in which the names were.
-/

namespace Deriver

/-! ## What is written -/

/-- The arms with which the function `fmt` matches a value of an enum, if a piece of code is
that function. -/
def Code.fmtArms? : Code → Option (List Arm)
  | .block head [.reflow [.choose scrutinee arms]] =>
      if head.startsWith "fn fmt(&self, " && scrutinee == "self" then some arms else none
  | _ => none

/-- The arms with which the function `fmt` of an implementation matches a value of an
enum. -/
def Impl.fmtArms? : Impl → Option (List Arm)
  | .block _ body => body.findSome? Code.fmtArms?
  | .marker _ => none

/-- The call that writes a text. -/
def writingOf (text : Text) : Text :=
  Text.concat [FormatSpec.formatter, ".write_str(", text.quoted, ")"]

/-- Whether the function `fmt` of an implementation writes a text for the values of a
variant. -/
def Impl.Writes (i : Impl) (v : Variant) (text : Text) : Prop :=
  ∃ arms pat, i.fmtArms? = some arms ∧
    arms.find? (·.takes v) = some (.yields pat (writingOf text))

theorem writingOf_injective : Function.Injective writingOf := by
  intro s t h
  simpa [writingOf, Text.concat, Text.quoted_injective.eq_iff] using h

/-! ## What is parsed -/

/-- What a string is matched as: itself, or its lower-case form, where `lower` is how
strings are lowered at run time. -/
def scrutinizedBy? (lower : Text → Text) (scrutinee s : Text) : Option Text :=
  if scrutinee = "s" then some s
  else if scrutinee = "s.to_lowercase().as_str()" then some (lower s)
  else none

/-- What the function `from_str` of an implementation answers on a string. -/
def Impl.parsedBy? (lower : Text → Text) (i : Impl) (s : Text) : Option Text := do
  let (scrutinee, arms) ← i.fromStr?
  let t ← scrutinizedBy? lower scrutinee s
  (arms.find? (·.fits s t)).map Arm.value

namespace Derive

/-! ## Names -/

/-- A name is written as it is, or it has the mark of a raw identifier. -/
theorem plainName_cases (name : Text) :
    plainName name = name ∧ name.startsWith "r#" = false ∨
      name = "r#" ++ plainName name ∧ name.startsWith "r#" = true := by
  unfold plainName Text.dropStart Text.dropStart?
  cases hstart : name.startsWith "r#" with
  | false => exact .inl ⟨rfl, rfl⟩
  | true =>
      obtain ⟨t, rfl⟩ := List.isPrefixOf_iff_prefix.mp hstart
      refine .inr ⟨?_, rfl⟩
      rw [if_pos rfl, Option.getD_some, List.drop_left]

theorem fold_raw (t : Text) : Text.fold ("r#" ++ t) = "r#" ++ t.fold := rfl

theorem fold_plainName (name : Text) :
    (plainName name).fold = name.fold ↔ name.startsWith "r#" = false := by
  rcases plainName_cases name with ⟨heq, hstart⟩ | ⟨heq, hstart⟩
  · rw [heq, hstart]
    exact iff_of_true rfl rfl
  · rw [hstart]
    refine iff_of_false (fun h => ?_) nofun
    have hfold : name.fold = "r#" ++ (plainName name).fold :=
      (congrArg Text.fold heq).trans (fold_raw _)
    have hlength := congrArg List.length (h.trans hfold)
    rw [List.length_append] at hlength
    have hmark : (Text.ofString "r#").length = 2 := rfl
    omega

/-! ## The arms of `Display` -/

section

variable {s : Selection} {views : List VariantView} {w : VariantView}

/-- The arm of a variant without fields and format. -/
def nameArm (w : VariantView) : Arm :=
  .yields (w.fields.formatPattern w.path []) (writeName w.name)

theorem displayArm_plain {placeholder : Text} {g : ImplGenerics}
    (hname : s.spec.name = "Display")
    (hformat : w.options.format = none) (hfields : w.fields.all = []) :
    displayArm placeholder s none g w = .ok (g, nameArm w) := by
  unfold displayArm variantOutput usedNames
  simp only [hname, hformat, hfields, bne_self_eq_false, Bool.and_false, Bool.false_and,
    Bool.false_eq_true, if_false]
  rfl

theorem displayArms_plain {placeholder : Text} {g : ImplGenerics}
    (hname : s.spec.name = "Display")
    (hformat : ∀ w ∈ views, w.options.format = none)
    (hfields : ∀ w ∈ views, w.fields.all = []) :
    displayArms placeholder s none g views = .ok (g, views.map nameArm) := by
  induction views with
  | nil => rfl
  | cons w ws ih =>
      obtain ⟨hw, hformat⟩ := List.forall_mem_cons.mp hformat
      obtain ⟨hw', hfields⟩ := List.forall_mem_cons.mp hfields
      rw [displayArms, displayArm_plain hname hw hw']
      simp only [bind, Except.bind, ih hformat hfields]
      rfl

theorem find?_nameArms (hfaithful : ∀ w ∈ views, w.Faithful)
    (hdistinct : (views.map (·.name)).Nodup) (hw : w ∈ views) :
    (views.map nameArm).find? (·.takes w.variant) = some (nameArm w) := by
  have htakes : ∀ x ∈ views, (nameArm x).takes w.variant = (x.name == w.name) := fun x hx =>
    VariantView.takes_eq hdistinct hx hw (VariantView.path?_formatPattern ..)
      ((hfaithful x hx).takes_formatPattern [])
  rw [List.find?_map]
  refine (congrArg _ (List.find?_congr htakes)).trans ?_
  rw [VariantView.find?_name hdistinct hw]
  rfl

end

theorem writes_formatImpl {g : ImplGenerics} {s : Selection} {views : List VariantView}
    {w : VariantView} (hfaithful : ∀ w ∈ views, w.Faithful)
    (hdistinct : (views.map (·.name)).Nodup) (hw : w ∈ views) (text : Text) :
    (formatImpl g s [.choose "self" (views.map nameArm)]).Writes w.variant text ↔
      text = plainName w.name := by
  have harms : (formatImpl g s [.choose "self" (views.map nameArm)]).fmtArms? =
      some (views.map nameArm) := rfl
  have hfind := find?_nameArms hfaithful hdistinct hw
  constructor
  · rintro ⟨arms, pat, harms', hfind'⟩
    cases harms.symm.trans harms'
    have hvalue := Option.some.inj (hfind.symm.trans hfind')
    exact (writingOf_injective (Arm.yields.inj hvalue).2).symm
  · rintro rfl
    exact ⟨_, _, harms, hfind⟩

/-! ## The arms of `FromStr` -/

section

variable {support : Support} {decl : Decl} {lower : Text →
  Text} {names : List Text} {s n : Text}

/-- A string is parsed as a name that it denotes in the lower case of run time. -/
theorem parsedBy?_anyCase (header : Text) (hnodup : names.Nodup) :
    (parserOf support decl header (scrutineeOf none) (LiteralArm.anyCase names)).parsedBy?
    lower s = some (parsedAs n) ↔
      n ∈ names ∧ LiteralArm.Denotes names s (lower s) n := by
  have hscrutinized : scrutinizedBy? lower (scrutineeOf none) s = some (lower s) := rfl
  rw [Impl.parsedBy?, fromStr?_parserOf]
  simp only [Option.bind_eq_bind, Option.bind_some, hscrutinized]
  rw [LiteralArm.find?_arms, Option.some_inj]
  cases hfind : ((LiteralArm.anyCase names).find? fun a => decide (a.Fits s (lower s))).map
      (·.variant) with
  | none =>
      refine iff_of_false (notParsed_ne_parsedAs support decl n) fun ⟨hn, hdenotes⟩ => ?_
      rw [(LiteralArm.find?_anyCase hnodup hn).mpr hdenotes] at hfind
      cases hfind
  | some m =>
      rw [Option.map_some, Option.getD_some, parsedAs_injective.eq_iff]
      obtain ⟨a, ha, rfl⟩ := Option.map_eq_some_iff.mp hfind
      have hm := ((LiteralArm.mem_anyCase hnodup).mp (List.mem_of_find?_eq_some ha)).1
      constructor
      · rintro rfl
        exact ⟨hm, (LiteralArm.find?_anyCase hnodup hm).mp hfind⟩
      · rintro ⟨hn, hdenotes⟩
        rw [(LiteralArm.find?_anyCase hnodup hn).mpr hdenotes, Option.some_inj] at hfind
        exact hfind.symm

end

/-- For an enum of which no variant that takes part has fields, there is a parser. -/
theorem fromStr_ok (support : Support) {decl : Decl} {spec : TraitSpec} {s : Selection}
    {views : List VariantView} (hs : Selection.ofDecl decl spec = .ok s)
    (hshape : s.shape = .enum views) (hfields : ∀ w ∈ views, w.fields.all = [])
    (hrename : s.container.renameAll = none) :
    ∃ header, fromStr support decl spec =
    .ok ([parserOf support decl header (scrutineeOf none)
      (LiteralArm.anyCase ((views.filter (·.enabled)).map (·.name)))], []) := by
  have hunit : (views.filter (·.enabled)).find? (fun v => !v.fields.isUnit) = none := by
    refine List.find?_eq_none.mpr fun w hw => ?_
    rw [FieldsView.isUnit, hfields w (List.mem_of_mem_filter hw)]
    decide
  unfold fromStr
  simp only [hs, hshape, bind, Except.bind, hunit, literalArms, hrename]
  exact ⟨_, rfl⟩

/-- Whether the variants that take part in `FromStr` read back a variant: the name without
the mark of a raw identifier is lowered to the lower-case form of the name, and is just
the name if another variant has that form too. -/
structure ReadBack (lower : Text → Text) (parsed : List Variant) (v : Variant) : Prop where
  mem : v ∈ parsed
  lowered : lower (plainName v.ident) = v.ident.fold
  exact : (∃ w ∈ parsed, w.ident ≠ v.ident ∧ w.ident.fold = v.ident.fold) →
    plainName v.ident = v.ident

/-- Where names are lowered at run time as they are before, the names without the mark of
a raw identifier are read back. -/
theorem readBack_iff {lower : Text → Text} {parsed : List Variant} {v : Variant}
    (hlower : lower (plainName v.ident) = (plainName v.ident).fold) :
    ReadBack lower parsed v ↔ v ∈ parsed ∧ v.ident.startsWith "r#" = false := by
  constructor
  · rintro ⟨hmem, hlowered, -⟩
    exact ⟨hmem, (fold_plainName v.ident).mp (hlower.symm.trans hlowered)⟩
  · rintro ⟨hmem, hstart⟩
    refine ⟨hmem, hlower.trans ((fold_plainName v.ident).mpr hstart), fun _ => ?_⟩
    rcases plainName_cases v.ident with ⟨heq, -⟩ | ⟨-, hraw⟩
    · exact heq
    · rw [hstart] at hraw
      cases hraw

/-- For an enum without fields and formats, what is written for each variant is its name
without the mark of a raw identifier. -/
theorem display_ok (placeholder : Text) {decl : Decl} {spec : TraitSpec} {s : Selection}
    {views : List VariantView} (hs : Selection.ofDecl decl spec = .ok s)
    (hname : spec.name = "Display") (hshape : s.shape = .enum views)
    (hfaithful : ∀ w ∈ views, w.Faithful) (hdistinct : (views.map (·.name)).Nodup)
    (hfields : ∀ w ∈ views, w.fields.all = []) (hformat : s.container.format = none)
    (hformats : ∀ w ∈ views, w.options.format = none) :
    ∃ i, display placeholder decl spec = .ok [i] ∧
      ∀ w ∈ views, ∀ text, i.Writes w.variant text ↔ text = plainName w.name := by
  have hspec : s.spec.name = "Display" := (Selection.of_ofDecl hs).2 ▸ hname
  have hshared : sharedFormat s = .ok none := by
    rw [sharedFormat, hformat]
  cases views with
  | nil =>
      refine ⟨formatImpl s.generics s [.chooseNone "*self"], ?_, List.forall_mem_nil _⟩
      simp only [display, hs, hshape, bind, Except.bind, pure, Except.pure]
  | cons w ws =>
      refine ⟨formatImpl s.generics s [.choose "self" ((w :: ws).map nameArm)],
        ?_, fun x hx =>
        writes_formatImpl hfaithful hdistinct hx⟩
      simp only [display, hs, hshape, bind, Except.bind, hshared, pure, Except.pure,
        displayArms_plain hspec hformats hfields]

theorem run_of_expand {d : Derive} {support : Support} {decl : Decl} {impls : List Impl}
    {warnings : List Diagnostic}
    (h : d.expand support decl d.spec = .ok (impls, warnings)) :
    d.run support decl = .ok ⟨d.spec.name, impls, warnings⟩ := by
  rw [run, h]
  rfl

theorem run_entry_of_expand {family name path method : Text} {params : Params}
    {expand : Support → Expand} {support : Support} {decl : Decl} {impls : List Impl}
    (h : expand support decl (entry family name path method params expand).spec =
    .ok impls) :
    (entry family name path method params expand).run support decl =
    .ok ⟨name, impls, []⟩ := by
  refine run_of_expand (d := entry family name path method params expand) ?_
  change (expand support decl _ >>= fun impls => pure (impls, [])) = _
  rw [h]
  rfl

theorem denotes_iff {lower : Text → Text} {variants parsed : List Variant} {v : Variant}
    (hdistinct : (variants.map (·.ident)).Nodup) (hparsed : parsed ⊆ variants)
    (hv : v ∈ variants) :
    (v.ident ∈ parsed.map (·.ident) ∧
    LiteralArm.Denotes (parsed.map (·.ident)) (plainName v.ident)
      (lower (plainName v.ident)) v.ident) ↔ ReadBack lower parsed v := by
  have hmem : v.ident ∈ parsed.map (·.ident) ↔ v ∈ parsed := by
    refine ⟨fun h => ?_, List.mem_map_of_mem⟩
    obtain ⟨w, hw, hname⟩ := List.mem_map.mp h
    exact List.inj_on_of_nodup_map hdistinct (hparsed hw) hv hname ▸ hw
  have hother : (∃ m ∈ parsed.map (·.ident), m ≠ v.ident ∧ m.fold = v.ident.fold) ↔
      ∃ w ∈ parsed, w.ident ≠ v.ident ∧ w.ident.fold = v.ident.fold := by
    simp only [List.mem_map, exists_exists_and_eq_and]
  rw [hmem, LiteralArm.Denotes, hother]
  exact ⟨fun ⟨hmem, hlowered, hexact⟩ => ⟨hmem, hlowered, hexact⟩,
    fun ⟨hmem, hlowered, hexact⟩ => ⟨hmem, hlowered, hexact⟩⟩

/-- For every parsed enum whose variants have no fields and have names of their own, and are
given no format and no naming convention: both implementations are emitted; what is
written for a variant is its name without the mark of a raw identifier; and that is parsed
as the variant just if it is read back, which those are that have no such mark and are
lowered at run time as they were before. -/
theorem fromStr_readsBack {source : Text} {decl : Decl} {variants : List Variant}
    {d d' : Derive} {support : Support} {s s' : Selection} (hd : find? "Display" = some d)
    (hd' : find? "FromStr" = some d') (hdecl : decl ∈ (parse source).file.decls)
    (hdata : decl.data = .enum variants) (hdistinct : (variants.map (·.ident)).Nodup)
    (hfields : ∀ v ∈ variants, v.fields.list = [])
    (hs : Selection.ofDecl decl d.spec = .ok s)
    (hs' : Selection.ofDecl decl d'.spec = .ok s') (hformat : s.container.format = none)
    (hformats : ∀ views, s.shape = .enum views → ∀ w ∈ views, w.options.format = none)
    (hrename : s'.container.renameAll = none) (lower : Text → Text) :
    ∃ e e' i i', d.run support decl = .ok e ∧ d'.run support decl = .ok e' ∧ e.impls = [i] ∧
      e'.impls = [i'] ∧ ∀ v ∈ variants,
        (∀ text, i.Writes v text ↔ text = plainName v.ident) ∧
        (i'.parsedBy? lower (plainName v.ident) = some (parsedAs v.ident) ↔
          ReadBack lower s'.variantsTakingPart v) ∧
        (lower (plainName v.ident) = (plainName v.ident).fold →
          (ReadBack lower s'.variantsTakingPart v ↔
            v ∈ s'.variantsTakingPart ∧ v.ident.startsWith "r#" = false)) := by
  cases hd
  cases hd'
  obtain ⟨-, views, hshape, rfl, -⟩ := Selection.enum_resolves hs hdata
  obtain ⟨-, views', hshape', hvariants, -⟩ := Selection.enum_resolves hs' hdata
  have hstyled := styled_of_parse hdecl
  have hfaithful := Selection.faithful_of_ofDecl hstyled hs hshape
  have hfaithful' := Selection.faithful_of_ofDecl hstyled hs' hshape'
  have hall {ws : List VariantView} (hws : ∀ w ∈ ws, w.Faithful)
      (heq : ws.map (·.variant) = views.map (·.variant)) : ∀ w ∈ ws, w.fields.all = [] :=
    fun w hw => List.length_eq_zero_iff.mp ((hws w hw).length_all.trans
      (List.length_eq_zero_iff.mpr (hfields _ (heq ▸ List.mem_map_of_mem hw))))
  have hnames : (views.map (·.name)).Nodup := by rwa [List.map_map] at hdistinct
  obtain ⟨i, hi, hwrites⟩ := display_ok "\x7b\x7d" hs rfl hshape hfaithful hnames
    (hall hfaithful rfl) hformat (hformats views hshape)
  obtain ⟨header, hi'⟩ := fromStr_ok support hs' hshape' (hall hfaithful' hvariants)
    hrename
  have hparts : s'.variantsTakingPart = (views'.filter (·.enabled)).map (·.variant) := by
    rw [Selection.variantsTakingPart, hshape']
  have hparsed : (views'.filter (·.enabled)).map (·.name) =
      s'.variantsTakingPart.map (·.ident) := by
    rw [hparts, List.map_map]
    rfl
  have hsub : s'.variantsTakingPart ⊆ views.map (·.variant) :=
    hparts ▸ hvariants ▸ List.map_subset _ (List.filter_subset_self _)
  have hnodup : (s'.variantsTakingPart.map (·.ident)).Nodup := by
    rw [← hparsed]
    rw [← hvariants, List.map_map] at hdistinct
    exact hdistinct.sublist (List.filter_sublist.map _)
  rw [hparsed] at hi'
  refine ⟨_, _, i, _, run_entry_of_expand hi, run_of_expand hi', rfl, rfl, fun v hv =>
    ⟨?_, ?_, readBack_iff⟩⟩
  · obtain ⟨w, hw, rfl⟩ := List.mem_map.mp hv
    exact hwrites w hw
  · rw [parsedBy?_anyCase header hnodup]
    exact denotes_iff hdistinct hsub hv

/-- A variant with a plain name is read back, and one with a raw identifier is not. -/
theorem fromStr_readsBack_raw : ∃ d d' decl e e' i i' v w, find? "Display" = some d ∧
    find? "FromStr" = some d' ∧ (parse "enum E \x7b Foo, r#type \x7d").file.decls = [decl] ∧
    d.run {} decl = .ok e ∧ d'.run {} decl = .ok e' ∧ e.impls = [i] ∧ e'.impls = [i'] ∧
    decl.data = .enum [v, w] ∧ i.Writes v "Foo" ∧
    i'.parsedBy? Text.fold "Foo" = some (parsedAs "Foo") ∧ i.Writes w "type" ∧
    i'.parsedBy? Text.fold "type" ≠ some (parsedAs "r#type") := by
  obtain ⟨d, d', decl, s, s', v, w, x, y, hd, hd', hdecls, hdata, hs, hs', hformat,
      hshape, hx, hy, hrename, hparts, hv, hw, hfields⟩ : ∃ d d' decl s s' v w,
      ∃ x y : VariantView, find? "Display" = some d ∧ find? "FromStr" = some d' ∧
      (parse "enum E \x7b Foo, r#type \x7d").file.decls = [decl] ∧
        decl.data = .enum [v, w] ∧
      Selection.ofDecl decl d.spec = .ok s ∧ Selection.ofDecl decl d'.spec = .ok s' ∧
      s.container.format = none ∧ s.shape = .enum [x, y] ∧ x.options.format = none ∧
      y.options.format = none ∧ s'.container.renameAll = none ∧
        s'.variantsTakingPart = [v, w] ∧
      v.ident = "Foo" ∧ w.ident = "r#type" ∧ v.fields.list = [] ∧ w.fields.list = [] :=
    ⟨_, _, _, _, _, _, _, _, _, rfl, rfl, rfl, rfl, rfl, rfl, rfl, rfl, rfl, rfl, rfl,
      rfl, rfl, rfl, rfl, rfl⟩
  have hfields' : ∀ u ∈ [v, w], u.fields.list = [] := by
    simp only [List.forall_mem_cons]
    exact ⟨hfields.1, hfields.2, List.forall_mem_nil _⟩
  have hformats : ∀ views, s.shape = .enum views →
      ∀ u ∈ views, u.options.format = none := by
    rintro views hviews
    cases hshape.symm.trans hviews
    simp only [List.forall_mem_cons]
    exact ⟨hx, hy, List.forall_mem_nil _⟩
  obtain ⟨e, e', i, i', he, he', hi, hi', hall⟩ := fromStr_readsBack hd hd'
    (hdecls ▸ List.mem_singleton_self decl) hdata
    (by rw [List.map_cons, List.map_cons, hv, hw]; decide) hfields' hs hs' hformat
      hformats hrename
    Text.fold
  obtain ⟨hwrites, hreads, hplain⟩ := hall v (List.mem_cons_self ..)
  obtain ⟨hwrites', hreads', hplain'⟩ :=
    hall w (List.mem_cons_of_mem _ (List.mem_cons_self ..))
  rw [hv] at hwrites hreads hplain
  rw [hw] at hwrites' hreads' hplain'
  refine ⟨d, d', decl, e, e', i, i', v, w, hd, hd', hdecls, he, he', hi, hi', hdata,
    (hwrites _).mpr rfl, hreads.mpr ((hplain rfl).mpr ⟨?_, rfl⟩),
    (hwrites' _).mpr rfl, fun h => ?_⟩
  · rw [hparts]
    exact List.mem_cons_self ..
  · exact Bool.noConfusion ((hplain' rfl).mp (hreads'.mp h)).2

end Derive

end Deriver
