import Deriver.Proofs.Derive.Coherence

/-!
# Names of functions for variants

Main statement: `accessor_names`. A function for a variant is called by the variant's name
in snake case, with an ending that says in which form the value is taken. Neither snake
case nor the endings keep names apart: `Family.Clash` says which two variants get functions
of one name, and the names of an implementation are distinct just when no two variants that
take part clash.
-/

namespace Deriver

/-- The name of the function that a head declares. -/
def methodName? (head : Text) : Option Text :=
  ((head.dropStart? "pub fn ").or (head.dropStart? "pub const fn ")).map
    (·.takeWhile (· ≠ 40))

/-- The name of the function that a piece of code declares, if it is one. -/
def Code.method? : Code → Option Text
  | .block head _ => methodName? head
  | _ => none

/-- The names of the functions in an implementation, in order. -/
def Impl.methods : Impl → List Text
  | .block _ body => body.filterMap Code.method?
  | .marker _ => []

namespace Derive

/-- The derives that emit functions for variants. -/
inductive Family where
  /-- a function that asks for the variant -/
  | test
  /-- functions that take the variant apart -/
  | access (kind : Accessor)
  deriving DecidableEq, Repr

namespace Family

/-- The derive of a family. -/
def derive : Family → Text
  | .test => "IsVariant"
  | .access .asVariant => "AsVariant"
  | .access .unwrap => "Unwrap"
  | .access .tryInto => "TryIntoVariant"
  | .access .tryUnwrap => "TryUnwrap"

/-- What the names of functions begin with. -/
def verb : Family → Text
  | .test => "is_"
  | .access kind => kind.verb

/-- The forms in which a variant has functions. -/
def forms (f : Family) (v : VariantView) : List RefForm :=
  match f with
  | .test => [.owned]
  | .access _ => v.forms

/-- How the function of a variant in a form is called. -/
def methodName (f : Family) (v : VariantView) (form : RefForm) : Text :=
  Text.concat [f.verb, Casing.snakeCase v.name, form.ending]

/-- How the functions of variants are called, in order. -/
def methodNames (f : Family) (vs : List VariantView) : List Text :=
  vs.flatMap fun v => (f.forms v).map (f.methodName v)

/-- Whether the name of `w` in snake case is that of `v` with the ending of one of its forms
behind it, and `w` is taken by value. -/
def Shadows (f : Family) (v w : VariantView) : Prop :=
  .owned ∈ f.forms w ∧ ∃ form ∈ f.forms v, form ≠ .owned ∧
    Casing.snakeCase w.name = Casing.snakeCase v.name ++ form.ending

/-- Whether two variants get functions of one name: their names agree in snake case and they
have a form in common, or one of them shadows the other. -/
def Clash (f : Family) (v w : VariantView) : Prop :=
  (Casing.snakeCase v.name = Casing.snakeCase w.name ∧
    ∃ form ∈ f.forms v, form ∈ f.forms w) ∨
    f.Shadows v w ∨ f.Shadows w v

instance (f : Family) (v w : VariantView) : Decidable (f.Shadows v w) :=
  inferInstanceAs (Decidable (_ ∧ _))

instance (f : Family) (v w : VariantView) : Decidable (f.Clash v w) :=
  inferInstanceAs (Decidable (_ ∨ _))

end Family

/-! ## Names that are read off -/

theorem methodName?_head {front name : Text}
    (hfront : front = "pub fn " ∨ front = "pub const fn ")
    (hname : name.Wordy) (rest : List Text) :
    methodName? (Text.concat (front :: name :: "(" :: rest)) = some name := by
  have hhead : Text.concat (front :: name :: "(" :: rest) =
      front ++ (name ++ 40 :: rest.flatten) := by
    rw [Text.concat, List.flatten_cons, List.flatten_cons]
    rfl
  have htake : (name ++ 40 :: rest.flatten).takeWhile (· ≠ 40) = name := by
    rw [List.takeWhile_append_of_pos, List.takeWhile_cons_of_neg (by decide),
      List.append_nil]
    intro b hb
    rw [decide_eq_true_eq]
    rintro rfl
    exact absurd (hname 40 hb) (by decide)
  rw [hhead]
  rcases hfront with rfl | rfl <;> exact congrArg some htake

/-- The blank lines between groups are nothing to what passes over blank lines. -/
theorem flatMap_spaced {β : Type} {f : Code → List β} (hblank : f .blank = [])
    (groups : List (List Code)) :
    (spaced groups).flatMap f = groups.flatMap (·.flatMap f) := by
  induction groups with
  | nil => rfl
  | cons g gs ih =>
      cases gs with
      | nil => simp [spaced, List.intercalate]
      | cons g' gs =>
          have hcons : spaced (g :: g' :: gs) = g ++ .blank :: spaced (g' :: gs) := rfl
          rw [hcons, List.flatMap_append, List.flatMap_cons, hblank, ih, List.nil_append]
          rfl

theorem filterMap_spaced (groups : List (List Code)) :
    (spaced groups).filterMap Code.method? = groups.flatMap (·.filterMap Code.method?) := by
  simp only [List.filterMap_eq_flatMap_toList]
  exact flatMap_spaced rfl groups

section

variable {v : VariantView}

theorem wordy_methodName (hname : IsIdent v.name) (f : Family) (form : RefForm) :
    (f.methodName v form).Wordy := by
  have hverb : f.verb.Wordy := List.all_eq_true.mp (by cases f with
    | test => rfl
    | access kind => cases kind <;> rfl)
  have hending : form.ending.Wordy := List.all_eq_true.mp (by cases form <;> rfl)
  have hsnake := Casing.wordy_snakeCase hname.wordy
  rw [Family.methodName, Text.concat, List.flatten_cons, List.flatten_cons,
    List.flatten_cons, List.flatten_nil, List.append_nil]
  exact Text.wordy_append.mpr ⟨hverb, Text.wordy_append.mpr ⟨hsnake, hending⟩⟩

theorem methods_accessorFn (hname : IsIdent v.name) (support : Support) (kind : Accessor)
    (owner : Text) (all : List VariantView) (form : RefForm) :
    ((accessorFn support kind owner all v form).code form).filterMap Code.method? =
      [(Family.access kind).methodName v form] := by
  have hfn : (accessorFn support kind owner all v form).name =
      (Family.access kind).methodName v form := by
    cases kind <;> rfl
  have hline (ts : List Text) : (ts.map Code.line).filterMap Code.method? = [] := by
    rw [List.filterMap_map]
    exact List.filterMap_eq_nil_iff.mpr fun _ _ => rfl
  have hdoc (ts : List Text) :
      (ts.map fun d => Code.line ("/// " ++ d)).filterMap Code.method? = [] := by
    rw [List.filterMap_map]
    exact List.filterMap_eq_nil_iff.mpr fun _ _ => rfl
  rw [AccessorFn.code, List.filterMap_append, List.filterMap_append, hdoc, hline, hfn]
  exact congrArg Option.toList
    (methodName?_head (.inl rfl) (wordy_methodName hname _ form) _)

theorem methods_isVariantFn (hname : IsIdent v.name) :
    (isVariantFn v).filterMap Code.method? = [Family.test.methodName v .owned] := by
  have hhead : Text.concat ["pub const fn is_", Casing.snakeCase v.name,
      "(&self) -> bool"] =
      Text.concat ["pub const fn ", Family.test.methodName v .owned, "(",
        "&self) -> bool"] := by
    simp only [Family.methodName, Text.concat, List.flatten_cons, List.flatten_nil,
      RefForm.ending, List.append_nil, List.append_assoc]
    rfl
  unfold isVariantFn
  rw [hhead]
  exact congrArg Option.toList
    (methodName?_head (.inr rfl) (wordy_methodName hname _ .owned) _)

end

/-! ## Names that agree -/

section

variable {v w : VariantView}

/-- Two names in snake case with endings agree if they are the same, or if one of them is
the other with an ending and has none of its own. -/
theorem append_ending_eq_iff {s t : Text} {form form' : RefForm} :
    s ++ form.ending = t ++ form'.ending ↔ (form = form' ∧ s = t) ∨
      (form = .owned ∧ form' ≠ .owned ∧ s = t ++ form'.ending) ∨
      (form' = .owned ∧ form ≠ .owned ∧ t = s ++ form.ending) := by
  have hlast {x y : RefForm} (hx : x ≠ .owned) (hy : y ≠ .owned) (hne : x ≠ y)
      (s t : Text) :
      s ++ x.ending ≠ t ++ y.ending := by
    intro heq
    have hlen : x.ending.length = y.ending.length := by
      cases x <;> cases y <;> first | rfl | contradiction
    have hend := (List.append_inj' heq hlen).2
    revert hend
    cases x <;> cases y <;> first | contradiction | decide
  constructor
  · intro heq
    by_cases hform : form = .owned
    · subst hform
      rw [RefForm.ending, List.append_nil] at heq
      by_cases hform' : form' = .owned
      · subst hform'
        exact .inl ⟨rfl, heq.trans (List.append_nil t)⟩
      · exact .inr (.inl ⟨rfl, hform', heq⟩)
    · by_cases hform' : form' = .owned
      · subst hform'
        exact .inr (.inr ⟨rfl, hform, ((List.append_nil t).symm.trans heq.symm)⟩)
      · by_cases hsame : form = form'
        · subst hsame
          exact .inl ⟨rfl, List.append_cancel_right heq⟩
        · exact absurd heq (hlast hform hform' hsame s t)
  · rintro (⟨rfl, rfl⟩ | ⟨rfl, -, rfl⟩ | ⟨rfl, -, rfl⟩)
    · rfl
    · exact List.append_nil _
    · exact (List.append_nil _).symm

theorem Family.methodName_eq_iff {f : Family} {form form' : RefForm} :
    f.methodName v form = f.methodName w form' ↔
      Casing.snakeCase v.name ++ form.ending = Casing.snakeCase w.name ++ form'.ending := by
  simp only [methodName, Text.concat, List.flatten_cons, List.flatten_nil, List.append_nil,
    List.append_cancel_left_eq]

theorem Family.clash_iff {f : Family} : f.Clash v w ↔
    ∃ form ∈ f.forms v, ∃ form' ∈ f.forms w, f.methodName v form =
    f.methodName w form' := by
  simp only [methodName_eq_iff, append_ending_eq_iff]
  constructor
  · rintro (⟨heq, form, hv, hw⟩ | ⟨hw, form, hv, hne, heq⟩ | ⟨hv, form, hw, hne, heq⟩)
    · exact ⟨form, hv, form, hw, .inl ⟨rfl, heq⟩⟩
    · exact ⟨form, hv, .owned, hw, .inr (.inr ⟨rfl, hne, heq⟩)⟩
    · exact ⟨.owned, hv, form, hw, .inr (.inl ⟨rfl, hne, heq⟩)⟩
  · rintro ⟨form, hv, form', hw, ⟨rfl, heq⟩ | ⟨rfl, hne, heq⟩ | ⟨rfl, hne, heq⟩⟩
    · exact .inl ⟨heq, form, hv, hw⟩
    · exact .inr (.inr ⟨hv, form', hw, hne, heq⟩)
    · exact .inr (.inl ⟨hw, form, hv, hne, heq⟩)

theorem Family.nodup_forms (f : Family) (v : VariantView) : (f.forms v).Nodup := by
  cases f with
  | test => exact List.nodup_singleton _
  | access kind => exact nodup_ofSet _

/-- The names of functions are distinct just when no two variants clash. -/
theorem Family.nodup_methodNames (f : Family) (vs : List VariantView) :
    (f.methodNames vs).Nodup ↔ vs.Pairwise fun v w => ¬ f.Clash v w := by
  have hown (v : VariantView) : ((f.forms v).map (f.methodName v)).Nodup := by
    refine (f.nodup_forms v).map_on fun form _ form' _ heq => ?_
    have hend := List.append_cancel_left (methodName_eq_iff.mp heq)
    revert hend
    cases form <;> cases form' <;> decide
  rw [methodNames, List.nodup_flatMap, and_iff_right fun v _ => hown v]
  refine List.Pairwise.iff fun v w => ?_
  change List.Disjoint _ _ ↔ _
  rw [clash_iff, List.disjoint_left]
  constructor
  · rintro hdisjoint ⟨form, hv, form', hw, heq⟩
    exact hdisjoint (List.mem_map_of_mem hv) (heq ▸ List.mem_map_of_mem hw)
  · intro hclash name hname hname'
    obtain ⟨form, hv, rfl⟩ := List.mem_map.mp hname
    obtain ⟨form', hw, heq⟩ := List.mem_map.mp hname'
    exact hclash ⟨form, hv, form', hw, heq.symm⟩

end

/-! ## All families -/

/-- Whether an implementation has just the functions of a family for the variants of a
declaration that take part. -/
def Family.Emits (f : Family) (decl : Decl) (spec : TraitSpec) (impls : List Impl) : Prop :=
  ∃ s variants i, Selection.ofDecl decl spec = .ok s ∧ s.shape = .enum variants ∧
    impls = [i] ∧ i.methods = f.methodNames (variants.filter (·.enabled))

section

variable {decl : Decl} {spec : TraitSpec} {impls : List Impl}

theorem isIdent_of_selected {s : Selection} {variants : List VariantView}
    (hnamed : decl.Named)
    (hs : Selection.ofDecl decl spec = .ok s) (hshape : s.shape = .enum variants) :
    ∀ v ∈ variants.filter (·.enabled), IsIdent v.name := by
  intro v hv
  have hshapes := Selection.named_of_ofDecl hnamed.data hs
  rw [hshape] at hshapes
  exact (hshapes v (List.mem_of_mem_filter hv)).1

theorem emits_isVariant (hnamed : decl.Named) (h : isVariant decl spec = .ok impls) :
    Family.test.Emits decl spec impls := by
  obtain ⟨⟨s, variants⟩, hselect, h⟩ := of_bind_ok h
  cases h
  obtain ⟨hs, hshape⟩ := of_selectEnum_ok hselect
  refine ⟨s, variants, _, hs, hshape, rfl, ?_⟩
  rw [Impl.methods, filterMap_spaced, List.flatMap_map, Family.methodNames]
  exact List.flatMap_congr fun v hv =>
    methods_isVariantFn (isIdent_of_selected hnamed hs hshape v hv)

theorem emits_variantAccessors {kind : Accessor} {support : Support} (hnamed : decl.Named)
    (h : variantAccessors kind support decl spec = .ok impls) :
    (Family.access kind).Emits decl spec impls := by
  obtain ⟨⟨s, variants⟩, hselect, h⟩ := of_bind_ok h
  obtain ⟨hs, hshape⟩ := of_selectEnum_ok hselect
  dsimp only at h
  split at h
  · cases h
  · cases h
    refine ⟨s, variants, _, hs, hshape, rfl, ?_⟩
    rw [Impl.methods, filterMap_spaced, List.flatMap_assoc, Family.methodNames]
    refine List.flatMap_congr fun v hv => ?_
    have hname := isIdent_of_selected hnamed hs hshape v hv
    rw [List.flatMap_map, List.map_eq_flatMap]
    exact List.flatMap_congr fun form _ => methods_accessorFn hname support kind _ _ form

end

/-- The functions for variants of a parsed enum stand in one implementation, one for each
variant that takes part and each of its forms. No two of them are called the same just when
no two of the variants clash. -/
theorem accessor_names {f : Family} {source : Text} {decl : Decl} {d : Derive}
    {support : Support}
    {e : Expansion} (hd : find? f.derive = some d)
    (hdecl : decl ∈ (parse source).file.decls) (h : d.run support decl = .ok e) :
    ∃ s variants i, Selection.ofDecl decl d.spec = .ok s ∧ s.shape = .enum variants ∧
      e.impls = [i] ∧ i.methods = f.methodNames (variants.filter (·.enabled)) ∧
      (i.methods.Nodup ↔ (variants.filter (·.enabled)).Pairwise fun v w =>
      ¬ f.Clash v w) := by
  have hnamed := named_of_parse hdecl
  have hemits : f.Emits decl d.spec e.impls := by
    rcases f with _ | (_ | _ | _ | _)
    all_goals cases hd
    · exact emits_isVariant hnamed (of_run_entry h)
    all_goals exact emits_variantAccessors hnamed (of_run_entry h)
  obtain ⟨s, variants, i, hs, hshape, hi, hmethods⟩ := hemits
  exact ⟨s, variants, i, hs, hshape, hi, hmethods, hmethods ▸ f.nodup_methodNames _⟩

/-- Two variants whose names differ in case alone. -/
theorem accessor_names_merged : ∃ d decl e, ∃ variants : List VariantView, ∃ i,
    find? Family.test.derive = some d ∧
    (parse "enum E { HttpError, HTTPError }").file.decls = [decl] ∧ d.run {} decl = .ok e ∧
    (variants.map (·.name)).Nodup ∧ e.impls = [i] ∧
    i.methods = Family.test.methodNames (variants.filter (·.enabled)) ∧
    ¬ i.methods.Nodup := by
  obtain ⟨d, decl, e, s, variants, hd, hdecls, he, hs, hshape, hdistinct, hclash⟩ :
      ∃ d decl e s, ∃ variants : List VariantView, find? Family.test.derive = some d ∧
      (parse "enum E { HttpError, HTTPError }").file.decls = [decl] ∧
        d.run {} decl = .ok e ∧
      Selection.ofDecl decl d.spec = .ok s ∧ s.shape = .enum variants ∧
      (variants.map (·.name)).Nodup ∧
      ¬ (variants.filter (·.enabled)).Pairwise fun v w => ¬ Family.test.Clash v w :=
    ⟨_, _, _, _, _, rfl, rfl, rfl, rfl, rfl, by decide +kernel, by decide +kernel⟩
  obtain ⟨s', variants', i, hs', hshape', hi, hmethods, hiff⟩ :=
    accessor_names hd (hdecls ▸ List.mem_singleton_self decl) he
  cases hs.symm.trans hs'
  cases hshape.symm.trans hshape'
  exact ⟨d, decl, e, variants, i, hd, hdecls, he, hdistinct, hi, hmethods,
    fun hnodup => hclash (hiff.mp hnodup)⟩

end Derive

end Deriver
