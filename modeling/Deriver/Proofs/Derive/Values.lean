import Deriver.Derive.Catalogue
import Deriver.Proofs.Bounds.Header
import Deriver.Proofs.Select.Views
import Mathlib.Data.List.Forall2

/-!
# Values built from the fields of a struct

Main statement: `built_values`. Six families of derives build a value with an expression
for each field. In three of them a field that does not take part is left its default or
what it holds, and every type that is worked on has its predicate; in the other three
every field is given what the derive makes of it, so the same goes for them only if all
fields take part.
-/

namespace Deriver.Derive

/-! ## Families -/

/-- The derives that build a value from the fields of a struct. -/
inductive Maker where
  | add
  | scale
  | negate
  | fold
  | parse
  | convert

/-- What a field of the value is given. -/
inductive Share where
  /-- what the derive makes of the field -/
  | result
  /-- the default of its type -/
  | default
  /-- what it holds already -/
  | kept

namespace Maker

/-- The derives of a family. -/
def names : Maker → List Text
  | .add => ["Add", "Sub", "BitAnd", "BitOr", "BitXor"]
  | .scale => ["Mul", "Div", "Rem", "Shl", "Shr"]
  | .negate => ["Neg", "Not"]
  | .fold => ["Sum", "Product"]
  | .parse => ["FromStr"]
  | .convert => ["From"]

/-- Whether a family passes over the fields that do not take part. -/
def Sparing : Maker → Prop
  | .add | .scale | .convert => True
  | .negate | .fold | .parse => False

/-- What there is an implementation for: every derive has one of its own, and a
conversion has one for each extra type. -/
def origins (s : Selection) : Maker → List (Option Text)
  | .convert => none :: s.container.types.map some
  | _ => [none]

/-- What a field is given. -/
def share (m : Maker) (f : FieldView) : Share :=
  match m with
  | .add | .convert => if f.enabled then .result else .default
  | .scale => if f.enabled then .result else .kept
  | .negate | .fold | .parse => .result

section

variable (spec : TraitSpec) (fields : FieldsView) (origin : Option Text)

/-- The trait that is implemented. -/
def trait : Maker → Text
  | .scale => generic spec.path scalar
  | .convert => generic spec.path (origin.getD (tupleOf (fields.types.map Ty.render)))
  | _ => spec.path

/-- What a derive makes of a field: the operator applied to it, what an empty iterator
gives for it, the value that was parsed, or the component that it is converted from. -/
def result : Maker → FieldView → Text
  | .add, f => apply spec [f.member, f.of "rhs"]
  | .scale, f => apply spec [f.member, "rhs"]
  | .negate, f => apply spec [f.member]
  | .fold, f =>
      Text.concat ["::core::iter::empty::<", f.ty.render, ">().", spec.method, "()"]
  | .parse, _ => "v"
  | .convert, f =>
      match origin with
      | some ty =>
          Text.concat [casted f.ty.render (generic spec.path ty), "::from(original)"]
      | none =>
          if fields.enabled.length = 1 then "original"
          else "original." ++ Text.ofNat (fields.rank f)

/-- The expression that a field is given. -/
def given (m : Maker) (f : FieldView) : Text :=
  match m.share f with
  | .result => m.result spec fields origin f
  | .default => Core.default ++ "::default()"
  | .kept => f.member

/-- What stands in front of the value. Only where a field is parsed is a name bound
there. -/
def front : Maker → Text
  | .fold => "iter.fold("
  | .parse => Text.concat
      ((fields.enabled.map fun f => casted f.ty.render spec.path) ++
        [("::from_str(s).map(|v| " : Text)])
  | _ => []

/-- The bound that the result of a derive asks of a type. -/
def bound : Maker → Ty → Option Text
  | .add, t | .negate, t => some (closedUnder spec.path t)
  | .scale, t => some (Text.concat [spec.path, "<", scalar, ", Output = ", t.render, ">"])
  | .fold, _ | .parse, _ => some spec.path
  | .convert, _ => origin.map (generic spec.path)

/-- The bound that what a field is given asks of its type. -/
def asks (m : Maker) (f : FieldView) : Option Text :=
  match m.share f with
  | .result => m.bound spec origin f.ty
  | .default => some Core.default
  | .kept => none

end

/-- Whether an implementation with the generics `g` builds its value with what a family
gives to each field. -/
def Builds (m : Maker) (s : Selection) (fields : FieldsView) (origin : Option Text)
    (g : ImplGenerics) (i : Impl) : Prop :=
  ∃ items signature rest, i = .block (g.header (m.trait s.spec fields origin) s.decl.name)
    (items ++ [.block signature [.line (Text.concat [m.front s.spec fields,
      (fields.construct "Self" (m.given s.spec fields origin)).render, rest])]])

/-- Whether the results go to the fields that take part and to no others, and every type
that something is asked of has its predicate. -/
structure Sound (m : Maker) (s : Selection) (fields : FieldsView) (origin : Option Text)
    (g : ImplGenerics) : Prop where
  results : ∀ f ∈ fields.all, m.share f = .result ↔ f.enabled = true
  bounded : ∀ f ∈ fields.all,
    f.ty.NeedsBound (fields.all.map (·.ty)) s.self s.decl.generics →
      ∀ b ∈ m.asks s.spec origin f, f.ty.predicate b ∈ g.predicates

/-! ## What makes a family sound -/

variable {m : Maker} {s : Selection} {fields : FieldsView} {origin : Option Text}
  {g : ImplGenerics} {f : FieldView}

theorem share_of_enabled (hf : f.enabled = true) : m.share f = .result := by
  cases m <;> simp [share, hf]

theorem share_of_sparing (hm : m.Sparing) (hf : f.enabled = false) :
    m.share f ≠ .result := by
  cases m <;> simp_all [share, Sparing]

theorem share_of_not_sparing (hm : ¬ m.Sparing) : m.share f = .result := by
  cases m <;> simp_all [share, Sparing]

theorem mem_enabled : f ∈ fields.enabled ↔ f ∈ fields.all ∧ f.enabled = true :=
  List.mem_filter

theorem mem_skipped : f ∈ fields.skipped ↔ f ∈ fields.all ∧ f.enabled = false := by
  rw [FieldsView.skipped, List.mem_filter, Bool.not_eq_true']

/-- A family is sound just when it is sparing or has nothing to spare, if it has the
predicates for the fields that take part and for those that get their default. -/
theorem sound_iff
    (hresult : ∀ f ∈ fields.enabled,
      f.ty.NeedsBound fields.types s.self s.decl.generics →
        ∀ b ∈ m.bound s.spec origin f.ty, f.ty.predicate b ∈ g.predicates)
    (hdefault : ∀ f ∈ fields.skipped, m.share f = .default →
      f.ty.NeedsBound (fields.skipped.map (·.ty)) s.self s.decl.generics →
        f.ty.predicate Core.default ∈ g.predicates) :
    m.Sound s fields origin g ↔ m.Sparing ∨ fields.skipped = [] := by
  have hbounded (h : m.Sparing ∨ fields.skipped = []) (f) (hf : f ∈ fields.all)
      (hneeds : f.ty.NeedsBound (fields.all.map (·.ty)) s.self s.decl.generics) :
      ∀ b ∈ m.asks s.spec origin f, f.ty.predicate b ∈ g.predicates := by
    intro b hb
    have hnarrow {fs : List FieldView} (hfs : fs ⊆ fields.all) :
        f.ty.NeedsBound (fs.map (·.ty)) s.self s.decl.generics :=
      fun u hu => hneeds u (List.map_subset _ hfs hu)
    unfold asks at hb
    cases henabled : f.enabled with
    | true =>
        rw [share_of_enabled henabled] at hb
        exact hresult f (mem_enabled.mpr ⟨hf, henabled⟩)
          (hnarrow fun e he => (mem_enabled.mp he).1) b hb
    | false =>
        have hskipped := mem_skipped.mpr ⟨hf, henabled⟩
        cases hshare : m.share f with
        | result =>
            rcases h with h | h
            · exact absurd hshare (share_of_sparing h henabled)
            · rw [h] at hskipped
              cases hskipped
        | default =>
            rw [hshare] at hb
            cases hb
            exact hdefault f hskipped hshare (hnarrow fun e he => (mem_skipped.mp he).1)
        | kept =>
            rw [hshare] at hb
            cases hb
  constructor
  · intro h
    by_cases hm : m.Sparing
    · exact .inl hm
    · refine .inr (List.eq_nil_iff_forall_not_mem.mpr fun f hf => ?_)
      obtain ⟨hall, hdisabled⟩ := mem_skipped.mp hf
      have henabled := (h.results f hall).mp (share_of_not_sparing hm)
      rw [hdisabled] at henabled
      cases henabled
  · intro h
    refine ⟨fun f hf => ⟨fun hshare => ?_, share_of_enabled⟩, hbounded h⟩
    rcases h with h | h
    · by_contra hdisabled
      exact share_of_sparing h (Bool.not_eq_true _ ▸ hdisabled) hshare
    · by_contra hdisabled
      have hskipped := mem_skipped.mpr ⟨hf, Bool.not_eq_true _ ▸ hdisabled⟩
      rw [h] at hskipped
      cases hskipped

/-- Whether an implementation is what a family makes of the fields, and sound just when
the family is sparing or has nothing to spare. -/
def Makes (m : Maker) (s : Selection) (fields : FieldsView) (i : Impl)
    (origin : Option Text) : Prop :=
  ∃ g : ImplGenerics, g.declared = s.decl.generics ∧ m.Builds s fields origin g i ∧
    (m.Sound s fields origin g ↔ m.Sparing ∨ fields.skipped = [])

/-- Whether implementations are what a family makes of the fields of a struct. -/
def Expands (m : Maker) (decl : Decl) (spec : TraitSpec) (impls : List Impl) : Prop :=
  ∃ s fields, Selection.ofDecl decl spec = .ok s ∧ s.shape = .struct fields ∧
    List.Forall₂ (m.Makes s fields) impls (m.origins s)

end Maker

/-! ## Headers -/

theorem closedUnder_congr {path : Text} {t u : Ty} (h : u.render = t.render) :
    closedUnder path u = closedUnder path t := by
  rw [closedUnder, closedUnder, h]

theorem foldl_addBound (g : ImplGenerics) (ts : List Ty) (bound : Ty → Text) :
    ts.foldl (fun g t => g.addBound t (bound t)) g =
      (ts.map fun t => t.predicate (bound t)).foldl .addPredicate g := by
  rw [List.foldl_map]
  rfl

theorem declared_scalarBounds (g : ImplGenerics) (fields : FieldsView) (bound : Ty → Text) :
    (scalarBounds g fields bound).declared = g.declared := by
  unfold scalarBounds
  dsimp only
  rw [foldl_addBound]
  split
  · rw [ImplGenerics.declared_addParamBound, ImplGenerics.declared_foldl_addPredicate,
      ImplGenerics.declared_addParam]
  · rw [ImplGenerics.declared_foldl_addPredicate, ImplGenerics.declared_addParam]

/-- Every type that is worked on with a scalar operand has its predicate. -/
theorem mem_scalarBounds {g : ImplGenerics} {fields : FieldsView}
    {bound : Ty → Text} {t : Ty}
    (hbound : ∀ u, u.render = t.render → bound u = bound t) (ht : t ∈ fields.types) :
    t.predicate (bound t) ∈ (scalarBounds g fields bound).predicates := by
  obtain ⟨u, hu, hsame⟩ := Ty.exists_distinct ht
  have hmem : t.predicate (bound t) ∈
      (Ty.distinct fields.types).map fun t => t.predicate (bound t) := by
    refine List.mem_map.mpr ⟨u, hu, ?_⟩
    rw [hbound u hsame, Ty.predicate, Ty.predicate, hsame]
  have hfold :=
      (ImplGenerics.mem_foldl_addPredicate (g := g.addParam scalar) _).mpr (.inr hmem)
  unfold scalarBounds
  dsimp only
  rw [foldl_addBound]
  split
  · exact ImplGenerics.mem_addPredicate.mpr (.inl hfold)
  · exact hfold

/-! ## The families one by one -/

section

variable {s : Selection} {fields : FieldsView}

theorem mem_types {f : FieldView} (hf : f ∈ fields.enabled) : f.ty ∈ fields.types :=
  List.mem_map_of_mem hf

theorem builds_of {m : Maker} {origin : Option Text} {g : ImplGenerics} {i : Impl}
    {expr : FieldView → Text} (items : List Code) (signature rest : Text)
    (hi : i = .block (g.header (m.trait s.spec fields origin) s.decl.name)
      (items ++ [.block signature
        [.line (m.front s.spec fields ++
        ((fields.construct "Self" expr).render ++ rest))]]))
    (hexpr : ∀ f, expr f = m.given s.spec fields origin f) :
    m.Builds s fields origin g i := by
  have hgiven : expr = m.given s.spec fields origin := funext hexpr
  refine ⟨items, signature, rest, ?_⟩
  rw [hi, hgiven]
  simp [Text.concat]

theorem builds_of_plain {m : Maker} {origin : Option Text} {g : ImplGenerics} {i : Impl}
    {expr : FieldView → Text} (items : List Code) (signature : Text)
    (hfront : m.front s.spec fields = [])
    (hi : i = .block (g.header (m.trait s.spec fields origin) s.decl.name)
      (items ++ [.block signature [.line (fields.construct "Self" expr).render]]))
    (hexpr : ∀ f, expr f = m.given s.spec fields origin f) :
    m.Builds s fields origin g i := by
  refine builds_of items signature [] ?_ hexpr
  rw [hi, hfront, List.nil_append, List.append_nil]

theorem of_selectFields_ok {decl : Decl} {spec : TraitSpec}
    (h : selectFields decl spec = .ok (s, fields)) :
    Selection.ofDecl decl spec = .ok s ∧ s.shape = .struct fields := by
  unfold selectFields at h
  obtain ⟨⟨s', fields'⟩, hstruct, h⟩ := of_bind_ok h
  obtain ⟨some, hsome, h⟩ := of_bind_ok h
  cases h
  refine ⟨?_, Selection.shape_of_someFields hsome⟩
  unfold selectStruct at hstruct
  dsimp only at hstruct
  split at hstruct
  · cases hstruct
  · obtain ⟨s', hs, hstruct⟩ := of_bind_ok hstruct
    obtain ⟨_, -, hstruct⟩ := of_bind_ok hstruct
    cases hstruct
    exact hs

variable {decl : Decl} {spec : TraitSpec} {support : Support} {impls : List Impl}

theorem expands_add (hdecl : decl.isEnum = false)
    (h : addLike support decl spec = .ok impls) : Maker.add.Expands decl spec impls := by
  unfold addLike at h
  obtain ⟨s, hs, h⟩ := of_bind_ok h
  obtain ⟨_, hshape⟩ := Selection.struct_of_ofDecl hs hdecl
  rw [hshape] at h
  obtain ⟨fields, hsome, h⟩ := of_bind_ok h
  cases h
  refine ⟨s, fields, hs, Selection.shape_of_someFields hsome,
    .cons ⟨_, ?_, builds_of_plain [_, _, _] _ rfl rfl ?_,
      Maker.sound_iff (fun f hf hneeds b hb => ?_) fun f hf _ hneeds => ?_⟩ .nil⟩
  · rw [ImplGenerics.declared_addFieldBounds, ImplGenerics.declared_addFieldBounds]
    rfl
  · intro f
    cases hf : f.enabled <;> simp [Maker.given, Maker.share, Maker.result, hf]
  · cases hb
    exact ImplGenerics.subset_addFieldBounds _ _ _ <|
      ImplGenerics.predicate_mem_addFieldBounds (fun _ => closedUnder_congr)
        (mem_types hf) hneeds
  · refine ImplGenerics.predicate_mem_addFieldBounds (fun _ _ => rfl)
      (List.mem_map_of_mem hf) ?_
    rw [ImplGenerics.declared_addFieldBounds]
    exact hneeds

theorem expands_scale (h : mulLike decl spec = .ok impls) :
    Maker.scale.Expands decl spec impls := by
  unfold mulLike at h
  obtain ⟨⟨s, fields⟩, hselect, h⟩ := of_bind_ok h
  obtain ⟨hs, hshape⟩ := of_selectFields_ok hselect
  obtain ⟨rfl, rfl⟩ := Selection.of_ofDecl hs
  cases h
  refine ⟨s, fields, hs, hshape,
    .cons ⟨_, ?_, builds_of_plain [_, _, _] _ rfl rfl ?_,
      Maker.sound_iff (fun f hf _ b hb => ?_) fun f hf hshare _ => ?_⟩ .nil⟩
  · rw [declared_scalarBounds]
    rfl
  · intro f
    cases hf : f.enabled <;> simp [Maker.given, Maker.share, Maker.result, hf]
  · cases hb
    refine mem_scalarBounds (fun u hsame => ?_) (mem_types hf)
    rw [hsame]
  · simp [Maker.share, (Maker.mem_skipped.mp hf).2] at hshare

theorem expands_negate (hdecl : decl.isEnum = false)
    (h : notLike support decl spec = .ok impls) :
    Maker.negate.Expands decl spec impls := by
  unfold notLike at h
  obtain ⟨s, hs, h⟩ := of_bind_ok h
  obtain ⟨rfl, rfl⟩ := Selection.of_ofDecl hs
  obtain ⟨_, hshape⟩ := Selection.struct_of_ofDecl hs hdecl
  dsimp only at h
  rw [hshape] at h
  obtain ⟨fields, hsome, h⟩ := of_bind_ok h
  cases h
  refine ⟨s, fields, hs, Selection.shape_of_someFields hsome,
    .cons ⟨_, ?_, builds_of_plain [_, _, _] _ rfl rfl fun _ => rfl,
      Maker.sound_iff (fun f hf hneeds b hb => ?_) fun f hf hshare _ => ?_⟩ .nil⟩
  · rw [ImplGenerics.declared_addFieldBounds]
    rfl
  · cases hb
    exact ImplGenerics.predicate_mem_addFieldBounds (fun _ => closedUnder_congr)
      (mem_types hf)
      hneeds
  · cases hshare

theorem expands_fold {path method : Text} (h : fold path method decl spec = .ok impls) :
    Maker.fold.Expands decl spec impls := by
  unfold fold at h
  obtain ⟨⟨s, fields⟩, hselect, h⟩ := of_bind_ok h
  obtain ⟨hs, hshape⟩ := of_selectFields_ok hselect
  obtain ⟨rfl, rfl⟩ := Selection.of_ofDecl hs
  cases h
  refine ⟨s, fields, hs, hshape,
    .cons ⟨_, ?_, builds_of [_] _ _ rfl fun _ => rfl,
      Maker.sound_iff (fun f hf hneeds b hb => ?_) fun f hf hshare _ => ?_⟩ .nil⟩
  · split
    · rw [ImplGenerics.declared_addFieldBounds]
      rfl
    · rw [ImplGenerics.declared_addBound, ImplGenerics.declared_addFieldBounds]
      rfl
  · cases hb
    have hmem : f.ty.predicate s.spec.path ∈
        (s.generics.addFieldBounds fields.types s.self fun _ => s.spec.path).predicates :=
      ImplGenerics.predicate_mem_addFieldBounds (fun _ _ => rfl) (mem_types hf) hneeds
    split
    · exact hmem
    · exact ImplGenerics.mem_addPredicate.mpr (.inl hmem)
  · cases hshare

theorem expands_parse (hdecl : decl.isEnum = false) {warnings : List Diagnostic}
    (h : fromStr support decl spec = .ok (impls, warnings)) :
    Maker.parse.Expands decl spec impls := by
  unfold fromStr at h
  obtain ⟨s, hs, h⟩ := of_bind_ok h
  obtain ⟨_, hshape⟩ := Selection.struct_of_ofDecl hs hdecl
  rw [hshape] at h
  obtain ⟨_, hparse, h⟩ := of_bind_ok h
  cases h
  unfold parseStruct at hparse
  obtain ⟨single, hsingle, hparse⟩ := of_bind_ok hparse
  obtain ⟨fields, hfields, hparse⟩ := of_bind_ok hparse
  cases hparse
  obtain ⟨rfl, rfl⟩ := Selection.of_ofDecl hs
  obtain ⟨fields', hshape', hone, htrait⟩ := Selection.of_singleField hsingle
  have hfields := Selection.shape_of_structFields hfields
  cases hfields.symm.trans hshape'
  have hfront : Maker.parse.front s.spec fields =
      single.casted ++ ("::from_str(s).map(|v| " : Text) := by
    rw [Maker.front, hone, SingleField.casted, htrait]
    simp [Text.concat, casted]
  refine ⟨s, fields, hs, hfields,
    .cons ⟨s.generics.addFieldBounds [single.field.ty] s.self fun _ => s.spec.path, ?_,
      builds_of [.line (Text.concat ["type Err = ", single.casted, "::Err;"]),
        .blank, .inline]
        (Text.concat ["fn from_str(s: &str) -> ", Core.result, "<Self, Self::Err>"])
          (")" : Text)
        ?_ fun _ => rfl,
      Maker.sound_iff (fun f hf hneeds b hb => ?_) fun f hf hshare _ => ?_⟩ .nil⟩
  · exact ImplGenerics.declared_addFieldBounds _ _ _
  · have hline (value : Text) :
        Text.concat [single.casted, "::from_str(s).map(|v| ", value, ")"] =
          Maker.parse.front s.spec fields ++ (value ++ (")" : Text)) := by
      rw [hfront]
      simp [Text.concat]
    rw [hline]
    rfl
  · cases hb
    rw [FieldsView.types, hone] at hneeds
    rw [hone, List.mem_singleton] at hf
    subst hf
    exact ImplGenerics.predicate_mem_addFieldBounds (fun _ _ => rfl)
      (List.mem_singleton_self _)
      hneeds
  · cases hshare

/-- One conversion, whatever else is in its header. -/
theorem makes_convert {g : ImplGenerics} {expr : FieldView → Text} (origin : Option Text)
    (hg : g.declared = s.decl.generics)
    (hpredicates : ∀ p ∈ (s.generics.addFieldBounds (fields.skipped.map (·.ty)) s.self
      fun _ => Core.default).predicates, p ∈ g.predicates)
    (hresult : ∀ f ∈ fields.enabled, ∀ ty ∈ origin,
      f.ty.predicate (generic s.spec.path ty) ∈ g.predicates)
    (hexpr : ∀ f, expr f = Maker.convert.result s.spec fields origin f) :
    Maker.convert.Makes s fields
      (fromImpl g s (origin.getD (tupleOf (fields.types.map Ty.render)))
        (fields.construct "Self" fun f =>
          if f.enabled then expr f else Core.default ++ "::default()"))
      origin := by
  refine ⟨g, hg, builds_of_plain [_] _ rfl rfl ?_,
    Maker.sound_iff (fun f hf _ b hb => ?_) fun f hf _ hneeds => ?_⟩
  · intro f
    cases hf : f.enabled <;> simp [Maker.given, Maker.share, hexpr, hf]
  · obtain ⟨ty, hty, rfl⟩ := Option.map_eq_some_iff.mp hb
    exact hresult f hf ty hty
  · exact hpredicates _
      (ImplGenerics.predicate_mem_addFieldBounds (fun _ _ => rfl)
        (List.mem_map_of_mem hf) hneeds)

theorem expands_convert (hdecl : decl.isEnum = false)
    (h : fromPayload decl spec = .ok impls) : Maker.convert.Expands decl spec impls := by
  unfold fromPayload at h
  obtain ⟨s, hs, hfrom⟩ := of_bind_ok h
  obtain ⟨rfl, rfl⟩ := Selection.of_ofDecl hs
  obtain ⟨fields, hshape⟩ := Selection.struct_of_ofDecl hs hdecl
  rw [hshape] at hfrom
  dsimp only at hfrom
  refine ⟨s, fields, hs, hshape, ?_⟩
  have hdeclared := ImplGenerics.declared_addFieldBounds (g := s.generics)
    (fields.skipped.map (·.ty)) s.self fun _ => Core.default
  have hmain := @makes_convert s fields _ _ none hdeclared (fun _ hp => hp)
    (fun _ _ _ hty => nomatch hty) fun _ => rfl
  unfold fromFields at hfrom
  dsimp only at hfrom
  split at hfrom
  · next hnone =>
      cases hfrom
      rw [Maker.origins, List.isEmpty_iff.mp hnone]
      exact .cons hmain .nil
  · split at hfrom
    · next field hone =>
        cases hfrom
        refine .cons hmain ?_
        rw [List.forall₂_map_left_iff, List.forall₂_map_right_iff, List.forall₂_same]
        intro ty _
        refine makes_convert (some ty) ?_ (fun p hp => ?_)
          (fun f hf ty' hty => ?_) fun _ => rfl
        · rw [ImplGenerics.declared_addPredicate]
          exact hdeclared
        · exact ImplGenerics.mem_addPredicate.mpr (.inl hp)
        · rw [hone, List.mem_singleton] at hf
          cases hty
          rw [hf]
          exact ImplGenerics.mem_addPredicate.mpr (.inr rfl)
    · cases hfrom

end

/-! ## All derives -/

theorem of_run_ok {d : Derive} {support : Support} {decl : Decl} {e : Expansion}
    (h : d.run support decl = .ok e) :
    ∃ warnings, d.expand support decl d.spec = .ok (e.impls, warnings) := by
  unfold run at h
  obtain ⟨⟨impls, warnings⟩, hexpand, h⟩ := of_bind_ok h
  cases h
  exact ⟨warnings, hexpand⟩

theorem of_run_entry {family name path method : Text} {params : Params}
    {expand : Support → Expand} {support : Support} {decl : Decl} {e : Expansion}
    (h : (entry family name path method params expand).run support decl = .ok e) :
    expand support decl (entry family name path method params expand).spec =
    .ok e.impls := by
  obtain ⟨warnings, h⟩ := of_run_ok h
  obtain ⟨impls, hexpand, h⟩ := of_bind_ok h
  cases h
  exact hexpand

theorem expands_of_run {m : Maker} {name : Text} {d : Derive}
    {support : Support} {decl : Decl}
    {e : Expansion} (hname : name ∈ m.names) (hd : find? name = some d)
    (hdecl : decl.isEnum = false) (h : d.run support decl = .ok e) :
    m.Expands decl d.spec e.impls := by
  cases m with
  | add =>
      have hfind : find? name = some (plainOperator fieldSkip addLike name) := by
        simp only [Maker.names, List.mem_cons, List.not_mem_nil, or_false] at hname
        rcases hname with rfl | rfl | rfl | rfl | rfl <;> rfl
      cases hfind.symm.trans hd
      exact expands_add hdecl (of_run_entry h)
  | scale =>
      have hfind : find? name = some (plainOperator fieldSkip (fun _ => mulLike) name) := by
        simp only [Maker.names, List.mem_cons, List.not_mem_nil, or_false] at hname
        rcases hname with rfl | rfl | rfl | rfl | rfl <;> rfl
      cases hfind.symm.trans hd
      exact expands_scale (of_run_entry h)
  | negate =>
      have hfind : find? name = some (plainOperator {} notLike name) := by
        simp only [Maker.names, List.mem_cons, List.not_mem_nil, or_false] at hname
        rcases hname with rfl | rfl <;> rfl
      cases hfind.symm.trans hd
      exact expands_negate hdecl (of_run_entry h)
  | fold =>
      simp only [Maker.names, List.mem_cons, List.not_mem_nil, or_false] at hname
      rcases hname with rfl | rfl
      · cases hd
        exact expands_fold (of_run_entry h)
      · cases hd
        exact expands_fold (of_run_entry h)
  | parse =>
      cases List.mem_singleton.mp hname
      cases hd
      obtain ⟨warnings, h⟩ := of_run_ok h
      exact expands_parse hdecl h
  | convert =>
      cases List.mem_singleton.mp hname
      cases hd
      exact expands_convert hdecl (of_run_entry h)

/-- Every derive that builds a value from the fields of a parsed struct gives each field
that takes part what it makes of that field, in the order of the fields. It gives its
results to those fields alone, with a predicate for every type that needs one, just when
it passes over the other fields or there are none. -/
theorem built_values {m : Maker} {name source : Text} {d : Derive}
    {support : Support} {decl : Decl}
    {e : Expansion} (hname : name ∈ m.names) (hd : find? name = some d)
    (hdecl : decl ∈ (parse source).file.decls) (hstruct : decl.isEnum = false)
    (h : d.run support decl = .ok e) :
    ∃ s fields, Selection.ofDecl decl d.spec = .ok s ∧ s.shape = .struct fields ∧
      fields.enabled.map fields.rank = List.range fields.enabled.length ∧
      List.Forall₂ (fun i origin => ∃ g : ImplGenerics, g.declared = decl.generics ∧
        m.Builds s fields origin g i ∧
        (m.Sound s fields origin g ↔ m.Sparing ∨ fields.skipped = [])) e.impls
        (m.origins s) := by
  obtain ⟨s, fields, hs, hshape, hmakes⟩ := expands_of_run hname hd hstruct h
  have hordered := Selection.ordered_of_ofDecl (styled_of_parse hdecl) hs
  rw [hshape] at hordered
  have hdecl := (Selection.of_ofDecl hs).1
  refine ⟨s, fields, hs, hshape, hordered.map_rank_enabled, ?_⟩
  rw [← hdecl]
  exact hmakes

set_option maxRecDepth 2000 in
/-- A struct that is parsed through one field and holds another. -/
theorem built_values_parsed : ∃ d decl e s fields g,
    find? "FromStr" = some d ∧
    (parse "#[derive(FromStr)] struct S { #[from_str] a: i32, b: i32 }").file.decls =
    [decl] ∧
    d.run {} decl = .ok e ∧ Selection.ofDecl decl d.spec = .ok s ∧
    s.shape = .struct fields ∧ (∃ i ∈ e.impls, Maker.parse.Builds s fields none g i) ∧
    ¬ Maker.parse.Sound s fields none g := by
  obtain ⟨d, decl, e, s, fields, hd, hdecls, he, hs, hshape, henum, hskipped⟩ :
      ∃ d decl e s fields, find? "FromStr" = some d ∧
        (parse "#[derive(FromStr)] struct S { #[from_str] a: i32, b: i32 }").file.decls =
          [decl] ∧
        d.run {} decl = .ok e ∧ Selection.ofDecl decl d.spec = .ok s ∧
        s.shape = .struct fields ∧ decl.isEnum = false ∧ fields.skipped.length = 1 :=
    ⟨_, _, _, _, _, rfl, rfl, rfl, rfl, rfl, rfl, by decide +kernel⟩
  obtain ⟨s', fields', hs', hshape', -, hmakes⟩ := built_values (m := .parse)
    (List.mem_singleton_self _) hd (hdecls ▸ List.mem_singleton_self decl) henum he
  cases hs.symm.trans hs'
  cases hshape.symm.trans hshape'
  obtain ⟨i, _, ⟨g, -, hbuilds, hsound⟩, -, himpls⟩ := List.forall₂_cons_right_iff.mp hmakes
  refine ⟨d, decl, e, s, fields, g, hd, hdecls, he, hs, hshape,
    ⟨i, ?_, hbuilds⟩, fun h => ?_⟩
  · rw [himpls]
    exact List.mem_cons_self ..
  · rcases hsound.mp h with h | h
    · exact h
    · rw [h] at hskipped
      cases hskipped

end Deriver.Derive
