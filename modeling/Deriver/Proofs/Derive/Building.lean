import Deriver.Proofs.Code.Answers
import Deriver.Proofs.Derive.Coherence
import Deriver.Proofs.Derive.Exhaustive
import Deriver.Proofs.Derive.Naming
import Deriver.Proofs.Derive.Values

/-!
# Values in the declared form

What a derive may write for the variants of a declaration (`Pattern`) and what its
functions may come to (`Answer`) is said once for all derives. The derives that build
values of the declared type build them in the form that the struct or the variant is
declared in. Only the parser of an enum writes the bare path of a variant without fields,
be it declared with brackets or not.
-/

namespace Deriver.Derive

/-! ## Patterns and answers of the derives -/

/-- The derives that build values of the declared type. -/
def builders : List Text :=
  ["Constructor", "From", "TryFrom", "FromStr", "Add", "Sub", "BitAnd", "BitOr",
    "BitXor", "Mul",
    "Div", "Rem", "Shl", "Shr", "Neg", "Not", "Sum", "Product", "Default"]

/-- The derives whose functions take a variant apart. -/
def takers : List Text := ["AsVariant", "Unwrap", "TryIntoVariant", "TryUnwrap"]

/-- Whether a pattern with a path is in the form that a variant is declared in, or is
written by one of the functions that take a variant apart for one with empty braces. -/
inductive Pattern (name : Text) (decl : Decl) (p : Pat) : Prop where
  /-- in the declared form -/
  | shaped {v : Variant} {path : Text} (hv : v ∈ decl.data.variants)
      (hpath : path = v.path ∨ path = Text.concat [decl.name, "::", v.ident])
      (hshaped : p.Shaped v.fields path)
  /-- the bare path in spite of braces -/
  | bare {v : Variant} (hname : name ∈ takers) (hv : v ∈ decl.data.variants)
      (hstyle : v.fields.style = .named) (hnone : v.fields.list = [])
        (hp : p = .unit v.path)

/-- Whether a derive may write a pattern: in such a form, and with names that fields may
be bound to. -/
structure Drawn (name : Text) (decl : Decl) (p : Pat) : Prop where
  pattern : Pattern name decl p
  names : ∀ x ∈ p.names, decl.data.Binds x

/-- What stands around a value in an answer. -/
inductive Framed (value : Text) : Text → Prop where
  | alone : Framed value value
  | ok : Framed value (Text.concat [Core.ok, "(", value, ")"])
  | folded (path method : Text) :
      Framed value (Text.concat ["iter.fold(", value, ", ", path, "::", method, ")"])
  | parsed (ty trait : Text) :
      Framed value (Text.concat [casted ty trait, "::from_str(s).map(|v| ", value, ")"])

/-- Whether no text that begins like this one begins with a path of the declared type,
alone or behind `Ok`. -/
def Foreign (t : Text) : Prop :=
  ∀ rest, ((t ++ rest).startsWith "Self" || (t ++ rest).startsWith (Core.ok ++ "(Self")) =
    false

/-- Whether a function of a derive may come to a text. A derive that builds values comes
to one in the declared form, or fails; but the parser of an enum comes to the bare path of
a variant with empty brackets. The function that asks for a variant comes to a pattern in
its form, and the other derives to what begins with no path of the declared type. -/
inductive Answer (name : Text) (decl : Decl) : Text → Prop where
  | built {value text : Text} (hname : name ∈ builders) (hframed : Framed value text)
      (hvalue : decl.Value value) : Answer name decl text
  | failed (hname : name ∈ builders) (reason : List Text) :
      Answer name decl (Text.concat (Core.err :: "(" :: reason))
  | bare {v : Variant} (hname : name = "FromStr") (hv : v ∈ decl.data.variants)
      (hnone : v.fields.list = []) (hstyle : v.fields.style ≠ .unit) :
      Answer name decl (Text.concat [Core.ok, "(", v.path, ")"])
  | asked {v : Variant} {p : Pat} (hname : name = "IsVariant") (hv : v ∈ decl.data.variants)
      (hshaped : p.Shaped v.fields v.path) :
      Answer name decl (Text.concat ["::core::matches!(self, ", p.render, ")"])
  | other {text : Text} (hname : name ∉ builders) (hasks : name ≠ "IsVariant")
      (hforeign : Foreign text) : Answer name decl text

/-- Whether a derive writes its patterns and answers so, for every declaration. -/
def Forms (expand : Expand) (spec : TraitSpec) : Prop :=
  ∀ (decl : Decl) (impls : List Impl), decl.data.Styled → expand decl spec = .ok impls →
    ∀ i ∈ impls, i.Meets (Drawn spec.name decl) (Answer spec.name decl)

section

variable {spec : TraitSpec} {s : Selection} {decl : Decl} {views : List VariantView}
  {fields : FieldsView} {name : Text} {A : Text → Prop}

/-! ## What is selected -/

theorem data_of_struct (hstyled : decl.data.Styled)
    (hs : Selection.ofDecl decl spec = .ok s)
    (hshape : s.shape = .struct fields) : ∃ fs, decl.data = .struct fs ∧
      fields.style = fs.style ∧ fields.all.map (·.name) = fs.members := by
  have hordered := Selection.ordered_of_ofDecl hstyled hs
  rw [hshape] at hordered
  cases hdata : decl.data with
  | union fs => exact absurd hs (Selection.not_ofDecl_union hdata)
  | enum variants =>
      obtain ⟨-, views, henum, -⟩ := Selection.enum_resolves hs hdata
      rw [hshape] at henum
      cases henum
  | struct fs =>
      obtain ⟨-, v, hstruct, hresolves⟩ := Selection.struct_resolves hs hdata
      rw [hshape] at hstruct
      cases hstruct
      exact ⟨fs, rfl, hresolves.style, hordered.map_name hresolves.members⟩

theorem exists_variants (hs : Selection.ofDecl decl spec = .ok s)
    (hshape : s.shape = .enum views) : ∃ variants, decl.data = .enum variants := by
  cases hdata : decl.data with
  | union fs => exact absurd hs (Selection.not_ofDecl_union hdata)
  | struct fs =>
      obtain ⟨-, v, hstruct, -⟩ := Selection.struct_resolves hs hdata
      rw [hshape] at hstruct
      cases hstruct
  | enum variants => exact ⟨variants, rfl⟩

theorem data_of_enum (hstyled : decl.data.Styled) (hs : Selection.ofDecl decl spec = .ok s)
    (hshape : s.shape = .enum views) :
    decl.data.variants = views.map (·.variant) ∧ ∀ w ∈ views, w.Faithful := by
  refine ⟨?_, Selection.faithful_of_ofDecl hstyled hs hshape⟩
  obtain ⟨variants, hdata⟩ := exists_variants hs hshape
  obtain ⟨-, views', henum, hvariants, -⟩ := Selection.enum_resolves hs hdata
  rw [hshape] at henum
  cases henum
  rw [hdata]
  exact hvariants.symm

theorem value_of_struct (hstyled : decl.data.Styled)
    (hs : Selection.ofDecl decl spec = .ok s)
    (hshape : s.shape = .struct fields) (expr : FieldView → Text) :
    decl.Value (fields.construct "Self" expr).render := by
  obtain ⟨fs, hdata, hstyle, hnames⟩ := data_of_struct hstyled hs hshape
  unfold Decl.Value
  rw [hdata]
  exact Fields.value_construct hstyle hnames _ _

theorem value_of_variant {v : Variant} {text : Text} (hv : v ∈ decl.data.variants)
    (h : v.fields.Value v.path text) : decl.Value text := by
  unfold Decl.Value
  cases hdata : decl.data with
  | enum variants =>
      rw [hdata] at hv
      exact ⟨v, hv, h⟩
  | _ =>
      rw [hdata] at hv
      cases hv

theorem value_of_view {w : VariantView} (hv : w.variant ∈ decl.data.variants)
    (h : w.Faithful)
    (expr : FieldView → Text) : decl.Value (w.fields.construct w.path expr).render :=
  value_of_variant hv (Fields.value_construct h.style h.map_name _ _)

/-- The path in a pattern in the form of a variant is that of the variant. -/
theorem drawn_of_shaped (name : Text) {p : Pat} {w : VariantView}
    (hv : w.variant ∈ decl.data.variants) (h : p.Shaped w.variant.fields w.path)
    (hnames : ∀ x ∈ p.names, decl.data.Binds x) : ∀ q ∈ p.parts, Drawn name decl q := by
  rw [h.parts_eq]
  exact List.forall_mem_singleton.mpr ⟨.shaped hv (.inl rfl) h, hnames⟩

theorem drawn_pattern (name : Text) {w : VariantView} (hv : w.variant ∈ decl.data.variants)
    (hfaithful : w.Faithful) (tag : Text) (htag : tag.all Scan.isAlphaNum = true) :
    ∀ q ∈ (w.fields.pattern w.path tag).parts, Drawn name decl q := by
  refine drawn_of_shaped name hv (hfaithful.shaped_pattern _ tag) fun x hx => ?_
  obtain ⟨f, -, rfl⟩ := mem_names_pattern hx
  exact .inl (f.word_binding (List.all_eq_true.mp htag))

theorem drawn_patternEnabled (name : Text) {w : VariantView}
    (hv : w.variant ∈ decl.data.variants)
    (hfaithful : w.Faithful) (tag : Text) (htag : tag.all Scan.isAlphaNum = true) :
    ∀ q ∈ (w.fields.patternEnabled w.path tag).parts, Drawn name decl q := by
  refine drawn_of_shaped _ hv (hfaithful.shaped_patternEnabled _ tag) fun x hx => ?_
  obtain ⟨f, -, rfl⟩ := mem_names_patternEnabled hx
  exact .inl (f.word_binding (List.all_eq_true.mp htag))

theorem drawn_of_pair {p q : Pat} (hp : ∀ r ∈ p.parts, Drawn name decl r)
    (hq : ∀ r ∈ q.parts, Drawn name decl r) :
    ∀ r ∈ (Pat.pair p q).parts, Drawn name decl r := by
  rw [Pat.parts]
  exact List.forall_mem_append.mpr ⟨hp, hq⟩

/-! ## Derives that build values -/

/-- The constructor names the fields in braces alone, if there are any. -/
theorem forms_constructor (hname : spec.name ∈ builders) : Forms constructor spec := by
  intro decl impls hstyled h i hi
  obtain ⟨⟨s, fields⟩, hselect, h⟩ := of_bind_ok h
  obtain ⟨hs, hshape⟩ := of_selectStruct_ok hselect
  cases h
  rw [List.mem_singleton.mp hi]
  refine Impl.meets_line [_] rfl (.built hname .alone ?_)
  split
  · next hcond =>
      obtain ⟨fs, hdata, hstyle, hnames⟩ := data_of_struct hstyled hs hshape
      have hnamed : fs.style = .named := by
        rw [Bool.and_eq_true, decide_eq_true_eq] at hcond
        exact hstyle ▸ hcond.1
      unfold Decl.Value Fields.Value
      rw [hdata]
      dsimp only
      rw [hnamed]
      refine ⟨fields.all.map fun f => (f.name, none), ?_, .inl ?_⟩
      · rw [List.map_map]
        exact hnames
      · rw [List.map_map]
        rfl
  · exact value_of_struct hstyled hs hshape _

theorem meets_fromImpl {g : ImplGenerics} {source : Text} {value : Built} {P : Pat → Prop}
    (h : A value.render) : (fromImpl g s source value).Meets P A :=
    Impl.meets_line [_] rfl h

theorem meets_fromFields {P : Pat → Prop} {path : Text} {extra : List Text}
    {impls : List Impl} (hvalue : ∀ expr, A (fields.construct path expr).render)
    (h : fromFields s fields path extra = .ok impls) : ∀ i ∈ impls, i.Meets P A := by
  unfold fromFields at h
  dsimp only at h
  split at h
  · cases h
    exact List.forall_mem_singleton.mpr (meets_fromImpl (hvalue _))
  · split at h
    · cases h
      rw [List.forall_mem_cons, List.forall_mem_map]
      exact ⟨meets_fromImpl (hvalue _), fun _ _ => meets_fromImpl (hvalue _)⟩
    · cases h

theorem meets_fromVariants {P : Pat → Prop} {vs : List VariantView}
    (hvalue : ∀ v ∈ vs, ∀ expr, A (v.fields.construct v.path expr).render)
    {owners : List (Text × Text)} {impls : List Impl}
    (h : fromVariants s owners vs = .ok impls) : ∀ i ∈ impls, i.Meets P A := by
  induction vs generalizing owners impls with
  | nil =>
      cases h
      exact List.forall_mem_nil _
  | cons v vs ih =>
      obtain ⟨hv, hvs⟩ := List.forall_mem_cons.mp hvalue
      rw [fromVariants] at h
      split at h
      · exact ih hvs h
      · dsimp only at h
        split at h
        · cases h
        · obtain ⟨own, hown, h⟩ := of_bind_ok h
          obtain ⟨rest, hrest, h⟩ := of_bind_ok h
          cases h
          exact List.forall_mem_append.mpr ⟨meets_fromFields hv hown, ih hvs hrest⟩

theorem forms_fromPayload (hname : spec.name ∈ builders) : Forms fromPayload spec := by
  intro decl impls hstyled h
  obtain ⟨s, hs, h⟩ := of_bind_ok h
  split at h
  · next hshape =>
      exact meets_fromFields
        (fun _ => .built hname .alone (value_of_struct hstyled hs hshape _)) h
  · next views hshape =>
      obtain ⟨hvariants, hfaithful⟩ := data_of_enum hstyled hs hshape
      refine meets_fromVariants (fun v hv _ => .built hname .alone ?_) h
      have hmem := List.mem_of_mem_filter hv
      exact value_of_view (hvariants ▸ List.mem_map_of_mem hmem) (hfaithful v hmem) _

theorem value_emptyValue {v : Variant} (hnone : v.fields.list = []) :
    v.fields.Value v.path (Discriminant.emptyValue v) := by
  unfold Fields.Value Discriminant.emptyValue Variant.path
  cases v.fields.style with
  | unit => simp [Text.concat]
  | tuple =>
      refine ⟨[], ?_, ?_⟩
      · rw [hnone]
        rfl
      · simp [Text.concat, FieldStyle.bracket, Text.join]
        rfl
  | named =>
      refine ⟨[], ?_, .inr ⟨rfl, by simp [Text.concat]⟩⟩
      rw [Fields.members, hnone]
      rfl

/-- Only variants without fields have a discriminant that is converted. -/
theorem of_mem_number {base : Text} {offset : Nat} {vs : List Variant} {d : Discriminant}
    (h : d ∈ Discriminant.number base offset vs) :
    ∃ v ∈ vs, v.fields.list = [] ∧ d.value = Discriminant.emptyValue v := by
  induction vs generalizing base offset with
  | nil => cases h
  | cons v vs ih =>
      have hrest {base : Text} {offset : Nat} (h : d ∈ Discriminant.number base offset vs) :
          ∃ w ∈ v :: vs, w.fields.list = [] ∧ d.value = Discriminant.emptyValue w := by
        obtain ⟨w, hw, h⟩ := ih h
        exact ⟨w, List.mem_cons_of_mem _ hw, h⟩
      rw [Discriminant.number] at h
      dsimp only at h
      split at h
      · next hnone =>
          rcases List.mem_cons.mp h with rfl | h
          · exact ⟨v, List.mem_cons_self .., List.isEmpty_iff.mp hnone, rfl⟩
          · exact hrest h
      · exact hrest h

theorem forms_tryFromRepr (support : Support) (hname : spec.name ∈ builders) :
    Forms (tryFromRepr support) spec := by
  intro decl impls hstyled h i hi
  obtain ⟨⟨s, views⟩, -, h⟩ := of_bind_ok h
  cases h
  rw [List.mem_singleton.mp hi]
  have hlines (type : Text) (ds : List Discriminant) :
      (constLines type ds).all Code.isPlain = true := by
    refine List.all_eq_true.mpr fun c hc => ?_
    obtain ⟨d, -, hc⟩ := List.mem_flatMap.mp hc
    simp only [List.mem_cons, List.not_mem_nil, or_false] at hc
    rcases hc with rfl | rfl <;> rfl
  refine Impl.meets_method [_, _, _] rfl
    (Code.bodyMeets_last _ (hlines _ _) (Code.meets_choose ?_))
  rw [List.forall_mem_append, List.forall_mem_map, List.forall_mem_singleton]
  refine ⟨fun d hd => Arm.meets_yields (List.forall_mem_nil _) ?_,
    Arm.meets_wild (.failed hname _)⟩
  obtain ⟨v, hv, hnone, hvalue⟩ := of_mem_number hd
  rw [hvalue]
  exact .built hname .ok (value_of_variant hv (value_emptyValue hnone))

theorem meets_addEnum {support : Support} {impls : List Impl}
    (hname : s.spec.name ∈ builders)
    (hvariants : decl.data.variants = views.map (·.variant))
    (hfaithful : ∀ w ∈ views, w.Faithful) (h : addEnum support s views = .ok impls) :
    ∀ i ∈ impls, i.Meets (Drawn s.spec.name decl) (Answer s.spec.name decl) := by
  unfold addEnum at h
  dsimp only at h
  split at h
  · cases h
  · cases h
    refine List.forall_mem_singleton.mpr
      (Impl.meets_method [_, _, _] rfl (Code.bodyMeets_one ?_))
    split
    · exact Code.meets_chooseNone _
    · refine Code.meets_choose
        (List.forall_mem_append.mpr ⟨?_, Arm.meets_wild_if _ (.failed hname _)⟩)
      rw [List.forall_mem_map]
      intro w hw
      have hv : w.variant ∈ decl.data.variants := hvariants ▸ List.mem_map_of_mem hw
      have hpair := drawn_of_pair
        (drawn_pattern s.spec.name hv (hfaithful w hw) "self" rfl)
        (drawn_pattern s.spec.name hv (hfaithful w hw) "rhs" rfl)
      unfold addArm
      split
      · exact Arm.meets_yields hpair (.failed hname _)
      · exact Arm.meets_yields hpair
          (.built hname .ok (value_of_view hv (hfaithful w hw) _))

theorem forms_addLike (support : Support) (hname : spec.name ∈ builders) :
    Forms (addLike support) spec := by
  intro decl impls hstyled h
  obtain ⟨s, hs, hok⟩ := of_bind_ok h
  obtain ⟨rfl, rfl⟩ := Selection.of_ofDecl hs
  split at hok
  · obtain ⟨fields, hsome, hok⟩ := of_bind_ok hok
    cases hok
    refine List.forall_mem_singleton.mpr
      (Impl.meets_line [_, _, _] rfl (.built hname .alone ?_))
    exact value_of_struct hstyled hs (Selection.shape_of_someFields hsome) _
  · next views hshape =>
      obtain ⟨hvariants, hfaithful⟩ := data_of_enum hstyled hs hshape
      exact meets_addEnum hname hvariants hfaithful hok

theorem forms_mulLike (hname : spec.name ∈ builders) : Forms mulLike spec := by
  intro decl impls hstyled h i hi
  obtain ⟨⟨s, fields⟩, hselect, h⟩ := of_bind_ok h
  obtain ⟨hs, hshape⟩ := of_selectFields_ok hselect
  cases h
  rw [List.mem_singleton.mp hi]
  exact Impl.meets_line [_, _, _] rfl
    (.built hname .alone (value_of_struct hstyled hs hshape _))

theorem forms_notLike (support : Support) (hname : spec.name ∈ builders) :
    Forms (notLike support) spec := by
  intro decl impls hstyled h i hi
  obtain ⟨s, hs, h⟩ := of_bind_ok h
  dsimp only at h
  split at h
  · obtain ⟨fields, hsome, h⟩ := of_bind_ok h
    cases h
    rw [List.mem_singleton.mp hi]
    refine Impl.meets_line [_, _, _] rfl (.built hname .alone ?_)
    exact value_of_struct hstyled hs (Selection.shape_of_someFields hsome) _
  · next views hshape =>
      obtain ⟨hvariants, hfaithful⟩ := data_of_enum hstyled hs hshape
      cases h
      rw [List.mem_singleton.mp hi]
      refine Impl.meets_choose [_, _, _] rfl (List.forall_mem_map.mpr fun w hw => ?_)
      have hv : w.variant ∈ decl.data.variants := hvariants ▸ List.mem_map_of_mem hw
      have hpat := drawn_pattern spec.name hv (hfaithful w hw) "self" rfl
      have hvalue (expr : FieldView → Text) := value_of_view hv (hfaithful w hw) expr
      unfold notArm
      dsimp only
      split
      · exact Arm.meets_yields hpat (.failed hname _)
      · split
        · exact Arm.meets_yields hpat (.built hname .ok (hvalue _))
        · exact Arm.meets_yields hpat (.built hname .alone (hvalue _))

theorem forms_fold (path method : Text) (hname : spec.name ∈ builders) :
    Forms (fold path method) spec := by
  intro decl impls hstyled h i hi
  obtain ⟨⟨s, fields⟩, hselect, h⟩ := of_bind_ok h
  obtain ⟨hs, hshape⟩ := of_selectFields_ok hselect
  cases h
  rw [List.mem_singleton.mp hi]
  exact Impl.meets_line [_] rfl
    (.built hname (.folded path method) (value_of_struct hstyled hs hshape _))

theorem mem_of_defaultVariant {v : VariantView}
    (h : defaultVariant decl spec views = .ok v) : v ∈ views := by
  unfold defaultVariant at h
  split at h
  · next hone =>
      cases h
      exact List.mem_of_mem_filter (hone ▸ List.mem_singleton_self _)
  · cases h
  · cases h

theorem forms_default (hname : spec.name ∈ builders) : Forms default spec := by
  intro decl impls hstyled h i hi
  obtain ⟨s, hs, h⟩ := of_bind_ok h
  split at h
  · next fields hshape =>
      cases h
      rw [List.mem_singleton.mp hi]
      exact Impl.meets_line [_] rfl
        (.built hname .alone (value_of_struct hstyled hs hshape _))
  · next views hshape =>
      obtain ⟨v, hv, h⟩ := of_bind_ok h
      cases h
      rw [List.mem_singleton.mp hi]
      obtain ⟨hvariants, hfaithful⟩ := data_of_enum hstyled hs hshape
      have hmem := mem_of_defaultVariant hv
      exact Impl.meets_line [_] rfl (.built hname .alone
        (value_of_view (hvariants ▸ List.mem_map_of_mem hmem) (hfaithful v hmem) _))

/-! ## Parsing -/

theorem variant_of_mem_anyCase {names : List Text} {a : LiteralArm}
    (h : a ∈ LiteralArm.anyCase names) : a.variant ∈ names := by
  obtain ⟨literal, -, h⟩ := List.mem_flatMap.mp h
  split at h
  · next name hone =>
      rw [List.mem_singleton.mp h]
      exact List.mem_of_mem_filter (hone ▸ List.mem_singleton_self _)
  · obtain ⟨name, hname, rfl⟩ := List.mem_map.mp h
    exact List.mem_of_mem_filter hname

theorem variant_of_mem_renamed {casing : Casing} {arms : List LiteralArm}
    {vs : List VariantView}
    {a : LiteralArm} (h : a ∈ (LiteralArm.renamed casing arms vs).1) :
    a ∈ arms ∨ a.variant ∈ vs.map (·.name) := by
  induction vs generalizing arms with
  | nil => exact .inl h
  | cons v vs ih =>
      rw [LiteralArm.renamed] at h
      dsimp only at h
      split at h
      · exact (ih h).imp_right (List.mem_cons_of_mem _)
      · rcases ih h with h | h
        · rcases List.mem_append.mp h with h | h
          · exact .inl h
          · rw [List.mem_singleton.mp h]
            exact .inr (List.mem_cons_self ..)
        · exact .inr (List.mem_cons_of_mem _ h)

theorem variant_of_mem_literalArms {vs : List VariantView} {a : LiteralArm}
    (h : a ∈ (literalArms s vs).1) : a.variant ∈ vs.map (·.name) := by
  unfold literalArms at h
  split at h
  · exact variant_of_mem_anyCase h
  · exact (variant_of_mem_renamed h).resolve_left List.not_mem_nil

theorem meets_literalArm {P : Pat → Prop} {a : LiteralArm}
    (h : A (Text.concat [Core.ok, "(Self::", a.variant, ")"])) : a.arm.Meets P A := by
  unfold LiteralArm.arm
  split
  · exact Arm.meets_guarded (List.forall_mem_nil _) h
  · exact Arm.meets_yields (List.forall_mem_nil _) h

theorem concat_path (v : Variant) : Text.concat [Core.ok, "(Self::", v.ident, ")"] =
    Text.concat [Core.ok, "(", v.path, ")"] := by
  simp [Text.concat, Variant.path]
  rfl

/-- What a variant without fields is parsed as is in the declared form just when it is
declared without brackets. -/
theorem answer_parsed {v : Variant} (hname : name = "FromStr") (hv : v ∈ decl.data.variants)
    (hnone : v.fields.list = []) :
    Answer name decl (Text.concat [Core.ok, "(Self::", v.ident, ")"]) := by
  rw [concat_path]
  by_cases hstyle : v.fields.style = .unit
  · exact .built (hname ▸ by decide) .ok (value_of_variant hv (Fields.value_unit hstyle))
  · exact .bare hname hv hnone hstyle

theorem forms_fromStr {support : Support} {impls : List Impl} {warnings : List Diagnostic}
    (hname : spec.name = "FromStr") (hstyled : decl.data.Styled)
    (h : fromStr support decl spec = .ok (impls, warnings)) :
    ∀ i ∈ impls, i.Meets (Drawn spec.name decl) (Answer spec.name decl) := by
  have hbuilds : spec.name ∈ builders := hname ▸ by decide
  obtain ⟨s, hs, hok⟩ := of_bind_ok h
  cases hshape : s.shape with
  | struct fields =>
      rw [hshape] at hok
      obtain ⟨own, hparse, hok⟩ := of_bind_ok hok
      cases hok
      obtain ⟨single, -, hparse⟩ := of_bind_ok hparse
      obtain ⟨fields', hfields, hparse⟩ := of_bind_ok hparse
      cases hparse
      refine List.forall_mem_singleton.mpr (Impl.meets_line [_, _, _] rfl ?_)
      exact .built hbuilds (.parsed _ _)
        (value_of_struct hstyled hs (Selection.shape_of_structFields hfields) _)
  | enum views =>
      obtain ⟨hvariants, hfaithful⟩ := data_of_enum hstyled hs hshape
      obtain ⟨variants, hdata⟩ := exists_variants hs hshape
      obtain ⟨s', views', hs', hshape', -, header, rfl, -, hunit⟩ := of_fromStr hdata h
      cases hs.symm.trans hs'
      cases hshape.symm.trans hshape'
      refine List.forall_mem_singleton.mpr (Impl.meets_choose [_, _, _] rfl ?_)
      rw [List.forall_mem_append, List.forall_mem_map, List.forall_mem_singleton]
      refine ⟨fun a ha => meets_literalArm ?_, Arm.meets_wild (.failed hbuilds _)⟩
      obtain ⟨w, hw, hvariant⟩ := List.mem_map.mp (variant_of_mem_literalArms ha)
      have hmem := List.mem_of_mem_filter hw
      rw [← hvariant]
      exact answer_parsed hname (hvariants ▸ List.mem_map_of_mem hmem)
        (list_eq_nil_of_isUnit (hfaithful w hmem) (hunit w hw))

end

end Deriver.Derive
