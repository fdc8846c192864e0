import Deriver.Proofs.Derive.Payload
import Deriver.Proofs.Derive.Values
import Deriver.Proofs.Format.Resolve
import Deriver.Proofs.Text.Ascii

/-!
# Fields that a format refers to

Main statement: `formats_bind`. Where a formatting trait is derived, the fields of a struct
are bound by lines in front of what is written, and those of a variant by its pattern. A
field is bound where its name stands in a hole, or in an argument in ASCII and without a
mark, and no field twice. A name in a width or a precision is not looked at, nor is a name
of another form in an argument: such a field is bound only if it is seen elsewhere.
-/

namespace Deriver

open Format

/-! ## Scopes -/

/-- The name that a line binds, if it begins with `let`. -/
def letName? (line : Text) : Option Text :=
  (line.dropStart? "let ").map (·.takeWhile (· ≠ 32))

/-- The names that the pattern of an arm binds. -/
def Arm.names : Arm → List Text
  | .yields pat _ | .guarded pat _ _ | .runs pat _ | .chooses pat _ _ => pat.names

namespace Code

/-- The name that a piece of code binds, if it is such a line. -/
def letName? : Code → Option Text
  | .line text => Deriver.letName? text
  | _ => none

/-- The names that are bound where a body is done: those of its lines, or, if it ends with a
match, those of each pattern. -/
def scopes (body : List Code) : List (List Text) :=
  match body.getLast? with
  | some (.choose _ arms) => arms.map Arm.names
  | some (.chooseNone _) => []
  | _ => [body.filterMap letName?]

end Code

/-- The names that are bound where the method of an implementation is done. -/
def Impl.scopes : Impl → List (List Text)
  | .block _ [.block _ [.reflow body]] => Code.scopes body
  | _ => []

/-! ## Formats and the names in them -/

/-- A field list, the formats that are used on it, and the fields of it that are written
without one. -/
structure Written where
  fields : FieldsView
  formats : List FormatSpec
  direct : List FieldView

/-- Whether a name is in an argument of a format, as a token. -/
def FormatSpec.Spells (f : FormatSpec) (x : Text) : Prop :=
  ∃ a ∈ f.args, (scan a).errors = [] ∧ ∃ t ∈ ownTokens a, t.kind = .ident ∧ t.lexeme = x

/-- Whether a format has a hole for a name. -/
def FormatSpec.Places (f : FormatSpec) (x : Text) : Prop :=
  ∃ ps, f.value = render ps ∧ ∃ h ∈ holes ps, ∃ n : Name,
    h.argument = some (.name n) ∧ (Argument.name n).text = x

/-- Whether a format has a hole whose width or precision is that of a name. -/
def FormatSpec.Measures (f : FormatSpec) (x : Text) : Prop :=
  ∃ ps, f.value = render ps ∧ ∃ h ∈ holes ps, x ∈ h.parameters

/-- Whether a format is seen to mention a name: where an argument of a hole is looked for,
or in ASCII and without a mark in an argument. -/
def FormatSpec.Sees (f : FormatSpec) (x : Text) : Prop :=
  (∃ found, Placeholder.all f.value = .ok found ∧ ∃ p ∈ found,
    p.arg = x ∧ x ≠ [] ∧ FormatSpec.isIndex x = false) ∨ ∃ a ∈ f.args, StandsIn x a

theorem FormatSpec.mem_mentioned {f : FormatSpec} {x : Text} :
    x ∈ f.mentioned ↔ f.Sees x := by
  unfold FormatSpec.mentioned FormatSpec.Sees
  rw [List.mem_append, or_comm, List.mem_flatMap]
  refine or_congr ?_ (exists_congr fun a => and_congr_right fun _ => mem_nameLoop)
  cases Placeholder.all f.value with
  | error e =>
      exact iff_of_false List.not_mem_nil (by rintro ⟨found, hfound, -⟩; cases hfound)
  | ok ps =>
      dsimp only
      rw [List.mem_filter, List.mem_map, Bool.and_eq_true, Bool.not_eq_true',
        Bool.not_eq_true', List.isEmpty_eq_false_iff]
      constructor
      · rintro ⟨⟨p, hp, rfl⟩, hne, hindex⟩
        exact ⟨ps, rfl, p, hp, rfl, hne, hindex⟩
      · rintro ⟨found, hfound, p, hp, rfl, hne, hindex⟩
        cases hfound
        exact ⟨⟨p, hp, rfl⟩, hne, hindex⟩

theorem FormatSpec.Places.sees {f : FormatSpec} {x : Text} (h : f.Places x)
    {found : List Placeholder} (hfound : Placeholder.all f.value = .ok found) :
    f.Sees x := by
  obtain ⟨ps, hvalue, hole, hhole, n, hname, rfl⟩ := h
  refine .inl ⟨found, hfound, hole.placeholder, ?_, ?_, text_ne_nil _, isIndex_name n⟩
  · rw [hvalue] at hfound
    rw [placeholders_of_all hfound]
    exact List.mem_map_of_mem hhole
  · change (hole.argument.map Argument.text).getD [] = _
    rw [hname]
    rfl

theorem FormatSpec.Spells.sees {f : FormatSpec} {x : Text} (h : f.Spells x)
    (hx : IsPlain x) : f.Sees x := by
  obtain ⟨a, ha, hclean, t, ht, hkind, rfl⟩ := h
  exact .inr ⟨a, ha, standsIn_of_mem hclean ht hx hkind⟩

/-! ## Numbers -/

theorem Text.digits?_ofNat (n : Nat) : Text.digits? 10 0 (Text.ofNat n) = some n := by
  have hfold : (fun (m : Nat) (c : Char) => m * 10 + (c.toNat - 48)) =
      fun m c => 10 * m + (c.toNat - '0'.toNat) := by
    funext m c
    rw [Nat.mul_comm]
    rfl
  rw [Text.ofNat_eq_ofChars, digits?_ofChars fun c hc =>
    Text.isDigit_of_mem_toDigits hc, hfold,
    ← Nat.ofDigitChars_eq_foldl, Nat.ofDigitChars_ten_toDigits]

theorem Text.ofNat_injective {m n : Nat} (h : Text.ofNat m = Text.ofNat n) : m = n := by
  have hn := Text.digits?_ofNat n
  rw [← h, Text.digits?_ofNat] at hn
  exact Option.some.inj hn

theorem Text.wordy_ofNat (n : Nat) : (Text.ofNat n).Wordy := by
  rw [Text.ofNat_eq_ofChars]
  exact Text.wordy_ofChars.mpr fun c hc =>
    wordy_ofChar_of_nameChar (isNameChar_of_digit (Text.isDigit_of_mem_toDigits hc))

/-! ## What is bound -/

namespace FieldsView

variable (v : FieldsView)

/-- The names of the fields that are used. -/
def boundNames (used : List Text) : List Text :=
  (v.all.filter fun f => used.contains f.formatName).map (·.formatName)

theorem boundNames_congr {used used' : List Text} (h : ∀ x, x ∈ used ↔ x ∈ used') :
    v.boundNames used = v.boundNames used' := by
  unfold boundNames
  refine congrArg _ (List.filter_congr fun f _ => ?_)
  rw [Bool.eq_iff_iff, List.contains_iff_mem, List.contains_iff_mem, h]

variable {v}

theorem mem_boundNames {used : List Text} {x : Text} :
    x ∈ v.boundNames used ↔ (∃ f ∈ v.all, f.formatName = x) ∧ x ∈ used := by
  unfold boundNames
  simp only [List.mem_map, List.mem_filter, List.contains_iff_mem]
  constructor
  · rintro ⟨f, ⟨hf, hused⟩, rfl⟩
    exact ⟨⟨f, hf, rfl⟩, hused⟩
  · rintro ⟨⟨f, hf, rfl⟩, hused⟩
    exact ⟨f, ⟨hf, hused⟩, rfl⟩

theorem not_space_formatName {f : FieldView} (hv : v.Named) (hf : f ∈ v.all) :
    32 ∉ f.formatName := by
  unfold FieldView.formatName FieldView.name
  cases hident : f.field.ident with
  | some name => exact (hv f hf name hident).not_space
  | none =>
      change 32 ∉ (95 :: Text.ofNat f.index : Text)
      intro hmem
      rcases List.mem_cons.mp hmem with h | hmem
      · cases h
      · exact absurd (Text.wordy_ofNat _ 32 hmem) (by decide)

theorem letName?_bindings {name : Text} (hname : 32 ∉ name) (member : Text) :
    letName? (Text.concat ["let ", name, " = &", member, ";"]) = some name := by
  have htake : (name ++ 32 :: Text.concat ["= &", member, ";"]).takeWhile (· ≠ 32) =
      name := by
    rw [List.takeWhile_append_of_pos, List.takeWhile_cons_of_neg (by decide),
      List.append_nil]
    exact fun b hb => decide_eq_true (ne_of_mem_of_not_mem hb hname)
  change (some (name ++ 32 :: Text.concat ["= &", member, ";"])).map _ = _
  rw [Option.map_some, htake]

theorem letNames_bindings (hv : v.Named) (used : List Text) :
    ((v.bindings used).map Code.line).filterMap Code.letName? = v.boundNames used := by
  unfold bindings boundNames
  rw [List.map_map, List.filterMap_map, ← List.filterMap_eq_map]
  refine List.filterMap_congr fun f hf => ?_
  exact letName?_bindings (not_space_formatName hv (List.mem_of_mem_filter hf)) f.member

/-- The pattern for a variant binds the names of its fields that are used. -/
theorem names_formatPattern (hv : v.Ordered) (path : Text) (used : List Text) :
    (v.formatPattern path used).names = v.boundNames used := by
  unfold formatPattern boundNames
  dsimp only
  split
  · split
    · next hempty =>
        rw [List.isEmpty_iff.mp hempty]
        rfl
    · rw [Pat.names, Pat.namesIn_eq_flatMap, List.flatMap_map]
      induction v.all with
      | nil => rfl
      | cons f fs ih =>
          rw [List.flatMap_cons, ih, List.filter_cons]
          split <;> rfl
  · next hstyle =>
      have hall := hv.styled
      unfold Fields.Styled at hall
      rw [hstyle] at hall
      have hnone (fs : List FieldView) :
          Pat.namesOf (fs.map fun f => (f.field.ident.getD [], none)) =
            fs.map fun f => f.field.ident.getD [] := by
        induction fs with
        | nil => rfl
        | cons f fs ih => rw [List.map_cons, Pat.namesOf, ih, List.map_cons]
      rw [Pat.names, hnone]
      refine List.map_congr_left fun f hf => ?_
      obtain ⟨name, hname⟩ := Option.isSome_iff_exists.mp
        (hall f.field (List.mem_map_of_mem (List.mem_of_mem_filter hf)))
      rw [FieldView.formatName, hname]
      rfl
  · next hstyle =>
      rw [hv.all_eq_nil hstyle]
      rfl

theorem nodup_formatNames (hv : v.Ordered)
    (hnames : v.style = .named → (v.all.map (·.formatName)).Nodup) :
    (v.all.map (·.formatName)).Nodup := by
  cases hstyle : v.style with
  | named => exact hnames hstyle
  | unit =>
      rw [hv.all_eq_nil hstyle]
      exact List.nodup_nil
  | tuple =>
      have hall := hv.styled
      unfold Fields.Styled at hall
      rw [hstyle] at hall
      have hname : ∀ f ∈ v.all, f.formatName = 95 :: Text.ofNat f.index := by
        intro f hf
        rw [FieldView.formatName, FieldView.name, hall f.field (List.mem_map_of_mem hf)]
        rfl
      refine List.pairwise_map.mpr (hv.pairwise.imp_of_mem fun {f g} hf hg hlt heq => ?_)
      rw [hname f hf, hname g hg] at heq
      exact Nat.ne_of_lt hlt (Text.ofNat_injective (List.cons.inj heq).2)

end FieldsView

namespace Written

variable {w : Written}

/-- The names that the formats mention, and those of the fields that are written without. -/
def used (w : Written) : List Text :=
  w.formats.flatMap (·.mentioned) ++ w.direct.map (·.formatName)

/-- Whether every format can be taken apart. -/
def Readable (w : Written) : Prop :=
  ∀ f ∈ w.formats, ∃ found, Placeholder.all f.value = .ok found

/-- Whether names are those that are bound for what is written. -/
structure Binds (w : Written) (names : List Text) : Prop where
  /-- A field is bound for a hole. -/
  placed : ∀ field ∈ w.fields.all, ∀ f ∈ w.formats, f.Places field.formatName →
    field.formatName ∈ names
  /-- A field is bound for an argument that spells it in ASCII and without a mark. -/
  spelled : ∀ field ∈ w.fields.all, ∀ f ∈ w.formats, f.Spells field.formatName →
    IsPlain field.formatName → field.formatName ∈ names
  /-- A field is bound where it is written without a format or seen in one, and only
  there. -/
  seen : ∀ field ∈ w.fields.all, field.formatName ∈ names ↔
    (∃ g ∈ w.direct, g.formatName = field.formatName) ∨
      ∃ f ∈ w.formats, f.Sees field.formatName
  /-- Fields are all that is bound, each at most once and in order. -/
  fields : names.Sublist (w.fields.all.map (·.formatName))
  /-- No name is bound twice, unless two fields are declared by it. -/
  once : (w.fields.style = .named → (w.fields.all.map (·.formatName)).Nodup) → names.Nodup

/-- What is written within a shared format, if there is one. -/
def within (shared : Option FormatSpec) (w : Written) : Written :=
  { w with formats := shared.toList ++ w.formats }

theorem mem_used_within {shared : Option FormatSpec} {x : Text} :
    x ∈ (w.within shared).used ↔ (∃ f ∈ shared, x ∈ f.mentioned) ∨ x ∈ w.used := by
  unfold within used
  rw [List.flatMap_append, List.append_assoc, List.mem_append, List.mem_flatMap]
  simp only [Option.mem_toList, Option.mem_def]

theorem Readable.within (h : w.Readable) {shared : Option FormatSpec}
    (hshared : ∀ f ∈ shared, ∃ found, Placeholder.all f.value = .ok found) :
    (w.within shared).Readable :=
  List.forall_mem_append.mpr ⟨fun f hf => hshared f (Option.mem_toList.mp hf), h⟩

theorem mem_used {x : Text} :
    x ∈ w.used ↔ (∃ g ∈ w.direct, g.formatName = x) ∨ ∃ f ∈ w.formats, f.Sees x := by
  rw [used, List.mem_append, or_comm, List.mem_map, List.mem_flatMap]
  exact or_congr Iff.rfl (exists_congr fun f => and_congr_right fun _ =>
    FormatSpec.mem_mentioned)

theorem binds_of_eq (hordered : w.fields.Ordered) (hreadable : w.Readable)
    {used names : List Text}
    (hused : ∀ x, x ∈ used ↔ x ∈ w.used) (hnames : names = w.fields.boundNames used) :
    w.Binds names := by
  rw [w.fields.boundNames_congr hused] at hnames
  subst hnames
  have hseen : ∀ field ∈ w.fields.all, field.formatName ∈ w.fields.boundNames w.used ↔
      (∃ g ∈ w.direct, g.formatName = field.formatName) ∨
        ∃ f ∈ w.formats, f.Sees field.formatName :=
    fun field hfield => by
      rw [FieldsView.mem_boundNames, and_iff_right ⟨field, hfield, rfl⟩, mem_used]
  have hfields : (w.fields.boundNames w.used).Sublist (w.fields.all.map (·.formatName)) :=
    List.filter_sublist.map _
  refine ⟨fun field hfield f hf hplaces => ?_,
    fun field hfield f hf hspells hplain => ?_, hseen,
    hfields, fun hnamed => (FieldsView.nodup_formatNames hordered hnamed).sublist hfields⟩
  · obtain ⟨found, hfound⟩ := hreadable f hf
    exact (hseen field hfield).mpr (.inr ⟨f, hf, hplaces.sees hfound⟩)
  · exact (hseen field hfield).mpr (.inr ⟨f, hf, hspells.sees hplain⟩)

end Written

namespace Derive

/-! ## What is written -/

/-- Whether what a variant writes by itself is written: it is without a shared format, and
with one that asks for it. -/
def writesOwn (s : Selection) : Bool :=
  match s.container.format with
  | none => true
  | some f =>
      match f.uses (attrName s.spec) with
      | .ok uses => uses.any (·.expr == variantName)
      | .error _ => false

/-- What a variant writes by itself: by its format, or its only field. -/
def ownWritten (format : Option FormatSpec) (fields : FieldsView) : Written :=
  ⟨fields, format.toList,
    match format, fields.all with
    | none, [field] => [field]
    | _, _ => []⟩

/-- What `Display` and its like write. A single field of a struct needs no name. -/
def displayed (s : Selection) : List Written :=
  match s.shape with
  | .struct fields => [⟨fields, s.container.format.toList, []⟩]
  | .enum variants => variants.map fun v =>
      (if writesOwn s then ownWritten v.options.format v.fields else
        ⟨v.fields, [], []⟩).within
        s.container.format

/-- What `Debug` writes of a struct or variant. -/
def debugged (own : Option FormatSpec) (fields : FieldsView) : Written :=
  match own with
  | some f => ⟨fields, [f], []⟩
  | none => ⟨fields, fields.enabled.filterMap (·.options.format),
      fields.enabled.filter (·.options.format.isNone)⟩

/-- What a formatting trait writes of each struct or variant. -/
def written (s : Selection) : List Written :=
  if s.spec.name = "Debug" then
    match s.shape with
    | .struct fields => [debugged s.container.format fields]
    | .enum variants => variants.map fun v => debugged v.options.format v.fields
  else displayed s

/-! ## Display -/

section

variable {s : Selection} {g g' : ImplGenerics}

theorem readable_of_uses {f : FormatSpec} {attr : Text} {uses : List FormatUse}
    (h : f.uses attr = .ok uses) : ∃ found, Placeholder.all f.value = .ok found := by
  unfold FormatSpec.uses at h
  split at h
  · cases h
  · next found hfound => exact ⟨found, hfound⟩

theorem readable_nil {fields : FieldsView} {direct : List FieldView} :
    Written.Readable ⟨fields, [], direct⟩ := List.forall_mem_nil _

theorem readable_singleton {fields : FieldsView} {f : FormatSpec} {attr : Text}
    {uses : List FormatUse} (h : f.uses attr = .ok uses) :
    Written.Readable ⟨fields, [f], []⟩ := by
  intro g hg
  obtain rfl := List.mem_singleton.mp hg
  exact readable_of_uses h

theorem boundNames_nil (v : FieldsView) : v.boundNames [] = [] := by
  rw [FieldsView.boundNames, List.filter_eq_nil_iff.mpr]
  · rfl
  · exact fun _ _ => Bool.false_ne_true

theorem scopes_concat {lines : List Code} {last : Code}
    (h : ∀ scrutinee arms, last ≠ .choose scrutinee arms)
    (h' : ∀ scrutinee, last ≠ .chooseNone scrutinee) (hname : last.letName? = none) :
    Code.scopes (lines ++ [last]) = [lines.filterMap Code.letName?] := by
  unfold Code.scopes
  rw [List.getLast?_concat, List.filterMap_append, List.filterMap_cons_none hname,
    List.filterMap_nil, List.append_nil]
  split
  · next heq => exact absurd (Option.some.inj heq) (h _ _)
  · next heq => exact absurd (Option.some.inj heq) (h' _)
  · rfl

/-- A line that does not begin with `let` binds nothing. -/
theorem letName?_none {line : Text} {b : UInt8} (h : line.head? = some b) (hb : b ≠ 108) :
    letName? line = none := by
  have hno : line.startsWith "let " = false := by
    rw [← Bool.not_eq_true]
    intro hstart
    obtain ⟨u, rfl⟩ := List.isPrefixOf_iff_prefix.mp hstart
    exact hb (Option.some.inj h).symm
  unfold letName? Text.dropStart?
  rw [hno]
  rfl

theorem scopes_reflow {lines inner : List Code} :
    Code.scopes (lines ++ [.reflow inner]) = [lines.filterMap Code.letName?] :=
  scopes_concat nofun nofun rfl

theorem scopes_line (lines : List Code) {text : Text} {b : UInt8} (h : text.head? = some b)
    (hb : b ≠ 108) :
    Code.scopes (lines ++ [.line text]) = [lines.filterMap Code.letName?] :=
  scopes_concat nofun nofun (letName?_none h hb)

theorem scopes_displayStruct {fields : FieldsView} {body : List Code}
    (hfields : fields.Named)
    (hordered : fields.Ordered) (hpath : s.spec.path.head? = some 58)
    (h : displayStruct s fields = .ok (g, body)) :
    ∃ names, Code.scopes body = [names] ∧
      Written.Binds ⟨fields, s.container.format.toList, []⟩ names := by
  unfold displayStruct at h
  split at h
  · next f hformat =>
      obtain ⟨uses, huses, h⟩ := of_bind_ok h
      cases h
      refine ⟨_, scopes_line _ rfl (by decide), ?_⟩
      rw [hformat, FieldsView.letNames_bindings hfields]
      exact Written.binds_of_eq hordered (readable_singleton huses)
        (fun x => by simp [Written.used]) rfl
  · next hformat hall =>
      cases h
      refine ⟨_, scopes_line [] rfl (by decide), ?_⟩
      rw [hformat]
      exact Written.binds_of_eq hordered readable_nil (fun x => Iff.rfl)
        (by rw [FieldsView.boundNames, hall]; rfl)
  · next field hformat hall =>
      cases h
      refine ⟨_, scopes_line [] (b := 58) ?_ (by decide), ?_⟩
      · rw [Text.concat, List.flatten_cons, List.head?_append, hpath]
        rfl
      · rw [hformat]
        exact Written.binds_of_eq hordered readable_nil (fun x => Iff.rfl)
          (boundNames_nil _).symm
  · cases h

theorem readable_of_variantOutput {placeholder text : Text} {inShared : Bool}
    {v : VariantView} (h : variantOutput placeholder s inShared v g = .ok (g', text)) :
    (ownWritten v.options.format v.fields).Readable := by
  unfold variantOutput at h
  split at h
  · next f hformat =>
      obtain ⟨uses, huses, -⟩ := of_bind_ok h
      rw [hformat]
      exact readable_singleton huses
  · next hformat _ =>
      rw [hformat]
      exact readable_nil
  · next hformat _ =>
      rw [hformat]
      exact readable_nil
  · cases h

theorem mem_usedNames {shared : Option SharedFormat} {own : Bool}
    {v : VariantView} {x : Text} :
    x ∈ usedNames shared own v ↔ (∃ f ∈ shared.map (·.format), x ∈ f.mentioned) ∨
      (own = true ∧ x ∈ (ownWritten v.options.format v.fields).used) := by
  unfold usedNames
  rw [List.mem_append]
  refine or_congr ?_ ?_
  · cases shared <;> simp
  · cases own with
    | false => simp
    | true =>
        rw [if_pos rfl, and_iff_right rfl]
        unfold ownWritten Written.used
        dsimp only
        split <;> simp_all

theorem writesOwn_of_none (h : s.container.format = none) : writesOwn s = true := by
  rw [writesOwn, h]

theorem writesOwn_of_uses {f : FormatSpec} {uses : List FormatUse}
    (h : s.container.format = some f) (huses : f.uses (attrName s.spec) = .ok uses) :
    writesOwn s = uses.any (·.expr == variantName) := by
  simp only [writesOwn, h, huses]

theorem of_sharedFormat {shared : Option SharedFormat} (h : sharedFormat s = .ok shared) :
    shared.map (·.format) = s.container.format ∧
      (shared.map SharedFormat.delegates).getD true = writesOwn s ∧
      ∀ f ∈ s.container.format, ∃ found, Placeholder.all f.value = .ok found := by
  unfold sharedFormat at h
  split at h
  · next hformat =>
      cases h
      rw [writesOwn_of_none hformat, hformat]
      exact ⟨rfl, rfl, nofun⟩
  · next f hformat =>
      obtain ⟨uses, huses, h⟩ := of_bind_ok h
      split at h
      · cases h
      · cases h
        rw [writesOwn_of_uses hformat huses, hformat]
        refine ⟨rfl, rfl, fun f' hf' => ?_⟩
        cases hf'
        exact readable_of_uses huses

theorem names_displayArm {placeholder : Text} {shared : Option SharedFormat}
    {v : VariantView}
    {arm : Arm} (h : displayArm placeholder s shared g v = .ok (g', arm)) :
    arm.names = (v.fields.formatPattern v.path
      (usedNames shared ((shared.map SharedFormat.delegates).getD true) v)).names ∧
      ((shared.map SharedFormat.delegates).getD true = true →
        (ownWritten v.options.format v.fields).Readable) := by
  unfold displayArm at h
  dsimp only at h
  split at h
  · cases h
  cases shared with
  | none =>
      obtain ⟨⟨g'', text⟩, hout, h⟩ := of_bind_ok h
      cases h
      exact ⟨rfl, fun _ => readable_of_variantOutput hout⟩
  | some f =>
      dsimp only at h
      split at h
      · next hno =>
          cases h
          rw [Bool.not_eq_true'] at hno
          refine ⟨rfl, fun hyes => ?_⟩
          rw [hno] at hyes
          cases hyes
      · obtain ⟨⟨g'', text⟩, hout, h⟩ := of_bind_ok h
        cases h
        exact ⟨rfl, fun _ => readable_of_variantOutput hout⟩

theorem binds_displayArm {placeholder : Text} {shared : Option SharedFormat}
    {v : VariantView}
    {arm : Arm} (hordered : v.fields.Ordered) (hshared : sharedFormat s = .ok shared)
    (h : displayArm placeholder s shared g v = .ok (g', arm)) :
    ((if writesOwn s then ownWritten v.options.format v.fields else
    ⟨v.fields, [], []⟩).within s.container.format).Binds arm.names := by
  obtain ⟨hformat, hown, hreadable⟩ := of_sharedFormat hshared
  obtain ⟨hnames, hread⟩ := names_displayArm h
  rw [hown] at hnames hread
  rw [FieldsView.names_formatPattern hordered] at hnames
  have hused (x : Text) : x ∈ usedNames shared (writesOwn s) v ↔
      (∃ f ∈ s.container.format, x ∈ f.mentioned) ∨
        (writesOwn s = true ∧ x ∈ (ownWritten v.options.format v.fields).used) := by
    rw [mem_usedNames, hformat]
  cases hwrites : writesOwn s with
  | true =>
      rw [hwrites] at hnames hused
      rw [if_pos rfl]
      refine Written.binds_of_eq hordered ((hread hwrites).within hreadable)
        (fun x => ?_) hnames
      rw [hused, Written.mem_used_within, and_iff_right rfl]
  | false =>
      rw [hwrites] at hnames hused
      rw [if_neg Bool.false_ne_true]
      refine Written.binds_of_eq hordered (readable_nil.within hreadable)
        (fun x => ?_) hnames
      rw [hused, Written.mem_used_within]
      exact or_congr_right (iff_of_false (fun h => Bool.noConfusion h.1) List.not_mem_nil)

theorem binds_displayArms {placeholder : Text} {shared : Option SharedFormat}
    {vs : List VariantView} {arms : List Arm} (hordered : ∀ v ∈ vs, v.fields.Ordered)
    (hshared : sharedFormat s = .ok shared)
    (h : displayArms placeholder s shared g vs = .ok (g', arms)) :
    List.Forall₂ Written.Binds (vs.map fun v =>
      (if writesOwn s then ownWritten v.options.format v.fields else
      ⟨v.fields, [], []⟩).within s.container.format) (arms.map Arm.names) := by
  induction vs generalizing g arms with
  | nil =>
      cases h
      exact .nil
  | cons v vs ih =>
      obtain ⟨hv, hvs⟩ := List.forall_mem_cons.mp hordered
      obtain ⟨⟨g₁, arm⟩, harm, h⟩ := of_bind_ok h
      obtain ⟨⟨g₂, rest⟩, hrest, h⟩ := of_bind_ok h
      cases h
      exact .cons (binds_displayArm hv hshared harm) (ih hvs hrest)

/-- What `Display` and its like bind. -/
theorem binds_display {placeholder : Text} {decl : Decl} {spec : TraitSpec}
    {impls : List Impl}
    (hnamed : decl.data.Named) (hstyled : decl.data.Styled)
    (hpath : spec.path.head? = some 58) (h : display placeholder decl spec = .ok impls) :
    ∃ s i, Selection.ofDecl decl spec = .ok s ∧ impls = [i] ∧
      List.Forall₂ Written.Binds (displayed s) i.scopes := by
  unfold display at h
  obtain ⟨s, hs, h⟩ := of_bind_ok h
  have hordered := Selection.ordered_of_ofDecl hstyled hs
  have hfields := Selection.named_of_ofDecl hnamed hs
  refine ⟨s, ?_⟩
  unfold displayed
  dsimp only at h
  cases hshape : s.shape with
  | struct fields =>
      rw [hshape] at h hordered hfields
      obtain ⟨⟨g, body⟩, hbody, h⟩ := of_bind_ok h
      cases h
      rw [(Selection.of_ofDecl hs).2.symm] at hpath
      obtain ⟨names, hnames, hbinds⟩ := scopes_displayStruct hfields hordered hpath hbody
      refine ⟨_, hs, rfl, ?_⟩
      change List.Forall₂ Written.Binds _ (Code.scopes body)
      rw [hnames]
      exact .cons hbinds .nil
  | enum variants =>
      rw [hshape] at h hordered
      cases variants with
      | nil =>
          cases h
          exact ⟨_, hs, rfl, .nil⟩
      | cons v vs =>
          obtain ⟨shared, hshared, h⟩ := of_bind_ok h
          obtain ⟨⟨g', arms⟩, harms, h⟩ := of_bind_ok h
          cases h
          exact ⟨_, hs, rfl, binds_displayArms hordered hshared harms⟩

/-! ## Debug -/

theorem mem_debugNames {own : Option FormatSpec} {fields : FieldsView} {x : Text} :
    x ∈ debugNames own fields ↔ x ∈ (debugged own fields).used := by
  unfold debugNames debugged Written.used
  cases own with
  | some f => simp
  | none =>
      simp only [List.mem_append, List.mem_flatMap, List.mem_filterMap, List.mem_map,
        List.mem_filter]
      constructor
      · rintro ⟨f, hf, hx⟩
        cases hformat : f.options.format with
        | none =>
            rw [hformat] at hx
            exact .inr ⟨f, ⟨hf, by rw [hformat]; rfl⟩, (List.mem_singleton.mp hx).symm⟩
        | some format =>
            rw [hformat] at hx
            exact .inl ⟨format, ⟨f, hf, hformat⟩, hx⟩
      · rintro (⟨format, ⟨f, hf, hformat⟩, hx⟩ | ⟨f, ⟨hf, hnone⟩, rfl⟩)
        · refine ⟨f, hf, ?_⟩
          rw [hformat]
          exact hx
        · refine ⟨f, hf, ?_⟩
          rw [Option.isNone_iff_eq_none.mp hnone]
          exact List.mem_singleton_self _

theorem readable_of_debugFields {fields : FieldsView} {fs : List FieldView}
    {calls : List Text}
    (h : debugFields s fields g fs = .ok (g', calls)) :
    ∀ f ∈ fs.filterMap (·.options.format),
      ∃ found, Placeholder.all f.value = .ok found := by
  induction fs generalizing g g' calls with
  | nil => exact List.forall_mem_nil _
  | cons f fs ih =>
      obtain ⟨⟨g₁, value⟩, hvalue, h⟩ := of_bind_ok h
      obtain ⟨⟨g₂, rest⟩, hrest, h⟩ := of_bind_ok h
      have hlater := ih hrest
      unfold debugField at hvalue
      cases hformat : f.options.format with
      | none =>
          rw [List.filterMap_cons, hformat]
          exact hlater
      | some format =>
          rw [hformat] at hvalue
          obtain ⟨uses, huses, -⟩ := of_bind_ok hvalue
          rw [List.filterMap_cons, hformat]
          exact List.forall_mem_cons.mpr ⟨readable_of_uses huses, hlater⟩

theorem readable_of_debugOutput {name out : Text} {own : Option FormatSpec}
    {fields : FieldsView}
    (hordered : fields.Ordered) (h : debugOutput s name own fields g = .ok (g', out)) :
    (debugged own fields).Readable := by
  unfold debugOutput at h
  unfold debugged
  split at h
  · obtain ⟨uses, huses, -⟩ := of_bind_ok h
    exact readable_singleton huses
  · next hstyle =>
      have hnone : fields.enabled = [] := by
        rw [FieldsView.enabled, hordered.all_eq_nil hstyle]
        rfl
      dsimp only
      rw [hnone]
      exact readable_nil
  · obtain ⟨⟨g₁, calls⟩, hcalls, -⟩ := of_bind_ok h
    exact readable_of_debugFields hcalls

theorem binds_debugged {own : Option FormatSpec} {fields : FieldsView}
    (hordered : fields.Ordered)
    (hreadable : (debugged own fields).Readable) {names : List Text}
    (hnames : names = fields.boundNames (debugNames own fields)) :
    (debugged own fields).Binds names := by
  cases own <;> exact Written.binds_of_eq hordered hreadable
    (fun x => mem_debugNames) hnames

theorem binds_debugArms {vs : List VariantView} {arms : List Arm}
    (hordered : ∀ v ∈ vs, v.fields.Ordered) (h : debugArms s g vs = .ok (g', arms)) :
    List.Forall₂ Written.Binds (vs.map fun v => debugged v.options.format v.fields)
      (arms.map Arm.names) := by
  induction vs generalizing g arms with
  | nil =>
      cases h
      exact .nil
  | cons v vs ih =>
      obtain ⟨hv, hvs⟩ := List.forall_mem_cons.mp hordered
      obtain ⟨⟨g₁, arm⟩, harm, h⟩ := of_bind_ok h
      obtain ⟨⟨g₂, rest⟩, hrest, h⟩ := of_bind_ok h
      cases h
      refine .cons ?_ (ih hvs hrest)
      unfold debugArm at harm
      obtain ⟨-, -, harm⟩ := of_bind_ok harm
      obtain ⟨⟨g₃, out⟩, hout, harm⟩ := of_bind_ok harm
      cases harm
      refine binds_debugged hv (readable_of_debugOutput hv hout) ?_
      rw [← FieldsView.names_formatPattern hv v.path]
      split <;> rfl

/-- What `Debug` binds. -/
theorem binds_debug {decl : Decl} {spec : TraitSpec} {impls : List Impl}
    (hnamed : decl.data.Named) (hstyled : decl.data.Styled)
    (h : debug decl spec = .ok impls) :
    ∃ s i, Selection.ofDecl decl spec = .ok s ∧ impls = [i] ∧
      List.Forall₂ Written.Binds (match s.shape with
        | .struct fields => [debugged s.container.format fields]
        | .enum variants => variants.map fun v => debugged v.options.format v.fields)
          i.scopes := by
  unfold debug at h
  obtain ⟨s, hs, h⟩ := of_bind_ok h
  have hordered := Selection.ordered_of_ofDecl hstyled hs
  have hfields := Selection.named_of_ofDecl hnamed hs
  refine ⟨s, ?_⟩
  cases hshape : s.shape with
  | struct fields =>
      rw [hshape] at h hordered hfields
      obtain ⟨-, -, h⟩ := of_bind_ok h
      obtain ⟨⟨g, out⟩, hout, h⟩ := of_bind_ok h
      cases h
      refine ⟨_, hs, rfl, ?_⟩
      change List.Forall₂ Written.Binds _
        (Code.scopes ((fields.bindings _).map Code.line ++ [.reflow [.line out]]))
      rw [scopes_reflow, FieldsView.letNames_bindings hfields]
      exact .cons (binds_debugged hordered (readable_of_debugOutput hordered hout) rfl) .nil
  | enum variants =>
      rw [hshape] at h hordered
      cases variants with
      | nil =>
          cases h
          exact ⟨_, hs, rfl, .nil⟩
      | cons v vs =>
          obtain ⟨⟨g, arms⟩, harms, h⟩ := of_bind_ok h
          cases h
          exact ⟨_, hs, rfl, binds_debugArms hordered harms⟩

end

/-! ## All formatting traits -/

/-- Whether the fields are bound in what a derive emits. -/
def Scoped (d : Derive) : Prop :=
  ∀ {decl : Decl} {support : Support} {e : Expansion}, decl.data.Named → decl.data.Styled →
    d.run support decl = .ok e → ∃ s i, Selection.ofDecl decl d.spec = .ok s ∧
      e.impls = [i] ∧
      List.Forall₂ Written.Binds (written s) i.scopes

theorem scoped_formatting {name placeholder : Text} (hname : name ≠ "Debug") :
    (formatting name placeholder).Scoped := by
  intro decl support e hnamed hstyled h
  obtain ⟨s, i, hs, hi, hbinds⟩ := binds_display hnamed hstyled rfl (of_run_entry h)
  refine ⟨s, i, hs, hi, ?_⟩
  have hspec : s.spec.name ≠ "Debug" := (Selection.of_ofDecl hs).2 ▸ hname
  rw [written, if_neg hspec]
  exact hbinds

theorem scoped_debug {family path method : Text} {params : Params} :
    (entry family "Debug" path method params fun _ => debug).Scoped := by
  intro decl support e hnamed hstyled h
  obtain ⟨s, i, hs, hi, hbinds⟩ := binds_debug hnamed hstyled (of_run_entry h)
  refine ⟨s, i, hs, hi, ?_⟩
  have hspec : s.spec.name = "Debug" := (Selection.of_ofDecl hs).2 ▸ rfl
  rw [written, if_pos hspec]
  exact hbinds

theorem scoped_formats : ∀ d ∈ formats, d.Scoped := by
  simp only [formats, List.forall_mem_cons]
  exact ⟨scoped_formatting (by decide), scoped_formatting (by decide),
    scoped_formatting (by decide), scoped_formatting (by decide),
    scoped_formatting (by decide),
    scoped_formatting (by decide), scoped_formatting (by decide),
    scoped_formatting (by decide), scoped_debug, List.forall_mem_nil _⟩

/-- For every struct and variant of a parsed declaration, and every format that is used on
it, the fields are bound that the format has a hole for or that it spells in an argument, in
ASCII and without a mark. A name that only a width or a precision asks for is bound if it is
seen elsewhere, and no name is bound twice. -/
theorem formats_bind {source : Text} {decl : Decl} {d : Derive} {support : Support}
    {e : Expansion}
    (hd : d ∈ formats) (hdecl : decl ∈ (parse source).file.decls)
    (h : d.run support decl = .ok e) :
    ∃ s i, Selection.ofDecl decl d.spec = .ok s ∧ e.impls = [i] ∧
      List.Forall₂ Written.Binds (written s) i.scopes :=
  scoped_formats d hd (named_of_parse hdecl).data (styled_of_parse hdecl) h

/-- A name and a width that is that of another, and nothing else. -/
def measuredHole : Hole where
  argument := some (.name ⟨'x', [], ⟨rfl, rfl⟩, List.forall_mem_nil _⟩)
  spec := some {
    width := some (.parameter (.name ⟨'w', [], ⟨rfl, rfl⟩, List.forall_mem_nil _⟩)) }
  blank := starredHole.blank

/-- A width that only a format asks for is not bound. -/
theorem formats_bind_measured : ∃ d decl e s i fields f names,
    d ∈ formats ∧
    (parse "#[display(\"\x7bx:w$\x7d\")] struct S { x: i32, w: usize }").file.decls =
    [decl] ∧
    d.run {} decl = .ok e ∧ Selection.ofDecl decl d.spec = .ok s ∧ e.impls = [i] ∧
    s.shape = .struct fields ∧ s.container.format = some f ∧
    fields.all.map (·.formatName) = ["x", "w"] ∧ f.Places "x" ∧ f.Measures "w" ∧
    i.scopes = [names] ∧ ("x" : Text) ∈ names ∧ ("w" : Text) ∉ names := by
  obtain ⟨d, decl, e, s, fields, f, hd, hdecls, he, hs, hname, hshape, hformat,
      hfields, hvalue, hsees⟩ : ∃ d decl e s fields f, d ∈ formats ∧
      (parse "#[display(\"\x7bx:w$\x7d\")] struct S { x: i32, w: usize }").file.decls =
        [decl] ∧
      d.run {} decl = .ok e ∧ Selection.ofDecl decl d.spec = .ok s ∧ s.spec.name ≠ "Debug" ∧
      s.shape = .struct fields ∧ s.container.format = some f ∧
      fields.all.map (·.formatName) = ["x", "w"] ∧ f.value = render [.hole measuredHole] ∧
      ("w" : Text) ∉ f.mentioned :=
    ⟨_, _, _, _, _, _, List.mem_cons_self, rfl, rfl, rfl, by decide +kernel, rfl, rfl,
      by decide +kernel, by decide +kernel, by decide +kernel⟩
  obtain ⟨s', i, hs', hi, hbinds⟩ :=
    formats_bind hd (hdecls ▸ List.mem_singleton_self decl) he
  cases hs.symm.trans hs'
  have hwritten : written s = [⟨fields, [f], []⟩] := by
    rw [written, if_neg hname, displayed, hshape, hformat]
    rfl
  rw [hwritten] at hbinds
  obtain ⟨names, rest, hnames, hrest, hscopes⟩ := List.forall₂_cons_left_iff.mp hbinds
  obtain rfl := List.forall₂_nil_left_iff.mp hrest
  have hplaces : f.Places "x" :=
    ⟨_, hvalue, measuredHole, List.mem_singleton_self _, _, rfl, by decide +kernel⟩
  have hmeasures : f.Measures "w" :=
    ⟨_, hvalue, measuredHole, List.mem_singleton_self _, by decide +kernel⟩
  obtain ⟨x, hx, hxname⟩ := List.mem_map.mp
    (show ("x" : Text) ∈ fields.all.map (·.formatName) from hfields ▸ by decide)
  obtain ⟨w, hw, hwname⟩ := List.mem_map.mp
    (show ("w" : Text) ∈ fields.all.map (·.formatName) from hfields ▸ by decide)
  have hbound := hnames.placed x hx f (List.mem_singleton_self f) (hxname ▸ hplaces)
  refine ⟨d, decl, e, s, i, fields, f, names, hd, hdecls, he, hs, hi, hshape,
    hformat, hfields, hplaces, hmeasures, hscopes, hxname ▸ hbound, fun hmem => ?_⟩
  rcases (hnames.seen w hw).mp (hwname ▸ hmem) with ⟨g, hg, -⟩ | ⟨g, hg, hsee⟩
  · exact List.not_mem_nil hg
  · obtain rfl := List.mem_singleton.mp hg
    exact hsees (FormatSpec.mem_mentioned.mpr (hwname ▸ hsee))

end Derive

end Deriver
