import Deriver.Proofs.Code.Matches
import Deriver.Proofs.Derive.Bindings
import Deriver.Proofs.Text.Basic
import Mathlib.Data.List.Find

/-!
# Derived equality is structural

Main statement: `partialEq_structural`. The emitted function is run on two values: its body
is a condition, or a match of the pair whose first arm that fits gives the condition. The
pair of patterns of an arm takes the pairs of one variant and no others, so a pair of two
variants is left to the last arm, which is there because there are two variants.
-/

namespace Deriver

variable {α : Type}

/-! ## Running the function -/

/-- A value of a declaration: its variant, if that is an enum, and what each field holds. -/
structure Datum (α : Type) where
  variant : Option Variant
  held : Text → α

/-- Whether a value is one of a declaration. -/
def Datum.Inhabits (a : Datum α) : Data → Prop
  | .struct _ => a.variant = none
  | .enum variants => ∃ v ∈ variants, a.variant = some v
  | .union _ => False

/-- The truth of a comparison of two operands, whose values are known in a scope. -/
def comparison? (same : α → α → Bool) (scope : Text → Option α) (text : Text) :
    Option Bool := do
  let (left, right) ← text.cut? " == "
  return same (← scope left) (← scope right)

/-- The truth of a condition: a constant, or comparisons that all have to hold. -/
def condition? (same : α → α → Bool) (scope : Text → Option α) (text : Text) :
    Option Bool :=
  if text = "true" then some true
  else if text = "false" then some false
  else ((text.splitOn " && ").mapM (comparison? same scope)).map (·.all id)

/-- The value of a field of `self` or `other`. -/
def operand? (a b : Datum α) (text : Text) : Option α :=
  ((text.dropStart? "self.").map a.held).or ((text.dropStart? "other.").map b.held)

/-- The names that a pattern binds, with what they stand for. -/
def Pat.bound (p : Pat) (a : Datum α) : List (Text × α) :=
  p.members.map fun (member, name) => (name, a.held member)

/-- The answer of an arm on two values that it fits. -/
def Arm.equal? (same : α → α → Bool) (a b : Datum α) : Arm → Option Bool
  | .yields (.pair left right) value =>
      condition? same (fun name => (left.bound a ++ right.bound b).lookup name) value
  | .yields _ value => condition? same (fun _ => none) value
  | _ => none

/-- The answer of a match of `self` with `other`: that of the first arm that fits. -/
def Arm.firstEqual? (same : α → α → Bool) (a b : Datum α) (arms : List Arm) : Option Bool :=
  match a.variant, b.variant with
  | some v, some w => (arms.find? (·.takesPair v w)).bind (·.equal? same a b)
  | _, _ => none

/-- The answer of a piece of code on two values. -/
def Code.equal? (same : α → α → Bool) (a b : Datum α) : Code → Option Bool
  | .line text => condition? same (operand? a b) text
  | .choose scrutinee arms =>
      if scrutinee = "(self, other)" then Arm.firstEqual? same a b arms else none
  | _ => none

/-- The body of the function `eq`, if a piece of code is it. -/
def Code.eqBody? : Code → Option Code
  | .block head [body] => if head = "fn eq(&self, other: &Self) -> bool" then some body
  else none
  | _ => none

/-- What the function `eq` of an implementation answers on two values. -/
def Impl.equal? (same : α → α → Bool) (a b : Datum α) : Impl → Option Bool
  | .block _ body => (body.findSome? Code.eqBody?).bind (Code.equal? same a b)
  | .marker _ => none

/-! ## What the answer should be -/

/-- Whether two values are of one variant and all fields of it that take part are the
same. -/
def ShapeView.Agree (same : α → α → Bool) (a b : Datum α) : ShapeView → Prop
  | .struct fields => ∀ f ∈ fields.enabled, same (a.held f.name) (b.held f.name) = true
  | .enum views => ∃ v ∈ views, a.variant = some v.variant ∧ b.variant = some v.variant ∧
      ∀ f ∈ v.fields.enabled, same (a.held f.name) (b.held f.name) = true

namespace Derive

/-! ## Conditions -/

/-- Whether a text holds no byte at which a condition is taken apart. -/
def IsOperand (t : Text) : Prop := 32 ∉ t ∧ 38 ∉ t

instance (t : Text) : Decidable (IsOperand t) := inferInstanceAs (Decidable (_ ∧ _))

theorem isOperand_concat {ts : List Text} (h : ∀ t ∈ ts, IsOperand t) :
    IsOperand (Text.concat ts) := by
  constructor <;> intro hmem <;> obtain ⟨t, ht, hmem⟩ := List.mem_flatten.mp hmem
  · exact (h t ht).1 hmem
  · exact (h t ht).2 hmem

theorem isOperand_of_wordy {t : Text} (h : t.Wordy) : IsOperand t :=
  ⟨fun hmem => absurd (h _ hmem) (by decide), fun hmem => absurd (h _ hmem) (by decide)⟩

theorem isOperand_of_isIdent {t : Text} (h : IsIdent t) : IsOperand t :=
  ⟨h.not_mem (by decide) (by decide), h.not_mem (by decide) (by decide)⟩

section

variable {same : α → α → Bool} {scope : Text → Option α}

theorem comparison?_eq {left right : Text} {x y : α} (hleft : 32 ∉ left)
    (hx : scope left = some x) (hy : scope right = some y) :
    comparison? same scope (Text.concat [left, " == ", right]) = some (same x y) := by
  have hcut : Text.cut? (Text.concat [left, " == ", right]) " == " =
      some (left, right) := by
    have hconcat : Text.concat [left, " == ", right] =
        left ++ 32 :: [61, 61, 32] ++ right := by
      rw [Text.concat, List.flatten_cons, List.flatten_cons, List.flatten_singleton,
        List.append_assoc]
      rfl
    rw [hconcat]
    exact Text.cut?_append hleft
  rw [comparison?, hcut, Option.bind_eq_bind, Option.bind_some]
  dsimp only
  rw [hx, hy]
  rfl

theorem mapM_map_some {β γ δ : Type} {l : List β} {g : γ → Option δ}
    {piece : β → γ} {val : β → δ}
    (h : ∀ b ∈ l, g (piece b) = some (val b)) :
    (l.map piece).mapM g = some (l.map val) := by
  induction l with
  | nil => rfl
  | cons b l ih =>
      obtain ⟨hb, hl⟩ := List.forall_mem_cons.mp h
      rw [List.map_cons, List.mapM_cons, hb, ih hl]
      rfl

theorem compareFields_ne {fields : FieldsView} {left right : FieldView → Text} {t : Text}
    (hsome : fields.enabled ≠ []) (ht : 61 ∉ t) : compareFields fields left right ≠ t := by
  intro heq
  obtain ⟨f, fs, hfs⟩ := List.exists_cons_of_ne_nil hsome
  refine ht (heq ▸ ?_)
  have hpiece : (61 : UInt8) ∈ Text.concat [left f, " == ", right f] := by
    rw [Text.concat, List.flatten_cons, List.flatten_cons]
    exact List.mem_append_right _ (List.mem_append_left _ (by decide))
  rw [compareFields, hfs, List.map_cons]
  cases fs with
  | nil => exact hpiece
  | cons g fs => exact List.mem_append_left _ (List.mem_append_left _ hpiece)

/-- The comparison of the fields that take part holds if each of them is the same. -/
theorem condition?_compareFields {fields : FieldsView} {left right : FieldView → Text}
    {x y : FieldView → α} (hleft : ∀ f ∈ fields.enabled, IsOperand (left f))
    (hright : ∀ f ∈ fields.enabled, IsOperand (right f))
    (hx : ∀ f ∈ fields.enabled, scope (left f) = some (x f))
    (hy : ∀ f ∈ fields.enabled, scope (right f) = some (y f)) :
    condition? same scope (compareFields fields left right) =
      some (fields.enabled.all fun f => same (x f) (y f)) := by
  by_cases hsome : fields.enabled = []
  · rw [compareFields, hsome]
    rfl
  · have hsplit : (compareFields fields left right).splitOn " && " =
        fields.enabled.map fun f => Text.concat [left f, " == ", right f] := by
      have hempty : fields.enabled.isEmpty = false := by simpa using hsome
      rw [compareFields, hempty, if_neg Bool.false_ne_true]
      refine Text.splitOn_join (by decide) (by simpa using hsome) fun p hp => ?_
      obtain ⟨f, hf, rfl⟩ := List.mem_map.mp hp
      rw [Text.concat, List.flatten_cons, List.flatten_cons, List.flatten_singleton,
        List.mem_append, List.mem_append, not_or, not_or]
      exact ⟨(hleft f hf).2, by decide, (hright f hf).2⟩
    rw [condition?, if_neg (compareFields_ne hsome (by decide)),
      if_neg (compareFields_ne hsome (by decide)), hsplit,
      mapM_map_some fun f hf => comparison?_eq (hleft f hf).1 (hx f hf) (hy f hf),
      Option.map_some, List.all_map]
    rfl

end

/-! ## Operands -/

section

variable {a b : Datum α} {fields : FieldsView} {f : FieldView}

theorem isOperand_name (hnamed : fields.Named) (hf : f ∈ fields.all) :
    IsOperand f.name := by
  unfold FieldView.name
  cases hident : f.field.ident with
  | some name => exact isOperand_of_isIdent (hnamed f hf name hident)
  | none => exact isOperand_of_wordy (Text.wordy_ofNat f.index)

theorem isOperand_of {value : Text} (hvalue : IsOperand value) (hname : IsOperand f.name) :
    IsOperand (f.of value) := by
  refine isOperand_concat ?_
  simp only [List.forall_mem_cons]
  exact ⟨hvalue, by decide, hname, List.forall_mem_nil _⟩

theorem isOperand_binding {tag : Text} (htag : IsOperand tag) :
    IsOperand (f.binding tag) := by
  refine isOperand_concat ?_
  simp only [List.forall_mem_cons]
  exact ⟨by decide, htag, by decide, isOperand_of_wordy (Text.wordy_ofNat f.index),
    List.forall_mem_nil _⟩

theorem of_eq (f : FieldView) (value : Text) : f.of value = value ++ ("." ++ f.name) := by
  rw [FieldView.of, Text.concat, List.flatten_cons, List.flatten_cons,
    List.flatten_singleton]

theorem operand?_self : operand? a b f.member = some (a.held f.name) := by
  have hdrop : f.member.dropStart? "self." = some f.name := by
    rw [FieldView.member, of_eq]
    exact Text.dropStart?_append "self." f.name
  rw [operand?, hdrop]
  rfl

theorem operand?_other : operand? a b (f.of "other") = some (b.held f.name) := by
  have hself : (f.of "other").dropStart? "self." = none := rfl
  have hdrop : (f.of "other").dropStart? "other." = some f.name := by
    rw [of_eq]
    exact Text.dropStart?_append "other." f.name
  rw [operand?, hself, hdrop]
  rfl

theorem equal?_struct {same : α → α → Bool} (hnamed : fields.Named) :
    Code.equal? same a b (equalBody (.struct fields)) =
      some (fields.enabled.all fun f => same (a.held f.name) (b.held f.name)) :=
  condition?_compareFields
    (fun f hf => isOperand_of (by decide)
      (isOperand_name hnamed (List.mem_of_mem_filter hf)))
    (fun f hf => isOperand_of (by decide)
      (isOperand_name hnamed (List.mem_of_mem_filter hf)))
    (fun f _ => operand?_self) fun f _ => operand?_other

/-! ## Arms -/

theorem members_patternEnabled (h : fields.Ordered) (path tag : Text) :
    (fields.patternEnabled path tag).members =
      fields.enabled.map fun f => (f.name, f.binding tag) := by
  unfold FieldsView.patternEnabled
  split
  · next hstyle =>
      refine members_entries (·.enabled) (·.binding tag) 0 fun i f hf => ?_
      rw [h.name_eq hstyle hf, Nat.zero_add]
  · rw [Pat.members, List.filterMap_map]
    exact congrFun List.filterMap_eq_map' _
  · next hstyle =>
      rw [FieldsView.enabled, h.all_eq_nil hstyle]
      rfl

theorem binding_eq (f : FieldView) (tag : Text) :
    f.binding tag = "__" ++ (tag ++ ("_" ++ Text.ofNat f.index)) := by
  rw [FieldView.binding, Text.concat, List.flatten_cons, List.flatten_cons,
    List.flatten_cons, List.flatten_singleton]

theorem index_of_binding {g : FieldView} {tag : Text} (h : f.binding tag = g.binding tag) :
    f.index = g.index := by
  rw [binding_eq, binding_eq] at h
  exact Text.ofNat_injective
    (List.append_cancel_left (List.append_cancel_left (List.append_cancel_left h)))

/-- The names of the fields of `self` and `other` differ. -/
theorem binding_self_ne {g : FieldView} : f.binding "other" ≠ g.binding "self" := by
  rw [binding_eq, binding_eq]
  intro h
  have hbyte : some (111 : UInt8) = some 115 := congrArg (·[2]?) h
  cases hbyte

theorem lookup_binding {fs : List FieldView} {tag : Text}
    (hpairs : fs.Pairwise (·.index < ·.index))
    (hf : f ∈ fs) (held : FieldView → α) (rest : List (Text × α)) :
    ((fs.map fun f => (f.binding tag, held f)) ++ rest).lookup (f.binding tag) =
    some (held f) := by
  induction fs with
  | nil => cases hf
  | cons g fs ih =>
      obtain ⟨hlt, hpairs⟩ := List.pairwise_cons.mp hpairs
      rw [List.map_cons, List.cons_append, List.lookup_cons]
      rcases List.mem_cons.mp hf with rfl | hf
      · rw [beq_self_eq_true]
      · have hne : (f.binding tag == g.binding tag) = false :=
          beq_eq_false_iff_ne.mpr fun heq =>
            Nat.ne_of_gt (hlt f hf) (index_of_binding heq)
        rw [hne]
        exact ih hpairs hf

/-- Two values of one variant are compared by its fields that take part. -/
theorem equal?_equalArm {same : α → α → Bool} {v : VariantView} (h : v.fields.Ordered) :
    (equalArm v).equal? same a b =
      some (v.fields.enabled.all fun f => same (a.held f.name) (b.held f.name)) := by
  have hpairs : v.fields.enabled.Pairwise (·.index < ·.index) :=
    h.pairwise.sublist List.filter_sublist
  have hbound (c : Datum α) (tag : Text) : (v.fields.patternEnabled v.path tag).bound c =
      v.fields.enabled.map fun f => (f.binding tag, c.held f.name) := by
    rw [Pat.bound, members_patternEnabled h, List.map_map]
    rfl
  unfold equalArm Arm.equal?
  refine condition?_compareFields (fun f _ => isOperand_binding (by decide))
    (fun f _ => isOperand_binding (by decide)) (fun f hf => ?_) fun f hf => ?_
  · rw [hbound, hbound]
    exact lookup_binding hpairs hf (fun f => a.held f.name) _
  · have hnone : (v.fields.enabled.map fun g => (g.binding "self", a.held g.name)).lookup
        (f.binding "other") = none := by
      refine List.lookup_eq_none_iff.mpr fun e he => ?_
      obtain ⟨g, -, rfl⟩ := List.mem_map.mp he
      exact bne_iff_ne.mpr binding_self_ne
    rw [hbound, hbound, List.lookup_append, hnone, Option.none_or]
    rw [← List.append_nil (List.map _ _)]
    exact lookup_binding hpairs hf _ []

end

/-! ## The match -/

section

variable {same : α → α → Bool} {a b : Datum α} {views : List VariantView}
  {v w : VariantView}

theorem takesPair_equalArm (hfaithful : ∀ x ∈ views, x.Faithful)
    (hdistinct : (views.map (·.name)).Nodup) {x : VariantView} (hx : x ∈ views)
    (hv : v ∈ views) (hw : w ∈ views) :
    (equalArm x).takesPair v.variant w.variant =
    (x.name == v.name && x.name == w.name) := by
  have htakes (tag : Text) {y : VariantView} (hy : y ∈ views) :
      (x.fields.patternEnabled x.path tag).takes y.variant = (x.name == y.name) :=
    VariantView.takes_eq hdistinct hx hy (VariantView.path?_patternEnabled x.path tag)
      ((hfaithful x hx).takes_patternEnabled tag)
  rw [← htakes "self" hv, ← htakes "other" hw]
  rfl

/-- Values of one variant are compared by its arm, and a pair of two variants is left to the
last arm. -/
theorem find?_equalArms (hfaithful : ∀ x ∈ views, x.Faithful)
    (hdistinct : (views.map (·.name)).Nodup) (hv : v ∈ views) (hw : w ∈ views) :
    (views.map equalArm ++ if 1 < views.length then [Arm.yields .wild "false"]
    else []).find? (·.takesPair v.variant w.variant) =
      some (if v.name = w.name then equalArm v else Arm.yields .wild "false") := by
  have hfind : (views.map equalArm).find? (·.takesPair v.variant w.variant) =
      (views.find? fun x => x.name == v.name && x.name == w.name).map equalArm := by
    rw [List.find?_map]
    exact congrArg _ (List.find?_congr fun x hx =>
      takesPair_equalArm hfaithful hdistinct hx hv hw)
  rw [List.find?_append, hfind]
  by_cases hname : v.name = w.name
  · have hone : views.find? (fun x => x.name == v.name && x.name == w.name) = some v := by
      simp only [hname, Bool.and_self]
      rw [← hname]
      exact VariantView.find?_name hdistinct hv
    rw [if_pos hname, hone]
    rfl
  · have hnone : views.find? (fun x => x.name == v.name && x.name == w.name) = none := by
      refine List.find?_eq_none.mpr fun x _ h => ?_
      rw [Bool.and_eq_true, beq_iff_eq, beq_iff_eq] at h
      exact hname (h.1.symm.trans h.2)
    have htwo : 1 < views.length := by
      obtain ⟨i, hi, rfl⟩ := List.getElem_of_mem hv
      obtain ⟨j, hj, rfl⟩ := List.getElem_of_mem hw
      have hij : i ≠ j := fun h => hname (by subst h; rfl)
      omega
    rw [if_neg hname, hnone, if_pos htwo]
    rfl

/-- Two values of an enum agree if they are of one variant and its fields that take part are
the same. -/
theorem equal?_enum (hfaithful : ∀ x ∈ views, x.Faithful)
    (hdistinct : (views.map (·.name)).Nodup)
    (hv : v ∈ views) (hw : w ∈ views) (ha : a.variant = some v.variant)
    (hb : b.variant = some w.variant) :
    ∃ r, Code.equal? same a b (equalBody (.enum views)) = some r ∧
      (r = true ↔ (ShapeView.enum views).Agree same a b) := by
  have hbody : equalBody (.enum views) = .choose "(self, other)"
      (views.map equalArm ++ if 1 < views.length then [.yields .wild "false"] else []) := by
    cases views with
    | nil => cases hv
    | cons => rfl
  rw [hbody, Code.equal?, if_pos rfl, Arm.firstEqual?, ha, hb]
  dsimp only
  rw [find?_equalArms hfaithful hdistinct hv hw, Option.bind_some]
  by_cases hname : v.name = w.name
  · obtain rfl := List.inj_on_of_nodup_map hdistinct hv hw hname
    rw [if_pos rfl, equal?_equalArm (hfaithful v hv).ordered]
    refine ⟨_, rfl, ?_⟩
    rw [List.all_eq_true]
    constructor
    · exact fun h => ⟨v, hv, ha, hb, h⟩
    · rintro ⟨x, hx, hax, -, h⟩
      rw [ha] at hax
      have hxname : v.name = x.name := congrArg Variant.ident (Option.some.inj hax)
      obtain rfl := List.inj_on_of_nodup_map hdistinct hv hx hxname
      exact h
  · rw [if_neg hname]
    refine ⟨false, rfl, iff_of_false Bool.false_ne_true ?_⟩
    rintro ⟨x, -, hax, hbx, -⟩
    rw [ha] at hax
    rw [hb, ← hax] at hbx
    exact hname (congrArg Variant.ident (Option.some.inj hbx)).symm

end

/-! ## Laws of the comparison -/

/-- What an implementation answers on the values of a declaration. -/
structure Structural (same : α → α → Bool) (i : Impl) (shape : ShapeView) (data : Data) :
    Prop where
  /-- There is an answer on every pair, and it is whether the two agree. -/
  decides : ∀ a b : Datum α, a.Inhabits data → b.Inhabits data →
    ∃ r, i.equal? same a b = some r ∧ (r = true ↔ shape.Agree same a b)
  refl : (∀ x, same x x = true) → ∀ a : Datum α, a.Inhabits data →
    i.equal? same a a = some true
  symm : (∀ x y, same x y = true → same y x = true) → ∀ a b : Datum α, a.Inhabits data →
    b.Inhabits data → i.equal? same a b = some true → i.equal? same b a = some true
  trans : (∀ x y z, same x y = true → same y z = true → same x z = true) →
    ∀ a b c : Datum α,
    a.Inhabits data → b.Inhabits data → c.Inhabits data → i.equal? same a b = some true →
    i.equal? same b c = some true → i.equal? same a c = some true

section

variable {same : α → α → Bool} {a b c : Datum α} {shape : ShapeView}
  {views : List VariantView}

theorem agree_symm (hsymm : ∀ x y, same x y = true → same y x = true)
    (h : shape.Agree same a b) : shape.Agree same b a := by
  cases shape with
  | struct fields => exact fun f hf => hsymm _ _ (h f hf)
  | enum views =>
      obtain ⟨v, hv, ha, hb, h⟩ := h
      exact ⟨v, hv, hb, ha, fun f hf => hsymm _ _ (h f hf)⟩

theorem agree_trans (htrans : ∀ x y z, same x y = true → same y z = true → same x z = true)
    (hdistinct : ∀ views, shape = .enum views → (views.map (·.name)).Nodup)
    (h : shape.Agree same a b) (h' : shape.Agree same b c) : shape.Agree same a c := by
  cases shape with
  | struct fields => exact fun f hf => htrans _ _ _ (h f hf) (h' f hf)
  | enum views =>
      obtain ⟨v, hv, ha, hb, h⟩ := h
      obtain ⟨w, hw, hb', hc, h'⟩ := h'
      -- the value in the middle is of one variant, which only one view has
      rw [hb] at hb'
      have hname : v.name = w.name := congrArg Variant.ident (Option.some.inj hb')
      obtain rfl := List.inj_on_of_nodup_map (hdistinct views rfl) hv hw hname
      exact ⟨v, hv, ha, hc, fun f hf => htrans _ _ _ (h f hf) (h' f hf)⟩

theorem structural_of_decides {i : Impl} {data : Data}
    (hdecides : ∀ a b : Datum α, a.Inhabits data → b.Inhabits data →
      ∃ r, i.equal? same a b = some r ∧ (r = true ↔ shape.Agree same a b))
    (hrefl : (∀ x, same x x = true) → ∀ a : Datum α, a.Inhabits data → shape.Agree same a a)
    (hdistinct : ∀ views, shape = .enum views → (views.map (·.name)).Nodup) :
    Structural same i shape data := by
  have htrue {a b : Datum α} (ha : a.Inhabits data) (hb : b.Inhabits data) :
      i.equal? same a b = some true ↔ shape.Agree same a b := by
    obtain ⟨r, hr, hiff⟩ := hdecides a b ha hb
    rw [hr, Option.some_inj, hiff]
  refine ⟨hdecides, fun h a ha => (htrue ha ha).mpr (hrefl h a ha),
    fun h a b ha hb hab => ?_, fun h a b c ha hb hc hab hbc => ?_⟩
  · exact (htrue hb ha).mpr (agree_symm h ((htrue ha hb).mp hab))
  · exact (htrue ha hc).mpr
      (agree_trans h hdistinct ((htrue ha hb).mp hab) ((htrue hb hc).mp hbc))

/-- The implementation whose function `eq` compares by shape. -/
def comparing (header : Text) (shape : ShapeView) : Impl :=
  .block header [.inline, .block "fn eq(&self, other: &Self) -> bool" [equalBody shape]]

theorem structural_struct {fields : FieldsView} {list : Fields} (header : Text)
    (hnamed : fields.Named) :
    Structural same (comparing header (.struct fields)) (.struct fields)
    (.struct list) := by
  refine structural_of_decides (fun a b _ _ => ⟨_, equal?_struct hnamed, ?_⟩)
    (fun h a _ f _ => h _) nofun
  exact List.all_eq_true

theorem structural_enum (header : Text) (hfaithful : ∀ x ∈ views, x.Faithful)
    (hdistinct : (views.map (·.name)).Nodup) :
    Structural same (comparing header (.enum views)) (.enum views)
      (.enum (views.map (·.variant))) := by
  refine structural_of_decides (fun a b ha hb => ?_) (fun h a ha => ?_)
    (by rintro _ ⟨⟩; exact hdistinct)
  · obtain ⟨_, hmem, ha⟩ := ha
    obtain ⟨_, hmem', hb⟩ := hb
    obtain ⟨v, hv, rfl⟩ := List.mem_map.mp hmem
    obtain ⟨w, hw, rfl⟩ := List.mem_map.mp hmem'
    exact equal?_enum hfaithful hdistinct hv hw ha hb
  · obtain ⟨_, hmem, ha⟩ := ha
    obtain ⟨v, hv, rfl⟩ := List.mem_map.mp hmem
    exact ⟨v, hv, ha, ha, fun f _ => h _⟩

end

theorem of_run_withAttrs {family name path method : Text} {params : Params}
    {attrs : List Text}
    {expand : Support → Expand} {support : Support} {decl : Decl} {e : Expansion}
    (h : ((entry family name path method params expand).withAttrs attrs).run support
    decl = .ok e) :
    expand support decl
    ((entry family name path method params expand).withAttrs attrs).spec =
      .ok e.impls := by
  obtain ⟨warnings, h⟩ := of_run_ok h
  obtain ⟨impls, hexpand, h⟩ := of_bind_ok h
  cases h
  exact hexpand

/-- For every parsed struct, and every parsed enum whose variants have names of their own,
the function that is emitted has an answer on all pairs of values: whether they are of one
variant and all fields of it that take part compare equal. So it is reflexive, symmetric
and transitive where the comparison of fields is. -/
theorem partialEq_structural {source : Text} {decl : Decl} {d : Derive} {support : Support}
    {e : Expansion} (hd : find? "PartialEq" = some d)
    (hdecl : decl ∈ (parse source).file.decls)
    (hdistinct : (decl.data.variants.map (·.ident)).Nodup) (h : d.run support decl = .ok e)
    (same : α → α → Bool) :
    ∃ s i, Selection.ofDecl decl d.spec = .ok s ∧ e.impls = [i] ∧
      Structural same i s.shape decl.data := by
  cases hd
  obtain ⟨s, hs, hbody⟩ := of_bind_ok (of_run_withAttrs h)
  refine ⟨s, comparing _ s.shape, hs, (Except.ok.inj hbody).symm, ?_⟩
  cases hdata : decl.data with
  | union fields => exact absurd hs (Selection.not_ofDecl_union hdata)
  | struct fields =>
      have hnamed := Selection.named_of_ofDecl (named_of_parse hdecl).data hs
      obtain ⟨-, v, hshape, -⟩ := Selection.struct_resolves hs hdata
      rw [hshape] at hnamed ⊢
      exact structural_struct _ hnamed
  | enum variants =>
      obtain ⟨-, views, hshape, rfl, -⟩ := Selection.enum_resolves hs hdata
      have hfaithful := Selection.faithful_of_ofDecl (styled_of_parse hdecl) hs hshape
      rw [hdata, Data.variants, List.map_map] at hdistinct
      rw [hshape]
      exact structural_enum _ hfaithful hdistinct

/-- Two values of a variant that differ in a field that is left out are equal, and values of
two variants are not. -/
theorem partialEq_structural_skipped : ∃ d decl e s i v w, ∃ views : List VariantView,
    find? "PartialEq" = some d ∧
    (parse "enum E { A(i32, #[eq(skip)] u8), B { x: i32 } }").file.decls = [decl] ∧
    d.run {} decl = .ok e ∧ Selection.ofDecl decl d.spec = .ok s ∧ e.impls = [i] ∧
    decl.data = .enum [v, w] ∧ s.shape = .enum views ∧
    i.equal? (· == ·) ⟨some v, fun _ => 1⟩ ⟨some v,
    fun name => if name = "1" then 2 else 1⟩ = some true ∧
    i.equal? (· == ·) ⟨some v, fun _ => 1⟩ ⟨some w, fun _ => 1⟩ = some false := by
  obtain ⟨d, decl, e, s, v, w, x, y, f, hd, hdecls, he, hs, hdata, hshape, hv, hw,
      hfields, hname, hdistinct⟩ : ∃ d decl e s v w, ∃ x y : VariantView, ∃ f,
      find? "PartialEq" = some d ∧
      (parse "enum E { A(i32, #[eq(skip)] u8), B { x: i32 } }").file.decls = [decl] ∧
      d.run {} decl = .ok e ∧ Selection.ofDecl decl d.spec = .ok s ∧
      decl.data = .enum [v, w] ∧ s.shape = .enum [x, y] ∧ x.variant = v ∧ y.variant = w ∧
      x.fields.enabled = [f] ∧ f.name = "0" ∧ (decl.data.variants.map (·.ident)).Nodup :=
    ⟨_, _, _, _, _, _, _, _, _, rfl, rfl, rfl, rfl, rfl, rfl, rfl, rfl, rfl, rfl, by
      decide +kernel⟩
  obtain ⟨s', i, hs', hi, hlaws⟩ :=
    partialEq_structural hd (hdecls ▸ List.mem_singleton_self decl) hdistinct he
      (α := Nat) (· == ·)
  cases hs.symm.trans hs'
  rw [hdata, hshape] at hlaws
  have hone (held : Text → Nat) : Datum.Inhabits ⟨some v, held⟩ (.enum [v, w]) :=
    ⟨v, by simp, rfl⟩
  have htwo (held : Text → Nat) : Datum.Inhabits ⟨some w, held⟩ (.enum [v, w]) :=
    ⟨w, by simp, rfl⟩
  obtain ⟨r, hr, hiff⟩ := hlaws.decides _ _ (hone fun _ => 1)
    (hone fun name => if name = "1" then 2 else 1)
  obtain ⟨r', hr', hiff'⟩ := hlaws.decides _ _ (hone fun _ => 1) (htwo fun _ => 1)
  refine ⟨d, decl, e, s, i, v, w, _, hd, hdecls, he, hs, hi, hdata, hshape, ?_, ?_⟩
  · rw [hr, hiff.mpr ⟨x, by simp, hv ▸ rfl, hv ▸ rfl, ?_⟩]
    rw [hfields]
    intro g hg
    cases List.mem_singleton.mp hg
    rw [hname]
    rfl
  · rw [hr', Option.some_inj, ← Bool.not_eq_true, hiff']
    rintro ⟨z, -, hz, hz', -⟩
    rw [hdata] at hdistinct
    cases Option.some.inj (hz.trans hz'.symm)
    simp [Data.variants] at hdistinct

end Derive

end Deriver
