import Deriver.Format.Use
import Deriver.Proofs.Select.Resolution
import Deriver.Proofs.Text.Basic

/-!
# Which variants patterns and matches take

Generated patterns look no deeper than the fields of a variant, and the entry of a field
takes whatever the field holds. So a pattern takes every value of a variant or none, and
which variants it takes is decided by its path and by how many entries it has. The patterns
that are made for a variant take it (`takes_pattern` and its like), and a pattern takes no
variant of another name than its path has.

Every match that a piece of code holds is collected with the function it stands in. A match
of the declared value, or of two of them, is exhaustive if each variant, or pair of
variants, has an arm that takes it; whatever else is matched, there has to be an arm that
takes everything.
-/

namespace Deriver

/-- The variant as patterns and expressions name it. -/
def Variant.path (v : Variant) : Text := "Self::" ++ v.ident

theorem Variant.path_inj {v w : Variant} : v.path = w.path ↔ v.ident = w.ident :=
  List.append_right_inj _

/-- What the fields of a list are called, in order. -/
def Fields.members (fs : Fields) : List Text :=
  fs.list.mapIdx fun i f => f.ident.getD (Text.ofNat i)

namespace Pat

/-- Whether an entry takes whatever its field holds. -/
def isOpen : Pat → Bool
  | .wild | .bind _ => true
  | _ => false

/-- Whether entries in parentheses take whatever a number of fields hold. -/
def standFor (count : Nat) : List Pat → Bool
  | [.rest] => true
  | entries => entries.length == count && entries.all isOpen

mutual

/-- Whether a pattern takes the values of a variant. A bare path takes a variant without
fields, whether or not it is declared with brackets. -/
def takes (v : Variant) : Pat → Bool
  | .wild | .bind _ => true
  | .rest | .const _ | .pair .. => false
  | .unit path => path == v.path && v.fields.list.isEmpty
  | .tuple path entries =>
      path == v.path && v.fields.style == .tuple && standFor v.fields.list.length entries
  | .record path entries hasRest =>
      path == v.path && v.fields.style == .named &&
        entries.all (fun e => v.fields.members.contains e.1 && e.2.all isOpen) &&
        (hasRest || v.fields.members.all (entries.map (·.1)).contains)
  | .anyOf choices => takesAny v choices
  | .named _ pat => pat.takes v

/-- Whether one of several patterns takes the values of a variant. -/
def takesAny (v : Variant) : List Pat → Bool
  | [] => false
  | p :: ps => p.takes v || takesAny v ps

end

/-- Whether a pattern takes the pairs of a value of `v` and one of `w`. -/
def takesPair (v w : Variant) : Pat → Bool
  | .wild | .bind _ => true
  | .pair left right => left.takes v && right.takes w
  | _ => false

/-- The path that a pattern begins with, if it has one. -/
def path? : Pat → Option Text
  | .unit path | .tuple path _ | .record path _ _ => some path
  | _ => none

theorem takes_of_isOpen {p : Pat} (h : p.isOpen = true) (v : Variant) :
    p.takes v = true := by
  cases p with
  | wild | bind => rfl
  | _ => cases h

theorem path_of_takes {p : Pat} {v : Variant} {path : Text} (hpath : p.path? = some path)
    (h : p.takes v = true) : path = v.path := by
  cases p with
  | unit => simp_all [path?, takes]
  | tuple => simp_all [path?, takes]
  | record => simp_all [path?, takes]
  | _ => cases hpath

theorem standFor_of_open {count : Nat} {entries : List Pat}
    (hlength : entries.length = count)
    (hopen : ∀ p ∈ entries, p.isOpen = true) : standFor count entries = true := by
  unfold standFor
  split
  · rfl
  · rw [hlength, beq_self_eq_true, Bool.true_and]
    exact List.all_eq_true.mpr hopen

/-- Whether a pattern has the form that some fields are declared in: without brackets the
path alone, in parentheses an entry for each field or `..`, and in braces entries for some
of the fields, with `..` unless these are all. -/
def Shaped (fs : Fields) (path : Text) : Pat → Prop
  | .unit p => p = path ∧ fs.style = .unit
  | .tuple p entries =>
      p = path ∧ fs.style = .tuple ∧ standFor fs.list.length entries = true
  | .record p entries hasRest =>
      p = path ∧ fs.style = .named ∧ (entries.map (·.1)).Sublist fs.members ∧
        (∀ e ∈ entries, e.2.all isOpen = true) ∧
        (hasRest = false → entries.map (·.1) = fs.members)
  | _ => False

theorem shaped_tuple {fs : Fields} {path : Text} {entries : List Pat}
    (hstyle : fs.style = .tuple)
    (hlength : entries.length = fs.list.length) (hopen : ∀ p ∈ entries, p.isOpen = true) :
    (Pat.tuple path entries).Shaped fs path :=
  ⟨rfl, hstyle, standFor_of_open hlength hopen⟩

theorem takes_unit {v : Variant} (hnone : v.fields.list = []) :
    (Pat.unit v.path).takes v = true := by
  rw [takes, beq_self_eq_true, hnone]
  rfl

theorem Shaped.takes {p : Pat} {v : Variant} (h : p.Shaped v.fields v.path)
    (hunit : v.fields.style = .unit → v.fields.list = []) : p.takes v = true := by
  cases p with
  | unit path =>
      obtain ⟨rfl, hstyle⟩ := h
      exact takes_unit (hunit hstyle)
  | tuple path entries =>
      obtain ⟨rfl, hstyle, hentries⟩ := h
      rw [Pat.takes, beq_self_eq_true, hstyle, hentries]
      rfl
  | record path entries hasRest =>
      obtain ⟨rfl, hstyle, hnames, hopen, hrest⟩ := h
      have hall : entries.all (fun e => v.fields.members.contains e.1 && e.2.all isOpen) =
          true :=
        List.all_eq_true.mpr fun e he => by
          rw [List.contains_iff_mem.mpr (hnames.mem (List.mem_map_of_mem he)), hopen e he]
          rfl
      have hmembers : (hasRest || v.fields.members.all (entries.map (·.1)).contains) =
          true := by
        cases hasRest with
        | true => rfl
        | false =>
            rw [hrest rfl]
            exact List.all_eq_true.mpr fun m hm => List.contains_iff_mem.mpr hm
      rw [Pat.takes, beq_self_eq_true, hstyle, hall, hmembers]
      rfl
  | _ => cases h

theorem shaped_anyPattern (fs : Fields) (path : Text) :
    (fs.anyPattern path).Shaped fs path := by
  unfold Fields.anyPattern
  cases hstyle : fs.style with
  | tuple => exact ⟨rfl, hstyle, rfl⟩
  | named => exact ⟨rfl, hstyle, List.nil_sublist _, List.forall_mem_nil _, nofun⟩
  | unit => exact ⟨rfl, hstyle⟩

end Pat

/-- The pattern of an arm that does not pass on what it fits. -/
def Arm.pat? : Arm → Option Pat
  | .yields pat _ | .runs pat _ | .chooses pat _ _ => some pat
  | .guarded .. => none

/-- Whether an arm takes the values of a variant. -/
def Arm.takes (v : Variant) (a : Arm) : Bool := a.pat?.any (·.takes v)

/-- Whether an arm takes the pairs of a value of `v` and one of `w`. -/
def Arm.takesPair (v w : Variant) (a : Arm) : Bool := a.pat?.any (·.takesPair v w)

/-! ## Patterns for the variants of a selection -/

/-- If no field is passed over, those that take part are all of them. -/
theorem FieldsView.enabled_eq_all {v : FieldsView} (h : v.skipped = []) :
    v.enabled = v.all :=
  List.filter_eq_self.mpr fun f hf => by simpa using List.filter_eq_nil_iff.mp h f hf

theorem FieldsView.Ordered.map_name {v : FieldsView} {fs : Fields} (h : v.Ordered)
    (hfields : v.all.map (·.field) = fs.list) : v.all.map (·.name) = fs.members := by
  have hlength : v.all.length = fs.list.length := by rw [← hfields, List.length_map]
  unfold Fields.members
  refine List.ext_getElem (by simp [hlength]) fun i hi hi' => ?_
  rw [List.length_map] at hi
  have hlist : i < fs.list.length := hlength ▸ hi
  have hfield : fs.list[i] = v.all[i].field := by simp only [← hfields, List.getElem_map]
  rw [List.getElem_map, List.getElem_mapIdx, hfield, FieldView.name,
    h.index i _ (List.getElem?_eq_getElem hi)]

/-- Whether a variant is viewed with the fields it is declared with, in order. -/
structure VariantView.Faithful (w : VariantView) : Prop where
  ordered : w.fields.Ordered
  style : w.fields.style = w.variant.fields.style
  fields : w.fields.all.map (·.field) = w.variant.fields.list

theorem Selection.faithful_of_ofDecl {decl : Decl} {spec : TraitSpec} {s : Selection}
    {views : List VariantView} (hstyled : decl.data.Styled) (h : ofDecl decl spec = .ok s)
    (hshape : s.shape = .enum views) : ∀ w ∈ views, w.Faithful := by
  have hordered := ordered_of_ofDecl hstyled h
  rw [hshape] at hordered
  cases hdata : decl.data with
  | union fields => exact absurd h (not_ofDecl_union hdata)
  | struct fields =>
      obtain ⟨-, v, hstruct, -⟩ := struct_resolves h hdata
      rw [hshape] at hstruct
      cases hstruct
  | enum variants =>
      obtain ⟨-, views', henum, -, -, hresolves⟩ := enum_resolves h hdata
      rw [hshape] at henum
      cases henum
      exact fun w hw =>
        ⟨hordered w hw, (hresolves w hw).fields.style, (hresolves w hw).fields.members⟩

namespace VariantView

variable {w : VariantView}

namespace Faithful

theorem length_all (h : w.Faithful) :
    w.fields.all.length = w.variant.fields.list.length := by
  rw [← h.fields, List.length_map]

theorem list_eq_nil (h : w.Faithful) (hstyle : w.variant.fields.style = .unit) :
    w.variant.fields.list = [] := by
  rw [← h.fields, h.ordered.all_eq_nil (h.style.trans hstyle)]
  rfl

theorem map_name (h : w.Faithful) : w.fields.all.map (·.name) = w.variant.fields.members :=
  h.ordered.map_name h.fields

theorem name_mem (h : w.Faithful) {f : FieldView} (hf : f ∈ w.fields.all) :
    f.name ∈ w.variant.fields.members :=
  h.map_name ▸ List.mem_map_of_mem hf

theorem getD_ident (h : w.Faithful) (hstyle : w.fields.style = .named) {f : FieldView}
    (hf : f ∈ w.fields.all) : f.field.ident.getD [] = f.name := by
  have hall := h.ordered.styled
  unfold Fields.Styled at hall
  rw [hstyle] at hall
  obtain ⟨name, hname⟩ :=
    Option.isSome_iff_exists.mp (hall f.field (List.mem_map_of_mem hf))
  rw [FieldView.name, hname]
  rfl

theorem shaped_tuple (h : w.Faithful) (hstyle : w.fields.style = .tuple) (path : Text)
    {entry : FieldView → Pat} (hopen : ∀ f, (entry f).isOpen = true) :
    (Pat.tuple path (w.fields.all.map entry)).Shaped w.variant.fields path := by
  refine Pat.shaped_tuple (h.style ▸ hstyle) ?_ fun p hp => ?_
  · rw [List.length_map, h.length_all]
  · obtain ⟨f, -, rfl⟩ := List.mem_map.mp hp
    exact hopen f

/-- Entries in braces for the fields that are chosen, with `..` if some are not. -/
theorem shaped_record (h : w.Faithful) (hstyle : w.fields.style = .named) (path : Text)
    (chosen : FieldView → Bool) {entry : FieldView → Text × Option Pat} {hasRest : Bool}
    (hname : ∀ f ∈ w.fields.all, (entry f).1 = f.name)
    (hopen : ∀ f, (entry f).2.all Pat.isOpen = true)
    (hrest : hasRest = false → w.fields.all.filter chosen = w.fields.all) :
    (Pat.record path ((w.fields.all.filter chosen).map entry) hasRest).Shaped
    w.variant.fields path := by
  have hnames : ((w.fields.all.filter chosen).map entry).map (·.1) =
      (w.fields.all.filter chosen).map (·.name) := by
    rw [List.map_map]
    exact List.map_congr_left fun f hf => hname f (List.mem_of_mem_filter hf)
  refine ⟨rfl, h.style ▸ hstyle, ?_, fun e he => ?_, fun hall => ?_⟩
  · rw [hnames, ← h.map_name]
    exact List.filter_sublist.map _
  · obtain ⟨f, -, rfl⟩ := List.mem_map.mp he
    exact hopen f
  · rw [hnames, hrest hall, h.map_name]

/-- A pattern with an open entry for every field has the form of its variant. -/
theorem shaped_patternWith (h : w.Faithful) (path : Text) {entry : FieldView → Pat}
    (hopen : ∀ f, (entry f).isOpen = true) :
    (w.fields.patternWith path entry).Shaped w.variant.fields path := by
  unfold FieldsView.patternWith
  cases hstyle : w.fields.style with
  | tuple => exact h.shaped_tuple hstyle path hopen
  | named =>
      have hall : w.fields.all.filter (fun _ => true) = w.fields.all := List.filter_true _
      dsimp only
      rw [← hall]
      exact h.shaped_record hstyle path _ (fun _ _ => rfl) hopen fun _ => hall
  | unit => exact ⟨rfl, h.style ▸ hstyle⟩

theorem shaped_pattern (h : w.Faithful) (path tag : Text) :
    (w.fields.pattern path tag).Shaped w.variant.fields path :=
  h.shaped_patternWith path fun _ => rfl

/-- A pattern that passes over fields has the form of its variant as well. -/
theorem shaped_patternEnabled (h : w.Faithful) (path tag : Text) :
    (w.fields.patternEnabled path tag).Shaped w.variant.fields path := by
  unfold FieldsView.patternEnabled
  cases hstyle : w.fields.style with
  | tuple => exact h.shaped_tuple hstyle path fun f => by cases f.enabled <;> rfl
  | named =>
      exact h.shaped_record hstyle path _ (fun _ _ => rfl) (fun _ => rfl)
        fun hall => FieldsView.enabled_eq_all (by simpa using hall)
  | unit => exact ⟨rfl, h.style ▸ hstyle⟩

/-- A pattern that binds the fields that a format uses has the form of its variant too. -/
theorem shaped_formatPattern (h : w.Faithful) (path : Text) (used : List Text) :
    (w.fields.formatPattern path used).Shaped w.variant.fields path := by
  unfold FieldsView.formatPattern
  cases hstyle : w.fields.style with
  | tuple =>
      dsimp only
      split
      · exact ⟨rfl, h.style ▸ hstyle, rfl⟩
      · exact h.shaped_tuple hstyle path fun f => by split <;> rfl
  | named =>
      refine h.shaped_record hstyle path _ (fun f hf => h.getD_ident hstyle hf)
        (fun _ => rfl)
        fun hall => ?_
      -- none is passed over, so the fields that are used are all of them
      exact List.filter_sublist.eq_of_length_le (Nat.le_of_not_lt (of_decide_eq_false hall))
  | unit => exact ⟨rfl, h.style ▸ hstyle⟩

theorem takes_of_shaped (h : w.Faithful) {p : Pat} (hp : p.Shaped w.variant.fields w.path) :
    p.takes w.variant = true :=
  hp.takes h.list_eq_nil

theorem takes_pattern (h : w.Faithful) (tag : Text) :
    (w.fields.pattern w.path tag).takes w.variant = true :=
  h.takes_of_shaped (h.shaped_pattern _ _)

theorem takes_patternEnabled (h : w.Faithful) (tag : Text) :
    (w.fields.patternEnabled w.path tag).takes w.variant = true :=
  h.takes_of_shaped (h.shaped_patternEnabled _ _)

theorem takes_formatPattern (h : w.Faithful) (used : List Text) :
    (w.fields.formatPattern w.path used).takes w.variant = true :=
  h.takes_of_shaped (h.shaped_formatPattern _ _)

theorem takes_anyPattern (h : w.Faithful) : w.anyPattern.takes w.variant = true :=
  h.takes_of_shaped (Pat.shaped_anyPattern _ _)

end Faithful

/-! ### No other variant is taken -/

theorem path?_patternEnabled (path tag : Text) :
    (w.fields.patternEnabled path tag).path? = some path := by
  unfold FieldsView.patternEnabled
  split <;> rfl

theorem path?_formatPattern (path : Text) (used : List Text) :
    (w.fields.formatPattern path used).path? = some path := by
  unfold FieldsView.formatPattern
  dsimp only
  split
  · split <;> rfl
  · rfl
  · rfl

/-- A pattern that begins with the path of a variant takes no variant of another name. -/
theorem name_of_takes {p : Pat} {v : Variant} (hpath : p.path? = some w.path)
    (h : p.takes v = true) : w.name = v.ident :=
  (Variant.path_inj (v := w.variant)).mp (Pat.path_of_takes hpath h)

/-- Of variants with distinct names, a pattern that takes its own takes no other. -/
theorem takes_eq {views : List VariantView} (hdistinct : (views.map (·.name)).Nodup)
    {v : VariantView} (hw : w ∈ views) (hv : v ∈ views) {p : Pat}
    (hpath : p.path? = some w.path)
    (hown : p.takes w.variant = true) : p.takes v.variant = (w.name == v.name) := by
  by_cases hname : w.name = v.name
  · obtain rfl := List.inj_on_of_nodup_map hdistinct hw hv hname
    rw [hown, beq_self_eq_true]
  · rw [beq_eq_false_iff_ne.mpr hname, ← Bool.not_eq_true]
    exact mt (name_of_takes hpath) hname

/-- Of variants with distinct names, one is found by its own. -/
theorem find?_name {views : List VariantView} (hdistinct : (views.map (·.name)).Nodup)
    (hw : w ∈ views) : views.find? (·.name == w.name) = some w := by
  have hsome : (views.find? (·.name == w.name)).isSome = true :=
    List.find?_isSome.mpr ⟨w, hw, beq_self_eq_true _⟩
  obtain ⟨v, hv⟩ := Option.isSome_iff_exists.mp hsome
  have hname : v.name = w.name := by simpa using List.find?_some hv
  rw [hv, List.inj_on_of_nodup_map hdistinct (List.mem_of_find?_eq_some hv) hw hname]

end VariantView

/-! ## The matches in generated code -/

/-- A match, with the head of the block it stands in. -/
structure Match where
  head : Text
  scrutinee : Text
  arms : List Arm

mutual

/-- The matches in a piece of code that stands in a block with a head. -/
def Code.matches (head : Text) : Code → List Match
  | .line _ | .blank => []
  | .block head body => Code.matchesAll head body
  | .choose scrutinee arms => ⟨head, scrutinee, arms⟩ :: Arm.matchesAll head arms
  | .chooseNone scrutinee => [⟨head, scrutinee, []⟩]
  | .reflow body => Code.matchesAll head body

/-- The matches in several pieces of code. -/
def Code.matchesAll (head : Text) : List Code → List Match
  | [] => []
  | c :: cs => c.matches head ++ Code.matchesAll head cs

/-- The matches in an arm. -/
def Arm.matches (head : Text) : Arm → List Match
  | .yields .. | .guarded .. => []
  | .runs _ body => Code.matchesAll head body
  | .chooses _ scrutinee arms => ⟨head, scrutinee, arms⟩ :: Arm.matchesAll head arms

/-- The matches in several arms. -/
def Arm.matchesAll (head : Text) : List Arm → List Match
  | [] => []
  | a :: as => a.matches head ++ Arm.matchesAll head as

end

/-- The matches in an implementation. -/
def Impl.matches : Impl → List Match
  | .block header body => Code.matchesAll header body
  | .marker _ => []

theorem Code.matchesAll_eq_flatMap (head : Text) (cs : List Code) :
    Code.matchesAll head cs = cs.flatMap (·.matches head) := by
  induction cs with
  | nil => rfl
  | cons c cs ih => rw [matchesAll, ih, List.flatMap_cons]

/-- If only the last piece of code holds matches, these are all of them. -/
theorem Code.matchesAll_last {head : Text} {before : List Code} {code : Code}
    (hbefore : ∀ c ∈ before, c.matches head = []) :
    Code.matchesAll head (before ++ [code]) = code.matches head := by
  rw [matchesAll_eq_flatMap, List.flatMap_append, List.flatMap_eq_nil_iff.mpr hbefore,
    List.flatMap_singleton, List.nil_append]

theorem Arm.matchesAll_eq_flatMap (head : Text) (as : List Arm) :
    Arm.matchesAll head as = as.flatMap (·.matches head) := by
  induction as with
  | nil => rfl
  | cons a as ih => rw [matchesAll, ih, List.flatMap_cons]

/-- Whether an arm takes whatever is matched. -/
def Arm.isOpen (a : Arm) : Bool := a.pat?.any Pat.isOpen

theorem Arm.takes_of_isOpen {a : Arm} (h : a.isOpen = true) (v : Variant) :
    a.takes v = true := by
  unfold isOpen at h
  unfold takes
  cases hpat : a.pat? with
  | none =>
      rw [hpat] at h
      cases h
  | some p =>
      rw [hpat] at h
      exact Pat.takes_of_isOpen h v

theorem Arm.takesPair_of_isOpen {a : Arm} (h : a.isOpen = true) (v w : Variant) :
    a.takesPair v w = true := by
  unfold isOpen at h
  unfold takesPair
  cases hpat : a.pat? with
  | none =>
      rw [hpat] at h
      cases h
  | some p =>
      rw [hpat] at h
      cases p with
      | wild | bind => rfl
      | _ => cases h

namespace Match

/-- Whether some arm takes the values of a variant, which is known by its name. -/
def Covers (variants : List Variant) (m : Match) (v : Variant) : Prop :=
  ∃ w ∈ variants, w.ident = v.ident ∧ ∃ a ∈ m.arms, a.takes w = true

/-- Whether some arm takes the pairs of values of two variants. -/
def CoversPair (m : Match) (v w : Variant) : Prop := ∃ a ∈ m.arms, a.takesPair v w = true

/-- Whether two values of the declaration are matched. -/
def isOfPair (m : Match) : Bool :=
  m.scrutinee == "(self, other)" || m.scrutinee == "(self, rhs)"

/-- Whether one value of the declaration is matched, possibly by reference. -/
def isOfSelf (m : Match) : Bool := m.scrutinee == "self" || m.scrutinee == "*self"

/-- Whether every value that is matched is taken by some arm. -/
def Exhaustive (variants : List Variant) (m : Match) : Prop :=
  if m.isOfPair then ∀ v ∈ variants, ∀ w ∈ variants, m.CoversPair v w
  else if m.isOfSelf then ∀ v ∈ variants, m.Covers variants v
  else m.arms.any Arm.isOpen = true

/-- Whether the value that is matched is the declared one itself, and not a reference to
it: it is dereferenced, or the function takes it by value. -/
def isByValue (m : Match) : Bool :=
  m.scrutinee == "*self" ||
    m.scrutinee == "self" && (Text.cut? m.head "(").any fun (_, params) =>
      params.startsWith "self"

/-- Whether a match is exhaustive and, if it has no arms, is by value or not as `byValue`
says. -/
structure Complete (variants : List Variant) (byValue : Bool) (m : Match) : Prop where
  exhaustive : m.Exhaustive variants
  empty : m.arms = [] → m.isByValue = byValue

variable {variants : List Variant} {byValue : Bool} {m : Match}

/-- An arm that takes everything is enough, whatever is matched. -/
theorem complete_of_isOpen {a : Arm} (ha : a ∈ m.arms) (hopen : a.isOpen = true) :
    m.Complete variants byValue := by
  refine ⟨?_, fun hnone => absurd (hnone ▸ ha) List.not_mem_nil⟩
  unfold Exhaustive
  split
  · exact fun v _ w _ => ⟨a, ha, Arm.takesPair_of_isOpen hopen v w⟩
  · split
    · exact fun v hv => ⟨v, hv, rfl, a, ha, Arm.takes_of_isOpen hopen v⟩
    · exact List.any_eq_true.mpr ⟨a, ha, hopen⟩

/-- A match of a value is complete if each variant has an arm that takes it. -/
theorem complete_of_takes (hself : m.scrutinee = "self")
    (htakes : ∀ v ∈ variants, ∃ w ∈ variants, w.ident = v.ident ∧
    ∃ a ∈ m.arms, a.takes w = true)
    (hempty : m.arms = [] → m.isByValue = byValue) : m.Complete variants byValue := by
  refine ⟨?_, hempty⟩
  unfold Exhaustive isOfPair isOfSelf
  rw [hself]
  exact htakes

/-- A match of two values is complete if each two variants have an arm that takes them. -/
theorem complete_of_takesPair (hpair : m.isOfPair = true)
    (htakes : ∀ v ∈ variants, ∀ w ∈ variants, ∃ a ∈ m.arms, a.takesPair v w = true)
    (hempty : m.arms = [] → m.isByValue = byValue) : m.Complete variants byValue := by
  refine ⟨?_, hempty⟩
  unfold Exhaustive
  rw [if_pos hpair]
  exact htakes

/-- Nothing is left over by a match without arms if there are no variants. -/
theorem complete_of_no_variants {head scrutinee : Text}
    (hmatch : (Match.mk head scrutinee []).isOfSelf = true)
    (hbyValue : (Match.mk head scrutinee []).isByValue = byValue) :
    (Match.mk head scrutinee []).Complete [] byValue := by
  refine ⟨?_, fun _ => hbyValue⟩
  unfold Exhaustive
  split_ifs
  · exact List.forall_mem_nil _
  · exact List.forall_mem_nil _

/-- A function takes the declared value by value if `self` comes first in the brackets. -/
theorem isByValue_self {name params : Text} (arms : List Arm) (hname : 40 ∉ name)
    (hself : params.startsWith "self" = true) :
    (Match.mk (name ++ 40 :: params) "self" arms).isByValue = true := by
  have hcut : Text.cut? (name ++ 40 :: params) "(" = some (name, params) := by
    rw [List.append_cons]
    exact Text.cut?_append hname
  unfold isByValue
  rw [hcut]
  exact hself

end Match

/-- Whether every match in an implementation is complete. -/
def Impl.Complete (variants : List Variant) (byValue : Bool) (i : Impl) : Prop :=
  ∀ m ∈ i.matches, m.Complete variants byValue

section

variable {variants : List Variant} {byValue : Bool}

theorem Impl.complete_of_matches {i : Impl} (h : i.matches = []) :
    i.Complete variants byValue := by
  unfold Impl.Complete
  rw [h]
  exact List.forall_mem_nil _

theorem Code.matches_choose {head scrutinee : Text} {arms : List Arm}
    (harms : ∀ a ∈ arms, a.matches head = []) :
    Code.matches head (.choose scrutinee arms) = [⟨head, scrutinee, arms⟩] := by
  have hnone : Arm.matchesAll head arms = [] := by
    rw [Arm.matchesAll_eq_flatMap]
    exact List.flatMap_eq_nil_iff.mpr harms
  rw [Code.matches, hnone]

theorem eq_of_mem_of_length {α : Type} {as : List α} {a b : α} (hlength : ¬ 1 < as.length)
    (ha : a ∈ as) (hb : b ∈ as) : a = b := by
  obtain ⟨i, hi, rfl⟩ := List.getElem_of_mem ha
  obtain ⟨j, hj, rfl⟩ := List.getElem_of_mem hb
  obtain rfl : i = j := by omega
  rfl

/-- A pair of views of variants has an arm if each view has one for its own pairs, and
there is one for the rest if there are two views. -/
theorem Match.exists_takesPair {views : List VariantView}
    {arm : VariantView → Arm} {last : Arm}
    (hown : ∀ w ∈ views, (arm w).takesPair w.variant w.variant = true)
    (hlast : last.isOpen = true) :
    ∀ v ∈ views.map (·.variant), ∀ w ∈ views.map (·.variant),
      ∃ a ∈ views.map arm ++ if 1 < views.length then [last] else [],
      a.takesPair v w = true := by
  intro v hv w hw
  obtain ⟨x, hx, rfl⟩ := List.mem_map.mp hv
  obtain ⟨y, hy, rfl⟩ := List.mem_map.mp hw
  by_cases htwo : 1 < views.length
  · rw [if_pos htwo]
    exact ⟨last, List.mem_append_right _ (List.mem_singleton_self _),
      Arm.takesPair_of_isOpen hlast _ _⟩
  · obtain rfl := eq_of_mem_of_length htwo hx hy
    exact ⟨arm x, List.mem_append_left _ (List.mem_map_of_mem hx), hown x hx⟩

/-- Each view of a variant has an arm if one of them has, and there is one for the rest if
there are two views. -/
theorem Match.exists_takes {views : List VariantView} {v : VariantView} {first last : Arm}
    (hv : v ∈ views) (hfirst : first.takes v.variant = true) (hlast : last.isOpen = true) :
    ∀ w ∈ views, ∃ a ∈ first :: if 1 < views.length then [last] else [],
      a.takes w.variant = true := by
  intro w hw
  by_cases htwo : 1 < views.length
  · rw [if_pos htwo]
    exact ⟨last, List.mem_cons_of_mem _ (List.mem_singleton_self _),
      Arm.takes_of_isOpen hlast _⟩
  · obtain rfl := eq_of_mem_of_length htwo hv hw
    exact ⟨first, List.mem_cons_self .., hfirst⟩

end

end Deriver
