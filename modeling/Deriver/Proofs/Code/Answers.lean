import Deriver.Proofs.Code.Matches

/-!
# What patterns name and what functions come to

A struct or variant is declared with parentheses, with braces or without either, and a
text that builds it has to follow that (`Fields.Value`), as a pattern has to
(`Pat.Shaped`). The patterns that matter are those with a path (`Impl.patterns`); what a
function comes to is the last line of its body, or the values of the arms of the match it
ends in (`Impl.answers`). What is asked of both is carried from the pieces of code to the
implementation they stand in (`Impl.Meets`).
-/

namespace Deriver

/-! ## Values in the declared form -/

/-- An entry in braces: a name alone, or with what stands for it. -/
def entryText (e : Text × Option Text) : Text :=
  match e.2 with
  | none => e.1
  | some expr => Text.concat [e.1, ": ", expr]

/-- Whether a text builds a value in the form that some fields are declared in: without
brackets the path alone, in parentheses an expression for each field, and in braces each
field by name, in order. -/
def Fields.Value (fs : Fields) (path text : Text) : Prop :=
  match fs.style with
  | .unit => text = path
  | .tuple => ∃ exprs : List Text, exprs.length = fs.list.length ∧
      text = FieldStyle.tuple.bracket path exprs
  | .named => ∃ entries : List (Text × Option Text), entries.map (·.1) = fs.members ∧
      (text = FieldStyle.named.bracket path (entries.map entryText) ∨
        entries = [] ∧ text = path ++ " \x7b\x7d")

/-- Whether a text builds a value of a declaration, of a struct or of one of the
variants. -/
def Decl.Value (decl : Decl) (text : Text) : Prop :=
  match decl.data with
  | .struct fs => fs.Value "Self" text
  | .enum vs => ∃ v ∈ vs, v.fields.Value v.path text
  | .union _ => False

theorem Fields.value_unit {fs : Fields} {path : Text} (hstyle : fs.style = .unit) :
    fs.Value path path := by
  unfold Value
  rw [hstyle]

theorem Fields.value_path_iff {fs : Fields} {path : Text} :
    fs.Value path path ↔ fs.style = .unit := by
  refine ⟨fun h => ?_, value_unit⟩
  have hlonger {rest : Text} (hrest : 0 < rest.length) : path ≠ path ++ rest := by
    intro heq
    have := congrArg List.length heq
    rw [List.length_append] at this
    omega
  unfold Value at h
  cases hstyle : fs.style with
  | unit => rfl
  | tuple =>
      rw [hstyle] at h
      obtain ⟨exprs, -, heq⟩ := h
      exact absurd heq (hlonger (Nat.succ_pos _))
  | named =>
      rw [hstyle] at h
      obtain ⟨entries, -, heq | ⟨-, heq⟩⟩ := h
      · exact absurd heq (hlonger (Nat.succ_pos _))
      · exact absurd heq (hlonger (Nat.succ_pos _))

/-- A value with an expression for each field, by the names the fields are declared with. -/
theorem Fields.value_construct {fs : Fields} {v : FieldsView} (hstyle : v.style = fs.style)
    (hnames : v.all.map (·.name) = fs.members) (path : Text) (expr : FieldView → Text) :
    fs.Value path (v.construct path expr).render := by
  unfold Value
  rw [← hstyle]
  cases hv : v.style with
  | unit => simp [Built.render, FieldsView.construct, FieldStyle.bracket, hv]
  | tuple =>
      refine ⟨v.all.map expr, ?_, ?_⟩
      · have hlength := congrArg List.length hnames
        rw [List.length_map, members, List.length_mapIdx] at hlength
        rw [List.length_map, hlength]
      · simp [Built.render, FieldsView.construct, hv]
        rfl
  | named =>
      refine ⟨v.all.map fun f => (f.name, some (expr f)), ?_, .inl ?_⟩
      · rw [List.map_map]
        exact hnames
      · simp [Built.render, FieldsView.construct, hv]
        rfl

/-! ## Patterns with a path -/

namespace Pat

mutual

/-- The patterns with a path in a pattern. -/
def parts : Pat → List Pat
  | .wild | .rest | .bind _ | .const _ => []
  | .unit path => [.unit path]
  | .tuple path entries => .tuple path entries :: partsIn entries
  | .record path entries hasRest => .record path entries hasRest :: partsOf entries
  | .pair left right => left.parts ++ right.parts
  | .anyOf choices => partsIn choices
  | .named _ pat => pat.parts

/-- Those in any of several patterns. -/
def partsIn : List Pat → List Pat
  | [] => []
  | p :: ps => p.parts ++ partsIn ps

/-- Those in named entries. -/
def partsOf : List (Text × Option Pat) → List Pat
  | [] => []
  | (_, none) :: es => partsOf es
  | (_, some p) :: es => p.parts ++ partsOf es

end

theorem partsIn_eq_flatMap (ps : List Pat) : partsIn ps = ps.flatMap parts := by
  induction ps with
  | nil => rfl
  | cons p ps ih => rw [partsIn, ih, List.flatMap_cons]

theorem parts_of_isOpen {p : Pat} (h : p.isOpen = true) : p.parts = [] := by
  cases p with
  | wild | bind => rw [parts]
  | _ => cases h

theorem partsOf_eq_nil {entries : List (Text × Option Pat)}
    (hopen : ∀ e ∈ entries, e.2.all isOpen = true) : partsOf entries = [] := by
  induction entries with
  | nil => rw [partsOf]
  | cons e es ih =>
      obtain ⟨he, hes⟩ := List.forall_mem_cons.mp hopen
      obtain ⟨name, _ | p⟩ := e
      · rw [partsOf, ih hes]
      · rw [partsOf, ih hes, parts_of_isOpen he]
        rfl

theorem partsIn_eq_nil {count : Nat} {entries : List Pat}
    (h : standFor count entries = true) : partsIn entries = [] := by
  unfold standFor at h
  rw [partsIn_eq_flatMap, List.flatMap_eq_nil_iff]
  split at h
  · exact List.forall_mem_singleton.mpr (by rw [parts])
  · rw [Bool.and_eq_true, List.all_eq_true] at h
    exact fun p hp => parts_of_isOpen (h.2 p hp)

/-- A pattern in a declared form has one path, that of what it is declared for. -/
theorem Shaped.parts_eq {p : Pat} {fs : Fields} {path : Text} (h : p.Shaped fs path) :
    p.parts = [p] := by
  cases p with
  | unit => rw [parts]
  | tuple _ entries =>
      obtain ⟨-, -, hentries⟩ := h
      rw [parts, partsIn_eq_nil hentries]
  | record _ entries =>
      obtain ⟨-, -, -, hopen, -⟩ := h
      rw [parts, partsOf_eq_nil hopen]
  | _ => cases h

end Pat

/-! ## What functions come to -/

/-- The pattern of an arm. -/
def Arm.pat : Arm → Pat
  | .yields pat _ | .guarded pat _ _ | .runs pat _ | .chooses pat _ _ => pat

mutual

/-- What a piece of code at the end of a function comes to. -/
def Code.answers : Code → List Text
  | .line text => [text]
  | .blank | .chooseNone _ => []
  | .block _ body | .reflow body => Code.answersLast body
  | .choose _ arms => Arm.answersIn arms

/-- What code comes to is what its last piece does. -/
def Code.answersLast : List Code → List Text
  | [] => []
  | [c] => c.answers
  | _ :: c :: cs => Code.answersLast (c :: cs)

/-- What an arm comes to. -/
def Arm.answers : Arm → List Text
  | .yields _ value | .guarded _ _ value => [value]
  | .runs _ body => Code.answersLast body
  | .chooses _ _ arms => Arm.answersIn arms

/-- What one of several arms comes to. -/
def Arm.answersIn : List Arm → List Text
  | [] => []
  | a :: as => a.answers ++ Arm.answersIn as

end

/-- What the functions among some items come to. -/
def Code.answersOf (items : List Code) : List Text :=
  items.flatMap fun
    | .block _ body => Code.answersLast body
    | _ => []

/-- What the functions of an implementation come to. -/
def Impl.answers : Impl → List Text
  | .block _ items => Code.answersOf items
  | .marker _ => []

/-- The patterns in the arms of some matches. -/
def Match.patterns (ms : List Match) : List Pat :=
  ms.flatMap fun m => m.arms.flatMap fun a => a.pat.parts

/-- The patterns with a path in the arms of an implementation. -/
def Impl.patterns (i : Impl) : List Pat := Match.patterns i.matches

theorem Match.mem_patterns {ms : List Match} {m : Match} {a : Arm} {p : Pat} (hm : m ∈ ms)
    (ha : a ∈ m.arms) (hp : p ∈ a.pat.parts) : p ∈ Match.patterns ms :=
  List.mem_flatMap.mpr ⟨m, hm, List.mem_flatMap.mpr ⟨a, ha, hp⟩⟩

theorem Arm.mem_answersIn {arms : List Arm} {a : Arm} {t : Text} (ha : a ∈ arms)
    (ht : t ∈ a.answers) : t ∈ Arm.answersIn arms := by
  induction arms with
  | nil => cases ha
  | cons b bs ih =>
      rw [Arm.answersIn]
      rcases List.mem_cons.mp ha with rfl | ha
      · exact List.mem_append_left _ ht
      · exact List.mem_append_right _ (ih ha)

/-! ## What is asked of patterns and answers -/

section

variable {P : Pat → Prop} {A : Text → Prop}

/-- Whether the patterns of some matches have a property, and some answers another. -/
structure Obeys (P : Pat → Prop) (A : Text → Prop) (ms : List Match) (answers : List Text) :
    Prop where
  patterns : ∀ p ∈ Match.patterns ms, P p
  answers : ∀ t ∈ answers, A t

/-- Whether a piece of code at the end of a function is so. -/
def Code.Meets (P : Pat → Prop) (A : Text → Prop) (c : Code) : Prop :=
  ∀ head, Obeys P A (c.matches head) c.answers

/-- Whether the body of a function is so. -/
def Code.BodyMeets (P : Pat → Prop) (A : Text → Prop) (body : List Code) : Prop :=
  ∀ head, Obeys P A (Code.matchesAll head body) (Code.answersLast body)

/-- Whether the functions among some items are so. -/
def Code.ItemsMeet (P : Pat → Prop) (A : Text → Prop) (items : List Code) : Prop :=
  ∀ head, Obeys P A (Code.matchesAll head items) (Code.answersOf items)

/-- Whether an arm is so, with its own pattern. -/
def Arm.Meets (P : Pat → Prop) (A : Text → Prop) (a : Arm) : Prop :=
  (∀ p ∈ a.pat.parts, P p) ∧ ∀ head, Obeys P A (a.matches head) a.answers

/-- Whether an implementation is so. -/
def Impl.Meets (P : Pat → Prop) (A : Text → Prop) (i : Impl) : Prop :=
  Obeys P A i.matches i.answers

theorem Obeys.nil : Obeys P A [] [] := ⟨List.forall_mem_nil _, List.forall_mem_nil _⟩

theorem Obeys.append {ms ms' : List Match} {ts ts' : List Text} (h : Obeys P A ms ts)
    (h' : Obeys P A ms' ts') : Obeys P A (ms ++ ms') (ts ++ ts') := by
  refine ⟨?_, List.forall_mem_append.mpr ⟨h.answers, h'.answers⟩⟩
  rw [Match.patterns, List.flatMap_append]
  exact List.forall_mem_append.mpr ⟨h.patterns, h'.patterns⟩

namespace Arm

/-- The arms of a match, with the matches that they hold. -/
theorem obeys_arms {head scrutinee : Text} {arms : List Arm} (h : ∀ a ∈ arms, a.Meets P A) :
    Obeys P A (⟨head, scrutinee, arms⟩ :: matchesAll head arms) (answersIn arms) := by
  have hown : ∀ p ∈ Match.patterns [⟨head, scrutinee, arms⟩], P p := by
    rw [Match.patterns, List.flatMap_singleton]
    intro p hp
    obtain ⟨a, ha, hp⟩ := List.mem_flatMap.mp hp
    exact (h a ha).1 p hp
  have hinner : Obeys P A (matchesAll head arms) (answersIn arms) := by
    clear hown
    induction arms with
    | nil => exact .nil
    | cons a as ih =>
        obtain ⟨ha, has⟩ := List.forall_mem_cons.mp h
        exact (ha.2 head).append (ih has)
  exact Obeys.append ⟨hown, List.forall_mem_nil _⟩ hinner

theorem meets_yields {pat : Pat} {value : Text} (hpat : ∀ p ∈ pat.parts, P p)
    (hvalue : A value) : (Arm.yields pat value).Meets P A :=
  ⟨hpat, fun _ => ⟨List.forall_mem_nil _, List.forall_mem_singleton.mpr hvalue⟩⟩

theorem meets_guarded {pat : Pat} {guard value : Text} (hpat : ∀ p ∈ pat.parts, P p)
    (hvalue : A value) : (Arm.guarded pat guard value).Meets P A :=
  ⟨hpat, fun _ => ⟨List.forall_mem_nil _, List.forall_mem_singleton.mpr hvalue⟩⟩

theorem meets_runs {pat : Pat} {body : List Code} (hpat : ∀ p ∈ pat.parts, P p)
    (hbody : Code.BodyMeets P A body) : (Arm.runs pat body).Meets P A := ⟨hpat, hbody⟩

theorem meets_chooses {pat : Pat} {scrutinee : Text} {arms : List Arm}
    (hpat : ∀ p ∈ pat.parts, P p) (harms : ∀ a ∈ arms, a.Meets P A) :
    (Arm.chooses pat scrutinee arms).Meets P A := ⟨hpat, fun _ => obeys_arms harms⟩

theorem meets_wild {value : Text} (h : A value) : (Arm.yields .wild value).Meets P A :=
  meets_yields (List.forall_mem_nil _) h

theorem meets_wild_if {value : Text} (c : Prop) [Decidable c] (h : A value) :
    ∀ a ∈ (if c then [Arm.yields .wild value] else []), a.Meets P A := by
  split
  · exact List.forall_mem_singleton.mpr (meets_wild h)
  · exact List.forall_mem_nil _

end Arm

namespace Code

theorem meets_line {text : Text} (h : A text) : (Code.line text).Meets P A :=
  fun _ => ⟨List.forall_mem_nil _, List.forall_mem_singleton.mpr h⟩

theorem meets_chooseNone (scrutinee : Text) : (Code.chooseNone scrutinee).Meets P A :=
  fun _ => ⟨List.forall_mem_nil _, List.forall_mem_nil _⟩

theorem meets_reflow {body : List Code} (h : BodyMeets P A body) :
    (Code.reflow body).Meets P A := h

theorem meets_choose {scrutinee : Text} {arms : List Arm} (h : ∀ a ∈ arms, a.Meets P A) :
    (Code.choose scrutinee arms).Meets P A := fun _ => Arm.obeys_arms h

/-- Whether a piece of code is a line, with nothing inside. -/
def isPlain : Code → Bool
  | .line _ | .blank => true
  | _ => false

theorem matches_of_isPlain {c : Code} (h : c.isPlain = true) (head : Text) :
    c.matches head = [] := by
  cases c with
  | line | blank => rfl
  | _ => cases h

theorem answersLast_append (cs : List Code) (c : Code) :
    answersLast (cs ++ [c]) = c.answers := by
  induction cs with
  | nil => rfl
  | cons b bs ih =>
      cases bs with
      | nil => rfl
      | cons b' bs => exact ih

theorem bodyMeets_last (lines : List Code) {c : Code} (hlines : lines.all isPlain = true)
    (h : c.Meets P A) : BodyMeets P A (lines ++ [c]) := by
  intro head
  rw [answersLast_append, matchesAll_last fun l hl =>
    matches_of_isPlain (List.all_eq_true.mp hlines l hl) head]
  exact h head

theorem bodyMeets_one {c : Code} (h : c.Meets P A) : BodyMeets P A [c] :=
  bodyMeets_last [] rfl h

theorem bodyMeets_lines {α : Type} {as : List α} {text : α → Text}
    (h : ∀ a ∈ as, A (text a)) : BodyMeets P A (as.map fun a => .line (text a)) := by
  rcases List.eq_nil_or_concat as with rfl | ⟨before, last, rfl⟩
  · exact fun _ => .nil
  · rw [List.concat_eq_append] at h ⊢
    rw [List.map_append, List.map_singleton]
    refine bodyMeets_last _ (List.all_map.trans (List.all_eq_true.mpr fun _ _ => rfl))
      (meets_line ?_)
    exact h last (List.mem_append_right _ (List.mem_singleton_self _))

theorem itemsMeet_append {items items' : List Code} (h : ItemsMeet P A items)
    (h' : ItemsMeet P A items') : ItemsMeet P A (items ++ items') := by
  intro head
  rw [matchesAll_eq_flatMap, List.flatMap_append, ← matchesAll_eq_flatMap,
    ← matchesAll_eq_flatMap, answersOf, List.flatMap_append]
  exact (h head).append (h' head)

theorem itemsMeet_plain {items : List Code} (h : items.all isPlain = true) :
    ItemsMeet P A items := by
  intro head
  have hnone : answersOf items = [] := List.flatMap_eq_nil_iff.mpr fun c hc => by
    have hplain := List.all_eq_true.mp h c hc
    cases c with
    | line | blank => rfl
    | _ => cases hplain
  have hmatches : matchesAll head items = [] := by
    rw [matchesAll_eq_flatMap]
    exact List.flatMap_eq_nil_iff.mpr fun c hc =>
      matches_of_isPlain (List.all_eq_true.mp h c hc) head
  rw [hnone, hmatches]
  exact .nil

theorem itemsMeet_method (items : List Code)
    (hitems : items.all isPlain = true) {head : Text}
    {body : List Code} (h : BodyMeets P A body) :
    ItemsMeet P A (items ++ [.block head body]) := by
  refine itemsMeet_append (itemsMeet_plain hitems) fun header => ?_
  rw [matchesAll, matchesAll, List.append_nil, answersOf, List.flatMap_singleton]
  exact h head

end Code

namespace Impl

variable {header head : Text} (items : List Code) (hitems : items.all Code.isPlain = true)

include hitems

theorem meets_method {body : List Code} (h : Code.BodyMeets P A body) :
    (Impl.block header (items ++ [.block head body])).Meets P A :=
  Code.itemsMeet_method items hitems h header

theorem meets_line {text : Text} (h : A text) :
    (Impl.block header (items ++ [.block head [.line text]])).Meets P A :=
  meets_method items hitems (Code.bodyMeets_one (Code.meets_line h))

theorem meets_choose {scrutinee : Text} {arms : List Arm} (h : ∀ a ∈ arms, a.Meets P A) :
    (Impl.block header (items ++ [.block head [.choose scrutinee arms]])).Meets P A :=
  meets_method items hitems (Code.bodyMeets_one (Code.meets_choose h))

end Impl

end

end Deriver
