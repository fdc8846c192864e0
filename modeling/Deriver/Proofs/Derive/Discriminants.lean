import Deriver.Proofs.Derive.Bindings
import Deriver.Proofs.Derive.Payload
import Deriver.Proofs.Derive.Values
import Deriver.Proofs.Text.Basic
import Mathlib.Data.List.Find

/-!
# Conversion from a number undoes the numbering

Main statement: `tryFrom_inverts`. A variant is numbered by the text of the last explicit
discriminant and the distance from it; the compiler counts on from the number before. The
two agree because what the text stands for plus the distance is the number that comes next
(`constants_number`), whatever the explicit discriminants stand for.
-/

namespace Deriver

/-! ## What constants stand for -/

/-- The integers that expressions stand for, as far as generated constants need them. -/
structure Evaluation where
  value : Text → Int
  zero : value "0" = 0
  offset (t : Text) (k : Nat) : value (Text.concat ["(", t, ") + ", Text.ofNat k]) =
    value t + k

namespace Evaluation

/-- The summands of a sum of a text in parentheses and a number. -/
def summands? (t : Text) : Option (Text × Nat) := do
  let body ← t.dropStart? "("
  let n ← body.findLast? ") + "
  let k ← Text.digits? 10 0 (body.drop (n + 4))
  return (body.take n, k)

theorem summands?_offset (t : Text) (k : Nat) :
    summands? (Text.concat ["(", t, ") + ", Text.ofNat k]) = some (t, k) := by
  have hconcat : Text.concat ["(", t, ") + ", Text.ofNat k] =
      Text.ofString "(" ++ (t ++ 41 :: [32, 43, 32] ++ Text.ofNat k) := by
    simp only [Text.concat, List.flatten_cons, List.flatten_nil, List.append_nil,
      List.append_assoc]
    rfl
  have hlast : Text.findLast? (t ++ 41 :: [32, 43, 32] ++ Text.ofNat k) ") + " =
      some t.length :=
    Text.findLast?_append (by decide) fun h => absurd (Text.wordy_ofNat k _ h) (by decide)
  have hrest : (t ++ 41 :: [32, 43, 32] ++ Text.ofNat k).drop (t.length + 4) =
      Text.ofNat k := by
    have hlength : t.length + 4 = (t ++ 41 :: [32, 43, 32]).length := by simp
    rw [hlength, List.drop_left]
  rw [summands?, hconcat, Text.dropStart?_append]
  simp only [Option.bind_eq_bind, Option.bind_some, hlast, hrest, Text.digits?_ofNat]
  rw [List.append_assoc, List.take_left]
  rfl

theorem length_of_summands? {t inner : Text} {k : Nat} (h : summands? t = some (inner, k)) :
    inner.length < t.length := by
  unfold summands? Text.dropStart? at h
  obtain ⟨body, hbody, h⟩ := Option.bind_eq_some_iff.mp h
  split at hbody
  case isFalse => cases hbody
  next hstart =>
    obtain ⟨n, -, h⟩ := Option.bind_eq_some_iff.mp h
    obtain ⟨k, -, h⟩ := Option.bind_eq_some_iff.mp h
    cases h
    cases hbody
    have hlength := (List.isPrefixOf_iff_prefix.mp hstart).length_le
    have hopen : (Text.ofString "(").length = 1 := rfl
    rw [List.length_take, List.length_drop]
    omega

/-- The values of texts, extended to sums. -/
def extend (given : Text → Int) (t : Text) : Int :=
  match _h : summands? t with
  | some (inner, k) => extend given inner + k
  | none => given t
termination_by t.length
decreasing_by exact length_of_summands? _h

theorem extend_given {given : Text → Int} {t : Text} (h : summands? t = none) :
    extend given t = given t := by
  rw [extend, h]

/-- Whatever texts that are no sums stand for, there is an evaluation by which they do. -/
def extending (given : Text → Int) (hzero : given "0" = 0) : Evaluation where
  value := extend given
  zero := by
    rw [extend_given rfl, hzero]
  offset t k := by
    rw [extend, summands?_offset]

end Evaluation

/-- The numbering of the variants: a variant without an explicit discriminant has the number
after that of the variant before it, whether that one has fields or not. -/
def numbering (eval : Evaluation) : Int → List Variant → List (Variant × Int)
  | _, [] => []
  | next, v :: vs =>
      let n := if v.discriminant.isEmpty then next else eval.value v.discriminant.trim
      (v, n) :: numbering eval (n + 1) vs

/-- The variants without fields with their numbers. -/
def numbered (eval : Evaluation) (variants : List Variant) : List (Variant × Int) :=
  (numbering eval 0 variants).filter (·.1.fields.list.isEmpty)

/-! ## Running the function -/

/-- The name and the expression of the constant that a line declares. -/
def Code.constant? : Code → Option (Text × Text)
  | .line text => do
      let rest ← text.dropStart? "const "
      let (name, rest) ← rest.cut? ": "
      let (_, rest) ← rest.cut? " = "
      let expr ← rest.dropTail? ";"
      return (name, expr)
  | _ => none

/-- The constants of a function with the integers they stand for. -/
def constants (eval : Evaluation) (body : List Code) : List (Text × Int) :=
  (body.filterMap Code.constant?).map fun (name, expr) => (name, eval.value expr)

/-- The body of the function `try_from` that takes an integer, if a piece of code is it. -/
def Code.tryFrom? : Code → Option (List Code)
  | .block head body => if head.startsWith "fn try_from(value: " then some body else none
  | _ => none

/-- The body of the function `try_from` of an implementation. -/
def Impl.tryFrom? : Impl → Option (List Code)
  | .block _ body => body.findSome? Code.tryFrom?
  | .marker _ => none

/-- The arms of a match of the integer, if a piece of code is one. -/
def Code.valueArms? : Code → Option (List Arm)
  | .choose scrutinee arms => if scrutinee = "value" then some arms else none
  | _ => none

/-- Whether an arm fits an integer. Constants are known by their names as they are written,
whether or not these are identifiers, which `Derive.composed_names` says. -/
def Arm.fitsNumber (consts : List (Text × Int)) (n : Int) : Arm → Bool
  | .yields .wild _ => true
  | .yields (.const name) _ => consts.lookup name == some n
  | _ => false

/-- The argument of a function, if an expression is its application. -/
def argument? (function text : Text) : Option Text :=
  (text.dropStart? (function ++ "(")).bind fun rest => rest.dropTail? ")"

/-- The brackets behind the name of a variant without fields. -/
def emptyBrackets : FieldStyle → Text
  | .tuple => "()"
  | .named => " \x7b\x7d"
  | .unit => []

/-- The expression for a variant without fields, in the form that the variant is declared
in. -/
def Variant.bare (v : Variant) : Text :=
  "Self::" ++ (v.ident ++ emptyBrackets v.fields.style)

/-- The variant that an expression without arguments builds. -/
def built? (variants : List Variant) (text : Text) : Option Variant :=
  variants.find? fun v => v.fields.list.isEmpty && v.bare == text

/-- The result of a conversion that an expression stands for: a variant or an error. -/
def result? (variants : List Variant) (text : Text) : Option (Except Text Variant) :=
  (((argument? Core.ok text).bind (built? variants)).map .ok).or
    ((argument? Core.err text).map .error)

/-- The result of an arm. -/
def Arm.result? (variants : List Variant) : Arm → Option (Except Text Variant)
  | .yields _ text => Deriver.result? variants text
  | _ => none

/-- What the function `try_from` of an implementation makes of an integer. There is no such
function if it declares two constants of one name. -/
def Impl.converts? (eval : Evaluation) (variants : List Variant) (i : Impl) (n : Int) :
    Option (Except Text Variant) := do
  let body ← i.tryFrom?
  let consts := constants eval body
  let arms ← if (consts.map (·.1)).Nodup then body.findSome? Code.valueArms? else none
  (arms.find? (·.fitsNumber consts n)).bind (·.result? variants)

namespace Derive

namespace Discriminant

/-- The name of the constant of a variant. -/
def constName (v : Variant) : Text := "__DISCRIMINANT_" ++ v.ident

/-- The text before the distance, plus the distance, stands for the number that comes
next. -/
theorem values_number (eval : Evaluation) {base : Text} {offset : Nat} {next : Int}
    {variants : List Variant} (hnext : eval.value base + offset = next) :
    (number base offset variants).map (fun d => (d.const, d.value, eval.value d.expr)) =
      ((numbering eval next variants).filter (·.1.fields.list.isEmpty)).map
        fun (v, n) => (constName v, emptyValue v, n) := by
  induction variants generalizing base offset next with
  | nil => rfl
  | cons v vs ih =>
      -- an explicit discriminant is at no distance from itself
      obtain ⟨base', offset', hplace, hvalue⟩ : ∃ base' offset',
          (if v.discriminant.isEmpty then (base, offset) else (v.discriminant.trim, 0)) =
            (base', offset') ∧
          eval.value base' + offset' =
            if v.discriminant.isEmpty then next else eval.value v.discriminant.trim := by
        split
        · exact ⟨_, _, rfl, hnext⟩
        · exact ⟨_, _, rfl, Int.add_zero _⟩
      have hnext' : eval.value base' + (offset' + 1 : Nat) =
          eval.value base' + offset' + 1 := by
        rw [Int.natCast_succ, Int.add_assoc]
      have hrest := ih hnext'
      rw [number, numbering, hplace, ← hvalue]
      dsimp only
      cases hfields : v.fields.list.isEmpty with
      | true =>
          rw [if_pos rfl, List.filter_cons, if_pos hfields, List.map_cons,
            List.map_cons, hrest]
          unfold expr
          rw [eval.offset]
          rfl
      | false =>
          rw [if_neg Bool.false_ne_true, List.filter_cons, hfields,
            if_neg Bool.false_ne_true, hrest]

/-- The constants that are emitted stand for the numbers of the variants without fields. -/
theorem values_all (eval : Evaluation) (variants : List Variant) :
    (all variants).map (fun d => (d.const, d.value, eval.value d.expr)) =
      (numbered eval variants).map fun (v, n) => (constName v, emptyValue v, n) :=
  values_number eval (by rw [eval.zero]; rfl)

end Discriminant

/-! ## Reading what is emitted -/

theorem constant?_line {name type expr : Text} (hname : 58 ∉ name) (htype : 32 ∉ type) :
    Code.constant? (.line (Text.concat ["const ", name, ": ", type, " = ", expr, ";"])) =
      some (name, expr) := by
  have hline : Text.concat ["const ", name, ": ", type, " = ", expr, ";"] =
      Text.ofString "const " ++
        (name ++ 58 :: [32] ++
          (type ++ 32 :: [61, 32] ++ (expr ++ Text.ofString ";"))) := by
    simp only [Text.concat, List.flatten_cons, List.flatten_nil, List.append_nil,
      List.append_assoc]
    rfl
  rw [Code.constant?, hline, Text.dropStart?_append, Option.bind_eq_bind, Option.bind_some]
  change (Text.cut? _ (58 :: [32])).bind _ = _
  rw [Text.cut?_append hname, Option.bind_some]
  change (Text.cut? _ (32 :: [61, 32])).bind _ = _
  rw [Text.cut?_append htype, Option.bind_some]
  dsimp only
  rw [Text.dropTail?_append]
  rfl

/-- The lines that declare a constant for each variant without fields. -/
def constLines (type : Text) (ds : List Discriminant) : List Code :=
  ds.flatMap fun d =>
    [Code.line "#[allow(non_upper_case_globals)]",
     .line (Text.concat ["const ", d.const, ": ", type, " = ", d.expr, ";"])]

theorem filterMap_constLines {type : Text} {ds : List Discriminant}
    (hds : ∀ d ∈ ds, 58 ∉ d.const) (htype : 32 ∉ type) :
    (constLines type ds).filterMap Code.constant? = ds.map fun d => (d.const, d.expr) := by
  induction ds with
  | nil => rfl
  | cons d ds ih =>
      obtain ⟨hd, hds⟩ := List.forall_mem_cons.mp hds
      have hattr : Code.constant? (.line "#[allow(non_upper_case_globals)]") = none := rfl
      rw [constLines, List.flatMap_cons, List.cons_append, List.cons_append,
        List.nil_append, List.filterMap_cons_none hattr,
        List.filterMap_cons_some (constant?_line hd htype),
        List.map_cons]
      exact congrArg _ (ih hds)

theorem argument?_concat (function argument : Text) :
    argument? function (Text.concat [function, "(", argument, ")"]) = some argument := by
  have hconcat : Text.concat [function, "(", argument, ")"] =
      (function ++ Text.ofString "(") ++ (argument ++ Text.ofString ")") := by
    simp only [Text.concat, List.flatten_cons, List.flatten_nil, List.append_nil,
      List.append_assoc]
  rw [argument?, hconcat]
  change Option.bind (Text.dropStart? _ (function ++ Text.ofString "(")) _ = _
  rw [Text.dropStart?_append, Option.bind_some, Text.dropTail?_append]

theorem result?_err (variants : List Variant) (text : Text) :
    result? variants (Text.concat [Core.err, "(", text, ")"]) = some (.error text) := by
  have hok : argument? Core.ok (Text.concat [Core.err, "(", text, ")"]) = none := rfl
  rw [result?, hok, argument?_concat]
  rfl

/-! ## Values -/

/-- What is emitted for a variant without fields is the expression for it. -/
theorem emptyValue_eq (v : Variant) : Discriminant.emptyValue v = v.bare := by
  rw [Discriminant.emptyValue, Variant.bare, Text.concat, List.flatten_cons,
    List.flatten_cons, List.flatten_singleton]
  cases v.fields.style <;> rfl

theorem takeWhile_brackets {name : Text} (hname : IsIdent name) (style : FieldStyle) :
    (name ++ emptyBrackets style).takeWhile (fun b => b ≠ 40 ∧ b ≠ 32) = name := by
  have hall : ∀ b ∈ name, decide (b ≠ 40 ∧ b ≠ 32) = true := fun b hb => by
    refine decide_eq_true ⟨?_, ?_⟩ <;> rintro rfl
    · exact hname.not_mem (by decide) (by decide) hb
    · exact hname.not_mem (by decide) (by decide) hb
  rw [List.takeWhile_append_of_pos hall]
  cases style <;> exact List.append_nil name

theorem ident_of_bare {v w : Variant} (hv : IsIdent v.ident) (hw : IsIdent w.ident)
    (h : v.bare = w.bare) : v.ident = w.ident := by
  unfold Variant.bare at h
  rw [← takeWhile_brackets hv v.fields.style, List.append_cancel_left h,
    takeWhile_brackets hw]

/-! ## The match -/

section

variable {eval : Evaluation} {variants : List Variant} {v : Variant} {n : Int}

theorem map_fst_numbering (eval : Evaluation) (next : Int) (variants : List Variant) :
    (numbering eval next variants).map (·.1) = variants := by
  induction variants generalizing next with
  | nil => rfl
  | cons v vs ih =>
      rw [numbering, List.map_cons, ih]

theorem map_fst_numbered (eval : Evaluation) (variants : List Variant) :
    (numbered eval variants).map (·.1) = variants.filter (·.fields.list.isEmpty) := by
  conv_rhs => rw [← map_fst_numbering eval 0 variants, List.filter_map]
  rfl

theorem mem_of_numbered (h : (v, n) ∈ numbered eval variants) :
    v ∈ variants ∧ v.fields.list.isEmpty = true := by
  obtain ⟨hmem, hfields⟩ := List.mem_filter.mp h
  exact ⟨map_fst_numbering eval 0 variants ▸ List.mem_map_of_mem (f := (·.1)) hmem, hfields⟩

/-- Of variants without fields that have names of their own, the one that is built is read
off the expression. -/
theorem built?_emptyValue (hident : ∀ w ∈ variants, IsIdent w.ident)
    (hnames : ((variants.filter (·.fields.list.isEmpty)).map (·.ident)).Nodup)
    (hv : v ∈ variants) (hfields : v.fields.list.isEmpty = true) :
    built? variants (Discriminant.emptyValue v) = some v := by
  rw [emptyValue_eq]
  have hsome : (built? variants v.bare).isSome = true :=
    List.find?_isSome.mpr ⟨v, hv, by rw [hfields, beq_self_eq_true]; rfl⟩
  obtain ⟨w, hw⟩ := Option.isSome_iff_exists.mp hsome
  have hmem := List.mem_of_find?_eq_some hw
  unfold built? at hw
  have hbuilt := List.find?_some hw
  rw [Bool.and_eq_true] at hbuilt
  obtain ⟨hempty, heq⟩ := hbuilt
  have hname := ident_of_bare (hident w hmem) (hident v hv) (beq_iff_eq.mp heq)
  rw [built?, hw, List.inj_on_of_nodup_map hnames (List.mem_filter.mpr ⟨hmem, hempty⟩)
    (List.mem_filter.mpr ⟨hv, hfields⟩) hname]

theorem lookup_of_mem {α : Type} {entries : List (Text × α)} {name : Text} {a : α}
    (hnames : (entries.map (·.1)).Nodup) (h : (name, a) ∈ entries) :
    entries.lookup name = some a := by
  induction entries with
  | nil => cases h
  | cons e entries ih =>
      obtain ⟨hnot, hnames⟩ := List.nodup_cons.mp hnames
      rcases List.mem_cons.mp h with rfl | h
      · exact List.lookup_cons_self
      · have hne : (name == e.1) = false := by
          refine beq_eq_false_iff_ne.mpr ?_
          rintro rfl
          exact hnot (List.mem_map_of_mem (f := (·.1)) h)
        rw [List.lookup_cons, hne]
        exact ih hnames h

/-- The arm that converts to a variant. -/
def numberArm (v : Variant) : Arm :=
  .yields (.const (Discriminant.constName v))
    (Text.concat [Core.ok, "(", Discriminant.emptyValue v, ")"])

theorem find?_numberArms {numbers : List (Variant × Int)} (error : Text)
    (hnames : (numbers.map (Discriminant.constName ·.1)).Nodup) :
    (numbers.map (numberArm ·.1) ++ [Arm.yields .wild error]).find?
        (·.fitsNumber (numbers.map fun p => (Discriminant.constName p.1, p.2)) n) =
      some (((numbers.find? (·.2 == n)).map (numberArm ·.1)).getD
      (.yields .wild error)) := by
  have hfits (p : Variant × Int) (hp : p ∈ numbers) :
      (numberArm p.1).fitsNumber (numbers.map fun p =>
        (Discriminant.constName p.1, p.2)) n =
        (p.2 == n) := by
    have hlookup : (numbers.map fun p => (Discriminant.constName p.1, p.2)).lookup
        (Discriminant.constName p.1) = some p.2 :=
      lookup_of_mem (by rwa [List.map_map]) (List.mem_map.mpr ⟨p, hp, rfl⟩)
    rw [numberArm, Arm.fitsNumber, hlookup]
    rfl
  have hfind : (numbers.map (numberArm ·.1)).find?
      (·.fitsNumber (numbers.map fun p => (Discriminant.constName p.1, p.2)) n) =
        (numbers.find? (·.2 == n)).map (numberArm ·.1) := by
    rw [List.find?_map]
    exact congrArg _ (List.find?_congr hfits)
  rw [List.find?_append, hfind]
  cases numbers.find? (·.2 == n) <;> rfl

/-- The expression of the error that an integer without a variant gives. -/
def notConverted (support : Support) (s : Selection) (repr : Text) : Text :=
  let error := support.item "TryFromReprError"
  (failure s.container.error (generic error repr) (error ++ "::new(value)")).2

/-- What the conversion of integers to the variants of an enum does. -/
structure Inverts (eval : Evaluation) (variants : List Variant) (i : Impl) (error : Text) :
    Prop where
  /-- The constants are those of the variants without fields, and stand for their
  numbers. -/
  constants : i.tryFrom?.map (Deriver.constants eval) =
    some ((numbered eval variants).map fun (v, n) => (Discriminant.constName v, n))
  /-- There is such a function if and only if these variants have names of their own. -/
  defined : ∀ n, (i.converts? eval variants n).isSome = true ↔
    ((numbered eval variants).map (·.1.ident)).Nodup
  /-- If all numbers are distinct, an integer is converted to the variant with that number
  if this has no fields, and gives the error otherwise. -/
  inverts : ((numbering eval 0 variants).map (·.2)).Nodup → ∀ n r,
    i.converts? eval variants n = some r →
      (∀ v, r = .ok v ↔ (v, n) ∈ numbered eval variants) ∧
      ∀ text, r = .error text ↔ text = error ∧ ∀ v, (v, n) ∉ numbered eval variants

theorem nodup_constNames {numbers : List (Variant × Int)} :
    (numbers.map (Discriminant.constName ·.1)).Nodup ↔ (numbers.map (·.1.ident)).Nodup := by
  have hmap : numbers.map (Discriminant.constName ·.1) =
      (numbers.map (·.1.ident)).map fun name : Text => "__DISCRIMINANT_" ++ name := by
    rw [List.map_map]
    rfl
  rw [hmap, List.nodup_map_iff fun _ _ => List.append_cancel_left]

theorem converts?_eq {i : Impl} {body : List Code} {error : Text}
    (hident : ∀ w ∈ variants, IsIdent w.ident)
    (hnames : ((numbered eval variants).map (·.1.ident)).Nodup)
    (hbody : i.tryFrom? = some body) (hconsts : constants eval body =
      (numbered eval variants).map fun (v, n) => (Discriminant.constName v, n))
    (harms : body.findSome? Code.valueArms? =
    some ((numbered eval variants).map (numberArm ·.1) ++
      [.yields .wild (Text.concat [Core.err, "(", error, ")"])])) :
    i.converts? eval variants n =
      some ((((numbered eval variants).find? (·.2 == n)).map (.ok ·.1)).getD
      (.error error)) := by
  have hnodup := nodup_constNames.mpr hnames
  have hnodup' : ((constants eval body).map (·.1)).Nodup := by
    rw [hconsts, List.map_map]
    exact hnodup
  rw [Impl.converts?, hbody, Option.bind_eq_bind, Option.bind_some]
  dsimp only
  rw [if_pos hnodup', harms, hconsts, Option.bind_eq_bind, Option.bind_some,
    find?_numberArms _ hnodup, Option.bind_some]
  cases hfind : (numbered eval variants).find? (·.2 == n) with
  | none => exact result?_err variants error
  | some p =>
      obtain ⟨hmem, hfields⟩ := mem_of_numbered (List.mem_of_find?_eq_some hfind)
      have hbuilt :=
        built?_emptyValue hident (by rwa [← map_fst_numbered eval, List.map_map])
        hmem hfields
      change result? variants
        (Text.concat [Core.ok, "(", Discriminant.emptyValue p.1, ")"]) = _
      rw [result?, argument?_concat, Option.bind_some, hbuilt]
      rfl

theorem tryFrom?_block {header head : Text} {body : List Code} {text : Text}
    (hhead : head.startsWith "fn try_from(value: " = true) :
    (Impl.block header [.line text, .blank, .inline, .block head body]).tryFrom? =
    some body := by
  simp [Impl.tryFrom?, List.findSome?_cons, Code.tryFrom?, Code.inline, hhead]

/-- Of variants with distinct numbers, one is found by its own. -/
theorem mem_numbered_iff (hdistinct : ((numbering eval 0 variants).map (·.2)).Nodup) :
    (v, n) ∈ numbered eval variants ↔
      (numbered eval variants).find? (·.2 == n) = some (v, n) := by
  have hnodup : ((numbered eval variants).map (·.2)).Nodup :=
    hdistinct.sublist (List.filter_sublist.map _)
  refine ⟨fun hmem => ?_, List.mem_of_find?_eq_some⟩
  have hsome : ((numbered eval variants).find? (·.2 == n)).isSome = true :=
    List.find?_isSome.mpr ⟨_, hmem, beq_self_eq_true n⟩
  obtain ⟨p, hp⟩ := Option.isSome_iff_exists.mp hsome
  have hnumber : p.2 = n := by simpa using List.find?_some hp
  rw [hp, List.inj_on_of_nodup_map hnodup (List.mem_of_find?_eq_some hp) hmem hnumber]

theorem inverts_of_body {i : Impl} {body : List Code} {error : Text}
    (hident : ∀ w ∈ variants, IsIdent w.ident) (hbody : i.tryFrom? = some body)
    (hconsts : constants eval body =
      (numbered eval variants).map fun (v, n) => (Discriminant.constName v, n))
    (harms : body.findSome? Code.valueArms? =
    some ((numbered eval variants).map (numberArm ·.1) ++
      [.yields .wild (Text.concat [Core.err, "(", error, ")"])])) :
    Inverts eval variants i error := by
  have hdefined (n : Int) : (i.converts? eval variants n).isSome = true ↔
      ((numbered eval variants).map (·.1.ident)).Nodup := by
    refine ⟨fun hsome => ?_, fun hnames => ?_⟩
    · by_contra hnames
      have hnodup : ¬((constants eval body).map (·.1)).Nodup := by
        rw [hconsts, List.map_map]
        exact mt nodup_constNames.mp hnames
      rw [Impl.converts?, hbody, Option.bind_eq_bind, Option.bind_some] at hsome
      dsimp only at hsome
      rw [if_neg hnodup] at hsome
      cases hsome
    · rw [converts?_eq hident hnames hbody hconsts harms]
      rfl
  refine ⟨by rw [hbody, Option.map_some, hconsts], hdefined, fun hdistinct n r hr => ?_⟩
  have hnames := (hdefined n).mp (by rw [hr]; rfl)
  rw [converts?_eq hident hnames hbody hconsts harms, Option.some_inj] at hr
  subst hr
  cases hfind : (numbered eval variants).find? (·.2 == n) with
  | none =>
      have hnone (v : Variant) : (v, n) ∉ numbered eval variants := fun hmem => by
        rw [mem_numbered_iff hdistinct, hfind] at hmem
        cases hmem
      refine ⟨fun v => iff_of_false nofun (hnone v), fun text => ?_⟩
      exact ⟨fun h => ⟨(Except.error.inj h).symm, hnone⟩,
        fun h => congrArg Except.error h.1.symm⟩
  | some p =>
      have hnumber : p.2 = n := by simpa using List.find?_some hfind
      subst hnumber
      refine ⟨fun v => ?_, fun text => iff_of_false nofun fun h => ?_⟩
      · rw [mem_numbered_iff hdistinct, hfind, Option.some_inj]
        exact ⟨fun h => congrArg (·, p.2) (Except.ok.inj h), fun h => by rw [h]; rfl⟩
      · exact h.2 p.1 (List.mem_of_find?_eq_some hfind)

end

/-! ## Every derive -/

theorem not_space_repr (attrs : List Attribute) :
    32 ∉ (Attribute.reprInt? attrs).getD "isize" := by
  have htypes : ∀ t ∈ Attribute.integerTypes, (32 : UInt8) ∉ t := by decide
  cases hrepr : Attribute.reprInt? attrs with
  | none => decide
  | some t =>
      obtain ⟨a, -, ha⟩ := List.exists_of_findSome?_eq_some hrepr
      split at ha
      · obtain ⟨m, -, hm⟩ := List.exists_of_findSome?_eq_some ha
        split at hm
        · split at hm
          · next hmem =>
              cases hm
              exact htypes _ (List.contains_iff_mem.mp hmem)
          · cases hm
        · cases hm
      · cases ha

theorem valueArms?_body (type : Text) (ds : List Discriminant) (arms : List Arm) :
    (constLines type ds ++ [Code.choose "value" arms]).findSome? Code.valueArms? =
    some arms := by
  have hlines : (constLines type ds).findSome? Code.valueArms? = none := by
    refine List.findSome?_eq_none_iff.mpr fun c hc => ?_
    obtain ⟨d, -, hc⟩ := List.mem_flatMap.mp hc
    simp only [List.mem_cons, List.not_mem_nil, or_false] at hc
    rcases hc with rfl | rfl <;> rfl
  rw [List.findSome?_append, hlines, Option.none_or]
  rfl

/-- For every parsed enum and every evaluation of explicit discriminants, the constants
that are emitted stand for the numbers of the variants without fields; and if numbers are
distinct, an integer is converted to the variant without fields that has it, and else
gives the error. -/
theorem tryFrom_inverts {source : Text} {decl : Decl} {d : Derive} {support : Support}
    {e : Expansion} (hd : find? "TryFrom" = some d)
    (hdecl : decl ∈ (parse source).file.decls)
    (h : d.run support decl = .ok e) (eval : Evaluation) :
    ∃ s i, Selection.ofDecl decl d.spec = .ok s ∧ e.impls = [i] ∧
      Inverts eval decl.data.variants i
        (notConverted support s ((Attribute.reprInt? decl.attrs).getD "isize")) := by
  cases hd
  obtain ⟨⟨s, views⟩, hselect, hbody⟩ := of_bind_ok (of_run_entry h)
  obtain ⟨hs, hshape⟩ := of_selectEnum_ok hselect
  refine ⟨s, _, hs, (Except.ok.inj hbody).symm, ?_⟩
  have hident : ∀ v ∈ decl.data.variants, IsIdent v.ident := by
    have hnamed := (named_of_parse hdecl).data
    cases hdata : decl.data with
    | enum variants =>
        rw [hdata] at hnamed
        exact fun v hv => (hnamed v hv).1
    | struct | union => exact nofun
  have hvalues := Discriminant.values_all eval decl.data.variants
  refine inverts_of_body hident (tryFrom?_block rfl) ?_ ?_
  · have hconst : ∀ d ∈ Discriminant.all decl.data.variants, 58 ∉ d.const := fun d hd => by
      have hmem := List.mem_map_of_mem (f := fun d : Discriminant =>
        (d.const, d.value, eval.value d.expr)) hd
      rw [hvalues] at hmem
      obtain ⟨p, hp, heq⟩ := List.mem_map.mp hmem
      have hname : Discriminant.constName p.1 = d.const := congrArg (·.1) heq
      rw [← hname]
      refine fun h => (List.mem_append.mp h).elim (by decide) ?_
      exact (hident _ (mem_of_numbered hp).1).not_mem (by decide) (by decide)
    have hlines := filterMap_constLines hconst (not_space_repr decl.attrs)
    change ((constLines _ (Discriminant.all decl.data.variants) ++ _).filterMap _).map _ = _
    rw [List.filterMap_append, hlines, List.filterMap_cons_none rfl, List.filterMap_nil,
      List.append_nil, List.map_map]
    have hpairs := congrArg (List.map fun t : Text × Text × Int => (t.1, t.2.2)) hvalues
    rw [List.map_map, List.map_map] at hpairs
    exact hpairs
  · refine (valueArms?_body _ _ _).trans ?_
    have harms := congrArg (List.map fun t : Text × Text × Int =>
      Arm.yields (.const t.1) (Text.concat [Core.ok, "(", t.2.1, ")"])) hvalues
    rw [List.map_map, List.map_map] at harms
    exact congrArg (fun arms => some (arms ++ _)) harms

/-- Behind an explicit discriminant the numbers go on, past a variant with fields. -/
theorem tryFrom_inverts_explicit : ∃ (eval : Evaluation) (d : Derive) (decl : Decl)
      (e : Expansion) (i : Impl) (v : Variant) (error : Text),
    eval.value "5" = 5 ∧ find? "TryFrom" = some d ∧
    (parse "enum E { A, B = 5, C, D(u8), F }").file.decls = [decl] ∧
    d.run {} decl = .ok e ∧ e.impls = [i] ∧ v ∈ decl.data.variants ∧ v.ident = "F" ∧
    i.converts? eval decl.data.variants 8 = some (.ok v) ∧
    i.converts? eval decl.data.variants 7 = some (.error error) := by
  obtain ⟨eval, hvalue⟩ : ∃ eval : Evaluation, eval.value "5" = 5 :=
    ⟨.extending (fun t => if t = "5" then 5 else 0) rfl, Evaluation.extend_given rfl⟩
  obtain ⟨d, decl, e, v₁, v₂, v₃, v₄, v₅, hd, hdecls, he, hvariants, h₂, h₁, h₃,
      h₄, h₅, hfields, hpayload, hname, hnames⟩ : ∃ d decl e v₁ v₂ v₃ v₄ v₅,
      find? "TryFrom" = some d ∧
      (parse "enum E { A, B = 5, C, D(u8), F }").file.decls = [decl] ∧
      d.run {} decl = .ok e ∧ decl.data.variants = [v₁, v₂, v₃, v₄, v₅] ∧
        v₂.discriminant = "5" ∧
      v₁.discriminant = [] ∧ v₃.discriminant = [] ∧ v₄.discriminant = [] ∧
        v₅.discriminant = [] ∧
      (∀ v ∈ [v₁, v₂, v₃, v₅], v.fields.list.isEmpty = true) ∧
        v₄.fields.list.isEmpty = false ∧
      v₅.ident = "F" ∧ ([v₁, v₂, v₃, v₅].map (·.ident)).Nodup :=
    ⟨_, _, _, _, _, _, _, _, rfl, rfl, rfl, rfl, rfl, rfl, rfl, rfl, rfl, by
      decide, rfl, rfl, by decide⟩
  obtain ⟨s, i, -, hi, hinverts⟩ :=
    tryFrom_inverts hd (hdecls ▸ List.mem_singleton_self decl) he eval
  have hnumbering : numbering eval 0 decl.data.variants =
      [(v₁, 0), (v₂, 5), (v₃, 6), (v₄, 7), (v₅, 8)] := by
    have htrim : Text.trim (Text.ofString "5") = "5" := rfl
    have hsome : (Text.ofString "5").isEmpty = false := rfl
    simp [hvariants, numbering, h₁, h₂, h₃, h₄, h₅, htrim, hsome, hvalue]
  have hnumbered : numbered eval decl.data.variants =
      [(v₁, 0), (v₂, 5), (v₃, 6), (v₅, 8)] := by
    simp only [List.forall_mem_cons] at hfields
    obtain ⟨hf₁, hf₂, hf₃, hf₅, -⟩ := hfields
    rw [numbered, hnumbering]
    simp only [List.filter_cons, hf₁, hf₂, hf₃, hf₅, hpayload, List.filter_nil]
    rfl
  have hdefined (n : Int) : ∃ r, i.converts? eval decl.data.variants n = some r :=
    Option.isSome_iff_exists.mp ((hinverts.defined n).mpr (by rw [hnumbered]; exact hnames))
  have hdistinct : ((numbering eval 0 decl.data.variants).map (·.2)).Nodup := by
    rw [hnumbering]
    exact (by decide : [(0 : Int), 5, 6, 7, 8].Nodup)
  obtain ⟨r, hr⟩ := hdefined 8
  obtain ⟨r', hr'⟩ := hdefined 7
  have hok := ((hinverts.inverts hdistinct 8 r hr).1 v₅).mpr (by rw [hnumbered]; simp)
  have herror := ((hinverts.inverts hdistinct 7 r' hr').2 _).mpr
    ⟨rfl, fun v => by rw [hnumbered]; simp⟩
  exact ⟨eval, d, decl, e, i, v₅, _, hvalue, hd, hdecls, he, hi, by
    rw [hvariants]; simp, hname, hok ▸ hr, herror ▸ hr'⟩

end Derive

end Deriver
