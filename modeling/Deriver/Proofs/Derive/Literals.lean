import Deriver.Proofs.Derive.Building
import Deriver.Proofs.Token.Quoted

/-!
# String literals for names

Main statement: `emitted_literals`. Which texts a derive writes in quotes is said once for
each family, from what is selected of the declaration (`spellings`). That its code holds
just these in quotes is shown for the texts of the code (`Impl.phrases`), which are walked
as they are put together: each part is the quoted form of a text, holds no quotation mark,
or is taken over from the declaration as it is (`Given`). Whether a text in quotes is read
back as that text is a matter of its characters alone. Names are identifiers, but an
identifier may hold characters without a glyph, and those are not read back.
-/

namespace Deriver

/-! ## The texts in functions -/

namespace Pat

mutual

/-- The constants and literals that a pattern matches with, in order. -/
def consts : Pat → List Text
  | .wild | .rest | .bind _ | .unit _ => []
  | .const text => [text]
  | .tuple _ entries => constsIn entries
  | .record _ entries _ => constsOf entries
  | .pair left right => left.consts ++ right.consts
  | .anyOf choices => constsIn choices
  | .named _ pat => pat.consts

/-- Those of a list of patterns. -/
def constsIn : List Pat → List Text
  | [] => []
  | p :: ps => p.consts ++ constsIn ps

/-- Those of named entries. -/
def constsOf : List (Text × Option Pat) → List Text
  | [] => []
  | (_, none) :: es => constsOf es
  | (_, some p) :: es => p.consts ++ constsOf es

end

theorem constsIn_map {α : Type} (as : List α) {f : α → Pat} (h : ∀ a, (f a).consts = []) :
    constsIn (as.map f) = [] := by
  induction as with
  | nil => rfl
  | cons a as ih => rw [List.map_cons, constsIn, h, ih, List.append_nil]

theorem constsOf_map {α : Type} (as : List α) {f : α → Text × Option Pat}
    (h : ∀ a, ∀ p ∈ (f a).2, p.consts = []) : constsOf (as.map f) = [] := by
  induction as with
  | nil => rfl
  | cons a as ih =>
      rw [List.map_cons]
      have ha := h a
      cases hfa : f a with
      | mk name entry =>
          cases entry with
          | none => exact ih
          | some p => rw [constsOf, ha p (by rw [hfa]; rfl), ih, List.append_nil]

end Pat

mutual

/-- The texts in a piece of code, in order, without the heads of blocks. -/
def Code.phrases : Code → List Text
  | .line text => [text]
  | .blank => []
  | .block _ body => Code.phrasesIn body
  | .choose scrutinee arms => scrutinee :: Arm.phrasesIn arms
  | .chooseNone scrutinee => [scrutinee]
  | .reflow body => Code.phrasesIn body

/-- Those in a body. -/
def Code.phrasesIn : List Code → List Text
  | [] => []
  | c :: cs => c.phrases ++ Code.phrasesIn cs

/-- Those in an arm. -/
def Arm.phrases : Arm → List Text
  | .yields pat value => pat.consts ++ [value]
  | .guarded pat guard value => pat.consts ++ [guard, value]
  | .runs pat body => pat.consts ++ Code.phrasesIn body
  | .chooses pat scrutinee arms => pat.consts ++ scrutinee :: Arm.phrasesIn arms

/-- Those in the arms of a match. -/
def Arm.phrasesIn : List Arm → List Text
  | [] => []
  | a :: as => a.phrases ++ Arm.phrasesIn as

end

/-- The texts in a function among the items of an implementation. -/
def Code.function : Code → List Text
  | .block _ body => Code.phrasesIn body
  | _ => []

/-- The texts in the functions of an implementation, in order. -/
def Impl.phrases : Impl → List Text
  | .block _ items => items.flatMap Code.function
  | .marker _ => []

/-! ## The literals in a text -/

/-- Whether a text consists of the quoted forms of some texts, in order, and of parts that
hold no quotation mark or are given from outside. -/
inductive Quotes (own : Text → Prop) : List Text → Text → Prop
  | plain {t : Text} (h : 34 ∉ t) : Quotes own [] t
  | given {t : Text} (h : own t) : Quotes own [] t
  | literal (t : Text) : Quotes own [t] t.quoted
  | append {ls ks : List Text} {s t : Text} (hs : Quotes own ls s) (ht : Quotes own ks t) :
      Quotes own (ls ++ ks) (s ++ t)

/-- Whether the texts of a list, one after the other, consist so of some texts. -/
inductive QuoteAll (own : Text → Prop) : List Text → List Text → Prop
  | nil : QuoteAll own [] []
  | cons {ls ks : List Text} {t : Text} {ts : List Text} (ht : Quotes own ls t)
      (hts : QuoteAll own ks ts) : QuoteAll own (ls ++ ks) (t :: ts)

section

variable {own : Text → Prop} {ls ks : List Text} {t : Text} {ts us : List Text}

namespace QuoteAll

theorem plain (h : 34 ∉ t) (hts : QuoteAll own ls ts) : QuoteAll own ls (t :: ts) :=
  .cons (.plain h) hts

theorem given (h : own t) (hts : QuoteAll own ls ts) : QuoteAll own ls (t :: ts) :=
  .cons (.given h) hts

theorem literal (s : Text) (hts : QuoteAll own ls ts) :
    QuoteAll own (s :: ls) (s.quoted :: ts) :=
  .cons (.literal s) hts

theorem one (h : Quotes own ls t) : QuoteAll own ls [t] := by
  have hone := QuoteAll.cons h .nil
  rwa [List.append_nil] at hone

theorem append (hts : QuoteAll own ls ts) (hus : QuoteAll own ks us) :
    QuoteAll own (ls ++ ks) (ts ++ us) := by
  induction hts with
  | nil => exact hus
  | cons ht _ ih =>
      rw [List.append_assoc]
      exact .cons ht ih

theorem map {f : Text → Text} (h : ∀ ls t, Quotes own ls t → Quotes own ls (f t))
    (hts : QuoteAll own ls ts) : QuoteAll own ls (ts.map f) := by
  induction hts with
  | nil => exact .nil
  | cons ht _ ih => exact .cons (h _ _ ht) ih

theorem flatMap {α : Type} {as : List α} {f g : α → List Text}
    (h : ∀ a ∈ as, QuoteAll own (f a) (g a)) :
    QuoteAll own (as.flatMap f) (as.flatMap g) := by
  induction as with
  | nil => exact .nil
  | cons a as ih =>
      obtain ⟨ha, has⟩ := List.forall_mem_cons.mp h
      exact ha.append (ih has)

theorem of_plain (h : ∀ t ∈ ts, 34 ∉ t) : QuoteAll own [] ts := by
  induction ts with
  | nil => exact .nil
  | cons t ts ih =>
      obtain ⟨ht, hts⟩ := List.forall_mem_cons.mp h
      exact .plain ht (ih hts)

end QuoteAll

namespace Quotes

theorem concat (h : QuoteAll own ls ts) : Quotes own ls (Text.concat ts) := by
  induction h with
  | nil => exact .plain List.not_mem_nil
  | cons ht _ ih => exact .append ht ih

theorem join {sep : Text} (hsep : 34 ∉ sep) (h : QuoteAll own ls ts) :
    Quotes own ls (Text.join sep ts) := by
  induction h with
  | nil => exact .plain List.not_mem_nil
  | @cons ls ks t ts ht hts ih =>
      cases ts with
      | nil =>
          cases hts
          rw [List.append_nil]
          exact ht
      | cons u us =>
          have hfront := Quotes.append ht (.plain hsep)
          rw [List.append_nil] at hfront
          exact .append hfront ih

theorem tupleOf (h : QuoteAll own ls ts) : Quotes own ls (Derive.tupleOf ts) := by
  unfold Derive.tupleOf
  split
  · cases h with
    | cons ht hts =>
        cases hts
        rw [List.append_nil]
        exact ht
  · have hsep : 34 ∉ (", " : Text) := by decide
    have hlist := QuoteAll.cons (join hsep h) (.plain (t := ")") (by decide) .nil)
    rw [List.append_nil] at hlist
    exact concat (.plain (by decide) hlist)

end Quotes

end

namespace Code

theorem phrasesIn_append (body body' : List Code) :
    phrasesIn (body ++ body') = phrasesIn body ++ phrasesIn body' := by
  induction body with
  | nil => rfl
  | cons c cs ih => rw [List.cons_append, phrasesIn, phrasesIn, ih, List.append_assoc]

theorem phrasesIn_lines (lines : List Text) : phrasesIn (lines.map Code.line) = lines := by
  induction lines with
  | nil => rfl
  | cons t ts ih =>
      rw [List.map_cons, phrasesIn, ih]
      rfl

end Code

theorem Code.phrasesIn_choose (scrutinee : Text) (arms : List Arm) :
    Code.phrasesIn [.choose scrutinee arms] = scrutinee :: Arm.phrasesIn arms :=
  List.append_nil _

theorem Arm.phrasesIn_eq_flatMap (arms : List Arm) :
    Arm.phrasesIn arms = arms.flatMap Arm.phrases := by
  induction arms with
  | nil => rfl
  | cons a as ih => rw [Arm.phrasesIn, ih, List.flatMap_cons]

/-- An implementation of one function, which consists of a match, with a type in front. -/
theorem Impl.phrases_method (header line head scrutinee : Text) (arms : List Arm) :
    (Impl.block header [.line line, .blank, .inline,
      .block head [.choose scrutinee arms]]).phrases =
      scrutinee :: arms.flatMap Arm.phrases := by
  rw [← Arm.phrasesIn_eq_flatMap, ← Code.phrasesIn_choose]
  exact List.append_nil _

/-! ## What is given from outside -/

/-- The formats in a selection. -/
def Selection.formatSpecs (s : Selection) : List FormatSpec :=
  s.container.format.toList ++ match s.shape with
    | .struct fields => fields.all.filterMap (·.options.format)
    | .enum variants => variants.flatMap fun v =>
        v.options.format.toList ++ v.fields.all.filterMap (·.options.format)

section

variable {s : Selection} {f : FieldView} {format : FormatSpec} {variants : List VariantView}
  {v : VariantView}

theorem mem_formatSpecs_of_container (h : s.container.format = some format) :
    format ∈ s.formatSpecs := List.mem_append_left _ (Option.mem_toList.mpr h)

theorem mem_formatSpecs_of_struct {fields : FieldsView} (hshape : s.shape = .struct fields)
    (hf : f ∈ fields.all) (h : f.options.format = some format) :
    format ∈ s.formatSpecs := by
  unfold Selection.formatSpecs
  rw [hshape]
  exact List.mem_append_right _ (List.mem_filterMap.mpr ⟨f, hf, h⟩)

theorem mem_formatSpecs_of_variant (hshape : s.shape = .enum variants) (hv : v ∈ variants)
    (h : v.options.format = some format) : format ∈ s.formatSpecs := by
  unfold Selection.formatSpecs
  rw [hshape]
  exact List.mem_append_right _ (List.mem_flatMap.mpr
    ⟨v, hv, List.mem_append_left _ (Option.mem_toList.mpr h)⟩)

theorem mem_formatSpecs_of_enum (hshape : s.shape = .enum variants) (hv : v ∈ variants)
    (hf : f ∈ v.fields.all) (h : f.options.format = some format) :
    format ∈ s.formatSpecs := by
  unfold Selection.formatSpecs
  rw [hshape]
  exact List.mem_append_right _ (List.mem_flatMap.mpr
    ⟨v, hv, List.mem_append_right _ (List.mem_filterMap.mpr ⟨f, hf, h⟩)⟩)

end

/-- The parts of generated code that are taken over as they are given: the path of the
support crate, formats with their arguments, the conversion of an error, and the types of
fields. -/
inductive Given (support : Support) (s : Selection) : Text → Prop
  | crate : Given support s support.root
  | format {f : FormatSpec} (h : f ∈ s.formatSpecs) : Given support s f.lit
  | argument {f : FormatSpec} {a : Text} (h : f ∈ s.formatSpecs) (ha : a ∈ f.args) :
      Given support s a
  | conversion {e : CustomError} (h : s.container.error = some e) : Given support s e.conv
  | type {fields : FieldsView} {f : FieldView} (h : s.shape = .struct fields)
      (hf : f ∈ fields.all) : Given support s f.ty.render

namespace Derive

section

variable {support : Support} {s : Selection}

theorem quotes_call {f : FormatSpec} (hf : f ∈ s.formatSpecs) (opening : List Text)
    (h : ∀ t ∈ opening, 34 ∉ t) : Quotes (Given support s) [] (f.call opening) := by
  have hargs : ∀ as : List Text, (∀ a ∈ as, Given support s a) →
      QuoteAll (Given support s) [] as := by
    intro as has
    induction as with
    | nil => exact .nil
    | cons a as ih =>
        obtain ⟨ha, has⟩ := List.forall_mem_cons.mp has
        exact .given ha (ih has)
  have hsep : 34 ∉ (", " : Text) := by decide
  exact Quotes.join hsep ((QuoteAll.of_plain h).append
    (hargs _ (List.forall_mem_cons.mpr ⟨.format hf, fun a ha => .argument hf ha⟩)))

theorem quotes_write {f : FormatSpec} (hf : f ∈ s.formatSpecs) :
    Quotes (Given support s) [] f.write := by
  have hcall : Quotes (Given support s) [] (f.call [FormatSpec.formatter]) :=
    quotes_call hf _ (by decide)
  exact Quotes.concat (.plain (by decide) (.cons hcall (.plain (by decide) .nil)))

theorem quotes_arguments {f : FormatSpec} (hf : f ∈ s.formatSpecs) :
    Quotes (Given support s) [] f.arguments := by
  have hcall : Quotes (Given support s) [] (f.call []) := quotes_call hf _ (by decide)
  exact Quotes.concat (.plain (by decide) (.cons hcall (.plain (by decide) .nil)))

theorem quotes_writeName (own : Text → Prop) (name : Text) :
    Quotes own [plainName name] (writeName name) :=
  Quotes.concat (.plain (by decide)
    (.plain (by decide) (.literal _ (.plain (by decide) .nil))))

end

/-! ## What is meant -/

/-- What is written in quotes for a variant by itself, by `Display` and its like. -/
def ownLiterals (placeholder : Text) (inShared : Bool) (v : VariantView) : List Text :=
  match v.options.format, v.fields.all with
  | none, [] => [plainName v.name]
  | none, [_] => if inShared then [placeholder] else []
  | _, _ => []

/-- What `Display` and its like write in quotes. -/
def displayLiterals (placeholder : Text) (s : Selection) : List Text :=
  match s.shape with
  | .struct fields =>
      if s.container.format.isNone && fields.isUnit then [plainName s.decl.name] else []
  | .enum variants =>
      if writesOwn s then variants.flatMap (ownLiterals placeholder
        s.container.format.isSome)
      else []

/-- What `Debug` writes in quotes for a struct or variant: its name, and those of its
fields if they have names. -/
def partLiterals (name : Text) (own : Option FormatSpec) (fields : FieldsView) :
    List Text :=
  match own with
  | some _ => []
  | none => plainName name ::
      if fields.style = .named then fields.enabled.map fun f =>
        plainName (f.field.ident.getD [])
      else []

/-- What `Debug` writes in quotes. -/
def debugLiterals (s : Selection) : List Text :=
  match s.shape with
  | .struct fields => partLiterals s.decl.name s.container.format fields
  | .enum variants =>
      variants.flatMap fun v => partLiterals v.name v.options.format v.fields

/-- What `FromStr` writes in quotes: the literals and the exact spellings that are asked for
besides, and the name of the enum for the error. -/
def parserLiterals (s : Selection) : List Text :=
  match s.shape with
  | .struct _ => []
  | .enum variants =>
      ((literalArms s (variants.filter (·.enabled))).1.flatMap fun a =>
        a.literal :: a.guard.toList) ++ [s.decl.name]

/-- What a function for a variant writes in quotes for a value of another variant. -/
def messages (kind : Accessor) (owner fn other : Text) : List Text :=
  match kind with
  | .asVariant | .tryInto => []
  | .unwrap =>
      [Text.concat ["called \x60", owner, "::", fn, "()\x60 on a ", tick other, " value"]]
  | .tryUnwrap => [owner, other, fn]

/-- What the functions for variants write in quotes. -/
def accessorLiterals (kind : Accessor) (s : Selection) : List Text :=
  match s.shape with
  | .struct _ => []
  | .enum variants =>
      (variants.filter (·.enabled)).flatMap fun v => v.forms.flatMap fun form =>
      (variants.filter (·.name != v.name)).flatMap fun other =>
        messages kind s.decl.name ((Family.access kind).methodName v form) other.name

/-- What `TryInto` writes in quotes: the variants that are converted together, and their
types. -/
def payloadLiterals (s : Selection) : List Text :=
  match s.shape with
  | .struct _ => []
  | .enum variants => (payloadGroups (variants.filter (·.enabled))).flatMap fun g =>
      [Text.join ", " (g.members.map (·.name)), tupleOf g.types]

/-! ## Names hold no quotation mark -/

section

variable {v : FieldsView} {f : FieldView}

theorem free_ident {name : Text} (h : IsIdent name) : 34 ∉ name :=
  h.not_mem (by decide) (by decide)

theorem free_number (n : Nat) : 34 ∉ Text.ofNat n := fun h =>
  absurd (Text.wordy_ofNat n 34 h) (by decide)

theorem free_name (hv : v.Named) (hf : f ∈ v.all) : 34 ∉ f.name := by
  unfold FieldView.name
  cases hident : f.field.ident with
  | some name => exact free_ident (hv f hf name hident)
  | none => exact free_number f.index

theorem free_formatName (hv : v.Named) (hf : f ∈ v.all) : 34 ∉ f.formatName := by
  unfold FieldView.formatName FieldView.name
  cases hident : f.field.ident with
  | some name => exact free_ident (hv f hf name hident)
  | none =>
      change 34 ∉ (95 :: Text.ofNat f.index : Text)
      rw [List.mem_cons, not_or]
      exact ⟨by decide, free_number f.index⟩

theorem free_concat {ts : List Text} (h : ∀ t ∈ ts, 34 ∉ t) : 34 ∉ Text.concat ts := by
  intro hmem
  obtain ⟨t, ht, hmem⟩ := List.mem_flatten.mp hmem
  exact h t ht hmem

theorem free_member (hv : v.Named) (hf : f ∈ v.all) : 34 ∉ f.member := by
  refine free_concat ?_
  simp only [List.forall_mem_cons]
  exact ⟨by decide, by decide, free_name hv hf, List.forall_mem_nil _⟩

end

/-! ## Formatting -/

section

variable {support : Support} {s : Selection} {g g' : ImplGenerics}

theorem consts_formatPattern (v : FieldsView) (path : Text) (used : List Text) :
    (v.formatPattern path used).consts = [] := by
  unfold FieldsView.formatPattern
  dsimp only
  split
  · split
    · rfl
    · exact Pat.constsIn_map _ fun f => by split <;> rfl
  · exact Pat.constsOf_map _ fun f => nofun
  · rfl

theorem phrases_formatImpl (g : ImplGenerics) (s : Selection) (body : List Code) :
    (formatImpl g s body).phrases = Code.phrasesIn body := by
  simp only [formatImpl, Impl.phrases, List.flatMap_cons, List.flatMap_nil, Code.function,
    Code.phrasesIn, Code.phrases, List.append_nil]

theorem quotes_bindings {own : Text → Prop} {fields : FieldsView} (hnamed : fields.Named)
    (used : List Text) : QuoteAll own [] (fields.bindings used) := by
  refine .of_plain fun t ht => ?_
  obtain ⟨f, hf, rfl⟩ := List.mem_map.mp ht
  have hmem := List.mem_of_mem_filter hf
  refine free_concat ?_
  simp only [List.forall_mem_cons]
  exact ⟨by decide, free_formatName hnamed hmem, by decide, free_member hnamed hmem,
    by decide, List.forall_mem_nil _⟩

theorem quotes_displayStruct {fields : FieldsView} {body : List Code}
    (hshape : s.shape = .struct fields) (hnamed : fields.Named) (hpath : 34 ∉ s.spec.path)
    (h : displayStruct s fields = .ok (g, body)) (placeholder : Text) :
    QuoteAll (Given support s) (displayLiterals placeholder s) (Code.phrasesIn body) := by
  unfold displayLiterals
  rw [hshape]
  dsimp only
  unfold displayStruct at h
  split at h
  · next f hformat =>
      obtain ⟨uses, -, h⟩ := of_bind_ok h
      cases h
      have hf := mem_formatSpecs_of_container hformat
      rw [hformat, Code.phrasesIn_append, Code.phrasesIn_lines]
      exact (quotes_bindings hnamed _).append (.one (quotes_write hf))
  · next hformat hall =>
      cases h
      rw [hformat, FieldsView.isUnit, hall]
      exact .one (quotes_writeName _ _)
  · next field hformat hall =>
      cases h
      rw [FieldsView.isUnit, hall, List.isEmpty_cons, Bool.and_false]
      refine .of_plain (List.forall_mem_singleton.mpr (free_concat ?_))
      simp only [List.forall_mem_cons]
      exact ⟨hpath, by decide, free_member hnamed (hall ▸ List.mem_singleton_self _),
        by decide, by decide, by decide, List.forall_mem_nil _⟩
  · cases h

theorem quotes_variantOutput {placeholder text : Text} {inShared : Bool} {v : VariantView}
    {variants : List VariantView} (hshape : s.shape = .enum variants) (hv : v ∈ variants)
    (hnamed : v.fields.Named) (hpath : 34 ∉ s.spec.path)
    (h : variantOutput placeholder s inShared v g = .ok (g', text)) :
    Quotes (Given support s) (ownLiterals placeholder inShared v) text := by
  unfold ownLiterals
  unfold variantOutput at h
  split at h
  · next f hformat =>
      obtain ⟨uses, -, h⟩ := of_bind_ok h
      cases h
      have hf := mem_formatSpecs_of_variant hshape hv hformat
      rw [hformat]
      cases inShared with
      | true => exact quotes_arguments hf
      | false => exact quotes_write hf
  · next hformat hall =>
      cases h
      rw [hformat, hall]
      cases inShared with
      | true => exact .literal _
      | false => exact quotes_writeName _ _
  · next field hformat hall =>
      cases h
      rw [hformat, hall]
      have hname := free_formatName hnamed (hall ▸ List.mem_singleton_self field)
      cases inShared with
      | true =>
          exact Quotes.concat (.plain (by decide) (.literal _ (.plain (by decide)
            (.plain hname (.plain (by decide) .nil)))))
      | false =>
          exact Quotes.concat (.plain hpath (.plain (by decide) (.plain hname
            (.plain (by decide) (.plain (by decide) (.plain (by decide) .nil))))))
  · cases h

/-- What an arm of `Display` and its like writes. -/
theorem quotes_displayArm {placeholder : Text} {shared : Option SharedFormat}
    {v : VariantView}
    {variants : List VariantView} {arm : Arm} (hshape : s.shape = .enum variants)
    (hv : v ∈ variants) (hnamed : v.fields.Named) (hpath : 34 ∉ s.spec.path)
    (hshared : sharedFormat s = .ok shared)
    (h : displayArm placeholder s shared g v = .ok (g', arm)) :
    QuoteAll (Given support s)
      (if writesOwn s then ownLiterals placeholder s.container.format.isSome v else [])
      arm.phrases := by
  obtain ⟨hformat, hdelegates, -⟩ := of_sharedFormat hshared
  rw [← hdelegates, ← hformat, Option.isSome_map]
  unfold displayArm at h
  dsimp only at h
  split at h
  · cases h
  cases shared with
  | none =>
      obtain ⟨⟨g₁, text⟩, htext, h⟩ := of_bind_ok h
      cases h
      rw [Arm.phrases, consts_formatPattern, List.nil_append]
      exact .one (quotes_variantOutput hshape hv hnamed hpath htext)
  | some f =>
      have hf : f.format ∈ s.formatSpecs := mem_formatSpecs_of_container hformat.symm
      dsimp only at h
      split at h
      · next hnot =>
          cases h
          have hnone : f.delegates = false := by simpa using hnot
          rw [Arm.phrases, consts_formatPattern, List.nil_append, Option.map_some,
            Option.getD_some, hnone]
          exact .one (quotes_write hf)
      · next hown =>
          obtain ⟨⟨g₁, text⟩, htext, h⟩ := of_bind_ok h
          cases h
          have hsome : f.delegates = true := by simpa using hown
          rw [Arm.phrases, consts_formatPattern, List.nil_append, Option.map_some,
            Option.getD_some, hsome, if_pos rfl]
          have hwrites : QuoteAll (Given support s) (ownLiterals placeholder true v ++ [])
              [text, f.format.write] :=
            .cons (quotes_variantOutput hshape hv hnamed hpath htext)
              (.one (quotes_write hf))
          rw [List.append_nil] at hwrites
          exact hwrites

theorem quoteAll_arms {own : Text → Prop} {views : List VariantView} {arms : List Arm}
    {f : VariantView → List Text}
    (h : List.Forall₂ (fun v a => QuoteAll own (f v) a.phrases) views arms) :
    QuoteAll own (views.flatMap f) (Arm.phrasesIn arms) := by
  induction h with
  | nil => exact .nil
  | cons ha _ ih => exact ha.append ih

theorem quotes_display {placeholder : Text} {decl : Decl} {spec : TraitSpec}
    {impls : List Impl} (hnamed : decl.data.Named) (hpath : 34 ∉ spec.path)
    (h : display placeholder decl spec = .ok impls) :
    ∃ s, Selection.ofDecl decl spec = .ok s ∧
      QuoteAll (Given support s) (displayLiterals placeholder s)
      (impls.flatMap Impl.phrases) := by
  obtain ⟨s, hs, h⟩ := of_bind_ok h
  refine ⟨s, hs, ?_⟩
  have hnames := Selection.named_of_ofDecl hnamed hs
  rw [← (Selection.of_ofDecl hs).2] at hpath
  dsimp only at h
  cases hshape : s.shape with
  | struct fields =>
      rw [hshape] at h hnames
      obtain ⟨⟨g, body⟩, hbody, h⟩ := of_bind_ok h
      cases h
      rw [List.flatMap_singleton, phrases_formatImpl]
      exact quotes_displayStruct hshape hnames hpath hbody placeholder
  | enum variants =>
      rw [hshape] at h hnames
      cases variants with
      | nil =>
          cases h
          rw [List.flatMap_singleton, phrases_formatImpl, displayLiterals, hshape]
          dsimp only
          rw [List.flatMap_nil, ite_self]
          exact .of_plain (by decide)
      | cons v vs =>
          obtain ⟨shared, hshared, h⟩ := of_bind_ok h
          obtain ⟨⟨g', arms⟩, harms, h⟩ := of_bind_ok h
          cases h
          have hall : List.Forall₂ (fun w a => QuoteAll (Given support s)
              (if writesOwn s then ownLiterals placeholder s.container.format.isSome w
                else [])
              a.phrases) (v :: vs) arms :=
            forall₂_of_arms (fun _ => rfl) (fun _ _ _ => rfl) (fun w hw _ _ _ hw' =>
              quotes_displayArm hshape hw (hnames w hw).2 hpath hshared hw') harms
          have hquotes := quoteAll_arms hall
          have hlist : (if writesOwn s then
              (v :: vs).flatMap (ownLiterals placeholder s.container.format.isSome)
                else []) =
              (v :: vs).flatMap fun w =>
                if writesOwn s then ownLiterals placeholder s.container.format.isSome w
                  else [] := by
            cases writesOwn s with
            | true => rfl
            | false => exact (List.flatMap_eq_nil_iff.mpr fun _ _ => rfl).symm
          rw [List.flatMap_singleton, phrases_formatImpl, displayLiterals, hshape]
          dsimp only
          rw [hlist, Code.phrasesIn_choose]
          exact .plain (by decide) hquotes

/-! ## Debug -/

theorem quotes_debugField {fields : FieldsView} {f : FieldView} {value : Text}
    (hnamed : fields.Named) (hf : f ∈ fields.all)
    (hown : ∀ format, f.options.format = some format → format ∈ s.formatSpecs)
    (h : debugField s fields g f = .ok (g', value)) :
    Quotes (Given support s) [] value := by
  unfold debugField at h
  split at h
  · next format hformat =>
      obtain ⟨uses, -, h⟩ := of_bind_ok h
      cases h
      exact quotes_arguments (hown format hformat)
  · cases h
    exact .plain (free_formatName hnamed hf)

/-- The calls for fields name them, if they have names. -/
theorem quotes_debugFields {fields : FieldsView} (hnamed : fields.Named)
    (hown : ∀ f ∈ fields.all, ∀ format, f.options.format = some format →
    format ∈ s.formatSpecs) :
    ∀ {fs : List FieldView} {g g' : ImplGenerics} {calls : List Text},
    (∀ f ∈ fs, f ∈ fields.all) → debugFields s fields g fs = .ok (g', calls) →
      QuoteAll (Given support s)
        (if fields.style = .named then fs.map fun f =>
        plainName (f.field.ident.getD []) else []) calls := by
  intro fs
  induction fs with
  | nil =>
      intro g g' calls _ h
      cases h
      rw [List.map_nil, ite_self]
      exact .nil
  | cons f fs ih =>
      intro g g' calls hall h
      obtain ⟨hf, hfs⟩ := List.forall_mem_cons.mp hall
      obtain ⟨⟨g₁, value⟩, hvalue, h⟩ := of_bind_ok h
      obtain ⟨⟨g₂, rest⟩, hrest, h⟩ := of_bind_ok h
      cases h
      have hquotes : Quotes (Given support s) [] value :=
        quotes_debugField hnamed hf (hown f hf) hvalue
      have hcalls := ih hfs hrest
      split
      · next hstyle =>
          rw [if_pos hstyle] at hcalls
          have hcall : Quotes (Given support s)
              [plainName (f.field.ident.getD [])] (Text.concat
              [".field(", (plainName (f.field.ident.getD [])).quoted, ", ", value, ")"]) :=
            .concat (.plain (by decide) (.literal _ (.plain (by decide)
              (.cons hquotes (.plain (by decide) .nil)))))
          exact QuoteAll.cons hcall hcalls
      · next hstyle =>
          rw [if_neg hstyle] at hcalls
          have hcall : Quotes (Given support s) [] (Text.concat [".field(", value, ")"]) :=
            .concat (.plain (by decide) (.cons hquotes (.plain (by decide) .nil)))
          exact QuoteAll.cons hcall hcalls

theorem quotes_debugOutput {name out : Text} {own : Option FormatSpec} {fields : FieldsView}
    (hnamed : fields.Named) (hformat : ∀ format, own = some format → format ∈ s.formatSpecs)
    (hown : ∀ f ∈ fields.all, ∀ format, f.options.format = some format →
    format ∈ s.formatSpecs) (h : debugOutput s name own fields g = .ok (g', out)) :
    Quotes (Given support s) (partLiterals name own fields) out := by
  unfold debugOutput at h
  split at h
  · obtain ⟨uses, -, h⟩ := of_bind_ok h
    cases h
    exact quotes_write (hformat _ rfl)
  · next hstyle =>
      cases h
      rw [partLiterals, hstyle, if_neg nofun]
      exact quotes_writeName _ _
  · obtain ⟨⟨g₁, calls⟩, hcalls, h⟩ := of_bind_ok h
    cases h
    have henabled : QuoteAll (Given support s) (if fields.style = .named then
        fields.enabled.map fun f => plainName (f.field.ident.getD []) else []) calls :=
      quotes_debugFields hnamed hown (fun f hf => List.mem_of_mem_filter hf) hcalls
    have hbuilder : 34 ∉
        ((if fields.style = .named then ".debug_struct(" else ".debug_tuple(" :
        String) : Text) := by split <;> decide
    have hfinish : 34 ∉ (if fields.skipped.isEmpty then ".finish()" else
        ".finish_non_exhaustive()" : Text) := by split <;> decide
    have hopening : Quotes (Given support s) [plainName name] (Text.concat
        [FormatSpec.formatter,
          ((if fields.style = .named then ".debug_struct(" else
            ".debug_tuple(" : String) : Text),
          (plainName name).quoted, ")"]) :=
      .concat (.plain (by decide) (.plain hbuilder (.literal _ (.plain (by decide) .nil))))
    have hlines := (henabled.append (.plain hfinish .nil)).map
      (f := fun call => Text.concat ["\n", Code.indentUnit, call]) fun ls t ht =>
        .concat (.plain (by decide) (.plain (by decide) (.one ht)))
    rw [List.append_nil] at hlines
    exact .concat (.cons hopening hlines)

/-- What an arm of `Debug` writes. -/
theorem quotes_debugArm {v : VariantView} {variants : List VariantView} {arm : Arm}
    (hshape : s.shape = .enum variants) (hv : v ∈ variants) (hnamed : v.fields.Named)
    (h : debugArm s g v = .ok (g', arm)) :
    QuoteAll (Given support s)
    (partLiterals v.name v.options.format v.fields) arm.phrases := by
  obtain ⟨-, -, h⟩ := of_bind_ok h
  obtain ⟨⟨g₁, out⟩, hout, h⟩ := of_bind_ok h
  cases h
  have hquotes : QuoteAll (Given support s) _ [out] := .one (quotes_debugOutput hnamed
    (fun _ => mem_formatSpecs_of_variant hshape hv)
    (fun f hf _ => mem_formatSpecs_of_enum hshape hv hf) hout)
  split
  · rw [Arm.phrases, consts_formatPattern]
    exact hquotes
  · rw [Arm.phrases, consts_formatPattern]
    exact hquotes

theorem quotes_debug {decl : Decl} {spec : TraitSpec} {impls : List Impl}
    (hnamed : decl.data.Named) (h : debug decl spec = .ok impls) :
    ∃ s, Selection.ofDecl decl spec = .ok s ∧
      QuoteAll (Given support s) (debugLiterals s) (impls.flatMap Impl.phrases) := by
  obtain ⟨s, hs, h⟩ := of_bind_ok h
  refine ⟨s, hs, ?_⟩
  have hnames := Selection.named_of_ofDecl hnamed hs
  have hdecl := (Selection.of_ofDecl hs).1
  rw [debugLiterals]
  cases hshape : s.shape with
  | struct fields =>
      rw [hshape] at h hnames
      obtain ⟨-, -, h⟩ := of_bind_ok h
      obtain ⟨⟨g, out⟩, hout, h⟩ := of_bind_ok h
      cases h
      have hquotes : Quotes (Given support s)
          (partLiterals decl.name s.container.format fields) out :=
        quotes_debugOutput hnames (fun _ => mem_formatSpecs_of_container)
          (fun f hf _ => mem_formatSpecs_of_struct hshape hf) hout
      rw [List.flatMap_singleton, phrases_formatImpl, Code.phrasesIn_append,
        Code.phrasesIn_lines, hdecl]
      exact (quotes_bindings hnames _).append (.one hquotes)
  | enum variants =>
      rw [hshape] at h hnames
      cases variants with
      | nil =>
          cases h
          rw [List.flatMap_singleton, phrases_formatImpl]
          exact .of_plain (by decide)
      | cons v vs =>
          obtain ⟨⟨g', arms⟩, harms, h⟩ := of_bind_ok h
          cases h
          have hall : List.Forall₂ (fun w a => QuoteAll (Given support s)
              (partLiterals w.name w.options.format w.fields) a.phrases) (v :: vs) arms :=
            forall₂_of_arms (fun _ => rfl) (fun _ _ _ => rfl) (fun w hw _ _ _ hw' =>
              quotes_debugArm hshape hw (hnames w hw).2 hw') harms
          rw [List.flatMap_singleton, phrases_formatImpl, Code.phrasesIn_choose]
          exact .plain (by decide) (quoteAll_arms hall)

/-! ## Parsing -/

theorem quotes_item (name : Text) (h : 34 ∉ name) :
    Quotes (Given support s) [] (support.item name) :=
  .concat (.given .crate (.plain (by decide) (.plain h .nil)))

/-- What an arm of `FromStr` for a literal writes. -/
theorem quotes_literalArm {own : Text → Prop} {a : LiteralArm} (h : 34 ∉ a.variant) :
    QuoteAll own (a.literal :: a.guard.toList) a.arm.phrases := by
  have hvalue : 34 ∉ Text.concat [Core.ok, "(Self::", a.variant, ")"] := by
    refine free_concat ?_
    simp only [List.forall_mem_cons]
    exact ⟨by decide, by decide, h, by decide, List.forall_mem_nil _⟩
  unfold LiteralArm.arm
  cases a.guard with
  | none => exact .literal _ (.plain hvalue .nil)
  | some exact =>
      have hguard : Quotes own [exact] (("s == " : Text) ++ exact.quoted) :=
        .append (.plain (by decide)) (.literal exact)
      exact .literal _ (.cons hguard (.plain hvalue .nil))

theorem quotes_parserOf {decl : Decl} {header : Text} {scrutinee : Text}
    {arms : List LiteralArm}
    (hscrutinee : 34 ∉ scrutinee) (harms : ∀ a ∈ arms, 34 ∉ a.variant) :
    QuoteAll (Given support s)
    ((arms.flatMap fun a => a.literal :: a.guard.toList) ++ [decl.name])
      (parserOf support decl header scrutinee arms).phrases := by
  have hlast : QuoteAll (Given support s) [decl.name]
      (Arm.yields .wild (notParsed support decl)).phrases :=
    .one (.concat (.plain (by decide) (.plain (by decide) (.cons (quotes_item _ (by decide))
      (.plain (by decide) (.literal _ (.plain (by decide) .nil)))))))
  have hfront : QuoteAll (Given support s)
      (arms.flatMap fun a => a.literal :: a.guard.toList)
      ((arms.map LiteralArm.arm).flatMap Arm.phrases) := by
    rw [List.flatMap_map]
    exact .flatMap fun a ha => quotes_literalArm (harms a ha)
  rw [parserOf, Impl.phrases_method, List.flatMap_append, List.flatMap_singleton]
  exact .plain hscrutinee (hfront.append hlast)

theorem quotes_bracket {own : Text → Prop} {style : FieldStyle} {path : Text}
    {pieces : List Text}
    (hpath : 34 ∉ path) (h : QuoteAll own [] pieces) :
    Quotes own [] (style.bracket path pieces) := by
  have hsep : 34 ∉ (", " : Text) := by decide
  cases style with
  | tuple =>
      exact .concat (.plain hpath (.plain (by decide) (.cons (.join hsep h)
        (.plain (by decide) .nil))))
  | named =>
      exact .concat (.plain hpath (.plain (by decide) (.cons (.join hsep h)
        (.plain (by decide) .nil))))
  | unit => exact .plain hpath

theorem quotes_construct {own : Text → Prop} {fields : FieldsView} {path value : Text}
    (hnamed : fields.Named) (hpath : 34 ∉ path) (hvalue : 34 ∉ value) :
    Quotes own [] (fields.construct path fun _ => value).render := by
  have hentries : QuoteAll own []
      (((fields.construct path fun _ => value).entries.map fun e =>
      if fields.style = .named then Text.concat [e.1, ": ", e.2] else e.2)) := by
    refine .of_plain fun t ht => ?_
    rw [FieldsView.construct, List.map_map] at ht
    obtain ⟨f, hf, rfl⟩ := List.mem_map.mp ht
    dsimp only [Function.comp]
    split
    · refine free_concat ?_
      simp only [List.forall_mem_cons]
      exact ⟨free_name hnamed hf, by decide, hvalue, List.forall_mem_nil _⟩
    · exact hvalue
  exact quotes_bracket hpath hentries

theorem quotes_fromStr {decl : Decl} {spec : TraitSpec} {impls : List Impl}
    {warnings : List Diagnostic} (hnamed : decl.data.Named) (hpath : 34 ∉ spec.path)
    (h : fromStr support decl spec = .ok (impls, warnings)) :
    ∃ s, Selection.ofDecl decl spec = .ok s ∧
      QuoteAll (Given support s) (parserLiterals s) (impls.flatMap Impl.phrases) := by
  obtain ⟨s, hs, hok⟩ := of_bind_ok h
  refine ⟨s, hs, ?_⟩
  have hnames := Selection.named_of_ofDecl hnamed hs
  rw [parserLiterals]
  cases hshape : s.shape with
  | struct fields =>
      rw [hshape] at hok hnames
      obtain ⟨own, hparse, hok⟩ := of_bind_ok hok
      cases hok
      obtain ⟨single, hsingle, hparse⟩ := of_bind_ok hparse
      obtain ⟨fields', hfields, hparse⟩ := of_bind_ok hparse
      cases hparse
      cases hshape.symm.trans (Selection.shape_of_structFields hfields)
      obtain ⟨fields'', hstruct, hone, htrait⟩ := Selection.of_singleField hsingle
      cases hshape.symm.trans hstruct
      have hmem : single.field ∈ fields.all :=
        List.mem_of_mem_filter (hone ▸ List.mem_singleton_self single.field)
      have hcasted : Quotes (Given support s) [] single.casted :=
        .concat (.plain (by decide) (.given (.type hshape hmem) (.plain (by decide)
          (.plain (htrait.trans
            (congrArg TraitSpec.path (Selection.of_ofDecl hs).2) ▸ hpath)
            (.plain (by decide) .nil)))))
      have hvalue : Quotes (Given support s) []
          (fields.construct "Self" fun _ => "v").render :=
        quotes_construct hnames (by decide) (by decide)
      exact .one (.concat (.cons hcasted (.plain (by decide) (.cons hvalue
        (.plain (by decide) .nil)))))
  | enum views =>
      obtain ⟨variants, hdata⟩ := exists_variants hs hshape
      obtain ⟨s', views', hs', hshape', -, header, rfl, -, -⟩ := of_fromStr hdata h
      cases hs.symm.trans hs'
      cases hshape.symm.trans hshape'
      rw [hshape] at hnames
      rw [List.flatMap_singleton, ← (Selection.of_ofDecl hs).1]
      refine quotes_parserOf ?_ fun a ha => ?_
      · unfold scrutineeOf
        split <;> decide
      · obtain ⟨w, hw, hvariant⟩ := List.mem_map.mp (variant_of_mem_literalArms ha)
        rw [← hvariant]
        exact free_ident (hnames w (List.mem_of_mem_filter hw)).1

/-! ## Functions for variants -/

theorem consts_anyPattern (v : VariantView) : v.anyPattern.consts = [] := by
  unfold VariantView.anyPattern Fields.anyPattern
  cases v.variant.fields.style <;> rfl

theorem consts_payloadOf (v : VariantView) : (payloadOf v).pattern.consts = [] := by
  unfold payloadOf
  split
  · dsimp only
    rw [Pat.consts, List.map_map]
    exact Pat.constsIn_map _ fun _ => rfl
  · rfl

theorem quotes_components {own : Text → Prop} (n : Nat) :
    Quotes own [] (tupleOf ((List.range n).map component)) := by
  refine .tupleOf (.of_plain (List.forall_mem_map.mpr fun i _ h => ?_))
  exact (List.mem_append.mp h).elim (by decide) (free_number i)

theorem quotes_payload {own : Text → Prop} (v : VariantView) :
    Quotes own [] (payloadOf v).value := by
  unfold payloadOf
  split
  · exact quotes_components _
  · exact .plain (t := "()") (by decide)

theorem quotes_accessorArms (kind : Accessor) (owner : Text) (all : List VariantView)
    (v : VariantView) (form : RefForm) :
    QuoteAll (Given support s) ((all.filter (·.name != v.name)).flatMap fun other =>
        messages kind owner ((Family.access kind).methodName v form) other.name)
      (Arm.phrasesIn (accessorFn support kind owner all v form).arms) := by
  have hvalue (wrap : Text) (hwrap : 34 ∉ wrap) :
      Quotes (Given support s) [] (Text.concat [wrap, "(", (payloadOf v).value, ")"]) :=
    .concat (.plain hwrap (.plain (by decide) (.cons (quotes_payload v)
      (.plain (by decide) .nil))))
  have hnone : (all.filter (·.name != v.name)).flatMap (fun _ => ([] : List Text)) = [] :=
    List.flatMap_eq_nil_iff.mpr fun _ _ => rfl
  rw [Arm.phrasesIn_eq_flatMap]
  cases kind with
  | asVariant =>
      rw [accessorFn, List.flatMap_cons, Arm.phrases, consts_payloadOf]
      dsimp only [messages]
      rw [hnone]
      refine .cons (hvalue _ (by decide)) ?_
      split
      · exact .of_plain (by decide)
      · exact .nil
  | tryInto =>
      rw [accessorFn, List.flatMap_cons, Arm.phrases, consts_payloadOf]
      dsimp only [messages]
      rw [hnone]
      refine .cons (hvalue _ (by decide)) ?_
      split
      · exact .of_plain (by decide)
      · exact .nil
  | unwrap =>
      rw [accessorFn, List.flatMap_cons, Arm.phrases, consts_payloadOf, List.flatMap_map]
      refine QuoteAll.cons (quotes_payload v) (.flatMap fun other _ => ?_)
      rw [Arm.phrases, consts_anyPattern]
      exact .one (.concat (.plain (by decide) (.literal _ (.plain (by decide) .nil))))
  | tryUnwrap =>
      rw [accessorFn, List.flatMap_cons, Arm.phrases, consts_payloadOf, List.flatMap_map]
      refine QuoteAll.cons (hvalue _ (by decide)) (.flatMap fun other _ => ?_)
      rw [Arm.phrases, Pat.consts, consts_anyPattern]
      exact .one (.concat (.plain (by decide) (.plain (by decide) (.cons
        (quotes_item _ (by decide)) (.plain (by decide) (.literal _ (.plain (by decide)
        (.literal _ (.plain (by decide) (.literal _ (.plain (by decide) .nil)))))))))))

theorem phrases_accessor (f : AccessorFn) (form : RefForm) :
    (f.code form).flatMap Code.function = ("self" : Text) :: Arm.phrasesIn f.arms := by
  have hlines (ts : List Text) (g : Text → Text) :
      (ts.map fun t => Code.line (g t)).flatMap Code.function = [] := by
    rw [List.flatMap_map]
    exact List.flatMap_eq_nil_iff.mpr fun _ _ => rfl
  have hattrs : (f.attrs.map Code.line).flatMap Code.function = [] := hlines f.attrs id
  rw [AccessorFn.code, List.flatMap_append, List.flatMap_append, hlines, hattrs,
    List.flatMap_singleton, Code.function, Code.phrasesIn_choose]
  rfl

theorem quotes_variantAccessors {kind : Accessor} {decl : Decl} {spec : TraitSpec}
    {impls : List Impl} (h : variantAccessors kind support decl spec = .ok impls) :
    ∃ s, Selection.ofDecl decl spec = .ok s ∧
      QuoteAll (Given support s) (accessorLiterals kind s)
      (impls.flatMap Impl.phrases) := by
  obtain ⟨⟨s, variants⟩, hselect, h⟩ := of_bind_ok h
  obtain ⟨hs, hshape⟩ := of_selectEnum_ok hselect
  refine ⟨s, hs, ?_⟩
  dsimp only at h
  split at h
  · cases h
  · cases h
    rw [accessorLiterals, hshape, List.flatMap_singleton, Impl.phrases, flatMap_spaced rfl,
      List.flatMap_assoc, (Selection.of_ofDecl hs).1]
    refine .flatMap fun v _ => ?_
    rw [List.flatMap_map]
    refine .flatMap fun form _ => ?_
    rw [phrases_accessor]
    exact .plain (by decide) (quotes_accessorArms kind _ variants v form)

/-! ## Payloads -/

theorem consts_payloadPattern (v : FieldsView) (path : Text) :
    (payloadPattern v path).consts = [] := by
  unfold payloadPattern
  dsimp only
  split
  · exact Pat.constsIn_map _ fun f => by split <;> rfl
  · refine Pat.constsOf_map _ fun f p hp => ?_
    cases hp
    rfl
  · rfl

/-- The failure of a conversion, with or without an error that was asked for. -/
theorem quotes_failure {ls : List Text} {type value : Text}
    (h : Quotes (Given support s) ls value) :
    Quotes (Given support s) ls (failure s.container.error type value).2 := by
  unfold failure
  split
  · exact h
  · next e herror =>
      have hconv : Quotes (Given support s) []
          (if e.conv.isEmpty then Core.fromTrait ++ "::from" else e.conv) := by
        split
        · exact .plain (by decide)
        · exact .given (.conversion herror)
      have hvalue := QuoteAll.cons h (.plain (t := ")") (by decide) .nil)
      rw [List.append_nil] at hvalue
      exact .concat (.cons hconv (.plain (by decide) hvalue))

theorem phrases_tryIntoImpl (group : PayloadGroup) :
    (tryIntoImpl support s group).phrases =
      [("value" : Text),
        Text.concat
          [Core.ok, "(", tupleOf ((List.range group.types.length).map component), ")"],
        Text.concat [Core.err, "(", (failure s.container.error
          (generic (support.item "TryIntoError") (group.form.typeMark ++ s.self.render))
          (Text.concat [support.item "TryIntoError", "::new(value, ",
            (Text.join ", " (group.members.map (·.name))).quoted, ", ",
            (tupleOf group.types).quoted, ")"])).2, ")"]] := by
  have hpatterns : (Pat.anyOf (group.members.map fun v => payloadPattern v.fields
      (Text.concat [s.decl.name, "::", v.name]))).consts = [] :=
    Pat.constsIn_map _ fun v => consts_payloadPattern v.fields _
  have harm (value : Text) : (Arm.yields
      (.anyOf (group.members.map fun v => payloadPattern v.fields
      (Text.concat [s.decl.name, "::", v.name]))) value).phrases = [value] := by
    rw [Arm.phrases, hpatterns, List.nil_append]
  refine (Impl.phrases_method ..).trans ?_
  rw [List.flatMap_cons, harm]
  rfl

theorem quotes_tryIntoImpl (group : PayloadGroup) :
    QuoteAll (Given support s)
      [Text.join ", " (group.members.map (·.name)), tupleOf group.types]
      (tryIntoImpl support s group).phrases := by
  have hvalue : Quotes (Given support s) [] (Text.concat
      [Core.ok, "(", tupleOf ((List.range group.types.length).map component), ")"]) :=
    .concat (.plain (by decide) (.plain (by decide) (.cons (quotes_components _)
      (.plain (by decide) .nil))))
  have hdefault : Quotes (Given support s)
      [Text.join ", " (group.members.map (·.name)), tupleOf group.types]
      (Text.concat [support.item "TryIntoError", "::new(value, ",
        (Text.join ", " (group.members.map (·.name))).quoted, ", ",
        (tupleOf group.types).quoted, ")"]) :=
    .concat (.cons (quotes_item _ (by decide)) (.plain (by decide) (.literal _
      (.plain (by decide) (.literal _ (.plain (by decide) .nil))))))
  rw [phrases_tryIntoImpl]
  exact .plain (by decide)
    (.cons hvalue (.one (.concat (.plain (by decide) (.plain (by decide)
    (.cons (quotes_failure hdefault) (.plain (by decide) .nil)))))))

theorem quotes_tryIntoPayload {decl : Decl} {spec : TraitSpec} {impls : List Impl}
    (h : tryIntoPayload support decl spec = .ok impls) :
    ∃ s, Selection.ofDecl decl spec = .ok s ∧
      QuoteAll (Given support s) (payloadLiterals s) (impls.flatMap Impl.phrases) := by
  obtain ⟨⟨s, variants⟩, hselect, h⟩ := of_bind_ok h
  obtain ⟨hs, hshape⟩ := of_selectEnum_ok hselect
  refine ⟨s, hs, ?_⟩
  cases h
  rw [payloadLiterals, hshape, List.flatMap_map]
  exact .flatMap fun group _ => quotes_tryIntoImpl group

end

/-! ## All derives -/

/-- What each derive that writes names in quotes writes in quotes. -/
def spellings : List (Text × (Selection → List Text)) :=
  [("Display", displayLiterals "\x7b\x7d"), ("Binary", displayLiterals "\x7b:b\x7d"),
    ("Octal", displayLiterals "\x7b:o\x7d"), ("LowerHex", displayLiterals "\x7b:x\x7d"),
    ("UpperHex", displayLiterals "\x7b:X\x7d"), ("LowerExp", displayLiterals "\x7b:e\x7d"),
    ("UpperExp", displayLiterals "\x7b:E\x7d"), ("Pointer", displayLiterals "\x7b:p\x7d"),
    ("Debug", debugLiterals), ("FromStr", parserLiterals), ("TryInto", payloadLiterals),
    ("AsVariant", accessorLiterals .asVariant), ("Unwrap", accessorLiterals .unwrap),
    ("TryIntoVariant", accessorLiterals .tryInto),
    ("TryUnwrap", accessorLiterals .tryUnwrap)]

/-- The functions that a derive emits hold the names in quotes in order, and no other
quotation marks but those in the parts that are given. What is written in quotes is
scanned without error as one string literal for it just when each of its characters is one
that a string literal has as it is or knows the escape of; and then it is read so whatever
follows. -/
theorem emitted_literals {name source : Text}
    {literals : Selection → List Text} {d : Derive}
    {support : Support} {decl : Decl} {e : Expansion}
    (hspell : (name, literals) ∈ spellings)
    (hd : find? name = some d) (hdecl : decl ∈ (parse source).file.decls)
    (h : d.run support decl = .ok e) :
    ∃ s, Selection.ofDecl decl d.spec = .ok s ∧
      QuoteAll (Given support s) (literals s) (e.impls.flatMap Impl.phrases) ∧
      ∀ t ∈ literals s,
        (scan t.quoted =
        ⟨[⟨.str, t.quoted, some (.str t), .start, 0⟩, endOf t.quoted], []⟩ ↔ t.Readable) ∧
        (t.Readable → ∀ rest, Scan.pieces (t.quoted ++ rest) =
          ⟨t.quoted, some (.str, some (.str t)), []⟩ :: Scan.pieces rest) := by
  suffices hquotes : ∃ s, Selection.ofDecl decl d.spec = .ok s ∧
      QuoteAll (Given support s) (literals s) (e.impls.flatMap Impl.phrases) by
    obtain ⟨s, hs, hquotes⟩ := hquotes
    exact ⟨s, hs, hquotes, fun t _ =>
      ⟨scan_quoted_iff t, fun hread rest => (pieces_quoted_iff t rest).mpr hread⟩⟩
  have hnamed := (named_of_parse hdecl).data
  simp only [spellings, List.mem_cons, List.not_mem_nil, or_false, Prod.mk.injEq] at hspell
  rcases hspell with ⟨rfl, rfl⟩ | ⟨rfl, rfl⟩ | ⟨rfl, rfl⟩ | ⟨rfl, rfl⟩ | ⟨rfl, rfl⟩
    | ⟨rfl, rfl⟩ |
    ⟨rfl, rfl⟩ | ⟨rfl, rfl⟩ | ⟨rfl, rfl⟩ | ⟨rfl, rfl⟩ | ⟨rfl, rfl⟩ | ⟨rfl,
      rfl⟩ | ⟨rfl, rfl⟩ |
    ⟨rfl, rfl⟩ | ⟨rfl, rfl⟩
  all_goals cases hd
  iterate 8
    exact quotes_display hnamed (by decide) (of_run_entry h)
  · exact quotes_debug hnamed (of_run_entry h)
  · obtain ⟨warnings, hexpand⟩ := of_run_ok h
    exact quotes_fromStr hnamed (by decide) hexpand
  · exact quotes_tryIntoPayload (of_run_entry h)
  all_goals exact quotes_variantAccessors (of_run_entry h)

/-- The name of a struct that ends with a soft hyphen, which has no glyph. -/
theorem emitted_literals_unread : ∃ d decl e s, find? "Display" = some d ∧
    (parse "struct S\u00ad;").file.decls = [decl] ∧ d.run {} decl = .ok e ∧
    QuoteAll (Given {} s) [decl.name] (e.impls.flatMap Impl.phrases) ∧
    scan decl.name.quoted ≠
      ⟨[⟨.str, decl.name.quoted, some (.str decl.name), .start, 0⟩,
      endOf decl.name.quoted], []⟩ := by
  obtain ⟨d, decl, e, s, hd, hdecls, he, hs, hliterals, hunread⟩ : ∃ d decl e s,
      find? "Display" = some d ∧ (parse "struct S\u00ad;").file.decls = [decl] ∧
      d.run {} decl = .ok e ∧ Selection.ofDecl decl d.spec = .ok s ∧
      displayLiterals "\x7b\x7d" s = [decl.name] ∧ ¬ decl.name.Readable :=
    ⟨_, _, _, _, rfl, rfl, rfl, rfl, rfl, by decide +kernel⟩
  obtain ⟨s', hs', hquotes, hread⟩ :=
    emitted_literals (.head _) hd (hdecls ▸ List.mem_singleton_self decl) he
  cases hs.symm.trans hs'
  rw [hliterals] at hquotes hread
  exact ⟨d, decl, e, s, hd, hdecls, he, hquotes,
    mt (hread decl.name (List.mem_singleton_self _)).1.mp hunread⟩

end Derive

end Deriver
