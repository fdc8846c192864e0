import Deriver.Derive.Catalogue
import Deriver.Proofs.Derive.Values
import Deriver.Proofs.Derive.Writing

/-!
# Formats in the code that is generated

Main statement: `formats_carried`. The formatting derives copy a format from its attribute
into the call that writes it, and then set the lines around the call in. So the string in
the call stands for the value of the format if its literal is on one line, or breaks lines
in escapes alone. Otherwise blanks were put into it, and it stands for another value:
`formats_carried_broken`.

A derive generates its calls in the order of variants and fields (`formatCalls`), and its
functions hold them in that order (`Keeps`).
-/

namespace Deriver.Derive

open Scan

variable {cs ds : List FormatCall} {x y t : Text} {n : Nat} {s : Selection}
  {g g' : ImplGenerics}
  {v : FieldsView}

/-! ## The calls of a derive -/

/-- The call that writes the format of an item, if it has one. -/
def ownCalls (call : FormatSpec → FormatCall) (own : Option FormatSpec) : List FormatCall :=
  own.toList.map call

/-- The calls in the arm of a variant. A format on the enum is written there, and in front
of it the output of the variant is made if the format has a place for it. -/
def armCalls (shared : Option SharedFormat) (v : VariantView) : List FormatCall :=
  match shared with
  | some f =>
      (if f.delegates then ownCalls .arguments v.options.format else []) ++
        [.write f.format]
  | none => ownCalls .write v.options.format

/-- The calls that `Display` and its like generate, in order. -/
def displayCalls (s : Selection) : List FormatCall :=
  match s.shape with
  | .struct _ => ownCalls .write s.container.format
  | .enum variants => variants.flatMap (armCalls (sharedFormat s).toOption.join)

/-- The calls with which `Debug` writes a struct or variant. -/
def outputCalls (own : Option FormatSpec) (fields : FieldsView) : List FormatCall :=
  match own, fields.style with
  | some f, _ => [.write f]
  | none, .unit => []
  | none, _ => fields.enabled.flatMap fun f => ownCalls .arguments f.options.format

/-- The calls that `Debug` generates, in order. -/
def debugCalls (s : Selection) : List FormatCall :=
  match s.shape with
  | .struct fields => outputCalls s.container.format fields
  | .enum variants => variants.flatMap fun v => outputCalls v.options.format v.fields

/-! ## Lines -/

/-- Whether a text ends with something other than a newline. -/
def Visible (t : Text) : Prop := ∃ u c, t = u ++ [c] ∧ c ≠ 10

theorem Visible.prepend (h : Visible t) (u : Text) : Visible (u ++ t) := by
  obtain ⟨w, c, rfl, hc⟩ := h
  exact ⟨u ++ w, c, by simp, hc⟩

theorem Visible.getLast? (h : Visible t) : t.getLast? ≠ some 10 := by
  obtain ⟨w, c, rfl, hc⟩ := h
  rw [List.getLast?_concat]
  exact fun h => hc (Option.some.inj h)

theorem visible_paren (t : Text) : Visible (t ++ ")") := ⟨t, 41, rfl, by decide⟩

theorem visible_brace (t : Text) : Visible (t ++ "\x7d") := ⟨t, 125, rfl, by decide⟩

theorem renderAll_append (depth : Nat) (as bs : List Code) :
    Code.renderAll depth (as ++ bs) = Code.renderAll depth as ++
    Code.renderAll depth bs := by
  induction as with
  | nil => rfl
  | cons a as ih =>
      rw [List.cons_append, Code.renderAll, ih, Code.renderAll, List.append_assoc]

theorem renderAll_singleton (depth : Nat) (c : Code) :
    Code.renderAll depth [c] = Code.render depth c := by simp [Code.renderAll]

/-- Whether a body, set in, holds the strings of calls, and ends with a line. -/
structure Prints (n : Nat) (cs : List FormatCall) (body : List Code) : Prop where
  keeps : Keeps n cs (Code.renderAll 0 body)
  ends : ∃ x, Code.renderAll 0 body = x ++ [10] ∧ Visible x

theorem Prints.line (hn : 0 < n) (h : Writes cs t) (hend : Visible t) :
    Prints n cs [.line t] := by
  have htext : Code.renderAll 0 [.line t] = Code.lineAt 0 t :=
    renderAll_singleton 0 (.line t)
  exact ⟨htext ▸ h.keeps hn 0, t, by rw [htext, Code.lineAt_eq]; rfl, hend⟩

theorem Prints.behind {body lines : List Code} (h : Prints n cs body)
    (hlines : Keeps n [] (Code.renderAll 0 lines)) : Prints n cs (lines ++ body) := by
  obtain ⟨hkeeps, x, hx, hvisible⟩ := h
  rw [← List.nil_append cs]
  refine ⟨renderAll_append .. ▸ hlines.append hkeeps, Code.renderAll 0 lines ++ x, ?_,
    hvisible.prepend _⟩
  rw [renderAll_append, hx, List.append_assoc]

theorem visible_call (c : FormatCall) : Visible c.text := by
  rw [c.text_eq]
  exact ((visible_paren _).prepend _).prepend _

theorem writeName_eq (name : Text) :
    writeName name = "__derive_f.write_str(" ++ ((plainName name).quoted ++ ")") := by
  simp [writeName, Text.concat]
  rfl

theorem closed_writeName (name : Text) : Closed (writeName name) := by
  have hopen : Sealed "__derive_f.write_str(" := .of_seals rfl
  have hend : Sealed ")" := .of_seals rfl
  rw [writeName_eq]
  exact (hopen.append ((sealed_quoted (plainName name)).append hend)).closed

theorem visible_writeName (name : Text) : Visible (writeName name) := by
  rw [writeName_eq]
  exact (visible_paren _).prepend _

/-! ## Display -/

theorem prints_displayStruct (h : s.Legible) (hv : v.Legible) {body : List Code}
    (hs : displayStruct s v = .ok (g, body)) (hn : 0 < n) :
    g.Legible ∧ Prints n (ownCalls .write s.container.format) body := by
  have hgenerics : s.generics.Legible := .ofGenerics h.generics
  have hend : Sealed (", " ++ FormatSpec.formatter ++ ")") := .of_seals rfl
  rw [displayStruct] at hs
  split at hs
  · next f hformat =>
      obtain ⟨uses, huses, hs⟩ := of_bind_ok hs
      cases hs
      rw [hformat]
      refine ⟨FieldsView.legible_boundUses hv hgenerics _
        (FormatSpec.trait_of_mem_uses huses), ?_⟩
      exact (Prints.line hn (FormatCall.writes (c := .write f) (h.format f hformat))
        (visible_call (.write f))).behind (FieldsView.keeps_bindings hv _ hn)
  · next hformat _ =>
      cases hs
      rw [hformat]
      exact ⟨hgenerics, .line hn (closed_writeName _).writes (visible_writeName _)⟩
  · next field hformat hall =>
      cases hs
      rw [hformat]
      have hfield : field.Legible := hv field (by rw [hall]; exact List.mem_cons_self ..)
      have htext : Text.concat [s.spec.path, "::fmt(&", field.member, ", ",
          FormatSpec.formatter, ")"] =
          s.spec.path ++ ("::" ++
            ("fmt(" ++ ("&" ++ field.member ++
              (", " ++ FormatSpec.formatter ++ ")")))) := by
        simp [Text.concat]
        rfl
      rw [htext]
      refine ⟨hgenerics.addFieldBound hfield.ty h.path _, .line hn (Closed.writes ?_) ?_⟩
      · have hopen : Sealed "fmt(" := .of_seals rfl
        exact h.path.colons (hopen.append_closed (hfield.borrowed.append hend.closed
          (stopped_cons (by decide)))) ⟨102, _, rfl, by decide⟩
      · exact ((((visible_paren _).prepend _).prepend _).prepend _).prepend _
  · cases hs

/-- The call for the output of a variant: a value in a shared format, else one that
writes. -/
def outputCall (inShared : Bool) : FormatSpec → FormatCall :=
  if inShared then .arguments else .write

theorem writes_variantOutput {placeholder : Text} {inShared : Bool}
    {v : VariantView} {text : Text} (h : s.Legible) (hv : v.Legible) (hg : g.Legible)
    (hs : variantOutput placeholder s inShared v g = .ok (g', text)) :
    g'.Legible ∧ Writes (ownCalls (outputCall inShared) v.options.format) text := by
  have hend : Sealed ")" := .of_seals rfl
  rw [variantOutput] at hs
  split at hs
  · next f hformat =>
      obtain ⟨uses, huses, hs⟩ := of_bind_ok hs
      cases hs
      rw [hformat]
      refine ⟨FieldsView.legible_boundUses hv.fields hg _
        (FormatSpec.trait_of_mem_uses huses), ?_⟩
      cases inShared with
      | true => exact FormatCall.writes (c := .arguments f) (hv.format f hformat)
      | false => exact FormatCall.writes (c := .write f) (hv.format f hformat)
  · next hformat _ =>
      cases hs
      rw [hformat]
      refine ⟨hg, Closed.writes ?_⟩
      split
      · exact (sealed_quoted _).closed
      · exact closed_writeName _
  · next field hformat hall =>
      cases hs
      rw [hformat]
      have hfield : field.Legible :=
        hv.fields field (by rw [hall]; exact List.mem_cons_self ..)
      refine ⟨hg.addFieldBound hfield.ty h.path _, Closed.writes ?_⟩
      split
      · have hopen : Sealed "&::core::format_args!(" := .of_seals rfl
        have hcomma : Sealed ", " := .of_seals rfl
        have := hopen.append_closed ((sealed_quoted placeholder).append_closed
          (hcomma.append_closed
            (hfield.formatName.append hend.closed (stopped_cons (by decide)))))
        simpa [Text.concat] using this
      · have hopen : Sealed "fmt(" := .of_seals rfl
        have hrest : Sealed (", " ++ FormatSpec.formatter ++ ")") := .of_seals rfl
        have := h.path.colons (hopen.append_closed (hfield.formatName.append hrest.closed
          (stopped_cons (by decide)))) ⟨102, _, rfl, by decide⟩
        have htext : Text.concat [s.spec.path, "::fmt(", field.formatName, ", ",
            FormatSpec.formatter, ")"] = s.spec.path ++ ("::" ++
              ("fmt(" ++ (field.formatName ++ (", " ++ FormatSpec.formatter ++ ")")))) := by
          simp [Text.concat]
          rfl
        exact htext ▸ this
  · cases hs

/-! ## Arms -/

theorem sealed_arrow : Sealed " => " := .of_seals rfl

theorem sealed_brace : Sealed " \x7b" :=
  (Sealed.stop (c := 32) (by decide)).append (.stop (c := 123) (by decide))

theorem keeps_yields {pat : Pat} (hpat : Closed pat.render) (h : Writes cs t) (hn : 0 < n)
    (depth : Nat) : Keeps n cs (Code.renderArm depth (.yields pat t)) := by
  have hcomma : Sealed "," := .of_seals rfl
  have hline : Writes cs (pat.render ++ (" => " ++ (t ++ ","))) :=
    hpat.writes.append (sealed_arrow.writes
      (h.ahead hcomma.closed (stopped_cons (by decide))))
      (stopped_space _)
  have := hline.keeps hn depth
  simpa [Code.renderArm, Text.concat] using this

theorem keeps_chooses {pat : Pat} (hpat : Closed pat.render) (h : Writes cs t)
    {arms : List Arm}
    (hn : 0 < n) (depth : Nat) (harms : Keeps n ds (Code.renderArms (depth + 1) arms)) :
    Keeps n (cs ++ ds) (Code.renderArm depth (.chooses pat t arms)) := by
  have hmatch : Sealed " => match " := .of_seals rfl
  have hopen := sealed_brace.closed
  have hend : Closed "\x7d," := (Sealed.of_seals (x := "\x7d,") rfl).closed
  have hline : Writes cs (pat.render ++ (" => match " ++ (t ++ " \x7b"))) :=
    hpat.writes.append (hmatch.writes (h.ahead hopen (stopped_space _))) (stopped_space _)
  have := ((hline.keeps hn depth).append harms).append (hend.writes.keeps hn depth)
  simpa [Code.renderArm, Text.concat] using this

/-- Whether a shared format can be read. -/
structure SharedFormat.Legible (f : SharedFormat) : Prop where
  format : f.format.Legible
  uses : ∀ u ∈ f.uses, ∃ p : Placeholder, u.trait = p.trait

theorem keeps_displayArm {placeholder : Text} {shared : Option SharedFormat}
    {v : VariantView} {arm : Arm} (h : s.Legible) (hv : v.Legible) (hg : g.Legible)
    (hshared : ∀ f, shared = some f → SharedFormat.Legible f)
    (hs : displayArm placeholder s shared g v = .ok (g', arm)) (hn : 0 < n) (depth : Nat) :
    g'.Legible ∧ Keeps n (armCalls shared v) (Code.renderArm depth arm) := by
  have hpat (used : List Text) : Closed (v.fields.formatPattern v.path used).render :=
    FieldsView.closed_formatPattern hv.fields _ hv.path used
  unfold displayArm at hs
  dsimp only at hs
  split at hs
  · cases hs
  cases shared with
  | none =>
      obtain ⟨⟨g₁, text⟩, htext, hs⟩ := of_bind_ok hs
      cases hs
      obtain ⟨hg', hwrites⟩ := writes_variantOutput h hv hg htext
      exact ⟨hg', keeps_yields (hpat _) hwrites hn depth⟩
  | some f =>
      obtain ⟨hf, huses⟩ := hshared f rfl
      have hg₁ := FieldsView.legible_boundUses hv.fields hg s.self huses
      have hwrite : Writes [.write f.format] f.format.write :=
          FormatCall.writes (c := .write f.format) hf
      rw [armCalls]
      cases hdelegates : f.delegates with
      | false =>
          simp only [Option.map_some, Option.getD_some, hdelegates] at hs
          cases hs
          exact ⟨hg₁, keeps_yields (hpat _) hwrite hn depth⟩
      | true =>
          simp only [Option.map_some, Option.getD_some, hdelegates] at hs
          obtain ⟨⟨g₂, text⟩, htext, hs⟩ := of_bind_ok hs
          cases hs
          obtain ⟨hg', hwrites⟩ := writes_variantOutput h hv hg₁ htext
          have hname : Closed (Pat.bind variantName).render := .of_isSolid rfl
          have hinner := keeps_yields hname hwrite hn (depth + 1)
          exact ⟨hg', keeps_chooses (hpat _) hwrites hn depth
            (by simpa [Code.renderArms] using hinner)⟩

/-- The arms of a match, one after the other. -/
theorem keeps_displayArms {placeholder : Text} {shared : Option SharedFormat}
    {variants : List VariantView} {arms : List Arm} (h : s.Legible)
    (hv : ∀ v ∈ variants, v.Legible) (hg : g.Legible)
    (hshared : ∀ f, shared = some f → SharedFormat.Legible f)
    (hs : displayArms placeholder s shared g variants = .ok (g', arms)) (hn : 0 < n)
    (depth : Nat) :
    g'.Legible ∧ Keeps n (variants.flatMap (armCalls shared))
    (Code.renderArms depth arms) := by
  induction variants generalizing g arms with
  | nil =>
      cases hs
      exact ⟨hg, .nil⟩
  | cons v vs ih =>
      obtain ⟨hhead, htail⟩ := List.forall_mem_cons.mp hv
      obtain ⟨⟨g₁, arm⟩, harm, hs⟩ := of_bind_ok hs
      obtain ⟨⟨g₂, rest⟩, hrest, hs⟩ := of_bind_ok hs
      cases hs
      obtain ⟨hg₁, hkeeps⟩ := keeps_displayArm h hhead hg hshared harm hn depth
      obtain ⟨hg₂, hkeeps'⟩ := ih htail hg₁ hrest
      exact ⟨hg₂, hkeeps.append hkeeps'⟩

theorem legible_sharedFormat (h : s.Legible) {shared : Option SharedFormat}
    (hs : sharedFormat s = .ok shared) : ∀ f, shared = some f → SharedFormat.Legible f := by
  rintro f rfl
  unfold sharedFormat at hs
  split at hs
  · cases hs
  · next spec hspec =>
      obtain ⟨uses, huses, hs⟩ := of_bind_ok hs
      split at hs
      · cases hs
      · cases hs
        exact ⟨h.format spec hspec, FormatSpec.trait_of_mem_uses huses⟩

theorem Prints.choose {scrutinee : Text} (hscrutinee : Closed scrutinee) {arms : List Arm}
    (h : Keeps n cs (Code.renderArms 1 arms)) (hn : 0 < n) :
    Prints n cs [.choose scrutinee arms] := by
  have hmatch : Sealed "match " := .of_seals rfl
  have hopen := sealed_brace.closed
  have hend : Closed "\x7d" := (Sealed.of_seals (x := "\x7d") rfl).closed
  have hline : Closed ("match " ++ (scrutinee ++ " \x7b")) :=
    hmatch.append_closed (hscrutinee.append hopen (stopped_space _))
  have := ((hline.writes.keeps hn 0).append h).append (hend.writes.keeps hn 0)
  have htext : Code.renderAll 0 [.choose scrutinee arms] =
      Code.lineAt 0 ("match " ++ (scrutinee ++ " \x7b")) ++ Code.renderArms 1 arms ++
        Code.lineAt 0 "\x7d" := by
    simp [renderAll_singleton, Code.render, Text.concat]
  refine ⟨by rw [htext]; simpa using this, ?_⟩
  have hlast : Code.lineAt 0 "\x7d" = Text.ofString "\x7d" ++ [10] := Code.lineAt_eq ..
  exact ⟨_, by rw [htext, hlast, ← List.append_assoc], visible_brace _⟩

theorem Prints.chooseNone (hn : 0 < n) : Prints n [] [.chooseNone "*self"] := by
  have hmatch : Closed "match *self" := .of_isSolid rfl
  have hend : Sealed "\x7d" := .of_seals rfl
  have hline : Closed ("match *self" ++ (" \x7b" ++ "\x7d")) :=
    hmatch.append (sealed_brace.append hend).closed (stopped_space _)
  have htext : Code.renderAll 0 [.chooseNone "*self"] =
      Code.renderAll 0 [.line ("match *self" ++ (" \x7b" ++ "\x7d"))] := by
    rw [renderAll_singleton, renderAll_singleton]
    rfl
  obtain ⟨hkeeps, hends⟩ := Prints.line hn hline.writes ((visible_brace _).prepend _)
  exact ⟨htext ▸ hkeeps, htext ▸ hends⟩

theorem display_eq {placeholder : Text} {decl : Decl} {spec : TraitSpec} {impls : List Impl}
    (hlegible : ∀ s, Selection.ofDecl decl spec = .ok s → s.Legible)
    (hs : display placeholder decl spec = .ok impls) (hn : 0 < n) :
    ∃ s g body, Selection.ofDecl decl spec = .ok s ∧
    impls = [formatImpl g s body] ∧ g.Legible ∧ Prints n (displayCalls s) body := by
  unfold display at hs
  obtain ⟨s, hsel, hs⟩ := of_bind_ok hs
  have h := hlegible s hsel
  have hgenerics : s.generics.Legible := .ofGenerics h.generics
  refine ⟨s, ?_⟩
  rw [displayCalls]
  dsimp only at hs
  split at hs
  · next fields hshape =>
      obtain ⟨⟨g, body⟩, hbody, hs⟩ := of_bind_ok hs
      cases hs
      rw [hshape]
      exact ⟨g, body, hsel, rfl, prints_displayStruct h (h.struct fields hshape) hbody hn⟩
  · next hshape =>
      cases hs
      rw [hshape]
      exact ⟨_, _, hsel, rfl, hgenerics, .chooseNone hn⟩
  · next variants _ hshape =>
      obtain ⟨shared, hshared, hs⟩ := of_bind_ok hs
      obtain ⟨⟨g, arms⟩, harms, hs⟩ := of_bind_ok hs
      cases hs
      obtain ⟨hg, hkeeps⟩ := keeps_displayArms h (h.enum variants hshape) hgenerics
        (legible_sharedFormat h hshared) harms hn 1
      rw [hshape, hshared]
      exact ⟨g, _, hsel, rfl, hg, .choose (.of_isSolid rfl) hkeeps hn⟩

/-! ## Debug -/

theorem writes_debugField {f : FieldView} {text : Text} (h : s.Legible) (hv : v.Legible)
    (hf : f.Legible) (hg : g.Legible) (hs : debugField s v g f = .ok (g', text)) :
    g'.Legible ∧ Writes (ownCalls .arguments f.options.format) text := by
  unfold debugField at hs
  split at hs
  · next format hformat =>
      obtain ⟨uses, huses, hs⟩ := of_bind_ok hs
      cases hs
      rw [hformat]
      exact ⟨FieldsView.legible_boundUses hv hg _ (FormatSpec.trait_of_mem_uses huses),
        FormatCall.writes (c := .arguments format) (hf.format format hformat)⟩
  · next hformat =>
      cases hs
      rw [hformat]
      exact ⟨hg.addFieldBound hf.ty h.path _, hf.formatName.writes⟩

/-- A call in a chain, on a line of its own. -/
def chained (call : Text) : Text := Text.concat ["\n", Code.indentUnit, call]

theorem stopped_chained (call : Text) : Stopped (chained call) := stopped_cons (by decide)

theorem sealed_indent : Sealed ("\n" ++ Code.indentUnit) :=
  (Sealed.stop (c := 10) (by decide)).append (.spaces 4)

theorem writes_debugFields {fs : List FieldView} {calls : List Text} (h : s.Legible)
    (hv : v.Legible) (hfs : ∀ f ∈ fs, f.Legible) (hg : g.Legible)
    (hs : debugFields s v g fs = .ok (g', calls)) :
    g'.Legible ∧ Writes (fs.flatMap fun f => ownCalls .arguments f.options.format)
      (calls.flatMap chained) := by
  induction fs generalizing g calls with
  | nil =>
      cases hs
      exact ⟨hg, Closed.nil.writes⟩
  | cons f fs ih =>
      obtain ⟨hf, hfs⟩ := List.forall_mem_cons.mp hfs
      unfold debugFields at hs
      obtain ⟨⟨g₁, value⟩, hvalue, hs⟩ := of_bind_ok hs
      obtain ⟨⟨g₂, rest⟩, hrest, hs⟩ := of_bind_ok hs
      cases hs
      obtain ⟨hg₁, hwrites⟩ := writes_debugField h hv hf hg hvalue
      obtain ⟨hg₂, hwrites'⟩ := ih hfs hg₁ hrest
      refine ⟨hg₂, ?_⟩
      have hopen : Sealed ".field(" := .of_seals rfl
      have hend : Closed ")" := (Sealed.of_seals (x := ")") rfl).closed
      have hvalue : Writes (ownCalls .arguments f.options.format) (value ++ ")") :=
        hwrites.ahead hend (stopped_cons (by decide))
      have hstop : Stopped (rest.flatMap chained) := by
        cases rest with
        | nil => exact stopped_nil
        | cons call rest => exact stopped_cons (by decide)
      -- a field with a name is written behind it
      have hcall {call : Text} (h : Writes (ownCalls .arguments f.options.format) call) :
          Writes ((f :: fs).flatMap fun f => ownCalls .arguments f.options.format)
            ((call :: rest).flatMap chained) := by
        have := (sealed_indent.writes h).append hwrites' hstop
        simpa [chained, Text.concat] using this
      apply hcall
      split
      · have hcomma : Sealed ", " := .of_seals rfl
        have := hopen.writes ((sealed_quoted (plainName (f.field.ident.getD []))).writes
          (hcomma.writes hvalue))
        simpa [Text.concat] using this
      · have := hopen.writes hvalue
        simpa [Text.concat] using this

/-- A chain: the builder is opened with the name, the calls follow it, and `last` ends
it. -/
theorem writes_chain {own : List FormatCall} {calls : List Text} {builder name last : Text}
    (hbuilder : Sealed (FormatSpec.formatter ++ builder)) (hlast : Closed (last ++ "()"))
    (hcalls : Writes own (calls.flatMap chained)) :
    Writes own (Text.concat
    (Text.concat [FormatSpec.formatter, builder, name.quoted, ")"] ::
      (calls ++ [last ++ "()"]).map chained)) ∧
    Visible (Text.concat (Text.concat [FormatSpec.formatter, builder, name.quoted, ")"] ::
      (calls ++ [last ++ "()"]).map chained)) := by
  have htext : Text.concat (Text.concat [FormatSpec.formatter, builder, name.quoted, ")"] ::
        (calls ++ [last ++ "()"]).map chained) =
      FormatSpec.formatter ++ builder ++ (name.quoted ++ (")" ++
        (calls.flatMap chained ++ chained (last ++ "()")))) := by
    simp [Text.concat, List.flatMap_def]
  have hend : Sealed ")" := .of_seals rfl
  have hchain : Writes own (calls.flatMap chained ++ chained (last ++ "()")) := by
    refine hcalls.ahead ?_ (stopped_chained _)
    have := sealed_indent.append_closed hlast
    simpa [chained, Text.concat] using this
  have hvisible : Visible (chained (last ++ "()")) := by
    have hunit : Visible "()" := ⟨[40], 41, rfl, by decide⟩
    have := (hunit.prepend last).prepend ("\n" ++ Code.indentUnit)
    simpa [chained, Text.concat] using this
  rw [htext]
  exact ⟨hbuilder.writes ((sealed_quoted _).writes (hend.writes hchain)),
    (((hvisible.prepend _).prepend _).prepend _).prepend _⟩

theorem writes_debugOutput {name text : Text} {own : Option FormatSpec} (h : s.Legible)
    (hv : v.Legible) (hown : ∀ f, own = some f → f.Legible) (hg : g.Legible)
    (hs : debugOutput s name own v g = .ok (g', text)) :
    g'.Legible ∧ Writes (outputCalls own v) text ∧ Visible text := by
  unfold debugOutput at hs
  split at hs
  · next f =>
      obtain ⟨uses, huses, hs⟩ := of_bind_ok hs
      cases hs
      exact ⟨FieldsView.legible_boundUses hv hg _ (FormatSpec.trait_of_mem_uses huses),
        FormatCall.writes (c := .write f) (hown f rfl), visible_call (.write f)⟩
  · next hstyle =>
      cases hs
      have hcalls : outputCalls none v = [] := by
        unfold outputCalls
        rw [hstyle]
      rw [hcalls]
      exact ⟨hg, (closed_writeName name).writes, visible_writeName name⟩
  · next hstyle =>
      obtain ⟨⟨g₁, calls⟩, hcalls, hs⟩ := of_bind_ok hs
      obtain ⟨hg₁, hwrites⟩ := writes_debugFields h hv
        (fun f hf => hv f (List.mem_of_mem_filter hf)) hg hcalls
      have hown : outputCalls none v =
          v.enabled.flatMap fun f => ownCalls .arguments f.options.format := by
        unfold outputCalls
        split
        · next heq => cases heq
        · next heq => exact absurd heq hstyle
        · rfl
      have hfinish : ∃ name : Text, Closed (name ++ "()") ∧
          (if v.skipped.isEmpty then ".finish()" else ".finish_non_exhaustive()" : Text) =
            name ++ "()" := by
        split
        · exact ⟨".finish", .of_isSolid rfl, rfl⟩
        · exact ⟨".finish_non_exhaustive", .of_isSolid rfl, rfl⟩
      obtain ⟨last, hlast, hfinish⟩ := hfinish
      have hbuilder : Sealed (FormatSpec.formatter ++
          Text.ofString (if v.style = .named then ".debug_struct(" else
            ".debug_tuple(")) := by
        split <;> exact .of_seals rfl
      rw [hown]
      dsimp only at hs
      rw [hfinish] at hs
      cases hs
      exact ⟨hg₁, writes_chain hbuilder hlast hwrites⟩

theorem Visible.inset (h : Visible t) (n : Nat) (now : Bool) :
    Visible (Text.inset n now t) := by
  obtain ⟨u, c, rfl, hc⟩ := h
  rw [Text.inset_append, Text.inset_cons, ← List.append_assoc]
  exact ⟨_, c, rfl, hc⟩

theorem renderAll_reflow (h : Visible t) (depth : Nat) :
    Code.renderAll depth [.reflow [.line t]] = Text.inset (4 * depth) true (t ++ [10]) := by
  rw [renderAll_singleton, Code.render, renderAll_singleton, Code.render, Code.lineAt_eq]
  exact Code.linesAt_eq depth h.getLast?

theorem keeps_reflow (h : Writes cs t) (hvisible : Visible t) (hn : 0 < n) (depth : Nat) :
    Keeps n cs (Code.renderAll depth [.reflow [.line t]]) := by
  rw [renderAll_reflow hvisible]
  exact ((h [10] (stopped_cons (by decide))).keeps (Nat.add_pos_left hn _)).inset

theorem keeps_debugArm {v : VariantView} {arm : Arm} (h : s.Legible)
    (hv : v.Legible) (hg : g.Legible) (hs : debugArm s g v = .ok (g', arm)) (hn : 0 < n) :
    g'.Legible ∧ Keeps n (outputCalls v.options.format v.fields)
    (Code.renderArm 1 arm) := by
  unfold debugArm at hs
  obtain ⟨-, -, hs⟩ := of_bind_ok hs
  obtain ⟨⟨g₁, out⟩, hout, hs⟩ := of_bind_ok hs
  cases hs
  obtain ⟨hg₁, hwrites, hvisible⟩ := writes_debugOutput h hv.fields hv.format hg hout
  have hpat (used : List Text) : Closed (v.fields.formatPattern v.path used).render :=
    FieldsView.closed_formatPattern hv.fields _ hv.path used
  refine ⟨hg₁, ?_⟩
  split
  · -- output over several lines is set in by itself
    have hbrace : Sealed "\x7b" := .of_seals rfl
    have hopen := sealed_arrow.append hbrace
    have htext : Text.ofString " => \x7b" = " => " ++ Text.ofString "\x7b" := rfl
    have hend : Closed "\x7d," := (Sealed.of_seals (x := "\x7d,") rfl).closed
    have hline :=
      (hpat (debugNames v.options.format v.fields)).append hopen.closed (stopped_space _)
    have := ((hline.writes.keeps hn 1).append (keeps_reflow hwrites hvisible hn 2)).append
      (hend.writes.keeps hn 1)
    simpa [Code.renderArm, Text.concat, htext] using this
  · exact keeps_yields (hpat _) hwrites hn 1

theorem keeps_debugArms {variants : List VariantView} {arms : List Arm} (h : s.Legible)
    (hv : ∀ v ∈ variants, v.Legible) (hg : g.Legible)
    (hs : debugArms s g variants = .ok (g', arms)) (hn : 0 < n) :
    g'.Legible ∧ Keeps n (variants.flatMap fun v => outputCalls v.options.format v.fields)
      (Code.renderArms 1 arms) := by
  induction variants generalizing g arms with
  | nil =>
      cases hs
      exact ⟨hg, .nil⟩
  | cons v vs ih =>
      obtain ⟨hhead, htail⟩ := List.forall_mem_cons.mp hv
      obtain ⟨⟨g₁, arm⟩, harm, hs⟩ := of_bind_ok hs
      obtain ⟨⟨g₂, rest⟩, hrest, hs⟩ := of_bind_ok hs
      cases hs
      obtain ⟨hg₁, hkeeps⟩ := keeps_debugArm h hhead hg harm hn
      obtain ⟨hg₂, hkeeps'⟩ := ih htail hg₁ hrest
      exact ⟨hg₂, hkeeps.append hkeeps'⟩

/-- The body of an implementation of `Debug`. -/
theorem debug_eq {decl : Decl} {spec : TraitSpec} {impls : List Impl}
    (hlegible : ∀ s, Selection.ofDecl decl spec = .ok s → s.Legible)
    (hs : debug decl spec = .ok impls) (hn : 0 < n) :
    ∃ s g body, Selection.ofDecl decl spec = .ok s ∧
    impls = [formatImpl g s body] ∧ g.Legible ∧ Prints n (debugCalls s) body := by
  unfold debug at hs
  obtain ⟨s, hsel, hs⟩ := of_bind_ok hs
  have h := hlegible s hsel
  have hgenerics : s.generics.Legible := .ofGenerics h.generics
  refine ⟨s, ?_⟩
  rw [debugCalls]
  split at hs
  · next fields hshape =>
      obtain ⟨-, -, hs⟩ := of_bind_ok hs
      obtain ⟨⟨g, out⟩, hout, hs⟩ := of_bind_ok hs
      cases hs
      have hfields := h.struct fields hshape
      obtain ⟨hg, hwrites, hvisible⟩ := writes_debugOutput h hfields h.format hgenerics hout
      rw [hshape]
      refine ⟨g, _, hsel, rfl, hg, .behind ⟨keeps_reflow hwrites hvisible hn 0, ?_⟩
        (FieldsView.keeps_bindings hfields _ hn)⟩
      have hnewline (now : Bool) : Text.inset (4 * 0) now [10] = [10] := by
        cases now <;> rfl
      rw [renderAll_reflow hvisible, Text.inset_append, hnewline]
      exact ⟨_, rfl, hvisible.inset ..⟩
  · next hshape =>
      cases hs
      rw [hshape]
      exact ⟨_, _, hsel, rfl, hgenerics, .chooseNone hn⟩
  · next variants _ hshape =>
      obtain ⟨⟨g, arms⟩, harms, hs⟩ := of_bind_ok hs
      cases hs
      obtain ⟨hg, hkeeps⟩ := keeps_debugArms h (h.enum variants hshape) hgenerics harms hn
      rw [hshape]
      exact ⟨g, _, hsel, rfl, hg, .choose (.of_isSolid rfl) hkeeps hn⟩

/-! ## The implementation -/

theorem sealed_lineAt (h : Closed t) (depth : Nat) : Sealed (Code.lineAt depth t) := by
  rw [Code.lineAt_eq]
  exact fun s => (Apart.spaces _ _).append
    (h.ended (m := [10]) (divides_of_seals rfl rfl) s)

theorem carries_formatImpl (h : s.Legible) (hg : g.Legible) {body : List Code}
    (hbody : Prints 8 cs body) :
    Carries Renders (strings cs)
      ((scan (Impl.renderAll [formatImpl g s body])).tokens.map Token.content) := by
  obtain ⟨hkeeps, x, hx, hvisible⟩ := hbody
  have hmark : Sealed (Code.lineAt 0 "#[automatically_derived]") :=
    sealed_lineAt (.of_isSolid rfl) 0
  have hheader : Sealed (Code.lineAt 0 (g.header s.spec.path s.decl.name ++ " \x7b")) :=
    sealed_lineAt ((hg.closed_header h.path h.name).append sealed_brace.closed
      (stopped_space _)) 0
  have hmethod : Sealed (Code.lineAt 1 (Text.concat ["fn fmt(&self, ", FormatSpec.formatter,
      ": &mut ::core::fmt::Formatter<'_>) -> ::core::fmt::Result"] ++ " \x7b")) :=
    sealed_lineAt (Closed.append (.of_isSolid rfl) sealed_brace.closed (stopped_space _)) 1
  have hlines : Code.linesAt 2 (Code.renderAll 0 body) =
      Text.inset 8 true (Code.renderAll 0 body) := by
    rw [hx]
    exact Code.linesAt_eq 2 hvisible.getLast?
  obtain ⟨as, has, -⟩ := ((hmark.append hheader).append hmethod)
    (Text.inset 8 true (Code.renderAll 0 body) ++
      (Code.lineAt 1 "\x7d" ++ Code.lineAt 0 "\x7d"))
  obtain ⟨qs, hqs, hcarries⟩ := hkeeps.2 (Code.lineAt 1 "\x7d" ++ Code.lineAt 0 "\x7d")
  have hcode : pieces (Impl.renderAll [formatImpl g s body]) =
      as ++ (qs ++ pieces (Code.lineAt 1 "\x7d" ++ Code.lineAt 0 "\x7d")) := by
    rw [← hqs, ← has]
    simp [Impl.renderAll, Text.join, Impl.render, formatImpl, Code.render, Code.renderAll,
      Text.concat, hlines]
  rw [scan_tokens_own, List.map_append, ← contents_pieces, hcode, contents_append,
    contents_append]
  rw [List.append_assoc, List.append_assoc]
  exact (hcarries.before _).behind _

/-! ## All formatting traits -/

/-- The calls with formats that a formatting derive generates, in order. -/
def formatCalls (s : Selection) : List FormatCall :=
  if s.spec.name = "Debug" then debugCalls s else displayCalls s

/-- Whether the strings of the formats are where they should be in what a derive emits. -/
def Copies (d : Derive) : Prop :=
  ∀ {decl : Decl} {support : Support} {e : Expansion}, decl.Named → decl.Spelled →
    d.run support decl = .ok e → ∃ s, Selection.ofDecl decl d.spec = .ok s ∧
      Carries Renders (strings (formatCalls s)) ((scan e.code).tokens.map Token.content)

theorem copies_formatting {name placeholder : Text} (hname : name ≠ "Debug")
    (hpath : Closed (Core.fmt name)) : (formatting name placeholder).Copies := by
  intro decl support e hnamed hspelled h
  obtain ⟨s, g, body, hs, himpls, hg, hbody⟩ := display_eq
    (fun s => Selection.legible_of_ofDecl hnamed hspelled hpath) (of_run_entry h)
      (by decide : 0 < 8)
  refine ⟨s, hs, ?_⟩
  have hspec : s.spec.name ≠ "Debug" := (Selection.of_ofDecl hs).2 ▸ hname
  rw [Expansion.code, himpls, formatCalls, if_neg hspec]
  exact carries_formatImpl (Selection.legible_of_ofDecl hnamed hspelled hpath hs) hg hbody

theorem copies_debug {family method : Text} {params : Params} :
    (entry family "Debug" Core.debug method params fun _ => debug).Copies := by
  intro decl support e hnamed hspelled h
  have hpath : Closed Core.debug := .of_isSolid rfl
  obtain ⟨s, g, body, hs, himpls, hg, hbody⟩ := debug_eq
    (fun s => Selection.legible_of_ofDecl hnamed hspelled hpath) (of_run_entry h)
    (by decide : 0 < 8)
  refine ⟨s, hs, ?_⟩
  have hspec : s.spec.name = "Debug" := (Selection.of_ofDecl hs).2 ▸ rfl
  rw [Expansion.code, himpls, formatCalls, if_pos hspec]
  exact carries_formatImpl (Selection.legible_of_ofDecl hnamed hspelled hpath hs) hg hbody

theorem copies_formats : ∀ d ∈ formats, d.Copies := by
  simp only [formats, List.forall_mem_cons]
  have hsolid {name : Text} (h : isSolid (Core.fmt name) = true) : Closed (Core.fmt name) :=
    .of_isSolid h
  exact ⟨copies_formatting (by decide) (hsolid rfl),
    copies_formatting (by decide) (hsolid rfl),
    copies_formatting (by decide) (hsolid rfl), copies_formatting (by decide) (hsolid rfl),
    copies_formatting (by decide) (hsolid rfl), copies_formatting (by decide) (hsolid rfl),
    copies_formatting (by decide) (hsolid rfl), copies_formatting (by decide) (hsolid rfl),
    copies_debug, List.forall_mem_nil _⟩

/-- In code that is generated for a declaration of a clean, trimmed source, the calls that
write formats stand in order, and the string in each stands for the value of its format
exactly if its literal does not break a line. -/
theorem formats_carried {source : Text} (hs : (scan source).errors = [])
    (htrimmed : Parse.Trimmed source) {decl : Decl}
    (hdecl : decl ∈ (parse source).file.decls)
    {d : Derive} (hd : d ∈ formats) {support : Support} {e : Expansion}
    (hrun : d.run support decl = .ok e) : ∃ s, Selection.ofDecl decl d.spec = .ok s ∧
      Carries Renders (strings (formatCalls s)) ((scan e.code).tokens.map Token.content) :=
  copies_formats d hd (named_of_parse hdecl) (spelled_of_decls hs htrimmed hdecl) hrun

/-- A literal over two lines does not keep its value. -/
theorem formats_carried_broken : ∃ d decl e s f, d ∈ formats ∧
    (parse "#[display(\"a\nb\")] struct S;").file.decls = [decl] ∧ d.run {} decl = .ok e ∧
    Selection.ofDecl decl d.spec = .ok s ∧ formatCalls s = [.write f] ∧ f.value = "a\nb" ∧
    Carries (fun _ _ v => v ≠ "a\nb") [.write f]
    ((scan e.code).tokens.map Token.content) := by
  obtain ⟨d, decl, e, s, f, hd, hdecls, he, hs, hcalls, hvalue, hstring, hbreaks⟩ :
      ∃ d decl e s f, d ∈ formats ∧
      (parse "#[display(\"a\nb\")] struct S;").file.decls = [decl] ∧ d.run {} decl = .ok e ∧
      Selection.ofDecl decl d.spec = .ok s ∧ formatCalls s = [.write f] ∧ f.value = "a\nb" ∧
      f.isString = true ∧ breaksLine f.literal = true :=
    ⟨_, _, _, _, _, List.mem_cons_self, rfl, rfl, rfl, rfl, rfl, rfl, rfl⟩
  refine ⟨d, decl, e, s, f, hd, hdecls, he, hs, hcalls, hvalue, ?_⟩
  have hascii : ∀ b ∈ ("#[display(\"a\nb\")] struct S;" : Text), decide (b < 0x80) = true :=
    List.all_eq_true.mp (by decide)
  obtain ⟨s', hs', hcarries⟩ := formats_carried rfl
    (Parse.trimmed_of_ascii fun b hb => of_decide_eq_true (hascii b hb))
    (hdecls ▸ List.mem_singleton_self decl) hd he
  cases hs.symm.trans hs'
  have hone : strings [.write f] = [.write f] := by
    simp [strings, FormatCall.format, hstring]
  rw [hcalls, hone] at hcarries
  obtain ⟨as, fs, ks, w, v, us, hts, hfs, hks, hw, -⟩ := hcarries
  refine ⟨as, fs, ks, w, v, us, hts, hfs, hks, fun hv => ?_, trivial⟩
  have hkept := hw.mp (hv.trans hvalue.symm)
  exact absurd (hbreaks.symm.trans hkept) (by decide)

end Deriver.Derive
