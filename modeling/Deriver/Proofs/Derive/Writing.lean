import Deriver.Derive.Display
import Deriver.Proofs.Bounds.Legible
import Deriver.Proofs.Format.Calls
import Deriver.Proofs.Parse.Names
import Deriver.Proofs.Select.Resolution

/-!
# What the formatting derives write

Main statement: `Selection.legible_of_ofDecl`. Besides the calls that write formats, the
formatting derives write names, numbers, types and what is in quotes. Of a declaration
that is spelled by tokens each of these is cut off from what stands behind it, so a scan
of the code comes to the front of every call (`Writes`).
-/

namespace Deriver

open Scan

variable {cs ds : List FormatCall} {x y s t : Text} {n : Nat} {f : FieldView}
  {v : FieldsView}
  {g : ImplGenerics}

/-! ## Texts with calls -/

/-- Whether a text holds the strings of calls when something stands behind it that ends
it. -/
def Writes (cs : List FormatCall) (x : Text) : Prop := ∀ s, Stopped s → Bears cs x s

theorem Closed.writes (h : Closed x) : Writes [] x := fun _ hs => .of_apart (h.apart hs)

theorem FormatCall.writes {c : FormatCall} (h : c.format.Legible) : Writes [c] c.text :=
  fun s _ => c.bears h s

theorem Sealed.writes (hx : Sealed x) (hy : Writes cs y) : Writes cs (x ++ y) :=
  fun s hs => .behind (hx _) (hy s hs)

theorem Writes.append (hx : Writes cs x) (hy : Writes ds y) (hstop : Stopped y) :
    Writes (cs ++ ds) (x ++ y) := fun s hs => (hx _ (hstop.append hs)).append (hy s hs)

theorem Writes.ahead (hx : Writes cs x) (hy : Closed y) (hstop : Stopped y) :
    Writes cs (x ++ y) := by
  simpa using hx.append hy.writes hstop

theorem Writes.keeps (h : Writes cs t) (hn : 0 < n) (depth : Nat) :
    Keeps n cs (Code.lineAt depth t) := by
  rw [Code.lineAt_eq, ← List.append_assoc]
  exact (Bears.behind (.spaces _ _) (h [10] (stopped_cons (by decide)))).keeps hn

/-! ## Fields -/

/-- Whether a text is a name, or the number of a field. -/
def NameOrNumber (w : Text) : Prop := IsIdent w ∨ ∃ n, w = Text.ofNat n

theorem NameOrNumber.closed (h : NameOrNumber x) : Closed x := by
  rcases h with h | ⟨n, rfl⟩
  · exact h.closed
  · exact (word_ofNat n).solid.closed

theorem NameOrNumber.head (h : NameOrNumber x) : x.head? ≠ some 46 := by
  rcases h with h | ⟨n, rfl⟩
  · obtain ⟨b, u, rfl, hb⟩ := h.cons
    rintro ⟨⟩
    cases hb
  · exact fun h46 => absurd (Text.isDigitByte_of_mem_ofNat (List.mem_of_head? h46))
      (by decide)

/-- Whether what a derive writes of a field can be read. -/
structure FieldView.Legible (f : FieldView) : Prop where
  ident : ∀ w ∈ f.field.ident, IsIdent w
  ty : Closed f.ty.render
  format : ∀ g, f.options.format = some g → g.Legible

namespace FieldView.Legible

theorem name (h : f.Legible) : NameOrNumber f.name := by
  rw [FieldView.name]
  cases hident : f.field.ident with
  | none => exact .inr ⟨_, rfl⟩
  | some w => exact .inl (h.ident w hident)

theorem formatName (h : f.Legible) : Closed f.formatName := by
  rw [FieldView.formatName, FieldView.name]
  cases hident : f.field.ident with
  | none => exact (isIdent_underscore _).closed
  | some w => exact (h.ident w hident).closed

theorem borrowed (h : f.Legible) : Closed ("&" ++ f.member) := by
  have hself (s : Text) : Apart "self" (46 :: s) :=
    .of_piece (p := ⟨"self", some (.selfValueKw, none), []⟩) (pieces_cons 115 _) rfl
  have hdot : Closed ("." ++ f.name) := h.name.closed.prepend fun _ _ htail =>
    .dot (htail.head_ne (by decide) h.name.head)
  have hmember : Closed f.member := by
    have := hdot.prepend (x := "self") fun _ _ _ => hself _
    simpa [FieldView.member, FieldView.of, Text.concat] using this
  exact hmember.prepend fun _ _ _ => .lexes (lexes_amp (by rintro ⟨⟩))

end FieldView.Legible

theorem Placeholder.closed_trait (p : Placeholder) : Closed (Core.fmt p.trait) := by
  have hall : ∀ t ∈ (("Display" : Text) :: traits.map (·.2)),
      isSolid (Core.fmt t) = true := by
    decide +kernel
  refine .of_isSolid (hall _ ?_)
  rw [trait]
  split
  · next b _ =>
      cases hb : traits.lookup b with
      | none => exact List.mem_cons_self ..
      | some t =>
          obtain ⟨before, after, hsplit, -⟩ := List.lookup_eq_some_iff.mp hb
          refine List.mem_cons_of_mem _ (List.mem_map.mpr ⟨(b, t), ?_, rfl⟩)
          rw [hsplit]
          simp
  · exact List.mem_cons_self ..

/-- Whether what a derive writes of the fields can be read. -/
def FieldsView.Legible (v : FieldsView) : Prop := ∀ f ∈ v.all, f.Legible

namespace FieldsView

theorem keeps_bindings (h : v.Legible) (used : List Text) (hn : 0 < n) :
    Keeps n [] (Code.renderAll 0 ((v.bindings used).map .line)) := by
  rw [bindings]
  have hfields : ∀ f ∈ v.all.filter fun f => used.contains f.formatName, f.Legible :=
    fun f hf => h f (List.mem_of_mem_filter hf)
  generalize v.all.filter (fun f => used.contains f.formatName) = fs at hfields
  induction fs with
  | nil => exact .nil
  | cons f fs ih =>
      obtain ⟨hf, hfs⟩ := List.forall_mem_cons.mp hfields
      have hlet : Sealed "let " := .of_seals rfl
      have hequals : Sealed " = " := .of_seals rfl
      have hend : Sealed ";" := .of_seals rfl
      have hline : Closed
          ("let " ++ (f.formatName ++ (" = " ++ ("&" ++ f.member ++ ";")))) :=
        hlet.append_closed (hf.formatName.append (hequals.append_closed
          (hf.borrowed.append hend.closed (stopped_cons (by decide)))) (stopped_space _))
      have htext : Text.concat ["let ", f.formatName, " = &", f.member, ";"] =
          "let " ++ (f.formatName ++ (" = " ++ ("&" ++ f.member ++ ";"))) := by
        simp [Text.concat]
        rfl
      rw [List.map_cons, List.map_cons, htext]
      exact (hline.writes.keeps hn 0).append (ih hfs)

theorem closed_bracket {style : FieldStyle} {path : Text} (hpath : Closed path)
    {ts : List Text} (h : ∀ t ∈ ts, Closed t) : Closed (style.bracket path ts) := by
  have hjoin := Closed.join divides_comma h
  cases style with
  | unit => exact hpath
  | tuple =>
      have hopen : Sealed "(" := .of_seals rfl
      have hend : Sealed ")" := .of_seals rfl
      have := hpath.append (hopen.append_closed
        (hjoin.append hend.closed (stopped_cons (by decide))))
        (stopped_cons (by decide))
      simpa [FieldStyle.bracket, Text.concat] using this
  | named =>
      have hopen : Sealed " \x7b " := .of_seals rfl
      have hend : Sealed " \x7d" :=
        (Sealed.stop (c := 32) (by decide)).append (.stop (c := 125) (by decide))
      have := hpath.append (hopen.append_closed
        (hjoin.append hend.closed (stopped_space _)))
        (stopped_space _)
      simpa [FieldStyle.bracket, Text.concat] using this

theorem closed_renderList {ps : List Pat} (h : ∀ p ∈ ps, Closed p.render) :
    ∀ t ∈ Pat.renderList ps, Closed t := by
  induction ps with
  | nil => exact nofun
  | cons p ps ih =>
      obtain ⟨hp, hps⟩ := List.forall_mem_cons.mp h
      exact List.forall_mem_cons.mpr ⟨hp, ih hps⟩

theorem closed_renderEntries {names : List Text} (h : ∀ t ∈ names, Closed t) :
    ∀ t ∈ Pat.renderEntries (names.map fun name => (name, none)), Closed t := by
  induction names with
  | nil => exact nofun
  | cons name names ih =>
      obtain ⟨hname, hnames⟩ := List.forall_mem_cons.mp h
      exact List.forall_mem_cons.mpr ⟨hname, ih hnames⟩

theorem closed_formatPattern (h : v.Legible) (path : Text) (hpath : Closed path)
    (used : List Text) : Closed (v.formatPattern path used).render := by
  have hdots : Closed ".." := .of_isSolid rfl
  have hwild : Closed "_" := .of_isSolid rfl
  rw [formatPattern]
  split
  · split
    · rw [Pat.render]
      refine closed_bracket hpath (closed_renderList ?_)
      exact List.forall_mem_singleton.mpr hdots
    · rw [Pat.render]
      refine closed_bracket hpath (closed_renderList fun p hp => ?_)
      obtain ⟨f, hf, rfl⟩ := List.mem_map.mp hp
      split
      · exact (h f hf).formatName
      · exact hwild
  · rw [Pat.render]
    refine closed_bracket hpath (List.forall_mem_append.mpr ⟨?_, ?_⟩)
    · have := @closed_renderEntries
        ((v.all.filter fun f => used.contains f.formatName).map fun f =>
          f.field.ident.getD []) ?_
      · rwa [List.map_map] at this
      · intro t ht
        obtain ⟨f, hf, rfl⟩ := List.mem_map.mp ht
        cases hident : f.field.ident with
        | none => exact .nil
        | some w => exact ((h f (List.mem_of_mem_filter hf)).ident w hident).closed
    · split
      · exact List.forall_mem_singleton.mpr hdots
      · exact nofun
  · exact hpath

theorem legible_boundUses (h : v.Legible) (hg : g.Legible) (subject : Ty)
    {uses : List FormatUse} (huses : ∀ u ∈ uses, ∃ p : Placeholder, u.trait = p.trait) :
    (v.boundUses subject uses g).Legible := by
  rw [boundUses]
  induction uses generalizing g with
  | nil => exact hg
  | cons u uses ih =>
      obtain ⟨⟨p, hp⟩, huses⟩ := List.forall_mem_cons.mp huses
      rw [List.foldl_cons]
      refine ih ?_ huses
      split
      · next f hf =>
          have hmem : f ∈ v.all := List.mem_reverse.mp (List.mem_of_find?_eq_some hf)
          exact hg.addFieldBound (h f hmem).ty (hp ▸ p.closed_trait) subject
      · exact hg

end FieldsView

theorem FormatSpec.trait_of_mem_uses {f : FormatSpec} {attr : Text} {uses : List FormatUse}
    (h : f.uses attr = .ok uses) : ∀ u ∈ uses, ∃ p : Placeholder, u.trait = p.trait := by
  have hresolve (ps : List Placeholder) : ∀ next uses, f.resolve next ps = .ok uses →
      ∀ u ∈ uses, ∃ p : Placeholder, u.trait = p.trait := by
    induction ps with
    | nil =>
        rintro next uses ⟨⟩
        exact nofun
    | cons p ps ih =>
        intro next uses h
        have hcons (expr : Text) (next : Nat)
            (h : (do return ⟨expr, p.trait, p.spec⟩ :: (← f.resolve next ps)) =
              Except.ok uses) :
            ∀ u ∈ uses, ∃ p : Placeholder, u.trait = p.trait := by
          obtain ⟨rest, hrest, h⟩ := of_bind_ok h
          cases h
          exact List.forall_mem_cons.mpr ⟨⟨p, rfl⟩, ih _ _ hrest⟩
        rw [resolve] at h
        split at h
        · split at h
          · exact hcons _ _ h
          · cases h
        split at h
        · dsimp only at h
          split at h
          · exact hcons _ _ h
          · cases h
        · exact hcons _ _ h
  rw [FormatSpec.uses] at h
  split at h
  · cases h
  · next ps _ =>
      cases hps : f.resolve 0 ps with
      | error e =>
          rw [hps] at h
          cases h
      | ok us =>
          rw [hps] at h
          cases h
          exact hresolve ps 0 _ hps

/-! ## Selections that can be read -/

/-- Whether what a derive writes of a variant can be read. -/
structure VariantView.Legible (v : VariantView) : Prop where
  name : Closed v.name
  format : ∀ f, v.options.format = some f → f.Legible
  fields : v.fields.Legible

/-- Whether what a derive writes of a declaration can be read. -/
structure Selection.Legible (s : Selection) : Prop where
  name : Closed s.decl.name
  generics : s.decl.generics.Legible
  path : Closed s.spec.path
  format : ∀ f, s.container.format = some f → f.Legible
  struct : ∀ fields, s.shape = .struct fields → fields.Legible
  enum : ∀ variants, s.shape = .enum variants → ∀ v ∈ variants, v.Legible

theorem VariantView.Legible.path {v : VariantView} (h : v.Legible) : Closed v.path := by
  have hself : Sealed "Self::" := fun s =>
    .append (x := "Self") (y := "::")
      (.of_piece (p := ⟨"Self", some (.selfTypeKw, none), []⟩) (pieces_cons 83 _) rfl)
        (.colons s)
  exact hself.append_closed h.name

/-! ## Selections -/

theorem Options.OfMembers.of_mem {α : Type} {spec : TraitSpec} {level : Level}
    {views : List α} {attrs : α → List Attribute} {own : α → Options}
    (h : OfMembers spec level (views.map attrs) (views.map own)) :
    ∀ w ∈ views, ofAttributes (attrs w) spec.attrs level spec.params = .ok (own w) := by
  unfold OfMembers at h
  rw [List.forall₂_map_left_iff, List.forall₂_map_right_iff] at h
  exact List.forall₂_same.mp h

theorem FieldsView.Resolves.legible {spec : TraitSpec} {held inherited : Bool}
    {fields : Fields}
    {v : FieldsView} (h : v.Resolves spec held inherited fields) (hnamed : fields.Named)
    (hspelled : fields.Spelled) : v.Legible := by
  have hmem : ∀ f ∈ v.all, f.field ∈ fields.list := fun f hf =>
    h.members ▸ List.mem_map_of_mem hf
  have hoptions := h.options
  rw [← h.members, List.map_map] at hoptions
  intro f hf
  obtain ⟨hattrs, hty⟩ := hspelled f.field (hmem f hf)
  exact ⟨hnamed f.field (hmem f hf), (f.ty.shows hty).closed,
    Options.legible_format hattrs (hoptions.of_mem f hf)⟩

/-- What a derive writes of a declaration that is spelled by tokens can be read. -/
theorem Selection.legible_of_ofDecl {decl : Decl} {spec : TraitSpec} {s : Selection}
    (hnamed : decl.Named) (hspelled : decl.Spelled) (hpath : Closed spec.path)
    (h : ofDecl decl spec = .ok s) : s.Legible := by
  obtain ⟨hdecl, hspec⟩ := of_ofDecl h
  have hdatanamed := hnamed.data
  have hdata := hspelled.data
  have hname : Closed s.decl.name := hdecl ▸ hnamed.name.closed
  have hgenerics : s.decl.generics.Legible := hdecl ▸ hspelled.generics.legible
  cases hshape : decl.data with
  | union fields => exact absurd h (not_ofDecl_union hshape)
  | struct fields =>
      rw [hshape] at hdatanamed hdata
      obtain ⟨hcontainer, v, hv, hresolves⟩ := struct_resolves h hshape
      refine ⟨hname, hgenerics, hspec ▸ hpath,
        Options.legible_format hspelled.attrs hcontainer, ?_, ?_⟩
      · rintro w hw
        obtain rfl : v = w := by simpa [hv] using hw
        exact hresolves.legible hdatanamed hdata
      · intro variants hw
        rw [hv] at hw
        cases hw
  | enum variants =>
      rw [hshape] at hdatanamed hdata
      obtain ⟨hcontainer, views, hv, hvariants, hoptions, hresolves⟩ :=
        enum_resolves h hshape
      refine ⟨hname, hgenerics, hspec ▸ hpath,
        Options.legible_format hspelled.attrs hcontainer, ?_, ?_⟩
      · intro fields hw
        rw [hv] at hw
        cases hw
      · intro ws hw
        obtain rfl : views = ws := by simpa [hv] using hw
        subst hvariants
        rw [List.map_map] at hoptions
        intro w hw
        have hmem := List.mem_map_of_mem (f := VariantView.variant) hw
        obtain ⟨hattrs, hfields⟩ := hdata w.variant hmem
        obtain ⟨hident, hnames⟩ := hdatanamed w.variant hmem
        exact ⟨hident.closed, Options.legible_format hattrs (hoptions.of_mem w hw),
          (hresolves w hw).fields.legible hnames hfields⟩

end Deriver
