import Deriver.Parse.Item
import Deriver.Proofs.Token.Joining

/-!
# Declarations at another place

What the same text declares when it stands elsewhere differs in positions and
offsets only. `Ty.place` and the functions after it give a tree other positions,
and `Decl.place` also moves the two offsets. Nothing that is spelled changes:
`Ty.render_place`.
-/

namespace Deriver

section Types

variable (f : Position → Position)

mutual

/-- The type with other positions. -/
def Ty.place : Ty → Ty
  | .path p => .path p.place
  | .ref pos lifetime isMut elem => .ref (f pos) lifetime isMut elem.place
  | .ptr pos isMut elem => .ptr (f pos) isMut elem.place
  | .tuple pos elems => .tuple (f pos) (placeTys elems)
  | .array pos elem len => .array (f pos) elem.place len
  | .slice pos elem => .slice (f pos) elem.place
  | .paren pos elem => .paren (f pos) elem.place
  | .fn pos sig => .fn (f pos) sig.place
  | .traitObject pos dyn bounds => .traitObject (f pos) dyn (placeBounds bounds)
  | .implTrait pos bounds => .implTrait (f pos) (placeBounds bounds)
  | .never pos => .never (f pos)
  | .infer pos => .infer (f pos)
  | .macroCall pos raw => .macroCall (f pos) raw

/-- The types with other positions. -/
def placeTys : List Ty → List Ty
  | [] => []
  | t :: ts => t.place :: placeTys ts

/-- The type, if there is one, with other positions. -/
def placeTy? : Option Ty → Option Ty
  | none => none
  | some t => some t.place

/-- The path with other positions. -/
def Path.place : Path → Path
  | ⟨qself, isGlobal, segments, pos⟩ =>
  ⟨placeQSelf? qself, isGlobal, placeSegments segments, f pos⟩

/-- The path, if there is one, with other positions. -/
def placePath? : Option Path → Option Path
  | none => none
  | some p => some p.place

/-- The qualified self type, if there is one, with other positions. -/
def placeQSelf? : Option QSelf → Option QSelf
  | none => none
  | some q => some q.place

/-- The qualified self type with other positions. -/
def QSelf.place : QSelf → QSelf
  | ⟨ty, trait⟩ => ⟨ty.place, placePath? trait⟩

/-- The segments with other positions. -/
def placeSegments : List Segment → List Segment
  | [] => []
  | s :: ss => s.place :: placeSegments ss

/-- The segment with other positions. -/
def Segment.place : Segment → Segment
  | ⟨ident, args⟩ => ⟨ident, args.place⟩

/-- The arguments of a segment with other positions. -/
def Args.place : Args → Args
  | .none => .none
  | .angled args => .angled (placeArgs args)
  | .call inputs output => .call (placeTys inputs) (placeTy? output)

/-- The generic arguments with other positions. -/
def placeArgs : List GenericArg → List GenericArg
  | [] => []
  | a :: as => a.place :: placeArgs as

/-- The generic argument with other positions. -/
def GenericArg.place : GenericArg → GenericArg
  | .ty t => .ty t.place
  | .lifetime name => .lifetime name
  | .const expr => .const expr
  | .binding name t => .binding name t.place
  | .constraint name bounds => .constraint name (placeBounds bounds)

/-- The bounds with other positions. -/
def placeBounds : List Bound → List Bound
  | [] => []
  | b :: bs => b.place :: placeBounds bs

/-- The bound with other positions. -/
def Bound.place : Bound → Bound
  | .outlives names lifetime => .outlives names lifetime
  | .trait names maybe path => .trait names maybe path.place

/-- The signature with other positions. -/
def FnSig.place : FnSig → FnSig
  | ⟨names, isUnsafe, abi, inputs, variadic, output⟩ =>
      ⟨names, isUnsafe, abi, placeTys inputs, variadic, placeTy? output⟩

end

theorem placeTys_eq (ts : List Ty) : placeTys f ts = ts.map (Ty.place f) := by
  induction ts with
  | nil => rfl
  | cons t ts ih => rw [placeTys, ih, List.map_cons]

theorem placeTy?_eq (t : Option Ty) :
    placeTy? f t = t.map (Ty.place f) := by cases t <;> rfl

theorem placePath?_eq (p : Option Path) : placePath? f p = p.map (Path.place f) := by
  cases p <;> rfl

theorem placeSegments_eq (ss : List Segment) :
    placeSegments f ss = ss.map (Segment.place f) := by
  induction ss with
  | nil => rfl
  | cons s ss ih => rw [placeSegments, ih, List.map_cons]

theorem placeArgs_eq (as : List GenericArg) :
    placeArgs f as = as.map (GenericArg.place f) := by
  induction as with
  | nil => rfl
  | cons a as ih => rw [placeArgs, ih, List.map_cons]

theorem placeBounds_eq (bs : List Bound) : placeBounds f bs = bs.map (Bound.place f) := by
  induction bs with
  | nil => rfl
  | cons b bs ih => rw [placeBounds, ih, List.map_cons]

/-! ## Spelling -/

mutual

theorem Ty.render_place : ∀ t : Ty, (t.place f).render = t.render
  | .path p => by rw [Ty.place, Ty.render, Ty.render, Path.render_place p]
  | .ref _ _ _ elem => by rw [Ty.place, Ty.render, Ty.render, Ty.render_place elem]
  | .ptr _ _ elem => by rw [Ty.place, Ty.render, Ty.render, Ty.render_place elem]
  | .tuple _ elems => by
      have h := renderTys_place elems
      match elems with
      | [] => rfl
      | [elem] =>
          simp only [placeTys, renderTys, List.cons.injEq, and_true] at h
          rw [Ty.place, placeTys, placeTys, Ty.render, Ty.render, h]
      | a :: b :: elems =>
          rw [Ty.place, placeTys, placeTys, Ty.render, Ty.render, ← h, placeTys, placeTys]
          all_goals simp
  | .array _ elem _ => by rw [Ty.place, Ty.render, Ty.render, Ty.render_place elem]
  | .slice _ elem => by rw [Ty.place, Ty.render, Ty.render, Ty.render_place elem]
  | .paren _ elem => by rw [Ty.place, Ty.render, Ty.render, Ty.render_place elem]
  | .fn _ sig => by rw [Ty.place, Ty.render, Ty.render, FnSig.render_place sig]
  | .traitObject _ _ bounds => by
      rw [Ty.place, Ty.render, Ty.render, renderBoundList_place bounds]
  | .implTrait _ bounds =>
      by rw [Ty.place, Ty.render, Ty.render, renderBoundList_place bounds]
  | .never _ => rfl
  | .infer _ => rfl
  | .macroCall _ _ => rfl

theorem renderTys_place : ∀ ts : List Ty, renderTys (placeTys f ts) = renderTys ts
  | [] => rfl
  | t :: ts => by rw [placeTys, renderTys, renderTys, Ty.render_place t, renderTys_place ts]

theorem Path.render_place : ∀ p : Path, (p.place f).render = p.render
  | ⟨none, _, segments, _⟩ => by
      rw [Path.place, placeQSelf?, Path.render, Path.render, renderSegments_place segments]
  | ⟨some qself, _, segments, _⟩ => by
      rw [Path.place, placeQSelf?, Path.render, Path.render, renderSegments_place segments,
        QSelf.render_place qself]

theorem QSelf.render_place : ∀ q : QSelf, (q.place f).render = q.render
  | ⟨ty, none⟩ => by
      rw [QSelf.place, placePath?, QSelf.render, QSelf.render, Ty.render_place ty]
  | ⟨ty, some trait⟩ => by
      rw [QSelf.place, placePath?, QSelf.render, QSelf.render, Ty.render_place ty,
        Path.render_place trait]

theorem renderSegments_place : ∀ ss : List Segment,
    renderSegments (placeSegments f ss) = renderSegments ss
  | [] => rfl
  | s :: ss => by
      rw [placeSegments, renderSegments, renderSegments, Segment.render_place s,
        renderSegments_place ss]

theorem Segment.render_place : ∀ s : Segment, (s.place f).render = s.render
  | ⟨_, .none⟩ => rfl
  | ⟨_, .angled args⟩ => by
      have hempty : (placeArgs f args).isEmpty = args.isEmpty := by cases args <;> rfl
      rw [Segment.place, Args.place, Segment.render, Segment.render,
        renderArgs_place args, hempty]
  | ⟨_, .call inputs none⟩ => by
      rw [Segment.place, Args.place, placeTy?, Segment.render, Segment.render,
        renderTys_place inputs]
  | ⟨_, .call inputs (some output)⟩ => by
      rw [Segment.place, Args.place, placeTy?, Segment.render, Segment.render,
        renderTys_place inputs, Ty.render_place output]

theorem renderArgs_place : ∀ as :
    List GenericArg, renderArgs (placeArgs f as) = renderArgs as
  | [] => rfl
  | a :: as => by
      rw [placeArgs, renderArgs, renderArgs, GenericArg.render_place a, renderArgs_place as]

theorem GenericArg.render_place : ∀ a : GenericArg, (a.place f).render = a.render
  | .ty t => by rw [GenericArg.place, GenericArg.render, GenericArg.render,
  Ty.render_place t]
  | .lifetime _ => rfl
  | .const _ => rfl
  | .binding _ t => by
      rw [GenericArg.place, GenericArg.render, GenericArg.render, Ty.render_place t]
  | .constraint _ bounds => by
      rw [GenericArg.place, GenericArg.render, GenericArg.render,
        renderBoundList_place bounds]

theorem renderBoundList_place : ∀ bs : List Bound,
    renderBoundList (placeBounds f bs) = renderBoundList bs
  | [] => rfl
  | b :: bs => by
      rw [placeBounds, renderBoundList, renderBoundList, Bound.render_place b,
        renderBoundList_place bs]

theorem Bound.render_place : ∀ b : Bound, (b.place f).render = b.render
  | .outlives _ _ => rfl
  | .trait _ _ path =>
      by rw [Bound.place, Bound.render, Bound.render, Path.render_place path]

theorem FnSig.render_place : ∀ s : FnSig, (s.place f).render = s.render
  | ⟨_, _, _, inputs, _, none⟩ => by
      rw [FnSig.place, placeTy?, FnSig.render, FnSig.render, renderTys_place inputs]
  | ⟨_, _, _, inputs, _, some output⟩ => by
      rw [FnSig.place, placeTy?, FnSig.render, FnSig.render, renderTys_place inputs,
        Ty.render_place output]

end

end Types

/-! ## Attributes and declarations -/

section Decls

variable (f : Position → Position)

mutual

/-- The attribute argument with other positions. -/
def Meta.place : Meta → Meta
  | .path pos p => .path (f pos) p
  | .list pos p items raw => .list (f pos) p (placeMetas items) raw
  | .nameValue pos p value raw => .nameValue (f pos) p value raw
  | .lit pos value => .lit (f pos) value
  | .other pos p raw => .other (f pos) p raw

/-- The attribute arguments with other positions. -/
def placeMetas : List Meta → List Meta
  | [] => []
  | m :: ms => m.place :: placeMetas ms

end

theorem placeMetas_eq (ms : List Meta) : placeMetas f ms = ms.map (Meta.place f) := by
  induction ms with
  | nil => rfl
  | cons m ms ih => rw [placeMetas, ih, List.map_cons]

theorem Meta.raw_place (m : Meta) : (m.place f).raw = m.raw := by cases m <;> rfl

theorem Meta.pathText_place (m : Meta) :
    (m.place f).pathText = m.pathText := by cases m <;> rfl

/-- The attribute with other positions. -/
def Attribute.place (a : Attribute) : Attribute := ⟨a.arg.place f, a.raw, f a.pos⟩

theorem Attribute.path_place (a : Attribute) : (a.place f).path = a.path :=
  a.arg.pathText_place f

/-- The kind of a parameter with other positions. -/
def ParamKind.place : ParamKind → ParamKind
  | .lifetime => .lifetime
  | .type => .type
  | .const ty => .const (ty.place f)

/-- The parameter with other positions. -/
def GenericParam.place (p : GenericParam) : GenericParam :=
  ⟨p.kind.place f, p.name, p.bounds.map (Bound.place f), p.default, f p.pos⟩

/-- The predicate with other positions. -/
def WherePredicate.place : WherePredicate → WherePredicate
  | .lifetime names name bounds => .lifetime names name (bounds.map (Bound.place f))
  | .type names ty bounds => .type names (ty.place f) (bounds.map (Bound.place f))

/-- The generics with other positions. -/
def Generics.place (g : Generics) : Generics :=
  ⟨g.params.map (GenericParam.place f), g.predicates.map (WherePredicate.place f)⟩

/-- The field with other positions. -/
def Field.place (d : Field) : Field :=
  ⟨d.attrs.map (Attribute.place f), d.vis, d.ident, d.index, d.ty.place f, f d.pos⟩

/-- The fields with other positions. -/
def Fields.place (fs : Fields) : Fields := ⟨fs.style, fs.list.map (Field.place f)⟩

/-- The variant with other positions. -/
def Variant.place (v : Variant) : Variant :=
  ⟨v.attrs.map (Attribute.place f), v.ident, v.fields.place f, v.discriminant, f v.pos⟩

/-- The content of a declaration with other positions. -/
def Data.place : Data → Data
  | .struct fs => .struct (fs.place f)
  | .enum vs => .enum (vs.map (Variant.place f))
  | .union fs => .union (fs.place f)

/-- The derive request with another position. -/
def DeriveRequest.place (r : DeriveRequest) : DeriveRequest := { r with pos := f r.pos }

variable (n : Nat)

/-- The declaration with other positions, `n` bytes further on. -/
def Decl.place (d : Decl) : Decl :=
  ⟨d.attrs.map (Attribute.place f), d.vis, d.name, d.generics.place f, d.data.place f,
    d.derives.map (DeriveRequest.place f), f d.pos, n + d.first, n + d.stop⟩

/-- The error at another place. -/
def ParseError.place (e : ParseError) : ParseError := ⟨e.problem, e.token.place f n⟩

namespace Parse

/-- The item at another place. -/
def Item.place : Item → Item
  | .decl d => .decl (d.place f n)
  | .error e => .error (e.place f n)
  | .inlineModule m => .inlineModule { m with pos := f m.pos }
  | .skipped => .skipped
  | .nothing => .nothing

end Parse

theorem Attribute.named_place (attrs : List Attribute) (names : List Text) :
    named (attrs.map (place f)) names = (named attrs names).map (place f) := by
  simp only [named, List.filter_map, Function.comp_def, path_place]

theorem Parse.derivesOf_place (attrs : List Attribute) :
    derivesOf (attrs.map (Attribute.place f)) =
    (derivesOf attrs).map (DeriveRequest.place f) := by
  rw [derivesOf, derivesOf, Attribute.named_place, List.flatMap_map, List.map_flatMap]
  congr 1
  funext a
  obtain ⟨arg, raw, pos⟩ := a
  cases arg with
  | list pos p items raw =>
      simp only [Attribute.place, Meta.place, placeMetas_eq, List.filterMap_map,
        List.map_filterMap]
      congr 1
      funext m
      cases m <;> rfl
  | _ => rfl

end Decls

end Deriver
