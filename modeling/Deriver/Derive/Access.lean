import Deriver.Derive.Basic

/-!
# Reaching through to a field

Dereferencing, indexing, iterating and reading are passed on to the one field
that takes part. An enum passes them on if all its variants agree.
-/

namespace Deriver.Derive

/-! ## Dereferencing -/

/-- What a value dereferences to through its field. -/
structure DerefTarget where
  field : FieldView
  /-- The target type. -/
  type : Text
  /-- The target as a diagnostic names it. -/
  shown : Text

namespace DerefTarget

def trait (isMut : Bool) : Text :=
  if isMut then "::core::ops::DerefMut" else "::core::ops::Deref"

/-- The field's type, or what that dereferences to if it is forwarded. -/
def ofField (f : FieldView) : DerefTarget :=
  let ty := f.ty.render
  if f.forward then
    ⟨f, casted ty (trait false) ++ "::Target", "forwarded target of " ++ tick ty⟩
  else ⟨f, ty, tick ty⟩

/-- The target from a reference to the field. -/
def project (isMut : Bool) (t : DerefTarget) (ref : Text) : Text :=
  if t.field.forward then
    Text.concat [casted t.field.ty.render (trait isMut),
      if isMut then "::deref_mut(" else "::deref(",
      ref, ")"]
  else ref

def bound (isMut : Bool) (s : Selection) (g : ImplGenerics) (t : DerefTarget) :
    ImplGenerics :=
  if t.field.forward then g.addFieldBounds [t.field.ty] s.self fun _ => trait isMut else g

end DerefTarget

/-- The targets of all variants, which must agree with the first. -/
def derefTargets (s : Selection) (variants : List VariantView) :
    Except Diagnostic (List (VariantView × DerefTarget)) := do
  let first ← match variants with
    | [] =>
        throw (wrongShape s.decl s.spec
          "enums without variants have nothing to dereference to")
    | v :: _ => do pure (DerefTarget.ofField (← s.variantField v).field)
  variants.mapM fun v => do
    let t := DerefTarget.ofField (← s.variantField v).field
    if t.type != first.type then
      throw (v.variant.pos.diagnose
        (.nonUniform s.spec.name s.decl.name "dereference target"
        first.shown (Text.concat [t.shown, " in ", tick v.name])))
    return (v, t)

def derefImpl (isMut : Bool) (g : ImplGenerics) (s : Selection) (target : Text)
    (body : List Code) : List Impl :=
  let type := if isMut then []
    else [Code.line (Text.concat ["type Target = ", target, ";"]), .blank]
  let signature := if isMut then "fn deref_mut(&mut self) -> &mut Self::Target"
    else "fn deref(&self) -> &Self::Target"
  [.block (g.header s.spec.path s.decl.name) (type ++ [.inline, .block signature body])]

/-- `Deref` and `DerefMut`. -/
def deref (isMut : Bool) : Expand := fun decl spec => do
  let s ← Selection.ofDecl decl spec
  match s.shape with
  | .struct _ =>
      let t := DerefTarget.ofField (← s.singleField).field
      let ref := (if isMut then "&mut " else "&") ++ t.field.member
      return derefImpl isMut (t.bound isMut s s.generics) s t.type
        [.line (t.project isMut ref)]
  | .enum variants =>
      let targets ← derefTargets s variants
      let g := targets.foldl (fun g (_, t) => t.bound isMut s g) s.generics
      let arms := targets.map fun (v, t) =>
        Arm.yields (v.fields.patternEnabled v.path "self")
          (t.project isMut (t.field.binding "self"))
      let target := (targets.head?.map fun (_, t) => t.type).getD []
      return derefImpl isMut g s target [.choose "self" arms]

/-- `DerefToInner` and `DerefMutToInner`: the target is always the field's type. -/
def derefToInner (isMut : Bool) : Expand := fun decl spec => do
  let (s, _) ← selectStruct decl spec
  let f := (← s.singleField).field
  return derefImpl isMut s.generics s f.ty.render
    [.line ((if isMut then "&mut " else "&") ++ f.member)]

/-! ## Indexing -/

def indexParam : Text := "__IdxT"

/-- The fields of all variants, whose types must agree with the first. -/
def indexedFields (s : Selection) (variants : List VariantView) :
    Except Diagnostic (List (VariantView × FieldView)) := do
  let first ← match variants with
    | [] => throw (wrongShape s.decl s.spec "enums without variants have nothing to index")
    | v :: _ => do pure (← s.variantField v).field
  variants.mapM fun v => do
    let f := (← s.variantField v).field
    if !f.ty.same first.ty then
      throw (v.variant.pos.diagnose
        (.nonUniform s.spec.name s.decl.name "indexed field type"
        (tick first.ty.render) (Text.concat [tick f.ty.render, " in ", tick v.name])))
    return (v, f)

/-- `Index` and `IndexMut`. -/
def index (isMut : Bool) : Expand := fun decl spec => do
  let s ← Selection.ofDecl decl spec
  let trait := generic spec.path indexParam
  let call (f : FieldView) (ref : Text) : Text :=
    Text.concat [casted f.ty.render trait, "::", spec.method, "(", ref, ", idx)"]
  let (ty, body) ← match s.shape with
    | .struct _ => do
        let f := (← s.singleField).field
        pure (f.ty, Code.line (call f ((if isMut then "&mut " else "&") ++ f.member)))
    | .enum variants => do
        let fields ← indexedFields s variants
        let arms := fields.map fun (v, f) =>
          Arm.yields (v.fields.patternEnabled v.path "self") (call f (f.binding "self"))
        let ty := (fields.head?.map fun (_, f) => f.ty).getD (.infer .unknown)
        pure (ty, Code.choose "self" arms)
  let g := (s.generics.addParam indexParam).addBound ty trait
  let output := if isMut then []
    else [Code.line (Text.concat ["type Output = ", casted ty.render trait, "::Output;"]),
      .blank]
  let signature := if isMut
    then Text.concat ["fn index_mut(&mut self, idx: ", indexParam, ") -> &mut Self::Output"]
    else Text.concat ["fn index(&self, idx: ", indexParam, ") -> &Self::Output"]
  return [.block (g.header trait decl.name) (output ++ [.inline, .block signature [body]])]

/-! ## Iterating -/

/-- `Iterator`. -/
def iterator : Expand := fun decl spec => do
  let (s, _) ← selectStruct decl spec
  let single ← s.singleField
  let g := s.generics.addFieldBounds [single.field.ty] s.self fun _ => spec.path
  return [.block (g.header spec.path decl.name)
    [.line (Text.concat ["type Item = ", single.casted, "::Item;"]), .blank, .inline,
     .block (Text.concat ["fn next(&mut self) -> ", generic Core.option "Self::Item"])
       [.line (Text.concat [single.casted, "::next(&mut ", single.field.member, ")"])]]]

/-- `IntoIterator` in one form. -/
def intoIteratorIn (s : Selection) (f : FieldView) (form : RefForm) : Impl :=
  let fieldTy := form.typeMark ++ f.ty.render
  let cast := casted fieldTy s.spec.path
  let g := form.generics s.generics
  let g := if f.ty.mentions s.decl.generics && !f.ty.containsSubject s.self
    then g.addPredicate (Text.concat [fieldTy, ": ", s.spec.path]) else g
  .block (g.header s.spec.path (form.typeMark ++ s.decl.name))
    [.line (Text.concat ["type Item = ", cast, "::Item;"]),
     .line (Text.concat ["type IntoIter = ", cast, "::IntoIter;"]), .blank, .inline,
     .block "fn into_iter(self) -> Self::IntoIter"
       [.line (Text.concat [cast, "::into_iter(", form.borrow, f.member, ")"])]]

/-- `IntoIterator`, in the forms that are asked for. -/
def intoIterator : Expand := fun decl spec => do
  let (s, _) ← selectStruct decl spec
  let f := (← s.singleField).field
  let forms := RefForm.ofSet (Selection.accessorsOf s.container f.options)
  return forms.map (intoIteratorIn s f)

/-! ## Reading -/

/-- `Read`. -/
def read : Expand := fun decl spec => do
  let s ← Selection.ofDecl decl spec
  let call (f : FieldView) (ref : Text) : Text :=
    Text.concat [casted f.ty.render spec.path, "::read(", ref, ", buf)"]
  let bound (g : ImplGenerics) (f : FieldView) :=
    g.addFieldBounds [f.ty] s.self fun _ => spec.path
  let (g, body) ← match s.shape with
    | .struct _ => do
        let f := (← s.singleField).field
        pure (bound s.generics f, Code.line (call f ("&mut " ++ f.member)))
    | .enum variants => do
        let fields ← variants.mapM fun v => do return (v, (← s.variantField v).field)
        let arms := fields.map fun (v, f) =>
          Arm.yields (v.fields.patternEnabled v.path "self") (call f (f.binding "self"))
        pure (fields.foldl (fun g (_, f) => bound g f) s.generics, Code.choose "self" arms)
  return [.block (g.header spec.path decl.name)
    [.inline, .block "fn read(&mut self, buf: &mut [u8]) -> ::std::io::Result<usize>"
      [body]]]

end Deriver.Derive
