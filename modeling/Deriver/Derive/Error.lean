import Deriver.Derive.Basic

/-!
# Errors

The source of an error is the field that is marked so, or else the field that is
recognised by its name or, in a tuple, by its position and type. Backtraces are
recognised in the same way but generate no code.
-/

namespace Deriver.Derive

/-- Whether a type is a path that ends in a plain `Backtrace`. -/
def isBacktrace : Ty → Bool
  | .path p =>
      match p.segments.getLast? with
      | some ⟨ident, .none⟩ => ident == "Backtrace"
      | some ⟨ident, .angled []⟩ => ident == "Backtrace"
      | _ => false
  | _ => false

/-- The type in a type written `Option<T>`. -/
def optionInner : Ty → Option Ty
  | .paren _ elem => optionInner elem
  | .path ⟨none, _, segments, _⟩ =>
      match segments.getLast? with
      | some ⟨ident, .angled (.ty inner :: _)⟩ =>
          if ident == "Option" then some inner else none
      | _ => none
  | _ => none

def undecided (s : Selection) (pieces : List Text) : Diagnostic :=
  wrongShape s.decl s.spec (Text.concat pieces)

/-- The field a key selects: the marked one, or else the recognised one. -/
def pickField (s : Selection) (fields : FieldsView) (subject key : Text)
    (toggle : Options → Toggle) (recognised : FieldView → Bool) :
    Except Diagnostic (Option FieldView) :=
  let marked := fields.enabled.filter fun f => toggle f.options = .on
  let implied := fields.enabled.filter fun f => toggle f.options = .unset && recognised f
  match marked, implied with
  | [f], _ => .ok (some f)
  | _ :: _ :: _, _ =>
      .error (undecided s ["multiple ", tick key, " attributes specified in ", tick subject,
        "; only one per struct or variant is allowed"])
  | [], [f] => .ok (some f)
  | [], [] => .ok none
  | [], _ =>
      .error (undecided s ["conflicting ", tick key, " fields found in ", tick subject,
        "; mark one with \x60#[error(", key, ")]\x60"])

/-- The source field of a struct or variant. In a tuple of a backtrace and one other
field the other is the source. -/
def sourceField (s : Selection) (fields : FieldsView) (subject : Text) :
    Except Diagnostic (Option FieldView) := do
  let isNamed := fields.style = .named
  let source ← pickField s fields subject "source" (·.source) fun f =>
    if isNamed then f.name == "source" else fields.all.length = 1 && !isBacktrace f.ty
  let backtrace ← pickField s fields subject "backtrace" (·.backtrace) fun f =>
    (isNamed && f.name == "backtrace") || isBacktrace f.ty
  match source, backtrace, fields.all with
  | none, some b, [first, second] =>
      let other := if b.index = 0 then second else first
      return if !isNamed && other.enabled && other.options.source != .off then some other
        else none
  | _, _, _ => return source

/-- The source as a trait object; an optional one is unpacked. -/
def someSource (expr : Text) (f : FieldView) : Text :=
  let expr := if (optionInner f.ty).isSome then Text.concat [Core.option,
    "::as_ref(", expr, ")?"]
    else expr
  Text.concat [Core.some, "(", expr, ".", Support.asDynError, "())"]

def sourcePattern (v : VariantView) (source : FieldView) : Pat :=
  if v.fields.style = .named then .record v.path [(source.name, some (.bind "source"))] true
  else .tuple v.path (v.fields.all.map fun f =>
    if f.index = source.index then .bind "source" else .wild)

/-- The predicate on a source whose type mentions a type parameter. -/
def sourceBound (s : Selection) (g : ImplGenerics) (f : FieldView) : ImplGenerics :=
  let ty := (optionInner f.ty).getD f.ty
  let typeParams : Generics := ⟨s.decl.generics.params.filter (·.isType), []⟩
  if ty.mentions typeParams then
    g.addBound ty (Text.concat [Core.debug, " + ", Core.display, " + ", s.spec.path,
      " + 'static"])
  else g

/-- The arms for the variants that have a source; the others have none. -/
def sourceArms (s : Selection) (variants : List VariantView) :
    Except Diagnostic (List (VariantView × FieldView)) := do
  let found ← variants.mapM fun v => do
    return (v, ← sourceField s v.fields (Text.concat [s.decl.name, "::", v.name]))
  return found.filterMap fun (v, f?) => f?.map fun f => (v, f)

/-- `Error`. -/
def error (support : Support) : Expand := fun decl spec => do
  let s ← Selection.ofDecl decl spec
  let (sources, body) ← match s.shape with
    | .struct fields => do
        match ← sourceField s fields decl.name with
        | some f =>
            pure ([f], [Code.line (someSource (Text.concat ["(&", f.member, ")"]) f)])
        | none => pure ([], [])
    | .enum variants => do
        let found ← sourceArms s (variants.filter (·.enabled))
        let arms := found.map fun (v, f) =>
          Arm.yields (sourcePattern v f) (someSource "source" f)
        let otherwise :=
          if arms.length < variants.length then [Arm.yields .wild Core.none] else []
        pure (found.map (·.2),
          if arms.isEmpty then [] else [Code.choose "self" (arms ++ otherwise)])
  let g := sources.foldl (sourceBound s) s.generics
  let g := if decl.generics.typeNames.isEmpty then g
    else g.addBound s.self (Text.concat [Core.debug, " + ", Core.display])
  let fn := Code.block
    (Text.concat ["fn source(&self) -> ", Core.option, "<&(dyn ", spec.path,
      " + 'static)>"])
    (.line (Text.concat ["use ", support.item "AsDynError", " as _;"]) :: body)
  return [.block (g.header spec.path decl.name) (if body.isEmpty then [] else [fn])]

end Deriver.Derive
