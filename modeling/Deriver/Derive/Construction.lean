import Deriver.Derive.Basic

/-!
# Constructors, defaults and equality

A constructor takes every field, a default has one for every field, and two values are
compared field by field.
-/

namespace Deriver.Derive

/-! ## Constructors and defaults -/

def paramName (f : FieldView) : Text :=
  if f.field.ident.isSome then f.name else "__" ++ f.name

/-- A function `new` that takes every field in order. -/
def constructor : Expand := fun decl spec => do
  let (s, fields) ← selectStruct decl spec
  let params := fields.all.map fun f => Text.concat [paramName f, ": ", f.ty.render]
  let value :=
    if fields.style = .named && !fields.isUnit then
      FieldStyle.named.bracket "Self" (fields.all.map (·.name))
    else (fields.construct "Self" paramName).render
  return [.block (s.generics.inherentHeader decl.name)
    [.inline,
     .block (Text.concat ["pub const fn new(", Text.join ", " params, ") -> Self"])
       [.line value]]]

/-- The one variant that is the default: the marked one, or the only one left. -/
def defaultVariant (decl : Decl) (spec : TraitSpec) (variants : List VariantView) :
    Except Diagnostic VariantView :=
  match variants.filter (·.enabled) with
  | [v] => .ok v
  | [] =>
      .error (wrongShape decl spec
        (if variants.isEmpty then "an enum without variants has no default value"
          else "every variant is ignored"))
  | vs =>
      .error (wrongShape decl spec (Text.concat [Text.ofNat vs.length,
        " variants could be the default (", Text.join ", " (vs.map fun v => tick v.name),
        "); mark one with #[default]"]))

/-- `Default`: every field has its own default. -/
def default : Expand := fun decl spec => do
  let s ← Selection.ofDecl decl spec
  let (path, fields) ← match s.shape with
    | .struct fields => pure (("Self" : Text), fields)
    | .enum variants => do
        let v ← defaultVariant decl spec variants
        pure (v.path, v.fields)
  let g := s.generics.addFieldBounds (fields.all.map (·.ty)) s.self fun _ => spec.path
  let value := fields.construct path fun _ => spec.path ++ "::default()"
  return [.block (g.header spec.path decl.name)
    [.inline, .block "fn default() -> Self" [.line value.render]]]

/-!
## Equality

Two values are equal if they are of one variant and the fields that take part
are equal, compared in order.
-/

def compareFields (fields : FieldsView) (left right : FieldView → Text) : Text :=
  if fields.enabled.isEmpty then "true"
  else Text.join " && " (fields.enabled.map fun f => Text.concat [left f, " == ", right f])

def equalArm (v : VariantView) : Arm :=
  .yields (.pair (v.fields.patternEnabled v.path "self")
    (v.fields.patternEnabled v.path "other"))
    (compareFields v.fields (·.binding "self") (·.binding "other"))

def equalBody : ShapeView → Code
  | .struct fields => .line (compareFields fields (·.member) (·.of "other"))
  | .enum [] => .chooseNone "*self"
  | .enum variants =>
      .choose "(self, other)"
        (variants.map equalArm ++
          if 1 < variants.length then [.yields .wild "false"] else [])

/-- `PartialEq`, or `Eq`, which only marks. -/
def equality (isMarker : Bool) : Expand := fun decl spec => do
  let s ← Selection.ofDecl decl spec
  let g := s.generics.addFieldBounds s.shape.types s.self fun _ => spec.path
  let header := g.header spec.path decl.name
  if isMarker then return [.marker header]
  return [.block header [.inline, .block "fn eq(&self, other: &Self) -> bool"
    [equalBody s.shape]]]

end Deriver.Derive
