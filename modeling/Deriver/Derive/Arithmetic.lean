import Deriver.Derive.Basic
import Deriver.Text.Quoted

/-!
# Operators

Operators are derived field by field. Two values of an enum can be combined only
if they are of one variant that has fields, so the result is then a `Result`.
-/

namespace Deriver.Derive

/-- The method of a trait, applied. -/
def apply (spec : TraitSpec) (args : List Text) : Text :=
  Text.concat [spec.path, "::", spec.method, "(", Text.join ", " args, ")"]

def operator (output signature : Text) (body : List Code) : List Code :=
  [.line (Text.concat ["type Output = ", output, ";"]), .blank, .inline,
    .block signature body]

def binarySignature (spec : TraitSpec) : Text :=
  Text.concat ["fn ", spec.method, "(self, rhs: Self) -> Self::Output"]

/-! ## Addition and its like -/

/-- Combines two structs field by field; skipped fields get their default. -/
def addStruct (s : Selection) (fields : FieldsView) : List Impl :=
  let spec := s.spec
  let g := s.generics.addFieldBounds fields.types s.self (closedUnder spec.path)
  let g := g.addFieldBounds (fields.skipped.map (·.ty)) s.self fun _ => Core.default
  let value := fields.construct "Self" fun f =>
    if f.enabled then apply spec [f.member, f.of "rhs"] else Core.default ++ "::default()"
  [.block (g.header spec.path s.decl.name)
    (operator "Self" (binarySignature spec) [.line value.render])]

/-- The arm that combines two values of one variant. -/
def addArm (support : Support) (spec : TraitSpec) (v : VariantView) : Arm :=
  let pat := Pat.pair (v.fields.pattern v.path "self") (v.fields.pattern v.path "rhs")
  if v.fields.isUnit then
    .yields pat (Text.concat [Core.err, "(", support.item "ops::BinaryError", "::Unit(",
      support.item "ops::UnitError", "::new(", spec.method.quoted, ")))"])
  else
    let value :=
      v.fields.construct v.path fun f => apply spec [f.binding "self", f.binding "rhs"]
    .yields pat (Text.concat [Core.ok, "(", value.render, ")"])

/-- Combines two values of an enum. Two values of different variants are an error,
which cannot arise if there is only one variant. -/
def addEnum (support : Support) (s : Selection) (variants : List VariantView) :
    Except Diagnostic (List Impl) := do
  let spec := s.spec
  match variants.find? fun v => !v.fields.skipped.isEmpty with
  | some v =>
      throw (wrongShape s.decl spec (Text.concat ["\x60#[", spec.attrs.headD [],
        "(skip)]\x60 is only supported on struct fields, found one in variant ",
        tick v.name]))
  | none => pure ()
  let types := variants.flatMap (·.fields.types)
  let g := s.generics.addFieldBounds types s.self (closedUnder spec.path)
  let mismatch :=
    Arm.yields .wild (Text.concat [Core.err, "(", support.item "ops::BinaryError",
    "::Mismatch(", support.item "ops::WrongVariantError", "::new(",
    spec.method.quoted, ")))"])
  let arms := variants.map (addArm support spec) ++
    if 1 < variants.length then [mismatch] else []
  let body : Code :=
    if variants.isEmpty then .chooseNone "self" else .choose "(self, rhs)" arms
  let output := Text.concat [Core.result, "<Self, ", support.item "ops::BinaryError", ">"]
  return [.block (g.header spec.path s.decl.name)
    (operator output (binarySignature spec) [body])]

/-- `Add`, `Sub`, `BitAnd`, `BitOr` and `BitXor`. -/
def addLike (support : Support) : Expand := fun decl spec => do
  let s ← Selection.ofDecl decl spec
  match s.shape with
  | .struct _ => return addStruct s (← s.someFields)
  | .enum variants => addEnum support s variants

/-! ## Multiplication and its like -/

def scalar : Text := "__RhsT"

/-- Bounds every field type by the operator with a scalar operand, which several
fields must be able to copy. -/
def scalarBounds (g : ImplGenerics) (fields : FieldsView) (bound : Ty → Text) :
    ImplGenerics :=
  let g := (Ty.distinct fields.types).foldl (fun g t => g.addBound t (bound t))
    (g.addParam scalar)
  if 1 < fields.enabled.length then g.addParamBound scalar Core.copy else g

/-- `Mul`, `Div`, `Rem`, `Shl` and `Shr`: each field with the same operand; skipped
fields stay as they are. -/
def mulLike : Expand := fun decl spec => do
  let (s, fields) ← selectFields decl spec
  let g := scalarBounds s.generics fields fun t =>
    Text.concat [spec.path, "<", scalar, ", Output = ", t.render, ">"]
  let value := fields.construct "Self" fun f =>
    if f.enabled then apply spec [f.member, "rhs"] else f.member
  return [.block (g.header (generic spec.path scalar) decl.name)
    (operator "Self" (Text.concat ["fn ", spec.method, "(self, rhs: ", scalar,
      ") -> Self::Output"]) [.line value.render])]

/-! ## Negation -/

def notArm (support : Support) (spec : TraitSpec) (hasUnit : Bool) (v : VariantView) :
    Arm :=
  let pat := v.fields.pattern v.path "self"
  if v.fields.isUnit then
    .yields pat (Text.concat [Core.err, "(", support.item "ops::UnitError", "::new(",
      spec.method.quoted, "))"])
  else
    let value := (v.fields.construct v.path fun f => apply spec [f.binding "self"]).render
    .yields pat (if hasUnit then Text.concat [Core.ok, "(", value, ")"] else value)

/-- `Neg` and `Not`. An enum with a unit variant gives a `Result`. -/
def notLike (support : Support) : Expand := fun decl spec => do
  let s ← Selection.ofDecl decl spec
  let bounded (types : List Ty) :=
    s.generics.addFieldBounds types s.self (closedUnder spec.path)
  let signature := Text.concat ["fn ", spec.method, "(self) -> Self::Output"]
  match s.shape with
  | .struct _ =>
      let fields ← s.someFields
      let value := fields.construct "Self" fun f => apply spec [f.member]
      return [.block ((bounded fields.types).header spec.path decl.name)
        (operator "Self" signature [.line value.render])]
  | .enum variants =>
      let hasUnit := variants.any (·.fields.isUnit)
      let output :=
        if hasUnit then Text.concat [Core.result, "<Self, ",
          support.item "ops::UnitError", ">"]
        else "Self"
      return [.block ((bounded (variants.flatMap (·.fields.types))).header
        spec.path decl.name) (operator output signature
          [.choose "self" (variants.map (notArm support spec hasUnit))])]

/-! ## Assignment -/

/-- Compound assignment: field by field, or every field with one scalar operand. -/
def assignLike (isScalar : Bool) : Expand := fun decl spec => do
  let (s, fields) ← selectFields decl spec
  let g :=
    if isScalar then scalarBounds s.generics fields fun _ => generic spec.path scalar
    else s.generics.addFieldBounds fields.types s.self fun _ => spec.path
  let trait := if isScalar then generic spec.path scalar else spec.path
  let rhs := if isScalar then scalar else "Self"
  let lines := fields.enabled.map fun f =>
    Code.line (Text.concat [
      apply spec ["&mut " ++ f.member, if isScalar then "rhs" else f.of "rhs"],
      ";"])
  return [.block (g.header trait decl.name)
    [.inline, .block (Text.concat ["fn ", spec.method, "(&mut self, rhs: ", rhs, ")"])
      lines]]

/-! ## Sums and products -/

/-- `Sum` and `Product`: folds an iterator, starting from what an empty iterator
gives for each field. -/
def fold (operatorPath operatorMethod : Text) : Expand := fun decl spec => do
  let (s, fields) ← selectFields decl spec
  let g := s.generics.addFieldBounds fields.types s.self fun _ => spec.path
  let g :=
    if decl.generics.typeNames.isEmpty then g
    else g.addBound s.self (closedUnder operatorPath s.self)
  let start := fields.construct "Self" fun f =>
    Text.concat ["::core::iter::empty::<", f.ty.render, ">().", spec.method, "()"]
  return [.block (g.header spec.path decl.name)
    [.inline,
     .block (Text.concat ["fn ", spec.method,
         "<I: ::core::iter::Iterator<Item = Self>>(iter: I) -> Self"])
       [.line (Text.concat ["iter.fold(", start.render, ", ", operatorPath, "::",
         operatorMethod, ")"])]]]

end Deriver.Derive
