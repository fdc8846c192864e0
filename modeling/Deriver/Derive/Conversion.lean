import Deriver.Derive.Basic
import Deriver.Text.Quoted

/-!
# Conversions

Conversions between a declaration and what its fields hold, and conversions of
references. No two implementations of one derive may convert from and to the
same types, so a declaration for which they would is refused.
-/

namespace Deriver.Derive

/-! ## From the fields -/

def extraTypes (s : Selection) (place : Text) (count : Nat) : Diagnostic :=
  wrongShape s.decl s.spec (Text.concat ["\x60types(...)\x60", place,
    " requires exactly one enabled field, found ", Text.ofNat count])

/-- An implementation of `From` with its source type and the value it builds. -/
def fromImpl (g : ImplGenerics) (s : Selection) (source : Text) (value : Built) : Impl :=
  .block (g.header (generic s.spec.path source) s.decl.name)
    [.inline,
     .block (Text.concat ["fn from(original: ", source, ") -> Self"]) [.line value.render]]

/-- The implementations for one field list: from the tuple of its enabled fields,
and from each extra type by way of the one field. -/
def fromFields (s : Selection) (fields : FieldsView) (path : Text) (extra : List Text) :
    Except Diagnostic (List Impl) := do
  let g := s.generics.addFieldBounds (fields.skipped.map (·.ty)) s.self fun _ =>
    Core.default
  let value (expr : FieldView → Text) : Built := fields.construct path fun f =>
    if f.enabled then expr f else Core.default ++ "::default()"
  let main := fromImpl g s (tupleOf (fields.types.map Ty.render)) (value fun f =>
    if fields.enabled.length = 1 then "original"
    else "original." ++ Text.ofNat (fields.rank f))
  if extra.isEmpty then return [main]
  match fields.enabled with
  | [field] =>
      let more := extra.map fun ty =>
        let g := g.addPredicate
          (Text.concat [field.ty.render, ": ", generic s.spec.path ty])
        fromImpl g s ty (value fun f =>
          Text.concat [casted f.ty.render (generic s.spec.path ty), "::from(original)"])
      return main :: more
  | fs => throw (extraTypes s [] fs.length)

/-- The implementations for each variant with a payload that takes part. `owners`
are the payloads so far, with the variants that hold them. -/
def fromVariants (s : Selection) : List (Text × Text) → List VariantView →
    Except Diagnostic (List Impl)
  | _, [] => .ok []
  | owners, v :: vs =>
      if v.fields.enabled.isEmpty then fromVariants s owners vs
      else do
        let payload := tupleOf (v.fields.types.map Ty.render)
        match owners.lookup payload with
        | some owner =>
            throw (wrongShape s.decl s.spec (Text.concat ["variants ", tick owner, " and ",
              tick v.name, " both hold ", tick payload,
              "; skip one of them with \x60#[from(skip)]\x60"]))
        | none => pure ()
        let impls ← fromFields s v.fields v.path v.options.types
        return impls ++ (← fromVariants s ((payload, v.name) :: owners) vs)

/-- `From`. -/
def fromPayload : Expand := fun decl spec => do
  let s ← Selection.ofDecl decl spec
  match s.shape with
  | .struct fields => fromFields s fields "Self" s.container.types
  | .enum variants => fromVariants s [] (variants.filter (·.enabled))

/-! ## Into the fields -/

/-- An implementation of `From` for something that is made of the declared type. -/
def intoImpl (g : ImplGenerics) (source target value : Text) : Impl :=
  .block (headerFor g.parts (generic Core.fromTrait source) target)
    [.inline, .block (Text.concat ["fn from(original: ", source, ") -> Self"])
      [.line value]]

/-- The fields that take part, in one form. -/
def intoForm (s : Selection) (fields : FieldsView) (form : RefForm) : Impl :=
  let target := tupleOf (fields.types.map fun t => form.typeMark ++ t.render)
  let value := tupleOf (fields.enabled.map fun f => form.borrow ++ f.of "original")
  intoImpl (form.generics s.generics) (form.typeMark ++ s.self.render) target value

/-- `Into`: the tuple of the fields that take part, in the forms that are asked for,
and each extra type by way of the one field. -/
def intoPayload : Expand := fun decl spec => do
  let (s, fields) ← selectStruct decl spec
  let main := (RefForm.ofSet (Selection.accessorsOf s.container {})).map (intoForm s fields)
  if s.container.types.isEmpty then return main
  match fields.enabled with
  | [field] =>
      let more := s.container.types.map fun ty =>
        let g := s.generics.addPredicate
          (Text.concat [field.ty.render, ": ", generic "::core::convert::Into" ty])
        intoImpl g s.self.render ty
          (Text.concat ["::core::convert::Into::into(", field.of "original", ")"])
      return main ++ more
  | fs => throw (extraTypes s [] fs.length)

/-! ## References to the fields -/

/-- The parameter that stands for whatever the field converts to. -/
def forwardParam : Text := "__AsT"

def refImpl (isMut : Bool) (g : ImplGenerics) (s : Selection) (target value : Text) :
    Impl :=
  let receiver := if isMut then "&mut self" else "&self"
  let mark := if isMut then "&mut " else "&"
  .block (g.header (generic s.spec.path target) s.decl.name)
    [.inline,
     .block (Text.concat ["fn ", s.spec.method, "(", receiver, ") -> ", mark, target])
       [.line value]]

/-- The conversions through one field, with their targets. -/
def refField (isMut : Bool) (s : Selection) (alone : Bool) (f : FieldView) :
    Except Diagnostic (List (Text × Impl)) := do
  let member := (if isMut then "&mut " else "&") ++ f.member
  let fieldTy := f.ty.render
  let through (target : Text) : Text :=
    Text.concat [casted fieldTy (generic s.spec.path target), "::", s.spec.method,
      "(", member, ")"]
  let converts (g : ImplGenerics) (target : Text) : ImplGenerics :=
    g.addPredicate (Text.concat [fieldTy, ": ", generic s.spec.path target])
  let types := if f.options.types.isEmpty then s.container.types else f.options.types
  if f.forward then
    if !alone then
      throw (wrongShape s.decl s.spec "\x60forward\x60 requires exactly one enabled field")
    let g := s.generics.addParam (forwardParam ++ ": ?::core::marker::Sized")
    return [([], refImpl isMut (converts g forwardParam) s forwardParam
      (through forwardParam))]
  else if types.isEmpty then return [(fieldTy, refImpl isMut s.generics s fieldTy member)]
  else
    return types.map fun target =>
      if target == fieldTy then (target, refImpl isMut s.generics s target member)
      else (target, refImpl isMut (converts s.generics target) s target (through target))

/-- Claims the targets of one field, which no field may have claimed before. -/
def claimTargets (s : Selection) (f : FieldView) :
    List (Text × Text) → List Text → Except Diagnostic (List (Text × Text))
  | claimed, [] => .ok claimed
  | claimed, target :: rest =>
      match claimed.lookup target with
      | some other =>
          .error (wrongShape s.decl s.spec (Text.concat ["fields ", tick other, " and ",
            tick f.name, " both convert to ", tick target]))
      | none => claimTargets s f ((target, f.name) :: claimed) rest

/-- The conversions through every field, in order. -/
def refFields (isMut : Bool) (s : Selection) (alone : Bool) :
    List (Text × Text) → List FieldView → Except Diagnostic (List Impl)
  | _, [] => .ok []
  | claimed, f :: fs => do
      let own ← refField isMut s alone f
      let targets := if f.forward then [] else own.map (·.1)
      let claimed ← claimTargets s f claimed targets
      return own.map (·.2) ++ (← refFields isMut s alone claimed fs)

/-- `AsRef`, `AsMut`, `Borrow` and `BorrowMut`. -/
def refConversion (isMut : Bool) : Expand := fun decl spec => do
  let (s, fields) ← selectFields decl spec
  let count := fields.enabled.length
  if !s.container.types.isEmpty && count ≠ 1
    then throw (extraTypes s " on the struct" count)
  refFields isMut s (count = 1) [] fields.enabled

/-! ## From a number -/

/-- The discriminant of a variant without fields. -/
structure Discriminant where
  const : Text
  /-- The last explicit discriminant and the distance from it. -/
  base : Text
  offset : Nat
  value : Text

namespace Discriminant

def expr (d : Discriminant) : Text :=
  Text.concat ["(", d.base, ") + ", Text.ofNat d.offset]

def emptyValue (v : Variant) : Text :=
  Text.concat ["Self::", v.ident, match v.fields.style with
    | .tuple => "()"
    | .named => " \x7b\x7d"
    | .unit => []]

/-- The discriminants of the variants without fields. A variant is numbered by its
distance from the last explicit discriminant, whether it has fields or not. -/
def number : Text → Nat → List Variant → List Discriminant
  | _, _, [] => []
  | base, offset, v :: vs =>
      let (base, offset) :=
        if v.discriminant.isEmpty then (base, offset) else (v.discriminant.trim, 0)
      let rest := number base (offset + 1) vs
      if v.fields.list.isEmpty then
        ⟨"__DISCRIMINANT_" ++ v.ident, base, offset, emptyValue v⟩ :: rest
      else rest

def all (variants : List Variant) : List Discriminant := number "0" 0 variants

end Discriminant

/-- `TryFrom`: from the integer that represents a variant without fields. -/
def tryFromRepr (support : Support) : Expand := fun decl spec => do
  let (s, _) ← selectEnum decl spec
  let repr := (Attribute.reprInt? decl.attrs).getD "isize"
  let error := support.item "TryFromReprError"
  let (errorType, fail) :=
    failure s.container.error (generic error repr) (error ++ "::new(value)")
  let ds := Discriminant.all decl.data.variants
  let consts := ds.flatMap fun d =>
    [Code.line "#[allow(non_upper_case_globals)]",
     .line (Text.concat ["const ", d.const, ": ", repr, " = ", d.expr, ";"])]
  let arms := ds.map fun d => Arm.yields (.const d.const)
    (Text.concat [Core.ok, "(", d.value, ")"])
  let otherwise := Arm.yields .wild (Text.concat [Core.err, "(", fail, ")"])
  return [.block (s.generics.header (generic spec.path repr) decl.name)
    [.line (Text.concat ["type Error = ", errorType, ";"]), .blank, .inline,
     .block (Text.concat ["fn try_from(value: ", repr, ") -> ", Core.result,
       "<Self, Self::Error>"]) (consts ++ [.choose "value" (arms ++ [otherwise])])]]

/-! ## Into a payload -/

/-- The variants that convert to one payload in one form. -/
structure PayloadGroup where
  form : RefForm
  payload : Text
  members : List VariantView

/-- Adds a variant to the group of its payload and form. -/
def addToGroup (v : VariantView) (form : RefForm) (payload : Text) :
    List PayloadGroup → List PayloadGroup
  | [] => [⟨form, payload, [v]⟩]
  | g :: gs =>
      if g.form = form ∧ g.payload = payload
        then { g with members := g.members ++ [v] } :: gs
      else g :: addToGroup v form payload gs

def payloadGroups (variants : List VariantView) : List PayloadGroup :=
  variants.foldl (fun gs v =>
    let payload := Text.join ", " (v.fields.types.map Ty.render)
    (RefForm.ofSet v.accessors).foldl (fun gs form => addToGroup v form payload gs) gs) []

def component (n : Nat) : Text := "__" ++ Text.ofNat n

/-- A pattern that binds the fields that take part to numbered names, in order. -/
def payloadPattern (v : FieldsView) (path : Text) : Pat :=
  let bind (f : FieldView) : Pat := .bind (component (v.rank f))
  match v.style with
  | .tuple => .tuple path (v.all.map fun f => if f.enabled then bind f else .wild)
  | .named =>
      .record path (v.enabled.map fun f => (f.name, some (bind f))) (!v.skipped.isEmpty)
  | .unit => .unit path

def tryIntoImpl (support : Support) (s : Selection) (group : PayloadGroup) : Impl :=
  let types := (group.members.head?.map fun v => v.fields.types.map Ty.render).getD []
  let source := group.form.typeMark ++ s.self.render
  let target := tupleOf (types.map (group.form.typeMark ++ ·))
  let value := tupleOf ((List.range types.length).map component)
  let patterns := group.members.map fun v =>
    payloadPattern v.fields (Text.concat [s.decl.name, "::", v.name])
  let names := Text.join ", " (group.members.map (·.name))
  let error := support.item "TryIntoError"
  let (errorType, fail) := failure s.container.error (generic error source)
    (Text.concat [error, "::new(value, ", names.quoted, ", ", (tupleOf types).quoted, ")"])
  .block (headerFor (group.form.generics s.generics).parts
    (generic s.spec.path source) target)
    [.line (Text.concat ["type Error = ", errorType, ";"]), .blank, .inline,
     .block (Text.concat ["fn try_from(value: ", source, ") -> ", Core.result,
         "<Self, Self::Error>"])
       [.choose "value"
         [.yields (.anyOf patterns) (Text.concat [Core.ok, "(", value, ")"]),
          .yields .wild (Text.concat [Core.err, "(", fail, ")"])]]]

/-- `TryInto`: into the payload of a variant, one implementation for each distinct
payload and form. -/
def tryIntoPayload (support : Support) : Expand := fun decl spec => do
  let (s, variants) ← selectEnum decl spec
  return (payloadGroups (variants.filter (·.enabled))).map (tryIntoImpl support s)

end Deriver.Derive
