import Deriver.Bounds.Header
import Deriver.Code.Basic
import Deriver.Decl.Basic
import Deriver.Helper.Options

/-!
# What takes part in a derive

For one declaration and one derive, the options on the declaration, its variants
and its fields decide which variants and fields take part. The most specific
word counts: an item that is ignored or opts in decides for itself, and an item
without a mark takes part unless a sibling opted in.
-/

namespace Deriver

/-- A trait that can be derived. -/
structure TraitSpec where
  name : Text
  /-- The absolute path of the trait. -/
  path : Text
  /-- The method of the trait; empty for a trait that is only a mark. -/
  method : Text := []
  /-- The names of its helper attributes. -/
  attrs : List Text := []
  params : Params := {}

/-- A field with what its options come to. -/
structure FieldView where
  field : Field
  /-- The position in the field list. -/
  index : Nat
  enabled : Bool
  forward : Bool
  /-- Whether the field was ignored by its own options. -/
  skipped : Bool
  options : Options

namespace FieldView

/-- The identifier, or the index of a tuple field. -/
def name (f : FieldView) : Text := f.field.ident.getD (Text.ofNat f.index)

def ty (f : FieldView) : Ty := f.field.ty

def of (f : FieldView) (value : Text) : Text := Text.concat [value, ".", f.name]

/-- The field of `self`. -/
def member (f : FieldView) : Text := f.of "self"

def binding (f : FieldView) (tag : Text) : Text :=
  Text.concat ["__", tag, "_", Text.ofNat f.index]

end FieldView

/-- The fields of a struct or variant. -/
structure FieldsView where
  style : FieldStyle
  all : List FieldView

namespace FieldsView

def enabled (v : FieldsView) : List FieldView := v.all.filter (·.enabled)

def skipped (v : FieldsView) : List FieldView := v.all.filter (!·.enabled)

def types (v : FieldsView) : List Ty := v.enabled.map (·.ty)

def rank (v : FieldsView) (f : FieldView) : Nat :=
  (v.enabled.filter fun e => e.index < f.index).length

def isUnit (v : FieldsView) : Bool := v.all.isEmpty

def patternWith (v : FieldsView) (path : Text) (entry : FieldView → Pat) : Pat :=
  match v.style with
  | .tuple => .tuple path (v.all.map entry)
  | .named => .record path (v.all.map fun f => (f.name, some (entry f))) false
  | .unit => .unit path

def pattern (v : FieldsView) (path tag : Text) : Pat :=
  v.patternWith path fun f => .bind (f.binding tag)

/-- A pattern that binds the fields that take part and passes over the others. -/
def patternEnabled (v : FieldsView) (path tag : Text) : Pat :=
  match v.style with
  | .tuple =>
      .tuple path (v.all.map fun f => if f.enabled then .bind (f.binding tag) else .wild)
  | .named =>
      .record path (v.enabled.map fun f => (f.name, some (.bind (f.binding tag))))
        (!v.skipped.isEmpty)
  | .unit => .unit path

def construct (v : FieldsView) (path : Text) (expr : FieldView → Text) : Built :=
  ⟨v.style, path, v.all.map fun f => (f.name, expr f)⟩

end FieldsView

/-- The forms of access that are generated for a variant. -/
structure AccessorSet where
  owned : Bool
  ref : Bool
  refMut : Bool
  deriving DecidableEq, Repr

/-- A variant with what its options come to. -/
structure VariantView where
  variant : Variant
  enabled : Bool
  forward : Bool
  skipped : Bool
  accessors : AccessorSet
  options : Options
  fields : FieldsView

namespace VariantView

def name (v : VariantView) : Text := v.variant.ident

def path (v : VariantView) : Text := "Self::" ++ v.name

def anyPattern (v : VariantView) : Pat := v.variant.fields.anyPattern v.path

end VariantView

/-- What a selected declaration holds. -/
inductive ShapeView where
  | struct (fields : FieldsView)
  | enum (variants : List VariantView)

def ShapeView.types : ShapeView → List Ty
  | .struct fields => fields.types
  | .enum variants => variants.flatMap (·.fields.types)

/-- A declaration with what takes part in a derive. -/
structure Selection where
  decl : Decl
  spec : TraitSpec
  /-- The options on the declaration itself. -/
  container : Options
  shape : ShapeView

namespace Selection

/-- Whether an item takes part, from its own options and whether a sibling opted in. -/
def takesPart (own : Options) (siblingOptedIn : Bool) : Bool :=
  !own.ignore && (own.optsIn || !siblingOptedIn)

/-- One field. Forwarding is inherited from the variant and the declaration. -/
def viewField (inherited siblingOptedIn : Bool) (field : Field) (index : Nat)
    (own : Options) : FieldView :=
  let enabled := takesPart own siblingOptedIn
  { field := field, index := index, enabled := enabled
    forward := enabled && (own.forward || inherited)
    skipped := own.ignore, options := own }

def aboutField (f : Field) (i : Nat) (d : Diagnostic) : Diagnostic :=
  { d with member := Text.concat ["field \x60", f.ident.getD (Text.ofNat i), "\x60"] }

/-- Names the variant that a diagnostic is about, besides its field. -/
def aboutVariant (v : Variant) (d : Diagnostic) : Diagnostic :=
  let variant : Text := Text.concat ["variant \x60", v.ident, "\x60"]
  { d with member :=
      if d.member.isEmpty then variant
      else if d.member.has " of " then d.member
      else Text.concat [d.member, " of ", variant] }

def fieldOptions (spec : TraitSpec) (fields : List Field) :
    Except HelperFault (List Options) :=
  (fields.mapIdx fun i f => (i, f)).mapM fun (i, f) =>
    (Options.ofAttributes f.attrs spec.attrs .field spec.params).mapError
      (.map (aboutField f i))

def viewFields (spec : TraitSpec) (inherited : Bool) (fields : Fields) :
    Except HelperFault FieldsView := do
  let own ← fieldOptions spec fields.list
  let optedIn := own.any (·.optsIn)
  let views :=
    (fields.list.zip own).mapIdx fun i (f, o) => viewField inherited optedIn f i o
  return ⟨fields.style, views⟩

/-- The forms of access of a variant: those it names, or else those the declaration
names, or else the owned one. -/
def accessorsOf (container own : Options) : AccessorSet :=
  if own.accessors then ⟨own.owned, own.ref, own.refMut⟩
  else if container.accessors then ⟨container.owned, container.ref, container.refMut⟩
  else ⟨true, false, false⟩

/-- One variant. The fields of a variant that is left out are left out too. -/
def viewVariant (spec : TraitSpec) (container : Options) (optedIn : Bool) (v : Variant)
    (own : Options) : Except HelperFault VariantView := do
  let fields ← (viewFields spec (own.forward || container.forward) v.fields).mapError
    (.map (aboutVariant v))
  let enabled := takesPart own optedIn
  let fields := if enabled then fields
    else { fields with all := fields.all.map fun f => { f with enabled := false } }
  return { variant := v, enabled := enabled
           forward := enabled && (own.forward || container.forward)
           skipped := own.ignore, accessors := accessorsOf container own, options := own
           fields := fields }

/-- The variants of an enum. The options of all of them are read before any field's. -/
def viewVariants (spec : TraitSpec) (container : Options) (variants : List Variant) :
    Except HelperFault (List VariantView) := do
  let own ← variants.mapM fun v =>
    (Options.ofAttributes v.attrs spec.attrs .variant spec.params).mapError
      (.map (aboutVariant v))
  let optedIn := own.any (·.optsIn)
  (variants.zip own).mapM fun (v, o) => viewVariant spec container optedIn v o

/-- Says which derive and declaration a diagnostic is about, if it does not say so. -/
def aboutDecl (spec : TraitSpec) (decl : Decl) (d : Diagnostic) : Diagnostic :=
  if d.trait.isEmpty then d.withSubject spec.name decl.name else d

/-- The diagnostic of a fault in the helper attributes of a declaration. A format
without a text stops the whole expansion. -/
def diagnose (spec : TraitSpec) (decl : Decl) : HelperFault → Diagnostic
  | .diagnostic d => aboutDecl spec decl d
  | .noFormatText =>
      decl.pos.diagnose
        (.codegenFailed (Text.concat ["expanding \x60", spec.name, "\x60 for \x60",
        decl.name,
        "\x60 panicked: runtime error: invalid memory address or nil pointer dereference"]))

/-- What takes part in a derive for a declaration. Nothing is derived for unions. -/
def ofDecl (decl : Decl) (spec : TraitSpec) : Except Diagnostic Selection :=
  let about {α : Type} (r : Except HelperFault α) : Except Diagnostic α :=
    r.mapError (diagnose spec decl)
  match decl.data with
  | .union _ => .error (decl.pos.diagnose (.union spec.name decl.name))
  | .struct fields => about do
      let container ← Options.ofAttributes decl.attrs spec.attrs .struct spec.params
      return ⟨decl, spec, container, .struct (← viewFields spec container.forward fields)⟩
  | .enum variants => about do
      let container ← Options.ofAttributes decl.attrs spec.attrs .enum spec.params
      return ⟨decl, spec, container, .enum (← viewVariants spec container variants)⟩

end Selection

/-!
## What a derive asks of a declaration

A derive that wants a struct, at least one field or exactly one asks for it here
and gets the diagnostic that says what is missing.
-/

/-- The one field that takes part, with the header pieces of the declaration. -/
structure SingleField where
  field : FieldView
  trait : Text
  header : HeaderParts

namespace SingleField

def casted (s : SingleField) : Text :=
  Text.concat ["<", s.field.ty.render, " as ", s.trait, ">"]

end SingleField

namespace Selection

/-- The diagnostic of a cause that names derive and declaration, at the declaration. -/
def refuse (s : Selection) (cause : Text → Text → Cause) : Diagnostic :=
  s.decl.pos.diagnose (cause s.spec.name s.decl.name)

def generics (s : Selection) : ImplGenerics := .ofGenerics s.decl.generics

def self (s : Selection) : Ty := s.decl.selfType

def structFields (s : Selection) : Except Diagnostic FieldsView :=
  match s.shape with
  | .struct fields => .ok fields
  | .enum _ => .error (s.refuse (.wrongShape · · "expected a struct, found an enum"))

def enumVariants (s : Selection) : Except Diagnostic (List VariantView) :=
  match s.shape with
  | .enum variants => .ok variants
  | .struct _ => .error (s.refuse (.wrongShape · · "expected an enum, found a struct"))

def enabledVariants (s : Selection) : Except Diagnostic (List VariantView) := do
  return (← s.enumVariants).filter (·.enabled)

def fieldsTakingPart (s : Selection) : List Field :=
  match s.shape with
  | .struct fields => fields.enabled.map (·.field)
  | .enum _ => []

def variantsTakingPart (s : Selection) : List Variant :=
  match s.shape with
  | .struct _ => []
  | .enum variants => (variants.filter (·.enabled)).map (·.variant)

/-- The fields of a struct that has some and of which some take part. -/
def someFields (s : Selection) : Except Diagnostic FieldsView := do
  let fields ← s.structFields
  if fields.isUnit then throw (s.refuse .unitStruct)
  if fields.enabled.isEmpty then throw (s.refuse .allFieldsSkipped)
  return fields

/-- The one field that takes part, of what is called `subject`. -/
def singleOf (s : Selection) (fields : FieldsView) (subject : Text) :
    Except Diagnostic SingleField :=
  match fields.enabled with
  | [f] => .ok ⟨f, s.spec.path, s.generics.parts⟩
  | fs => .error (s.decl.pos.diagnose (.fieldCount s.spec.name subject fs.length))

def singleField (s : Selection) : Except Diagnostic SingleField := do
  let fields ← s.structFields
  if fields.isUnit then throw (s.refuse .unitStruct)
  s.singleOf fields s.decl.name

def variantField (s : Selection) (v : VariantView) : Except Diagnostic SingleField :=
  s.singleOf v.fields (Text.concat [s.decl.name, "::", v.name])

def someVariantFields (s : Selection) : Except Diagnostic Unit := do
  let fields := (← s.enumVariants).flatMap (·.fields.all)
  if !fields.isEmpty && !fields.any (·.enabled)
    then throw (s.refuse .allVariantFieldsSkipped)

end Selection

end Deriver
