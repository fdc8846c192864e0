import Deriver.Derive.Basic
import Deriver.Format.Use
import Deriver.Text.Quoted

/-!
# Display and the other formatting traits

A struct or variant is written by its own format, if it has one. Without one, a
unit is written by name and a single field by the trait itself. A format on an
enum is shared by its variants; there `_variant` stands for what the variant
would write by itself.
-/

namespace Deriver.Derive

/-- The implementation of a formatting trait around the body of its method. -/
def formatImpl (g : ImplGenerics) (s : Selection) (body : List Code) : Impl :=
  .block (g.header s.spec.path s.decl.name)
    [.block (Text.concat ["fn fmt(&self, ", FormatSpec.formatter,
        ": &mut ::core::fmt::Formatter<'_>) -> ::core::fmt::Result"])
      [.reflow body]]

def attrName (spec : TraitSpec) : Text := spec.attrs.headD []

def writeName (name : Text) : Text :=
  Text.concat [FormatSpec.formatter, ".write_str(", (plainName name).quoted, ")"]

def needsFormat (pos : Position) (spec : TraitSpec) (subject : Text) (count : Nat) :
    Diagnostic :=
  pos.diagnose (.missingFormat spec.name subject
    (Text.concat ["it has ", Text.ofNat count, " fields"]))

/-- The body for a struct, with the predicates it needs. -/
def displayStruct (s : Selection) (fields : FieldsView) :
    Except Diagnostic (ImplGenerics × List Code) :=
  match s.container.format, fields.all with
  | some f, _ => do
      let uses ← f.uses (attrName s.spec)
      return (fields.boundUses s.self uses s.generics,
        (fields.bindings f.mentioned).map .line ++ [.line f.write])
  | none, [] => .ok (s.generics, [.line (writeName s.decl.name)])
  | none, [field] =>
      .ok (s.generics.addFieldBounds [field.ty] s.self fun _ => s.spec.path,
        [.line (Text.concat
          [s.spec.path, "::fmt(&", field.member, ", ", FormatSpec.formatter, ")"])])
  | none, all => .error (needsFormat s.decl.pos s.spec s.decl.name all.length)

/-! ## Enums -/

/-- A format shared by the variants of an enum, with what it formats. -/
structure SharedFormat where
  format : FormatSpec
  uses : List FormatUse

/-- The name that stands for a variant's own output in a shared format. -/
def variantName : Text := "_variant"

def SharedFormat.delegates (f : SharedFormat) : Bool := f.uses.any (·.expr == variantName)

/-- The shared format of an enum. The output of a variant cannot be written in any
particular way. -/
def sharedFormat (s : Selection) : Except Diagnostic (Option SharedFormat) :=
  match s.container.format with
  | none => .ok none
  | some f => do
      let uses ← f.uses (attrName s.spec)
      if uses.any fun u => u.expr == variantName && (u.trait != "Display" ||
        !u.spec.isEmpty) then
        throw (f.refuse (attrName s.spec)
          "the \x60_variant\x60 placeholder cannot carry format specifiers")
      return some ⟨f, uses⟩

/-- What a variant writes by itself, with the predicates it needs. In a shared
format it is a value, otherwise it is the call that writes it. -/
def variantOutput (placeholder : Text) (s : Selection) (inShared : Bool) (v : VariantView)
    (g : ImplGenerics) : Except Diagnostic (ImplGenerics × Text) :=
  match v.options.format, v.fields.all with
  | some f, _ => do
      let uses ← f.uses (attrName s.spec)
      return (v.fields.boundUses s.self uses g, if inShared then f.arguments else f.write)
  | none, [] => .ok (g, if inShared then (plainName v.name).quoted else writeName v.name)
  | none, [field] =>
      let text := if inShared
        then Text.concat ["&::core::format_args!(", placeholder.quoted, ", ",
          field.formatName, ")"]
        else Text.concat [s.spec.path, "::fmt(", field.formatName, ", ",
          FormatSpec.formatter, ")"]
      .ok (g.addFieldBounds [field.ty] s.self fun _ => s.spec.path, text)
  | none, all =>
      .error (needsFormat v.variant.pos s.spec
        (Text.concat [s.decl.name, "::", v.name]) all.length)

/-- The names that the arm of a variant uses. -/
def usedNames (shared : Option SharedFormat) (delegates : Bool) (v : VariantView) :
    List Text :=
  let own := match v.options.format, v.fields.all with
    | some f, _ => f.mentioned
    | none, [field] => [field.formatName]
    | none, _ => []
  ((shared.map fun f => f.format.mentioned).getD []) ++ if delegates then own else []

/-- The arm of a variant, with the predicates it needs. -/
def displayArm (placeholder : Text) (s : Selection) (shared : Option SharedFormat)
    (g : ImplGenerics) (v : VariantView) : Except Diagnostic (ImplGenerics × Arm) := do
  let delegates := (shared.map SharedFormat.delegates).getD true
  if v.options.format.isNone && v.fields.isUnit && s.spec.name != "Display" && delegates
    then
    throw (v.variant.pos.diagnose (.missingFormat s.spec.name
      (Text.concat [s.decl.name, "::", v.name])
      "only \x60Display\x60 writes unit variants by name"))
  let pat := v.fields.formatPattern v.path (usedNames shared delegates v)
  match shared with
  | none =>
      let (g, text) ← variantOutput placeholder s false v g
      return (g, .yields pat text)
  | some f =>
      let g := v.fields.boundUses s.self f.uses g
      if !delegates then return (g, .yields pat f.format.write)
      let (g, text) ← variantOutput placeholder s true v g
      return (g, .chooses pat text [.yields (.bind variantName) f.format.write])

/-- The arms of all variants, the predicates collected from left to right. -/
def displayArms (placeholder : Text) (s : Selection) (shared : Option SharedFormat) :
    ImplGenerics → List VariantView → Except Diagnostic (ImplGenerics × List Arm)
  | g, [] => .ok (g, [])
  | g, v :: vs => do
      let (g, arm) ← displayArm placeholder s shared g v
      let (g, arms) ← displayArms placeholder s shared g vs
      return (g, arm :: arms)

/-- `Display` and its like; `placeholder` writes a single field by the trait. -/
def display (placeholder : Text) : Expand := fun decl spec => do
  let s ← Selection.ofDecl decl spec
  let (g, body) ← match s.shape with
    | .struct fields => displayStruct s fields
    | .enum [] => pure (s.generics, [.chooseNone "*self"])
    | .enum variants => do
        let (g, arms) ← displayArms placeholder s (← sharedFormat s) s.generics variants
        pure (g, [.choose "self" arms])
  return [formatImpl g s body]

/-!
## Debug

Structs and variants are written the way the built-in derive writes them. A
format replaces the whole output, or the value of one field. Skipped fields are
left out, which the output then says.
-/

/-- Fails if a field has a format that the format around it leaves unused. -/
def checkFieldFormats (s : Selection) (subject : Text) (own : Option FormatSpec)
    (fields : FieldsView) : Except Diagnostic Unit :=
  match own, fields.all.find? (·.options.format.isSome) with
  | some format, some f =>
      .error (wrongShape s.decl s.spec
        (Text.concat ["field ", tick f.name, " of ", tick subject,
        " has its own format string, but ", tick subject,
        " is written with #[debug(", format.lit, ", ...)]"]))
  | _, _ => .ok ()

/-- The names that the output of a struct or variant uses. -/
def debugNames (own : Option FormatSpec) (fields : FieldsView) : List Text :=
  match own with
  | some f => f.mentioned
  | none => fields.enabled.flatMap fun f =>
      match f.options.format with
      | some format => format.mentioned
      | none => [f.formatName]

/-- The value of one field and the predicates it needs. -/
def debugField (s : Selection) (fields : FieldsView) (g : ImplGenerics) (f : FieldView) :
    Except Diagnostic (ImplGenerics × Text) := do
  match f.options.format with
  | some format =>
      let uses ← format.uses (attrName s.spec)
      return (fields.boundUses s.self uses g, format.arguments)
  | none => return (g.addFieldBounds [f.ty] s.self fun _ => s.spec.path, f.formatName)

/-- The values of the fields that take part, the predicates collected from left to
right. -/
def debugFields (s : Selection) (fields : FieldsView) :
    ImplGenerics → List FieldView → Except Diagnostic (ImplGenerics × List Text)
  | g, [] => .ok (g, [])
  | g, f :: fs => do
      let (g, value) ← debugField s fields g f
      let call := if fields.style = .named
        then Text.concat [".field(", (plainName (f.field.ident.getD [])).quoted,
          ", ", value, ")"]
        else Text.concat [".field(", value, ")"]
      let (g, calls) ← debugFields s fields g fs
      return (g, call :: calls)

/-- The expression that writes a struct or variant, over several lines if it names
fields. -/
def debugOutput (s : Selection) (name : Text) (own : Option FormatSpec)
    (fields : FieldsView)
    (g : ImplGenerics) : Except Diagnostic (ImplGenerics × Text) := do
  match own, fields.style with
  | some f, _ =>
      let uses ← f.uses (attrName s.spec)
      return (fields.boundUses s.self uses g, f.write)
  | none, .unit => return (g, writeName name)
  | none, style =>
      let builder := if style = .named then ".debug_struct(" else ".debug_tuple("
      let (g, calls) ← debugFields s fields g fields.enabled
      let finish : Text :=
        if fields.skipped.isEmpty then ".finish()" else ".finish_non_exhaustive()"
      return (g, Text.concat
        (Text.concat [FormatSpec.formatter, builder, (plainName name).quoted, ")"]
        :: (calls ++ [finish]).map fun call => Text.concat ["\n", Code.indentUnit, call]))

/-- The arm of a variant. Output over several lines gets a block. -/
def debugArm (s : Selection) (g : ImplGenerics) (v : VariantView) :
    Except Diagnostic (ImplGenerics × Arm) := do
  let own := v.options.format
  checkFieldFormats s (Text.concat [s.decl.name, "::", v.name]) own v.fields
  let (g, out) ← debugOutput s v.name own v.fields g
  let pat := v.fields.formatPattern v.path (debugNames own v.fields)
  return (g, if out.contains 10 then .runs pat [.reflow [.line out]] else .yields pat out)

/-- The arms of all variants, the predicates collected from left to right. -/
def debugArms (s : Selection) :
    ImplGenerics → List VariantView → Except Diagnostic (ImplGenerics × List Arm)
  | g, [] => .ok (g, [])
  | g, v :: vs => do
      let (g, arm) ← debugArm s g v
      let (g, arms) ← debugArms s g vs
      return (g, arm :: arms)

/-- `Debug`. -/
def debug : Expand := fun decl spec => do
  let s ← Selection.ofDecl decl spec
  match s.shape with
  | .struct fields =>
      let own := s.container.format
      checkFieldFormats s decl.name own fields
      let (g, out) ← debugOutput s decl.name own fields s.generics
      return [formatImpl g s
        ((fields.bindings (debugNames own fields)).map .line ++ [.reflow [.line out]])]
  | .enum [] => return [formatImpl s.generics s [.chooseNone "*self"]]
  | .enum variants =>
      let (g, arms) ← debugArms s s.generics variants
      return [formatImpl g s [.choose "self" arms]]

end Deriver.Derive
