import Deriver.Derive.Basic
import Deriver.Text.Quoted

/-!
# Functions for variants

Functions that ask for a variant or take it apart. All of them for one enum stand
in one implementation, a blank line between neighbours.
-/

namespace Deriver.Derive

/-- What a function does with a value of its variant. -/
inductive Accessor where
  /-- `Some` of the payload, or `None` -/
  | asVariant
  /-- the payload, or a panic -/
  | unwrap
  /-- the payload, or the value itself as an error -/
  | tryInto
  /-- the payload, or an error that says what was called -/
  | tryUnwrap
  deriving DecidableEq, Repr

namespace RefForm

def ending : RefForm → Text
  | .owned => []
  | .ref => "_ref"
  | .refMut => "_mut"

def receiver : RefForm → Text
  | .owned => "self"
  | .ref => "&self"
  | .refMut => "&mut self"

/-- What the function gets, in words. -/
def noun : RefForm → Text
  | .owned => "value"
  | .ref => "reference"
  | .refMut => "mutable reference"

end RefForm

/-- A variant taken apart: the pattern, the types of the payload and its value. -/
structure Payload where
  pattern : Pat
  types : List Text
  value : Text

/-- The payload of a variant; only a tuple has one. -/
def payloadOf (v : VariantView) : Payload :=
  if v.fields.style = .tuple then
    let names := (List.range v.fields.all.length).map fun i => "__" ++ Text.ofNat i
    ⟨.tuple v.path (names.map .bind), v.fields.all.map (·.ty.render), tupleOf names⟩
  else ⟨.unit v.path, [], "()"⟩

def Payload.type (p : Payload) (form : RefForm) : Text :=
  tupleOf (p.types.map (form.borrow ++ ·))

/-- One function: its name, the comment above it, its attributes, what it returns,
and the arms of the match it consists of. -/
structure AccessorFn where
  name : Text
  doc : List Text
  attrs : List Text
  returns : Text
  arms : List Arm

def Accessor.verb : Accessor → Text
  | .asVariant => "as_"
  | .unwrap => "unwrap_"
  | .tryInto => "try_into_"
  | .tryUnwrap => "try_unwrap_"

/-- The function of a variant in a form; `all` are the variants of the enum. -/
def accessorFn (support : Support) (kind : Accessor) (name : Text) (all : List VariantView)
    (v : VariantView) (form : RefForm) : AccessorFn :=
  let fn := Text.concat [kind.verb, Casing.snakeCase v.name, form.ending]
  let p := payloadOf v
  let qualified := tick (Text.concat [name, "::", v.name])
  let others := all.filter (·.name != v.name)
  let success (wrap : Text) := Arm.yields p.pattern (Text.concat [wrap, "(", p.value, ")"])
  match kind with
  | .asVariant =>
      { name := fn
        doc := [Text.concat ["Attempts to convert this ", form.noun, " to the ", qualified,
            " variant."],
          "Returns \x60Some(..)\x60 if successful and \x60None\x60 if this value is of any other type."]
        attrs := ["#[inline]", "#[must_use]"]
        returns := generic Core.option (p.type form)
        arms := success Core.some :: if 1 < all.length then [.yields .wild Core.none]
          else [] }
  | .unwrap =>
      { name := fn
        doc := [Text.concat ["Unwraps this ", form.noun, " to the ",
          qualified, " variant."], "Panics if this value is of any other type."]
        attrs := ["#[inline]", "#[track_caller]"]
        returns := p.type form
        arms := .yields p.pattern p.value :: others.map fun other =>
          .yields other.anyPattern (Text.concat ["::core::panic!(",
            (Text.concat ["called \x60", name, "::", fn, "()\x60 on a ", tick other.name,
              " value"]).quoted, ")"]) }
  | .tryInto =>
      { name := fn
        doc := [Text.concat ["Attempts to convert this ", form.noun, " to the ", qualified,
            " variant."],
          "Returns the original value if this value is of any other type."]
        attrs := ["#[inline]"]
        returns := Text.concat [Core.result, "<", p.type form, ", ", form.borrow, "Self>"]
        arms := success Core.ok ::
          if 1 < all.length then [.yields (.bind "val") (Core.err ++ "(val)")] else [] }
  | .tryUnwrap =>
      let error := support.item "TryUnwrapError"
      { name := fn
        doc := [Text.concat ["Attempts to unwrap this ", form.noun, " to the ", qualified,
            " variant."],
          Text.concat ["Returns a \x60TryUnwrapError\x60 with the original value",
            " if this value is of any other type."]]
        attrs := ["#[inline]", "#[track_caller]"]
        returns := Text.concat [Core.result, "<", p.type form, ", ", error,
          "<", form.borrow, "Self>>"]
        arms := success Core.ok :: others.map fun other =>
          .yields (.named "val" other.anyPattern) (Text.concat [Core.err, "(", error,
            "::new(val, ", name.quoted, ", ", other.name.quoted, ", ", fn.quoted, "))"]) }

def AccessorFn.code (f : AccessorFn) (form : RefForm) : List Code :=
  f.doc.map (fun d => .line ("/// " ++ d)) ++ f.attrs.map .line ++
    [.block (Text.concat ["pub fn ", f.name, "(", form.receiver, ") -> ", f.returns])
      [.choose "self" f.arms]]

/-- The function that asks whether a value is of a variant. -/
def isVariantFn (v : VariantView) : List Code :=
  [.line (Text.concat ["/// Returns \x60true\x60 if this value is of type ", tick v.name,
     ". Returns \x60false\x60 otherwise"]),
   .inline, .line "#[must_use]",
   .block (Text.concat ["pub const fn is_", Casing.snakeCase v.name, "(&self) -> bool"])
     [.line (Text.concat ["::core::matches!(self, ", v.anyPattern.render, ")"])]]

def spaced (groups : List (List Code)) : List Code := List.intercalate [.blank] groups

/-- `IsVariant`. -/
def isVariant : Expand := fun decl spec => do
  let (s, variants) ← selectEnum decl spec
  return [.block (s.generics.inherentHeader decl.name)
    (spaced ((variants.filter (·.enabled)).map isVariantFn))]

/-- `AsVariant`, `Unwrap`, `TryIntoVariant` and `TryUnwrap`. -/
def variantAccessors (kind : Accessor) (support : Support) : Expand := fun decl spec => do
  let (s, variants) ← selectEnum decl spec
  let enabled := variants.filter (·.enabled)
  match enabled.find? fun v => v.fields.style = .named && !v.fields.isUnit with
  | some v =>
      throw (wrongShape decl spec (Text.concat [tick spec.name,
        " cannot destructure the named fields of ",
        tick (Text.concat [decl.name, "::", v.name])]))
  | none => pure ()
  let fns := enabled.flatMap fun v => (RefForm.ofSet v.accessors).map fun form =>
    (accessorFn support kind decl.name variants v form).code form
  return [.block (s.generics.inherentHeader decl.name) (spaced fns)]

end Deriver.Derive
