import Deriver.Code.Basic
import Deriver.Select.Basic
import Deriver.Support.Crate

/-!
# Expansions

An expansion is the implementations that one derive adds to one declaration.
What the families of derives share is here: asking for a struct or an enum,
and the reference forms in which a conversion can be asked for.
-/

namespace Deriver

/-- What one derive generates for one declaration. -/
structure Expansion where
  trait : Text
  impls : List Impl
  /-- What is worth saying although the expansion succeeded. -/
  warnings : List Diagnostic := []

def Expansion.code (e : Expansion) : Text := Impl.renderAll e.impls

/-- A derive that may fail on a declaration. -/
abbrev Expand := Decl → TraitSpec → Except Diagnostic (List Impl)

namespace Derive

def wrongShape (decl : Decl) (spec : TraitSpec) (reason : Text) : Diagnostic :=
  decl.pos.diagnose (.wrongShape spec.name decl.name reason)

def tick (t : Text) : Text := Cause.tick t

/-- The fields that take part, for a derive that is only for structs. -/
def selectStruct (decl : Decl) (spec : TraitSpec) :
    Except Diagnostic (Selection × FieldsView) := do
  if decl.isEnum then
    throw (wrongShape decl spec (tick spec.name ++ " can only be derived for structs"))
  let s ← Selection.ofDecl decl spec
  return (s, ← s.structFields)

/-- Like `selectStruct`, for a derive that needs at least one field. -/
def selectFields (decl : Decl) (spec : TraitSpec) :
    Except Diagnostic (Selection × FieldsView) := do
  let (s, _) ← selectStruct decl spec
  return (s, ← s.someFields)

/-- The variants, for a derive that is only for enums. -/
def selectEnum (decl : Decl) (spec : TraitSpec) :
    Except Diagnostic (Selection × List VariantView) := do
  if decl.data matches .struct _ then
    throw (wrongShape decl spec (tick spec.name ++ " can only be derived for enums"))
  let s ← Selection.ofDecl decl spec
  return (s, ← s.enumVariants)

/-- The types in parentheses; one type stands alone. -/
def tupleOf (types : List Text) : Text :=
  match types with
  | [type] => type
  | _ => Text.concat ["(", Text.join ", " types, ")"]

def generic (path arg : Text) : Text := Text.concat [path, "<", arg, ">"]

def casted (ty trait : Text) : Text := Text.concat ["<", ty, " as ", trait, ">"]

def closedUnder (trait : Text) (t : Ty) : Text :=
  Text.concat [trait, "<Output = ", t.render, ">"]

/-- The header of an implementation for a type other than the declared one. -/
def headerFor (parts : HeaderParts) (trait target : Text) : Text :=
  Text.concat ["impl", parts.params, " ", trait, " for ", target,
    if parts.clause.isEmpty then [] else " " ++ parts.clause]

def refLifetime : Text := "'__derive"

/-- By value, by reference or by mutable reference. -/
inductive RefForm where
  | owned
  | ref
  | refMut
  deriving DecidableEq, Repr

namespace RefForm

def all : List RefForm := [.owned, .ref, .refMut]

/-- The reference in front of a type, with its lifetime. -/
def typeMark : RefForm → Text
  | .owned => []
  | .ref => Text.concat ["&", refLifetime, " "]
  | .refMut => Text.concat ["&", refLifetime, " mut "]

def borrow : RefForm → Text
  | .owned => []
  | .ref => "&"
  | .refMut => "&mut "

def on (set : AccessorSet) : RefForm → Bool
  | .owned => set.owned
  | .ref => set.ref
  | .refMut => set.refMut

/-- The forms of a set, in order. -/
def ofSet (set : AccessorSet) : List RefForm := all.filter (on set)

/-- Generics for an implementation in a form: a reference brings its lifetime. -/
def generics (form : RefForm) (g : ImplGenerics) : ImplGenerics :=
  if form = .owned then g else g.addParam refLifetime

end RefForm

/-- The error type of a conversion and the expression of its failure: the default
ones, or those of an error that was asked for. -/
def failure (custom : Option CustomError) (type value : Text) : Text × Text :=
  match custom with
  | none => (type, value)
  | some e =>
      let conv := if e.conv.isEmpty then Core.fromTrait ++ "::from" else e.conv
      (e.type, Text.concat [conv, "(", value, ")"])

end Derive

end Deriver
