import Deriver.Derive.Access
import Deriver.Derive.Arithmetic
import Deriver.Derive.Construction
import Deriver.Derive.Conversion
import Deriver.Derive.Display
import Deriver.Derive.Error
import Deriver.Derive.Parsing
import Deriver.Derive.Variants

/-!
# The catalogue

Every derive the tool knows, in the order in which listings show them: its name,
its family, the trait it implements, the keys of its helper attribute, and how
it expands.
-/

namespace Deriver

/-- A derive of the catalogue. -/
structure Derive where
  spec : TraitSpec
  family : Text
  expand : Support → Decl → TraitSpec → Except Diagnostic (List Impl × List Diagnostic)

namespace Derive

def name (d : Derive) : Text := d.spec.name

def run (d : Derive) (support : Support) (decl : Decl) : Except Diagnostic Expansion := do
  let (impls, warnings) ← d.expand support decl d.spec
  return ⟨d.spec.name, impls, warnings⟩

def entry (family : Text) (name path method : Text) (params : Params)
    (expand : Support → Expand) : Derive where
  spec := { name := name, path := path, method := method, attrs := [Casing.snakeCase name]
            params := params }
  family := family
  expand := fun support decl spec => do return (← expand support decl spec, [])

def skipKeys : List Text := ["ignore", "skip"]

def accessorKeys : List Text := ["owned", "ref", "ref_mut"]

def fieldSkip : Params := { field := skipKeys }

def variantSkip : Params := { variant := skipKeys }

def forwardParams : Params :=
  { enum := ["forward"], struct := ["forward"], field := "forward" :: skipKeys }

/-- Forms of access can be asked for on an enum and its variants. -/
def accessorParams : Params := { enum := accessorKeys, variant := skipKeys ++ accessorKeys }

/-- References convert to the field's type, to what it converts to, or to given types. -/
def refParams : Params :=
  { struct := ["forward", "types"], field := "forward" :: "types" :: skipKeys }

def formatParams : Params :=
  { enum := ["format"], variant := ["format"], struct := ["format"] }

/-- An operator of the standard library, whose method is `method`. -/
def operatorEntry (params : Params) (expand : Support → Expand) (name method : Text) :
    Derive :=
  entry "arithmetic" name ("::core::ops::" ++ name) method params expand

def plainOperator (params : Params) (expand : Support → Expand) (name : Text) : Derive :=
  operatorEntry params expand name name.fold

def assignment (isScalar : Bool) (name : Text) : Derive :=
  operatorEntry fieldSkip (fun _ => assignLike isScalar) (name ++ "Assign")
    (name.fold ++ "_assign")

def formatting (name placeholder : Text) : Derive :=
  entry "formatting" name (Core.fmt name) "fmt" formatParams fun _ => display placeholder

def withAttrs (attrs : List Text) (d : Derive) : Derive :=
  { d with spec := { d.spec with attrs := attrs } }

def parsing : Derive where
  spec := (entry "conversion" "FromStr" "::core::str::FromStr" "from_str"
    { enum := ["rename_all"], variant := skipKeys } fun _ _ _ => .ok []).spec
  family := "conversion"
  expand := fromStr

def conversions : List Derive :=
  [entry "conversion" "From" Core.fromTrait "from"
     { struct := ["types"], field := skipKeys, variant := "types" :: skipKeys }
     fun _ => fromPayload,
   entry "conversion" "Into" Core.fromTrait "from"
     { struct := "types" :: accessorKeys, field := skipKeys } fun _ => intoPayload,
   entry "conversion" "TryFrom" "::core::convert::TryFrom" "try_from" { enum := ["error"] }
     tryFromRepr,
   entry "conversion" "TryInto" "::core::convert::TryFrom" "try_from"
     { enum := "error" :: accessorKeys, variant := skipKeys ++ accessorKeys }
       tryIntoPayload,
   entry "conversion" "AsRef" "::core::convert::AsRef" "as_ref" refParams fun _ =>
     refConversion false,
   entry "conversion" "AsMut" "::core::convert::AsMut" "as_mut" refParams fun _ =>
     refConversion true,
   entry "conversion" "Borrow" "::core::borrow::Borrow" "borrow" refParams fun _ =>
     refConversion false,
   entry "conversion" "BorrowMut" "::core::borrow::BorrowMut" "borrow_mut"
     refParams fun _ =>
     refConversion true,
   parsing]

def operators : List Derive :=
  (["Add", "Sub", "BitAnd", "BitOr", "BitXor"] : List Text).map
    (plainOperator fieldSkip addLike)
  ++ (["Mul", "Div", "Rem", "Shl", "Shr"] : List Text).map
    (plainOperator fieldSkip fun _ => mulLike)
  ++ (["Neg", "Not"] : List Text).map (plainOperator {} notLike)
  ++ (["Add", "Sub", "BitAnd", "BitOr", "BitXor"] : List Text).map (assignment false)
  ++ (["Mul", "Div", "Rem", "Shl", "Shr"] : List Text).map (assignment true)

/-- Dereferencing, indexing, iterating and reading. -/
def access : List Derive :=
  [entry "dereference" "Deref" "::core::ops::Deref" "deref" forwardParams fun _ =>
    deref false,
   entry "dereference" "DerefMut" "::core::ops::DerefMut" "deref_mut" forwardParams fun _ =>
     deref true,
   entry "dereference" "DerefToInner" "::core::ops::Deref" "deref" fieldSkip fun _ =>
     derefToInner false,
   entry "dereference" "DerefMutToInner" "::core::ops::DerefMut" "deref_mut"
     fieldSkip fun _ =>
     derefToInner true,
   entry "indexing" "Index" "::core::ops::Index" "index" fieldSkip fun _ => index false,
   entry "indexing" "IndexMut" "::core::ops::IndexMut" "index_mut" fieldSkip fun _ =>
     index true,
   entry "iteration" "Iterator" "::core::iter::Iterator" "next" fieldSkip fun _ => iterator,
   entry "iteration" "IntoIterator" "::core::iter::IntoIterator" "into_iter"
     { struct := accessorKeys, field := skipKeys ++ accessorKeys } fun _ => intoIterator,
   entry "io" "Read" "::std::io::Read" "read" fieldSkip fun _ => read]

/-- Comparisons, functions for variants, sums and errors. -/
def others : List Derive :=
  [(entry "equality" "PartialEq" "::core::cmp::PartialEq" "eq" fieldSkip fun _ =>
     equality false).withAttrs ["partial_eq", "eq"],
   (entry "equality" "Eq" "::core::cmp::Eq" [] fieldSkip fun _ =>
     equality true).withAttrs ["partial_eq", "eq"],
   entry "variants" "IsVariant" [] "is" variantSkip fun _ => isVariant,
   entry "variants" "AsVariant" [] [] accessorParams (variantAccessors .asVariant),
   entry "variants" "Unwrap" [] [] accessorParams (variantAccessors .unwrap),
   entry "variants" "TryIntoVariant" [] [] accessorParams (variantAccessors .tryInto),
   entry "variants" "TryUnwrap" [] [] accessorParams (variantAccessors .tryUnwrap),
   entry "summation" "Sum" "::core::iter::Sum" "sum" {} fun _ =>
     fold "::core::ops::Add" "add",
   entry "summation" "Product" "::core::iter::Product" "product" {} fun _ =>
     fold "::core::ops::Mul" "mul",
   entry "errors" "Error" "::std::error::Error" "source"
     { variant := skipKeys
       field := "source" :: "not(source)" :: "backtrace" :: "not(backtrace)" ::
         skipKeys } error]

def formats : List Derive :=
  [formatting "Display" "\x7b\x7d", formatting "Binary" "\x7b:b\x7d",
   formatting "Octal" "\x7b:o\x7d", formatting "LowerHex" "\x7b:x\x7d",
   formatting "UpperHex" "\x7b:X\x7d", formatting "LowerExp" "\x7b:e\x7d",
   formatting "UpperExp" "\x7b:E\x7d", formatting "Pointer" "\x7b:p\x7d",
   entry "formatting" "Debug" Core.debug "fmt"
     { variant := ["format"], struct := ["format"], field := "format" :: skipKeys }
       fun _ => debug]

/-- Every derive, in order. -/
def catalogue : List Derive :=
  entry "construction" "Constructor" [] "new" {} (fun _ => constructor)
  :: conversions ++ operators ++ access ++ others ++ formats
  ++ [entry "construction" "Default" Core.default "default" variantSkip fun _ => default]

def find? (name : Text) : Option Derive := catalogue.find? (·.name == name)

def nameAt (n : Int) : Text :=
  match if 0 ≤ n then catalogue[n.toNat]? else none with
  | some d => d.name
  | none => Text.concat ["Kind(", Text.ofInt n, ")"]

end Derive

end Deriver
