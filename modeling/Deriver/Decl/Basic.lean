import Deriver.Decl.Generics
import Deriver.Decl.Meta

/-!
# Declarations

A declaration is a struct, an enum or a union with its generics, attributes and
fields, and the derives it asks for.
-/

namespace Deriver

/-- How a field list is written. -/
inductive FieldStyle where
  /-- `{ a: A, b: B }` -/
  | named
  /-- `(A, B)` -/
  | tuple
  /-- nothing -/
  | unit
  deriving DecidableEq, Repr

/-- One field. A tuple field has no name and is known by its index. -/
structure Field where
  attrs : List Attribute
  vis : Text
  ident : Option Text
  index : Nat
  ty : Ty
  pos : Position

def Field.member (f : Field) : Text := f.ident.getD (Text.ofNat f.index)

/-- The fields of a struct, union or variant. -/
structure Fields where
  style : FieldStyle
  list : List Field

namespace Fields

def unit : Fields := ⟨.unit, []⟩

def isUnit (f : Fields) : Bool := f.style == .unit || f.list.isEmpty

end Fields

/-- One variant of an enum. -/
structure Variant where
  attrs : List Attribute
  ident : Text
  fields : Fields
  /-- The explicit discriminant as written; empty if there is none. -/
  discriminant : Text
  pos : Position

/-- What a declaration holds. -/
inductive Data where
  | struct (fields : Fields)
  | enum (variants : List Variant)
  | union (fields : Fields)

/-- The kinds of declaration. -/
inductive DataKind where
  | struct
  | enum
  | union
  deriving DecidableEq, Repr

namespace DataKind

def all : List DataKind := [.struct, .enum, .union]

def name : DataKind → Text
  | .struct => "struct"
  | .enum => "enum"
  | .union => "union"

def nameAt (n : Int) : Text :=
  match if 0 ≤ n then all[n.toNat]? else none with
  | some k => k.name
  | none => "unknown"

end DataKind

namespace Data

def kind : Data → DataKind
  | .struct _ => .struct
  | .enum _ => .enum
  | .union _ => .union

def fields? : Data → Option Fields
  | .struct fs | .union fs => some fs
  | .enum _ => none

def variants : Data → List Variant
  | .enum vs => vs
  | _ => []

end Data

/-- One entry of a derive list: the last segment of the path, and the path. -/
structure DeriveRequest where
  name : Text
  path : Text
  pos : Position
  deriving DecidableEq, Repr

/-- A declaration. -/
structure Decl where
  attrs : List Attribute
  vis : Text
  name : Text
  generics : Generics
  data : Data
  derives : List DeriveRequest
  /-- Where the keyword stands. -/
  pos : Position
  /-- The offset of the first byte, attributes included. -/
  first : Nat
  /-- The offset just past the last byte. -/
  stop : Nat

namespace Decl

def isEnum (d : Decl) : Bool := d.data matches .enum _

def hasDerive (d : Decl) (name : Text) : Bool := d.derives.any (·.name == name)

def argOf (p : GenericParam) : GenericArg :=
  match p.kind with
  | .lifetime => .lifetime p.name
  | .type => .ty (.path (.simple p.name))
  | .const _ => .const p.name

/-- The declared type applied to its own parameters, as a path. -/
def selfPath (d : Decl) : Path :=
  let args := if d.generics.params.isEmpty then Args.none
    else .angled (d.generics.params.map argOf)
  ⟨none, false, [⟨d.name, args⟩], d.pos⟩

/-- The declared type applied to its own parameters, such as `Point<T>`. -/
def selfType (d : Decl) : Ty := .path d.selfPath

/-- All field types: those of the fields, then those of each variant in order. -/
def fieldTypes (d : Decl) : List Ty :=
  match d.data with
  | .struct fs | .union fs => fs.list.map (·.ty)
  | .enum vs => vs.flatMap fun v => v.fields.list.map (·.ty)

end Decl

/-- An inline module, whose body is not looked into. -/
structure InlineModule where
  name : Text
  pos : Position
  deriving DecidableEq, Repr

/-- What a source file declares. -/
structure SourceFile where
  decls : List Decl
  /-- How many other items there were. -/
  skipped : Nat
  modules : List InlineModule

/-- The position of the first declaration, or the start of the file. -/
def SourceFile.pos (f : SourceFile) : Position :=
  match f.decls with
  | d :: _ => d.pos
  | [] => .start

end Deriver
