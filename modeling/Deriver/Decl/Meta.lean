import Deriver.Text.Utf8
import Deriver.Position

/-!
# Attributes

The argument of an attribute is read as far as its shape is one of a few: a
path, a list behind a path, a path with a literal value, or a literal. Anything
else is kept as written.
-/

namespace Deriver

/-- The kind of a literal in an attribute. -/
inductive LitKind where
  | str
  | int
  | float
  | bool
  | char
  deriving DecidableEq, Repr

/-- A literal in an attribute: its decoded value if it is a string, else its
lexeme, and the lexeme itself. -/
structure Lit where
  kind : LitKind
  value : Text
  raw : Text
  deriving DecidableEq, Repr

/-- An attribute argument with everything nested in it. -/
inductive Meta where
  /-- `forward` -/
  | path (pos : Position) (path : Text)
  /-- `path(items, ...)` -/
  | list (pos : Position) (path : Text) (items : List Meta) (raw : Text)
  /-- `path = "literal"` -/
  | nameValue (pos : Position) (path : Text) (value : Lit) (raw : Text)
  /-- `"text"` -/
  | lit (pos : Position) (value : Lit)
  /-- Anything else, as written, with the path in front of its `=` if there is one. -/
  | other (pos : Position) (path : Text) (raw : Text)

namespace Meta

def pos : Meta → Position
  | .path pos _ | .list pos .. | .nameValue pos .. | .lit pos _ | .other pos .. => pos

/-- The path in front, if there is one. -/
def pathText : Meta → Text
  | .path _ p | .list _ p .. | .nameValue _ p .. | .other _ p _ => p
  | .lit .. => []

def raw : Meta → Text
  | .path _ p => p
  | .list _ _ _ raw | .nameValue _ _ _ raw | .other _ _ raw => raw
  | .lit _ v => v.raw

/-- Whether the argument is the bare path `name`. -/
def isPath (m : Meta) (name : Text) : Bool :=
  match m with
  | .path _ p => p == name
  | _ => false

end Meta

/-- An attribute `#[...]`. -/
structure Attribute where
  arg : Meta
  /-- What stands between the brackets, as written. -/
  raw : Text
  /-- Where the `#` stands. -/
  pos : Position

namespace Attribute

def path (a : Attribute) : Text := a.arg.pathText

def named (attrs : List Attribute) (names : List Text) : List Attribute :=
  attrs.filter fun a => names.contains a.path

def integerTypes : List Text :=
  ["u8", "u16", "u32", "u64", "u128", "usize", "i8", "i16", "i32", "i64", "i128", "isize"]

/-- The integer type that `#[repr(...)]` names first, if any does. -/
def reprInt? (attrs : List Attribute) : Option Text :=
  (named attrs ["repr"]).findSome? fun a =>
    match a.arg with
    | .list _ _ items _ => items.findSome? fun
        | .path _ p => if integerTypes.contains p then some p else none
        | _ => none
    | _ => none

/-- The texts of the `#[doc = ...]` attributes, one to a line. -/
def doc (attrs : List Attribute) : Text :=
  Text.join "\n" ((named attrs ["doc"]).filterMap fun a =>
    match a.arg with
    | .nameValue _ _ v _ => some (Text.trim v.value)
    | _ => none)

end Attribute

end Deriver
