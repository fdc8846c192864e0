import Deriver.Text.Basic

/-!
# The support crate

Generated code takes its error types from a support crate, and everything else
from the standard library by absolute paths.
-/

namespace Deriver

/-- The path at which generated code finds the support crate; the empty path stands
for the default. -/
structure Support where
  crate : Text := []
  deriving DecidableEq, Repr

namespace Support

def defaultCrate : Text := "derivekit"

def path (s : Support) : Text := if s.crate.isEmpty then defaultCrate else s.crate

/-- The beginnings of a path that is looked up from the current crate or module. -/
def relativeRoots : List Text := ["crate", "self", "super"]

/-- Whether a path needs no leading `::`. -/
def isRooted (p : Text) : Bool :=
  p.startsWith "::" || relativeRoots.any fun r => p == r || p.startsWith (r ++ "::")

def root (s : Support) : Text := if isRooted s.path then s.path else "::" ++ s.path

def item (s : Support) (name : Text) : Text := Text.concat [s.root, "::", name]

def items : List Text :=
  ["ops::BinaryError", "ops::UnitError", "ops::WrongVariantError", "FromStrError",
    "TryIntoError", "TryUnwrapError", "TryFromReprError", "AsDynError"]

def asDynError : Text := "__derivekit_as_dyn_error"

end Support

/-! ## Paths in the standard library -/

namespace Core

def result : Text := "::core::result::Result"

def ok : Text := "::core::result::Result::Ok"

def err : Text := "::core::result::Result::Err"

def option : Text := "::core::option::Option"

def some : Text := "::core::option::Option::Some"

def none : Text := "::core::option::Option::None"

def default : Text := "::core::default::Default"

def copy : Text := "::core::marker::Copy"

def fromTrait : Text := "::core::convert::From"

def debug : Text := "::core::fmt::Debug"

def display : Text := "::core::fmt::Display"

def fmt (trait : Text) : Text := "::core::fmt::" ++ trait

end Core

end Deriver
