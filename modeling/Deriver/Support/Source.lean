import Deriver.Support.Crate

/-!
# The source of the support crate

The crate is small and fixed; only the comment that says where generated code
looks for it and the name of one method are filled in.
-/

namespace Deriver

def generatedHeader : Text := "// Code generated by derivekit. DO NOT EDIT.\n"

namespace Support

/-- The items of the crate. `{{method}}` stands for the method that makes a trait
object of an error source. -/
def body : String := r#"use core::fmt;

/// Errors of derived arithmetic on enums.
pub mod ops {
    use core::fmt;

    /// A binary operation was applied to a unit variant.
    #[derive(Clone, Copy, Debug, PartialEq, Eq)]
    pub struct UnitError {
        operation_name: &'static str,
    }

    impl UnitError {
        #[doc(hidden)]
        #[inline]
        #[must_use]
        pub const fn new(operation_name: &'static str) -> Self {
            Self { operation_name }
        }
    }

    impl fmt::Display for UnitError {
        fn fmt(&self, f: &mut fmt::Formatter<'_>) -> fmt::Result {
            write!(f, "Cannot {}() unit variants", self.operation_name)
        }
    }

    impl std::error::Error for UnitError {}

    /// A binary operation was applied to two different variants.
    #[derive(Clone, Copy, Debug, PartialEq, Eq)]
    pub struct WrongVariantError {
        operation_name: &'static str,
    }

    impl WrongVariantError {
        #[doc(hidden)]
        #[inline]
        #[must_use]
        pub const fn new(operation_name: &'static str) -> Self {
            Self { operation_name }
        }
    }

    impl fmt::Display for WrongVariantError {
        fn fmt(&self, f: &mut fmt::Formatter<'_>) -> fmt::Result {
            write!(f, "Trying to {}() mismatched enum variants", self.operation_name)
        }
    }

    impl std::error::Error for WrongVariantError {}

    /// The error of a derived binary operation on an enum.
    #[derive(Clone, Copy, Debug, PartialEq, Eq)]
    pub enum BinaryError {
        Mismatch(WrongVariantError),
        Unit(UnitError),
    }

    impl fmt::Display for BinaryError {
        fn fmt(&self, f: &mut fmt::Formatter<'_>) -> fmt::Result {
            match self {
                Self::Mismatch(e) => fmt::Display::fmt(e, f),
                Self::Unit(e) => fmt::Display::fmt(e, f),
            }
        }
    }

    impl std::error::Error for BinaryError {
        fn source(&self) -> Option<&(dyn std::error::Error + 'static)> {
            match self {
                Self::Mismatch(e) => e.source(),
                Self::Unit(e) => e.source(),
            }
        }
    }
}

/// The error of a derived FromStr on an enum.
#[derive(Clone, Copy, Debug, PartialEq, Eq)]
pub struct FromStrError {
    type_name: &'static str,
}

impl FromStrError {
    #[doc(hidden)]
    #[inline]
    #[must_use]
    pub const fn new(type_name: &'static str) -> Self {
        Self { type_name }
    }
}

impl fmt::Display for FromStrError {
    fn fmt(&self, f: &mut fmt::Formatter<'_>) -> fmt::Result {
        write!(f, "Invalid `{}` string representation", self.type_name)
    }
}

impl std::error::Error for FromStrError {}

/// The error of a derived TryInto; the input value is handed back.
#[derive(Clone, Copy, Debug)]
pub struct TryIntoError<T> {
    pub input: T,
    variant_names: &'static str,
    output_type: &'static str,
}

impl<T> TryIntoError<T> {
    #[doc(hidden)]
    #[inline]
    #[must_use]
    pub const fn new(input: T, variant_names: &'static str, output_type: &'static str) -> Self {
        Self {
            input,
            variant_names,
            output_type,
        }
    }
}

impl<T> fmt::Display for TryIntoError<T> {
    fn fmt(&self, f: &mut fmt::Formatter<'_>) -> fmt::Result {
        write!(f, "Only {} can be converted to {}", self.variant_names, self.output_type)
    }
}

impl<T: fmt::Debug> std::error::Error for TryIntoError<T> {}

/// The error of a derived try_unwrap_* accessor; the input value is handed
/// back.
#[derive(Clone, Copy, Debug)]
pub struct TryUnwrapError<T> {
    pub input: T,
    enum_name: &'static str,
    variant_name: &'static str,
    func_name: &'static str,
}

impl<T> TryUnwrapError<T> {
    #[doc(hidden)]
    #[inline]
    #[must_use]
    pub const fn new(
        input: T,
        enum_name: &'static str,
        variant_name: &'static str,
        func_name: &'static str,
    ) -> Self {
        Self {
            input,
            enum_name,
            variant_name,
            func_name,
        }
    }
}

impl<T> fmt::Display for TryUnwrapError<T> {
    fn fmt(&self, f: &mut fmt::Formatter<'_>) -> fmt::Result {
        write!(
            f,
            "Attempt to call `{enum_name}::{func_name}()` on a `{enum_name}::{variant_name}` value",
            enum_name = self.enum_name,
            variant_name = self.variant_name,
            func_name = self.func_name,
        )
    }
}

impl<T: fmt::Debug> std::error::Error for TryUnwrapError<T> {}

/// The error of a derived TryFrom from an integer representation.
#[derive(Clone, Copy, Debug)]
pub struct TryFromReprError<T> {
    pub input: T,
}

impl<T> TryFromReprError<T> {
    #[doc(hidden)]
    #[inline]
    #[must_use]
    pub const fn new(input: T) -> Self {
        Self { input }
    }
}

impl<T: fmt::Debug> fmt::Display for TryFromReprError<T> {
    fn fmt(&self, f: &mut fmt::Formatter<'_>) -> fmt::Result {
        write!(f, "`{:?}` does not corespond to a unit variant", self.input)
    }
}

impl<T: fmt::Debug> std::error::Error for TryFromReprError<T> {}

/// Coerces error sources into trait objects in derived source() bodies.
#[doc(hidden)]
pub trait AsDynError<'a>: sealed::Sealed {
    fn {{method}}(&self) -> &(dyn std::error::Error + 'a);
}

impl<'a, T: std::error::Error + 'a> AsDynError<'a> for T {
    #[inline]
    fn {{method}}(&self) -> &(dyn std::error::Error + 'a) {
        self
    }
}

impl<'a> AsDynError<'a> for dyn std::error::Error + 'a {
    #[inline]
    fn {{method}}(&self) -> &(dyn std::error::Error + 'a) {
        self
    }
}

impl<'a> AsDynError<'a> for dyn std::error::Error + Send + 'a {
    #[inline]
    fn {{method}}(&self) -> &(dyn std::error::Error + 'a) {
        self
    }
}

impl<'a> AsDynError<'a> for dyn std::error::Error + Send + Sync + 'a {
    #[inline]
    fn {{method}}(&self) -> &(dyn std::error::Error + 'a) {
        self
    }
}

mod sealed {
    pub trait Sealed {}
    impl<T: std::error::Error> Sealed for T {}
    impl Sealed for dyn std::error::Error + '_ {}
    impl Sealed for dyn std::error::Error + Send + '_ {}
    impl Sealed for dyn std::error::Error + Send + Sync + '_ {}
}
"#

def source (s : Support) : Text :=
  Text.concat [generatedHeader, "\n",
    "//! Runtime support for derived impls. Generated code reaches these items\n",
    "//! as \x60", s.root, "\x60.\n\n",
    (Text.ofString body).replace "\x7b\x7bmethod\x7d\x7d" asDynError]

end Support

end Deriver
