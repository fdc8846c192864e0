import Deriver.Text.Utf8
import Deriver.Text.Class.Letter
import Deriver.Token.Basic

/-!
# Identifiers

What counts as a name is said of its characters here, and independently of how
the scanner finds names byte by byte.
-/

namespace Deriver

def isReserved (word : Text) : Bool := (TokenKind.ofKeyword? word).isSome

/-- Whether a text is an identifier, raw or not: letters, digits and underscores,
no digit first, and not the underscore alone. -/
def isIdentifier (name : Text) : Bool :=
  let name := name.dropStart "r#"
  match name.chars with
  | [] => false
  | c :: cs =>
      (Text.isLetter c || c == '_') &&
        (c :: cs).all (fun c => Text.isLetter c || Text.isDecimal c || c == '_') &&
          name != "_"

end Deriver
