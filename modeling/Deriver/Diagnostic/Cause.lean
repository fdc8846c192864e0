import Deriver.Diagnostic.Basic
import Deriver.Text.Quoted

/-!
# What can go wrong

Every diagnostic has a cause, and a cause fixes its code, its message and the
help that goes with it. The wording of the whole tool is in `Cause.diagnostic`.
-/

namespace Deriver

/-- The cause of a diagnostic. -/
inductive Cause where
  /-- A lexical or parse error, told apart by its message. -/
  | badSyntax (message near : Text)
  | unexpectedToken (found context : Text)
  | expectedToken (expected found : Text)
  /-- A key that no item of the trait accepts. -/
  | unknownKey (attr key : Text) (accepted suggestions : List Text)
  | conflictingKeys (attr first second : Text)
  /-- A key on an item of the wrong kind. -/
  | wrongLevel (attr key level : Text) (allowed : List Text)
  | malformedValue (attr key expected actual : Text)
  | duplicateAttribute (attr : Text)
  | formatString (attr format reason : Text)
  | union (trait subject : Text)
  | unitStruct (trait subject : Text)
  | allFieldsSkipped (trait subject : Text)
  | allVariantFieldsSkipped (trait subject : Text)
  /-- Not exactly one enabled field. -/
  | fieldCount (trait subject : Text) (enabled : Int)
  | nonUniform (trait subject what expected actual : Text)
  | wrongShape (trait subject reason : Text)
  | missingFormat (trait subject reason : Text)
  | codegenFailed (reason : Text)
  | unknownDerive (name : Text)
  /-- Two variants that are read from the same text. -/
  | duplicateLiteral (subject literal kept dropped : Text)
  | outputWrite (path reason : Text)

namespace Cause

def documentation (code : Text) : Text :=
  "https://derivekit.conduit-lang.org/errors/" ++ code

def make (category : Text) (code kind : Text) (message : Text) (site : Site) : Diagnostic :=
  { code := code, kind := kind, category := category, severity := .error,
    message := message, site := site, documentation := documentation code }

/-- The helper attribute of a trait: `IndexMut` has `index_mut`. -/
def attrName (trait : Text) : Text :=
  (trait.mapIdx fun i b =>
    if Text.isUpperByte b then (if i = 0 then [b + 32] else [95, b + 32]) else [b]).flatten

/-- The code and kind of a lexical or parse error. -/
def classify (message : Text) : Text × Text :=
  let begins (s : String) : Bool := message.startsWith s
  if begins "Unterminated block comment" then ("SYN004", "unterminated_comment")
  else if begins "Unterminated" then ("SYN003", "unterminated_literal")
  else if begins "Invalid number" || begins "Invalid float" then
    ("SYN005", "invalid_number")
  else if begins "Invalid escape" || begins "Invalid unicode" ||
    begins "Invalid raw string" then
    ("SYN006", "invalid_escape")
  else if begins "Unexpected character" then ("SYN007", "unexpected_character")
  else if begins "Unexpected closing delimiter" then ("SYN008", "mismatched_delimiter")
  else if begins "Expected" then ("SYN002", "expected_token")
  else ("SYN001", "unexpected_token")

/-- What helps against a lexical or parse error. -/
def syntaxHelp (code : Text) : Text :=
  if code == "SYN003" then "Close the literal with a matching quote"
  else if code == "SYN004" then "Add the closing */ for the block comment"
  else if code == "SYN008" then
    "Check that every '\x7b', '(' and '[' has a matching closer"
  else []

def tick (t : Text) : Text := Text.concat ["\x60", t, "\x60"]

def diagnostic (site : Site) : Cause → Diagnostic
  | .badSyntax message near =>
      let (code, kind) := classify message
      { make "syntax" code kind message site with
        actual := near
        suggestion := syntaxHelp code
        expected := if code == "SYN002" then (message.dropStart? "Expected ").getD []
          else [] }
  | .unexpectedToken found context =>
      make "syntax" "SYN001" "unexpected_token"
        (Text.concat ["Unexpected token '", found, "'",
          if context.isEmpty then [] else " in " ++ context]) site
  | .expectedToken expected found =>
      { make "syntax" "SYN002" "expected_token"
          (Text.concat ["Expected ", expected, " but found '", found, "'"]) site with
        expected := expected, actual := found }
  | .unknownKey attr key accepted suggestions =>
      { make "attribute" "ATR001" "unknown_attribute_key"
          (Text.concat ["Unknown key ", tick key, " in #[", attr, "(...)]"]) site with
        actual := key
        expected := if accepted.isEmpty then [] else "one of " ++ Text.join ", " accepted
        suggestion := match suggestions with
          | [] => []
          | s :: _ => Text.concat ["Did you mean ", tick s, "?"]
        examples := suggestions.map fun s => Text.concat ["#[", attr, "(", s, ")]"] }
  | .conflictingKeys attr first second =>
      { make "attribute" "ATR002" "conflicting_keys"
          (Text.concat [tick first, " and ", tick second,
            " cannot be used together in #[", attr, "(...)]"]) site with
        suggestion := Text.concat ["Remove either ", tick first, " or ", tick second] }
  | .wrongLevel attr key level allowed =>
      { make "attribute" "ATR003" "wrong_level"
          (Text.concat [tick key, " is not allowed in #[", attr, "(...)] on a ", level])
            site with
        actual := level
        expected := Text.join " or " allowed
        suggestion :=
          if allowed.isEmpty then
            Text.concat ["#[", attr, "] accepts no arguments on a ", level]
          else Text.concat ["Move ", tick key, " to the ", Text.join " or " allowed] }
  | .malformedValue attr key expected actual =>
      { make "attribute" "ATR004" "malformed_value"
          (Text.concat ["Malformed ", tick key, " in #[", attr,
            "(...)]: expected ", expected])
          site with
        expected := expected, actual := actual }
  | .duplicateAttribute attr =>
      { make "attribute" "ATR005" "duplicate_attribute"
          (Text.concat ["Only a single #[", attr, "(...)] attribute is allowed here"])
            site with
        suggestion := "Merge the keys into one attribute" }
  | .formatString attr format reason =>
      { make "attribute" "ATR006" "format_string"
          (Text.concat ["Invalid format string in #[", attr, "(...)]: ", reason]) site with
        actual := format
        examples := [Text.concat ["#[", attr, "(\"\x7b\x7d of \x7b\x7d\", _0, _1)]"],
          Text.concat ["#[", attr, "(\"\x7bname\x7d\")]"]] }
  | .union trait subject =>
      { make "structural" "STR001" "union_not_supported"
          (tick trait ++ " cannot be derived for unions") site with
        trait := trait, subject := subject
        suggestion := "Wrap the union in a struct and derive on the wrapper" }
  | .unitStruct trait subject =>
      { make "structural" "STR002" "unit_struct"
          (tick trait ++ " cannot be derived for unit structs") site with
        trait := trait, subject := subject }
  | .allFieldsSkipped trait subject =>
      { make "structural" "STR003" "all_fields_skipped"
          (tick trait ++ " cannot be derived for structs with all the fields being skipped")
          site with
        trait := trait, subject := subject
        suggestion := "Remove \x60skip\x60 from at least one field" }
  | .allVariantFieldsSkipped trait subject =>
      { make "structural" "STR004" "all_variant_fields_skipped"
          (tick trait ++
            " cannot be derived for enums with all the variant fields being skipped")
          site with
        trait := trait, subject := subject }
  | .fieldCount trait subject enabled =>
      { make "structural" "STR005" "field_count"
          (Text.concat [tick trait, " requires exactly one field, but ",
            tick subject, " has ",
            Text.ofInt enabled, " enabled ", if enabled = 1 then "field" else "fields"])
              site with
        trait := trait, subject := subject
        expected := "1 enabled field"
        actual := Text.ofInt enabled
        suggestion := Text.concat ["Mark the other fields with #[", attrName trait,
          "(ignore)] or mark the target field with #[", attrName trait, "]"] }
  | .nonUniform trait subject what expected actual =>
      { make "structural" "STR006" "non_uniform_variants"
          (Text.concat [tick trait, " requires every variant of ", tick subject,
            " to agree on the ", what]) site with
        trait := trait, subject := subject, expected := expected, actual := actual }
  | .wrongShape trait subject reason =>
      { make "structural" "STR007" "wrong_shape"
          (Text.concat [tick trait, " cannot be derived for ", tick subject, ": ", reason])
          site with
        trait := trait, subject := subject }
  | .missingFormat trait subject reason =>
      { make "structural" "STR008" "missing_format"
          (Text.concat [tick trait, " needs a format string for ", tick subject,
            ": ", reason])
          site with
        trait := trait, subject := subject
        suggestion := Text.concat ["Add #[", attrName trait,
          "(\"...\", ...)] to ", tick subject]
        examples := [Text.concat ["#[", attrName trait,
          "(\"(\x7b\x7d, \x7b\x7d)\", _0, _1)]"]] }
  | .codegenFailed reason =>
      { make "codegen" "GEN001" "codegen_failed"
        ("Code generation failed: " ++ reason) site with
        suggestion := "This is likely a derivekit bug - please report it" }
  | .unknownDerive name =>
      make "codegen" "GEN002" "unknown_derive"
        ("No expansion strategy registered for " ++ tick name) site
  | .duplicateLiteral subject literal kept dropped =>
      { make "codegen" "GEN003" "duplicate_literal"
          (Text.concat [tick (Text.concat [subject, "::", kept]), " and ",
            tick (Text.concat [subject, "::", dropped]), " both parse from ",
            literal.quoted, "; only ", tick kept, " is matched"]) site with
        severity := .warning, trait := "FromStr", subject := subject }
  | .outputWrite path reason =>
      { make "codegen" "GEN004" "output_write"
          (Text.concat ["Failed to write ", path, ": ", reason]) site with
        file := path }

end Cause

def Position.diagnose (p : Position) (c : Cause) : Diagnostic := c.diagnostic p

end Deriver
