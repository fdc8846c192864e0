import Deriver.Bounds.Header
import Deriver.Helper.Options
import Deriver.Select.Basic
import Deriver.Support.Crate
import Deriver.Text.Utf8

/-!
# Placeholders of a format string

A format string is a sequence of plain bytes, doubled braces and placeholders.
A placeholder names its argument before a colon and says behind it how the
argument is written; the last character there selects the formatting trait.
-/

namespace Deriver

/-- One placeholder. -/
structure Placeholder where
  /-- An index, a name, or nothing for the next positional argument. -/
  arg : Text
  /-- What stands behind the colon. -/
  spec : Text
  deriving DecidableEq, Repr

/-- A brace without its partner, at an offset. -/
inductive FormatFault where
  | unclosed (offset : Nat)
  | unmatched (offset : Nat)
  deriving DecidableEq, Repr

def FormatFault.message : FormatFault → Text
  | .unclosed n => "unclosed \x60\x7b\x60 at byte " ++ Text.ofNat n
  | .unmatched n => "unmatched \x60\x7d\x60 at byte " ++ Text.ofNat n

namespace Placeholder

/-- The traits that the last character of a specification selects. -/
def traits : List (UInt8 × Text) :=
  [(63, "Debug"), (120, "LowerHex"), (88, "UpperHex"), (111, "Octal"), (98, "Binary"),
    (101, "LowerExp"), (69, "UpperExp"), (112, "Pointer")]

def trait (p : Placeholder) : Text :=
  match p.spec.getLast? with
  | some b => (traits.lookup b).getD "Display"
  | none => "Display"

def ofInner (inner : Text) : Placeholder :=
  match inner.cut? ":" with
  | some (arg, spec) => ⟨arg.trim, spec⟩
  | none => ⟨inner.trim, []⟩

/-- The loop of `all`: `skip` bytes are still to be passed over, and the next byte
stands at `offset`. -/
def allLoop : Nat → Nat → Text → Except FormatFault (List Placeholder)
  | _, _, [] => .ok []
  | skip + 1, offset, _ :: rest => allLoop skip (offset + 1) rest
  | 0, offset, b :: rest =>
      if b = 123 then
        if rest.head? = some 123 then allLoop 1 (offset + 1) rest
        else if rest.contains 125 then do
          let inner := rest.takeWhile (· ≠ 125)
          return ofInner inner :: (← allLoop (inner.length + 1) (offset + 1) rest)
        else .error (.unclosed offset)
      else if b = 125 then
        if rest.head? = some 125 then allLoop 1 (offset + 1) rest
        else .error (.unmatched offset)
      else allLoop 0 (offset + 1) rest

/-- The placeholders of a format string, in order. -/
def all (format : Text) : Except FormatFault (List Placeholder) := allLoop 0 0 format

end Placeholder

end Deriver

/-!
# What a format string refers to

Every placeholder is resolved to the expression it formats: the next positional
argument, the argument of an index, the argument of a name, or else the name
itself, which generated code binds to the field so called.
-/

namespace Deriver

/-- A value that a format string formats. -/
structure FormatUse where
  expr : Text
  trait : Text
  spec : Text
  deriving DecidableEq, Repr

namespace FormatSpec

def isNameStart (b : UInt8) : Bool := Text.isUpperByte b || Text.isLowerByte b || b == 95

def isArgBlank (b : UInt8) : Bool := b == 9 || b == 10 || b == 12 || b == 13 || b == 32

/-- The name and expression of an argument `name = expression`. The expression
begins on the line of the equals sign's next character and ends on it. -/
def namedArg? (arg : Text) : Option (Text × Text) :=
  match arg with
  | [] => none
  | first :: _ =>
      if !isNameStart first then none
      else
        let name := arg.takeWhile isWordByte
        match (arg.drop name.length).dropWhile isArgBlank with
        | eq :: next :: rest =>
            if eq == 61 && next != 61 && !rest.contains 10 then
              some (name, Text.trim (next :: rest))
            else none
        | _ => none

/-- The arguments without a name, in order. -/
def positional (f : FormatSpec) : List Text := f.args.filter fun a => (namedArg? a).isNone

/-- The expression of a name; of several arguments of one name the last counts. -/
def named? (f : FormatSpec) (name : Text) : Option Text :=
  ((f.args.filterMap namedArg?).reverse.find? (·.1 == name)).map (·.2)

def isIndex (t : Text) : Bool := !t.isEmpty && t.all Text.isDigitByte

def maxIndex : Nat := Nat.pow 2 63 - 1

def refuse (f : FormatSpec) (attr reason : Text) : Diagnostic :=
  f.pos.diagnose (.formatString attr f.lit reason)

/-- Resolves placeholders from left to right; `next` positional arguments were taken. -/
def resolve (f : FormatSpec) : Nat → List Placeholder → Except Text (List FormatUse)
  | _, [] => .ok []
  | next, p :: ps =>
      if p.arg.isEmpty then
        match f.positional[next]? with
        | some expr => do return ⟨expr, p.trait, p.spec⟩ :: (← resolve f (next + 1) ps)
        | none => .error (Text.concat ["placeholder ", Text.ofNat next, " has no argument"])
      else if isIndex p.arg then
        let index := min ((p.arg.toNat? 10).getD 0) maxIndex
        match f.positional[index]? with
        | some expr => do return ⟨expr, p.trait, p.spec⟩ :: (← resolve f next ps)
        | none =>
            .error (Text.concat ["placeholder \x7b", Text.ofNat index,
              "\x7d has no argument"])
      else do
        return ⟨(f.named? p.arg).getD p.arg, p.trait, p.spec⟩ :: (← resolve f next ps)

def uses (f : FormatSpec) (attr : Text) : Except Diagnostic (List FormatUse) :=
  match Placeholder.all f.value with
  | .error fault => .error (f.refuse attr fault.message)
  | .ok ps => (f.resolve 0 ps).mapError (f.refuse attr)

/-- The names in a text; `word` is the current one in reverse. -/
def nameLoop : Text → Text → List Text
  | [], [] => []
  | word, [] => [word.reverse]
  | [], b :: rest => if isNameStart b then nameLoop [b] rest else nameLoop [] rest
  | c :: word, b :: rest =>
      if isWordByte b then nameLoop (b :: c :: word) rest
      else (c :: word).reverse :: nameLoop [] rest

def mentioned (f : FormatSpec) : List Text :=
  f.args.flatMap (nameLoop []) ++
    match Placeholder.all f.value with
    | .ok ps => (ps.map (·.arg)).filter fun a => !a.isEmpty && !isIndex a
    | .error _ => []

/-- The pieces with which a formatting call begins and ends around the format. -/
def call (f : FormatSpec) (opening : List Text) : Text :=
  Text.join ", " (opening ++ f.lit :: f.args)

def formatter : Text := "__derive_f"

def write (f : FormatSpec) : Text :=
  Text.concat ["::core::write!(", f.call [formatter], ")"]

def arguments (f : FormatSpec) : Text :=
  Text.concat ["&::core::format_args!(", f.call [], ")"]

end FormatSpec

/-! ## Fields in format strings -/

/-- The name a field has in format strings: its own, or `_0` for the first field of
a tuple. -/
def FieldView.formatName (f : FieldView) : Text :=
  f.field.ident.getD ("_" ++ f.name)

def plainName (name : Text) : Text := name.dropStart "r#"

namespace FieldsView

def bindings (v : FieldsView) (used : List Text) : List Text :=
  (v.all.filter fun f => used.contains f.formatName).map fun f =>
    Text.concat ["let ", f.formatName, " = &", f.member, ";"]

/-- A pattern that binds the fields of a variant whose names are used. -/
def formatPattern (v : FieldsView) (path : Text) (used : List Text) : Pat :=
  let bound := v.all.filter fun f => used.contains f.formatName
  match v.style with
  | .tuple =>
      if bound.isEmpty then .tuple path [.rest]
      else .tuple path (v.all.map fun f =>
        if used.contains f.formatName then .bind f.formatName else .wild)
  | .named =>
      .record path (bound.map fun f => (f.field.ident.getD [], none))
        (bound.length < v.all.length)
  | .unit => .unit path

/-- A predicate for each field that is formatted directly. -/
def boundUses (v : FieldsView) (subject : Ty) (uses : List FormatUse) (g : ImplGenerics) :
    ImplGenerics :=
  uses.foldl (fun g u =>
    match v.all.reverse.find? fun f => f.formatName == u.expr.dropWhile (· == 38) with
    | some f => g.addFieldBounds [f.ty] subject fun _ => Core.fmt u.trait
    | none => g) g

end FieldsView

end Deriver
