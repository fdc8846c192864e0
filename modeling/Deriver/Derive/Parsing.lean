import Deriver.Derive.Basic
import Deriver.Text.Quoted

/-!
# Parsing from a string

A struct is parsed through its one field. An enum of unit variants is parsed by
name: in any case, unless two names differ only in case and are then told apart
by their exact spelling, or exactly, if a naming convention was asked for.
-/

namespace Deriver.Derive

/-- An arm of the parser of an enum. -/
structure LiteralArm where
  literal : Text
  /-- The exact spelling that is asked for besides, if the literal is shared. -/
  guard : Option Text
  variant : Text
  deriving DecidableEq, Repr

namespace LiteralArm

def arm (a : LiteralArm) : Arm :=
  let value := Text.concat [Core.ok, "(Self::", a.variant, ")"]
  match a.guard with
  | some exact => .guarded (.const a.literal.quoted) ("s == " ++ exact.quoted) value
  | none => .yields (.const a.literal.quoted) value

/-- The arms for names in any case. Names of one lower-case form stay together. -/
def anyCase (names : List Text) : List LiteralArm :=
  (Text.distinct (names.map Text.fold)).flatMap fun literal =>
    match names.filter fun n => n.fold == literal with
    | [name] => [⟨literal, none, name⟩]
    | shared => shared.map fun name => ⟨literal, some name, name⟩

/-- The arms for names in a convention. Of two names with one literal the first is
kept; the others are paired with it. -/
def renamed (casing : Casing) : List LiteralArm → List VariantView →
    List LiteralArm × List (VariantView × LiteralArm)
  | arms, [] => (arms, [])
  | arms, v :: vs =>
      let literal := casing.apply v.name
      match arms.find? (·.literal == literal) with
      | some kept =>
          let (arms, dropped) := renamed casing arms vs
          (arms, (v, kept) :: dropped)
      | none => renamed casing (arms ++ [⟨literal, none, v.name⟩]) vs

end LiteralArm

def parseStruct (s : Selection) : Except Diagnostic (List Impl) := do
  let single ← s.singleField
  let fields ← s.structFields
  let g := s.generics.addFieldBounds [single.field.ty] s.self fun _ => s.spec.path
  let value := fields.construct "Self" fun _ => "v"
  return [.block (g.header s.spec.path s.decl.name)
    [.line (Text.concat ["type Err = ", single.casted, "::Err;"]), .blank, .inline,
     .block (Text.concat ["fn from_str(s: &str) -> ", Core.result, "<Self, Self::Err>"])
       [.line (Text.concat [single.casted, "::from_str(s).map(|v| ", value.render, ")"])]]]

/-- The arms for an enum, and the warnings about variants that are never parsed. -/
def literalArms (s : Selection) (variants : List VariantView) :
    List LiteralArm × List Diagnostic :=
  match s.container.renameAll with
  | none => (LiteralArm.anyCase (variants.map (·.name)), [])
  | some casing =>
      let (arms, dropped) := LiteralArm.renamed casing [] variants
      (arms, dropped.map fun (v, kept) =>
        v.variant.pos.diagnose
          (.duplicateLiteral s.decl.name kept.literal kept.variant v.name))

/-- `FromStr`. -/
def fromStr (support : Support) (decl : Decl) (spec : TraitSpec) :
    Except Diagnostic (List Impl × List Diagnostic) := do
  let s ← Selection.ofDecl decl spec
  match s.shape with
  | .struct _ => return (← parseStruct s, [])
  | .enum variants =>
      let enabled := variants.filter (·.enabled)
      match enabled.find? fun v => !v.fields.isUnit with
      | some v =>
          throw (wrongShape decl spec (Text.concat [
            "only enums with unit variants can derive \x60FromStr\x60, but ",
            tick (Text.concat [decl.name, "::", v.name]), " has fields"]))
      | none => pure ()
      let (arms, warnings) := literalArms s enabled
      let error := support.item "FromStrError"
      let otherwise := Arm.yields .wild
        (Text.concat [Core.err, "(", error, "::new(", decl.name.quoted, "))"])
      let scrutinee :=
        if s.container.renameAll.isSome then "s" else "s.to_lowercase().as_str()"
      let impl := Impl.block (s.generics.header spec.path decl.name)
        [.line (Text.concat ["type Err = ", error, ";"]), .blank, .inline,
         .block (Text.concat ["fn from_str(s: &str) -> ", Core.result, "<Self, Self::Err>"])
           [.choose scrutinee (arms.map LiteralArm.arm ++ [otherwise])]]
      return ([impl], warnings)

end Deriver.Derive
