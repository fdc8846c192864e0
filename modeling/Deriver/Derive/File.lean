import Deriver.Derive.Catalogue
import Deriver.Parse.File
import Deriver.Support.Source

/-!
# Expanding declarations and files

A declaration asks for derives; those of the catalogue are expanded in the order
they are asked for and each once, the others are left to someone else. A derive
that fails does not stop the others, but a declaration with an error generates
nothing.
-/

namespace Deriver

/-- What expanding a declaration yields. -/
structure ExpandedDecl where
  name : Text
  pos : Position
  expansions : List Expansion
  diagnostics : List Diagnostic
  /-- The derives that are not in the catalogue. -/
  ignored : List Text

namespace ExpandedDecl

def failed (r : ExpandedDecl) : Bool := r.diagnostics.any (·.isError)

def generates (r : ExpandedDecl) : Bool := !r.failed && !r.expansions.isEmpty

def traits (r : ExpandedDecl) : List Text := r.expansions.map (·.trait)

def listing (r : ExpandedDecl) : Text :=
  Text.concat ["\n// ", r.name, ": ", Text.join ", " r.traits, "\n",
    Text.join "\n" (r.expansions.map (·.code))]

end ExpandedDecl

/-- One entry of a derive list: an expansion, a failure, or a derive to ignore. -/
inductive Outcome where
  | expanded (expansion : Expansion)
  | failed (d : Diagnostic)
  | ignored (name : Text)

/-- The requests without those for a derive that was asked for before. -/
def uniqueRequests : List Text → List DeriveRequest → List DeriveRequest
  | _, [] => []
  | seen, r :: rest =>
      if seen.contains r.name then uniqueRequests seen rest
      else
        let seen := if (Derive.find? r.name).isSome then r.name :: seen else seen
        r :: uniqueRequests seen rest

/-- A diagnostic with the derive, the declaration and the place filled in where it
does not say them. -/
def Diagnostic.complete (d : Diagnostic) (trait subject : Text) (pos : Position) :
    Diagnostic :=
  let d := if d.trait.isEmpty then d.withSubject trait subject else d
  if d.site = ⟨0, 0⟩ then { d with site := pos } else d

def Decl.answer (support : Support) (decl : Decl) (r : DeriveRequest) : Outcome :=
  match Derive.find? r.name with
  | none => .ignored r.name
  | some derive =>
      match derive.run support decl with
      | .ok expansion => .expanded expansion
      | .error d => .failed (d.complete derive.name decl.name r.pos)

/-- Expands one derive, whether the declaration asks for it or not. -/
def Decl.expandNamed (support : Support) (decl : Decl) (name : Text) :
    Except Diagnostic Expansion :=
  match Derive.find? name with
  | some derive => derive.run support decl
  | none => .error (decl.pos.diagnose (.unknownDerive name))

/-- Expands the derives that a declaration asks for. -/
def Decl.expand (support : Support) (decl : Decl) : ExpandedDecl :=
  let outcomes := (uniqueRequests [] decl.derives).map (decl.answer support)
  { name := decl.name
    pos := decl.pos
    expansions := outcomes.filterMap fun
      | .expanded e => some e
      | _ => none
    diagnostics := outcomes.flatMap fun
      | .expanded e => e.warnings
      | .failed d => [d]
      | .ignored _ => []
    ignored := outcomes.filterMap fun
      | .ignored name => some name
      | _ => none }

def SourceFile.expand (support : Support) (file : SourceFile) : List ExpandedDecl :=
  (file.decls.filter (!·.derives.isEmpty)).map (Decl.expand support)

/-- The generated file: the header, the source it was made from if it has a name,
and a section for each declaration that generates code. -/
def renderGenerated (source : Text) (results : List ExpandedDecl) : Text :=
  Text.concat (generatedHeader
    :: (if source.isEmpty then [] else Text.concat ["// source: ", source, "\n"])
    :: (results.filter (·.generates)).map (·.listing))

end Deriver
