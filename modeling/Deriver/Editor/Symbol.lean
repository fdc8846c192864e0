import Deriver.Decl.Basic
import Deriver.Editor.Position
import Deriver.Text.Casing

/-!
# Symbols of a document

A symbol is something of a source that has a name: a declaration, an entry of a
derive list, a field or a variant. Each has a range, and the ranges of the
members of a declaration are not always inside that of the declaration, since
that starts at its keyword.
-/

namespace Deriver

/-- What a symbol is. -/
inductive SymbolKind where
  | struct
  | enum
  | union
  | field
  | variant
  | derive
  deriving DecidableEq, Repr

namespace SymbolKind

def name : SymbolKind → Text
  | .struct => "struct"
  | .enum => "enum"
  | .union => "union"
  | .field => "field"
  | .variant => "variant"
  | .derive => "derive"

def isDeclaration : SymbolKind → Bool
  | .struct | .enum | .union => true
  | .field | .variant | .derive => false

def ofData : DataKind → SymbolKind
  | .struct => .struct
  | .enum => .enum
  | .union => .union

end SymbolKind

/-- A symbol. -/
structure Symbol where
  name : Text
  kind : SymbolKind
  range : EditorRange
  /-- The type of a field, or the declared type. -/
  type : Text := []
  /-- What a field, variant or derive belongs to. -/
  container : Text := []
  detail : Text := []
  deriving DecidableEq, Repr

namespace Symbol

/-- The symbols of fields. A field without a name has the width of its type. -/
def ofFields (container : Text) (fields : Fields) : List Symbol :=
  fields.list.map fun f =>
    let type := f.ty.render
    { name := f.member
      kind := .field
      range := .ofWidth f.pos ((f.ident.getD type).length)
      type := type
      container := container }

/-- A variant with its types and its discriminant. -/
def variantDetail (enum : Text) (v : Variant) : Text :=
  Text.concat [enum, "::", v.ident,
    match v.fields.style with
      | .tuple => Text.concat ["(", Text.join ", " (v.fields.list.map (·.ty.render)), ")"]
      | .named => " \x7b .. \x7d"
      | .unit => [],
    if v.discriminant.isEmpty then [] else " = " ++ v.discriminant]

/-- The symbols of a variant and its fields. -/
def ofVariant (enum : Text) (v : Variant) : List Symbol :=
  { name := v.ident
    kind := .variant
    range := .ofWidth v.pos v.ident.length
    container := enum
    detail := variantDetail enum v }
  :: ofFields (Text.concat [enum, "::", v.ident]) v.fields

/-- The range of a declaration: from its keyword to its end. -/
def declRange (starts : List Nat) (d : Decl) : EditorRange :=
  let start := EditorPosition.ofPosition d.pos
  let stop := EditorPosition.ofOffset starts d.stop
  ⟨start, if stop.before start then ⟨start.line, start.character + d.name.length⟩ else stop⟩

/-- The symbol of an entry of a derive list. -/
def ofRequest (container : Text) (r : DeriveRequest) : Symbol :=
  { name := r.name
    kind := .derive
    range := .ofWidth r.pos r.path.length
    container := container
    detail := "derive" }

def ofDecl (starts : List Nat) (d : Decl) : List Symbol :=
  let self : Symbol :=
    { name := d.name
      kind := .ofData d.data.kind
      range := declRange starts d
      type := d.selfType.render
      detail := d.data.kind.name }
  self :: d.derives.map (ofRequest d.name)
    ++ (d.data.fields?.map (ofFields d.name)).getD []
    ++ d.data.variants.flatMap (ofVariant d.name)

def ofFile (content : Text) (file : SourceFile) : List Symbol :=
  file.decls.flatMap (ofDecl (lineStarts content))

/-- The better of two symbols that contain a position: the narrower, or the first. -/
def better (best : Option Symbol) (s : Symbol) : Option Symbol :=
  match best with
  | none => some s
  | some b => if s.range.narrower b.range then some s else some b

/-- The narrowest symbol that contains a position, the first of several. -/
def at? (symbols : List Symbol) (p : EditorPosition) : Option Symbol :=
  (symbols.filter (·.range.contains p)).foldl better none

/-- The name of a type without references, arguments and the path to it. -/
def baseTypeName (type : Text) : Text :=
  let t := type.dropWhile fun b => b == 38 || b == 42 || b == 32
  let t : Text := if Text.startsWith t "'" then
      match Text.find? t " " with
      | some n => t.drop (n + 1)
      | none => t
    else t
  let t := t.dropStart "mut "
  let t : Text := t.takeWhile (· ≠ 60)
  let t := match t.findLast? "::" with
    | some n => t.drop (n + 2)
    | none => t
  Text.trim t

end Symbol

/-- A symbol of an open document. -/
structure IndexedSymbol where
  uri : Text
  symbol : Symbol
  deriving DecidableEq, Repr

def IndexedSymbol.place (s : IndexedSymbol) : EditorPlace := ⟨s.uri, s.symbol.range⟩

/-- The symbols of all open documents, in the order in which they came. -/
abbrev SymbolIndex := List IndexedSymbol

namespace SymbolIndex

def forget (index : SymbolIndex) (uri : Text) : SymbolIndex := index.filter (·.uri != uri)

/-- The index with the symbols of a document in place of those it had. -/
def insert (index : SymbolIndex) (uri : Text) (symbols : List Symbol) : SymbolIndex :=
  index.forget uri ++ symbols.map fun s => ⟨uri, s⟩

def named (index : SymbolIndex) (name : Text) : List IndexedSymbol :=
  index.filter (·.symbol.name == name)

def declaration? (index : SymbolIndex) (name : Text) : Option IndexedSymbol :=
  (index.named name).find? (·.symbol.kind.isDeclaration)

/-- The symbols whose names contain a text, whatever the case of letters, in order
of their names. -/
def search (index : SymbolIndex) (query : Text) : List IndexedSymbol :=
  (index.filter fun s => s.symbol.name.fold.has query.fold).mergeSort
    fun a b => Text.le a.symbol.name b.symbol.name

end SymbolIndex

end Deriver
