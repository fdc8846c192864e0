import Deriver.Build.Basic
import Deriver.Cache.Sources
import Deriver.Derive.Catalogue
import Deriver.Editor.Position
import Deriver.Editor.Symbol
import Deriver.Text.Class.Letter
import Deriver.Url

/-!
# Editor sessions

A session holds the documents that an editor has open, each with what parsing and
expanding its content gave, and answers questions about them. What is asked of a
document that is not open fails.
-/

/-!
## Completions

What can be written at a position depends on the attribute that is still open
there. The text before the position tells: the last `#[`, if no bracket closes it,
and what stands behind it.
-/

namespace Deriver

/-- What a completion is. -/
inductive CompletionKind where
  | derive
  | attr
  | key
  | value
  | snippet
  deriving DecidableEq, Repr

def CompletionKind.name : CompletionKind → Text
  | .derive => "derive"
  | .attr => "attribute"
  | .key => "key"
  | .value => "value"
  | .snippet => "snippet"

/-- A completion. -/
structure Completion where
  label : Text
  kind : CompletionKind
  detail : Text
  doc : Text := []
  /-- What is inserted, if it is not the label. -/
  insert : Text := []
  /-- By what it is sorted, if not by the label. -/
  sortKey : Text := []
  deriving DecidableEq, Repr

/-- Where a completion is asked for. -/
inductive CompletionContext where
  /-- Outside any attribute. -/
  | outside
  /-- In a derive list with these entries before. -/
  | deriveList (written : List Text)
  /-- Where the name of an attribute goes. -/
  | attrName
  /-- In a helper attribute with these entries before. -/
  | keyOf (attr : Text) (written : List Text)
  /-- In a string that is the value of a key. -/
  | valueOf (attr key : Text)
  deriving DecidableEq, Repr

namespace CompletionContext

/-- The entries of a list that are complete, by the last segment of their paths. -/
def writtenEntries (args : Text) : List Text :=
  (args.splitOn ",").dropLast.filterMap fun part =>
    let part := part.trim
    let part : Text := match part.findLast? "::" with
      | some n => part.drop (n + 2)
      | none => part
    if part.isEmpty then none else some part

/-- The key whose string the arguments end in. -/
def openKey? (args : Text) : Option Text :=
  if args.count 34 % 2 = 0 then none
  else
    let before : Text := ((args.findLast? "\"").map args.take).getD []
    match before.trim.dropTail? "=" with
    | none => none
    | some before =>
        let isStop (b : UInt8) : Bool := b == 40 || b == 44 || b == 32
        let key := (before.trim.reverse.takeWhile (!isStop ·)).reverse
        if key.isEmpty then none else some key

def ofPrefix (before : Text) : CompletionContext :=
  match before.findLast? "#[" with
  | none => .outside
  | some n =>
      let inner : Text := before.drop (n + 2)
      if inner.has "]" then .outside
      else
        match inner.cut? "(" with
        | none => .attrName
        | some (name, args) =>
            let name := name.trim
            if name == "derive" then .deriveList (writtenEntries args)
            else match openKey? args with
              | some key => .valueOf name key
              | none => .keyOf name (writtenEntries args)

/-- The context at a position of a text. A line that does not exist is outside. -/
def ofPosition (content : Text) (p : EditorPosition) : CompletionContext :=
  match (lineStarts content)[p.line]? with
  | none => .outside
  | some start => ofPrefix (content.take (start + p.character))

end CompletionContext

namespace Derive

/-- What a derive does, in one line. -/
def summary (d : Derive) : Text :=
  if d.spec.path.isEmpty then
    Text.concat ["Generates inherent methods on the type (", d.family, ")."]
  else Text.concat ["Implements ", tick d.spec.path, " (", d.family, ")."]

def ofAttr? (attr : Text) : Option Derive := catalogue.find? (·.spec.attrs.contains attr)

end Derive

namespace Completion

def ordinal (n : Nat) : Text :=
  let digits := Text.ofNat n
  Text.times "0" (3 - digits.length) ++ digits

def derives (written : List Text) : List Completion :=
  (Derive.catalogue.mapIdx fun i d => (i, d)).filterMap fun (i, d) =>
    if written.contains d.name then none
    else some {
      label := d.name, kind := .derive, detail := d.family, doc := d.summary,
      sortKey := ordinal i }

/-- The names of helper attributes that take keys, each with its derive. -/
def helperNames : List (Text × Text) :=
  let pairs := (Derive.catalogue.filter (!·.spec.params.all.isEmpty)).flatMap fun d =>
    d.spec.attrs.map fun attr => (attr, d.name)
  (Text.distinct (pairs.map (·.1))).filterMap fun attr =>
    (pairs.find? (·.1 == attr)).filter (·.1 != "derive")

def attrNames : List Completion :=
  { label := "derive", kind := .attr, detail := "derive macro list", insert := "derive($0)"
    sortKey := "000" }
  :: helperNames.map fun (attr, derive) =>
    { label := attr, kind := .attr, detail := derive ++ " options",
      insert := attr ++ "($0)" }

def keyInsert (key : Text) : Text :=
  if key == "rename_all" then "rename_all = \"$0\""
  else if key == "types" then "types($0)"
  else if key == "error" then "error($0)"
  else []

/-- The keys of a helper attribute that are not written yet. -/
def keys (attr : Text) (written : List Text) : List Completion :=
  match Derive.ofAttr? attr with
  | none => []
  | some d => (d.spec.params.all.filter (!written.contains ·)).map fun key =>
      { label := key, kind := .key, insert := keyInsert key
        detail := "valid on " ++ Text.join ", " (d.spec.params.levelsFor key) }

def values (key : Text) : List Completion :=
  if key == "rename_all" then
    Casing.names.map fun name =>
      { label := name, kind := .value, detail := "rename_all case" }
  else []

def snippets : List Completion :=
  [{ label := "#[derive]", kind := .snippet, detail := "derive attribute"
     doc := "Request derives for the following declaration"
     insert := "#[derive($\x7b1\x7d)]" }]

def inContext : CompletionContext → List Completion
  | .outside => snippets
  | .deriveList written => derives written
  | .attrName => attrNames
  | .keyOf attr written => keys attr written
  | .valueOf _ key => values key

end Completion

end Deriver

namespace Deriver

/-- An open document. -/
structure Document where
  uri : Text
  path : Text
  content : Text
  version : Int
  file : SourceFile
  result : FileResult
  symbols : List Symbol

/-- A session. -/
structure Session where
  options : BuildOptions
  /-- Whether a hover shows generated code. -/
  preview : Bool := true
  documents : List Document := []
  index : SymbolIndex := []
  parsed : ParsedFiles := {}

/-- Why a session has no answer. -/
inductive SessionFault where
  | emptyUri
  | notOpen (uri : Text)
  deriving DecidableEq, Repr

def SessionFault.message : SessionFault → Text
  | .emptyUri => "document URI is empty"
  | .notOpen uri => "document not found: " ++ uri

/-- What is said of a place in a document. -/
structure EditorDiagnostic where
  range : EditorRange
  severity : Severity
  code : Text
  message : Text
  deriving DecidableEq, Repr

def diagnosticSource : Text := "derivekit"

/-- What a hover shows. -/
structure Hover where
  contents : Text
  range : EditorRange
  deriving DecidableEq, Repr

/-- Whether a path begins with a slash and a drive, such as `/c:`. -/
def startsWithDrive : Text → Bool
  | _ :: letter :: 58 :: _ :: _ => Text.isLetter (Char.ofNat letter.toNat)
  | _ => false

/-- The path of a document: that of a file URI, else the identifier itself. -/
def pathOfUri (uri : Text) : Text :=
  if uri.startsWith "file://" then
    match Url.ofText true uri with
    | .ok u => if startsWithDrive u.path then u.path.drop 1 else u.path
    | .error _ => uri
  else uri

namespace Document

/-- The diagnostics of a document, each with its suggestion. -/
def diagnostics (d : Document) : List EditorDiagnostic :=
  d.result.diagnostics.map fun x =>
    { range := .ofSite (d.content.splitOn "\n") x.site
      severity := x.severity
      code := x.code
      message := x.message ++ (if x.suggestion.isEmpty then [] else "\n" ++ x.suggestion) }

def resultsFor (d : Document) (name : Text) : List ExpandedDecl :=
  d.result.decls.filter (·.name == name)

end Document

namespace Hover

def ticked (items : List Text) : Text := Text.join ", " (items.map Derive.tick)

def fence : Text := "\x60\x60\x60"

/-- The line of code that shows what a symbol is. -/
def title (s : Symbol) : Text :=
  match s.kind with
  | .struct | .enum | .union => Text.concat [s.detail, " ", s.type]
  | .field => Text.concat [s.name, ": ", s.type]
  | .variant => s.detail
  | .derive => Text.concat ["#[derive(", s.name, ")]"]

/-- What a derive generated for a declaration, or why it did not. -/
def previewOf (trait : Text) (r : ExpandedDecl) : Text :=
  Text.concat (
    ((r.expansions.filter (·.trait == trait)).map fun e =>
      Text.concat [fence, "rust\n", e.code, fence, "\n"])
    ++ (r.diagnostics.filter (·.trait == trait)).map fun d =>
      Text.concat ["**", d.code, ":** ", d.message, "\n\n"])

/-- What there is to say of an entry of a derive list. -/
def aboutDerive (preview : Bool) (doc : Document) (s : Symbol) : Text :=
  match Derive.find? s.name with
  | none => "Not a derivekit derive; left to the compiler.\n"
  | some d =>
      let keys := d.spec.params.all
      Text.concat ["---\n\n", d.summary, "\n\n",
        if keys.isEmpty then []
        else Text.concat ["*Attribute:* ",
          Derive.tick (Text.concat ["#[", d.spec.attrs.headD [], "(...)]"]),
          " with ", ticked keys, "\n\n"],
        if preview then Text.concat ((doc.resultsFor s.container).map (previewOf d.name))
          else []]

def aboutDecl (r : ExpandedDecl) : Text :=
  Text.concat [
    if r.traits.isEmpty then [] else Text.concat ["*Derives:* ", ticked r.traits, "\n\n"],
    if r.failed then
      Text.concat
        ["*Failed:* ", Text.ofNat (Diagnostic.count .error r.diagnostics), " error(s)\n\n"]
    else []]

def ofSymbol (preview : Bool) (doc : Document) (s : Symbol) : Hover where
  contents := Text.concat [fence, "rust\n", title s, "\n", fence, "\n\n",
    if s.container.isEmpty then [] else Text.concat
      ["*In:* ", Derive.tick s.container, "\n\n"],
    if s.kind == .derive then aboutDerive preview doc s
    else if s.kind.isDeclaration then Text.concat ((doc.resultsFor s.name).map aboutDecl)
    else []]
  range := s.range

end Hover

namespace Session

def document? (s : Session) (uri : Text) : Option Document :=
  s.documents.find? (·.uri == uri)

/-- The document of a URI, which has to be open. -/
def document (s : Session) (uri : Text) : Except SessionFault Document :=
  match s.document? uri with
  | some d => .ok d
  | none => .error (.notOpen uri)

def put (s : Session) (d : Document) : Session :=
  { s with documents := d :: s.documents.filter (·.uri != d.uri) }

/-- A content parsed and expanded under a URI; the session keeps the parsed form
of the path. -/
def load (s : Session) (uri content : Text) (version : Int) : Document × Session :=
  let path := pathOfUri uri
  let (source, _, parsed) := s.parsed.parse path content
  let file := source.parsed.file
  ({ uri := uri, path := path, content := content, version := version, file := file
     result := s.options.expandParsed path content source.parsed
     symbols := Symbol.ofFile content file },
   { s with parsed := parsed })

/-- Opens a document with a content and a version. -/
def set (s : Session) (uri content : Text) (version : Int) :
    Except SessionFault (Document × Session) :=
  if uri.isEmpty then .error .emptyUri
  else
    let (d, s) := s.load uri content version
    .ok (d, { s.put d with index := s.index.insert uri d.symbols })

def openDocument (s : Session) (uri content : Text) :
    Except SessionFault (Document × Session) :=
  s.set uri content 1

/-- Gives a document a new content; the same content again only counts the
version. -/
def update (s : Session) (uri content : Text) (version : Int) :
    Except SessionFault (Document × Session) :=
  match s.document? uri with
  | some d =>
      if d.content == content then
        let d := { d with version := version }
        .ok (d, s.put d)
      else s.set uri content version
  | none => s.set uri content version

def close (s : Session) (uri : Text) : Session :=
  { s with
    documents := s.documents.filter (·.uri != uri)
    index := s.index.forget uri
    parsed := s.parsed.forget (pathOfUri uri) }

def symbolAt (s : Session) (uri : Text) (p : EditorPosition) :
    Except SessionFault (Document × Option Symbol) := do
  let d ← s.document uri
  return (d, Symbol.at? d.symbols p)

def hover (s : Session) (uri : Text) (p : EditorPosition) :
    Except SessionFault (Option Hover) := do
  let (d, symbol) ← s.symbolAt uri p
  return symbol.map (Hover.ofSymbol s.preview d)

def complete (s : Session) (uri : Text) (p : EditorPosition) :
    Except SessionFault (List Completion) := do
  let d ← s.document uri
  return Completion.inContext (.ofPosition d.content p)

/-- Where the symbol at a position is declared: a field whose type is declared in
an open document leads there, anything else to itself. -/
def definition (s : Session) (uri : Text) (p : EditorPosition) :
    Except SessionFault (Option EditorPlace) := do
  let (_, symbol) ← s.symbolAt uri p
  return symbol.map fun x =>
    let declared := if x.kind == .field && !x.type.isEmpty then
        s.index.declaration? (Symbol.baseTypeName x.type)
      else none
    (declared.map (·.place)).getD ⟨uri, x.range⟩

def references (s : Session) (uri : Text) (p : EditorPosition) :
    Except SessionFault (List EditorPlace) := do
  let (_, symbol) ← s.symbolAt uri p
  return (symbol.map fun x => (s.index.named x.name).map (·.place)).getD []

end Session

end Deriver
