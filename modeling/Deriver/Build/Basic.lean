import Deriver.Derive.File
import Deriver.Files.Name
import Deriver.Files.Tree

/-!
# What is generated for one file

The generated code of a source goes to a file of its own, whose name is that of
the source with another ending. Expanding a source touches no file: it says what
the generated file would hold and what there is to report.
-/

namespace Deriver

def sourceExtension : Text := ".rs"

def defaultSuffix : Text := ".derive.rs"

/-- An ending of generated files, or the usual one. -/
def orDefaultSuffix (suffix : Text) : Text :=
  if suffix.isEmpty then defaultSuffix else suffix

/-- How files are expanded. -/
structure BuildOptions where
  support : Support
  /-- Where generated files go; next to their sources if empty. -/
  outputDir : Text := []
  suffix : Text := defaultSuffix
  /-- Expand without writing. -/
  dryRun : Bool := false
  /-- What else shapes the generated code, for the keys of the cache. -/
  salt : Text := []

def BuildOptions.outputPath (o : BuildOptions) (path : Text) : Text :=
  let name := (FileName.base path).dropTail (FileName.extension path) ++ o.suffix
  FileName.join [if o.outputDir.isEmpty then FileName.dir path else o.outputDir, name]

def isSource (suffix path : Text) : Bool :=
  FileName.extension path == sourceExtension && !path.endsWith suffix

/-- What became of one file. -/
structure FileResult where
  path : Text
  outputPath : Text
  /-- The generated file; empty if nothing is generated. -/
  output : Text := []
  decls : List ExpandedDecl := []
  diagnostics : List Diagnostic := []
  /-- Whether the output came from the cache. -/
  cached : Bool := false
  /-- Whether the generated file was written. -/
  written : Bool := false

def FileResult.failed (r : FileResult) : Bool := r.diagnostics.any (·.isError)

/-- The diagnostic with its line and the neighbours of that line, if it has none
and its line exists. -/
def Diagnostic.withSource (lines : List Text) (d : Diagnostic) : Diagnostic :=
  let line := d.site.line.toNat
  if d.snippet.isSome || d.site.line < 1 || lines.length < line then d
  else
    { d with snippet := some {
        current := (lines[line - 1]?).getD []
        lines := some ((lines.take (line + 1)).drop (line - 2)) } }

/-- The diagnostics of a file, with its name and the lines they are about. -/
def placeDiagnostics (path source : Text) (ds : List Diagnostic) : List Diagnostic :=
  Diagnostic.stampFile path (ds.map (Diagnostic.withSource (source.splitOn "\n")))

/-- A declaration whose diagnostics have the name of the file and their lines. -/
def ExpandedDecl.placed (path source : Text) (d : ExpandedDecl) : ExpandedDecl :=
  let place := placeDiagnostics path source
  { d with
    expansions := d.expansions.map fun e => { e with warnings := place e.warnings }
    diagnostics := place d.diagnostics }

/-- Expands a file that was parsed. A file with syntax errors is not expanded. -/
def BuildOptions.expandParsed (o : BuildOptions) (path source : Text) (parsed : Parsed) :
    FileResult :=
  let result : FileResult := { path := path, outputPath := o.outputPath path }
  if parsed.errors.isEmpty then
    let decls := (parsed.file.expand o.support).map (·.placed path source)
    { result with
      decls := decls
      diagnostics := decls.flatMap (·.diagnostics)
      output := if decls.any (·.generates) then renderGenerated
        (FileName.base path) decls else [] }
  else
    let ds := parsed.errors.map fun e =>
      (Cause.badSyntax e.message e.token.lexeme).diagnostic e.pos
    { result with diagnostics := placeDiagnostics path source ds }

def BuildOptions.expandSource (o : BuildOptions) (path source : Text) : FileResult :=
  o.expandParsed path source (parse source)

/-!
## Collecting the sources

The arguments of a command are files and directories. A file is taken as it is; a
directory stands for the sources below it, but for those in directories of
certain names.
-/

/-- The names of directories that are left out if nothing else is said. -/
def defaultIgnored : List Text := ["target", ".git"]

/-- The sources below a directory. The directory itself is never left out. -/
def FileTree.sourcesBelow (t : FileTree) (suffix : Text) (ignored : List Text)
    (root : Text) : List Text :=
  match t.resolve root with
  | .error _ => []
  | .ok top => (t.walk top).filterMap fun (place, entry) =>
      let name := FileName.join (root :: place)
      if entry.isDir || place.dropLast.any ignored.contains || !isSource suffix name
        then none
      else some name

/-- The files that one argument stands for. -/
def FileTree.sourcesOf (t : FileTree) (suffix : Text) (ignored : List Text) (path : Text) :
    Except Text (List Text) :=
  match t.stat path with
  | .error e => .error (Text.concat ["cannot read ", path, ": ", e.message])
  | .ok (.file _) => .ok [path]
  | .ok .dir => .ok (t.sourcesBelow suffix ignored path)

/-- The files that the arguments stand for, each once and sorted. -/
def FileTree.collect (t : FileTree) (paths : List Text) (suffix : Text)
    (ignored : List Text) : Except Text (List Text) := do
  let found ← paths.mapM (t.sourcesOf (orDefaultSuffix suffix) ignored)
  return Text.sort (Text.distinct found.flatten)

end Deriver
