import Deriver.Build.Basic
import Deriver.Cache.Basic

/-!
# Runs

A run expands files one by one: each is read, looked up in the cache, expanded if
it is not there, and its generated file is brought up to date. A file that fails
does not stop the others. What a run counts is counted over its results, so the
numbers always fit them.
-/

namespace Deriver

/-- What a run works on. -/
structure BuildState where
  files : FileTree
  cache : Cache

/-- What a run did, file by file. -/
structure Report where
  files : List FileResult

/-- What a run counts. -/
structure Metrics where
  total : Nat
  hits : Nat
  misses : Nat
  expanded : Nat
  written : Nat
  failed : Nat
  decls : Nat
  deriving DecidableEq, Repr

namespace Report

def failed (r : Report) : Bool := r.files.any (·.failed)

def diagnostics (r : Report) : List Diagnostic := r.files.flatMap (·.diagnostics)

def metrics (r : Report) : Metrics where
  total := r.files.length
  hits := (r.files.filter (·.cached)).length
  misses := (r.files.filter (!·.cached)).length
  expanded := (r.files.filter (!·.cached)).length
  written := (r.files.filter (·.written)).length
  failed := (r.files.filter (·.failed)).length
  decls := (r.files.flatMap (·.decls)).length

end Report

/-- The share of files that came from the cache, in hundredths of a percent and
rounded to the nearest. -/
def Metrics.hitRate (m : Metrics) : Nat :=
  if m.total = 0 then 0 else (m.hits * 20000 + m.total) / (2 * m.total)

/-- The result with one more diagnostic: the generated file could not be written. -/
def FileResult.notWritten (r : FileResult) (e : FileError) : FileResult :=
  let d := (Cause.outputWrite r.outputPath e.message).diagnostic ⟨0, 0⟩
  { r with diagnostics := r.diagnostics ++ [{ d with file := r.path }] }

namespace BuildOptions

/-- The tree with the generated file, whose directory is made if need be. -/
def store (r : FileResult) (t : FileTree) : Except FileError FileTree := do
  (← t.makeDirs (FileName.dir r.outputPath)).write r.outputPath r.output

/-- Brings the generated file up to date. A source without derives has none, so
an old one is removed; one that generates nothing because it failed keeps its
last one; and one that would not change is not written. -/
def save (o : BuildOptions) (r : FileResult) (t : FileTree) : FileResult × FileTree :=
  if o.dryRun then (r, t)
  else if r.output.isEmpty then
    if r.failed then (r, t) else (r, (t.remove r.outputPath).toOption.getD t)
  else if (t.read r.outputPath).toOption == some r.output then (r, t)
  else
    let made := (t.makeDirs (FileName.dir r.outputPath)).toOption.getD t
    match store r t with
    | .ok t => ({ r with written := true }, t)
    | .error e => (r.notWritten e, made)

/-- The key under which the output of a file is remembered: the output names its
source, so the name is part of the content. -/
def cacheKey (o : BuildOptions) (path content : Text) : Text :=
  contentKey o.salt (FileName.base path ++ 0 :: content)

def unreadable (o : BuildOptions) (path : Text) (e : FileError) : FileResult :=
  let d := (Cause.codegenFailed ("failed to read file: " ++ e.message)).diagnostic ⟨0, 0⟩
  { path := path, outputPath := o.outputPath path,
    diagnostics := [{ d with file := path }] }

/-- Whether a result is remembered: only one that there is nothing to say about. -/
def isClean (r : FileResult) : Bool :=
  r.diagnostics.all fun d => d.severity != .error && d.severity != .warning

/-- Expands one file and saves what it generates. -/
def runFile (o : BuildOptions) (m : Moment) (path : Text) (s : BuildState) :
    FileResult × BuildState :=
  match s.files.read path with
  | .error e => (o.unreadable path e, s)
  | .ok content =>
      let key := o.cacheKey path content
      match s.cache.lookup m key with
      | (some output, cache) =>
          let (r, files) := o.save
            { path := path, outputPath := o.outputPath path, output := output,
              cached := true }
            s.files
          (r, { files := files, cache := cache })
      | (none, cache) =>
          let r := o.expandSource path content
          let cache := if isClean r then cache.store m key r.output else cache
          let (r, files) := o.save r s.files
          (r, { files := files, cache := cache })

def runFiles (o : BuildOptions) (m : Moment) :
    List Text → BuildState → List FileResult × BuildState
  | [], s => ([], s)
  | path :: rest, s =>
      let (r, s) := o.runFile m path s
      let (rs, s) := o.runFiles m rest s
      (r :: rs, s)

/-- Expands files; a run that was called off does nothing, if there was anything
to do. -/
def run (o : BuildOptions) (m : Moment) (paths : List Text) (s : BuildState) :
    Except Text Report × BuildState :=
  if m.cancelled && !paths.isEmpty then (.error cancelledText, s)
  else
    let (results, s) := o.runFiles m paths s
    (.ok ⟨results⟩, s)

end BuildOptions

end Deriver
