import Deriver.Build.Incremental
import Deriver.Command.Basic
import Deriver.Command.Inspect
import Deriver.Console.Progress
import Deriver.Console.Report
import Deriver.Server.Basic

/-!
# Running a command line

A command line names a command, which is run on some files.
-/

/-!
## Expanding and checking

`expand` writes the generated files of a project and `check` only says what would
fail. Both end with an error if a file failed, so that a script notices.
-/

namespace Deriver

/-! ### Reports as JSON -/

/-- A field with diagnostics, left out if there are none. -/
def diagnosticsField (name : String) (ds : List Diagnostic) : List (Text × Json) :=
  if ds.isEmpty then [] else [Json.field name (Diagnostic.listToJson ds)]

def Expansion.toJson (e : Expansion) : Json :=
  .obj ([Json.field "trait" e.trait, Json.field "code" e.code] ++
    diagnosticsField "warnings" e.warnings)

def Position.toJson (p : Position) : Json :=
  .obj [Json.field "line" p.line, Json.field "column" p.column]

def ExpandedDecl.toJson (d : ExpandedDecl) : Json :=
  let expansions : Json :=
    if d.expansions.isEmpty then .null else .arr (d.expansions.map (·.toJson))
  .obj (List.flatten [
    [Json.field "name" d.name, Json.field "location" d.pos.toJson,
      Json.field "expansions" expansions],
    diagnosticsField "errors" d.diagnostics,
    if d.ignored.isEmpty then [] else [Json.field "ignored" (.texts d.ignored)]])

/-- What became of a file, as JSON. -/
def FileResult.toJson (r : FileResult) : Json :=
  .obj (List.flatten [
    [Json.field "path" r.path, Json.field "output_path" r.outputPath],
    if r.decls.isEmpty then []
      else [Json.field "declarations" (.arr (r.decls.map (·.toJson)))],
    diagnosticsField "errors" r.diagnostics,
    [Json.field "cached" r.cached, Json.field "written" r.written]])

def Metrics.toJson (m : Metrics) (elapsed : Int) : Json :=
  .obj [Json.field "total_files" m.total, Json.field "cache_hits" m.hits,
    Json.field "cache_misses" m.misses, Json.field "files_expanded" m.expanded,
    Json.field "files_written" m.written, Json.field "files_failed" m.failed,
    Json.field "declarations" m.decls, Json.field "duration" elapsed]

def Report.toJson (r : Report) (h : Host) : Json :=
  .obj [Json.field "run_id" h.runId, Json.field "files" (.arr (r.files.map (·.toJson))),
    Json.field "metrics" (r.metrics.toJson h.elapsed)]

namespace Command

/-! ### check -/

/-- Says what is wrong with the sources, and writes nothing. -/
def check (h : Host) (i : Invocation) : Command Unit := do
  let p ← Project.load h i
  let format ← orFail
    (ReportFormat.ofName (if i.switch "json" then "json" else i.text "format" "pretty"))
  let paths ← p.sources i
  let cache ← p.openCache
  let report ← orFail (← build h { p.buildOptions with dryRun := true } paths cache)
  let ds := report.diagnostics
  say (Diagnostic.report format p.color ds)
  let errors := Diagnostic.count .error ds
  if format != .json then
    let summary :=
      Text.concat ["Checked ", .ofNat paths.length, " file(s): ", Diagnostic.tally ds]
    warn (if errors = 0 then Message.success p.color summary else summary ++ "\n")
  if errors != 0 then fail (Text.concat ["check found ", .ofNat errors, " error(s)"])

/-! ### expand -/

/-- What the progress bar prints while files are expanded and at the end. -/
def progressOf (results : List FileResult) (total : Nat) : Text :=
  let start := ProgressBar.new total 30 []
  let step (acc : ProgressBar × Text) (r : FileResult) : ProgressBar × Text :=
    let bar := acc.1.step r.path r.failed
    (bar, acc.2 ++ bar.draw true)
  let (bar, drawn) := results.foldl step (start, [])
  drawn ++ bar.closing true

/-- The generated files of a run, each under its name if there are several. -/
def generated (r : Report) : Text :=
  Text.concat (r.files.map fun f =>
    if f.output.isEmpty then []
    else if r.files.length > 1 then Text.concat
      ["// ==> ", f.outputPath, " <==\n", f.output]
    else f.output)

/-- The sentence about a run that went well. -/
def expandSummary (m : Metrics) (h : Host) (dryRun : Bool) : Text :=
  if dryRun then
    Text.concat ["Dry run: expanded ", .ofNat m.decls, " declaration(s) in ",
      .ofNat m.total, " file(s), nothing written"]
  else
    Text.concat ["Expanded ", .ofNat m.decls, " declaration(s) in ",
      .ofNat m.total, " file(s), ", .ofNat m.written, " written (", .ofNat m.hits,
      " cached) in ", h.elapsedText]

def expand (h : Host) (i : Invocation) : Command Unit := do
  let p ← Project.load h i
  let format ← orFail (ReportFormat.ofName (i.text "format" "pretty"))
  let asJson := i.switch "json"
  let asCode := i.switch "stdout"
  let dryRun := i.switch "dry-run"
  let paths ← p.sources i
  if paths.isEmpty then
    if asJson then say ((Report.toJson ⟨[]⟩ { h with runId := [] }).indented ++ "\n")
    else warn ((Message.info "No Rust sources found.").render p.color)
    return
  let cache ← p.openCache
  let result ← build h { p.buildOptions with dryRun := dryRun || asCode } paths cache
  if !asJson && !asCode && p.color && paths.length > 1 then
    warn (progressOf ((result.toOption.map (·.files)).getD []) paths.length)
  let report ← orFail result
  if asJson then say ((report.toJson h).indented ++ "\n")
  else
    if asCode then say (generated report)
    warn (Diagnostic.report format p.color report.diagnostics)
  let m := report.metrics
  if report.failed then
    if !asJson then warn ((Message.expansionFailed m.failed m.total).render p.color)
    fail (Text.concat [.ofNat m.failed, " of ", .ofNat m.total,
      " file(s) failed to expand"])
  if !asJson && !asCode then say (Message.success p.color (expandSummary m h dryRun))

end Command

end Deriver

/-!
## Creating a configuration

`init` writes the usual configuration into a directory. Without consent it asks
first; a prompt needs somebody to answer, and finds nobody.
-/

namespace Deriver.Command

/-- What the first question draws: the question, the usual answer, and the marks
by which the terminal is asked for its size. -/
def firstPrompt : Text :=
  "\x1b[0G\x1b[2K\x1b[1;92m? \x1b[0m\x1b[1;99mRuntime crate name: \x1b[0m\x1b[36m[? for help]" ++
    "\x1b[0m \x1b[37m(derivekit) \x1b[0m\x1b[?25l\x1b[?25l\x1b7\x1b[999;999f\x1b[6n\x1b8\x1b[?25h" ++
    "\x1b[6n\x1b[?25h"

def prompt : Command Unit := do
  modify fun p => { p with prompted := p.prompted ++ firstPrompt }
  fail "prompt failed: EOF"

def init (h : Host) (i : Invocation) : Command Unit := do
  let color := Project.colorOf h i
  let dir := i.args.headD "."
  if !(← files).hasDir dir then fail (dir ++ " is not a directory")
  let path := FileName.join [dir, configFileName]
  if (← files).has path && !i.switch "force" then
    let message : Message :=
      { level := .error, context := "Already initialized",
        problem := path ++ " already exists."
        help := ["Overwrite it: derivekit init --force"] }
    warn (message.render color)
    fail (path ++ " already exists")
  if !i.switch "yes" then prompt
  let (written, after) ← orFail ((Config.usual h.processors).save dir (← files))
  setFiles after
  say (Message.success color ("Created " ++ written))
  say "\nNext steps:\n  derivekit runtime --out <crate>/src/lib.rs\n  derivekit expand\n"

end Deriver.Command

/-!
## Watching a project

`watch` builds everything once, then hears of changes and builds what changed,
batch by batch, until it is interrupted. A run of it is a start, any number of
batches and an end, each with what it printed.
-/

namespace Deriver

/-- A project that is being watched. -/
structure Watching where
  host : Host
  project : Project
  format : ReportFormat
  state : BuildState
  watcher : FileWatcher

namespace Command

/-- Says what came of a batch. Files that were removed come first; of a batch with
errors only these are shown, and else how much was done. -/
def sayRebuilt (h : Host) (format : ReportFormat) (color : Bool) (r : Rebuilt) :
    Command Unit := do
  say (Text.concat (r.removed.map fun path =>
    (Message.info ("Removed " ++ path)).render color))
  match r.report with
  | none => pure ()
  | some report =>
      let m := report.metrics
      let stamp := Text.concat ["[", h.clock, "] "]
      if report.failed then
        warn (Diagnostic.report format color report.diagnostics)
        warn (Text.concat [stamp, .ofNat m.failed, " of ", .ofNat m.total,
          " file(s) failed\n"])
      else
        say (Message.success color
          (Text.concat [stamp, .ofNat m.total, " file(s) expanded, ",
          .ofNat m.written, " written in ", h.elapsedText]))

def startWatch (h : Host) (i : Invocation) : Command Watching := do
  let p ← Project.load h i
  let format ← orFail (ReportFormat.ofName (i.text "format" "pretty"))
  let root := i.args.headD p.root
  if !(← files).hasDir root then fail (root ++ " is not a directory")
  let cache ← p.openCache
  let (result, state) :=
    p.buildOptions.buildAll h.moment root p.config.watch.ignored ⟨← files, cache⟩
  setFiles state.files
  if p.color then warn (Spinner.stop ⟨"Expanding " ++ root, true⟩).2
  sayRebuilt h format p.color (← orFail result)
  let watcher ← orFail (FileWatcher.start (p.config.watchOptions root) state.files)
  say "\n"
  say (Style.paint p.color .cyanBold (Text.concat ["👀 Watching ", root, "\n"]))
  say "   Press Ctrl+C to stop\n\n"
  return ⟨h, p, format, state, watcher⟩

def stopWatch : Command Unit := say "\nShutting down...\n"

/-- Watches until it is interrupted, which is at once. -/
def watch (h : Host) (i : Invocation) : Command Unit := do
  let _ ← startWatch h i
  stopWatch

end Command

namespace Watching

/-- What is watched after a batch of changes, and what was printed. -/
def batch (w : Watching) (changes : List Change) : Watching × Finished :=
  let step (acc : FileWatcher × FileTree) (c : Change) := acc.1.observe acc.2 c
  let (watcher, tree) := changes.foldl step (w.watcher, w.state.files)
  let (changed, watcher) := watcher.settle
  let w := { w with watcher := watcher, state := { w.state with files := tree } }
  if changed.isEmpty then (w, ⟨{ files := tree }, none⟩)
  else
    let (result, state) := w.project.buildOptions.rebuild w.host.moment changed w.state
    let told : Command Unit := match result with
      | .ok r => Command.sayRebuilt w.host w.format w.project.color r
      | .error _ => pure ()
    ({ w with state := state }, told.finish state.files)

end Watching

end Deriver

/-!
## Running a command

The command that a line names, run on some files. A line that cannot be followed
is an error of its own; one that asks for help prints nothing here.
-/

namespace Deriver

namespace Command

def serve (h : Host) (i : Invocation) : Command LanguageServer := do
  let p ← Project.load h i
  let cache ← p.openCache
  return .new p.buildOptions p.config.watch.ignored ⟨← files, cache⟩

def perform (h : Host) (i : Invocation) : Command Unit :=
  match i.command.path.map (·.display) with
  | ["version"] => version h i
  | ["init"] => init h i
  | ["expand"] => expand h i
  | ["check"] => check h i
  | ["list"] => list h i
  | ["runtime"] => supportCrate h i
  | ["watch"] => watch h i
  | ["lsp"] => do let _ ← serve h i
  | ["debug", "ast"] => outline i
  | ["debug", "state"] => state h i
  | _ => pure ()

/-- What a command line says, as the beginning of a command that goes on with it. -/
def withLine {α : Type} (words : List Text) (f : Invocation → Command α) : Command α :=
  match Invocation.ofWords words with
  | .ok i => f i
  | .error e => fail e.message

end Command

def runLine (h : Host) (words : List Text) (files : FileTree) : Finished :=
  match Invocation.ofWords words with
  | .error .help => ⟨{ files := files }, none⟩
  | _ => (Command.withLine words (Command.perform h)).finish files

def Finished.reported (f : Finished) (color : Bool) : Finished :=
  match f.error with
  | some e =>
      { f with
        err := f.err ++ Style.paint color .redBold (Text.concat ["Error: ", e, "\n"]) }
  | none => f

/-- Starts the command that a line names and answers what it started, if that
went well, with what was said on the way. -/
def startLine {α : Type} (start : Invocation → Command α) (words : List Text)
    (files : FileTree) : Finished × Option α :=
  match (Command.withLine words start).run { files := files } with
  | .ok (x, t) => (⟨t, none⟩, some x)
  | .error (e, t) => (⟨t, some e⟩, none)

end Deriver
