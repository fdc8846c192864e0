import Deriver.Build.Run
import Deriver.Command.Line
import Deriver.Config.Load
import Deriver.Console.Message

/-!
# Commands

A command works on files and says something on two channels. Besides the files
and its command line it depends on the host it runs on, and on nothing else:
time, identity and colours come from there.

What a command does is a `Transcript` that grows step by step: each step adds to
the channels or changes the files, and a failure ends the command with what was
said before it.
-/

namespace Deriver

/-- What a command depends on besides its files and its command line. -/
structure Host where
  env : Environment := []
  processors : Nat := 1
  /-- Whether the terminal shows colours. -/
  color : Bool := false
  moment : Moment := {}
  /-- The name of a run. -/
  runId : Text := []
  /-- How long a run took, in nanoseconds and as it is shown. -/
  elapsed : Int := 0
  elapsedText : Text := "0s"
  /-- The time of day as it is shown. -/
  clock : Text := []
  /-- What built the tool. -/
  toolchain : Text := []

/-- What a command has done so far. -/
structure Transcript where
  files : FileTree
  out : Text := []
  err : Text := []
  /-- What a prompt drew on the terminal itself. -/
  prompted : Text := []

/-- What became of a command. -/
structure Finished extends Transcript where
  error : Option Text

/-- A step of a command: it goes on, or fails with a message. -/
abbrev Command := StateT Transcript (Except (Text × Transcript))

namespace Command

def say (t : Text) : Command Unit := modify fun p => { p with out := p.out ++ t }

def warn (t : Text) : Command Unit := modify fun p => { p with err := p.err ++ t }

def fail {α : Type} (message : Text) : Command α := do throw (message, ← get)

/-- A result, or the end of the command. -/
def orFail {α : Type} : Except Text α → Command α
  | .ok x => pure x
  | .error e => fail e

def files : Command FileTree := return (← get).files

def setFiles (t : FileTree) : Command Unit := modify fun p => { p with files := t }

def build (h : Host) (o : BuildOptions) (paths : List Text) (cache : Cache) :
    Command (Except Text Report) := do
  let (result, state) := o.run h.moment paths ⟨← files, cache⟩
  setFiles state.files
  return result

def finish (c : Command Unit) (files : FileTree) : Finished :=
  match c.run { files := files } with
  | .ok (_, p) => ⟨p, none⟩
  | .error (e, p) => ⟨p, some e⟩

end Command

/-! ## The project -/

/-- The project that a command works on. -/
structure Project where
  config : Config
  root : Text
  color : Bool

def toolVersion : Text := "dev"

namespace Project

def colorOf (h : Host) (i : Invocation) : Bool := h.color && !i.switch "no-color"

/-- The root of the project and its configuration, as the command line asks. -/
def configOf (h : Host) (i : Invocation) (files : FileTree) :
    Text × Except ConfigFault Config :=
  let usual := Config.usual h.processors
  let path := i.text "config" []
  if path.isEmpty then
    let root := Config.findRoot files
    (root, Config.load h.env usual root files)
  else (FileName.dir path, Config.loadFile h.env usual path files)

/-- Loads the project. A configuration that cannot be used is also reported. -/
def load (h : Host) (i : Invocation) : Command Project := do
  let color := colorOf h i
  match configOf h i (← Command.files) with
  | (_, .error e) =>
      Command.warn ((Message.configError e.message []).render color)
      Command.fail e.message
  | (root, .ok c) =>
      let c := match i.value? "log-level" with
        | some level => { c with logLevel := level }
        | none => c
      let dir := if c.outputDir.isEmpty || FileName.isAbsolute c.outputDir then c.outputDir
        else FileName.join [root, c.outputDir]
      match c.logFault? with
      | some e => Command.fail e
      | none => return ⟨{ c with outputDir := dir }, root, color⟩

/-- How the files of the project are expanded. The key of a cached result covers
the version of the tool and the crate that generated code leans on. -/
def buildOptions (p : Project) : BuildOptions :=
  { p.config.buildOptions with
    salt := Text.concat [toolVersion, [0], p.config.supportCrate] }

/-- Opens the cache of the project; without it the command goes on uncached. -/
def openCache (p : Project) : Command Cache :=
  match Cache.open? p.config.cacheSettings with
  | .ok cache => pure cache
  | .error e => do
      let message := "cache unavailable, continuing without it: " ++ e
      Command.warn ((Message.warning message []).render p.color)
      return .none

/-- The paths a command was given, or the root of the project. -/
def inputs (p : Project) (i : Invocation) : List Text :=
  if i.args.isEmpty then [p.root] else i.args

def sources (p : Project) (i : Invocation) : Command (List Text) := do
  Command.orFail ((← Command.files).collect
    (p.inputs i) p.config.suffix p.config.watch.ignored)

end Project

end Deriver
