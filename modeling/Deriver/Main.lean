import Deriver.Command.Run
import Deriver.Json.Parse
import Deriver.Json.Render

/-!
# The command line

The one module that touches the world. It reads the files that a command may
look at into a tree, runs the command on the tree, writes back what changed and
prints what was said. Two commands go on after they started: `watch` looks at the
files again and again, and `lsp` answers messages until its input ends.
-/

namespace Deriver.World

def bytesOf (t : Text) : ByteArray := ⟨t.toArray⟩

/-- The tree with what stands at a name and below it. Directories that no command
looks into are left out, and so is what cannot be read. -/
partial def readInto (t : FileTree) (name : String) : IO FileTree := do
  try
    let path ← IO.FS.realPath name
    if ← path.isDir then
      let t := (t.makeDirs name).toOption.getD t
      (← path.readDir).foldlM (fun t e => do
        if defaultIgnored.contains (e.fileName : Text) then return t
        readInto t (name ++ "/" ++ e.fileName)) t
    else
      let content := (← IO.FS.readBinFile name).toList
      let t := (t.makeDirs (FileName.dir name)).toOption.getD t
      return (t.write name content).toOption.getD t
  catch _ => return t

/-- The directories above a place, the nearest first. -/
def above (place : Place) : List Place :=
  (List.range place.length).reverse.map place.take

/-- The files that a command may look at: all below the working directory, the
configuration of the directories above it, and what the command line names. -/
def readFiles (args : List String) : IO FileTree := do
  let cwd := (← IO.currentDir).toString
  let place := (FileName.parts cwd).filter (!·.isEmpty)
  let t ← readInto (.empty place) cwd
  let t ← (above place).foldlM (fun t dir =>
    readInto t (Text.join "/" ([] :: dir ++ [configFileName])).display) t
  args.foldlM (fun t (arg : String) => do
    let name := ((arg : Text).splitOn "=").getLastD []
    if t.has name then return t else readInto t name.display) t

/-- Makes one change to the files of the host. -/
def apply : Change → IO Unit
  | .write name content => do
      IO.FS.createDirAll (FileName.dir name).display
      IO.FS.writeBinFile name.display (bytesOf content)
  | .makeDir name => IO.FS.createDirAll name.display
  | .remove name => do
      if ← (← IO.FS.realPath name.display).isDir then IO.FS.removeDirAll name.display
      else IO.FS.removeFile name.display
  | .rename source target => IO.FS.rename source.display target.display

/-- Prints what was said and writes back what changed. -/
def settle (before : FileTree) (f : Finished) : IO Unit := do
  (before.changesTo f.files).forM apply
  let stdout ← IO.getStdout
  let stderr ← IO.getStderr
  stdout.write (bytesOf (f.prompted ++ f.out))
  stdout.flush
  stderr.write (bytesOf f.err)
  stderr.flush

/-- A new name of a run: 128 random bits with the marks of a random identifier. -/
def newRunId : IO Text := do
  let bytes ← IO.getRandomBytes 16
  let digits := (bytes.toList.zipIdx.map fun (b, i) =>
    let n := b.toNat
    Text.hex 2 (if i == 6 then n % 16 + 64 else if i == 8 then n % 64 + 128 else n)).flatten
  let part (start size : Nat) : Text := (digits.drop start).take size
  return Text.join "-" [part 0 8, part 8 4, part 12 4, part 16 4, part 20 12]

def host : IO Host := do
  let env ← Environment.settings.filterMapM fun path => do
    let name := Environment.variableOf path
    return (← IO.getEnv name.display).map fun value => (name, (value : Text))
  let plain :=
    ((← IO.getEnv "NO_COLOR").getD "") != "" || (← IO.getEnv "TERM") == some "dumb"
  return { env := env, color := !plain && (← (← IO.getStdout).isTty), runId := ← newRunId }

def milliseconds (n : Nat) : Nat := (n + 500000) / 1000000 * 1000000

/-- Runs a command line and answers the code that the process ends with. The time
that is shown was taken on a first run, whose files are thrown away. -/
def run (h : Host) (args : List String) (files : FileTree) : IO UInt32 := do
  let words := args.map Text.ofString
  let start ← IO.monoNanosNow
  let _ ← IO.lazyPure fun _ => (runLine h words files).out.length
  let elapsed := (← IO.monoNanosNow) - start
  let h := { h with
    elapsed := elapsed, elapsedText := Duration.render (milliseconds elapsed) }
  let f := (runLine h words files).reported h.color
  settle files f
  return if f.error.isSome then 1 else 0

/-- Looks at the files until the process is ended, and builds what changed. -/
partial def watchLoop (args : List String) (w : Watching) : IO Unit := do
  IO.sleep (w.project.config.watch.debounce / 1000000).toNat.toUInt32
  let files ← readFiles args
  let (after, f) := w.batch (w.state.files.changesTo files)
  settle files f
  watchLoop args after

/-! ## Messages of the language server -/

/-- Sends a message: its length in a header, an empty line, then the message. -/
def send (j : Json) : IO Unit := do
  let body := j.compact
  let stdout ← IO.getStdout
  stdout.write
    (bytesOf (Text.concat ["Content-Length: ", .ofNat body.length, "\r\n\r\n", body]))
  stdout.flush

/-- The length that the header of a message gives; none at the end of the input. -/
partial def readHeader (size : Nat) : IO (Option Nat) := do
  let line ← (← IO.getStdin).getLine
  if line.isEmpty then return none
  let text := (line : Text).trim
  if text.isEmpty then return some size
  match text.dropStart? "Content-Length:" with
  | some n => readHeader (n.trim.display.toNat?.getD size)
  | none => readHeader size

/-- So many bytes of the input, fewer at its end. -/
partial def readBytes (size : Nat) (got : ByteArray) : IO ByteArray := do
  if got.size ≥ size then return got
  let more ← (← IO.getStdin).read (size - got.size).toUSize
  if more.isEmpty then return got
  readBytes size (got ++ more)

/-- Answers messages until the client leaves. -/
partial def serveLoop (s : LanguageServer) : IO Unit := do
  let some size ← readHeader 0 | return
  let some message := Json.parse? (← readBytes size .empty).toList | serveLoop s
  let versioned (fields : List (Text × Json)) : Json :=
    .obj (Json.field "jsonrpc" "2.0" :: fields)
  let method := Server.textAt message "method"
  let (after, response) := s.handle method (message.get? "params")
  (s.state.files.changesTo after.state.files).forM apply
  response.notifications.forM fun n =>
    send (versioned [Json.field "method" n.method, ("params", n.params)])
  if let some id := message.get? "id" then
    let answer : Text × Json := match response.answer with
      | .ok result => ("result", result)
      | .error e =>
          ("error", .obj [Json.field "code" e.code, Json.field "message" e.message])
    send (versioned [("id", id), answer])
  if method == "exit" then return
  serveLoop after

/-- Starts a command that goes on, and goes on with it. -/
def keepRunning {α : Type} (h : Host) (args : List String) (files : FileTree)
    (start : Invocation → Command α) (go : α → IO Unit) : IO UInt32 := do
  let (f, started) := startLine start (args.map Text.ofString) files
  settle files (f.reported h.color)
  match started with
  | some x => go x; return 0
  | none => return 1

def start (args : List String) : IO UInt32 := do
  let h ← host
  let files ← readFiles args
  match Invocation.ofWords (args.map Text.ofString) with
  | .ok i =>
      match i.command.path.map (·.display) with
      | ["watch"] => keepRunning h args files (Command.startWatch h) (watchLoop args)
      | ["lsp"] => keepRunning h args files (Command.serve h) serveLoop
      | _ => run h args files
  | .error _ => run h args files

end Deriver.World

def main (args : List String) : IO UInt32 := Deriver.World.start args
