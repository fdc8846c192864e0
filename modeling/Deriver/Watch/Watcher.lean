import Deriver.Files.Tree
import Deriver.Text.Basic

/-!
# Watching a directory

A watcher hears of what happens in the directories it watches: the root and all
directories below it, but for hidden ones and those of certain names. It gathers
the names of the files that changed. A directory that appears is watched from
then on, and what is in it already is not reported.
-/

/-!
## Changes of a tree of files

What others do to the files while they are watched, and what a watched directory
hears of it.
-/

namespace Deriver

/-- Something done to a tree of files. -/
inductive Change where
  | write (name content : Text)
  | makeDir (name : Text)
  /-- With all that is below. -/
  | remove (name : Text)
  | rename (source target : Text)
  deriving Repr

/-- What happens at one place. -/
inductive Happening where
  | created (place : Place)
  | written (place : Place)
  | removed (place : Place)
  | renamed (source target : Place)
  deriving DecidableEq, Repr

/-- Whether what stands at a place can be given another. A directory does not go below
itself, nothing takes the place of a directory, and a directory takes that of nothing. -/
def FileTree.canMove (t : FileTree) (source target : Place) : Bool :=
  match t.at? source, t.at? target with
  | some _, none => !isBelow source target
  | some (.file _), some (.file _) => source != target
  | _, _ => false

namespace Change

/-- The directories that are new in `after`. -/
def newDirs (before after : FileTree) : List Happening :=
  after.entries.filterMap fun (place, entry) =>
    if entry.isDir && (before.at? place).isNone then some (.created place) else none

/-- The tree after a change, and what happened, in order. A change that cannot be
done does nothing. -/
def apply (t : FileTree) : Change → FileTree × List Happening
  | .write name content =>
      let dirs := (t.makeDirs (FileName.dir name)).toOption.getD t
      match dirs.resolve name, dirs.write name content with
      | .ok place, .ok after =>
          let isNew := (dirs.at? place).isNone
          (after, newDirs t dirs ++ (if isNew then [.created place] else []) ++
            [.written place])
      | _, _ => (t, [])
  | .makeDir name =>
      match t.makeDirs name with
      | .ok after => (after, newDirs t after)
      | .error _ => (t, [])
  | .remove name =>
      match t.resolve name with
      | .ok place =>
          if place.isEmpty || (t.at? place).isNone then (t, [])
          else
            (t.removeAll name,
              ((t.below place).reverse.map fun e => .removed e.1) ++ [.removed place])
      | .error _ => (t, [])
  | .rename source target =>
      match t.resolve source, t.resolve target with
      | .ok s, .ok d =>
          if t.canMove s d then (t.rename source target, [.renamed s d]) else (t, [])
      | _, _ => (t, [])

end Change

/-- The changes that lead from one tree to another: new directories and changed
files in the order of a walk, then what is gone, what is below first. -/
def FileTree.changesTo (before after : FileTree) : List Change :=
  let name (p : Place) : Text := "/" ++ Text.join "/" p
  let added := (after.walk []).filterMap fun (p, e) =>
    match e with
    | .dir => if (before.at? p).isSome then none else some (.makeDir (name p))
    | .file content =>
        if before.at? p == some e then none else some (.write (name p) content)
  let gone := (before.walk []).filter fun (p, _) => (after.at? p).isNone
  added ++ gone.reverse.map fun (p, _) => .remove (name p)

/-!
## Waiting for changes to settle

Changes come in bursts. They are gathered until nothing has changed for a while,
and are then handed over together. When the wait is over is not decided here: a
timer that runs out is an event like any other, and one that was already
superseded does no harm.
-/

/-- The changes that wait to be handed over. -/
structure Debouncer where
  pending : List Text := []
  stopped : Bool := false
  deriving DecidableEq, Repr

namespace Debouncer

def add (d : Debouncer) (file : Text) : Debouncer :=
  if d.stopped || d.pending.contains file then d
  else { d with pending := d.pending ++ [file] }

/-- A timer ran out: what is pending is handed over in order, if there is any. -/
def fire (d : Debouncer) : Option (List Text) × Debouncer :=
  if d.pending.isEmpty then (none, d)
    else (some (Text.sort d.pending), { d with pending := [] })

/-- The end: what is pending is dropped. -/
def stop (_ : Debouncer) : Debouncer := { pending := [], stopped := true }

end Debouncer

/-! ## Watchers -/

/-- What is watched. -/
structure WatchOptions where
  root : Text := "."
  /-- The names of directories that are not watched. -/
  ignored : List Text := []
  /-- Which changes are reported. -/
  accepts : Text → Bool := fun _ => true

def WatchOptions.ignores (o : WatchOptions) (path : Text) : Bool :=
  let below := (FileName.relative? o.root path).getD path
  (FileName.parts below).any fun part =>
    !part.isEmpty && part != "." && part != ".." &&
      (o.ignored.contains part || part.startsWith ".")

/-- The directories to watch at and below one, by name. -/
def WatchOptions.directories (o : WatchOptions) (t : FileTree) (top : Text) :
    Except FileError (List Text) := do
  match ← FileTree.doing "lstat" top (t.find top), t.resolve top with
  | .dir, .ok place =>
      let below := (t.walk place).filterMap fun (p, e) =>
        if e.isDir then some (FileName.join (top :: p)) else none
      return top :: below.filter (!o.ignores ·)
  | _, _ => return []

/-- A directory that is watched, and the name under which its changes are told. -/
structure Watch where
  place : Place
  name : Text
  deriving DecidableEq, Repr

/-- What a watched directory tells: that something appeared under a name, or that anything
else happened to what has the name. -/
inductive Tiding where
  | appeared (name : Text)
  | noted (name : Text)
  deriving DecidableEq, Repr

/-- A watcher at work. -/
structure FileWatcher where
  options : WatchOptions
  watches : List Watch := []
  changes : Debouncer := {}
  stopped : Bool := false

namespace FileWatcher

/-- Watches one more directory. A directory has one name at a time, the last. -/
def add (w : FileWatcher) (t : FileTree) (name : Text) : FileWatcher :=
  match t.resolve name with
  | .ok place =>
      { w with watches := w.watches.filter (·.place != place) ++
        [⟨place, FileName.clean name⟩] }
  | .error _ => w

def start (options : WatchOptions) (t : FileTree) : Except Text FileWatcher :=
  let options := { options with root := if options.root.isEmpty then "." else options.root }
  match options.directories t options.root with
  | .ok dirs => .ok (dirs.foldl (·.add t ·) { options := options })
  | .error e => .error ("failed to find directories: " ++ e.message)

/-- The names under which a place is told: by the directory that holds it, and by
itself if it is watched. -/
def namesIn (w : FileWatcher) (place : Place) : List Text :=
  w.watches.filterMap fun v =>
    if place.isEmpty || v.place != place.dropLast then none
    else some (Text.concat [v.name, "/", place.getLastD []])

def namesOf (w : FileWatcher) (place : Place) : List Text :=
  (w.watches.filter (·.place == place)).map (·.name)

def note (w : FileWatcher) (name : Text) : FileWatcher :=
  if w.options.ignores name || !w.options.accepts name then w
  else { w with changes := w.changes.add name }

/-- Something appeared under a name: a directory is watched, anything else is a
change. -/
def appear (w : FileWatcher) (t : FileTree) (name : Text) : FileWatcher :=
  if w.options.ignores name then w
  else if t.hasDir name then
    match w.options.directories t name with
    | .ok dirs => dirs.foldl (·.add t ·) w
    | .error _ => w
  else w.note name

/-- What the watched directories tell of something that happens. -/
def tidings (w : FileWatcher) : Happening → List Tiding
  | .created place => (w.namesIn place).map .appeared
  | .written place => (w.namesIn place).map .noted
  | .removed place => (w.namesIn place ++ w.namesOf place).map .noted
  | .renamed source target =>
      (w.namesIn source ++ w.namesOf source).map .noted ++ (w.namesIn target).map .appeared

/-- What is watched after something happened. A watch goes where its directory goes, but it
ends when that is removed or is itself given another name. -/
def follow (w : FileWatcher) : Happening → FileWatcher
  | .removed place => { w with watches := w.watches.filter (·.place != place) }
  | .renamed source target =>
      let kept : List Watch := w.watches.filter (·.place != source)
      { w with watches := kept.map fun v =>
          { v with place := FileTree.moved source target v.place } }
  | _ => w

/-- The watcher looks at what it was told; the tree is as it is then. -/
def handle (w : FileWatcher) (t : FileTree) : Tiding → FileWatcher
  | .appeared name => w.appear t name
  | .noted name => w.note name

/-- The watcher after something happened of which it was told at once. -/
def hear (w : FileWatcher) (t : FileTree) (h : Happening) : FileWatcher :=
  (w.tidings h).foldl (·.handle t ·) (w.follow h)

def observe (w : FileWatcher) (t : FileTree) (c : Change) : FileWatcher × FileTree :=
  let (after, happenings) := c.apply t
  if w.stopped then (w, after) else (happenings.foldl (·.hear after ·) w, after)

def stop (w : FileWatcher) : FileWatcher :=
  { w with watches := [], changes := w.changes.stop, stopped := true }

def settle (w : FileWatcher) : List Text × FileWatcher :=
  let (batch, changes) := w.changes.fire
  (batch.getD [], { w with changes := changes })

end FileWatcher

end Deriver
