import Deriver.Files.Name

/-!
# A tree of files

The files that a run reads and writes, as a value. A place is the list of
components from the root, and a tree says what stands at each place; nothing
stands at a place whose parent is no directory. A name is looked up from the
working directory one component at a time, so a name that passes through a file
or through nothing is told apart from one that merely leads nowhere.
-/

namespace Deriver

/-- The components of a name from the root. -/
abbrev Place := List Text

/-- What stands at a place. -/
inductive Entry where
  | dir
  | file (content : Text)
  deriving DecidableEq, Repr

def Entry.isDir : Entry → Bool
  | .dir => true
  | .file _ => false

/-- Why a file operation failed. -/
inductive FileFault where
  | notFound
  | notDirectory
  | isDirectory
  | exists
  | notEmpty
  | nameTooLong
  | badName
  deriving DecidableEq, Repr

def FileFault.message : FileFault → Text
  | .notFound => "no such file or directory"
  | .notDirectory => "not a directory"
  | .isDirectory => "is a directory"
  | .exists => "file exists"
  | .notEmpty => "directory not empty"
  | .nameTooLong => "file name too long"
  | .badName => "invalid argument"

/-- A file operation that failed: what was done, to which name, and why. -/
structure FileError where
  action : Text
  name : Text
  fault : FileFault
  deriving DecidableEq, Repr

def FileError.message (e : FileError) : Text :=
  Text.concat [e.action, " ", e.name, ": ", e.fault.message]

/-- A tree of files with a working directory. -/
structure FileTree where
  cwd : Place
  entries : List (Place × Entry)
  deriving Repr

namespace FileTree

/-- What stands at a place; the root is always a directory. -/
def at? (t : FileTree) (place : Place) : Option Entry :=
  if place.isEmpty then some .dir else t.entries.lookup place

def without (t : FileTree) (place : Place) : FileTree :=
  { t with entries := t.entries.filter (·.1 != place) }

def put (t : FileTree) (place : Place) (e : Entry) : FileTree :=
  { t with entries := (t.without place).entries ++ [(place, e)] }

def empty (cwd : Place) : FileTree :=
  { cwd := cwd
    entries := (List.range cwd.length).map fun n => (cwd.take (n + 1), .dir) }

def cwdName (t : FileTree) : Text := "/" ++ Text.join "/" t.cwd

def maxName : Nat := 255

/-- One component further, from a place that has to be a directory. -/
def descend (t : FileTree) (place : Place) (part : Text) : Except FileFault Place :=
  match t.at? place with
  | none => .error .notFound
  | some (.file _) => .error .notDirectory
  | some .dir =>
      if part.isEmpty || part == "." then .ok place
      else if part == ".." then .ok place.dropLast
      else if part.length > maxName then .error .nameTooLong
      else .ok (place ++ [part])

/-- The place a name leads to. Nothing need stand there, but everything on the
way is a directory. -/
def resolve (t : FileTree) (name : Text) : Except FileFault Place :=
  if name.isEmpty then .error .notFound
  else if name.contains 0 then .error .badName
  else (FileName.parts name).foldlM t.descend
    (if FileName.isAbsolute name then [] else t.cwd)

def find (t : FileTree) (name : Text) : Except FileFault Entry := do
  let place ← t.resolve name
  match t.at? place with
  | some e => return e
  | none => throw .notFound

def doing {α : Type} (action name : Text) (r : Except FileFault α) : Except FileError α :=
  r.mapError fun fault => ⟨action, name, fault⟩

def stat (t : FileTree) (name : Text) : Except FileError Entry :=
  doing "stat" name (t.find name)

def has (t : FileTree) (name : Text) : Bool := (t.find name).isOk

def hasDir (t : FileTree) (name : Text) : Bool := t.find name matches .ok .dir

/-- The content of a file. A directory can be opened but not read. -/
def read (t : FileTree) (name : Text) : Except FileError Text := do
  match ← doing "open" name (t.find name) with
  | .file content => return content
  | .dir => throw ⟨"read", name, .isDirectory⟩

/-- The tree after a file was written, made if it was not there. -/
def write (t : FileTree) (name content : Text) : Except FileError FileTree :=
  doing "open" name do
    let place ← t.resolve name
    match t.at? place with
    | some .dir => throw .isDirectory
    | _ => return t.put place (.file content)

def isBelow (top place : Place) : Bool := top.isPrefixOf place

def below (t : FileTree) (top : Place) : List (Place × Entry) :=
  t.entries.filter fun e => isBelow top e.1 && e.1 != top

/-- The tree after a file or an empty directory was removed. -/
def remove (t : FileTree) (name : Text) : Except FileError FileTree :=
  doing "remove" name do
    let place ← t.resolve name
    match t.at? place with
    | none => throw .notFound
    | some (.file _) => return t.without place
    | some .dir =>
        if (t.below place).isEmpty then return t.without place else throw .notEmpty

/-- The tree without what a name leads to and all below it; nothing to remove is
no failure. -/
def removeAll (t : FileTree) (name : Text) : FileTree :=
  match t.resolve name with
  | .ok place => { t with entries := t.entries.filter (!isBelow place ·.1) }
  | .error _ => t

/-- The tree with a new directory. The name may end in a slash. -/
def makeDir (t : FileTree) (name : Text) : Except FileError FileTree :=
  doing "mkdir" name do
    let trimmed := (name.reverse.dropWhile (· == 47)).reverse
    let place ← t.resolve (if trimmed.isEmpty then name else trimmed)
    if (t.at? place).isSome then throw .exists
    return t.put place .dir

/-- The name without its last component, up to the slash. -/
def parentName (name : Text) : Text :=
  ((name.reverse.dropWhile (· == 47)).dropWhile (· ≠ 47)).reverse

/-- The tree with a directory and all directories above it; `depth` bounds how
many components the name has. -/
def makeDirsLoop (t : FileTree) : Nat → Text → Except FileError FileTree
  | 0, _ => .ok t
  | depth + 1, name =>
      match t.find name with
      | .ok .dir => .ok t
      | .ok (.file _) => .error ⟨"mkdir", name, .notDirectory⟩
      | .error _ => do
          let parent := parentName name
          let t ← if parent.isEmpty then pure t else makeDirsLoop t depth parent
          match t.makeDir name with
          | .ok t => return t
          | .error e => if t.hasDir name then return t else throw e

def makeDirs (t : FileTree) (name : Text) : Except FileError FileTree :=
  t.makeDirsLoop (name.length + 1) name

def moved (source target place : Place) : Place :=
  if isBelow source place then target ++ place.drop source.length else place

/-- The tree after a file or directory was given another name. What stood at the
new name is replaced. -/
def rename (t : FileTree) (source target : Text) : FileTree :=
  match t.resolve source, t.resolve target with
  | .ok s, .ok d =>
      if s == d || (t.at? s).isNone then t
      else
        let kept := t.entries.filter (!isBelow d ·.1)
        { t with entries := kept.map fun (p, e) => (moved s d p, e) }
  | _, _ => t

/-- The order of a walk: a directory comes before what is below it, and what is
in a directory is in order of name. -/
def placeLe : Place → Place → Bool
  | [], _ => true
  | _ :: _, [] => false
  | a :: as, b :: bs => if a == b then placeLe as bs else Text.le a b

/-- What is below a directory in the order of a walk, each with its components
from there. -/
def walk (t : FileTree) (top : Place) : List (Place × Entry) :=
  ((t.below top).map fun (p, e) => (p.drop top.length, e)).mergeSort fun a b =>
    placeLe a.1 b.1

/-- The names of all files below the working directory, sorted. -/
def listing (t : FileTree) : List Text :=
  Text.sort ((t.walk t.cwd).filterMap fun (p, e) =>
    if e.isDir then none else some (Text.join "/" p))

/-- A tree of files given by name; a name that ends in a slash is a directory. -/
def ofFiles (cwd : Place) (files : List (Text × Text)) : FileTree :=
  files.foldl (fun t (name, content) =>
    let t := (t.makeDirs (if name.endsWith "/" then name else
      FileName.dir name)).toOption.getD t
    if name.endsWith "/" then t else (t.write name content).toOption.getD t) (empty cwd)

end FileTree

end Deriver
