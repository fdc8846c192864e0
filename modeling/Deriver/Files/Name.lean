import Deriver.Text.Basic

/-!
# File names

A file name is a text whose components are separated by slashes. The functions
here look at the text alone: they never ask whether a file exists.
-/

namespace Deriver.FileName

/-- The components between the slashes, empty ones included. -/
def parts (name : Text) : List Text := name.splitOn "/"

def isAbsolute (name : Text) : Bool := name.startsWith "/"

/-- One component put on a stack of components: an empty one and `.` change
nothing, and `..` takes the last one away. At the root there is nothing above. -/
def push (rooted : Bool) (stack : List Text) (part : Text) : List Text :=
  if part.isEmpty || part == "." then stack
  else if part == ".." then
    match stack with
    | [] => if rooted then [] else [part]
    | top :: rest => if top == ".." then part :: stack else rest
  else part :: stack

/-- The components of a name without `.`, empty ones, and `..` after another. -/
def cleanParts (name : Text) : List Text :=
  ((parts name).foldl (push (isAbsolute name)) []).reverse

def clean (name : Text) : Text :=
  let body := Text.join "/" (cleanParts name)
  if isAbsolute name then "/" ++ body
  else if body.isEmpty then "."
  else body

/-- The names in a row, without empty ones in front; clean. -/
def join (names : List Text) : Text :=
  match names.dropWhile (·.isEmpty) with
  | [] => []
  | names => clean (Text.join "/" names)

def base (name : Text) : Text :=
  let trimmed := (name.reverse.dropWhile (· == 47)).reverse
  if name.isEmpty then "."
  else if trimmed.isEmpty then "/"
  else (trimmed.reverse.takeWhile (· ≠ 47)).reverse

def dir (name : Text) : Text := clean (name.reverse.dropWhile (· ≠ 47)).reverse

def extension (name : Text) : Text :=
  let last : Text := (name.reverse.takeWhile (· ≠ 47)).reverse
  match last.findLast? "." with
  | some n => last.drop n
  | none => []

/-- What is left of two lists after what they begin with in common. -/
def splitCommon : List Text → List Text → List Text × List Text
  | a :: as, b :: bs => if a == b then splitCommon as bs else (a :: as, b :: bs)
  | as, bs => (as, bs)

/-- The name that leads from `start` to `target`, if the texts tell. -/
def relative? (start target : Text) : Option Text :=
  let s := clean start
  let t := clean target
  if s == t then some "."
  else if isAbsolute s != isAbsolute t then none
  else
    let below := if s == "." then [] else (parts s).filter (!·.isEmpty)
    let (up, down) := splitCommon below ((parts t).filter (!·.isEmpty))
    match up with
    | [] => some (Text.join "/" down)
    | part :: _ =>
        if part == ".." then none
        else some (Text.join "/" (up.map (fun _ => (".." : Text)) ++ down))

def absolute (cwd name : Text) : Text :=
  if isAbsolute name then clean name else join [cwd, name]

end Deriver.FileName
