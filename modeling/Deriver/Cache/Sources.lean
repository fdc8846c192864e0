import Deriver.Cache.Basic
import Deriver.Parse.File

/-!
# Parsed files

The parsed forms of files, each kept until the content of its file changes.
-/

namespace Deriver

/-- A parsed file with the key of its content. -/
structure ParsedSource where
  path : Text
  key : Text
  parsed : Parsed

/-- The parsed files by path. -/
structure ParsedFiles where
  entries : List ParsedSource := []

namespace ParsedFiles

def get? (c : ParsedFiles) (path : Text) : Option ParsedSource :=
  c.entries.find? (·.path == path)

def forget (c : ParsedFiles) (path : Text) : ParsedFiles :=
  { entries := c.entries.filter (·.path != path) }

/-- The parsed form of a content. It is taken from the entry of the path if that
has the same content, which the second component says. -/
def parse (c : ParsedFiles) (path source : Text) : ParsedSource × Bool × ParsedFiles :=
  let key := contentKey [] source
  let fresh : ParsedSource := { path := path, key := key, parsed := Deriver.parse source }
  match c.get? path with
  | some entry =>
      if entry.key == key then (entry, true, c)
      else (fresh, false, { entries := fresh :: (c.forget path).entries })
  | none => (fresh, false, { entries := fresh :: c.entries })

/-- The paths, sorted. -/
def paths (c : ParsedFiles) : List Text := Text.sort (c.entries.map (·.path))

end ParsedFiles

end Deriver
