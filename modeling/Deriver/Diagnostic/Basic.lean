import Deriver.Json.Basic
import Deriver.Position

/-!
# Diagnostics

A diagnostic is what the tool says about a source: a code, a message and a
place, with what helps to understand and mend the problem. Empty texts mean that
there is nothing to say.
-/

namespace Deriver

/-- How serious a diagnostic is. -/
inductive Severity where
  /-- The declaration is not expanded. -/
  | error
  /-- The expansion is still produced. -/
  | warning
  | info
  /-- A severity of another name. -/
  | other (name : Text)
  deriving DecidableEq, Repr

namespace Severity

def name : Severity → Text
  | .error => "error"
  | .warning => "warning"
  | .info => "info"
  | .other name => name

def ofName (t : Text) : Severity :=
  if t == "error" then .error
  else if t == "warning" then .warning
  else if t == "info" then .info
  else .other t

end Severity

/-- A place in a file as a diagnostic reports it. Unlike a position it may be
made up, so nothing is promised about its numbers. -/
structure Site where
  line : Int
  column : Int
  deriving DecidableEq, Repr

instance : Coe Position Site := ⟨fun p => ⟨p.line, p.column⟩⟩

/-- The source around a diagnostic: its own line, and a few lines with it. -/
structure Snippet where
  current : Text
  lines : Option (List Text)
  deriving DecidableEq, Repr

/-- A diagnostic. -/
structure Diagnostic where
  code : Text
  kind : Text
  category : Text
  severity : Severity
  message : Text
  site : Site
  file : Text := []
  /-- The derive that was being expanded. -/
  trait : Text := []
  /-- The declaration it was expanded for. -/
  subject : Text := []
  /-- The field or variant it is about. -/
  member : Text := []
  snippet : Option Snippet := none
  expected : Text := []
  actual : Text := []
  suggestion : Text := []
  examples : List Text := []
  documentation : Text := []
  deriving DecidableEq, Repr

namespace Diagnostic

def withSubject (d : Diagnostic) (trait subject : Text) : Diagnostic :=
  { d with trait := trait, subject := subject }

/-- The field, unless it is empty. -/
def textField (name : String) (t : Text) : List (Text × Json) :=
  if t.isEmpty then [] else [Json.field name t]

/-- The diagnostic as JSON; what is empty is left out. -/
def toJson (d : Diagnostic) : Json :=
  .obj (List.flatten [
    [Json.field "code" d.code, Json.field "type" d.kind, Json.field "category" d.category,
      Json.field "severity" d.severity.name, Json.field "message" d.message,
      Json.field "location"
        (.obj [Json.field "line" d.site.line, Json.field "column" d.site.column])],
    textField "file" d.file, textField "trait" d.trait, textField "subject" d.subject,
    textField "member" d.member,
    match d.snippet with
      | some s => [Json.field "context" (.obj [Json.field "current" s.current,
          Json.field "source_lines" (Json.orNull (s.lines.map .texts))])]
      | none => [],
    textField "expected" d.expected, textField "actual" d.actual,
    textField "suggestion" d.suggestion,
    if d.examples.isEmpty then [] else [Json.field "examples" (.texts d.examples)],
    textField "documentation" d.documentation])

def isError (d : Diagnostic) : Bool := d.severity == .error

def count (s : Severity) (ds : List Diagnostic) : Nat :=
  (ds.filter (·.severity == s)).length

def stampFile (file : Text) (ds : List Diagnostic) : List Diagnostic :=
  ds.map fun d => if d.file.isEmpty then { d with file := file } else d

end Diagnostic

/-!
## Diagnostics as text

Three layouts: one line for tools, a block like a compiler's own with the source
lines, and a list of such blocks under a summary.
-/

def plural (n : Nat) (noun : Text) : Text :=
  if n = 1 then "1 " ++ noun else Text.concat [Text.ofNat n, " ", noun, "s"]

namespace Diagnostic

/-- The place as `file:line:column`. -/
def place (d : Diagnostic) : Text :=
  Text.concat [if d.file.isEmpty then "<source>" else d.file, ":",
    Text.ofInt d.site.line, ":", Text.ofInt d.site.column]

def compact (d : Diagnostic) : Text :=
  Text.concat [d.place, ": ", d.severity.name, ": ", d.message, " [", d.code, "]"]

/-- What was being derived for what, if that is known. -/
def target (d : Diagnostic) : Text :=
  if d.trait.isEmpty then []
  else
    let derive := Text.concat ["#[derive(", d.trait, ")]"]
    if d.subject.isEmpty then derive
    else
      let subject :=
        match d.subject.cut? "::" with
        | some (name, variant) =>
            Text.concat [" on \x60", name, "\x60, variant \x60", variant, "\x60"]
        | none => Text.concat [" on \x60", d.subject, "\x60"]
      Text.concat [derive, subject, if d.member.isEmpty then [] else ", " ++ d.member]

/-- The number of the first line of a snippet: the line before the diagnostic's,
unless that is the first. -/
def firstLine (d : Diagnostic) : Int := max 1 (d.site.line - 1)

/-- One numbered line of a snippet, with a caret below it if it is the
diagnostic's own. -/
def snippetLine (d : Diagnostic) (width : Nat) (n : Int) (line : Text) : Text :=
  let caret := Text.concat [" ", Text.spaces width, " | ",
    Text.spaces (max 1 d.site.column - 1).toNat, "^\n"]
  Text.concat [" ", (Text.ofInt n).padStart width, " | ", line, "\n",
    if n = d.site.line then caret else []]

def snippetText (d : Diagnostic) (lines : List Text) : Text :=
  let first := d.firstLine
  let width := (Text.ofInt (first + lines.length - 1)).length
  Text.concat [" ", Text.spaces width, " |\n"] ++
    Text.concat (lines.mapIdx fun i line => d.snippetLine width (first + i) line)

/-- A note below the snippet, unless it is empty. -/
def noteText (label : String) (t : Text) : Text :=
  if t.isEmpty then [] else Text.concat ["   = ", label, ": ", t, "\n"]

def render (d : Diagnostic) : Text :=
  let snippet := match d.snippet.bind (·.lines) with
    | some (l :: ls) => d.snippetText (l :: ls)
    | _ => []
  Text.concat ([Text.concat [d.severity.name, "[", d.code, "]: ", d.message, "\n"],
      Text.concat ["  --> ", d.place, "\n"], snippet, noteText "derive" d.target,
      noteText "expected" d.expected, noteText "found" d.actual,
      noteText "help" d.suggestion]
    ++ d.examples.map (fun e => Text.concat ["   = try: ", e, "\n"])
    ++ [noteText "see" d.documentation])

/-- How many diagnostics there are and which derives they are about. -/
def summary (ds : List Diagnostic) : Text :=
  let infos := count .info ds
  let counts := [plural (count .error ds) "error", plural (count .warning ds) "warning"]
    ++ if infos = 0 then [] else [plural infos "note"]
  let traits := Text.sort (Text.distinct ((ds.map (·.trait)).filter (!·.isEmpty)))
  Text.concat ["derive expansion failed: ", Text.join ", " counts,
    if traits.isEmpty then [] else Text.concat
      [" in #[derive(", Text.join ", " traits, ")]"]]

def renderAll (ds : List Diagnostic) : Text :=
  if ds.isEmpty then "no errors"
  else Text.concat (summary ds :: "\n" :: ds.map fun d => "\n" ++ d.render)

def listToJson (ds : List Diagnostic) : Json := .arr (ds.map toJson)

/-- The diagnostics as a JSON list, or null if there are none. -/
def listOrNull (ds : List Diagnostic) : Json := if ds.isEmpty then .null else listToJson ds

end Diagnostic

end Deriver
