import Deriver.Console.Message
import Deriver.Diagnostic.Basic
import Deriver.Json.Render
import Deriver.Text.Casing
import Deriver.Text.Quoted

/-!
# Printing diagnostics

The command line prints diagnostics with a marked source line, on one line each,
or as JSON.
-/

namespace Deriver

/-- How diagnostics are printed. -/
inductive ReportFormat where
  | pretty
  | compact
  | json
  deriving DecidableEq, Repr

namespace ReportFormat

def name : ReportFormat → Text
  | .pretty => "pretty"
  | .compact => "compact"
  | .json => "json"

/-- The format of a name in any case; no name is the first. -/
def ofName (t : Text) : Except Text ReportFormat :=
  let key := t.fold
  if key == "pretty" || key == [] then .ok .pretty
  else if key == "compact" then .ok .compact
  else if key == "json" then .ok .json
  else .error (Text.concat ["unknown format ", t.quoted, " (want pretty, compact or json)"])

end ReportFormat

namespace Diagnostic

def styleOf : Severity → Style
  | .warning => .yellowBold
  | .info => .cyanBold
  | _ => .redBold

/-- How many bytes of an identifier stand at a column, at least one. -/
def markerWidth (line : Text) (column : Nat) : Nat :=
  max 1 ((line.drop column).takeWhile fun b =>
    b == 95 || Text.isLowerByte b || Text.isUpperByte b || Text.isDigitByte b).length

/-- The diagnostic with its line of source and the marked place in it. -/
def annotated (color : Bool) (d : Diagnostic) : Text :=
  let severity := Style.paint color (styleOf d.severity)
  let bold := Style.paint color .bold
  let blue := Style.paint color .blueBold
  let gutter := Text.spaces (Text.ofInt d.site.line).length
  let column := (d.site.column - 1).toNat
  let source := match d.snippet with
    | some s =>
        if s.current.isEmpty then []
        else Text.concat [blue (gutter ++ " |\n"), blue (Text.ofInt d.site.line ++ " | "),
          s.current, "\n", blue (gutter ++ " | "),
          severity (Text.concat [Text.spaces column,
            Text.times "^" (markerWidth s.current column), "\n"])]
    | none => []
  let note (label : String) (t : Text) : Text :=
    if t.isEmpty then []
    else Text.concat [blue (gutter ++ " = "), bold (label ++ ":"), " ", t, "\n"]
  let deriving' := if d.trait.isEmpty || d.subject.isEmpty then []
    else Text.concat ["while deriving \x60", d.trait, "\x60 for \x60", d.subject, "\x60"]
  Text.concat ([severity (Text.concat [d.severity.name, "[", d.code, "]"]),
      bold (Text.concat [": ", d.message, "\n"]), blue (gutter ++ " --> "),
      d.place, "\n", source, note "note" deriving', note "expected" d.expected,
      note "found" d.actual, note "help" d.suggestion]
    ++ d.examples.map (note "example"))

def report (format : ReportFormat) (color : Bool) (ds : List Diagnostic) : Text :=
  match format with
  | .json => (listToJson ds).indented ++ "\n"
  | .compact => Text.lines (ds.map compact)
  | .pretty => Text.lines (ds.map (annotated color))

def tally (ds : List Diagnostic) : Text :=
  Text.concat [plural (count .error ds) "error", ", ", plural (count .warning ds) "warning"]

end Diagnostic

end Deriver
