import Deriver.Text.Basic
import Deriver.Text.Casing

/-!
# Colours and messages

A style is a list of terminal codes. A stretch of text is painted by writing the
codes before it and a reset behind it; a line is painted with one reset for each
code, and its newline stays outside.

What the command line says besides its results is an error, warning or note with a
headline, what follows from it, and what to try.
-/

namespace Deriver

/-- The codes of a style, in the order they are written. -/
abbrev Style := List Nat

namespace Style

def bold : Style := [1]

def redBold : Style := [31, 1]

def red : Style := [31]

def greenBold : Style := [32, 1]

def yellow : Style := [33]

def yellowBold : Style := [33, 1]

def blueBold : Style := [34, 1]

def cyan : Style := [36]

def cyanBold : Style := [36, 1]

/-- Bold and cyan, in that order. -/
def boldCyan : Style := [1, 36]

def grey : Style := [90]

def escape (codes : List Nat) : Text :=
  Text.concat [[27], "[", Text.join ";" (codes.map Text.ofNat), "m"]

def undo (code : Nat) : Nat := if code = 1 then 22 else 0

/-- A stretch of text in a style; nothing is written around it if colours are off. -/
def paint (color : Bool) (s : Style) (t : Text) : Text :=
  if color then Text.concat [escape s, t, escape [0]] else t

/-- A phrase in a style, with each code undone. -/
def phrase (color : Bool) (s : Style) (t : Text) : Text :=
  if color then Text.concat [escape s, t, escape (s.map undo)] else t

/-- A line in a style, its newline outside. -/
def line (color : Bool) (s : Style) (t : Text) : Text := phrase color s t ++ "\n"

end Style

/-- How grave a message is. -/
inductive MessageLevel where
  | error
  | warning
  | info
  deriving DecidableEq, Repr

/-- A message to the user. -/
structure Message where
  level : MessageLevel
  context : Text := []
  problem : Text
  consequence : Text := []
  suggestions : List Text := []
  help : List Text := []

namespace Message

/-- The level with a number; every other number is an error. -/
def levelAt (n : Int) : MessageLevel :=
  if n = 1 then .warning else if n = 2 then .info else .error

/-- The headline's style, the body's style and the sign of a level. -/
def looks : MessageLevel → Style × Style × Text
  | .warning => (.yellowBold, .yellow, "⚠️")
  | .info => (.cyanBold, .cyan, "ℹ️")
  | .error => (.redBold, .red, "❌")

def render (color : Bool) (m : Message) : Text :=
  let (headStyle, bodyStyle, sign) := looks m.level
  let head :=
    if m.context.isEmpty then Text.concat [sign, " ", m.problem, "\n"]
    else Text.concat [sign, " ", m.context.capitals, ": ", m.problem, "\n"]
  let body := if m.consequence.isEmpty then []
    else "\n" ++ Style.paint color bodyStyle (Text.concat ["   ", m.consequence, "\n"])
  let hints := if m.suggestions.isEmpty then []
    else "\n" ++ Style.paint color .yellow
      (Text.concat ["   Did you mean: ", Text.join ", " m.suggestions, "?\n"])
  let help := if m.help.isEmpty then []
    else "\n" ++ Text.concat (m.help.map fun c =>
      Style.paint color .cyan (Text.concat ["   → ", c, "\n"]))
  Text.concat [Style.paint color headStyle head, body, hints, help]

def unknownDerive (name : Text) (suggestions : List Text) : Message where
  level := .error
  context := "UNKNOWN DERIVE"
  problem := Text.concat ["Cannot find derive '", name, "'."]
  suggestions := suggestions
  help := ["See all derives: derivekit list"]

def expansionFailed (failed total : Int) : Message where
  level := .error
  context := "EXPANSION FAILED"
  problem := Text.concat [Text.ofInt failed, " of ", Text.ofInt total,
    " file(s) had errors."]
  consequence := "Declarations that failed were left out of the generated files."
  help := ["Show diagnostics only: derivekit check", "Get help: derivekit expand --help"]

def configError (message : Text) (suggestions : List Text) : Message where
  level := .error
  context := "CONFIGURATION ERROR"
  problem := message
  suggestions := suggestions
  help := ["View config: cat derivekit.yaml", "Recreate it: derivekit init"]

def warning (message : Text) (suggestions : List Text) : Message where
  level := .warning
  problem := message
  suggestions := suggestions

def info (message : Text) : Message where
  level := .info
  problem := message

def success (color : Bool) (message : Text) : Text :=
  Style.phrase color .greenBold ("✓ " ++ message) ++ "\n"

end Message

end Deriver
