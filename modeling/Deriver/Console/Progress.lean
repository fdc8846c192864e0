import Deriver.Console.Message
import Deriver.Files.Name
import Deriver.Number.Binary64

/-!
# Progress

A bar for a known number of files and a spinner for work of unknown length. Both
are states with what each change of state prints; time enters the spinner only as
the number of frames that are drawn.
-/

namespace Deriver

/-- A progress bar. -/
structure ProgressBar where
  total : Int
  width : Nat
  message : Text
  current : Int := 0
  failed : Nat := 0

namespace ProgressBar

/-- A new bar; a width of zero stands for forty. -/
def new (total : Int) (width : Nat) (message : Text) : ProgressBar :=
  { total := total, width := if width = 0 then 40 else width, message := message }

def wholePart (bits : Nat) : Nat :=
  let (m, q) := Binary64.unpack bits
  let (n, d) := Binary64.scale2 m q
  n / d

/-- How much of the bar is filled: the share is rounded to a double, its product
with the width once more, and the rest is cut off. -/
def filled (b : ProgressBar) : Nat :=
  let share := (Binary64.ofFraction? b.current.natAbs b.total.natAbs).getD 0
  let (m, q) := Binary64.unpack share
  let (n, d) := Binary64.scale2 (m * b.width) q
  wholePart ((Binary64.ofFraction? n d).getD 0)

def draw (color : Bool) (b : ProgressBar) : Text :=
  if b.total = 0 then []
  else
    Text.concat ["\r[", Style.paint color .cyan (Text.times "█" b.filled),
      Style.paint color .grey (Text.times "░" (b.width - b.filled)), "] ",
      Text.ofInt b.current, "/", Text.ofInt b.total,
      if b.message.isEmpty then [] else " " ++ b.message]

/-- Moves the bar on, but not past its end. -/
def add (b : ProgressBar) (n : Int) : ProgressBar :=
  { b with current := min (b.current + n) b.total }

/-- Moves the bar on by one file. Failures are counted and the last one is named. -/
def step (b : ProgressBar) (path : Text) (failed : Bool) : ProgressBar :=
  let b := if failed then
      { b with
        failed := b.failed + 1
        message := Text.concat [Text.ofNat (b.failed + 1), " failed, last ",
          FileName.base path] }
    else b
  b.add 1

def finish (b : ProgressBar) : ProgressBar := { b with current := b.total }

def closing (color : Bool) (b : ProgressBar) : Text := b.finish.draw color ++ "\n"

/-- Like `closing`, with a message that all went well. -/
def closingWith (color : Bool) (b : ProgressBar) (message : Text) : Text :=
  b.closing color ++ Style.paint color .greenBold (Text.concat ["✓ ", message, "\n"])

end ProgressBar

/-- A spinner: its message, whether it runs, and how many frames it has drawn
since it was started. -/
structure Spinner where
  message : Text
  active : Bool := false

namespace Spinner

/-- The pictures of the spinner, shown in turn. -/
def frames : List Text := ["⠋", "⠙", "⠹", "⠸", "⠼", "⠴", "⠦", "⠧", "⠇", "⠏"]

/-- What the first `n` frames print. -/
def draw (color : Bool) (s : Spinner) (n : Nat) : Text :=
  Text.concat ((List.range n).map fun i =>
    Style.paint color .cyan
      (Text.concat ["\r", (frames[i % frames.length]?).getD [], " ", s.message]))

def stop (s : Spinner) : Spinner × Text :=
  if s.active then ({ s with active := false }, "\r\x1b[K") else (s, [])

def succeed (color : Bool) (s : Spinner) (message : Text) : Spinner × Text :=
  let (s, out) := s.stop
  (s, out ++ Style.paint color .greenBold (Text.concat ["✓ ", message, "\n"]))

def fail (color : Bool) (s : Spinner) (message : Text) : Spinner × Text :=
  let (s, out) := s.stop
  (s, out ++ Style.paint color .redBold (Text.concat ["❌ ", message, "\n"]))

/-- What a spinner prints around some work that ended well or did not. -/
def around (color : Bool) (message : Text) (failed : Bool) : Text :=
  let s : Spinner := ⟨message, true⟩
  if failed then (s.fail color (message ++ " failed")).2 else (s.succeed color message).2

end Spinner

end Deriver
