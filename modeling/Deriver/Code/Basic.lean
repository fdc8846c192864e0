import Deriver.Decl.Basic

/-!
# Generated code

Generated code is a tree of lines, blocks and matches. Rendering indents it by
four spaces for each level. A text that itself spans lines is written as it is,
except under `reflow`: what stands there is laid out on its own first, and then
every line of the result is indented.
-/

/-!
## Patterns and values in generated code

The patterns that generated code matches with and the values it builds are data
until the very end. Their shape follows the style of the field list they belong
to, and only `render` turns them into text.
-/

namespace Deriver

def FieldStyle.bracket (style : FieldStyle) (path : Text) (pieces : List Text) : Text :=
  match style with
  | .tuple => Text.concat [path, "(", Text.join ", " pieces, ")"]
  | .named => Text.concat [path, " \x7b ", Text.join ", " pieces, " \x7d"]
  | .unit => path

/-- A pattern. -/
inductive Pat where
  /-- `_` -/
  | wild
  /-- `..`, for all entries that are not named -/
  | rest
  /-- a name that is bound -/
  | bind (name : Text)
  /-- a constant or literal as written -/
  | const (text : Text)
  /-- a path without brackets -/
  | unit (path : Text)
  /-- a path with one entry for each field -/
  | tuple (path : Text) (entries : List Pat)
  /-- a path with named entries; an entry without a pattern is bound to its own name -/
  | record (path : Text) (entries : List (Text × Option Pat)) (hasRest : Bool)
  /-- `(a, b)` -/
  | pair (left right : Pat)
  /-- `a | b` -/
  | anyOf (choices : List Pat)
  /-- `name @ pattern` -/
  | named (name : Text) (pat : Pat)

namespace Pat

mutual

def render : Pat → Text
  | .wild => "_"
  | .rest => ".."
  | .bind name => name
  | .const text => text
  | .unit path => path
  | .tuple path entries => FieldStyle.tuple.bracket path (renderList entries)
  | .record path entries hasRest =>
      FieldStyle.named.bracket path
        (renderEntries entries ++ if hasRest then [(".." : Text)] else [])
  | .pair left right => Text.concat ["(", left.render, ", ", right.render, ")"]
  | .anyOf choices => Text.join " | " (renderList choices)
  | .named name pat => Text.concat [name, " @ ", pat.render]

def renderList : List Pat → List Text
  | [] => []
  | p :: ps => p.render :: renderList ps

def renderEntries : List (Text × Option Pat) → List Text
  | [] => []
  | (name, none) :: es => name :: renderEntries es
  | (name, some p) :: es => Text.concat [name, ": ", p.render] :: renderEntries es

end

end Pat

/-- A value that is built from an expression for each field. -/
structure Built where
  style : FieldStyle
  path : Text
  /-- The name of each field and its expression. -/
  entries : List (Text × Text)
  deriving DecidableEq, Repr

def Built.render (b : Built) : Text :=
  b.style.bracket b.path (b.entries.map fun (name, expr) =>
    if b.style = .named then Text.concat [name, ": ", expr] else expr)

def Fields.anyPattern (fields : Fields) (path : Text) : Pat :=
  match fields.style with
  | .named => .record path [] true
  | .tuple => .tuple path [.rest]
  | .unit => .unit path

/-! ## Lines, blocks and matches -/

mutual

/-- A piece of generated code. -/
inductive Code where
  | line (text : Text)
  | blank
  /-- `head { ... }` -/
  | block (head : Text) (body : List Code)
  /-- `match scrutinee { ... }` -/
  | choose (scrutinee : Text) (arms : List Arm)
  /-- `match scrutinee {}` -/
  | chooseNone (scrutinee : Text)
  /-- code that is laid out on its own and then indented line by line -/
  | reflow (body : List Code)

/-- An arm of a match. -/
inductive Arm where
  /-- `pattern => value,` -/
  | yields (pat : Pat) (value : Text)
  /-- `pattern if guard => value,` -/
  | guarded (pat : Pat) (guard value : Text)
  /-- `pattern => { ... },` -/
  | runs (pat : Pat) (body : List Code)
  /-- `pattern => match scrutinee { ... },` -/
  | chooses (pat : Pat) (scrutinee : Text) (arms : List Arm)

end

namespace Code

def indentUnit : Text := "    "

def lineAt (depth : Nat) (t : Text) : Text :=
  Text.concat [Text.times indentUnit depth, t, "\n"]

def dropNewlines (t : Text) : Text := (t.reverse.dropWhile (· == 10)).reverse

/-- Each line of a text at a depth; an empty line stays empty. -/
def linesAt (depth : Nat) (t : Text) : Text :=
  Text.concat (((dropNewlines t).splitOn "\n").map fun line =>
    if line.isEmpty then "\n" else lineAt depth line)

mutual

/-- The text of a piece of code at a depth. -/
def render (depth : Nat) : Code → Text
  | .line text => lineAt depth text
  | .blank => "\n"
  | .block head body =>
      Text.concat [lineAt depth (head ++ " \x7b"), renderAll (depth + 1) body,
        lineAt depth "\x7d"]
  | .choose scrutinee arms =>
      Text.concat [lineAt depth (Text.concat ["match ", scrutinee, " \x7b"]),
        renderArms (depth + 1) arms, lineAt depth "\x7d"]
  | .chooseNone scrutinee => lineAt depth (Text.concat ["match ", scrutinee, " \x7b\x7d"])
  | .reflow body => linesAt depth (renderAll 0 body)

def renderAll (depth : Nat) : List Code → Text
  | [] => []
  | c :: cs => render depth c ++ renderAll depth cs

def renderArm (depth : Nat) : Arm → Text
  | .yields pat value => lineAt depth (Text.concat [pat.render, " => ", value, ","])
  | .guarded pat guard value =>
      lineAt depth (Text.concat [pat.render, " if ", guard, " => ", value, ","])
  | .runs pat body =>
      Text.concat [lineAt depth (pat.render ++ " => \x7b"), renderAll (depth + 1) body,
        lineAt depth "\x7d,"]
  | .chooses pat scrutinee arms =>
      Text.concat [lineAt depth
        (Text.concat [pat.render, " => match ", scrutinee, " \x7b"]),
        renderArms (depth + 1) arms, lineAt depth "\x7d,"]

def renderArms (depth : Nat) : List Arm → Text
  | [] => []
  | a :: as => renderArm depth a ++ renderArms depth as

end

def inline : Code := .line "#[inline]"

end Code

/-- An implementation. -/
inductive Impl where
  | block (header : Text) (body : List Code)
  /-- an implementation with nothing in it, on one line -/
  | marker (header : Text)

namespace Impl

/-- The text of an implementation, which is marked as generated. -/
def render : Impl → Text
  | .block header body =>
      Code.lineAt 0 "#[automatically_derived]" ++ Code.render 0 (.block header body)
  | .marker header =>
      Code.lineAt 0 "#[automatically_derived]" ++ Code.lineAt 0 (header ++ " \x7b\x7d")

/-- The text of several implementations, with a blank line between neighbours. -/
def renderAll (impls : List Impl) : Text := Text.join "\n" (impls.map render)

end Impl

end Deriver
