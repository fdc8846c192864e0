import Deriver.Decl.Basic
import Deriver.Token.Scan

/-!
# Parsers

A parser takes tokens from the front of a list and either yields a value with
the tokens that are left or fails with the first error. What a failed parse had
built is never looked at, so failing at once loses nothing: the caller drops the
whole item and goes on behind it. The parser that runs on in a panic up to that
point is `Cursor`; `Cursor.Tracks` says that it comes to the same.

Captured text is the source from the first to the last captured token. A parser
that was given tokens without their source joins the lexemes by spaces instead.
-/

namespace Deriver

/-- What is wrong at a token. -/
inductive Problem where
  /-- Something else was expected. -/
  | expected (what : Text)
  /-- Something else was expected, and the message shows the token. -/
  | expectedFound (what : Text)
  /-- A closing delimiter stands where an item could begin. -/
  | closing
  /-- A lexical error. -/
  | lexical (error : LexError)
  /-- The nesting went past the budget a parse starts with. -/
  | tooDeep
  deriving DecidableEq, Repr

/-- A problem and the token it was found at. -/
structure ParseError where
  problem : Problem
  token : Token
  deriving DecidableEq, Repr

namespace ParseError

def message (e : ParseError) : Text :=
  match e.problem with
  | .expected what => "Expected " ++ what
  | .expectedFound what => Text.concat ["Expected ", what, ", found '", e.token.lexeme, "'"]
  | .closing => Text.concat ["Unexpected closing delimiter '", e.token.lexeme, "'"]
  | .lexical error => error.message
  | .tooDeep => "Nesting too deep"

def pos (e : ParseError) : Position := e.token.pos

def render (e : ParseError) : Text :=
  Text.concat ["Parse error at ", e.pos.render, ": ", e.message, " (near '",
    e.token.lexeme, "')"]

def ofLexError (e : LexError) : ParseError :=
  ⟨.lexical e, ⟨.error, e.lexeme, none, e.pos, 0⟩⟩

end ParseError

/-- A parser of values over the tokens ahead. -/
abbrev Parser (α : Type) := StateT (List Token) (Except ParseError) α

namespace Parse

/-! ## Looking and taking -/

/-- The kind of the token `n` places ahead; past the end it is the end. -/
def kindOf (ts : List Token) (n : Nat) : TokenKind :=
  match ts[n]? with
  | some t => t.kind
  | none => .eof

def peek : Parser Token := do
  return (← get).headD Token.none

/-- The kind of the token `n` places ahead. -/
def peekKind (n : Nat) : Parser TokenKind := do
  return kindOf (← get) n

def atEnd : Parser Bool := do
  return kindOf (← get) 0 == .eof

def check (kind : TokenKind) : Parser Bool := do
  return kind != .eof && kindOf (← get) 0 == kind

/-- The tokens behind the first one, which stays if it marks the end. -/
def behind : List Token → List Token
  | [] => []
  | t :: ts => if t.kind == .eof then t :: ts else ts

def take : Parser Token := do
  let t ← peek
  modify behind
  return t

/-- Takes the next token if it is of a kind, and says whether it did. -/
def accept (kind : TokenKind) : Parser Bool := do
  if ← check kind then
    let _ ← take
    return true
  return false

def failHere {α : Type} (problem : Problem) : Parser α := do
  throw ⟨problem, ← peek⟩

def expect (kind : TokenKind) (what : Text) : Parser Token := do
  if ← check kind then take else failHere (.expected what)

/-! ## Lists -/

/-- The loop of `commaList`, for at most as many rounds as given. -/
def commaLoop {α : Type} (close : TokenKind) (elem : Parser α) : Nat → Parser (List α)
  | 0 => failHere .tooDeep
  | n + 1 => do
      if (← check close) || (← atEnd) then return []
      let x ← elem
      if ← accept .comma then
        return x :: (← commaLoop close elem n)
      return [x]

/-- Elements with commas between and perhaps behind them, up to a closing token,
which is left in place. -/
def commaList {α : Type} (close : TokenKind) (elem : Parser α) : Parser (List α) := do
  commaLoop close elem ((← get).length + 1)

/-! ## Groups and captured text -/

/-- The tokens behind a balanced group that begins with the first token; a token
that opens no group is passed over alone. -/
def skipGroup : Int → List Token → List Token
  | _, [] => []
  | depth, t :: ts =>
      if t.kind == .eof then t :: ts
      else
        let depth :=
          if t.kind.isOpening then depth + 1 else
            if t.kind.isClosing then depth - 1 else depth
        if depth ≤ 0 then ts else skipGroup depth ts

/-- How many tokens to capture: up to one of `stops` outside all brackets, or to
a bracket that closes more than was opened. If `angles` is set, angle brackets
count as brackets too. -/
def captureSize (angles : Bool) (stops : List TokenKind) : Nat → List Token → Nat
  | _, [] => 0
  | depth, t :: ts =>
      if t.kind == .eof || (depth == 0 && stops.contains t.kind) then 0
      else if t.kind.isOpening || (angles && t.kind == .lt) then
        captureSize angles stops (depth + 1) ts + 1
      else if t.kind.isClosing then
        match depth with
        | 0 => 0
        | depth + 1 => captureSize angles stops depth ts + 1
      else if angles && t.kind == .gt then captureSize angles stops (depth - 1) ts + 1
      else captureSize angles stops depth ts + 1

/-- The text that tokens cover in their source, or their lexemes joined by spaces
if there is no source. -/
def textOf (source : Text) (tokens : List Token) : Text :=
  match tokens.head?, tokens.getLast? with
  | some first, some last =>
      if source.isEmpty then Text.join " " (tokens.map (·.lexeme))
      else Text.trim ((source.drop first.offset).take (last.stop - first.offset))
  | _, _ => []

def between (start now : List Token) : List Token := start.take (start.length - now.length)

def textSince (source : Text) (start : List Token) : Parser Text := do
  return textOf source (between start (← get))

/-- Takes tokens up to one of `stops` and yields their text. -/
def capture (source : Text) (angles : Bool) (stops : List TokenKind) : Parser Text := do
  let start ← get
  set (start.drop (captureSize angles stops 0 start))
  textSince source start

/-- The budget of nested calls for the tokens ahead. Every rule of the grammar
takes a token after at most eight calls. -/
def budget (ts : List Token) : Nat := 8 * ts.length + 8

end Parse

end Deriver
