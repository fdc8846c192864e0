import Deriver.Text.Casing
import Deriver.Text.Class.Letter

/-!
# Naming conventions

A name is split into words at underscores, hyphens and changes of case, and put
together again in one of eight conventions.
-/

namespace Deriver

/-- A naming convention. -/
inductive Casing where
  | lower
  | upper
  | pascal
  | camel
  | snake
  | screamingSnake
  | kebab
  | screamingKebab
  deriving DecidableEq, Repr

namespace Casing

def all : List Casing :=
  [.lower, .upper, .pascal, .camel, .snake, .screamingSnake, .kebab, .screamingKebab]

/-- How a convention is called, in its own spelling. -/
def name : Casing → Text
  | .lower => "lowercase"
  | .upper => "UPPERCASE"
  | .pascal => "PascalCase"
  | .camel => "camelCase"
  | .snake => "snake_case"
  | .screamingSnake => "SCREAMING_SNAKE_CASE"
  | .kebab => "kebab-case"
  | .screamingKebab => "SCREAMING-KEBAB-CASE"

def names : List Text := all.map name

def ofName? (t : Text) : Option Casing := all.find? (·.name == t)

def isSeparator (c : Char) : Bool := c == '_' || c == '-'

/-- Whether a word begins at an upper-case letter behind `prev`. A run of capitals
ends one letter early if a lower-case letter follows, so that `HTTPServer` is
`HTTP` and `Server`. -/
def beginsWord (prev : Char) (next : Option Char) : Bool :=
  Text.isLowerCase prev || Text.isDecimal prev ||
    (Text.isUpperCase prev && next.any Text.isLowerCase)

/-- The words of what follows; `word` is the current one in reverse. -/
def wordLoop : List Char → List Char → List (List Char)
  | [], [] => []
  | word, [] => [word.reverse]
  | word, c :: rest =>
      if isSeparator c then
        match word with
        | [] => wordLoop [] rest
        | _ :: _ => word.reverse :: wordLoop [] rest
      else
        match word with
        | [] => wordLoop [c] rest
        | prev :: _ =>
            if Text.isUpperCase c && beginsWord prev rest.head? then
              word.reverse :: wordLoop [c] rest
            else wordLoop (c :: word) rest

/-- The words of a name, whose raw mark is left out. -/
def words (ident : Text) : List Text :=
  (wordLoop [] (ident.dropStart "r#").chars).map Text.ofChars

/-- The words in title case, the first one only if `first` is set. -/
def titled (first : Bool) : List Text → Text
  | [] => []
  | w :: ws => Text.concat ((if first then w.title else w.lower) :: ws.map Text.title)

def apply (c : Casing) (ident : Text) : Text :=
  let ws := words ident
  match c with
  | .lower => (Text.concat ws).lower
  | .upper => (Text.concat ws).upper
  | .pascal => titled true ws
  | .camel => titled false ws
  | .snake => (Text.join "_" ws).lower
  | .screamingSnake => (Text.join "_" ws).upper
  | .kebab => (Text.join "-" ws).lower
  | .screamingKebab => (Text.join "-" ws).upper

def snakeCase (ident : Text) : Text := apply .snake ident

end Casing

end Deriver
