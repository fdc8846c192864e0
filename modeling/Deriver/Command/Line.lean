import Deriver.Number.Duration
import Deriver.Number.Integer
import Deriver.Similar

/-!
# The command line

A command line names a command, perhaps a command below it, flags and
arguments, in almost any order: a flag may stand before the command it belongs
to. So the command is looked for first, stepping over what looks like a flag and
its value, and only then are the flags read, with those of the command known.

A value of a flag is checked when it is read. Every command knows a flag that asks
for its help page, but only once it was found. A line that asks for a help page is
answered with `LineFault.help`, if nothing is wrong with its flags.
-/

namespace Deriver

/-! ## What can be said -/

/-- What the value of a flag is. -/
inductive FlagKind where
  | text
  | switch
  | span
  | number
  deriving DecidableEq, Repr

/-- A flag, and the letter it can be abbreviated to. -/
structure Flag where
  name : Text
  short : Option UInt8 := none
  kind : FlagKind := .text
  deriving DecidableEq, Repr

def Flag.stands (f : Flag) : Bool := f.kind == .switch

/-- How many arguments a command takes. -/
inductive Arity where
  | any
  | none
  | atMost (n : Nat)
  | exactly (n : Nat)
  | oneOf (words : List Text)
  deriving DecidableEq, Repr

/-- A command by its path from the tool's name. A command that does nothing
itself only groups the commands below it. -/
structure CommandSpec where
  path : List Text
  flags : List Flag := []
  arity : Arity := .any
  acts : Bool := true

namespace CommandSpec

def tool : Text := "derivekit"

def common : List Flag :=
  [⟨"config", none, .text⟩, ⟨"no-color", none, .switch⟩, ⟨"log-level", none, .text⟩]

def format : Flag := ⟨"format", none, .text⟩

def listFormat : Flag := ⟨"format", some 102, .text⟩

/-- All commands, in the order in which they are suggested. -/
def all : List CommandSpec :=
  [{ path := ["version"], arity := .none },
   { path := ["init"], arity := .atMost 1
     flags := [⟨"yes", some 121, .switch⟩, ⟨"force", none, .switch⟩] },
   { path := ["expand"]
     flags := [⟨"stdout", none, .switch⟩, ⟨"json", none, .switch⟩,
       ⟨"dry-run", none, .switch⟩, format] },
   { path := ["check"], flags := [⟨"json", none, .switch⟩, format] },
   { path := ["list"], arity := .atMost 1, flags := [listFormat] },
   { path := ["runtime"], arity := .none, flags := [⟨"out", some 111, .text⟩] },
   { path := ["watch"], arity := .atMost 1, flags := [⟨"debounce", none, .span⟩, format] },
   { path := ["lsp"], arity := .none },
   { path := ["debug"], acts := false },
   { path := ["debug", "ast"], arity := .exactly 1, flags := [⟨"depth", none, .number⟩] },
   { path := ["debug", "state"], arity := .exactly 1
     flags := [⟨"derive", none, .text⟩, listFormat] },
   { path := ["completion"], arity := .oneOf ["bash", "zsh", "fish", "powershell"] },
   { path := ["help"], acts := false }]

def root : CommandSpec := { path := [], acts := false }

def next? (c : CommandSpec) (name : Text) : Option CommandSpec :=
  all.find? (·.path == c.path ++ [name])

def allFlags (c : CommandSpec) : List Flag := c.flags ++ common

def help : Flag := ⟨"help", some 104, .switch⟩

/-- The flag of a name, as long as the command is looked for. -/
def flag? (c : CommandSpec) (name : Text) : Option Flag := c.allFlags.find? (·.name == name)

/-- The flag of a letter, as long as the command is looked for. -/
def short? (c : CommandSpec) (letter : UInt8) : Option Flag :=
  c.allFlags.find? (·.short == some letter)

def knownFlags (c : CommandSpec) : List Flag := c.allFlags ++ [help]

def title (c : CommandSpec) : Text := Text.join " " (tool :: c.path)

/-- The commands that a misspelt name may stand for; two bytes may be wrong. -/
def suggestions (name : Text) : List Text :=
  let shown := all.filter fun c => c.path.length = 1 && c.path != (["help"] : List Text)
  let names := shown.map (·.path.headD [])
  names.filter fun n => Similar.distance name.fold n ≤ 2 || n.startsWith name.fold

end CommandSpec

/-- Why a command line cannot be followed. -/
inductive LineFault where
  /-- A help page is asked for. -/
  | help
  | unknownCommand (name title : Text) (suggestions : List Text)
  | unknownFlag (name : Text)
  | unknownShort (letter : UInt8) (group : Text)
  | badFlag (word : Text)
  | noValue (name : Text)
  | noShortValue (letter : UInt8) (group : Text)
  | badValue (flag : Flag) (value reason : Text)
  | tooManyArgs (most given : Nat)
  | wrongArgs (wanted given : Nat)
  | badArg (value title : Text)
  deriving DecidableEq, Repr

namespace LineFault

def message : LineFault → Text
  | .help => []
  | .unknownCommand name title suggestions =>
      let hint : Text := if suggestions.isEmpty then [] else
        "\n\nDid you mean this?\n" ++
          Text.concat (suggestions.map fun s => Text.concat ["\t", s, "\n"])
      Text.concat ["unknown command ", name.quoted, " for ", title.quoted, hint]
  | .unknownFlag name => "unknown flag: --" ++ name
  | .unknownShort letter group =>
      Text.concat ["unknown shorthand flag: ", Text.quotedByte letter, " in -", group]
  | .badFlag word => "bad flag syntax: " ++ word
  | .noValue name => "flag needs an argument: --" ++ name
  | .noShortValue letter group =>
      Text.concat ["flag needs an argument: ", Text.quotedByte letter, " in -", group]
  | .badValue flag value reason =>
      let name : Text := match flag.short with
        | some letter => Text.concat ["-", [letter], ", --", flag.name]
        | none => "--" ++ flag.name
      Text.concat ["invalid argument ", value.quoted, " for ", name.quoted,
        " flag: ", reason]
  | .tooManyArgs most given =>
      Text.concat ["accepts at most ", .ofNat most, " arg(s), received ", .ofNat given]
  | .wrongArgs wanted given =>
      Text.concat ["accepts ", .ofNat wanted, " arg(s), received ", .ofNat given]
  | .badArg value title =>
      Text.concat ["invalid argument ", value.quoted, " for ", title.quoted]

end LineFault

/-! ## Finding the command -/

/-- Whether a word is a flag of `c`, or looks like one, whose value is the next
word. -/
def CommandSpec.takesNext (c : CommandSpec) (word : Text) : Bool :=
  !word.has "=" &&
    if word.startsWith "--" then !(c.flag? (word.drop 2)).any (·.stands)
    else word.startsWith "-" && word.length =
      2 && !(c.short? (word.getD 1 0)).any (·.stands)

/-- The words of a line that are neither flags nor their values. -/
def CommandSpec.plainWords (c : CommandSpec) : List Text → List Text
  | [] => []
  | word :: rest =>
      if word == ("--" : Text) then []
      else if c.takesNext word then
        match rest with
        | _ :: next :: more => plainWords c (next :: more)
        | _ => []
      else if !word.isEmpty && !word.startsWith "-" then word :: plainWords c rest
      else plainWords c rest

/-- A line without the first word that names the next command. -/
def CommandSpec.without (c : CommandSpec) (name : Text) : List Text → List Text
  | [] => []
  | word :: rest =>
      if word == ("--" : Text) then word :: rest
      else if c.takesNext word then
        match rest with
        | value :: more => word :: value :: without c name more
        | [] => [word]
      else if word == name then rest
      else word :: without c name rest

/-- The command that a line names from `c` on, and the line without its name. -/
def CommandSpec.descend : Nat → CommandSpec → List Text → CommandSpec × List Text
  | 0, c, words => (c, words)
  | fuel + 1, c, words =>
      match c.plainWords words with
      | name :: _ =>
          match c.next? name with
          | some next => descend fuel next (c.without name words)
          | none => (c, words)
      | [] => (c, words)

/-! ## Reading the flags -/

/-- What was said on a command line. -/
structure Invocation where
  command : CommandSpec
  /-- The flags that were set, in order. -/
  given : List (Text × Text) := []
  args : List Text := []

namespace Invocation

def truths : List (Text × Bool) :=
  [("1", true), ("t", true), ("T", true), ("TRUE", true), ("true", true), ("True", true),
   ("0", false), ("f", false), ("F", false), ("FALSE", false), ("false", false),
   ("False", false)]

/-- Sets a flag, whose value has to be of its kind. -/
def set (i : Invocation) (flag : Flag) (value : Text) : Except LineFault Invocation :=
  let done : Invocation := { i with given := i.given ++ [(flag.name, value)] }
  match flag.kind with
  | .text => .ok done
  | .switch =>
      if (truths.lookup value).isSome then .ok done
      else .error (.badValue flag value
        (Text.concat ["strconv.ParseBool: parsing ", value.quoted, ": invalid syntax"]))
  | .span =>
      match Duration.parse value with
      | .ok _ => .ok done
      | .error f => .error (.badValue flag value (f.message value))
  | .number =>
      match Integer.parseAnyBase value with
      | .ok _ => .ok done
      | .error f => .error (.badValue flag value (f.message "strconv.ParseInt" value))

/-- Reads a flag by its name; `rest` is what follows on the line. -/
def long (i : Invocation) (word : Text) (rest : List Text) :
    Except LineFault (Invocation × List Text) := do
  let body : Text := word.drop 2
  if body.startsWith "-" || body.startsWith "=" then throw (.badFlag word)
  let (name, value?) : Text × Option Text := match body.cut? "=" with
    | some (n, v) => (n, some v)
    | none => (body, none)
  match i.command.knownFlags.find? (·.name == name), value? with
  | none, _ => throw (.unknownFlag name)
  | some flag, some value => return (← i.set flag value, rest)
  | some flag, none =>
      if flag.stands then return (← i.set flag "true", rest)
      else match rest with
        | value :: rest => return (← i.set flag value, rest)
        | [] => throw (.noValue name)

/-- Reads a group of flags by their letters. A group that is meant for a test runner is
passed over. -/
def letters : Nat → Invocation → Text → List Text →
    Except LineFault (Invocation × List Text)
  | 0, i, _, rest => .ok (i, rest)
  | fuel + 1, i, group, rest =>
      match group with
      | [] => .ok (i, rest)
      | letter :: more => do
          if Text.startsWith group "test." then return (i, rest)
          match i.command.knownFlags.find? (·.short == some letter) with
          | none => throw (.unknownShort letter group)
          | some flag =>
              match more, rest with
              | 61 :: value :: tail, _ => return (← i.set flag (value :: tail), rest)
              | _, _ =>
                  if flag.stands then letters fuel (← i.set flag "true") more rest
                  else match more, rest with
                    | _ :: _, _ => return (← i.set flag more, rest)
                    | [], value :: rest => return (← i.set flag value, rest)
                    | [], [] => throw (.noShortValue letter group)

/-- Reads the flags and arguments of a line. -/
def readLoop : Nat → Invocation → List Text → Except LineFault Invocation
  | 0, i, _ => .ok i
  | _, i, [] => .ok i
  | fuel + 1, i, word :: rest =>
      if !word.startsWith "-" || word.length = 1 then
        readLoop fuel { i with args := i.args ++ [word] } rest
      else if word == ("--" : Text) then .ok { i with args := i.args ++ rest }
      else do
        let (i, rest) ←
          if word.startsWith "--" then i.long word rest
          else letters word.length i (word.drop 1) rest
        readLoop fuel i rest

def value? (i : Invocation) (name : Text) : Option Text := i.given.reverse.lookup name

/-- The text a flag was given, or another. -/
def text (i : Invocation) (name : String) (usual : Text) : Text :=
  (i.value? name).getD usual

def switch (i : Invocation) (name : String) : Bool :=
  ((i.value? name).bind fun v => truths.lookup v).getD false

/-- The duration a flag was given, or none at all. -/
def span (i : Invocation) (name : String) : Int :=
  ((i.value? name).bind fun v => (Duration.parse v).toOption).getD 0

/-- Whether the command can take the arguments it was given. -/
def checkArgs (i : Invocation) : Except LineFault Invocation :=
  let n := i.args.length
  match i.command.arity with
  | .any => .ok i
  | .none =>
      match i.args with
      | [] => .ok i
      | first :: _ => .error (.unknownCommand first i.command.title [])
  | .atMost most => if n ≤ most then .ok i else .error (.tooManyArgs most n)
  | .exactly wanted => if n = wanted then .ok i else .error (.wrongArgs wanted n)
  | .oneOf words =>
      match i.args with
      | [word] =>
          if words.contains word then .ok i else .error (.badArg word i.command.title)
      | _ => .error (.wrongArgs 1 n)

def ofWords (words : List Text) : Except LineFault Invocation := do
  let (command, rest) := CommandSpec.descend 3 .root words
  if command.path.isEmpty then
    if let name :: _ := command.plainWords rest then
      throw (.unknownCommand name command.title (CommandSpec.suggestions name))
  let i ← readLoop (rest.length + 1) { command := command } rest
  if i.switch "help" || !command.acts then throw .help
  i.checkArgs

end Invocation

end Deriver
