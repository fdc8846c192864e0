import Deriver.Config.Basic
import Deriver.Json.Parse
import Deriver.Number.Binary64
import Deriver.Text.Utf8
import Deriver.Toml.Read
import Deriver.Yaml.Basic
import Deriver.Yaml.Read

/-!
# Loading the configuration

A setting is looked for in three layers: the environment, the file, and the
usual configuration. A variable of the environment is named for the whole path
of its setting, and counts only if it is not empty.

Two rules of the layers are worth knowing. A variable named for a whole section
hides every setting of it. And a section that is present in the file but is no
mapping takes the place of all its settings.
-/

/-!
## Files of assignments

The plainest spelling of settings: a name, an equals sign or a colon, and a value on each
line. Sections cannot be nested, but a name may contain points. A value may stand in quotes,
and then it may go on over several lines. Outside single quotes a variable stands for its
value: that of the environment, or else the one that the file gave it before.
-/

namespace Deriver.Assignment

/-- Why a file of assignments is refused. -/
inductive Fault where
  | noAssignment (line : Text)
  /-- A name is exported that has no value. -/
  | unset (line : Text)
  | openQuote
  deriving DecidableEq, Repr

def Fault.message : Fault → Text
  | .noAssignment line => Text.concat ["line `", line, "` doesn't match format"]
  | .unset line => Text.concat ["line `", line, "` has an unset variable"]
  | .openQuote => "missing quotes"

/-- Names with their values. -/
abbrev Values := List (Text × Text)

def Values.set (vs : Values) (name value : Text) : Values :=
  (name, value) :: vs.filter (·.1 != name)

/-! ### Lines -/

/-- The text of a file, which may begin with a byte order mark. -/
def decoded (t : Text) : Text :=
  match t with
  | 0xEF :: 0xBB :: 0xBF :: rest => Text.repaired rest
  | 0xFF :: 0xFE :: rest => Text.ofUtf16 false rest
  | 0xFE :: 0xFF :: rest => Text.ofUtf16 true rest
  | _ => t

/-- The loop of `linesOf`: `line` is the current line in reverse. -/
def linesLoop (line : Text) : Text → List Text
  | [] => if line.isEmpty then [] else [line.reverse]
  | 13 :: 10 :: rest | 13 :: rest | 10 :: rest => line.reverse :: linesLoop [] rest
  | b :: rest => linesLoop (b :: line) rest

/-- The lines of a text. What follows the last end of a line is a line unless it is
empty. -/
def linesOf (t : Text) : List Text := linesLoop [] t

/-- The quote that a line opens and does not close. A quote behind a backslash does not
close. -/
def openQuote? (line : Text) : Option UInt8 :=
  match (line.find? "=").orElse fun _ => line.find? ":" with
  | none | some 0 => none
  | some i =>
      let value : Text := Text.trim (line.drop (i + 1))
      match value with
      | [] => none
      | q :: rest =>
          if q != 34 && q != 39 then none
          else
            match Text.findLast? (Text.trim rest) [q] with
            | some k => if (value.drop k).head? == some 92 then some q else none
            | none => some q

def closes (q : UInt8) (line : Text) : Bool :=
  match line.findLast? [q] with
  | none => false
  | some 0 => true
  | some (k + 1) => (line.drop k).head? != some 92

/-- A line with all lines up to the one that closes a quote, and the lines behind. -/
def gather (q : UInt8) (line : Text) : List Text → Except Fault (Text × List Text)
  | [] => .error .openQuote
  | next :: rest =>
      let all := line ++ "\n" ++ next
      if closes q next then .ok (all, rest) else gather q all rest

/-! ### The form of an assignment -/

def isNameByte (b : UInt8) : Bool :=
  Text.isDigitByte b || Text.isUpperByte b || Text.isLowerByte b || b == 95 || b == 46

def isGap (b : UInt8) : Bool := b == 32 || b == 9 || b == 10 || b == 12 || b == 13

/-- Whether a text has nothing but gaps and perhaps a comment, which is the last line. -/
def isOver (t : Text) : Bool :=
  match t.dropWhile isGap with
  | [] => true
  | 35 :: rest => !rest.contains 10
  | _ => false

/-- The value in quotes that a text begins with, of several the longest that nothing but a
comment follows. -/
def quotedValue? (q : UInt8) (t : Text) : Option Text :=
  if t.head? != some q then none
  else
    ((List.range t.length).reverse.find? fun i =>
      0 < i && (t.drop i).head? == some q && isOver (t.drop (i + 1))).map fun i =>
        t.take (i + 1)

/-- The value at the front of a text, if nothing but a comment follows it. -/
def value? (t : Text) : Option Text :=
  let run := t.takeWhile fun b => b != 35 && b != 10
  (quotedValue? 39 t).orElse fun _ =>
    (quotedValue? 34 t).orElse fun _ =>
      if !run.isEmpty && isOver (t.drop run.length) then some run
      else if isOver t then some []
      else none

/-- The texts in which a value is looked for behind a name, the first that has one being
meant. Behind an equals sign the gaps do not belong to it if that is possible; behind a
colon all but one do. -/
def starts (t : Text) : List Text :=
  let gaps (t : Text) : Nat := (t.takeWhile isGap).length
  match t.dropWhile isGap, t with
  | 61 :: rest, _ => (List.range (gaps rest + 1)).reverse.map fun n => rest.drop n
  | _, 58 :: rest => (List.range (gaps rest)).map fun n => rest.drop (n + 1)
  | _, _ => []

def assignment? (t : Text) : Option (Text × Text) :=
  let (name, rest) := t.span isNameByte
  if name.isEmpty then none else ((starts rest).findSome? value?).map fun v =>
    (name, v.trim)

def exported? (t : Text) : Option Text :=
  (t.dropStart? "export").bind fun rest =>
    if rest.head?.any isGap then some (rest.dropWhile isGap) else none

def parts? (line : Text) : Option (Text × Text) :=
  let t := line.dropWhile isGap
  ((exported? t).bind assignment?).orElse fun _ => assignment? t

/-! ### Values -/

/-- A text without its backslashes, what follows each being kept; one before a dollar sign
stays. -/
def unescape : Text → Text
  | 92 :: 36 :: rest => 92 :: 36 :: unescape rest
  | 92 :: b :: rest => b :: unescape rest
  | b :: rest => b :: unescape rest
  | [] => []

def between? (quote : UInt8) (t : Text) : Option Text :=
  if 2 ≤ t.length && t.startsWith [quote] && t.endsWith [quote] then
    some ((t.drop 1).take (t.length - 2))
  else none

def isVariableByte (b : UInt8) : Bool :=
  Text.isDigitByte b || Text.isUpperByte b || b == 95

/-- The name of the variable behind a dollar sign, which may stand in braces, and what
follows. -/
def variableAt (t : Text) : Text × Text :=
  let body := t.dropStart "\x7b"
  let (name, rest) := body.span isVariableByte
  (name, Text.dropStart rest "\x7d")

/-- A text with its variables replaced; `fuel` is its length. A dollar sign behind a
backslash is one. -/
def expand (look : Text → Text) : Nat → Text → Text
  | 0, _ => []
  | fuel + 1, t =>
      match t with
      | [] => []
      | 92 :: 36 :: rest =>
          let after := (variableAt rest).2
          (36 :: rest.take (rest.length - after.length)) ++ expand look fuel after
      | 36 :: rest =>
          let (name, after) := variableAt rest
          (if name.isEmpty then 36 :: rest.take (rest.length - after.length) else look name)
            ++ expand look fuel after
      | b :: rest => b :: expand look fuel rest

def look (env known : Values) (name : Text) : Text :=
  ((env.lookup name).orElse fun _ => known.lookup name).getD []

def meaning (env known : Values) (t : Text) : Text :=
  let expanded (t : Text) : Text := expand (look env known) t.length t
  match between? 34 t, between? 39 t with
  | some inner, _ =>
      expanded (unescape (Text.replace (Text.replace inner "\\n" "\n") "\\r" "\r"))
  | none, some inner => inner
  | none, none => expanded t

/-! ### Files -/

def refusal (known : Values) (line : Text) : Fault :=
  let bare := line.trim
  match if bare.startsWith "export" then bare.cut? " " else none with
  | some (_, name) => if (known.lookup name).isSome then .noAssignment line else .unset bare
  | none => .noAssignment line

/-- The values with those of more lines; `fuel` is the number of lines. -/
def readLines (env : Values) : Nat → Values → List Text → Except Fault Values
  | 0, known, _ => .ok known
  | _, known, [] => .ok known
  | fuel + 1, known, next :: rest => do
      let line := next.trim
      if line.isEmpty || line.startsWith "#" then readLines env fuel known rest
      else
        let (line, rest) ← match openQuote? line with
          | some q => gather q line rest
          | none => .ok (line, rest)
        match parts? line with
        | some (name, value) =>
            readLines env fuel (known.set name (meaning env known value)) rest
        | none => throw (refusal known line)

/-- The assignments of a file, its empty lines and comments left out. -/
def read (env : Values) (t : Text) : Except Fault (List (Text × Yaml)) := do
  let lines := linesOf (decoded t)
  return (← readLines env lines.length [] lines).reverse.map fun (name, value) =>
    (name, .str value)

end Deriver.Assignment

/-!
## Settings as JSON objects

A configuration may be a JSON object. All its numbers are floats, and one that is
beyond the largest float is a fault. A text that holds null holds no settings.
-/

namespace Deriver.Config

/-- Why a text holds no object of settings. -/
inductive ObjectFault where
  | malformed (fault : Json.Fault)
  /-- The value is of another kind. -/
  | noObject (kind : Text)
  /-- A number is no float. -/
  | number (spelling : Text)

def misfit (given wanted : Text) : Text :=
  Text.concat ["json: cannot unmarshal ", given, " into Go value of type ", wanted]

def ObjectFault.message : ObjectFault → Text
  | .malformed f => f.message
  | .noObject kind => misfit kind "map[string]interface \x7b\x7d"
  | .number spelling => misfit ("number " ++ spelling) "float64"

def ofNumber (spelling : Text) : Except ObjectFault Yaml :=
  ((Decimal.parse spelling).map Yaml.float).mapError fun _ => .number spelling

mutual

def ofJson : Json → Except ObjectFault Yaml
  | .null => .ok .null
  | .bool b => .ok (.bool b)
  | .int n => ofNumber (.ofInt n)
  | .real t => ofNumber t
  | .str t => .ok (.str t)
  | .arr items => return .list (← ofItems items)
  | .obj fields => return .map (← ofFields fields)

def ofItems : List Json → Except ObjectFault (List Yaml)
  | [] => .ok []
  | j :: rest => return (← ofJson j) :: (← ofItems rest)

def ofFields : List (Text × Json) → Except ObjectFault (List (Text × Yaml))
  | [] => .ok []
  | (name, j) :: rest => return (name, ← ofJson j) :: (← ofFields rest)

end

/-- The settings that a text holds as an object. -/
def readObject (t : Text) : Except ObjectFault (List (Text × Yaml)) := do
  match ← (Json.read t).mapError .malformed with
  | .obj fields => ofFields fields
  | .null => return []
  | .bool _ => throw (.noObject "bool")
  | .str _ => throw (.noObject "string")
  | .arr _ => throw (.noObject "array")
  | .int _ | .real _ => throw (.noObject "number")

end Deriver.Config

/-! ## The environment -/

namespace Deriver

/-- The variables of the environment. -/
abbrev Environment := List (Text × Text)

namespace Environment

def mark : Text := "DERIVEKIT_"

def variableOf (path : List Text) : Text :=
  mark ++ (Text.join "_" path).capitals

/-- The value of the variable for a setting, unless it is empty. -/
def setting? (env : Environment) (path : List Text) : Option Text :=
  (env.lookup (variableOf path)).filter (!·.isEmpty)

def settings : List (List Text) :=
  [["runtime_crate"], ["output_dir"], ["suffix"], ["parallelism"], ["log_level"],
   ["cache"], ["cache", "backend"], ["cache", "redis_url"], ["cache", "ttl"],
   ["cache", "prefix"], ["watch"], ["watch", "debounce"], ["watch", "ignore"]]

end Environment

namespace Config

/-! ## The file -/

/-- The entries of a mapping with their names in lower case. Of two spellings of a
name the one that was not in lower case counts. -/
def unified (entries : List (Text × Yaml)) : List (Text × Yaml) :=
  let (low, other) := entries.partition fun (name, _) => name.fold == name
  let named := low ++ other.map fun (name, y) => (name.fold, y)
  named.foldl (fun all (name, y) => all.filter (·.1 != name) ++ [(name, y)]) []

mutual

/-- A value of a mapping: the names of mappings in it are in lower case, but what
stands in a list keeps its spelling. -/
def lowered : Yaml → Yaml
  | .map entries => .map (unified (loweredEntries entries))
  | .keyed entries => .map (unified (loweredKeyed entries))
  | y => y

def loweredEntries : List (Text × Yaml) → List (Text × Yaml)
  | [] => []
  | (name, y) :: rest => (name, lowered y) :: loweredEntries rest

/-- The entries of a mapping with keys of any kind under the names of the keys. -/
def loweredKeyed : List (Yaml × Yaml) → List (Text × Yaml)
  | [] => []
  | (key, y) :: rest => (Yaml.keyName key, lowered y) :: loweredKeyed rest

end

mutual

/-- A value outside all sections: mappings are lowered, those in lists too. -/
def folded : Yaml → Yaml
  | .list items => .list (foldedItems items)
  | y => lowered y

/-- The items of a list, folded. -/
def foldedItems : List Yaml → List Yaml
  | [] => []
  | y :: rest => folded y :: foldedItems rest

end

def settled (entries : List (Text × Yaml)) : List (Text × Yaml) :=
  unified (entries.map fun (name, y) => (name, folded y))

def formats : List Text :=
  ["json", "toml", "yaml", "yml", "properties", "props", "prop", "hcl", "tfvars",
    "dotenv", "env",
   "ini"]

def readFormat (env : Environment) (format content : Text) :
    Except Text (List (Text × Yaml)) :=
  if format == ("yaml" : Text) || format == ("yml" : Text) then
    (Yaml.read content).mapError (·.message)
  else if format == ("json" : Text) then (readObject content).mapError (·.message)
  else if format == ("toml" : Text) then (Toml.read content).mapError (·.message)
  else if format == ("dotenv" : Text) || format == ("env" : Text) then
    (Assignment.read env content).mapError (·.message)
  else .error "decoder not found for this format"

/-! ## The layers -/

def integerName (format : Text) : Text :=
  if format == ("toml" : Text) then "int64" else "int"

/-- What a setting is looked for in; `integer` is what messages call a signed
integer of the file. -/
structure Layers where
  env : Environment
  file : List (Text × Yaml)
  integer : Text
  usual : Config

namespace Layers

/-- The entry of the file under a name, unless it is null. -/
def entry? (l : Layers) (name : Text) : Option Yaml :=
  match Yaml.get? name (.map l.file) with
  | some .null | none => none
  | some y => some y

def top (l : Layers) (name : Text) (usual : Yaml) : Yaml :=
  match l.env.setting? [name] with
  | some t => .str t
  | none => (l.entry? name).getD usual

/-- Whether the file has a section of that name that is no mapping. -/
def isReplaced (l : Layers) (group : Text) : Bool :=
  match Yaml.get? group (.map l.file) with
  | some (.map _) | none => false
  | some _ => true

/-- What stands in the place of a section: the settings of the usual
configuration if that is nothing. -/
def replacement (l : Layers) (group : Text) : Option Yaml :=
  match l.env.setting? [group] with
  | some t => some (.str t)
  | none => l.entry? group

/-- The value of a setting in a section of the file. -/
def inFile? (l : Layers) (group name : Text) : Option Yaml :=
  match l.entry? (Text.concat [group, ".", name]) with
  | some y => some y
  | none =>
      match (l.entry? group).bind (Yaml.get? name) with
      | some .null | none => none
      | some y => some y

def inner (l : Layers) (group name : Text) (usual : Yaml) : Yaml :=
  match l.env.setting? [group, name] with
  | some t => .str t
  | none =>
      if (l.env.setting? [group]).isSome then .null
      else (l.inFile? group name).getD usual

/-- How the settings of a section are looked up, or why the section is none. A date
counts as a section in which nothing is set, not even to what is usual. -/
def section? (l : Layers) (group : Text) : Except Text (Text → Yaml → Yaml) :=
  if l.isReplaced group then
    match l.replacement group with
    | none => .ok fun _ usual => usual
    | some (.date _ _) => .ok fun _ _ => .null
    | some y =>
        .error (Text.concat ["'", group, "' expected a map, got '",
          y.kindName l.integer, "'"])
  else .ok fun name usual => l.inner group name usual

end Layers

def faultsOf {α : Type} : Except Text α → List Text
  | .ok _ => []
  | .error e => [e]

def cacheOf (u : CacheConfig) (get : Text → Yaml → Yaml) : Except (List Text) CacheConfig :=
  let backend := Yaml.asText "cache.backend" (get "backend" (.str u.backend))
  let address := Yaml.asText "cache.redis_url" (get "redis_url" (.str u.address))
  let ttl := Yaml.asDuration "cache.ttl" (get "ttl" (.int u.ttl))
  let mark := Yaml.asText "cache.prefix" (get "prefix" (.str u.mark))
  match backend, address, ttl, mark with
  | .ok backend, .ok address, .ok ttl, .ok mark => .ok ⟨backend, address, ttl, mark⟩
  | _, _, _, _ =>
      .error (List.flatten [faultsOf backend, faultsOf address, faultsOf ttl,
        faultsOf mark])

def watchOf (u : WatchConfig) (get : Text → Yaml → Yaml) : Except (List Text) WatchConfig :=
  let debounce := Yaml.asDuration "watch.debounce" (get "debounce" (.int u.debounce))
  let ignored := Yaml.asTexts "watch.ignore" (get "ignore" (.list (u.ignored.map .str)))
  match debounce, ignored with
  | .ok debounce, .ok ignored => .ok ⟨debounce, ignored⟩
  | _, _ => .error (faultsOf debounce ++ match ignored with
      | .ok _ => []
      | .error lines => lines)

/-- The configuration that the layers give, or everything that is wrong in them. -/
def ofLayers (l : Layers) : Except ConfigFault Config :=
  let u := l.usual
  let supportCrate :=
    Yaml.asText "runtime_crate" (l.top "runtime_crate" (.str u.supportCrate))
  let outputDir := Yaml.asText "output_dir" (l.top "output_dir" (.str u.outputDir))
  let suffix := Yaml.asText "suffix" (l.top "suffix" (.str u.suffix))
  let parallelism :=
    Yaml.asNumber "parallelism" "int" (l.top "parallelism" (.int u.parallelism))
  let logLevel := Yaml.asText "log_level" (l.top "log_level" (.str u.logLevel))
  let cache := do cacheOf u.cache (← (l.section? "cache").mapError (fun e => [e]))
  let watch := do watchOf u.watch (← (l.section? "watch").mapError (fun e => [e]))
  match supportCrate, outputDir, suffix, parallelism, logLevel, cache, watch with
  | .ok supportCrate, .ok outputDir, .ok suffix, .ok parallelism, .ok logLevel, .ok cache,
      .ok watch =>
      .ok ⟨supportCrate, outputDir, suffix, parallelism, logLevel, cache, watch⟩
  | _, _, _, _, _, _, _ =>
      let inner {α : Type} : Except (List Text) α → List Text
        | .ok _ => []
        | .error lines => lines
      .error (.undecodable (List.flatten [faultsOf supportCrate, faultsOf outputDir,
        faultsOf suffix, faultsOf parallelism, faultsOf logLevel, inner cache,
        inner watch]))

/-! ## Loading -/

def ofEntries (env : Environment) (usual : Config) (format : Text)
    (entries : List (Text × Yaml)) : Except ConfigFault Config := do
  (← ofLayers ⟨env, settled entries, integerName format, usual⟩).check

/-- The configuration file of a directory, if it has one. -/
def fileIn? (dir : Text) (files : FileTree) : Option Text :=
  let stem := configFileName.dropTail ".yaml"
  let names := (formats.map fun f => Text.concat [stem, ".", f]) ++ [stem]
  (names.map fun name => FileName.join [dir, name]).find? fun path =>
    files.has path && !files.hasDir path

/-- Loads the configuration of a directory. Without a file it is the usual one,
but for the environment. Every file is read as YAML, whatever its ending. -/
def load (env : Environment) (usual : Config) (dir : Text) (files : FileTree) :
    Except ConfigFault Config := do
  match fileIn? dir files with
  | none => ofEntries env usual "yaml" []
  | some path =>
      let content ← (files.read path).mapError (.unreadable path)
      let entries ← (readFormat env "yaml" content).mapError (.malformed none)
      ofEntries env usual "yaml" entries

/-- Loads the configuration from a file, in the format that its ending names. -/
def loadFile (env : Environment) (usual : Config) (path : Text) (files : FileTree) :
    Except ConfigFault Config := do
  let format : Text := (FileName.extension path).drop 1
  if !formats.contains format then throw (.unknownFormat path format)
  let content ← (files.read path).mapError (.unreadable path)
  let entries ← (readFormat env format content).mapError (.malformed (some path))
  ofEntries env usual format entries

/-- The directory that holds a configuration file, from a directory upwards; the
directory itself if there is none. -/
def rootLoop (files : FileTree) (start : Text) : Nat → Text → Text
  | 0, _ => start
  | fuel + 1, dir =>
      if files.has (FileName.join [dir, configFileName]) then dir
      else
        let parent := FileName.dir dir
        if parent == dir then start else rootLoop files start fuel parent

/-- The root of the project that the working directory belongs to. -/
def findRoot (files : FileTree) : Text :=
  rootLoop files files.cwdName (files.cwdName.length + 1) files.cwdName

end Config

end Deriver
