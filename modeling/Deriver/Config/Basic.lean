import Deriver.Build.Basic
import Deriver.Cache.Open
import Deriver.Number.Duration
import Deriver.Number.Integer
import Deriver.Watch.Watcher
import Deriver.Yaml.Basic
import Deriver.Yaml.Write

/-!
# The configuration

What a project can choose: the crate that generated code leans on, where
generated files go, how results are cached and what is watched. A configuration
that was read has passed `Config.check`, so the commands need not ask again.
-/

namespace Deriver

def configFileName : Text := "derivekit.yaml"

/-- Which cache is used, and how. Durations are in nanoseconds. -/
structure CacheConfig where
  backend : Text
  address : Text
  ttl : Int
  mark : Text
  deriving DecidableEq, Repr

/-- What is watched, and how. -/
structure WatchConfig where
  debounce : Int
  ignored : List Text
  deriving DecidableEq, Repr

/-- A configuration. -/
structure Config where
  supportCrate : Text
  outputDir : Text
  suffix : Text
  parallelism : Int
  logLevel : Text
  cache : CacheConfig
  watch : WatchConfig
  deriving DecidableEq, Repr

/-- Why there is no configuration. -/
inductive ConfigFault where
  /-- The ending of the file names no format of configurations. -/
  | unknownFormat (path format : Text)
  /-- The file that was asked for cannot be read. -/
  | unreadable (path : Text) (error : FileError)
  /-- The file is not in its format; only a file that was asked for is named. -/
  | malformed (path : Option Text) (reason : Text)
  /-- Values that cannot be what they should be. -/
  | undecodable (lines : List Text)
  | badSuffix (suffix : Text)
  | badParallelism (n : Int)
  | noCrate
  | unknownBackend (backend : Text)
  | noAddress
  | negativeDebounce (span : Int)

namespace ConfigFault

def message : ConfigFault → Text
  | .unknownFormat path format =>
      Text.concat ["failed to read config file ", path, ": Unsupported Config Type ",
        format.quoted]
  | .unreadable path e => Text.concat ["failed to read config file ", path, ": ", e.message]
  | .malformed path reason =>
      let named : Text := path.elim [] (" " ++ ·)
      Text.concat ["failed to read config file", named, ": While parsing config: ", reason]
  | .undecodable lines =>
      "failed to unmarshal config: decoding failed due to the following error(s):\n\n" ++
        Text.join "\n" lines
  | .badSuffix t => "suffix must end with '.rs', got: " ++ t.quoted
  | .badParallelism n => "parallelism must be at least 1, got: " ++ Text.ofInt n
  | .noCrate => "runtime_crate must not be empty"
  | .unknownBackend t =>
      "cache.backend must be one of memory, redis or none, got: " ++ t.quoted
  | .noAddress => "cache.redis_url is required for the redis backend"
  | .negativeDebounce n => "watch.debounce must not be negative, got: " ++ Duration.render n

end ConfigFault

namespace Config

/-- The configuration of a project that chooses nothing, on a machine with so
many processors. -/
def usual (processors : Nat) : Config where
  supportCrate := "derivekit"
  outputDir := []
  suffix := defaultSuffix
  parallelism := processors
  logLevel := "info"
  cache := {
    backend := "memory"
    address := "redis://localhost:6379/0"
    ttl := 24 * 3600 * Duration.second
    mark := "derivekit:" }
  watch := { debounce := Duration.second / 10, ignored := defaultIgnored }

/-- The configuration itself, if the tool can work with it. -/
def check (c : Config) : Except ConfigFault Config :=
  if !c.suffix.endsWith sourceExtension then .error (.badSuffix c.suffix)
  else if c.parallelism < 1 then .error (.badParallelism c.parallelism)
  else if c.supportCrate.trim.isEmpty then .error .noCrate
  else if !(["memory", "redis", "none"] : List Text).contains c.cache.backend then
    .error (.unknownBackend c.cache.backend)
  else if c.cache.backend == ("redis" : Text) && c.cache.address.isEmpty then
    .error .noAddress
  else if c.watch.debounce < 0 then .error (.negativeDebounce c.watch.debounce)
  else .ok c

/-! ## What the parts of the tool take from it -/

def buildOptions (c : Config) : BuildOptions where
  support := ⟨c.supportCrate⟩
  outputDir := c.outputDir
  suffix := c.suffix

def cacheSettings (c : Config) : CacheSettings where
  backend := c.cache.backend
  address := c.cache.address
  mark := c.cache.mark
  keep := c.cache.ttl

/-- What to watch below a directory: sources, and no generated file. -/
def watchOptions (c : Config) (root : Text) : WatchOptions where
  root := root
  ignored := c.watch.ignored
  accepts := isSource c.suffix

def logLevels : List Text :=
  ["debug", "info", "", "warn", "error", "dpanic", "panic", "fatal"]

/-- What is wrong with the level of the log, if anything. -/
def logFault? (c : Config) : Option Text :=
  if logLevels.contains c.logLevel.fold then none
  else some (Text.concat ["invalid log_level ", c.logLevel.quoted, ": unrecognized level: ",
    c.logLevel.quoted])

/-! ## Writing it -/

/-- The configuration as its file spells it. -/
def toYaml (c : Config) : Yaml :=
  let entry (name : String) (y : Yaml) : Text × Yaml := (name, y)
  .map [entry "runtime_crate" (.str c.supportCrate), entry "output_dir" (.str c.outputDir),
    entry "suffix" (.str c.suffix), entry "parallelism" (.int c.parallelism),
    entry "log_level" (.str c.logLevel),
    entry "cache" (.map [entry "backend" (.str c.cache.backend),
      entry "redis_url" (.str c.cache.address),
      entry "ttl" (.str (Duration.render c.cache.ttl)),
      entry "prefix" (.str c.cache.mark)]),
    entry "watch" (.map [entry "debounce" (.str (Duration.render c.watch.debounce)),
      entry "ignore" (.list (c.watch.ignored.map .str))])]

/-- Writes the configuration into a directory; answers the name of its file. -/
def save (c : Config) (dir : Text) (files : FileTree) : Except Text (Text × FileTree) :=
  let path := FileName.join [dir, configFileName]
  match files.write path (Yaml.write 4 c.toYaml) with
  | .ok files => .ok (path, files)
  | .error e => .error (Text.concat ["failed to write ", path, ": ", e.message])

end Config

end Deriver

/-!
# Settings as values of a kind

A setting may be spelt loosely: a number for a text, a text for a number or a
duration, one name for a list of names. What cannot be converted is a fault that
names the setting.
-/

namespace Deriver.Yaml

def Moment.typeName : Moment → Text
  | .instant => "time.Time"
  | .day => "toml.LocalDate"
  | .time => "toml.LocalTime"
  | .dayTime => "toml.LocalDateTime"

/-- What messages call the type of a value. -/
def typeName : Yaml → Text
  | .null => "nil"
  | .bool _ => "bool"
  | .int n => if n < Nat.pow 2 63 then "int" else "uint64"
  | .float _ => "float64"
  | .date kind _ => kind.typeName
  | .str _ => "string"
  | .list _ => "[]interface \x7b\x7d"
  | .map _ => "map[string]interface \x7b\x7d"
  | .keyed _ => "map[interface \x7b\x7d]interface \x7b\x7d"

/-- What messages call the kind of a value that is no mapping; `integer` is what
they call a signed integer of the format that the value was read from. -/
def kindName (integer : Text) : Yaml → Text
  | .list _ => "slice"
  | .int n => if n < Nat.pow 2 63 then integer else "uint64"
  | y => y.typeName

def unconvertible (name wanted : Text) (y : Yaml) : Text :=
  Text.concat ["'", name, "' expected type '", wanted,
    "', got unconvertible type '", y.typeName, "', value: '", y.display, "'"]

/-- A setting that is a text. No value is the empty text. -/
def asText (name : Text) : Yaml → Except Text Text
  | .null => .ok []
  | .str t => .ok t
  | .bool b => .ok (if b then "1" else "0")
  | .int n => .ok (.ofInt n)
  | .float bits => .ok (Binary64.positional bits)
  | y => .error (unconvertible name "string" y)

/-- A word of 64 bits, taken as signed. -/
def wrapped (n : Int) : Int := Int.bmod n (Nat.pow 2 64)

/-- A setting that is a number; `wanted` is what messages call its type. -/
def asNumber (name wanted : Text) : Yaml → Except Text Int
  | .null => .ok 0
  | .int n => .ok (wrapped n)
  | .float bits => .ok (Binary64.toInt64 bits)
  | .bool b => .ok (if b then 1 else 0)
  | .str t =>
      let t : Text := if t.isEmpty then "0" else t
      (Integer.parseAnyBase t).mapError fun f =>
        Text.concat ["cannot parse '", name, "' as int: ", f.message "strconv.ParseInt" t]
  | y => .error (unconvertible name wanted y)

/-- A setting that is a duration: a text with units, or a number of nanoseconds. -/
def asDuration (name : Text) : Yaml → Except Text Int
  | .str t => (Duration.parse t).mapError fun f =>
      Text.concat ["error decoding '", name, "': ", f.message t]
  | y => asNumber name "time.Duration" y

/-- The items of a setting that is a list: a text is split at its commas, and
any other single value is a list of one. -/
def asItems : Yaml → List Yaml
  | .null => []
  | .str t => if t.isEmpty then [] else (t.splitOn ",").map .str
  | .list items => items
  | .map [] => []
  | y => [y]

/-- The texts of a list, or the faults of all items that are none. -/
def asTexts (name : Text) (y : Yaml) : Except (List Text) (List Text) :=
  let results := (asItems y).mapIdx fun i item =>
    asText (Text.concat [name, "[", .ofNat i, "]"]) item
  let faults := results.filterMap fun r => match r with
    | .error e => some e
    | .ok _ => none
  if faults.isEmpty then .ok (results.filterMap (·.toOption)) else .error faults

end Deriver.Yaml
