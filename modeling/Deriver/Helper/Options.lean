import Deriver.Casing
import Deriver.Decl.Meta
import Deriver.Diagnostic.Cause
import Deriver.Similar
import Deriver.Text.Basic

/-!
# Helper attributes

## Levels and accepted keys

A helper attribute such as `#[add(skip)]` stands on an enum, a variant, a struct
or a field. Each derive says which keys it accepts on which of these levels.
-/

namespace Deriver

/-- The kind of item a helper attribute stands on. -/
inductive Level where
  | enum
  | variant
  | struct
  | field
  deriving DecidableEq, Repr

namespace Level

def all : List Level := [.enum, .variant, .struct, .field]

def name : Level → Text
  | .enum => "enum"
  | .variant => "variant"
  | .struct => "struct"
  | .field => "field"

def nameAt (n : Int) : Text :=
  match if 0 ≤ n then all[n.toNat]? else none with
  | some l => l.name
  | none => "item"

def ofName? (t : Text) : Option Level := all.find? (·.name == t)

def isContainer : Level → Bool
  | .enum | .struct => true
  | .variant | .field => false

end Level

/-- The keys that are accepted on each level. -/
structure Params where
  enum : List Text := []
  variant : List Text := []
  struct : List Text := []
  field : List Text := []

namespace Params

def on (p : Params) : Level → List Text
  | .enum => p.enum
  | .variant => p.variant
  | .struct => p.struct
  | .field => p.field

/-- The keys that are accepted on any level, each once. -/
def all (p : Params) : List Text :=
  Text.distinct (p.enum ++ p.variant ++ p.struct ++ p.field)

def levelsFor (p : Params) (key : Text) : List Text :=
  (Level.all.filter fun l => (p.on l).contains key).map (·.name)

end Params

/-!
## Options of a helper attribute

At most one helper attribute of a derive may stand on an item. Its arguments are
read from left to right; each must be a key that the level accepts and must not
be written twice. A format string comes first, and whatever follows it is an
argument of the format and no key. Keys that exclude each other are looked for
once all of them are known.
-/

/-- A key with a negated form, such as `source` and `not(source)`. -/
inductive Toggle where
  | unset
  | on
  | off
  deriving DecidableEq, Repr

/-- An error type to use in place of the default one, and the function that
converts the default one; empty if the type does so itself. -/
structure CustomError where
  type : Text
  conv : Text
  deriving DecidableEq, Repr

/-- A format string as written and decoded, with its arguments as written. -/
structure FormatSpec where
  lit : Text
  value : Text
  args : List Text
  pos : Position
  deriving DecidableEq, Repr

/-- What one item asks for. -/
structure Options where
  /-- Whether the item has the attribute at all. -/
  present : Bool := false
  /-- Whether the attribute stands there without arguments. -/
  bare : Bool := false
  ignore : Bool := false
  forward : Bool := false
  owned : Bool := false
  ref : Bool := false
  refMut : Bool := false
  /-- Whether any of `owned`, `ref` and `ref_mut` was written. -/
  accessors : Bool := false
  renameAll : Option Casing := none
  source : Toggle := .unset
  backtrace : Toggle := .unset
  error : Option CustomError := none
  types : List Text := []
  format : Option FormatSpec := none
  pos : Position := .unknown
  deriving DecidableEq, Repr

/-- Why the options of an item cannot be read. -/
inductive HelperFault where
  | diagnostic (d : Diagnostic)
  /-- A bare key or a list is called `format`: there is no text to format with. -/
  | noFormatText

def HelperFault.map (f : Diagnostic → Diagnostic) : HelperFault → HelperFault
  | .diagnostic d => .diagnostic (f d)
  | .noFormatText => .noFormatText

namespace Options

/-- Whether the item opts in, so that its unmarked siblings are left out. -/
def optsIn (o : Options) : Bool := o.bare || o.forward

/-- The key that an argument spells. A string stands for the format. -/
def keyOf : Meta → Text
  | .path _ p => p
  | .nameValue _ p .. => p
  | .lit _ v => if v.kind = .str then "format" else v.raw
  | .list _ p [.path _ q] _ => if p == "not" then Text.concat ["not(", q, ")"] else p
  | .list _ p .. => p
  | .other _ _ raw => raw

def setFlag? (key : Text) : Option (Options → Options) :=
  let table : List (String × (Options → Options)) :=
    [("ignore", fun o => { o with ignore := true }),
     ("skip", fun o => { o with ignore := true }),
     ("forward", fun o => { o with forward := true }),
     ("owned", fun o => { o with owned := true, accessors := true }),
     ("ref", fun o => { o with ref := true, accessors := true }),
     ("ref_mut", fun o => { o with refMut := true, accessors := true }),
     ("source", fun o => { o with source := .on }),
     ("not(source)", fun o => { o with source := .off }),
     ("backtrace", fun o => { o with backtrace := .on }),
     ("not(backtrace)", fun o => { o with backtrace := .off })]
  (table.find? fun (k, _) => key == k).map (·.2)

def isBareKey : Meta → Bool
  | .path .. => true
  | .list _ p .. => p == "not"
  | _ => false

/-- Reads `rename_all = "..."`. -/
def setRenameAll (attr : Text) (item : Meta) (o : Options) : Except Diagnostic Options :=
  let expected : Text := "a string naming a case, such as \"snake_case\""
  let malformed (actual : Text) : Diagnostic :=
    item.pos.diagnose (.malformedValue attr "rename_all" expected actual)
  let notString : Diagnostic :=
    { malformed item.raw with
      examples := [Text.concat ["#[", attr, "(rename_all = \"snake_case\")]"]] }
  match item with
  | .nameValue _ _ v _ =>
      if v.kind = .str then
        match Casing.ofName? v.value with
        | some c => .ok { o with renameAll := some c }
        | none =>
            match Similar.best? v.value Casing.names {} with
            | some best => .error { malformed v.value with
                suggestion := Text.concat ["Did you mean \"", best, "\"?"] }
            | none => .error (malformed v.value)
      else .error notString
  | _ => .error notString

/-- Reads `error(Type)` or `error(Type, conversion)`. -/
def setError (attr : Text) (item : Meta) (o : Options) : Except Diagnostic Options :=
  match item with
  | .list _ _ [type] _ => .ok { o with error := some ⟨type.raw, []⟩ }
  | .list _ _ [type, .path _ conv] _ => .ok { o with error := some ⟨type.raw, conv⟩ }
  | .list _ _ [_, conv] _ =>
      .error (conv.pos.diagnose (.malformedValue attr "error"
        "a function path as the second argument" conv.raw))
  | _ =>
      .error (item.pos.diagnose (.malformedValue attr "error"
        "error(<Type>) or error(<Type>, <conversion fn>)" item.raw))

def isTypeLike : Meta → Bool
  | .lit .. | .nameValue .. => false
  | _ => true

/-- Reads `types(A, B)`. -/
def setTypes (attr : Text) (item : Meta) (o : Options) : Except Diagnostic Options :=
  match item with
  | .list _ _ (first :: rest) _ =>
      match (first :: rest).find? fun m => !isTypeLike m with
      | some m => .error (m.pos.diagnose (.malformedValue attr "types" "a type" m.raw))
      | none => .ok { o with types := o.types ++ (first :: rest).map (·.raw) }
  | _ =>
      .error (item.pos.diagnose
        (.malformedValue attr "types" "types(<Type>, ...)" item.raw))

/-- Reads a format string, or a literal behind the key `format`. -/
def setFormat (item : Meta) (o : Options) : Except HelperFault Options :=
  match item with
  | .lit _ v | .nameValue _ _ v _ =>
      .ok { o with format := some ⟨item.raw, v.value, [], item.pos⟩ }
  | _ => .error .noFormatText

/-- Sets what an accepted key says. A key without a meaning of its own is
accepted and sets nothing. -/
def setKey (attr key : Text) (item : Meta) (o : Options) : Except HelperFault Options :=
  match setFlag? key with
  | some set =>
      if isBareKey item then .ok (set o)
      else .error (.diagnostic (item.pos.diagnose
        (.malformedValue attr key "a bare key" item.raw)))
  | none =>
      if key == "rename_all" then (setRenameAll attr item o).mapError .diagnostic
      else if key == "error" then (setError attr item o).mapError .diagnostic
      else if key == "types" then (setTypes attr item o).mapError .diagnostic
      else if key == "format" then setFormat item o
      else .ok o

/-- What is being read: the attribute's name, its level and the accepted keys. -/
structure Grammar where
  attr : Text
  level : Level
  params : Params

/-- The options so far, and the keys that were written with their places. -/
structure Reading where
  options : Options
  seen : List (Text × Position)

namespace Reading

def at? (r : Reading) (key : Text) : Option Position :=
  (r.seen.find? fun (k, _) => k == key).map (·.2)

/-- How a key was spelled: `skip` is another name of `ignore`. -/
def spelled (r : Reading) (key : Text) : Text :=
  if key == "ignore" && (r.at? "skip").isSome then "skip" else key

def exclusive : List (Text × Text) :=
  [("ignore", "forward"), ("ignore", "owned"), ("ignore", "ref"), ("ignore", "ref_mut"),
    ("ignore", "format"), ("source", "not(source)"), ("backtrace", "not(backtrace)")]

/-- The first pair of keys that exclude each other and were both written. -/
def conflict? (attr : Text) (r : Reading) : Option Diagnostic :=
  exclusive.findSome? fun (first, second) =>
    match r.at? first, r.at? second with
    | some _, some pos =>
        some (pos.diagnose (.conflictingKeys attr (r.spelled first) second))
    | _, _ => none

def item (g : Grammar) (r : Reading) (m : Meta) : Except HelperFault Reading := do
  let key := keyOf m
  if !g.params.all.contains key then
    throw (.diagnostic (m.pos.diagnose (.unknownKey g.attr key (g.params.on g.level)
      (Similar.find key g.params.all {}))))
  if !(g.params.on g.level).contains key then
    throw (.diagnostic (m.pos.diagnose
      (.wrongLevel g.attr key g.level.name (g.params.levelsFor key))))
  let canonical : Text := if key == "skip" then "ignore" else key
  if (r.at? canonical).isSome then
    throw (.diagnostic (m.pos.diagnose (.conflictingKeys g.attr (r.spelled canonical) key)))
  let seen := r.seen ++ [(canonical, m.pos)] ++ if key == "skip" then [(key, m.pos)] else []
  return ⟨← setKey g.attr key m r.options, seen⟩

/-- Reads arguments from left to right until one is a format string, which must be
the first of all: whatever is behind it are its arguments. -/
def items (g : Grammar) (raw : Text) :
    Reading → Bool → List Meta → Except HelperFault Reading
  | r, _, [] => .ok r
  | r, isFirst, m :: rest => do
      let r ← r.item g m
      match r.options.format with
      | none => items g raw r false rest
      | some format =>
          if isFirst then
            let args := rest.map fun arg => arg.raw.trim
            return { r with
              options := { r.options with format := some { format with args := args } } }
          else
            throw (.diagnostic (m.pos.diagnose (.malformedValue g.attr "format"
              "the format string as the first argument" raw)))

end Reading

/-- The options that the helper attribute on an item asks for; an item without the
attribute asks for nothing. -/
def ofAttributes (attrs : List Attribute) (names : List Text) (level : Level)
    (params : Params) : Except HelperFault Options :=
  match Attribute.named attrs names with
  | [] => .ok {}
  | _ :: second :: _ =>
      .error (.diagnostic (second.pos.diagnose (.duplicateAttribute second.path)))
  | [a] =>
      let start : Options := { present := true, pos := a.pos }
      match a.arg with
      | .path .. => .ok { start with bare := true }
      | .list _ _ [] _ => .ok { start with bare := true }
      | .list _ _ args _ => do
          let r ← Reading.items ⟨a.path, level, params⟩ a.raw ⟨start, []⟩ true args
          match r.conflict? a.path with
          | some d => throw (.diagnostic d)
          | none => return r.options
      | _ =>
          .error (.diagnostic (a.pos.diagnose (.malformedValue a.path a.path
            (Text.concat ["#[", a.path, "] or #[", a.path, "(...)]"]) a.raw)))

end Options

end Deriver
