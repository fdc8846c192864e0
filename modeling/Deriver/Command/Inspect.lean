import Deriver.Command.Basic
import Deriver.Console.Table
import Deriver.Derive.Catalogue
import Deriver.Diagnostic.Basic
import Deriver.Json.Render
import Deriver.Parse.File
import Deriver.Yaml.Basic

/-!
# Commands that show something

The version, the catalogue of derives, the support crate, and how a file is read
and what takes part in its derives. None of them changes a file, but for the
support crate, which can be written to one.
-/

namespace Deriver

namespace Command

def sayJson (j : Json) : Command Unit := say (j.indented ++ "\n")

/-! ## version -/

def version (h : Host) (i : Invocation) : Command Unit :=
  say (Table.keyValues (Project.colorOf h i)
    [("derivekit version", toolVersion), ("Git commit", "unknown"),
      ("Build date", "unknown"),
     ("Go version", h.toolchain)])

/-! ## list -/

/-- The levels of an item's keys, in the order in which they are listed. -/
def keyLevels (p : Params) : List (String × List Text) :=
  [("struct", p.struct), ("enum", p.enum), ("variant", p.variant), ("field", p.field)]

def describe (d : Derive) : Yaml :=
  let keys := (keyLevels d.spec.params).flatMap fun (level, ks) => Yaml.textsEntry level ks
  .map (List.flatten [Yaml.entry "name" (.str d.name), Yaml.textEntry "trait" d.spec.path,
    Yaml.textEntry "method" d.spec.method, Yaml.entry "family" (.str d.family),
    Yaml.textsEntry "attributes" d.spec.attrs,
    if keys.isEmpty then [] else Yaml.entry "keys" (.map keys)])

def keySummary (p : Params) : Text :=
  let parts := (keyLevels p).filterMap fun (level, ks) =>
    if ks.isEmpty then none else some (Text.concat [level, ": ", Text.join ", " ks])
  if parts.isEmpty then "-" else Text.join "; " parts

def row (d : Derive) : List Text :=
  [d.name, if d.spec.path.isEmpty then "(inherent)" else d.spec.path, d.family,
   keySummary d.spec.params]

def chosen (p : Project) (i : Invocation) : Command (List Derive) :=
  match i.args with
  | [name] =>
      match Derive.find? name with
      | some d => pure [d]
      | none => do
          let similar := Similar.find name (Derive.catalogue.map (·.name)) {}
          warn ((Message.unknownDerive name similar).render p.color)
          fail ("unknown derive " ++ name.quoted)
  | _ => pure Derive.catalogue

def list (h : Host) (i : Invocation) : Command Unit := do
  let p ← Project.load h i
  let derives ← chosen p i
  let format := i.text "format" "table"
  let tree : Yaml := .list (derives.map describe)
  match format.fold.display with
  | "json" => sayJson tree.toJson
  | "yaml" => say (Yaml.write 2 tree)
  | "table" | "" =>
      say (Table.render p.color ["Derive", "Trait", "Family", "Attribute keys"]
        (derives.map row))
  | _ =>
      fail (Text.concat ["unknown format ", format.quoted, " (want table, yaml or json)"])

/-! ## runtime -/

/-- Prints the support crate, or writes it to a file. -/
def supportCrate (h : Host) (i : Invocation) : Command Unit := do
  let p ← Project.load h i
  let source := p.config.buildOptions.support.source
  let out := i.text "out" []
  if out.isEmpty then say source
  else
    let dir := FileName.dir out
    let made ← orFail ((← files).makeDirs dir |>.mapError fun e =>
      Text.concat ["failed to create ", dir, ": ", e.message])
    setFiles made
    let written ← orFail (made.write out source |>.mapError fun e =>
      Text.concat ["failed to write ", out, ": ", e.message])
    setFiles written
    say (Message.success p.color
      (Text.concat ["Wrote runtime crate ", p.config.supportCrate, " to ", out]))

/-! ## debug -/

/-- Reads and parses a file; syntax errors are reported and passed over. -/
def parseFile (path : Text) : Command SourceFile := do
  let source ← orFail ((← files).read path |>.mapError fun e =>
    Text.concat ["cannot read ", path, ": ", e.message])
  let parsed := parse source
  warn (Text.concat (parsed.errors.map fun e =>
    Text.concat [path, ":", .ofNat e.pos.line, ":", .ofNat e.pos.column, ": ",
      e.message, "\n"]))
  return parsed.file

def flagWords (o : Options) : List Text :=
  let word (set : Bool) (name : String) : List Text := if set then [(name : Text)] else []
  List.flatten [word o.bare "bare", word o.ignore "ignore", word o.forward "forward",
    word o.owned "owned", word o.ref "ref", word o.refMut "ref_mut",
    word (o.source == .on) "source", word (o.source == .off) "not(source)",
    word (o.backtrace == .on) "backtrace", word (o.backtrace == .off) "not(backtrace)"]

/-- The options of an item, if it has any. -/
def optionsTree (o : Options) : Option Yaml :=
  if o.present then
    some (.map (List.flatten [Yaml.textsEntry "flags" (flagWords o),
      Yaml.textEntry "rename_all" ((o.renameAll.map (·.name)).getD []),
      Yaml.textsEntry "types" o.types,
      Yaml.someEntry "error" (o.error.map fun e =>
        .map (Yaml.entry "type" (.str e.type) ++ Yaml.textEntry "conv" e.conv)),
      Yaml.someEntry "format" (o.format.map fun f =>
        .map (Yaml.entry "lit" (.str f.lit) ++ Yaml.textsEntry "args" f.args))]))
  else none

def memberEntries (name : Text) (enabled forward skipped : Bool) (o : Options) :
    List (Text × Yaml) :=
  List.flatten [Yaml.entry "name" (.str name), Yaml.entry "enabled" (.bool enabled),
    Yaml.flagEntry "forward" forward, Yaml.flagEntry "skipped" skipped,
    Yaml.someEntry "options" (optionsTree o)]

def fieldTree (f : FieldView) : Yaml :=
  .map (memberEntries f.field.member f.enabled f.forward f.skipped f.options)

def accessorWords (a : AccessorSet) : List Text :=
  let word (set : Bool) (name : String) : List Text := if set then [(name : Text)] else []
  List.flatten [word a.owned "owned", word a.ref "ref", word a.refMut "ref_mut"]

def variantTree (v : VariantView) : Yaml :=
  .map (List.flatten [memberEntries v.name v.enabled v.forward v.skipped v.options,
    Yaml.textsEntry "accessors" (accessorWords v.accessors),
    Yaml.listEntry "fields" (v.fields.all.map fieldTree)])

/-- What takes part in one derive of a declaration. -/
def stateTree (decl : Decl) (d : Derive) : Yaml :=
  let start :=
    Yaml.entry "declaration" (.str decl.name) ++ Yaml.entry "derive" (.str d.name)
  match Selection.ofDecl decl d.spec with
  | .error e => .map (start ++ Yaml.textEntry "error" e.render)
  | .ok s =>
      let (fields, variants) := match s.shape with
        | .struct fs => (fs.all, [])
        | .enum vs => ([], vs)
      .map (List.flatten [start, Yaml.someEntry "container" (optionsTree s.container),
        Yaml.listEntry "fields" (fields.map fieldTree),
        Yaml.listEntry "variants" (variants.map variantTree)])

/-- What takes part in the derives of a file, or in one of them. -/
def stateTrees (file : SourceFile) (only : Text) : List Yaml :=
  file.decls.flatMap fun decl => decl.derives.filterMap fun r =>
    if !only.isEmpty && r.name != only then none
    else (Derive.find? r.name).map (stateTree decl)

/-- Shows what takes part in the derives of a file. -/
def state (h : Host) (i : Invocation) : Command Unit := do
  let _ ← Project.load h i
  let file ← parseFile (i.args.headD [])
  let tree : Yaml := .list (stateTrees file (i.text "derive" []))
  let format := i.text "format" "yaml"
  match format.fold.display with
  | "json" => sayJson tree.toJson
  | "yaml" | "" => say (Yaml.write 2 tree)
  | _ => fail (Text.concat ["unknown format ", format.quoted, " (want yaml or json)"])

def outline (i : Invocation) : Command Unit := do
  let file ← parseFile (i.args.headD [])
  say (Text.lines (file.decls.map fun d => Text.concat [d.data.kind.name, " ", d.name]))

end Command

end Deriver
