import Deriver.Editor.Position
import Deriver.Json.Basic
import Deriver.Number.Binary64

/-!
# Parameters of requests

The parameters of a request have to be of a certain shape: what is there has to be
of the right kind, what is not there is empty, and what is not known is ignored. A
field may be named in capitals or small letters. Of several fields of one name the
last counts, but records of one name are one record.
-/

namespace Deriver.Server

/-! ## Shapes -/

/-- The shape of a parameter. -/
inductive Shape where
  | any
  | text
  | flag
  /-- An integer from `least` up to but not including `bound`. -/
  | number (least bound : Int)
  /-- Any number that is a float. -/
  | real
  /-- What names a report of progress: a signed word of 32 bits, or a text. -/
  | token
  | list (item : Shape)
  | record (fields : List (Text × Shape))

def Shape.count : Shape := .number 0 (Nat.pow 2 32)

def Shape.word : Shape := .number (-(Nat.pow 2 31)) (Nat.pow 2 31)

def isWord (n : Int) : Bool := -(Nat.pow 2 31) ≤ n && n < Nat.pow 2 31

def smallName (t : Text) : Text :=
  .ofChars (t.chars.map fun c =>
    if c.toNat = 0x17F then 's' else if c.toNat = 0x212A then 'k' else c.toLower)

/-- The values of the fields of one name, but for those that are null. -/
def valuesOf (name : Text) (given : List (Text × Json)) : List Json :=
  let name := smallName name
  given.filterMap fun (key, value) =>
    if smallName key == name && !value.isNull then some value else none

mutual

/-- Whether a value is of a shape; null is of any. -/
def Shape.accepts : Shape → Json → Bool
  | .any, _ => true
  | _, .null => true
  | .text, .str _ => true
  | .flag, .bool _ => true
  | .number least bound, .int n => least ≤ n && n < bound
  | .real, .int n => (Decimal.parse (.ofInt n)).isOk
  | .real, .real t => (Decimal.parse t).isOk
  | .token, .str _ => true
  | .token, .int n => isWord n
  | .list item, .arr items => items.all item.accepts
  | .record fields, .obj given => Shape.acceptsFields fields given
  | _, _ => false

def Shape.acceptsFields : List (Text × Shape) → List (Text × Json) → Bool
  | [], _ => true
  | (name, shape) :: rest, given =>
      (valuesOf name given).all shape.accepts && Shape.acceptsFields rest given

end

def fieldsOf (values : List Json) : List (Text × Json) :=
  values.flatMap fun j => (j.fields?).getD []

mutual

/-- What the values of one name together are, if they are of a shape: with the fields that
the shape knows, by the names it gives them. -/
def Shape.settle : Shape → List Json → Json
  | .record fields, values => .obj (Shape.settleFields fields (fieldsOf values))
  | .list item, values =>
      match values.getLast? with
      | some (.arr items) => .arr (items.map fun j => item.settle [j])
      | _ => .null
  | _, values => values.getLastD .null

/-- The known fields of a record, as far as they are given. -/
def Shape.settleFields : List (Text × Shape) → List (Text × Json) → List (Text × Json)
  | [], _ => []
  | (name, shape) :: rest, given =>
      let values := valuesOf name given
      let settled := if values.isEmpty then [] else [(name, shape.settle values)]
      settled ++ Shape.settleFields rest given

end

/-! ## What clients can do -/

def Shape.flags (names : List Text) : Shape := .record (names.map fun name => (name, .flag))

/-- A record of flags, the first of which is whether something may be registered later. -/
def Shape.registration (names : List Text) : Shape :=
  .flags ("dynamicRegistration" :: names)

def Shape.valueSet (item : Shape) : Shape := .record [("valueSet", .list item)]

def Shape.flagsAnd (names : List Text) (fields : List (Text × Shape)) : Shape :=
  .record (names.map (fun name => (name, .flag)) ++ fields)

def Shape.properties : Shape := .record [("properties", .list .text)]

def Shape.workspaceAbilities : Shape :=
  .flagsAnd ["applyEdit", "workspaceFolders", "configuration"]
    [("workspaceEdit", .flagsAnd ["documentChanges", "normalizesLineEndings"]
        [("failureHandling", .text), ("resourceOperations", .list .text),
         ("changeAnnotationSupport", .flags ["groupsOnLabel"])]),
     ("didChangeConfiguration", .registration []),
     ("didChangeWatchedFiles", .registration []),
     ("symbol", .flagsAnd ["dynamicRegistration"]
        [("symbolKind", .valueSet .real), ("tagSupport", .valueSet .real)]),
     ("executeCommand", .registration []),
     ("semanticTokens", .flags ["refreshSupport"]),
     ("codeLens", .flags ["refreshSupport"]),
     ("fileOperations", .registration ["didCreate", "willCreate", "didRename", "willRename",
        "didDelete", "willDelete"])]

/-- What a client can do when it completes a word. -/
def Shape.completionAbilities : Shape :=
  .flagsAnd ["dynamicRegistration", "contextSupport"]
    [("completionItem", .flagsAnd ["snippetSupport", "commitCharactersSupport",
        "deprecatedSupport", "preselectSupport", "insertReplaceSupport"]
        [("documentationFormat", .list .text), ("tagSupport", .valueSet .real),
         ("resolveSupport", .properties), ("insertTextModeSupport", .valueSet .real)]),
     ("completionItemKind", .valueSet .real)]

def Shape.actionAbilities : Shape :=
  .flagsAnd ["dynamicRegistration", "isPreferredSupport", "disabledSupport", "dataSupport",
      "honorsChangeAnnotations"]
    [("codeActionLiteralSupport", .record [("codeActionKind", .valueSet .text)]),
     ("resolveSupport", .properties)]

def Shape.documentAbilities : Shape :=
  let linked : Shape := .registration ["linkSupport"]
  let plain : Shape := .registration []
  .record
    [("synchronization", .registration ["willSave", "willSaveWaitUntil", "didSave"]),
     ("completion", .completionAbilities),
     ("hover", .flagsAnd ["dynamicRegistration"] [("contentFormat", .list .text)]),
     ("signatureHelp", .flagsAnd ["dynamicRegistration", "contextSupport"]
        [("signatureInformation", .flagsAnd ["activeParameterSupport"]
            [("documentationFormat", .list .text),
             ("parameterInformation", .flags ["labelOffsetSupport"])])]),
     ("declaration", linked), ("definition", linked), ("typeDefinition", linked),
     ("implementation", linked), ("references", plain), ("documentHighlight", plain),
     ("documentSymbol", .flagsAnd ["dynamicRegistration",
       "hierarchicalDocumentSymbolSupport",
        "labelSupport"] [("symbolKind", .valueSet .real), ("tagSupport", .valueSet .real)]),
     ("codeAction", .actionAbilities), ("codeLens", plain),
     ("documentLink", .registration ["tooltipSupport"]), ("colorProvider", plain),
     ("formatting", plain), ("rangeFormatting", plain), ("onTypeFormatting", plain),
     ("publishDiagnostics", .flagsAnd ["relatedInformation", "versionSupport",
        "codeDescriptionSupport", "dataSupport"] [("tagSupport", .valueSet .real)]),
     ("rename", .flagsAnd ["dynamicRegistration", "prepareSupport",
       "honorsChangeAnnotations"] [("prepareSupportDefaultBehavior", .real)]),
     ("foldingRange", .flagsAnd ["dynamicRegistration", "lineFoldingOnly"]
        [("rangeLimit", .count)]),
     ("selectionRange", plain), ("callHierarchy", plain),
     ("semanticTokens", .flagsAnd ["dynamicRegistration", "overlappingTokenSupport",
        "multilineTokenSupport"]
        [("requests", .record [("range", .flag), ("full", .any)]),
          ("tokenTypes", .list .text),
         ("tokenModifiers", .list .text), ("formats", .list .text)]),
     ("linkedEditingRange", plain), ("moniker", plain)]

def Shape.abilities : Shape :=
  .record
    [("workspace", .workspaceAbilities), ("textDocument", .documentAbilities),
     ("window", .flagsAnd ["workDoneProgress"]
        [("showMessage",
          .record [("messageActionItem", .flags ["additionalPropertiesSupport"])]),
         ("showDocument", .flags ["support"])]),
     ("general", .record
        [("regularExpressions", .record [("engine", .text), ("version", .text)]),
         ("markdown", .record [("parser", .text), ("version", .text)])]),
     ("experimental", .any)]

/-! ## Requests -/

def Shape.position : Shape := .record [("line", .count), ("character", .count)]

def Shape.identifier : Shape := .record [("uri", .text)]

def Shape.working (fields : List (Text × Shape)) : Shape :=
  .record (("workDoneToken", .token) :: fields)

def Shape.partly (fields : List (Text × Shape)) : Shape :=
  .working (("partialResultToken", .token) :: fields)

def atPosition : List (Text × Shape) :=
  [("textDocument", .identifier), ("position", .position)]

/-- The parameters of each request that has any. -/
def shapes : List (Text × Shape) :=
  [("initialize", .working [("processId", .word), ("rootPath", .text), ("rootUri", .text),
      ("locale", .text), ("trace", .text), ("initializationOptions", .any),
      ("clientInfo", .record [("name", .text), ("version", .text)]),
      ("capabilities", .abilities),
      ("workspaceFolders", .list (.record [("uri", .text), ("name", .text)]))]),
   ("textDocument/didOpen", .record [("textDocument", .record [("uri", .text),
      ("languageId", .text), ("version", .word), ("text", .text)])]),
   ("textDocument/didChange", .record [
      ("textDocument", .record [("uri", .text), ("version", .word)]),
      ("contentChanges", .list (.record [("text", .text), ("rangeLength", .count),
        ("range", .record [("start", .position), ("end", .position)])]))]),
   ("textDocument/didClose", .record [("textDocument", .identifier)]),
   ("textDocument/didSave", .record [("textDocument", .identifier), ("text", .text)]),
   ("textDocument/completion", .partly (("context",
      .record [("triggerCharacter", .text), ("triggerKind", .real)]) :: atPosition)),
   ("textDocument/hover", .working atPosition),
   ("textDocument/definition", .partly atPosition),
   ("textDocument/references", .partly (("context",
      .record [("includeDeclaration", .flag)]) :: atPosition)),
   ("textDocument/documentSymbol", .partly [("textDocument", .identifier)]),
   ("workspace/symbol", .partly [("query", .text)]),
   ("workspace/executeCommand", .working [("command", .text), ("arguments", .list .any)])]

/-- A text in a parameter; empty if it is not there. -/
def textAt (j : Json) (name : Text) : Text := ((j.get? name).bind Json.text?).getD []

/-- A number in a parameter; zero if it is not there. -/
def numberAt (j : Json) (name : Text) : Int := ((j.get? name).bind Json.int?).getD 0

/-- A list in a parameter; empty if it is not there. -/
def listAt (j : Json) (name : Text) : List Json := ((j.get? name).bind Json.items?).getD []

def partAt (j : Json) (name : Text) : Json := (j.get? name).getD .null

def uriOf (j : Json) : Text := textAt (partAt j "textDocument") "uri"

def positionOf (j : Json) : EditorPosition :=
  let p := partAt j "position"
  ⟨(numberAt p "line").toNat, (numberAt p "character").toNat⟩

end Deriver.Server
