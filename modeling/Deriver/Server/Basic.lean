import Deriver.Build.Run
import Deriver.Editor.Session
import Deriver.Server.Params

/-!
# Answers as JSON

How the language server protocol writes positions, diagnostics, symbols and
completions. Empty texts are left out.
-/

namespace Deriver.Server

def severityNumber : Severity → Nat
  | .warning => 2
  | .info => 3
  | .error | .other _ => 1

def symbolNumber : SymbolKind → Nat
  | .struct | .union => 23
  | .enum => 10
  | .field => 8
  | .variant => 22
  | .derive => 11

def completionNumber : CompletionKind → Nat
  | .derive => 8
  | .attr => 14
  | .key => 10
  | .value => 12
  | .snippet => 15

def position (p : EditorPosition) : Json :=
  .obj [Json.field "line" p.line, Json.field "character" p.character]

def range (r : EditorRange) : Json :=
  .obj [Json.field "start" (position r.start), Json.field "end" (position r.stop)]

def place (p : EditorPlace) : Json :=
  .obj [Json.field "uri" p.uri, Json.field "range" (range p.range)]

def markdown (t : Text) : Json := .obj [Json.field "kind" "markdown", Json.field "value" t]

def diagnostic (d : EditorDiagnostic) : Json :=
  .obj [Json.field "range" (range d.range),
    Json.field "severity" (severityNumber d.severity),
    Json.field "code" d.code, Json.field "source" diagnosticSource,
    Json.field "message" d.message]

def hover (h : Hover) : Json :=
  .obj [Json.field "contents" (markdown h.contents), Json.field "range" (range h.range)]

def isSnippet (t : Text) : Bool := t.has "$0" || t.has "$\x7b"

def completion (c : Completion) : Json :=
  .obj (List.flatten [
    Diagnostic.textField "detail" c.detail,
    if c.doc.isEmpty then [] else [Json.field "documentation" (markdown c.doc)],
    Diagnostic.textField "insertText" c.insert,
    [Json.field "insertTextFormat" (if isSnippet c.insert then (2 : Nat) else (1 : Nat)),
      Json.field "kind" (completionNumber c.kind), Json.field "label" c.label],
    Diagnostic.textField "sortText" c.sortKey])

def documentSymbol (s : Symbol) : Json :=
  .obj (List.flatten [
    [Json.field "name" s.name], Diagnostic.textField "detail" s.detail,
    [Json.field "kind" (symbolNumber s.kind), Json.field "range" (range s.range),
      Json.field "selectionRange" (range s.range)]])

def workspaceSymbol (s : IndexedSymbol) : Json :=
  .obj ([Json.field "name" s.symbol.name, Json.field "kind" (symbolNumber s.symbol.kind),
    Json.field "location" (place s.place)]
    ++ Diagnostic.textField "containerName" s.symbol.container)

def commands : List Text := ["derivekit.showExpansion", "derivekit.expandWorkspace"]

def capabilities : Json :=
  .obj [
    Json.field "textDocumentSync" (.obj [Json.field "openClose" true,
      Json.field "change" (1 : Nat), Json.field "save" (.obj [])]),
    Json.field "completionProvider" (.obj [
      Json.field "triggerCharacters" (.texts ["(", ",", "[", "\""])]),
    Json.field "hoverProvider" true,
    Json.field "definitionProvider" (.obj []),
    Json.field "referencesProvider" true,
    Json.field "documentSymbolProvider" true,
    Json.field "workspaceSymbolProvider" true,
    Json.field "executeCommandProvider" (.obj [Json.field "commands" (.texts commands)])]

def greeting : Json :=
  .obj [Json.field "capabilities" capabilities,
    Json.field "serverInfo" (.obj [Json.field "name" "derivekit-lsp",
      Json.field "version" "0.1.0"])]

end Deriver.Server

/-!
# The language server

A server answers requests one after another. An answer is a result or a failure,
and before it the server may send notifications. Opening, changing or saving a
document makes it publish the diagnostics of that document.
-/

namespace Deriver

/-- A language server. -/
structure LanguageServer where
  session : Session
  /-- The directory that the editor works in; empty if it has not said. -/
  root : Text := []
  /-- The names of directories that are left out when everything is expanded. -/
  ignored : List Text := defaultIgnored
  state : BuildState

/-- Why a request failed. -/
inductive RequestFault where
  | unknownMethod
  /-- The parameters cannot be read; the name is what they are called. -/
  | badParams (name : Text)
  /-- The request is not in order. -/
  | refused (message : Text)
  /-- The request could not be carried out. -/
  | failed (message : Text)
  deriving DecidableEq, Repr

namespace RequestFault

def code : RequestFault → Int
  | .unknownMethod => -32601
  | .badParams _ | .refused _ => -32602
  | .failed _ => -32603

def message : RequestFault → Text
  | .unknownMethod => "JSON-RPC method not found"
  | .badParams name => Text.concat ["Failed to parse ", name, " params"]
  | .refused message | .failed message => message

end RequestFault

/-- A message to the client that has no answer. -/
structure Notification where
  method : Text
  params : Json

/-- What the server sends on a request. -/
structure Response where
  notifications : List Notification := []
  answer : Except RequestFault Json

namespace LanguageServer

def new (options : BuildOptions) (ignored : List Text) (state : BuildState) :
    LanguageServer :=
  { session := { options := options }, ignored := ignored, state := state }

/-- The diagnostics of a document, for the client. -/
def published (s : LanguageServer) (uri : Text) : Notification where
  method := "textDocument/publishDiagnostics"
  params :=
    let ds := ((s.session.document? uri).map (·.diagnostics)).getD []
    .obj [Json.field "uri" uri, Json.field "diagnostics" (.arr (ds.map Server.diagnostic))]

/-- The answer of a server that publishes the diagnostics of a document. -/
def publishing (s : LanguageServer) (uri : Text) : LanguageServer × Response :=
  (s, { notifications := [s.published uri], answer := .ok .null })

/-- The session after a document was opened or changed; it stays as it is if that
failed. -/
def withSession (s : LanguageServer) (r : Except SessionFault (Document × Session)) :
    LanguageServer :=
  match r with
  | .ok (_, session) => { s with session := session }
  | .error _ => s

/-- The directory that the editor works in, by the first way it says so. -/
def rootOf (s : LanguageServer) (params : Json) : Text :=
  match Server.listAt params "workspaceFolders" with
  | folder :: _ => pathOfUri (Server.textAt folder "uri")
  | [] =>
      let uri := Server.textAt params "rootUri"
      let path := Server.textAt params "rootPath"
      if !uri.isEmpty then pathOfUri uri
      else if !path.isEmpty then path
      else s.root

def metricsJson (m : Metrics) : Json :=
  .obj [Json.field "total_files" m.total, Json.field "cache_hits" m.hits,
    Json.field "cache_misses" m.misses, Json.field "files_expanded" m.expanded,
    Json.field "files_written" m.written, Json.field "files_failed" m.failed,
    Json.field "declarations" m.decls, Json.field "duration" (0 : Nat)]

/-- Expands every source below the directory of the editor. -/
def expandAll (s : LanguageServer) : LanguageServer × Except RequestFault Json :=
  if s.root.isEmpty then (s, .error (.failed "no workspace root"))
  else
    match s.state.files.collect [s.root] s.session.options.suffix s.ignored with
    | .error e => (s, .error (.failed e))
    | .ok paths =>
        match s.session.options.run {} paths s.state with
        | (.ok report, state) =>
            ({ s with state := state }, .ok (metricsJson report.metrics))
        | (.error e, state) => ({ s with state := state }, .error (.failed e))

def execute (s : LanguageServer) (params : Json) :
    LanguageServer × Except RequestFault Json :=
  let command := Server.textAt params "command"
  if command == "derivekit.showExpansion" then
    let answer : Except RequestFault Json := match Server.listAt params "arguments" with
      | [.str uri] => (s.session.document uri).map (fun d => Json.str d.result.output)
          |>.mapError (.refused ·.message)
      | [_] => .error (.refused "Document URI must be a string")
      | _ => .error (.refused "Expected the document URI as the only argument")
    (s, answer)
  else if command == "derivekit.expandWorkspace" then s.expandAll
  else (s, .error (.refused ("Unknown command " ++ command.quoted)))

/-- An answer that only looks at the session; `what` is what could not be got. -/
def asking {α : Type} (s : LanguageServer) (what : Text) (encode : α → Json)
    (r : Except SessionFault α) : LanguageServer × Response :=
  (s, { answer := (r.map encode).mapError fun _ => .failed ("Failed to get " ++ what) })

def paramsName (method : Text) : Text :=
  if method == "textDocument/documentSymbol" then "document symbol"
  else if method == "workspace/symbol" then "workspace symbol"
  else FileName.base method

/-- The answer to a request whose parameters are in order. -/
def answer (s : LanguageServer) (method : Text) (params : Json) :
    LanguageServer × Response :=
  let uri := Server.uriOf params
  let here := Server.positionOf params
  match method.display with
  | "initialize" => ({ s with root := s.rootOf params }, { answer := .ok Server.greeting })
  | "textDocument/didOpen" =>
      let text := Server.textAt (Server.partAt params "textDocument") "text"
      (s.withSession (s.session.openDocument uri text)).publishing uri
  | "textDocument/didChange" =>
      match (Server.listAt params "contentChanges").getLast? with
      | none => (s, { answer := .ok .null })
      | some change =>
          let version := Server.numberAt (Server.partAt params "textDocument") "version"
          (s.withSession
            (s.session.update uri (Server.textAt change "text") version)).publishing uri
  | "textDocument/didClose" =>
      ({ s with session := s.session.close uri }, { answer := .ok .null })
  | "textDocument/didSave" => s.publishing uri
  | "textDocument/completion" =>
      s.asking "completions" (fun items => .obj [Json.field "isIncomplete" false,
        Json.field "items" (.arr (items.map Server.completion))])
          (s.session.complete uri here)
  | "textDocument/hover" =>
      s.asking "hover information" (fun h => Json.orNull (h.map Server.hover))
        (s.session.hover uri here)
  | "textDocument/definition" =>
      s.asking "definition" (fun p => Json.orNull (p.map Server.place))
        (s.session.definition uri here)
  | "textDocument/references" =>
      s.asking "references" (fun ps => .arr (ps.map Server.place))
        (s.session.references uri here)
  | "textDocument/documentSymbol" =>
      s.asking "document symbols" (fun d => .arr (d.symbols.map Server.documentSymbol))
        (s.session.document uri)
  | "workspace/symbol" =>
      (s, { answer := .ok (.arr
        ((s.session.index.search (Server.textAt params "query")).map
          Server.workspaceSymbol)) })
  | "workspace/executeCommand" =>
      let (s, r) := s.execute params
      (s, { answer := r })
  | _ => (s, { answer := .error .unknownMethod })

/-- The answer to a request. Parameters that are null are not there. -/
def handle (s : LanguageServer) (method : Text) (params : Option Json) :
    LanguageServer × Response :=
  if (["initialized", "shutdown", "exit"] : List Text).contains method then
    (s, { answer := .ok .null })
  else match Server.shapes.lookup method with
    | none => (s, { answer := .error .unknownMethod })
    | some shape =>
        match params.filter (!·.isNull) with
        | some j =>
            if shape.accepts j then s.answer method (shape.settle [j])
            else (s, { answer := .error (.badParams (paramsName method)) })
        | none => (s, { answer := .error (.badParams (paramsName method)) })

end LanguageServer

end Deriver
