import Frontend.Json.Read
import Frontend.Server.Capabilities
import Frontend.Server.Document
import Frontend.Server.Path

/-!
# Messages

How requests and notifications are read, and how answers are written.
-/

namespace Frontend

/-- What a client asks for or tells. -/
structure ClientMessage where
  /-- The mark of a request, which its answer repeats; notifications have none. -/
  id : Option Json := none
  method : String := ""
  /-- The parameters, if there are any. -/
  params : Option Json := none
  deriving Inhabited

namespace ClientMessage

def shape : Shape := .record [("jsonrpc", .text), ("method", .text)]

def ofJson? (j : Json) : Option ClientMessage :=
  let layers : Layers := [j]
  if shape.admits j then
    some {
      id := (layers.field "id").getLast?
      method := (layers.field "method").text
      params := (layers.field "params").getLast? }
  else none

def ofBytes? (body : Bytes) : Option ClientMessage :=
  (Json.read? (Source.ofBytes body).shown).bind ofJson?

end ClientMessage

/-- Parameters that a message may come with: their shape, and what they say. -/
structure Params (α : Type) where
  shape : Shape
  extract : Layers → α

namespace Params

/-- What parameters say, if they have the right shape. -/
def read? (p : Params α) (j : Json) : Option α :=
  if p.shape.admits j then some (p.extract [j]) else none

/-- A mark of progress: a number or a text. -/
def token : Shape := .leaf fun j => j.str?.isSome || Shape.int32.admits j

def place : Shape := .record [("line", .nat32), ("character", .nat32)]

def document : Shape := .record [("uri", .text)]

/-- The address of the document that parameters are about. -/
def uri (layers : Layers) : String := ((layers.field "textDocument").field "uri").text

/-- The version of the document that parameters are about. -/
def version (layers : Layers) : Int := ((layers.field "textDocument").field "version").int

def content (layers : Layers) : Bytes := .ofText (layers.field "text").text

/-- A place in a document. -/
def position (layers : Layers) : TextPosition where
  line := (layers.field "line").nat
  character := (layers.field "character").nat

/-- A part of a document. -/
def range (layers : Layers) : TextRange where
  start := position (layers.field "start")
  finish := position (layers.field "end")

def change (layers : Layers) : TextChange where
  range := range (layers.field "range")
  rangeLength := (layers.field "rangeLength").nat
  text := content layers

/-- The parameters of a first request: the address of the workspace. -/
def hello : Params String where
  shape := .record [
    ("workDoneToken", token),
    ("processId", .int32),
    ("clientInfo", .record [("name", .text), ("version", .text)]),
    ("locale", .text),
    ("rootPath", .text),
    ("rootUri", .text),
    ("initializationOptions", .any),
    ("capabilities", Capabilities.shape),
    ("trace", .text),
    ("workspaceFolders", .list (.record [("uri", .text), ("name", .text)]))]
  extract layers := (layers.field "rootUri").text

/-- The document that is opened: its address, text and version. -/
def opened : Params (String × Bytes × Int) where
  shape := .record [("textDocument", .record [
    ("uri", .text), ("languageId", .text), ("version", .int32), ("text", .text)])]
  extract layers := (uri layers, content (layers.field "textDocument"), version layers)

/-- The document that is changed: its address, its changes and its new version. -/
def changed : Params (String × List TextChange × Int) where
  shape := .record [
    ("textDocument", .record [("uri", .text), ("version", .int32)]),
    ("contentChanges", .list (.record [
      ("range", .record [("start", place), ("end", place)]),
      ("rangeLength", .nat32),
      ("text", .text)]))]
  extract layers :=
    (uri layers, (layers.field "contentChanges").items.map change, version layers)

/-- The document that is saved: its address and its text, which may be empty. -/
def saved : Params (String × Bytes) where
  shape := .record [("text", .text), ("textDocument", document)]
  extract layers := (uri layers, content layers)

def closed : Params String where
  shape := .record [("textDocument", document)]
  extract := uri

/-- The document whose outline is asked for. -/
def outline : Params String where
  shape := .record [
    ("workDoneToken", token), ("partialResultToken", token), ("textDocument", document)]
  extract := uri

/-- The document and the place where a completion is asked for. -/
def completion : Params (String × TextPosition) where
  shape := .record [
    ("textDocument", document),
    ("position", place),
    ("workDoneToken", token),
    ("partialResultToken", token),
    ("context", .record [("triggerCharacter", .text), ("triggerKind", .double)])]
  extract layers := (uri layers, position (layers.field "position"))

end Params

namespace ServerMessage

def position (p : TextPosition) : Json :=
  .obj [("line", .int p.line), ("character", .int p.character)]

def range (r : TextRange) : Json :=
  .obj [("start", position r.start), ("end", position r.finish)]

/-- A text that is left out when it is empty. -/
def unlessEmpty (name s : String) : List (String × Json) :=
  if s.isEmpty then [] else [(name, .str s)]

/-- An answer to a request. -/
def result (id : Option Json) (value : Json) : Json :=
  .obj [("jsonrpc", .str "2.0"), ("id", id.getD .null), ("result", value)]

/-- An answer to a request that went wrong. -/
def error (id : Option Json) (code : Int) (message : String) : Json :=
  .obj [("jsonrpc", .str "2.0"), ("id", id.getD .null),
    ("error", .obj [("code", .int code), ("message", .str message)])]

/-- The answer to parameters that cannot be read. -/
def unreadable (id : Option Json) : Json := error id (-32700) "Parse error"

/-- The answer to a request that is not known. -/
def unknown (id : Option Json) (method : String) : Json :=
  error id (-32601) ("Method not found: " ++ method)

def notification (method : String) (params : Json) : Json :=
  .obj [("jsonrpc", .str "2.0"), ("method", .str method), ("params", params)]

/-- The diagnostics of a document; a version of zero is left out. -/
def publish (uri : String) (version : Int) (diagnostics : List Json) : Json :=
  let version := version % 4294967296
  notification "textDocument/publishDiagnostics" (.obj ([("uri", .str uri)] ++
    (if version = 0 then [] else [("version", .int version)]) ++
    [("diagnostics", .arr diagnostics)]))

/-- How bad a diagnostic is, as a number. -/
def severity : Level → Nat
  | .warning => 2
  | .note => 3
  | .help => 4
  | _ => 1

/-- A diagnostic of a document. One that points into another file is put on the first line, with its
own place in front of its message. -/
def diagnostic (lang : Language) (doc : Document) (d : Diagnostic) : Json :=
  let foreign := !d.file.isEmpty && d.file != doc.path
  let text := d.message.render lang
  let message := if foreign then
      d.file ++ ":" ++ Text.ofInt d.line ++ ":" ++ Text.ofInt d.column ++ ": " ++ text
    else text
  let line := if foreign then 1 else max 1 d.line
  let column := if foreign then 1 else max 1 d.column
  let finish := if foreign then 0 else d.endColumn
  let finish := if finish ≤ column then
      column + Document.wordLength (doc.line (line - 1).toNat) (column - 1).toNat
    else finish
  let place := fun (c : Int) => ({ line := (line - 1).toNat, character := (c - 1).toNat } : TextPosition)
  .obj ([("range", range { start := place column, finish := place finish }),
    ("severity", .int (severity d.level)), ("code", .str d.code), ("source", .str "kite"),
    ("message", .str (Text.joinWith "\n" (message :: d.infos.map (·.render lang))))])

def completion (c : Completion) : Json :=
  .obj ([("label", .str c.label), ("kind", .int c.kind.number)] ++ unlessEmpty "detail" c.detail)

mutual
def outlineItem : OutlineItem → Json
  | .mk name detail kind r selection children =>
    .obj ([("name", .str name)] ++ unlessEmpty "detail" detail ++ [("kind", .int kind.number),
      ("range", range r), ("selectionRange", range selection)] ++
      if children.isEmpty then [] else [("children", .arr (outlineItems children))])

def outlineItems : List OutlineItem → List Json
  | [] => []
  | i :: is => outlineItem i :: outlineItems is
end

def capabilities (version : String) : Json := .obj [
  ("capabilities", .obj [
    ("textDocumentSync", .obj [("openClose", .bool true), ("change", .int 2),
      ("save", .obj [("includeText", .bool true)])]),
    ("completionProvider", .obj [("resolveProvider", .bool false)]),
    ("documentSymbolProvider", .bool true)]),
  ("serverInfo", .obj [("name", .str "kite-ls"), ("version", .str version)])]

end ServerMessage

end Frontend
