import Frontend.Cache.Compile
import Frontend.Server.Message

/-!
# The language server

Keeps the documents that an editor has open, compiles them whenever they change, and answers requests
about them. The server reads frames from a stream until the client says goodbye or the stream ends.
-/

namespace Frontend

/-- A language server. -/
structure Server where
  world : World := {}
  lang : Language := .english
  builtins : Registry := .standard
  /-- The open documents by their address. -/
  documents : List (String × Document) := []

namespace Server

/-- The open document with an address. -/
def document? (s : Server) (uri : String) : Option Document := s.documents.lookup uri

def keep (s : Server) (d : Document) : Server :=
  let d := d.analyze s.world s.lang s.builtins
  { s with documents := (d.uri, d) :: s.documents.filter (·.1 != d.uri) }

/-- The diagnostics of an open document, to be published. -/
def published (s : Server) (uri : String) : List Json :=
  (s.document? uri).toList.map fun d =>
    ServerMessage.publish uri d.version (d.diagnostics.map (ServerMessage.diagnostic s.lang d))

/-- Takes in a change of an open document and publishes its diagnostics. -/
def revise (s : Server) (uri : String) (f : Document → Document) : Server × List Json :=
  let s := ((s.document? uri).map fun d => s.keep (f d)).getD s
  (s, s.published uri)

/-- Takes in a notification whose parameters can be read; others are passed over. -/
def noted (s : Server) (p : Params α) (params : Option Json)
    (f : α → Except String (Server × List Json)) : Except String (Server × List Json) :=
  ((params.bind p.read?).map f).getD (.ok (s, []))

/-- Answers a request whose parameters can be read. -/
def answered (s : Server) (m : ClientMessage) (p : Params α) (f : α → Except String Json) :
    Except String (Server × List Json) :=
  match m.params.bind p.read? with
  | none => .ok (s, [ServerMessage.unreadable m.id])
  | some a => do return (s, [ServerMessage.result m.id (← f a)])

/-- The path that an address stands for, or the words for what is wrong with it. -/
def pathOf (uri : String) : Except String String := (Address.path uri).mapError (·.message uri)

def outline (s : Server) (uri : String) : Json :=
  let program := (s.document? uri).bind (·.program)
  .arr (ServerMessage.outlineItems ((program.map fun p => OutlineItem.ofItems false p.body).getD []))

/-- What the word in front of a place can become. -/
def completions (s : Server) (uri : String) (p : TextPosition) : Json :=
  .arr (((s.document? uri).map fun d =>
    Completion.offers d.program s.builtins (d.wordBefore p)).getD [] |>.map ServerMessage.completion)

/-- Handles a message: the server afterwards and what it sends. An address that cannot be taken apart
ends the server. -/
def handle (s : Server) (m : ClientMessage) : Except String (Server × List Json) :=
  match m.method with
  | "initialize" =>
    s.answered m .hello fun root => do
      let _ ← pathOf root
      return ServerMessage.capabilities compilerVersion
  | "shutdown" => .ok (s, [ServerMessage.result m.id .null])
  | "textDocument/didOpen" =>
    s.noted .opened m.params fun (uri, content, version) => do
      let s := s.keep { uri, path := ← pathOf uri, content, version }
      return (s, s.published uri)
  | "textDocument/didChange" =>
    s.noted .changed m.params fun (uri, changes, version) =>
      .ok (s.revise uri fun d =>
        { d with content := changes.foldl TextEdit.apply d.content, version })
  | "textDocument/didClose" =>
    s.noted .closed m.params fun uri =>
      .ok ({ s with documents := s.documents.filter (·.1 != uri) }, [ServerMessage.publish uri 0 []])
  | "textDocument/didSave" =>
    s.noted .saved m.params fun (uri, content) =>
      .ok (if content.isEmpty then (s, s.published uri)
        else s.revise uri fun d => { d with content, version := d.version + 1 })
  | "textDocument/completion" =>
    s.answered m .completion fun (uri, p) => .ok (s.completions uri p)
  | "textDocument/documentSymbol" => s.answered m .outline fun uri => .ok (s.outline uri)
  | "initialized" | "exit" | "$/cancelRequest" | "$/setTrace" => .ok (s, [])
  | other => .ok (s, m.id.toList.map fun id => ServerMessage.unknown (some id) other)

/-- How a server ends. -/
inductive Outcome where
  /-- The client said goodbye, or the stream ended between messages. -/
  | done
  /-- The stream ended inside of a message. -/
  | truncated
  /-- A message was announced that there can be no room for, or named an address that cannot be taken
  apart. -/
  | abort (message : String)
  deriving DecidableEq, Repr

/-- Where a server stands after it has read everything that was there. -/
inductive Status where
  /-- It waits for more, with these bytes read in vain so far. -/
  | waiting (pending : Bytes)
  | ended (outcome : Outcome)
  deriving DecidableEq, Repr

/-- The words for a length that there can be no room for. -/
def noRoom : String := "runtime error: makeslice: len out of range"

/-- Handles all frames of a stream that are complete. -/
def drain : Nat → Server → Bytes → Server × List Json × Status
  | 0, s, bytes => (s, [], .waiting bytes)
  | fuel + 1, s, bytes =>
    match Frame.read bytes with
    | .starved _ => (s, [], .waiting bytes)
    | .abort => (s, [], .ended (.abort noRoom))
    | .faulty rest => drain fuel s rest
    | .message body rest =>
      match ClientMessage.ofBytes? body with
      | none => drain fuel s rest
      | some m =>
        match s.handle m with
        | .error message => (s, [], .ended (.abort message))
        | .ok (s, sent) =>
        if m.method == "exit" then (s, sent, .ended .done)
        else
          let (s, more, status) := drain fuel s rest
          (s, sent ++ more, status)

/-- Takes in more of a stream. Every frame takes at least one byte. -/
def feed (s : Server) (pending more : Bytes) : Server × List Json × Status :=
  let bytes := pending ++ more
  drain (bytes.length + 1) s bytes

/-- How a server ends when its stream ends after these bytes. -/
def finish (pending : Bytes) : Outcome :=
  match Frame.read pending with
  | .starved true => .truncated
  | .abort => .abort noRoom
  | _ => .done

/-- Takes in a stream piece by piece: what is sent after each piece that is read, and how it ends. -/
def serve : Server → Bytes → List Bytes → List (List Json) × Outcome
  | _, pending, [] => ([], finish pending)
  | s, pending, piece :: pieces =>
    match s.feed pending piece with
    | (_, sent, .ended outcome) => ([sent], outcome)
    | (s, sent, .waiting pending) =>
      let (more, outcome) := serve s pending pieces
      (sent :: more, outcome)

end Server

end Frontend
