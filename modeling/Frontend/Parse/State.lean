import Frontend.Diagnostic.Basic
import Frontend.Tree.Print

/-!
# The state of a parse

A parse reads a list of tokens from the front. It never gives up: a grammar error is written down, and
reading goes on behind the faulty item. A rule is a function of the state that may come back without a
result; the state it leaves behind is kept in either case.
-/

namespace Frontend

/-- The sorts of grammar errors. -/
inductive GrammarFault where
  | general
  | unexpectedToken
  | noRule
  | unclosed
  deriving DecidableEq, Repr, Inhabited

def GrammarFault.code : GrammarFault → String
  | general => Code.grammar
  | unexpectedToken => Code.unexpectedToken
  | noRule => Code.noRule
  | unclosed => Code.unclosed

/-- A grammar error. -/
structure ParseError where
  fault : GrammarFault
  pos : Position
  length : Int
  message : Phrase
  deriving Repr, Inhabited

namespace ParseError

def text (lang : Language) (e : ParseError) : String := e.pos.text ++ ": " ++ e.message.render lang

/-- The diagnostic for a grammar error; an empty source text shows no line. -/
def diagnostic (src : Source) (e : ParseError) : Diagnostic :=
  let d := (Diagnostic.mkAt .grammar e.fault.code e.pos e.message).withSpan e.length
  if src.isEmpty then d else d.withSource src

end ParseError

/-- After this many errors a parse stops. -/
def maxParseErrors : Nat := 50

/-- How deep expressions may be nested. -/
def maxExpressionDepth : Nat := 200

/-- What a parse knows between two tokens. -/
structure ParseState where
  /-- The tokens still to be read, without the end of input. -/
  rest : List Token
  /-- The token at the end of input. -/
  last : Token
  /-- The errors so far, last first. -/
  errors : List ParseError := []
  /-- Set from an error until reading goes on behind the faulty item; further errors are dropped. -/
  panicking : Bool := false
  /-- Set when there were too many errors. -/
  stopped : Bool := false
  /-- How many brackets are open. -/
  depth : Nat := 0
  /-- Whether the items of a class body are being read. -/
  inClass : Bool := false

namespace ParseState

def next (s : ParseState) : Token := s.rest.headD s.last

/-- Whether all tokens are read. -/
def atEnd (s : ParseState) : Bool := s.rest.isEmpty

/-- What is left to read. A number that may be taken apart counts as its parts. -/
def weight (s : ParseState) : Nat := s.rest.foldl (fun n t => n + t.parts) 0

/-- The state in front of a list of tokens. Whatever stands behind an end of input is not read; a
missing end of input is put at the place of the last token. -/
def ofTokens (tokens : List Token) : ParseState :=
  { rest := tokens.takeWhile (·.kind != .eof)
    last := ((tokens.find? (·.kind == .eof)).getD
      (.eof ((tokens.getLast?.map (·.pos)).getD {}))) }

end ParseState

def Parse (α : Type) : Type := ParseState → Option α × ParseState

namespace Parse

/-- The rule that reads nothing. -/
def succeed (a : α) : Parse α := fun s => (some a, s)

/-- The rule without a result. -/
def fail : Parse α := fun s => (none, s)

/-- One rule after another. -/
def andThen (p : Parse α) (f : α → Parse β) : Parse β := fun s =>
  match p s with
  | (some a, s) => f a s
  | (none, s) => (none, s)

instance : Monad Parse where
  pure := succeed
  bind := andThen

/-- A question about the state. -/
def ask (f : ParseState → α) : Parse α := fun s => (some (f s), s)

def change (f : ParseState → ParseState) : Parse Unit := fun s => (some (), f s)

/-- The next token, which stays unread. -/
def peek : Parse Token := ask (·.next)

def peekKind : Parse TokenKind := ask (·.next.kind)

def check (k : TokenKind) : Parse Bool := ask (·.next.kind == k)

/-- Reads the next token; the end of input is never read. -/
def advance : Parse Token := fun s => (some s.next, { s with rest := s.rest.drop 1 })

/-- Reads the next token if it has a kind. -/
def accept (k : TokenKind) : Parse Bool := do
  if ← check k then
    let _ ← advance
    return true
  return false

/-- Reads line breaks. -/
def skipNewlines : Parse Unit :=
  change fun s => { s with rest := s.rest.dropWhile (·.kind == .newline) }

/-- The kind of the first token behind line breaks. -/
def kindPastNewlines : Parse TokenKind :=
  ask fun s => ((s.rest.dropWhile (·.kind == .newline)).headD s.last).kind

/-- Whether an item ends here: at a line break, a closing bracket or the end of input. -/
def atItemEnd : Parse Bool := do
  let k ← peekKind
  return k == .newline || k == .eof || k.isClosing

/-- Writes an error down, unless the parse is panicking or has stopped. A second error at the place of
the last one is dropped. -/
def reportAt (fault : GrammarFault) (pos : Position) (length : Int) (message : Phrase) :
    Parse Unit := change fun s =>
  if s.panicking || s.stopped then s
  else
    let s := { s with panicking := true }
    let repeated := match s.errors with
      | e :: _ => e.pos.line == pos.line && e.pos.column == pos.column
      | [] => false
    if repeated then s
    else
      let s := { s with errors := ⟨fault, pos, if length < 1 then 1 else length, message⟩ :: s.errors }
      if s.errors.length < maxParseErrors then s
      else
        { s with
          errors := ⟨.general, pos, 1, .entry .tooManyErrors []⟩ :: s.errors
          stopped := true }

/-- Writes down an error at a token. -/
def reportToken (fault : GrammarFault) (t : Token) (message : Phrase) : Parse Unit :=
  reportAt fault t.pos t.columns message

/-- Writes down that a token was not expected. -/
def reportUnexpected (t : Token) (expected : String) : Parse Unit :=
  reportToken .unexpectedToken t (.entry .unexpectedTokenType [.text t.describe, .text expected])

/-- Writes down an error at a node. -/
def reportNode (n : Node) (message : Phrase) : Parse Unit :=
  let start := n.pos
  let finish := n.finish
  let length := if finish.line = start.line ∧ start.column < finish.column
    then finish.column - start.column else 1
  reportAt .general start length message

/-- Writes an error down and gives no result. -/
def failToken (fault : GrammarFault) (t : Token) (message : Phrase) : Parse α := do
  reportToken fault t message
  fail

/-- Writes down an unexpected token and gives no result. -/
def failUnexpected (t : Token) (expected : String) : Parse α := do
  reportUnexpected t expected
  fail

/-- Writes down an error at a node and gives no result. -/
def failNode (n : Node) (message : Phrase) : Parse α := do
  reportNode n message
  fail

/-- The tokens from the next line break on the same level on, or from the given closing bracket on.
Other closing brackets on the same level are passed over. -/
def resumeAt (closer : Option Bracket) : Nat → List Token → List Token
  | _, [] => []
  | level, t :: rest =>
    match t.kind with
    | .opening _ => resumeAt closer (level + 1) rest
    | .closing b =>
      if level = 0 then
        if closer = some b then t :: rest else resumeAt closer 0 rest
      else resumeAt closer (level - 1) rest
    | .newline => if level = 0 then t :: rest else resumeAt closer level rest
    | _ => resumeAt closer level rest

/-- Goes on behind a faulty item. -/
def synchronize (closer : Option Bracket) : Parse Unit :=
  change fun s => { s with rest := resumeAt closer 0 s.rest }

/-- Ends the panic after an error. -/
def calm : Parse Unit := change fun s => { s with panicking := false }

/-- Runs a rule inside brackets, in a class body or not; both settings are put back afterwards. -/
def inBrackets (inClass : Bool) (p : Parse α) : Parse α := fun s =>
  let (r, t) := p { s with depth := s.depth + 1, inClass }
  (r, { t with depth := s.depth, inClass := s.inClass })

/-- What a step of a loop leads to. -/
inductive Progress (α β : Type) where
  /-- The loop goes on. -/
  | again (a : α)
  /-- The loop is over. -/
  | done (b : β)

/-- Repeats a step until it is done. Every step that goes on has read something; one that has not ends
the loop without a result. -/
def repeatWhile (step : α → Parse (Progress α β)) (a : α) (s : ParseState) : Option β × ParseState :=
  match step a s with
  | (some (.done b), t) => (some b, t)
  | (some (.again a), t) => if t.weight < s.weight then repeatWhile step a t else (none, t)
  | (none, t) => (none, t)
termination_by s.weight

end Parse

end Frontend
