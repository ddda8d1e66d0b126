import Frontend.Diagnostic.Basic
import Frontend.Token.Basic

/-!
# Scanning a source text

Letters are gathered into lexemes and pending operators; any other letter ends them and turns them
into tokens. `Scanner.step` says what one letter does, `Scanner.run` goes through a text.

* Blanks and control characters only end what was gathered.
* A newline and a semicolon both make a line break; line breaks in a row count once, and none stands
  at the beginning.
* An operator takes in the next operator character whenever the two spell an operator.
* After a whole number a point with a digit behind it belongs to the number. A minus with a digit
  behind it belongs to the number when neither a lexeme nor an operator is pending.
* The first fault ends the scan.

The tokens of a text end with a line break and the end of input; an empty text has only the latter.
-/

namespace Frontend

/-- What can be wrong with a source text. -/
inductive ScanFault where
  | illegalChar (c : Char)
  | illegalEscape (c : Char)
  | illegalOperator (s : String)
  | invalidName (s : String)
  | unclosedQuote
  | unclosedComment
  deriving DecidableEq, Repr

/-- A fault, where it is, and what was read of its line so far. -/
structure ScanError where
  fault : ScanFault
  pos : Position
  scanned : Source
  deriving Repr, DecidableEq

namespace ScanError

/-- The code, the message and the number of marked columns of a fault. -/
def describe (e : ScanError) : String × Phrase × Int :=
  match e.fault with
  | .illegalChar c => (Code.illegalChar, .entry .illegalChar [.letter c], 1)
  | .illegalEscape c => (Code.illegalEscape, .entry .illegalEscape [.letter c], 2)
  | .illegalOperator s => (Code.illegalOperator, .entry .illegalOperator [.text s], s.utf8ByteSize)
  | .invalidName s => (Code.invalidName, .entry .invalidIdentifier [.text s], s.length)
  | .unclosedQuote => (Code.unclosedQuote, .entry .unclosedQuote [.text e.pos.text], 0)
  | .unclosedComment => (Code.unclosedComment, .entry .unclosedComment [.text e.pos.text], 0)

/-- The diagnostic for a fault in a text. -/
def diagnostic (src : Source) (e : ScanError) : Diagnostic :=
  let (code, message, columns) := e.describe
  let scanned := Text.trim e.scanned.shown
  let infos := if scanned.isEmpty then [] else [Phrase.entry .scannedSoFar [.text scanned]]
  (((Diagnostic.mkAt .lexical code e.pos message).withSource src).withInfo infos).withSpan columns

end ScanError

/-- What the scanner is inside of. -/
inductive ScanMode where
  | plain
  | lineComment
  | blockComment (opened : Position)
  | quoted (quote : Char) (opened : Position)
  deriving DecidableEq, Repr

/-- The state of a scan. Lists that grow at the end are kept in reverse. -/
structure Scanner where
  /-- Where the next letter stands. -/
  place : Position
  mode : ScanMode := .plain
  /-- The letters of the current line, last first. -/
  lineSoFar : List Letter := []
  /-- The characters gathered for a lexeme or a string, last first. -/
  gathered : List Char := []
  lexemePos : Position := {}
  /-- The operator that the next character may still extend; empty when there is none. -/
  sign : String := ""
  signPos : Position := {}
  /-- The tokens made so far, last first. -/
  made : List Token := []
  deriving Repr

namespace Scanner

/-- The scanner before the first letter of a file. -/
def start (file : String) : Scanner := { place := { file, line := 1, column := 1, offset := 0 } }

/-- A fault at a position, with what was read of the current line. -/
def fail (s : Scanner) (fault : ScanFault) (pos : Position) : ScanError :=
  ⟨fault, pos, s.lineSoFar.reverse⟩

/-- Moves past a letter. -/
def advance (s : Scanner) (l : Letter) : Scanner :=
  let offset := s.place.offset + l.width
  if l.is '\n' then
    { s with place := { s.place with line := s.place.line + 1, column := 1, offset }, lineSoFar := [] }
  else
    { s with
      place := { s.place with column := s.place.column + 1, offset }
      lineSoFar := l :: s.lineSoFar }

def push (s : Scanner) (t : Token) : Scanner := { s with made := t :: s.made }

/-- Adds a line break, unless there is no token yet or the last one is a line break already. -/
def breakLine (s : Scanner) (pos : Position) : Scanner :=
  match s.made with
  | [] => s
  | t :: _ => if t.kind == .newline then s else s.push (.newline pos)

def lexeme (s : Scanner) : String := String.ofList s.gathered.reverse

/-- Turns the gathered lexeme, if any, into a token. -/
def flushLexeme (s : Scanner) : Except ScanError Scanner :=
  if s.gathered.isEmpty then .ok s
  else
    let t := Token.ofText s.lexeme s.lexemePos
    if t.kind == .illegal then .error (s.fail (.invalidName s.lexeme) s.lexemePos)
    else .ok { s with gathered := [], made := t :: s.made }

/-- Turns the pending operator, if any, into a token. -/
def flushSign (s : Scanner) : Except ScanError Scanner :=
  if s.sign.isEmpty then .ok s
  else if (Operator.ofText? s.sign).isNone then
    .error (s.fail (.illegalOperator s.sign) s.signPos)
  else .ok { s with sign := "", made := Token.ofText s.sign s.signPos :: s.made }

/-- Ends whatever is pending. -/
def flush (s : Scanner) : Except ScanError Scanner := do (← s.flushLexeme).flushSign

/-- Takes in an operator character. -/
def pushSign (s : Scanner) (c : Char) : Except ScanError Scanner :=
  let pos := s.place
  if s.sign.isEmpty then .ok { s with sign := c.toString, signPos := pos }
  else
    let longer := s.sign ++ c.toString
    if (Operator.ofText? longer).isSome then .ok { s with sign := longer }
    else do
      let s ← s.flushSign
      .ok { s with sign := c.toString, signPos := pos }

/-- Takes in a character of a lexeme. -/
def gather (s : Scanner) (c : Char) : Scanner :=
  if s.gathered.isEmpty then { s with gathered := [c], lexemePos := s.place }
  else { s with gathered := c :: s.gathered }

/-- Whether the gathered lexeme is a whole number. -/
def holdsInteger (s : Scanner) : Bool :=
  TokenKind.isNumber s.lexeme && !s.gathered.contains '.'

/-- Whether the next letter is a decimal digit. -/
def digitAhead : Option Letter → Bool
  | some (.char c) => Text.isDigit c
  | _ => false

/-- The character that an escape stands for. -/
def unescape : Char → Option Char
  | 'n' => some '\n'
  | 't' => some '\t'
  | 'r' => some '\r'
  | '0' => some '\x00'
  | '\\' => some '\\'
  | '\x22' => some '\x22'
  | '\x27' => some '\x27'
  | _ => none

/-- One letter inside a string. The flag says whether the letter behind it was used as well. -/
def stepQuoted (s : Scanner) (quote : Char) (opened : Position) (l : Letter)
    (next : Option Letter) : Except ScanError (Scanner × Bool) :=
  if l.is quote then
    let s := { s with gathered := [], mode := .plain, made := .ofString s.lexeme opened :: s.made }
    .ok (s.advance l, false)
  else if l.is '\\' then
    match next with
    | none => .ok (s.advance l, false)
    | some e =>
      match unescape e.shown with
      | none => .error (s.fail (.illegalEscape e.shown) s.place)
      | some c => .ok (({ s with gathered := c :: s.gathered }.advance l).advance e, true)
  else .ok ({ s with gathered := l.shown :: s.gathered }.advance l, false)

/-- One letter outside of strings and comments. -/
def stepPlain (s : Scanner) (l : Letter) (next : Option Letter) :
    Except ScanError (Scanner × Bool) := do
  let c := l.shown
  let here := s.place
  if c == '/' && next == some (.char '/') then
    let s ← s.flush
    return ({ s with mode := .lineComment }.advance l, false)
  else if c == '/' && next == some (.char '*') then
    let s ← s.flush
    return (({ s with mode := .blockComment here }.advance l).advance (.char '*'), true)
  else if c == '\x22' || c == '\x27' then
    let s ← s.flush
    return ({ s with mode := .quoted c here }.advance l, false)
  else if c == '\n' || c == ';' then
    let s ← s.flush
    return ((s.breakLine here).advance l, false)
  else if c == ' ' || (c.toNat < 0x20 && c.toNat ≠ 0) then
    let s ← s.flush
    return (s.advance l, false)
  else if (TokenKind.ofDelimiter? c.toString).isSome then
    let s ← s.flush
    return ((s.push (.ofText c.toString here)).advance l, false)
  else if c == '.' && s.holdsInteger && digitAhead next then
    return ((s.gather c).advance l, false)
  else if c == '-' && s.gathered.isEmpty && s.sign.isEmpty && digitAhead next then
    return ((s.gather c).advance l, false)
  else if isOperatorChar c then
    let s ← s.flushLexeme
    let s ← s.pushSign c
    return (s.advance l, false)
  else if TokenKind.isNameChar c then
    let s ← s.flushSign
    return ((s.gather c).advance l, false)
  else
    throw (s.fail (.illegalChar c) here)

/-- One letter, with the letter behind it. The flag says whether that one was used as well. -/
def step (s : Scanner) (l : Letter) (next : Option Letter) : Except ScanError (Scanner × Bool) :=
  match s.mode with
  | .lineComment =>
    if l.is '\n' then
      .ok (({ s with mode := .plain }.breakLine s.place).advance l, false)
    else .ok (s.advance l, false)
  | .blockComment _ =>
    if l.is '*' && next == some (.char '/') then
      .ok (({ s with mode := .plain }.advance l).advance (.char '/'), true)
    else .ok (s.advance l, false)
  | .quoted quote opened => s.stepQuoted quote opened l next
  | .plain => s.stepPlain l next

/-- The end of the text: nothing may be left open. -/
def finish (s : Scanner) : Except ScanError (List Token) :=
  match s.mode with
  | .quoted _ opened => .error (s.fail .unclosedQuote opened)
  | .blockComment opened => .error (s.fail .unclosedComment opened)
  | _ => do
    let s ← s.flush
    let s := s.breakLine s.place
    return (s.push (.eof s.place)).made.reverse

/-- Goes through the letters of a text. -/
def run : Scanner → Source → Except ScanError (List Token)
  | s, [] => s.finish
  | s, l :: rest =>
    match s.step l rest.head? with
    | .error e => .error e
    | .ok (s, false) => run s rest
    | .ok (s, true) =>
      match rest with
      | [] => run s []
      | _ :: more => run s more

end Scanner

def Source.tokens (src : Source) (file : String) : Except ScanError (List Token) :=
  (Scanner.start file).run src

/-- The tokens of a source text, a fault being told as a diagnostic. -/
def Source.scan (src : Source) (file : String) : Except Diagnostic (List Token) :=
  (src.tokens file).mapError (·.diagnostic src)

end Frontend
