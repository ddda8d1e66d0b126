import Frontend.Builtin.Basic
import Frontend.Failure
import Frontend.Import.Basic
import Frontend.Lowering.Operand
import Frontend.Symbol.Hierarchy

/-!
# The state of lowering

Lowering goes through a tree and writes code. It keeps a stack of operands, a stack of the functions
and classes it is inside of, and a stack of scope kinds that goes along with the scopes of the symbol
table. The first failure ends it; the state at that point is kept, because a session goes on with its
counters and symbols.
-/

namespace Frontend

/-- What is kept from one compiled unit to the next. -/
structure Session where
  symbols : SymbolTable := {}
  builtins : Registry := .standard
  imports : Imports := {}
  supply : Supply := {}
  deriving Inhabited

/-- The state of lowering. -/
structure Lowering where
  session : Session
  /-- The files that imports can reach. -/
  files : FileTree := {}
  out : CodeBuffer := {}
  /-- The operands, last first. -/
  operands : List Operand := []
  /-- The functions and classes around the present place, innermost first. -/
  processing : List SymbolId := []
  /-- The kinds of the open scopes, innermost first. -/
  scopes : List ScopeKind := [.global]
  /-- The file at hand and its text. -/
  file : String := ""
  source : Source := []
  /-- Functions and classes that were declared. -/
  declared : List SymbolId := []
  deriving Inhabited

/-- A step of lowering: it gives a result or a failure, and the state afterwards. -/
def Lower (α : Type) : Type := Lowering → Except Failure α × Lowering

namespace Lower

/-- The step that does nothing. -/
def succeed (a : α) : Lower α := fun s => (.ok a, s)

/-- One step after another. -/
def andThen (p : Lower α) (f : α → Lower β) : Lower β := fun s =>
  match p s with
  | (.ok a, s) => f a s
  | (.error e, s) => (.error e, s)

instance : Monad Lower where
  pure := succeed
  bind := andThen

def failWith (e : Failure) : Lower α := fun s => (.error e, s)

def fail (d : Diagnostic) : Lower α := failWith (.diagnostic d)

/-- A question about the state. -/
def ask (f : Lowering → α) : Lower α := fun s => (.ok (f s), s)

def change (f : Lowering → Lowering) : Lower Unit := fun s => (.ok (), f s)

/-- Takes over a result that may be a diagnostic. -/
def ofExcept : Except Diagnostic α → Lower α
  | .ok a => succeed a
  | .error d => fail d

/-- Fails if there is a diagnostic. -/
def refuse : Option Diagnostic → Lower Unit
  | some d => fail d
  | none => succeed ()

/-- Runs a step and then restores a part of the state, however the step ends. -/
def ensuring (restore : Lowering → Lowering) (p : Lower α) : Lower α := fun s =>
  let (r, s) := p s
  (r, restore s)

def table : Lower SymbolTable := ask (·.session.symbols)

def changeTable (f : SymbolTable → SymbolTable) : Lower Unit :=
  change fun s => { s with session := { s.session with symbols := f s.session.symbols } }

def symbol (id : SymbolId) : Lower Symbol := ask (·.session.symbols.get id)

def newSymbol (sym : Symbol) : Lower SymbolId := fun s =>
  let (id, t) := s.session.symbols.add sym
  (.ok id, { s with session := { s.session with symbols := t } })

/-- Changes the symbol table by an operation that may be refused. -/
def tryTable (f : SymbolTable → Except Diagnostic SymbolTable) : Lower Unit := do
  let t ← ofExcept (f (← table))
  changeTable fun _ => t

/-- Enters a symbol in the innermost scope. -/
def insert (id : SymbolId) : Lower Unit := tryTable (·.insert id)

/-- Takes something from the supply of names. -/
def take (f : Supply → String × Supply) : Lower String := fun s =>
  let (name, supply) := f s.session.supply
  (.ok name, { s with session := { s.session with supply } })

def freshTemp : Lower String := take Supply.temp

def freshLabel : Lower String := take Supply.label

/-- A fresh raw id. -/
def freshRid (name : String) : Lower String := take (·.rid name)

/-- Writes an instruction. -/
def emit (op : Opcode) (args : List String) : Lower Unit :=
  change fun s => { s with out := s.out.emit op args }

/-- Puts an operand on the stack. -/
def push (o : Operand) : Lower Unit := change fun s => { s with operands := o :: s.operands }

/-- Takes operands off the stack until at most `mark` are left. -/
def truncate (mark : Nat) (s : Lowering) : Lowering :=
  { s with operands := s.operands.drop (s.operands.length - mark) }

/-- Runs a step inside of a scope. -/
def inScope (kind : ScopeKind) (p : Lower α) : Lower α := fun s =>
  let depth := s.scopes.length
  let (g, t) := s.session.symbols.openScope kind
  let s := { s with
    session := { s.session with symbols := t }
    scopes := kind :: s.scopes }
  ensuring (fun s => { s with
    session := { s.session with symbols := (s.session.symbols.closeScope g).2 }
    scopes := s.scopes.drop (s.scopes.length - depth) }) p s

/-- Runs a step inside of a function or class. -/
def inside (id : SymbolId) (p : Lower α) : Lower α := fun s =>
  let depth := s.processing.length
  ensuring (fun s => { s with processing := s.processing.drop (s.processing.length - depth) }) p
    { s with processing := id :: s.processing }

/-- Runs a step whose code is kept apart. -/
def apart (p : Lower Unit) : Lower Code := fun s =>
  let depth := s.out.depth
  match p { s with out := s.out.enter } with
  | (r, s) =>
    let (code, out) := (s.out.leave? depth).getD ([], s.out)
    (r.map fun _ => code, { s with out })

/-- The innermost function around the present place. -/
def currentFunction : Lower (Option SymbolId) := ask fun s =>
  s.processing.find? fun id => (s.session.symbols.get id).function?.isSome

/-- The innermost class around the present place. -/
def currentClass : Lower (Option SymbolId) := ask fun s =>
  s.processing.find? fun id => (s.session.symbols.get id).class?.isSome

/-- Runs a step for its effect: the operands it leaves are dropped. -/
def forEffect (p : Lower Unit) : Lower Unit := fun s =>
  ensuring (truncate s.operands.length) p s

/-- Runs a step for its value: the operand on top of the stack, if it left one. -/
def forValue (p : Lower Unit) (none : Lower Operand) : Lower Operand := fun s =>
  let mark := s.operands.length
  match p s with
  | (.error e, s) => (.error e, truncate mark s)
  | (.ok _, s) =>
    match s.operands with
    | o :: _ =>
      if s.operands.length ≤ mark then none s else (.ok o, truncate mark s)
    | [] => none s

/-- Stores the value of an operand in a variable. -/
def move (source : Operand) (target : String) : Lower Unit :=
  if source.raw == target then pure ()
  else if source.isLiteral then emit .put [source.raw, target]
  else emit .copy [source.raw, target]

/-- An operand that is no literal: a literal is put into a temporary. -/
def materialize (o : Operand) : Lower Operand := do
  if o.isLiteral then
    let t ← freshTemp
    emit .put [o.raw, t]
    return { surface := o.surface, raw := t, type := o.type }
  else return o

/-- Runs a step for each element of a list. -/
def forAll (f : α → Lower Unit) : List α → Lower Unit
  | [] => pure ()
  | a :: as => do
    f a
    forAll f as

/-- The results of a step for each element of a list. -/
def collect (f : α → Lower β) : List α → Lower (List β)
  | [] => pure []
  | a :: as => do
    let b ← f a
    return b :: (← collect f as)

end Lower

/-- How what is inside of a node is lowered. -/
abbrev Visit := Node → Lower Unit

/-! ## Complaints of lowering

The diagnostics that several constructs share. -/

namespace Complaint

/-- The number of bytes of a node's text, which is marked in the source line. -/
def width (n : Node) : Int := n.text.utf8ByteSize

/-- Something that has no meaning where it stands. -/
def unsupportedText (pos : Position) (text : String) : Diagnostic :=
  (Diagnostic.mkAt .semantic Code.semantic pos (.entry .unsupported [.text text])).withSpan
    text.utf8ByteSize

/-- A node that has no meaning where it stands. -/
def unsupported (n : Node) : Diagnostic := unsupportedText n.pos n.text

/-- A value of a wrong type. -/
def mismatch (pos : Position) (expected found : Tag) : Diagnostic :=
  ((Diagnostic.mkAt .typeMismatch Code.typeMismatch pos
    (.entry .typeMismatch [.text expected.text, .text found.text])).withInfo
    [.entry .infoExpected [.text expected.text], .entry .infoFound [.text found.text]]).withHint
    [.entry .hintConvertValue []]

/-- An operand that an operator cannot take. -/
def invalidOperand (op : Token) (word : String) (found : Tag) : Diagnostic :=
  (Diagnostic.mkAt .typeMismatch Code.typeMismatch op.pos
    (.entry .invalidOperand [.text word, .text found.text])).withSpan word.utf8ByteSize

/-- A rule of the language that is broken. -/
def semantic (pos : Position) (message : Phrase) : Diagnostic :=
  .mkAt .semantic Code.semantic pos message

def argument (pos : Position) (message : Phrase) : Diagnostic :=
  .mkAt .argument Code.argumentCount pos message

/-- A line that says where something comes from. -/
def declaredAt (name : String) (pos : Position) : Phrase :=
  .entry .infoDeclaredAt [.text name, .text pos.text]

def marking (word : String) (d : Diagnostic) : Diagnostic := d.withSpan word.utf8ByteSize

end Complaint

namespace Lower

/-- The value of a node. A node without a value has no meaning here. -/
def eval (visit : Visit) (n : Node) : Lower Operand :=
  forValue (visit n) (fail (Complaint.unsupported n))

def exec (visit : Visit) (n : Node) : Lower Unit := forEffect (visit n)

end Lower

end Frontend
