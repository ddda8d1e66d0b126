import Frontend.Lowering.Assignment
import Frontend.Lowering.Call
import Frontend.Lowering.Class
import Frontend.Lowering.Control

/-!
# Lowering of nodes

Puts the constructs together: `visitWith` lowers one node, given how the nodes inside of it are
lowered, and `visit` ties the knot up to a number of levels.
-/

namespace Frontend

/-- A node in an annotation: of a node with a body only the head is shown. -/
def Node.summary (n : Node) : String :=
  let text := n.text
  let head := text.toList.takeWhile (· != '\x7b')
  let hasBody := match n with
    | .funDef .. | .classDef .. | .constructor .. | .branch .. | .whileLoop .. | .forLoop .. => true
    | _ => false
  if hasBody && !head.isEmpty && head.length < text.length then
    String.ofList (Text.trimList head) ++ " \x7b...\x7d"
  else text

namespace Lower

/-- Notes in the code which item of the source comes next. -/
def annotate (n : Node) : Lower Unit := change fun s =>
  if s.out.annotate then
    let text := Path.base s.file ++ ":" ++ Text.ofInt n.pos.line ++ " " ++ n.summary
    { s with out := s.out.note text }
  else s

/-- Items, one after another. -/
def items (visit : Visit) : List Node → Lower Unit :=
  forAll fun n => do
    annotate n
    exec visit n

/-- Items in a scope of their own. -/
def block (visit : Visit) (b : Block) : Lower Unit := inScope .block (items visit b.items)

/-- Shows the line of a failure that points into the file at hand. -/
def showingLine (p : Lower α) : Lower α := fun s =>
  match p s with
  | (.error (.diagnostic d), s) => (.error (.diagnostic (Failure.complete s.file s.source d)), s)
  | other => other

/-- Starts on a file, unless it is being compiled already. -/
def startFile (file : String) : Lower Unit := fun s =>
  if file.isEmpty then (.ok (), s)
  else match s.session.imports.push s.files file with
    | .error e => (.error (.other (.text e.text)), s)
    | .ok imports =>
      (.ok (), { s with session := { s.session with imports := imports.markLoaded s.files file } })

/-- The items of one file. -/
def unit (visit : Visit) (p : Program) (src : Source) : Lower Unit := fun s =>
  let depth := s.session.imports.depth
  let outer := s
  ensuring (fun s => { s with
    file := outer.file
    source := outer.source
    session := { s.session with imports := s.session.imports.popTo depth } })
    (do
      startFile p.file
      showingLine (items visit p.body))
    { s with file := p.file, source := src }

/-- Imports a file: its items are lowered at this place, unless that was done before. `enter` lowers the
items of a file with its text. -/
def importFile (enter : Program → Source → Lower Unit) (path : Token) (n : Node) : Lower Unit := do
  let pointing := fun (category : Category) (code : String) (message : Phrase) =>
    (Diagnostic.mkAt category code path.pos message).withSpan (Text.quote path.literal).utf8ByteSize
  let missing := pointing .fileNotFound Code.fileNotFound (.entry .fileNotFound [.text path.literal])
  if 0 < (← table).level then fail (Complaint.unsupported n)
  let imports ← ask (·.session.imports)
  let files ← ask (·.files)
  match imports.resolve files path.literal (← ask (·.file)) with
  | .error _ => fail missing
  | .ok resolved =>
    if imports.onStack files resolved then
      fail (((pointing .recursiveImport Code.recursiveImport
        (.entry .recursiveImport [.text path.literal])).withInfo
        [.entry .infoImportChain [.text (imports.chain resolved)]]).withHint
        [.entry .hintBreakImport []])
    else if imports.isLoaded files resolved then pure ()
    else match Imports.load files resolved with
      | .error _ => fail missing
      | .ok text =>
        let src := Source.ofString text
        match Program.ofSource src resolved with
        | .error e => failWith (.ofSourceError e)
        | .ok p => enter p src

/-- Lowers a node, given how the nodes inside of it are lowered. -/
def visitWith (visit : Visit) (n : Node) : Lower Unit :=
  let body := items visit
  match n with
  | .int .. | .float .. | .str _ | .bool .. | .null _ =>
    match Operand.ofLiteral? n with
    | some o => push o
    | none => fail (Complaint.unsupported n)
  | .ident name => ident name n
  | .this token => this token.pos
  | .unary op operand => unary visit op operand n
  | .binary left op right => do
    let l ← eval visit left
    let r ← eval visit right
    push (← binary op op.literal l r n)
  | .increment operand op => increment visit operand op n
  | .assign target op value => assign visit target op value n
  | .parallel ns => forAll (exec visit) ns
  | .group _ _ _ inner => group visit inner n
  | .block b => block visit b
  | .list _ elements => list visit elements n
  | .dict _ pairs => dict visit pairs n
  | .call callee _ _ args => call visit callee args n
  | .index left _ subscript => index visit left subscript n
  | .member object _ name => member visit object name n
  | .varDef _ names values => defineVariables visit names values
  | .funDecl _ name params labels => declareFunction name params labels
  | .funDef _ name params labels b _ => defineFunction body name params labels b
  | .lambda token params labels b => lambda body token params labels b
  | .classDecl _ name => declareClass name
  | .classDef _ name b => defineClass visit body name b
  | .branch tests otherwise => branch visit tests otherwise
  | .whileLoop token test b => loop visit token.pos none test none b
  | .forLoop token init test update b => loop visit token.pos (some init) test (some update) b
  | .pass _ => pure ()
  | .breakOut token => breakOut token.pos
  | .continueOn token => continueOn token.pos
  | .returnFrom token value => returnFrom visit token value
  | .importFile _ path => importFile (unit visit) path n
  | .pair .. | .arrow .. | .argument .. | .constructor .. => fail (Complaint.unsupported n)

/-- Lowers a node in which nodes are nested up to a number of levels. -/
def visit : (levels : Nat) → Visit
  | 0 => fun n => fail (Complaint.unsupported n)
  | levels + 1 => visitWith (visit levels)

end Lower

/-! ## Compilation

Compiles source texts to code. One text can be compiled on its own, or several texts one after another
in a session, in which each sees what the earlier ones defined. -/

/-- How to compile. Without imports given, files are looked for beside the importing file only. -/
structure CompileOptions where
  /-- Whether the code shows which item of the source it comes from. -/
  annotate : Bool := false
  builtins : Registry := .standard
  imports : Option Imports := none
  deriving Inhabited

namespace Session

def ofOptions (options : CompileOptions) : Session :=
  { builtins := options.builtins, imports := options.imports.getD {} }

/-- The function symbol that stands for a built-in function. -/
def builtinSymbol (e : Builtin) : Symbol :=
  { name := e.name, rid := e.name
    detail := .function {
      permission := .builtin
      builtin := if e.pure then .pure else .void
      result := if e.pure then ((TypeName.ofText? e.result).map Tag.ofType).getD .any else .nul } }

/-- Enters the built-in functions in the global scope; names that are taken stay as they are. -/
def enterBuiltins (s : Session) : Session :=
  let enter := fun (t : SymbolTable) (name : String) =>
    match s.builtins.find? name, t.find? name (some 0) with
    | some e, none =>
      let (id, t) := t.add (builtinSymbol e)
      ((t.insertGlobal id).toOption).getD t
    | _, _ => t
  { s with symbols := s.builtins.names.foldl enter s.symbols }

/-- How many levels deep nodes can be nested in a source text and the files it may import. Every level
takes at least one letter, and the initial value of a field is lowered once more inside of every class
below. The sizes of texts and of files are words of 64 bits, so that together they have fewer letters
than twice that. -/
def levels : Nat :=
  let letters := Nat.pow 2 65
  16 * (letters + 1) * (letters + 1)

/-- The diagnostic for a function or class that was declared and never defined. -/
def undefined? (t : SymbolTable) (id : SymbolId) : Option Diagnostic :=
  let s := t.get id
  let missing := match s.detail with
    | .function f => f.declared && !f.virtual
    | .cls c => c.declared
    | _ => true
  if missing then
    some (Complaint.marking s.name (Complaint.semantic s.pos
      (.entry .declaredNotDefined [.text s.name])))
  else none

/-- Lowers a program, and then asks for everything that was declared. -/
def lower (levels : Nat) (p : Program) (src : Source) : Lower Unit := do
  Lower.unit (Lower.visit levels) p src
  let t ← Lower.table
  Lower.refuse ((← Lower.ask (·.declared)).findSome? (undefined? t))

/-- Compiles a program in a session: the code or the failure, and the session afterwards. -/
def compile (s : Session) (files : FileTree) (annotate : Bool) (p : Program) (src : Source) :
    Except Failure Code × Session :=
  let start : Lowering := { session := s.enterBuiltins, files, out := { annotate } }
  let (r, after) := lower levels p src start
  (r.map fun _ => after.out.code, after.session)

end Session

def compileSource (files : FileTree) (options : CompileOptions) (src : Source) (file : String) :
    Except Failure Code :=
  match Program.ofSource src file with
  | .error e => .error (.ofSourceError e)
  | .ok p => ((Session.ofOptions options).compile files options.annotate p src).1

end Frontend
