import Frontend.Parse.Definition
import Frontend.Token.Scan

/-!
# Control flow

Branches, loops and the statements that leave them.
-/

namespace Frontend

namespace Parse

/-- A single test in parentheses behind a keyword. -/
def testOf (sub : Nested) (keyword : Token) : Parse Node := do
  let t ← peek
  if t.kind == .opening .paren then
    let g ← group sub .paren
    match g.items with
    | [test] => return test
    | _ => failNode g.node (.entry .expectedCondition [.text keyword.literal])
  else failToken .unexpectedToken t (.entry .expectedCondition [.text keyword.literal])

/-- A test and its block. -/
def condition (sub : Nested) (keyword : Token) : Parse Condition := do
  let test ← testOf sub keyword
  return .mk keyword test (← block sub)

/-- A branch. Its further tests may start on later lines. -/
def branch (sub : Nested) : Parse Node := do
  let first ← condition sub (← advance)
  repeatWhile (fun (done : List Condition) => do
    let k ← kindPastNewlines
    if k == .keyword .elseCase then
      skipNewlines
      let _ ← advance
      let otherwise ← block sub
      return .done (.branch done.reverse (some otherwise))
    else if k == .keyword .elifTest then
      skipNewlines
      let c ← condition sub (← advance)
      return .again (c :: done)
    else return .done (.branch done.reverse none)) [first]

/-- Refuses a further test without a first one. -/
def strayBranch : Parse Node := do
  let t ← peek
  failToken .general t (.entry .branchWithoutIf [.text t.literal])

def whileLoop (sub : Nested) : Parse Node := do
  let token ← advance
  let test ← testOf sub token
  return .whileLoop token test (← block sub)

/-- A loop with a head of three parts. -/
def forLoop (sub : Nested) : Parse Node := do
  let token ← advance
  let t ← peek
  if t.kind == .opening .paren then
    let g ← group sub .paren
    match g.body with
    | some (.block (.mk _ _ [init, test, update])) =>
      return .forLoop token init test update (← block sub)
    | _ => failNode g.node (.entry .forHeadShape [.number g.items.length])
  else failToken .unexpectedToken t (.entry .expectedCondition [.text token.literal])

/-- A return, perhaps with a value. -/
def returnFrom (sub : Nested) : Parse Node := do
  let token ← advance
  if ← atItemEnd then return .returnFrom token none
  else return .returnFrom token (some (← sub Binding.lowest))

def importFile : Parse Node := do
  let token ← advance
  let t ← peek
  if t.kind == .str then return .importFile token (← advance)
  else failToken .unexpectedToken t (.entry .invalidImport [])

/-- The rule for a keyword at the start of an expression. -/
def ofKeyword (sub : Nested) : Keyword → Parse Node
  | .varDef => varDefinition sub
  | .funDef => function sub
  | .classDef => classDefinition sub
  | .ifTest => branch sub
  | .elifTest | .elseCase => strayBranch
  | .whileLoop => whileLoop sub
  | .forLoop => forLoop sub
  | .returnFrom => returnFrom sub
  | .breakOut => do return .breakOut (← advance)
  | .continueOn => do return .continueOn (← advance)
  | .pass => do return .pass (← advance)
  | .trueValue => do return .bool (← advance) true
  | .falseValue => do return .bool (← advance) false
  | .nullValue => do return .null (← advance)
  | .this => do return .this (← advance)
  | .importFile => importFile

/-- The rule for a token at the start of an expression, if there is one. -/
def beginning? (sub : Nested) : TokenKind → Option (Parse Node)
  | .ident => some do return .ident (← identifier)
  | .int => some integer
  | .float => some float
  | .str => some do return .str (← advance)
  | .op .minus | .op .not | .op .star | .op .power => some (unary sub)
  | .opening .paren => some do return (← group sub .paren).node
  | .opening .square => some (list sub)
  | .opening .brace => some (braces sub)
  | .keyword k => some (ofKeyword sub k)
  | _ => none

/-! ## Programs

An expression is read by climbing binding levels: first what its first token begins, then whatever
continues it above the given level. A program is a sequence of items, each on a line of its own. -/

/-- An expression above a binding level, with the rules for what is nested in it. -/
def expressionWith (sub : Nested) (level : Nat) : Parse Node := do
  let t ← peek
  match beginning? sub t.kind with
  | some rule => climb sub level (← rule)
  | none => failToken .noRule t (.entry .cannotStart [.text t.describe])

/-- An expression above a binding level that may be nested `budget` levels deep. -/
def expression : (budget : Nat) → (level : Nat) → Parse Node
  | 0, _ => do
    let t ← peek
    failToken .general t (.entry .expectedExpression [.text t.describe])
  | budget + 1, level =>
    expressionWith { expression := expression budget, recover := fun b => synchronize (some b) } level

def items : Parse (List Node) :=
  repeatWhile (fun (done : List Node) => do
    skipNewlines
    if ← ask fun s => s.atEnd || s.stopped then return .done done.reverse
    calm
    match ← attempt (expression maxExpressionDepth Binding.lowest) with
    | none =>
      synchronize none
      return .again done
    | some item =>
      let t ← peek
      if t.kind != .newline && t.kind != .eof then
        reportUnexpected t "newline"
        synchronize none
      return .again (item :: done)) []

end Parse

/-- The outcome of a parse: the program, as far as it could be read, and the errors in order. -/
structure Parsed where
  program : Program
  errors : List ParseError

/-- Reads a list of tokens as a program. -/
def Program.ofTokens (tokens : List Token) : Parsed :=
  let start := ParseState.ofTokens tokens
  let (items, s) := Parse.items start
  { program := ⟨start.next.pos.file, items.getD []⟩, errors := s.errors.reverse }

/-- What can be wrong with a source text before its meaning is looked at. -/
inductive SourceError where
  | scan (d : Diagnostic)
  | grammar (errors : List ParseError)

/-- Reads a source text as a program. -/
def Program.ofSource (src : Source) (file : String) : Except SourceError Program :=
  match src.scan file with
  | .error d => .error (.scan d)
  | .ok tokens =>
    let p := Program.ofTokens tokens
    if p.errors.isEmpty then .ok p.program else .error (.grammar p.errors)

end Frontend
