import Frontend.Parse.Expression

/-!
# Definitions

Variables, functions and classes.
-/

namespace Frontend.Parse

/-- The names and values of a variable definition, or the first item that defines nothing. -/
def definitionsOf : List Node → Except Node (List (Ident × Option Node))
  | [] => .ok []
  | n :: ns => do
    let d ← match n with
      | .ident name => .ok (name, none)
      | .assign (.ident name) op value =>
        if op.kind == .op .assign then .ok (name, some value) else .error n
      | _ => .error n
    return d :: (← definitionsOf ns)

def varDefinition (sub : Nested) : Parse Node := do
  let token ← advance
  let expr ← sub Binding.lowest
  let items := match expr with
    | .parallel items => items
    | n => [n]
  match definitionsOf items with
  | .ok ds => return .varDef token (ds.map Prod.fst) (ds.map Prod.snd)
  | .error n => failNode n (.entry .invalidVarTarget [.text n.text])

/-- Refuses a function head. -/
def badHead (n : Node) : Parse α := failNode n (.entry .invalidFunHead [.text n.text])

/-- The name and the arguments of a function head `name(args)`. -/
def functionHead (n : Node) : Parse (Ident × List Node) :=
  match n with
  | .call (.ident name) _ _ args =>
    if name.labels.isEmpty then return (name, args) else badHead (.ident name)
  | .call callee _ _ _ => badHead callee
  | _ => badHead n

/-- The labels of a function, behind a colon. -/
def functionLabels : Parse (List Label) := do
  if ← accept (.op .colon) then labels else return []

def functionBody (sub : Nested) : Parse Block := block sub

/-- A function with a body; in a class body, `init` makes a constructor. -/
def functionNode (inClass : Bool) (token : Token) (name : Ident) (params : List Param)
    (labels : List Label) (body : Block) (arrow : Bool) : Node :=
  if inClass && name.name == "init" then .constructor token name params labels body
  else .funDef token name params labels body arrow

/-- The rest of a named function behind its head. -/
def namedFunction (sub : Nested) (token : Token) (inClass : Bool) (head : Node) : Parse Node := do
  let (name, args) ← functionHead head
  let ps ← params args
  let ls ← functionLabels
  let t ← peek
  if t.kind == .op .arrow then
    let arrow ← advance
    let value ← sub Binding.parallel
    return functionNode inClass token name ps ls (arrowBody arrow value) true
  else if t.kind == .opening .brace then
    return functionNode inClass token name ps ls (← functionBody sub) false
  else if ← atItemEnd then return .funDecl token name ps ls
  else failUnexpected t "'\x7b', '->' or newline"

/-- The rest of a function without a name behind its parameters. -/
def lambdaFunction (sub : Nested) (token : Token) (items : List Node) : Parse Node := do
  let ps ← params items
  let ls ← functionLabels
  if ← check (.op .arrow) then
    let arrow ← advance
    let value ← sub Binding.parallel
    return .lambda token ps ls (arrowBody arrow value)
  else return .lambda token ps ls (← functionBody sub)

/-- A function: a declaration, a definition, or a function without a name. -/
def function (sub : Nested) : Parse Node := do
  let token ← advance
  let inClass ← ask (·.inClass)
  let head ← sub Binding.pair
  match head with
  | .lambda _ ps ls body => return .lambda token ps ls body
  | .arrow left arrow right =>
    let (name, args) ← functionHead left
    let ps ← params args
    return functionNode inClass token name ps [] (arrowBody arrow right) true
  | .call .. => namedFunction sub token inClass head
  | .group _ _ .paren body => lambdaFunction sub token (Node.itemsOf body)
  | _ => badHead head

/-- A class: a declaration, or a definition with a body. -/
def classDefinition (sub : Nested) : Parse Node := do
  let token ← advance
  let t ← peek
  if t.kind == .ident then
    let name ← identifier
    if ← atItemEnd then return .classDecl token name
    else
      let t ← peek
      if t.kind == .opening .brace then
        let opener ← advance
        let g ← inBrackets true (groupBody sub opener .brace)
        return .classDef token name g.toBlock
      else failToken .unexpectedToken t (.entry .expectedBlock [.text t.describe])
  else failToken .unexpectedToken t (.entry .invalidClassHead [.text t.describe])

end Frontend.Parse
