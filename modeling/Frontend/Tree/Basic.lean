import Frontend.Decimal
import Frontend.Token.Basic

/-!
# Syntax trees

Every item of a program is a node: there is no line between statements and expressions. A node keeps
the tokens it was read from, so that its place in the source is known.
-/

namespace Frontend

/-- A label of a declaration, such as `int`, `static` or a class name. The function types may carry
groups that describe parameters and result: `func[int, str][bool]`. -/
inductive Label where
  | mk (token : Token) (groups : List (List Label))
  deriving Repr, Inhabited

namespace Label

def token : Label → Token
  | mk t _ => t

def groups : Label → List (List Label)
  | mk _ gs => gs

/-- The word that a label is written with. -/
def name (l : Label) : String := l.token.literal

def isClassName (l : Label) : Bool := l.token.kind == .ident

def pos (l : Label) : Position := l.token.pos

end Label

/-- A name, perhaps with labels: `x: int const`. -/
structure Ident where
  token : Token
  labels : List Label := []
  deriving Repr, Inhabited

def Ident.name (i : Ident) : String := i.token.literal

/-- The kinds of parameters: `a`, `a = 1`, `*a` and `**a`. -/
inductive ParamKind where
  | positional | keyword | restPositional | restKeyword
  deriving DecidableEq, Repr, Inhabited

/-- The word for a kind of parameter. -/
def ParamKind.text : ParamKind → String
  | positional => "positional"
  | keyword => "keyword"
  | restPositional => "variadic-positional"
  | restKeyword => "variadic-keyword"

mutual
/-- A node of the syntax tree. -/
inductive Node where
  | int (token : Token) (value : Int)
  | float (token : Token) (value : Binary64)
  | str (token : Token)
  | bool (token : Token) (value : Bool)
  | null (token : Token)
  | ident (name : Ident)
  | this (token : Token)
  /-- An operator in front of its operand. -/
  | unary (op : Token) (operand : Node)
  | binary (left : Node) (op : Token) (right : Node)
  /-- An increment or decrement behind its operand. -/
  | increment (operand : Node) (op : Token)
  | assign (target : Node) (op : Token) (value : Node)
  /-- Expressions with commas between them; there are at least two. -/
  | parallel (items : List Node)
  /-- What stands between brackets. -/
  | group (opener closer : Token) (bracket : Bracket) (body : Option Node)
  | block (body : Block)
  | list (opener : Token) (elements : List Node)
  | pair (key : Node) (colon : Token) (value : Node)
  /-- Entries in braces; every entry is a pair. -/
  | dict (opener : Token) (pairs : List Node)
  /-- An arrow that has not become a function. -/
  | arrow (left : Node) (arrow : Token) (right : Node)
  /-- An argument passed by name. -/
  | argument (name : Ident) (value : Node)
  | call (callee : Node) (opener closer : Token) (args : List Node)
  | index (left : Node) (opener : Token) (subscript : Node)
  | member (object : Node) (dot : Token) (name : Ident)
  /-- Variables, each with its value if it has one. -/
  | varDef (token : Token) (names : List Ident) (values : List (Option Node))
  | funDecl (token : Token) (name : Ident) (params : List Param) (labels : List Label)
  | funDef (token : Token) (name : Ident) (params : List Param) (labels : List Label)
      (body : Block) (arrow : Bool)
  | lambda (token : Token) (params : List Param) (labels : List Label) (body : Block)
  | constructor (token : Token) (name : Ident) (params : List Param) (labels : List Label)
      (body : Block)
  | classDecl (token : Token) (name : Ident)
  | classDef (token : Token) (name : Ident) (body : Block)
  /-- A chain of tests and, perhaps, what to do when none holds. -/
  | branch (tests : List Condition) (otherwise : Option Block)
  | whileLoop (token : Token) (test : Node) (body : Block)
  | forLoop (token : Token) (init test update : Node) (body : Block)
  | pass (token : Token)
  | breakOut (token : Token)
  | continueOn (token : Token)
  | returnFrom (token : Token) (value : Option Node)
  | importFile (token : Token) (path : Token)
/-- Items in braces. -/
inductive Block where
  | mk (opener closer : Token) (items : List Node)
/-- A parameter of a function; keyword parameters have a default value. -/
inductive Param where
  | mk (name : Ident) (kind : ParamKind) (default : Option Node)
/-- One test of a branch, with what to do when it holds. -/
inductive Condition where
  | mk (keyword : Token) (test : Node) (body : Block)
end

instance : Inhabited Node := ⟨.pass default⟩
instance : Inhabited Block := ⟨.mk default default []⟩
instance : Inhabited Param := ⟨.mk default default none⟩

namespace Block

def opener : Block → Token
  | mk o _ _ => o

def closer : Block → Token
  | mk _ c _ => c

def items : Block → List Node
  | mk _ _ is => is

def pos (b : Block) : Position := b.opener.pos

def finish (b : Block) : Position := b.closer.finish

end Block

namespace Param

def name : Param → Ident
  | mk n _ _ => n

def kind : Param → ParamKind
  | mk _ k _ => k

/-- The default value of a parameter. -/
def default : Param → Option Node
  | mk _ _ d => d

end Param

namespace Condition

def keyword : Condition → Token
  | mk k _ _ => k

def test : Condition → Node
  | mk _ t _ => t

/-- What to do when the test holds. -/
def body : Condition → Block
  | mk _ _ b => b

end Condition

namespace Node

def isLiteral : Node → Bool
  | int .. | float .. | str .. | bool .. | null .. => true
  | _ => false

/-- Whether a node may stand on the left of an assignment. -/
def isAssignable : Node → Bool
  | ident .. | member .. | index .. => true
  | _ => false

/-- What a group holds: the items of a block or of a list with commas, or a single node. -/
def itemsOf : Option Node → List Node
  | none => []
  | some (parallel items) => items
  | some (block body) => body.items
  | some n => [n]

end Node

/-- A parsed source file. -/
structure Program where
  file : String
  body : List Node
  deriving Inhabited

/-! ## Places of nodes

Where a node begins and ends in the source text. -/

mutual
/-- The place where a node begins. -/
def Node.pos : Node → Position
  | .int t _ | .float t _ | .str t | .bool t _ | .null t | .this t => t.pos
  | .ident name => name.token.pos
  | .unary op _ => op.pos
  | .binary left _ _ => left.pos
  | .increment operand _ => operand.pos
  | .assign target _ _ => target.pos
  | .parallel items => Node.firstPos items
  | .group opener _ _ _ => opener.pos
  | .block body => body.pos
  | .list opener _ => opener.pos
  | .pair key _ _ => key.pos
  | .dict opener _ => opener.pos
  | .arrow left _ _ => left.pos
  | .argument name _ => name.token.pos
  | .call callee _ _ _ => callee.pos
  | .index left _ _ => left.pos
  | .member object _ _ => object.pos
  | .varDef t _ _ | .funDecl t _ _ _ | .funDef t _ _ _ _ _ | .lambda t _ _ _
  | .constructor t _ _ _ _ | .classDecl t _ | .classDef t _ _ => t.pos
  | .branch tests _ => (tests.head?.map (·.keyword.pos)).getD {}
  | .whileLoop t _ _ | .forLoop t _ _ _ _ | .pass t | .breakOut t | .continueOn t
  | .returnFrom t _ | .importFile t _ => t.pos

/-- The place where the first of several nodes begins. -/
def Node.firstPos : List Node → Position
  | [] => {}
  | n :: _ => n.pos
end

mutual
/-- The place behind a node. A list or dictionary ends, for messages, behind its opening bracket, and
a declaration behind its name. -/
def Node.finish : Node → Position
  | .int t _ | .float t _ | .str t | .bool t _ | .null t | .this t => t.finish
  | .ident name => name.token.finish
  | .unary _ operand => operand.finish
  | .binary _ _ right => right.finish
  | .increment _ op => op.finish
  | .assign _ _ value => value.finish
  | .parallel items => Node.lastFinish items
  | .group _ closer _ _ => closer.finish
  | .block body => body.finish
  | .list opener _ => opener.finish
  | .pair _ _ value => value.finish
  | .dict opener _ => opener.finish
  | .arrow _ _ right => right.finish
  | .argument _ value => value.finish
  | .call _ _ closer _ => closer.finish
  | .index _ _ subscript => subscript.finish
  | .member _ _ name => name.token.finish
  | .varDef _ names values => Node.definedFinish names values
  | .funDecl _ name _ _ => name.token.finish
  | .funDef _ _ _ _ body _ => body.finish
  | .lambda _ _ _ body => body.finish
  | .constructor _ _ _ _ body => body.finish
  | .classDecl _ name => name.token.finish
  | .classDef _ _ body => body.finish
  | .branch _ (some otherwise) => otherwise.finish
  | .branch tests none => (tests.getLast?.map (·.body.finish)).getD {}
  | .whileLoop _ _ body => body.finish
  | .forLoop _ _ _ _ body => body.finish
  | .pass t | .breakOut t | .continueOn t => t.finish
  | .returnFrom _ (some value) => value.finish
  | .returnFrom t none => t.finish
  | .importFile _ path => path.finish

/-- The place behind the last of several nodes. -/
def Node.lastFinish : List Node → Position
  | [] => {}
  | [n] => n.finish
  | _ :: rest => Node.lastFinish rest

/-- The place behind the last of several variable definitions. -/
def Node.definedFinish : List Ident → List (Option Node) → Position
  | [_], [some value] => value.finish
  | [name], _ => name.token.finish
  | _ :: names, _ :: values => Node.definedFinish names values
  | _, _ => {}
end

namespace Param

/-- The place where a parameter begins. -/
def pos (p : Param) : Position := p.name.token.pos

/-- The place behind a parameter. -/
def finish (p : Param) : Position :=
  match p.default with
  | some value => value.finish
  | none => p.name.token.finish

end Param

namespace Condition

/-- The place where a test begins. -/
def pos (c : Condition) : Position := c.keyword.pos

/-- The place behind a test's block. -/
def finish (c : Condition) : Position := c.body.finish

end Condition

namespace Program

/-- The place where a program begins. -/
def pos (p : Program) : Position :=
  match p.body with
  | n :: _ => n.pos
  | [] => { file := p.file, line := 1, column := 1 }

/-- The place behind a program. -/
def finish (p : Program) : Position :=
  match p.body with
  | [] => p.pos
  | items => Node.lastFinish items

end Program

end Frontend
