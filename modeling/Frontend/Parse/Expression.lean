import Frontend.Parse.Group

/-!
# Expressions

Literals, names, operators, calls, indexing and members. An operator's right operand is read above the
operator's own level, so operators of one level group to the left; assignments group to the right.
-/

namespace Frontend.Parse

/-- A name; a colon behind it starts a list of labels. -/
def identifier : Parse Ident := do
  let token ← advance
  if ← accept (.op .colon) then return { token, labels := ← labels }
  else return { token }

/-- A whole number. -/
def integer : Parse Node := do
  let t ← advance
  match Decimal.readWord? t.literal with
  | some value => return .int t value
  | none => failToken .general t (.entry .invalidIdentifier [.text t.literal])

/-- A number with a point. -/
def float : Parse Node := do
  let t ← advance
  match Decimal.readFinite? t.literal with
  | some value => return .float t value
  | none => failToken .general t (.entry .invalidIdentifier [.text t.literal])

/-- An operator in front of its operand. -/
def unary (sub : Nested) : Parse Node := do
  let op ← advance
  return .unary op (← sub Binding.unary)

/-- A list in square brackets. -/
def list (sub : Nested) : Parse Node := do
  let g ← group sub .square
  return .list g.opener g.items

/-- Whether a node is an entry of a dictionary. -/
def isPair : Node → Bool
  | .pair .. => true
  | _ => false

/-- Braces: a dictionary when every item is an entry, or when there is none; a block otherwise. -/
def braces (sub : Nested) : Parse Node := do
  let g ← group sub .brace
  if g.items.isEmpty then return .dict g.opener []
  else if g.holdsBlock then return .block g.toBlock
  else if g.items.all isPair then return .dict g.opener g.items
  else if g.holdsParallel then failNode g.node (.entry .invalidDictEntry [])
  else return .block g.toBlock

/-- An operator between two operands. -/
def binary (sub : Nested) (left : Node) : Parse Node := do
  let op ← advance
  return .binary left op (← sub (Binding.ofKind op.kind))

def assignment (sub : Nested) (target : Node) : Parse Node := do
  let op ← advance
  if target.isAssignable then return .assign target op (← sub (Binding.assign - 1))
  else failNode target (.entry .invalidAssignTarget [.text target.text])

/-- Expressions with commas between them. Inside brackets a line may break behind a comma. -/
def parallel (sub : Nested) (first : Node) : Parse Node :=
  repeatWhile (fun (done : List Node) => do
    if ← accept .comma then
      if (← ask (·.depth)) > 0 then skipNewlines
      return .again ((← sub Binding.parallel) :: done)
    else return .done (.parallel done.reverse)) [first]

/-- An entry: a key, a colon and a value. -/
def entry (sub : Nested) (key : Node) : Parse Node := do
  let colon ← advance
  return .pair key colon (← sub Binding.pair)

/-- What a node stands for in a parameter list. -/
def paramOf? : Node → Option Param
  | .ident name => some (.mk name .positional none)
  | .argument name value => some (.mk name .keyword (some value))
  | .assign (.ident name) op value =>
    if op.kind == .op .assign then some (.mk name .keyword (some value)) else none
  | .unary op (.ident name) =>
    if op.kind == .op .star then some (.mk name .restPositional none)
    else if op.kind == .op .power then some (.mk name .restKeyword none)
    else none
  | _ => none

/-- Whether a parameter may follow, given that a rest parameter for positional arguments or for
keyword arguments came before. -/
def paramFits (kind : ParamKind) (restSeen optsSeen : Bool) : Bool :=
  !optsSeen && !(restSeen && (kind == .positional || kind == .restPositional))

/-- Reads nodes as parameters. Behind `**opts` there is no parameter, and behind `*rest` only keyword
parameters and `**opts`. The first node that does not fit is told with what is wrong with it. -/
def paramsOf : List Node → Bool → Bool → Except (Node × Phrase) (List Param)
  | [], _, _ => .ok []
  | n :: ns, restSeen, optsSeen =>
    match paramOf? n with
    | none => .error (n, .entry .invalidParameter [.text n.text])
    | some p =>
      if paramFits p.kind restSeen optsSeen then do
        let ps ← paramsOf ns (restSeen || p.kind == .restPositional)
          (optsSeen || p.kind == .restKeyword)
        return p :: ps
      else .error (n, .entry .parameterOrder [.text p.name.name])

/-- Reads the items of a group as parameters. -/
def params (items : List Node) : Parse (List Param) :=
  match paramsOf items false false with
  | .ok ps => return ps
  | .error (n, message) => failNode n message

/-- A block that returns one expression, in place of the arrow before it. -/
def arrowBody (arrow : Token) (value : Node) : Block :=
  .mk arrow arrow [.returnFrom arrow (some value)]

/-- An arrow. Behind a group in parentheses it makes a function of the group. -/
def arrowed (sub : Nested) (left : Node) : Parse Node := do
  let arrow ← advance
  let right ← sub Binding.arrow
  match left with
  | .group opener _ .paren body =>
    return .lambda opener (← params (Node.itemsOf body)) [] (arrowBody arrow right)
  | _ => return .arrow left arrow right

/-- What a node stands for among arguments: an assignment to a name passes an argument by name. -/
def argumentOf? : Node → Option Node
  | .assign (.ident name) op value =>
    if op.kind == .op .assign then some (.argument name value) else none
  | .assign .. => none
  | n => some n

/-- Reads the items of a group as arguments. -/
def arguments : List Node → Parse (List Node)
  | [] => return []
  | n :: ns =>
    match argumentOf? n with
    | some a => do
      let rest ← arguments ns
      return a :: rest
    | none => failNode n (.entry .invalidArgument [.text n.text])

def call (sub : Nested) (callee : Node) : Parse Node := do
  let g ← group sub .paren
  if g.holdsBlock then failNode g.node (.entry .invalidArgument [.text g.node.text])
  else return .call callee g.opener g.closer (← arguments g.items)

/-- The rest of an index behind its opening bracket. -/
def indexBody (sub : Nested) (left : Node) (opener : Token) : Parse Node := do
  skipNewlines
  let subscript ← sub Binding.lowest
  skipNewlines
  let t ← peek
  if t.kind == .closing .square then
    let _ ← advance
    return .index left opener subscript
  else
    failToken .unclosed t
      (.entry .unclosedExpression [.text "[", .text opener.pos.text, .text t.describe])

def index (sub : Nested) (left : Node) : Parse Node := do
  let opener ← advance
  inBrackets (← ask (·.inClass)) (indexBody sub left opener)

def member (object : Node) : Parse Node := do
  let dot ← advance
  let t ← peek
  if t.kind == .ident then return .member object dot { token := ← advance }
  else failUnexpected t "attribute name"

/-- An increment or decrement behind its operand. -/
def increment (operand : Node) : Parse Node := do
  let op ← advance
  if operand.isAssignable then return .increment operand op
  else failNode operand (.entry .invalidIncrementTarget [.text op.literal, .text operand.text])

/-- The rule for a token behind a left operand, if there is one. -/
def continuation? (sub : Nested) (left : Node) : TokenKind → Option (Parse Node)
  | .op o =>
    match o with
    | .plus | .minus | .star | .slash | .percent | .eq | .ne | .lt | .le | .gt | .ge | .and | .or =>
      some (binary sub left)
    | .assign | .plusAssign | .minusAssign | .starAssign | .slashAssign | .percentAssign =>
      some (assignment sub left)
    | .colon => some (entry sub left)
    | .arrow => some (arrowed sub left)
    | .dot => some (member left)
    | .power | .increment | .decrement | .not => none
  | .comma => some (parallel sub left)
  | .opening .paren => some (call sub left)
  | .opening .square => some (index sub left)
  | _ => none

/-- Takes the next token apart if it is a negative number: behind an operand its minus subtracts. -/
def splitNegative : Parse Unit := change fun s =>
  match s.rest with
  | t :: rest =>
    if t.isNegativeNumber then
      let (minus, number) := t.splitNegative
      { s with rest := minus :: number :: rest }
    else s
  | [] => s

/-- Extends a left operand as long as what follows binds above a level. -/
def climb (sub : Nested) (level : Nat) (left : Node) : Parse Node :=
  repeatWhile (fun left => do
    let k ← peekKind
    if k == .op .increment || k == .op .decrement then return .again (← increment left)
    splitNegative
    let t ← peek
    if Binding.ofKind t.kind ≤ level then return .done left
    match continuation? sub left t.kind with
    | some rule => return .again (← rule)
    | none => failToken .noRule t (.entry .cannotFollow [.text t.describe])) left

end Frontend.Parse
