import Frontend.Parse.State

/-!
# Labels

The labels behind a colon: a label word or a class name first, then label words. The function types
may be followed by groups of labels in square brackets.
-/

namespace Frontend

namespace Parse

/-- Whether a token can be a label inside a group, or the first label of a list. -/
def startsLabel (k : TokenKind) : Bool := k.isLabel || k == .ident

/-- Whether a label word may have groups. -/
def takesGroups (k : TokenKind) : Bool :=
  k == .label (.type .func) || k == .label (.type .funi)

mutual
def label : Nat → Parse Label
  | 0 => fail
  | fuel + 1 => do groups fuel (← advance) []

/-- The groups behind a label word, after those already read. -/
def groups : Nat → Token → List (List Label) → Parse Label
  | 0, _, _ => fail
  | fuel + 1, word, done => do
    if !(← check (.opening .square)) then return .mk word done.reverse
    if !takesGroups word.kind then
      failToken .general word (.entry .invalidDescriptor [.text word.literal])
    else
      let opener ← advance
      let group ← members fuel opener []
      let _ ← advance
      groups fuel word (group :: done)

/-- The labels of a group up to its closing bracket, after those already read. -/
def members : Nat → Token → List Label → Parse (List Label)
  | 0, _, _ => fail
  | fuel + 1, opener, done => do
    let t ← peek
    if t.kind == .closing .square then return done.reverse
    if !startsLabel t.kind then
      if t.kind == .eof || t.kind == .newline then
        failToken .unclosed t
          (.entry .unclosedExpression [.text "[", .text opener.pos.text, .text t.describe])
      else failToken .unexpectedToken t (.entry .expectedLabel [.text t.describe])
    else
      let inner ← label fuel
      if !(← accept .comma) && !(← check (.closing .square)) then
        failUnexpected (← peek) "',' or ']'"
      else members fuel opener (inner :: done)
end

/-- A bound on the steps that reading labels takes. -/
def labelFuel : Parse Nat := ask fun s => 3 * s.rest.length + 3

/-- The labels behind a colon. -/
def labels : Parse (List Label) := do
  let first ← peek
  if !startsLabel first.kind then
    failToken .unexpectedToken first (.entry .expectedLabel [.text first.describe])
  else
    repeatWhile (fun done => do
      let l ← label (← labelFuel)
      if (← peekKind).isLabel then return .again (l :: done)
      else return .done (l :: done).reverse) []

end Parse

/-! ## Bracketed groups

What stands between brackets is a sequence of items separated by line breaks. A single item stands for
itself, several items form a block. Every rule here takes the rule `sub` for nested expressions, which
knows how deep it may still go. -/

/-! How tightly an operator binds: a greater level binds more tightly. -/

namespace Binding

def lowest : Nat := 1
def parallel : Nat := 2
def assign : Nat := 3
def pair : Nat := 4
def arrow : Nat := 5
def or : Nat := 6
def and : Nat := 7
def equality : Nat := 8
def comparison : Nat := 9
def sum : Nat := 10
def product : Nat := 11
def unary : Nat := 12
def call : Nat := 13

/-- The level of an operator behind its left operand. -/
def ofOperator : Operator → Nat
  | .assign | .plusAssign | .minusAssign | .starAssign | .slashAssign | .percentAssign => assign
  | .colon => pair
  | .arrow => arrow
  | .or => or
  | .and => and
  | .eq | .ne => equality
  | .lt | .le | .gt | .ge => comparison
  | .plus | .minus => sum
  | .star | .slash | .percent | .power => product
  | .dot => call
  | .increment | .decrement | .not => lowest

/-- The level of a token behind a left operand. Tokens that continue nothing have the lowest level. -/
def ofKind : TokenKind → Nat
  | .op o => ofOperator o
  | .comma => parallel
  | .opening .paren | .opening .square => call
  | _ => lowest

end Binding

/-- A bracketed group: its brackets and what it holds. -/
structure Group where
  opener : Token
  closer : Token
  bracket : Bracket
  body : Option Node

namespace Group

def items (g : Group) : List Node := Node.itemsOf g.body

def node (g : Group) : Node := .group g.opener g.closer g.bracket g.body

def toBlock (g : Group) : Block := .mk g.opener g.closer g.items

/-- Whether the group holds several items separated by line breaks, or a block. -/
def holdsBlock (g : Group) : Bool :=
  match g.body with
  | some (.block _) => true
  | _ => false

/-- Whether the group holds expressions separated by commas. -/
def holdsParallel (g : Group) : Bool :=
  match g.body with
  | some (.parallel _) => true
  | _ => false

/-- Puts items between brackets. -/
def ofItems (opener closer : Token) (bracket : Bracket) (items : List Node) : Group :=
  { opener, closer, bracket
    body := match items with
      | [] => none
      | [n] => some n
      | _ => some (.block (.mk opener closer items)) }

end Group

namespace Parse

/-- The rules for what is nested in something else. -/
structure Nested where
  /-- An expression above a binding level. -/
  expression : Nat → Parse Node
  /-- What is done behind a faulty item of a group. -/
  recover : Bracket → Parse Unit

instance : CoeFun Nested fun _ => Nat → Parse Node := ⟨Nested.expression⟩

/-- A rule that may have no result without failing. -/
def attempt (p : Parse α) : Parse (Option α) := fun s =>
  let (r, t) := p s
  (some r, t)

/-- Reads the items of a group, after those already read, up to its closing bracket. -/
def groupItems (sub : Nested) (bracket : Bracket) : Parse (List Node) :=
  repeatWhile (fun (done : List Node) => do
    skipNewlines
    let closes ← check (.closing bracket)
    if closes || (← ask fun s => s.atEnd || s.stopped) then return .done done.reverse
    calm
    match ← attempt (sub Binding.lowest) with
    | none =>
      sub.recover bracket
      return .again done
    | some item =>
      let done := item :: done
      let k ← peekKind
      if k == .newline || k == .closing bracket then return .again done
      else if k == .eof || k.isClosing then return .done done.reverse
      else
        reportUnexpected (← peek) ("newline or '" ++ bracket.closer.toString ++ "'")
        sub.recover bracket
        return .again done) []

/-- The rest of a group behind its opening bracket. -/
def groupBody (sub : Nested) (opener : Token) (bracket : Bracket) : Parse Group := do
  let items ← groupItems sub bracket
  let t ← peek
  if t.kind == .closing bracket then
    return Group.ofItems opener (← advance) bracket items
  else
    failToken .unclosed t
      (.entry .unclosedExpression
        [.text opener.literal, .text opener.pos.text, .text t.describe])

/-- A group from its opening bracket on. Inside, items do not belong to a class body. -/
def group (sub : Nested) (bracket : Bracket) : Parse Group := do
  let opener ← advance
  inBrackets false (groupBody sub opener bracket)

def block (sub : Nested) : Parse Block := do
  let t ← peek
  if t.kind == .opening .brace then return (← group sub .brace).toBlock
  else failToken .unexpectedToken t (.entry .expectedBlock [.text t.describe])

end Parse

end Frontend
