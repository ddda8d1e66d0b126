import Frontend.Instruction.Basic
import Frontend.Symbol.Table
import Frontend.Tree.Print

/-!
# Operands

An operand is what an expression comes to: the word that stands for its value in the code, with what
is known about its type and about the function or class behind it.
-/

namespace Frontend

/-- What sort of word an operand is. -/
inductive OperandKind where
  /-- A variable, a temporary, a function or a class. -/
  | ident
  | literal
  /-- The target of a jump. -/
  | label
  deriving DecidableEq, Repr, Inhabited

/-- How an operand looks in the source text. -/
inductive Surface where
  | word (s : String)
  | node (n : Node)

def Surface.text : Surface → String
  | word s => s
  | node n => n.text

/-- The object that a member was taken from. -/
structure Receiver where
  /-- The object, or the class of a static member. -/
  object : String
  static : Bool
  deriving DecidableEq, Repr, Inhabited

/-- What an expression comes to. -/
structure Operand where
  kind : OperandKind := .ident
  surface : Surface
  /-- The word in the code. -/
  raw : String
  /-- The declared type. -/
  type : Tag
  /-- The type of the present value, where the declared type leaves it open. -/
  value : Tag := .missing
  /-- The function or class that the operand stands for. -/
  meaning : Option SymbolId := none
  receiver : Option Receiver := none

namespace Operand

instance : Inhabited Operand := ⟨{ surface := .word "", raw := "", type := .any }⟩

/-- The type that counts for checks. -/
def effective (o : Operand) : Tag :=
  if o.type.isAny && !o.value.isMissing then o.value else o.type

def isLiteral (o : Operand) : Bool := o.kind == .literal

def literal (raw : String) (type : TypeName) (n : Node) : Operand :=
  { kind := .literal, surface := .node n, raw, type := .ofType type }

def null (n : Node) : Operand := literal Spelling.null .nul n

/-- A temporary that holds the value of a node. -/
def temp (raw : String) (type : Tag) (n : Node) : Operand :=
  { surface := .node n, raw, type := if type.isMissing then .any else type }

def label (raw : String) : Operand :=
  { kind := .label, surface := .word raw, raw, type := .nul }

def ofSymbol (t : SymbolTable) (id : SymbolId) : Operand :=
  let s := t.get id
  let base : Operand := { surface := .word s.name, raw := s.rid, type := .any }
  match s.detail with
  | .function f => { base with type := f.signature, meaning := some id }
  | .cls _ => { base with meaning := some id }
  | .var v | .parameter v _ =>
    { base with
      type := if v.type.isMissing then .any else v.type
      value := v.value
      meaning := v.meaning }
  | .target => base

/-- The function that an operand stands for. -/
def function? (t : SymbolTable) (o : Operand) : Option SymbolId :=
  o.meaning.filter fun id => (t.get id).function?.isSome

/-- The class that an operand stands for. -/
def class? (t : SymbolTable) (o : Operand) : Option SymbolId :=
  o.meaning.filter fun id => (t.get id).class?.isSome

/-- The operand of a literal, or of a number literal behind a minus. -/
def ofLiteral? (n : Node) : Option Operand :=
  match n with
  | .int _ v => some (literal (Spelling.ofInt v) .int n)
  | .float _ v => some (literal (Spelling.ofDouble v) .flt n)
  | .str t => some (literal (Spelling.ofText t.literal) .str n)
  | .bool _ v => some (literal (Spelling.ofBool v) .bool n)
  | .null _ => some (null n)
  | .unary op operand =>
    if op.kind == .op .minus then
      match operand with
      | .int _ v => some (literal (Spelling.ofInt (Decimal.wrapWord (-v))) .int n)
      | .float _ v => some (literal (Spelling.ofDouble v.negate) .flt n)
      | _ => none
    else none
  | _ => none

end Operand

end Frontend
