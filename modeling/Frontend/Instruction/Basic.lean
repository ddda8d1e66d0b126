import Frontend.Token.Kind
import Frontend.Decimal
import Frontend.Text.Quoted

/-!
# Opcodes

The operations of RA code, the line-based code that programs are lowered to. Every operation has a
name and a number.
-/

namespace Frontend

/-- The operations of RA code. -/
inductive Opcode where
  /-- No operation of the code. -/
  | invalid
  /-- Opens a function without a result: its id and its parameters. -/
  | func
  /-- Opens a function with a result. -/
  | funi
  /-- Closes the innermost open function or loop. -/
  | finish
  /-- Leaves the function, perhaps with a value. -/
  | ret
  /-- Defines a class, perhaps with its base. -/
  | defineType
  /-- Adds a field to the instances of a class. -/
  | addField
  /-- Adds a field to a class. -/
  | addStaticField
  /-- Makes an instance of a class. -/
  | newInstance
  /-- Makes room for a variable. -/
  | allot
  /-- Stores a literal. -/
  | put
  /-- Copies a value. -/
  | copy
  /-- Places a label. -/
  | set
  /-- Jumps. -/
  | jump
  /-- Jumps if a value is true. -/
  | jumpIfTrue
  /-- Jumps if a value is false. -/
  | jumpIfFalse
  /-- Opens a loop: the label of its test and the label of its end. -/
  | untilLoop
  /-- Leaves the innermost loop. -/
  | exitLoop
  | add
  | mul
  | div
  | mod
  | negate
  | not
  | compare
  | relate
  | append
  | getItem
  | size
  | setItem
  | keys
  | values
  | deleteKey
  | getField
  | setField
  | call
  | invoke
  | output
  | input
  | cast
  | typeOf
  deriving DecidableEq, Repr, Inhabited

namespace Opcode

def name : Opcode → String
  | invalid => "UNKNOWN(0)"
  | func => "FUNC"
  | funi => "FUNI"
  | finish => "END"
  | ret => "RET"
  | defineType => "TP_DEF"
  | addField => "TP_ADD_INST_FIELD"
  | addStaticField => "TP_ADD_TP_FIELD"
  | newInstance => "TP_NEW"
  | allot => "ALLOT"
  | put => "PUT"
  | copy => "COPY"
  | set => "SET"
  | jump => "JMP"
  | jumpIfTrue => "JT"
  | jumpIfFalse => "JF"
  | untilLoop => "UNTIL"
  | exitLoop => "EXIT"
  | add => "ADD"
  | mul => "MUL"
  | div => "DIV"
  | mod => "MOD"
  | negate => "OPP"
  | not => "NOT"
  | compare => "CMP"
  | relate => "CREL"
  | append => "ITER_APND"
  | getItem => "ITER_GET"
  | size => "ITER_SIZE"
  | setItem => "PAIR_SET"
  | keys => "DICT_KEYS"
  | values => "DICT_VALUES"
  | deleteKey => "DICT_DEL"
  | getField => "TP_GET_FIELD"
  | setField => "TP_SET_FIELD"
  | call => "CALL"
  | invoke => "IVOK"
  | output => "SOUT"
  | input => "SIN"
  | cast => "CAST"
  | typeOf => "TYPE_OF"

/-- All operations in the order of their numbers, from 1 on. -/
def all : List Opcode := [
  .func, .funi, .finish, .ret, .defineType, .addField, .addStaticField, .newInstance, .allot,
  .put, .copy, .set, .jump, .jumpIfTrue, .jumpIfFalse, .untilLoop, .exitLoop, .add, .mul, .div,
  .mod, .negate, .not, .compare, .relate, .append, .getItem, .size, .setItem, .keys, .values,
  .deleteKey, .getField, .setField, .call, .invoke, .output, .input, .cast, .typeOf]

/-- The number of an operation. -/
def code (op : Opcode) : Nat :=
  match all.idxOf? op with
  | some i => i + 1
  | none => 0

/-- The name of the operation with a number. -/
def nameOfCode (n : Nat) : String :=
  match if n = 0 then none else all[n - 1]? with
  | some op => op.name
  | none => "UNKNOWN(" ++ Text.ofNat n ++ ")"

def ofName? (s : String) : Option Opcode := all.find? (·.name == s)

/-- Whether an operation opens a frame that `END` closes. -/
def opensFrame : Opcode → Bool
  | func | funi | untilLoop => true
  | _ => false

end Opcode

/-- The relations that a comparison is tested for. -/
inductive Relation where
  | eq | ne | gt | ge | lt | le | and | or
  deriving DecidableEq, Repr, Inhabited

namespace Relation

def name : Relation → String
  | eq => "EQ" | ne => "NE" | gt => "GT" | ge => "GE" | lt => "LT" | le => "LE"
  | and => "AND" | or => "OR"

def ofOperator? : Operator → Option Relation
  | .eq => some .eq
  | .ne => some .ne
  | .gt => some .gt
  | .ge => some .ge
  | .lt => some .lt
  | .le => some .le
  | .and => some .and
  | .or => some .or
  | _ => none

end Relation

/-! ## Instructions and code

An instruction is an operation with operands and takes one line of text, `OP: a, b`. Code is a
sequence of instructions, annotations, and passages of text that were made elsewhere. -/

/-- One instruction. -/
structure Instruction where
  op : Opcode
  args : List String := []
  deriving DecidableEq, Repr, Inhabited

namespace Instruction

def render (i : Instruction) : String :=
  if i.args.isEmpty then i.op.name else i.op.name ++ ": " ++ Text.joinWith ", " i.args

end Instruction

/-- One item of code. -/
inductive CodeItem where
  | instr (i : Instruction)
  /-- A line that means nothing to the machine. -/
  | note (text : String)
  /-- A passage that is taken over as it is. -/
  | passage (text : String)
  deriving DecidableEq, Repr, Inhabited

/-- A sequence of code items. -/
abbrev Code := List CodeItem

namespace CodeItem

/-- The line of an annotation: line breaks in its text become spaces. -/
def noteLine (text : String) : String := "; " ++ Text.replaceChar '\n' " " text

/-- The text of an item; it ends with a line break unless it is empty. -/
def render : CodeItem → String
  | instr i => i.render ++ "\n"
  | note text => noteLine text ++ "\n"
  | passage text =>
    if text.isEmpty then "" else if text.toList.getLast? == some '\n' then text else text ++ "\n"

end CodeItem

def Code.render (code : Code) : String := String.join (code.map CodeItem.render)

/-! ## Code buffers

Code is written into the innermost of a stack of buffers. Opening a buffer starts a passage that is
kept apart; closing it gives the passage back, to be placed wherever it belongs. -/

/-- Buffers of code. In every buffer the last item stands first. -/
structure CodeBuffer where
  annotate : Bool := false
  root : List CodeItem := []
  /-- The open buffers above the root, innermost first. -/
  inner : List (List CodeItem) := []
  deriving Repr, Inhabited

namespace CodeBuffer

/-- How many buffers are open above the root. -/
def depth (b : CodeBuffer) : Nat := b.inner.length

/-- Adds an item to the innermost buffer. -/
def push (b : CodeBuffer) (item : CodeItem) : CodeBuffer :=
  match b.inner with
  | [] => { b with root := item :: b.root }
  | top :: rest => { b with inner := (item :: top) :: rest }

def emit (b : CodeBuffer) (op : Opcode) (args : List String) : CodeBuffer :=
  b.push (.instr { op, args })

/-- Adds an annotation if annotations are wanted. -/
def note (b : CodeBuffer) (text : String) : CodeBuffer :=
  if b.annotate then b.push (.note text) else b

/-- Adds a passage made elsewhere. -/
def passage (b : CodeBuffer) (text : String) : CodeBuffer :=
  if text.isEmpty then b else b.push (.passage text)

/-- Adds a sequence of items. -/
def append (b : CodeBuffer) (code : Code) : CodeBuffer := code.foldl push b

def enter (b : CodeBuffer) : CodeBuffer := { b with inner := [] :: b.inner }

/-- Closes the innermost buffer and gives its code back; the root cannot be closed. -/
def exit? (b : CodeBuffer) : Option (Code × CodeBuffer) :=
  match b.inner with
  | [] => none
  | top :: rest => some (top.reverse, { b with inner := rest })

/-- Closes buffers down to a depth. -/
def dropTo (b : CodeBuffer) (depth : Nat) : CodeBuffer :=
  { b with inner := b.inner.drop (b.depth - depth) }

/-- Ends a passage that was opened at a depth: buffers left open above it are closed as well. -/
def leave? (b : CodeBuffer) (depth : Nat) : Option (Code × CodeBuffer) := (b.dropTo (depth + 1)).exit?

def code (b : CodeBuffer) : Code := b.root.reverse

/-- Forgets everything. -/
def reset (b : CodeBuffer) : CodeBuffer := { b with root := [], inner := [] }

end CodeBuffer

/-! ## Spelling of operands

How literal values are written in RA code. -/

namespace Spelling

/-- The operand for no value. -/
def null : String := "null"

def emptyList : String := "[]"

def emptyDict : String := "\x7b\x7d"

/-- A whole number. -/
def ofInt (n : Int) : String := Text.ofInt n

/-- A double: always recognisable by a point, an exponent or a name. -/
def ofDouble (v : Binary64) : String :=
  let s := Decimal.ofDouble v
  if s.toList.any (fun c => c == '.' || c == 'e' || c == 'E' || c == 'n') then s else s ++ ".0"

/-- A text between double quotes. -/
def ofText (s : String) : String := Text.quote s

/-- A truth value. -/
def ofBool (b : Bool) : String := Text.ofBool b

end Spelling

end Frontend
