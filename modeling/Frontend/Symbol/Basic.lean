import Frontend.Symbol.Tag
import Frontend.Tree.Basic

/-!
# Symbols

What a name can stand for: a variable, a parameter, a function, a class or the target of a jump. A
symbol has the name of the source text and a raw id, which is its name in the code. Symbols refer to
each other by their ids in a symbol table.
-/

namespace Frontend

/-- The place of a symbol in its table. -/
abbrev SymbolId := Nat

/-- A variable or a field. -/
structure VariableInfo where
  /-- The declared type; any type when none was declared. -/
  type : Tag := .any
  /-- The type of the value that was stored last, as far as it is known. -/
  value : Tag := .missing
  const : Bool := false
  global : Bool := false
  static : Bool := false
  permission : Permission := .pub
  /-- The class of a field. -/
  owner : Option SymbolId := none
  /-- What a field starts with. -/
  init : Option Node := none
  /-- The function or class that the variable is another name of at present. -/
  meaning : Option SymbolId := none
  deriving Inhabited

/-- The type by which members are looked up: the declared one, or that of the value when any value may
be stored. -/
def VariableInfo.effective (v : VariableInfo) : Tag :=
  if v.type.isAny && !v.value.isMissing then v.value else v.type

/-- A parameter of a function as its callers see it. -/
structure Parameter where
  name : String
  rid : String
  pos : Position := {}
  kind : ParamKind := .positional
  type : Tag := .any
  /-- The default value, which is a literal. -/
  default : Option Node := none
  quote : Bool := false
  deriving Inhabited

/-- Whether every call has to pass the parameter. -/
def ParamKind.isRequired (k : ParamKind) : Bool := k == .positional

/-- How a function came about. -/
inductive FunctionKind where
  | plain | construct | method | anonymous
  deriving DecidableEq, Repr, Inhabited

/-- Whether a function is built in, and then whether it has a value. -/
inductive BuiltinKind where
  | none | void | pure
  deriving DecidableEq, Repr, Inhabited

/-- A function. -/
structure FunctionInfo where
  params : List Parameter := []
  result : Tag := .any
  kind : FunctionKind := .plain
  builtin : BuiltinKind := .none
  owner : Option SymbolId := Option.none
  static : Bool := false
  permission : Permission := .pub
  overwrite : Bool := false
  virtual : Bool := false
  /-- Whether the body has a `return`. -/
  returned : Bool := false
  /-- Whether there is no definition yet. -/
  declared : Bool := false
  deriving Inhabited

namespace FunctionInfo

def signature (f : FunctionInfo) : Tag := Tag.signature (f.params.map (·.type)) f.result

/-- Whether a call has a value. -/
def returnsValue (f : FunctionInfo) : Bool := !f.result.is .nul

def isBuiltin (f : FunctionInfo) : Bool := f.builtin != .none

/-- Whether a call needs an object. -/
def isMethod (f : FunctionInfo) : Bool := f.owner.isSome && !f.static && f.kind != .construct

end FunctionInfo

/-- A class. Members of its instances and static members share one name space; both lists are in the
order of definition. -/
structure ClassInfo where
  base : Option SymbolId := none
  /-- All classes below this one, in the order in which they were hung in. -/
  derived : List SymbolId := []
  constructors : List SymbolId := []
  defaultPermission : Permission := .pub
  finished : Bool := false
  /-- Whether there is no definition yet. -/
  declared : Bool := false
  members : List (String × SymbolId) := []
  statics : List (String × SymbolId) := []
  deriving Inhabited

/-- What kind of thing a symbol is. -/
inductive SymbolDetail where
  | var (v : VariableInfo)
  | parameter (v : VariableInfo) (kind : ParamKind)
  | function (f : FunctionInfo)
  | cls (c : ClassInfo)
  /-- The target of a jump. -/
  | target
  deriving Inhabited

/-- The word for a kind of symbol. -/
def SymbolDetail.text : SymbolDetail → String
  | .var _ => "variable"
  | .parameter .. => "parameter"
  | .function _ => "function"
  | .cls _ => "class"
  | .target => "label"

/-- A symbol. Its level is that of the scope it was entered in; 0 is the global scope. -/
structure Symbol where
  name : String
  rid : String
  pos : Position := {}
  level : Nat := 0
  detail : SymbolDetail
  deriving Inhabited

namespace Symbol

/-- The variable part of a variable or parameter. -/
def var? (s : Symbol) : Option VariableInfo :=
  match s.detail with
  | .var v | .parameter v _ => some v
  | _ => none

def function? (s : Symbol) : Option FunctionInfo :=
  match s.detail with
  | .function f => some f
  | _ => none

def class? (s : Symbol) : Option ClassInfo :=
  match s.detail with
  | .cls c => some c
  | _ => none

/-- Changes the variable part of a variable or parameter. -/
def mapVariable (f : VariableInfo → VariableInfo) (s : Symbol) : Symbol :=
  match s.detail with
  | .var v => { s with detail := .var (f v) }
  | .parameter v k => { s with detail := .parameter (f v) k }
  | _ => s

/-- Changes the function part of a function. -/
def mapFunction (f : FunctionInfo → FunctionInfo) (s : Symbol) : Symbol :=
  match s.detail with
  | .function g => { s with detail := .function (f g) }
  | _ => s

/-- Changes the class part of a class. -/
def mapClass (f : ClassInfo → ClassInfo) (s : Symbol) : Symbol :=
  match s.detail with
  | .cls c => { s with detail := .cls (f c) }
  | _ => s

/-- The permission of a symbol as a member of a class. -/
def permission (s : Symbol) : Permission :=
  match s.detail with
  | .var v => v.permission
  | .function f => f.permission
  | _ => .pub

end Symbol

end Frontend
