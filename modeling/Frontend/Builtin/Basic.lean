import Frontend.Diagnostic.Basic
import Frontend.Instruction.Basic
import Frontend.Supply

/-!
# Built-in functions

A built-in function has no code of its own: each call is replaced by what its generator gives. A
registry says which built-in functions there are.
-/

namespace Frontend

/-- An argument of a built-in call. The name is empty for a positional argument. -/
structure BuiltinArg where
  name : String := ""
  raw : String
  type : String
  literal : Bool := false
  /-- The argument as it stands in the source text. -/
  written : String
  deriving DecidableEq, Repr, Inhabited

/-- A call of a built-in function. -/
structure BuiltinCall where
  name : String
  /-- The arguments as they were written, in order. -/
  args : List BuiltinArg := []
  /-- Where the value goes; empty when there is none. -/
  result : String := ""
  pos : Position := {}
  deriving Repr, Inhabited

namespace BuiltinCall

def positional (c : BuiltinCall) : List BuiltinArg := c.args.filter (·.name.isEmpty)

/-- The operands of the positional arguments. -/
def raws (c : BuiltinCall) : List String := c.positional.map (·.raw)

/-- Whether an argument was passed by a name. -/
def hasKeyword (c : BuiltinCall) (name : String) : Bool :=
  !name.isEmpty && c.args.any (·.name == name)

end BuiltinCall

/-- The code for a call. -/
inductive Emission where
  | instructions (is : List Instruction)
  /-- Text from elsewhere, taken over as it is. -/
  | verbatim (text : String)
  deriving Repr, Inhabited

namespace Emission

def text : Emission → String
  | instructions is => Code.render (is.map .instr)
  | verbatim text => text

/-- The items that the code adds to a buffer; a text without content adds none. -/
def items : Emission → Code
  | instructions is => is.map .instr
  | verbatim text => if text.isEmpty then [] else [.passage text]

end Emission

/-- Why a generator refuses a call. -/
inductive Refusal where
  | diagnostic (d : Diagnostic)
  | plain (message : Phrase)
  deriving Inhabited

/-- The words for a refused call. -/
def Refusal.text (lang : Language) : Refusal → String
  | diagnostic d => d.text lang
  | plain message => message.render lang

/-- Makes the code for a call. A generator may take temporaries from the supply. -/
def Generator : Type := BuiltinCall → Supply → Except Refusal Emission × Supply

/-- A built-in function. The bounds count positional arguments; without an upper bound any number may
be passed. -/
structure Builtin where
  name : String
  /-- Whether a call has a value. -/
  pure : Bool := false
  minArgs : Int := 0
  maxArgs : Option Int := some 0
  /-- The name of the type of the value. -/
  result : String := ""
  /-- The names that arguments may be passed by. -/
  keywords : List String := []
  generator : Option Generator

namespace Builtin

/-- The keyword that stands for every keyword. -/
def anyKeyword : String := "*"

/-- How many arguments are wanted, in words. -/
def usage (e : Builtin) : String :=
  match e.maxArgs with
  | none => "at least " ++ Text.ofInt e.minArgs ++ " argument(s)"
  | some most =>
    if e.minArgs = most then Text.ofInt e.minArgs ++ " argument(s)"
    else Text.ofInt e.minArgs ++ " to " ++ Text.ofInt most ++ " arguments"

/-- Whether a number of arguments is right. -/
def accepts (e : Builtin) (n : Int) : Bool :=
  e.minArgs ≤ n && match e.maxArgs with
    | none => true
    | some most => n ≤ most

/-- Whether an argument may be passed by a name. -/
def acceptsKeyword (e : Builtin) (name : String) : Bool :=
  e.keywords.any fun k => k == name || k == anyKeyword

def generate (e : Builtin) : Generator := fun call supply =>
  match e.generator with
  | some g => g call supply
  | none => (.ok (.verbatim ""), supply)

end Builtin

/-- The built-in functions that there are. -/
structure Registry where
  entries : List Builtin := []
  deriving Inhabited

/-- Why a registry refuses a function. -/
inductive RegistryError where
  | incomplete (name : String)
  | taken (name : String)
  deriving DecidableEq, Repr

/-- The words for a refused function. -/
def RegistryError.text : RegistryError → String
  | incomplete name => "builtin: incomplete entry " ++ Text.quote name
  | taken name => "builtin: " ++ Text.quote name ++ " is already registered"

namespace Registry

def find? (r : Registry) (name : String) : Option Builtin := r.entries.find? (·.name == name)

/-- Adds a function. -/
def register (r : Registry) (e : Builtin) : Except RegistryError Registry :=
  if e.name.isEmpty || e.generator.isNone then .error (.incomplete e.name)
  else if (r.find? e.name).isSome then .error (.taken e.name)
  else .ok { r with entries := r.entries ++ [e] }

/-- All names in alphabetical order. -/
def names (r : Registry) : List String :=
  (r.entries.map (·.name)).mergeSort (fun a b => decide (a ≤ b))

end Registry

/-! ## The standard built-in functions

Input and output, containers, and conversions. Each call becomes one instruction. -/

namespace Builtin

/-- A generator that makes one instruction from the operands of a call. -/
def single (op : Opcode) (args : BuiltinCall → List String) : Generator := fun call supply =>
  (.ok (.instructions [{ op, args := args call }]), supply)

def firstRaw (call : BuiltinCall) : String := call.raws.headD ""

/-- An instruction on the operands alone. -/
def onArgs (op : Opcode) : Generator := single op (·.raws)

/-- An instruction that makes a value from one operand. -/
def onFirst (op : Opcode) : Generator := single op fun call => [firstRaw call, call.result]

def toType (type : TypeName) : Generator :=
  single .cast fun call => [firstRaw call, type.text, call.result]

/-- A function of one argument with a value. -/
def ofOne (name : String) (result : TypeName) (generator : Generator) : Builtin :=
  { name, pure := true, minArgs := 1, maxArgs := some 1, result := result.text,
    generator := some generator }

/-- A function of two arguments without a value. -/
def onTwo (name : String) (op : Opcode) : Builtin :=
  { name, minArgs := 2, maxArgs := some 2, generator := some (onArgs op) }

/-- The standard built-in functions. -/
def standard : List Builtin := [
  { name := "sout", maxArgs := none, generator := some (onArgs .output) },
  { name := "sin", pure := true, result := TypeName.str.text,
    generator := some (single .input fun call => [call.result]) },
  ofOne "len" .int (onFirst .size),
  onTwo "append" .append,
  ofOne "keys" .list (onFirst .keys),
  ofOne "values" .list (onFirst .values),
  onTwo "del" .deleteKey,
  ofOne "tostr" .str (toType .str),
  ofOne "toint" .int (toType .int),
  ofOne "toflt" .flt (toType .flt),
  ofOne "tobool" .bool (toType .bool),
  ofOne "typeof" .str (onFirst .typeOf)]

end Builtin

/-- The registry of the standard built-in functions. -/
def Registry.standard : Registry := { entries := Builtin.standard }

end Frontend
