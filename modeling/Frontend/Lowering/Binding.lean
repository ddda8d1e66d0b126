import Frontend.Lowering.State

/-!
# Binding of arguments

Arguments are bound to parameters in three steps: positional arguments in order, then arguments passed
by name, then what is left over to the collecting parameters. Every parameter without a default must be
bound, nothing may be left over, and every bound value must fit the type of its parameter. Binding only
plans the call; no code is written.
-/

namespace Frontend

/-- An argument of a call with its value. The name is empty for a positional argument. -/
structure Argument where
  name : String
  value : Operand
  node : Node

/-- A parameter with what is bound to it: one argument, or several if it collects. -/
structure Binding where
  param : Parameter
  value : Option Argument := none
  rest : List Argument := []

namespace Binding

/-- Whether a parameter takes a single argument. -/
def isOrdinary (k : ParamKind) : Bool := k == .positional || k == .keyword

/-- Binds positional arguments in order; the arguments that are left over come second. -/
def positional : List Parameter → List Argument → List Binding × List Argument
  | [], args => ([], args)
  | p :: ps, args =>
    match p.kind, args with
    | .restPositional, args =>
      let (bs, left) := positional ps []
      ({ param := p, rest := args } :: bs, left)
    | .restKeyword, args =>
      let (bs, left) := positional ps args
      ({ param := p } :: bs, left)
    | _, [] =>
      let (bs, left) := positional ps []
      ({ param := p } :: bs, left)
    | _, a :: args =>
      let (bs, left) := positional ps args
      ({ param := p, value := some a } :: bs, left)

/-- Whether an argument passed by a name is meant for a parameter. -/
def isNamed (name : String) (b : Binding) : Bool :=
  b.param.name == name && isOrdinary b.param.kind

/-- Changes the first binding that a test accepts. -/
def changeFirst (p : Binding → Bool) (f : Binding → Binding) : List Binding → List Binding
  | [] => []
  | b :: bs => if p b then f b :: bs else b :: changeFirst p f bs

/-- Changes the last binding that a test accepts. -/
def changeLast (p : Binding → Bool) (f : Binding → Binding) (bs : List Binding) : List Binding :=
  (changeFirst p f bs.reverse).reverse

/-- Whether a parameter collects arguments passed by name. -/
def collectsNamed (b : Binding) : Bool := b.param.kind == .restKeyword

/-- Binds arguments passed by name to the parameters of the function `callee`. -/
def named (callee : String) : List Binding → List Argument → Except Diagnostic (List Binding)
  | bs, [] => .ok bs
  | bs, a :: rest =>
    match bs.find? (isNamed a.name) with
    | some b =>
      if b.value.isSome then
        .error (Complaint.marking a.name (Complaint.argument a.node.pos
          (.entry .duplicateArgument [.text a.name, .text callee])))
      else named callee (changeFirst (isNamed a.name) (fun b => { b with value := some a }) bs) rest
    | none =>
      if bs.any collectsNamed then
        named callee (changeLast collectsNamed (fun b => { b with rest := b.rest ++ [a] }) bs) rest
      else
        .error (Complaint.marking a.name (Complaint.argument a.node.pos
          (.entry .unknownKeyword [.text callee, .text a.name])))

/-- What is wrong with one binding of a call at `pos`. -/
def fault? (t : SymbolTable) (callee : String) (pos : Position) (b : Binding) : Option Diagnostic :=
  let p := b.param
  match b.value with
  | none =>
    if p.kind.isRequired then
      some (((Complaint.argument pos
        (.entry .missingArgument [.text p.name, .text callee])).withInfo
        [Complaint.declaredAt p.name p.pos]).withHint [.entry .hintPassArgument [.text p.name]])
    else none
  | some a =>
    if t.assignable p.type a.value.effective then none
    else some (((Complaint.mismatch a.node.pos p.type a.value.effective).withSpan
      (Complaint.width a.node)).withInfo [Complaint.declaredAt p.name p.pos])

/-- Binds the arguments of a call at `pos` to the parameters of the function `callee`. -/
def plan (t : SymbolTable) (callee : String) (params : List Parameter) (args : List Argument)
    (pos : Position) : Except Diagnostic (List Binding) := do
  let given := args.filter (·.name.isEmpty)
  let (bindings, left) := positional params given
  if let a :: _ := left then
    let room : Nat := (params.filter fun p => isOrdinary p.kind).length
    throw ((Complaint.argument a.node.pos
      (.entry .tooManyArguments [.text callee, .number room, .number given.length])).withSpan
      (Complaint.width a.node))
  let bindings ← named callee bindings (args.filter fun a => !a.name.isEmpty)
  match bindings.findSome? (fault? t callee pos) with
  | some d => throw d
  | none => return bindings

end Binding

namespace FunctionInfo

/-- The head of a function in words. -/
def describe (name : String) (f : FunctionInfo) : String :=
  let param := fun (p : Parameter) =>
    (match p.kind with
      | .restPositional => "*"
      | .restKeyword => "**"
      | _ => "") ++ p.name ++ ": " ++ p.type.text
  name ++ "(" ++ Text.joinWith ", " (f.params.map param) ++ ")"

end FunctionInfo

end Frontend
