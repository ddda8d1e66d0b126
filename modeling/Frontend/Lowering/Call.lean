import Frontend.Lowering.Binding

/-!
# Calls

A call of a class makes an instance; a call of a known function binds its arguments by the parameters;
a call of a built-in function is left to its generator; a call of any other value passes positional
arguments on.
-/

namespace Frontend.Lower

def argument (visit : Visit) (n : Node) : Lower Argument := do
  match n with
  | .argument name value => return { name := name.name, value := ← eval visit value, node := n }
  | _ => return { name := "", value := ← eval visit n, node := n }

/-- Writes the code for a binding and gives the word that is passed. -/
def emitBinding (b : Binding) : Lower String := do
  match b.param.kind with
  | .restPositional =>
    let list ← freshTemp
    emit .put [Spelling.emptyList, list]
    forAll (fun a => emit .append [list, a.value.raw]) b.rest
    return list
  | .restKeyword =>
    let dict ← freshTemp
    emit .put [Spelling.emptyDict, dict]
    forAll (fun a => emit .setItem [dict, Spelling.ofText a.name, a.value.raw]) b.rest
    return dict
  | _ =>
    match b.value with
    | some a => return a.value.raw
    | none => return ((b.param.default.bind Operand.ofLiteral?).map (·.raw)).getD ""

/-- The place of a call and the text of what is called. -/
structure CallSite where
  callee : Node
  node : Node

namespace CallSite

def pos (site : CallSite) : Position := site.callee.pos

/-- The number of bytes of what is called. -/
def calleeWidth (site : CallSite) : Int := Complaint.width site.callee

end CallSite

/-- A line for a constructor that does not fit. -/
def candidateLine (name : String) (f : FunctionInfo) (d : Diagnostic) : Phrase :=
  .entry .candidate [.text (f.describe name), d.message]

/-- The first constructor that the arguments fit, with its bindings, or why each one does not fit. -/
def chooseConstructor (t : SymbolTable) (args : List Argument) (pos : Position) :
    List SymbolId → Except (List Phrase) (SymbolId × List Binding)
  | [] => .error []
  | id :: rest =>
    let s := t.get id
    let f := s.function?.getD {}
    match Binding.plan t s.name f.params args pos with
    | .ok bindings => .ok (id, bindings)
    | .error d =>
      match chooseConstructor t args pos rest with
      | .ok found => .ok found
      | .error lines => .error (candidateLine s.name f d :: lines)

/-- Makes an instance of a class. -/
def construct (cls : SymbolId) (args : List Argument) (site : CallSite) : Lower Unit := do
  let t ← table
  let c := t.get cls
  let info := t.classInfo cls
  if info.declared then
    fail (((Complaint.semantic site.pos (.entry .declaredNotDefined [.text c.name])).withSpan
      site.calleeWidth).withHint [.entry .hintDefineClass [.text c.name]])
  match chooseConstructor t args site.pos info.constructors with
  | .error lines =>
    fail (((Diagnostic.mkAt .argument Code.noConstructor site.pos
      (.entry .noMatchingConstructor [.text c.name])).withSpan site.calleeWidth).withInfo lines)
  | .ok (id, bindings) =>
    let s := t.get id
    let asserted := t.assertedPermission (← currentClass) (some cls)
    if !asserted.allows s.permission then
      fail (((Diagnostic.mkAt .semantic Code.permission site.pos (.entry .permissionDenied
        [.text s.name, .text c.name, .text s.permission.text])).withSpan
        site.calleeWidth).withHint [.entry .hintMakePublic [.text c.name]])
    let object ← freshTemp
    emit .newInstance [c.rid, object]
    let raws ← collect emitBinding bindings
    emit .call (s.rid :: object :: raws)
    push (.temp object (.ofClass c.name c.rid) site.node)

/-- Calls a known function. A method gets its object as the first argument. -/
def callFunction (id : SymbolId) (callee : Operand) (args : List Argument) (site : CallSite) :
    Lower Unit := do
  let t ← table
  let s := t.get id
  let f := s.function?.getD {}
  let bindings ← ofExcept (Binding.plan t s.name f.params args site.pos)
  let receiver ←
    if f.isMethod then
      match callee.receiver.filter (!·.static) with
      | some r => pure [r.object]
      | none =>
        let owner := (f.owner.map fun o => (t.get o).name).getD ""
        fail ((Complaint.semantic site.pos
          (.entry .staticAccess [.text s.name, .text owner])).withSpan site.calleeWidth)
    else pure []
  let bound ← collect emitBinding bindings
  let raws := receiver ++ bound
  if f.returnsValue then
    let result ← freshTemp
    emit .invoke (callee.raw :: raws ++ [result])
    push (.temp result f.result site.node)
  else
    emit .call (callee.raw :: raws)
    push (.null site.node)

/-- What is wrong with the arguments for a function type that describes its parameters. -/
def describedFault? (t : SymbolTable) (callee : Operand) (params : List Tag) (args : List Argument)
    (site : CallSite) : Option Diagnostic :=
  let surface := callee.surface.text
  let whole := fun (message : Phrase) =>
    (Complaint.argument site.pos message).withSpan (Complaint.width site.node)
  if params.length < args.length then
    some (whole (.entry .tooManyArguments
      [.text surface, .number params.length, .number args.length]))
  else if args.length < params.length then
    some (whole (.entry .missingArgument
      [.text ("#" ++ Text.ofNat (args.length + 1)), .text surface]))
  else (params.zip args).findSome? fun (p, a) =>
    if t.assignable p a.value.effective then none
    else some ((Complaint.mismatch a.node.pos p a.value.effective).withSpan
      (Complaint.width a.node))

/-- Calls a value of which no more than its type is known. -/
def callIndirect (callee : Operand) (type : Tag) (args : List Argument) (site : CallSite) :
    Lower Unit := do
  if let some a := args.find? (!·.name.isEmpty) then
    fail (Complaint.marking a.name (Complaint.argument a.node.pos
      (.entry .unknownKeyword [.text callee.surface.text, .text a.name])))
  if type.isFunction && !type.groups.isEmpty then
    refuse (describedFault? (← table) callee type.params args site)
  let raws := args.map (·.value.raw)
  if type.is .func then
    emit .call (callee.raw :: raws)
    push (.null site.node)
  else
    let result ← freshTemp
    emit .invoke (callee.raw :: raws ++ [result])
    push (.temp result type.result site.node)

/-- The arguments of a call of a built-in function, in order. -/
def builtinArgs (entry : Builtin) : List BuiltinArg → List Argument →
    Except Diagnostic (List BuiltinArg)
  | done, [] => .ok done.reverse
  | done, a :: rest =>
    let named := fun (message : Phrase) =>
      Complaint.marking a.name (Complaint.argument a.node.pos message)
    if !a.name.isEmpty && !entry.acceptsKeyword a.name then
      .error (named (.entry .unknownKeyword [.text entry.name, .text a.name]))
    else if !a.name.isEmpty && done.any (·.name == a.name) then
      .error (named (.entry .duplicateArgument [.text a.name, .text entry.name]))
    else
      let written := match a.node with
        | .argument _ value => value.text
        | n => n.text
      builtinArgs entry ({
        name := a.name, raw := a.value.raw, type := a.value.effective.text
        literal := a.value.isLiteral, written } :: done) rest

/-- Runs a generator. -/
def generate (entry : Builtin) (call : BuiltinCall) : Lower (Except Refusal Emission) := fun s =>
  let (r, supply) := entry.generate call s.session.supply
  (.ok r, { s with session := { s.session with supply } })

/-- Calls a built-in function. -/
def callBuiltin (id : SymbolId) (args : List Argument) (site : CallSite) : Lower Unit := do
  let s ← symbol id
  let f := s.function?.getD {}
  match (← ask (·.session.builtins)).find? s.name with
  | none => fail (.mkAt .symbolNotFound Code.symbolNotFound site.pos
      (.entry .symbolNotFound [.text s.name]))
  | some entry =>
    let given ← ofExcept (builtinArgs entry [] args)
    let call : BuiltinCall := { name := s.name, args := given, pos := site.pos }
    if !entry.accepts call.positional.length then
      fail ((Complaint.argument site.pos
        (.entry .builtinArguments [.text s.name, .text entry.usage])).withSpan
        (Complaint.width site.node))
    let result ← if entry.pure then freshTemp else pure ""
    let broken := fun (message : Phrase) =>
      Complaint.marking s.name (.mkAt .extension Code.extensionCall site.pos message)
    match ← generate entry { call with result } with
    | .error (.diagnostic d) => fail d
    | .error (.plain message) => fail (broken message)
    | .ok emission =>
      if (Text.trim emission.text).isEmpty then fail (broken (.entry .extensionCall [.text s.name]))
      change fun s => { s with out := s.out.append emission.items }
      push (if entry.pure then .temp result f.result site.node else .null site.node)

def call (visit : Visit) (callee : Node) (args : List Node) (n : Node) : Lower Unit := do
  let site : CallSite := ⟨callee, n⟩
  let o ← eval visit callee
  let given ← collect (argument visit) args
  let t ← table
  let type := o.effective
  match if type.isClass then none else o.class? t with
  | some cls => construct cls given site
  | none =>
    match o.function? t with
    | some id =>
      if (((t.get id).function?).getD {}).isBuiltin then callBuiltin id given site
      else callFunction id o given site
    | none =>
      if type.isFunction || type.isAny then callIndirect o type given site
      else fail ((Diagnostic.mkAt .typeMismatch Code.notCallable site.pos
        (.entry .notCallable [.text o.surface.text, .text type.text])).withSpan site.calleeWidth)

end Frontend.Lower
