import Frontend.Lowering.Expression

/-!
# Assignments

What stands on the left of an assignment is a variable, a field or an element of a container. The
value is computed before the place it goes to.
-/

namespace Frontend.Lower

/-- Where an assigned value goes. -/
inductive Target where
  | slot (id : SymbolId)
  | field (object : Operand) (id : SymbolId)
  | element (container key : Operand)

/-- The variable or field of a target. -/
def Target.symbol? : Target → Option SymbolId
  | .slot id | .field _ id => some id
  | .element .. => none

/-- The place that a node means as a target. Its present value is not read. -/
def resolveTarget (visit : Visit) (n : Node) : Lower Target := do
  match n with
  | .ident name =>
    if !name.labels.isEmpty then fail (Complaint.unsupported n)
    let t ← table
    match t.lookup name.name name.token.pos with
    | .ok id =>
      let s := t.get id
      if s.var?.isSome then return .slot id
      else fail ((Complaint.marking name.name (Complaint.semantic name.token.pos
        (.entry .invalidAssignTarget [.text name.name]))).withInfo
        [Complaint.declaredAt name.name s.pos])
    | .error d =>
      match ← implicitMember name.name with
      | none => fail d
      | some found =>
        if (t.get found.member).detail matches .var _ then
          return .field found.object found.member
        else fail d
  | .member object _ name =>
    let found ← resolveMember visit object name
    let t ← table
    if (t.get found.member).detail matches .var _ then return .field found.object found.member
    else fail (Complaint.unsupported n)
  | .index left _ subscript =>
    let (container, key) ← indexed visit left subscript
    return .element container key
  | _ => fail (Complaint.unsupported n)

/-- The present value of a target; `n` is its node. -/
def loadTarget (target : Target) (n : Node) : Lower Operand := do
  match target with
  | .slot id => return .ofSymbol (← table) id
  | .field object id =>
    let s ← symbol id
    let v := s.var?.getD {}
    let result ← freshTemp
    emit .getField [object.raw, s.rid, result]
    return { Operand.temp result v.type n with value := v.value }
  | .element container key =>
    let result ← freshTemp
    emit .getItem [container.raw, key.raw, result]
    return .temp result .any n

/-- Writes a value to a target. -/
def storeTarget (target : Target) (raw : Operand) : Lower Unit := do
  match target with
  | .slot id => move raw (← symbol id).rid
  | .field object id => emit .setField [object.raw, (← symbol id).rid, raw.raw]
  | .element container key => emit .setItem [container.raw, key.raw, raw.raw]

/-- Whether the present place is a constructor of the class that a field belongs to. -/
def constructs (field : VariableInfo) : Lower Bool := do
  let t ← table
  match ← currentFunction with
  | none => return false
  | some id =>
    let f := ((t.get id).function?).getD {}
    return f.kind == .construct && f.owner == field.owner

/-- Fails if a target must keep its value. A constant field may still be set by the constructors of
its class. -/
def checkConst (target : Target) (n : Node) : Lower Unit := do
  match target.symbol? with
  | none => pure ()
  | some id =>
    let s ← symbol id
    let v := s.var?.getD {}
    if v.const then
      let excused ← if target matches .field .. then constructs v else pure false
      if !excused then
        fail (((Complaint.semantic n.pos (.entry .constAssign [.text s.name])).withSpan
          (Complaint.width n)).withInfo [Complaint.declaredAt s.name s.pos])

/-- Remembers what a variable of any type holds from now on. -/
def remember (id : SymbolId) (o : Operand) : Lower Unit :=
  changeTable (·.modify id (Symbol.mapVariable fun v =>
    { v with value := o.effective, meaning := o.meaning }))

/-- The operator behind a compound assignment: its text without the equals sign. -/
def compoundWord (op : Token) : String :=
  String.ofList (match op.literal.toList.reverse with
    | '=' :: rest => rest.reverse
    | cs => cs.reverse)

def assign (visit : Visit) (target : Node) (op : Token) (value n : Node) : Lower Unit := do
  let given ← eval visit value
  let place ← resolveTarget visit target
  checkConst place target
  let result ←
    if op.kind == .op .assign then pure given
    else do
      let current ← loadTarget place target
      binary op (compoundWord op) current given n
  if let some id := place.symbol? then
    let t ← table
    let declared := (((t.get id).var?).getD {}).type
    if !t.assignable declared result.effective then
      fail ((Complaint.mismatch value.pos declared result.effective).withSpan
        (Complaint.width value))
    if declared.isAny then remember id result
  storeTarget place result
  match place with
  | .slot id => push (.ofSymbol (← table) id)
  | _ => push result

/-- An increment or decrement behind its operand. The value is that from before. -/
def increment (visit : Visit) (operand : Node) (op : Token) (n : Node) : Lower Unit := do
  let place ← resolveTarget visit operand
  checkConst place operand
  let current ← loadTarget place operand
  let type := current.effective
  if !type.isAny && !type.isNumeric then fail (Complaint.invalidOperand op op.literal type)
  let before ← freshTemp
  emit .copy [current.raw, before]
  let step := Spelling.ofInt (if op.kind == .op .decrement then -1 else 1)
  match place with
  | .slot _ => emit .add [current.raw, step, current.raw]
  | _ =>
    let after ← freshTemp
    emit .add [current.raw, step, after]
    storeTarget place (.temp after current.type n)
  push (.temp before type n)

end Frontend.Lower
