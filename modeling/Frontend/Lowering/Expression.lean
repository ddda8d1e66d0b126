import Frontend.Lowering.State

/-!
# Expressions

Operators, containers and indexing. Every step of an expression leaves its value in a fresh temporary,
literals stand for themselves.
-/

namespace Frontend.Lower

/-- The type of an arithmetic operation. Numbers go with numbers, and one double makes a double;
addition also joins texts and lists. Of an operand about which nothing is known nothing is asked. -/
def arithmeticType (op : Token) (word : String) (l r : Tag) : Except Diagnostic Tag :=
  let joins := fun (t : Tag) => word == "+" && (t.is .str || t.is .list)
  if l.isAny && r.isAny then .ok .any
  else if l.isAny || r.isAny then
    let known := if l.isAny then r else l
    if known.isNumeric || joins known then .ok .any
    else .error (Complaint.invalidOperand op word known)
  else if l.isNumeric && r.isNumeric then
    .ok (if l.is .flt || r.is .flt then .ofType .flt else .ofType .int)
  else if word == "+" && l.is .str && r.is .str then .ok (.ofType .str)
  else if word == "+" && l.is .list && r.is .list then .ok (.ofType .list)
  else .error (Complaint.invalidOperand op word (if l.isNumeric || joins l then r else l))

/-- The opposite of an operand: a number literal changes its sign, all else is computed. -/
def negate (o : Operand) : Lower String := do
  if o.isLiteral && o.effective.isNumeric then
    return match Text.dropHead? o.raw "-" with
      | some rest => rest
      | none => "-" ++ o.raw
  else
    let t ← freshTemp
    emit .negate [o.raw, t]
    return t

/-- The instruction of an arithmetic operator. -/
def arithmeticOpcode? : String → Option Opcode
  | "+" | "-" => some .add
  | "*" => some .mul
  | "/" => some .div
  | "%" => some .mod
  | _ => none

/-- A binary operation on values; `word` is the operator without a trailing assignment sign and `n` the
node it stands for. -/
def binary (op : Token) (word : String) (left right : Operand) (n : Node) : Lower Operand := do
  match (Operator.ofText? word).bind Relation.ofOperator? with
  | some relation =>
    let order ← freshTemp
    emit .compare [left.raw, right.raw, order]
    let result ← freshTemp
    emit .relate [order, relation.name, result]
    return .temp result (.ofType .bool) n
  | none =>
    let type ← ofExcept (arithmeticType op word left.effective right.effective)
    let second ← if word == "-" then negate right else pure right.raw
    let result ← freshTemp
    match arithmeticOpcode? word with
    | some code =>
      emit code [left.raw, second, result]
      return .temp result type n
    | none => fail (Complaint.unsupported n)

/-- An operator in front of its operand. -/
def unary (visit : Visit) (op : Token) (operand n : Node) : Lower Unit := do
  match op.kind with
  | .op .minus =>
    match Operand.ofLiteral? n with
    | some literal => push literal
    | none =>
      let o ← eval visit operand
      let type := o.effective
      if !type.isAny && !type.isNumeric then fail (Complaint.invalidOperand op op.literal type)
      let result ← freshTemp
      emit .negate [o.raw, result]
      push (.temp result type n)
  | .op .not =>
    let o ← eval visit operand
    let result ← freshTemp
    emit .not [o.raw, result]
    push (.temp result (.ofType .bool) n)
  | .op .star | .op .power =>
    fail (Complaint.marking op.literal (Complaint.semantic op.pos
      (.entry .variadicAtCall [.text op.literal])))
  | _ => fail (Complaint.unsupported n)

/-- A list: its elements are appended one by one. -/
def list (visit : Visit) (elements : List Node) (n : Node) : Lower Unit := do
  let result ← freshTemp
  emit .put [Spelling.emptyList, result]
  forAll (fun element => do
    let o ← eval visit element
    emit .append [result, o.raw]) elements
  push (.temp result (.ofType .list) n)

/-- A dictionary: its entries are set one by one. -/
def dict (visit : Visit) (pairs : List Node) (n : Node) : Lower Unit := do
  let result ← freshTemp
  emit .put [Spelling.emptyDict, result]
  forAll (fun
    | .pair key _ value => do
      let k ← eval visit key
      let v ← eval visit value
      emit .setItem [result, k.raw, v.raw]
    | other => fail (Complaint.unsupported other)) pairs
  push (.temp result (.ofType .dict) n)

/-- Fails unless a value may be indexed; `left` is the node of the value. -/
def checkIndexable (o : Operand) (left : Node) : Lower Unit :=
  let type := o.effective
  if type.isAny || type.is .list || type.is .dict || type.is .str then pure ()
  else fail ((Diagnostic.mkAt .typeMismatch Code.typeMismatch left.pos
    (.entry .notIndexable [.text type.text])).withSpan (Complaint.width left))

/-- The container and the key of an index expression. -/
def indexed (visit : Visit) (left subscript : Node) : Lower (Operand × Operand) := do
  let container ← eval visit left
  checkIndexable container left
  let key ← eval visit subscript
  return (container, key)

/-- An element of a container. -/
def index (visit : Visit) (left subscript n : Node) : Lower Unit := do
  let (container, key) ← indexed visit left subscript
  let result ← freshTemp
  emit .getItem [container.raw, key.raw, result]
  push (.temp result (if container.effective.is .str then .ofType .str else .any) n)

/-- What stands between brackets. Of several items the last one gives the value. -/
def group (visit : Visit) (body : Option Node) (n : Node) : Lower Unit :=
  match body with
  | none => fail (Complaint.unsupported n)
  | some (.block b) =>
    match b.items.getLast? with
    | none => fail (Complaint.unsupported n)
    | some last => do
      forAll (exec visit) b.items.dropLast
      visit last
  | some inner => visit inner

/-! ## Members

Members of objects and classes. Inside of a class its members may be named without the object: those
of instances are then taken from `this`, static ones from the class. -/

/-- A member together with where it is taken from. -/
structure Found where
  object : Operand
  member : SymbolId
  cls : SymbolId

/-- The class that a member belongs to. -/
def memberOwner (t : SymbolTable) (member : SymbolId) : Option SymbolId :=
  match (t.get member).detail with
  | .var v => v.owner
  | .function f => f.owner
  | _ => none

/-- The permission with which the present place comes to a member of a class. -/
def assertedFor (cls : SymbolId) (name : String) : Lower Permission := do
  let t ← table
  let owner := ((t.member? cls name).bind (memberOwner t)).getD cls
  return t.assertedPermission (← currentClass) (some owner)

/-- The member that `object.name` means. Through the name of a class only static members can be
reached. -/
def resolveMember (visit : Visit) (object : Node) (name : Ident) : Lower Found := do
  let o ← eval visit object
  let t ← table
  let word := name.name
  let pos := name.token.pos
  let type := o.effective
  match if type.isClass then none else o.class? t with
  | some cls =>
    let member ← ofExcept (t.memberFor cls word (← assertedFor cls word) pos)
    if !t.isStaticMember cls member then
      fail (Complaint.marking word (Complaint.semantic pos
        (.entry .staticAccess [.text word, .text (t.get cls).name])))
    return { object := { Operand.ofSymbol t cls with surface := .node object }, member, cls }
  | none =>
    if !type.isClass then
      fail (Complaint.marking word (.mkAt .typeMismatch Code.typeMismatch pos
        (.entry .attributeOnValue [.text word, .text type.text])))
    let cls ← ofExcept (t.classOf type object.pos)
    let member ← ofExcept (t.memberFor cls word (← assertedFor cls word) pos)
    return { object := o, member, cls }

/-- The operand of a member, read from its object if it is a field. `n` is the node that names it. -/
def readMember (found : Found) (n : Node) : Lower (Option Operand) := do
  let t ← table
  let s := t.get found.member
  let receiver : Receiver :=
    { object := found.object.raw, static := t.isStaticMember found.cls found.member }
  match s.detail with
  | .var v =>
    let result ← freshTemp
    emit .getField [found.object.raw, s.rid, result]
    return some { Operand.temp result v.type n with
      value := v.value, meaning := v.meaning, receiver := some receiver }
  | .function _ => return some { Operand.ofSymbol t found.member with receiver := some receiver }
  | _ => return none

/-- `object.name`. -/
def member (visit : Visit) (object : Node) (name : Ident) (n : Node) : Lower Unit := do
  let found ← resolveMember visit object name
  match ← readMember found n with
  | some o => push { o with surface := .node n }
  | none => fail (Complaint.unsupported n)

/-- The member of the surrounding class that a bare name means, if there is one to be had. -/
def implicitMember (name : String) : Lower (Option Found) := do
  let t ← table
  match ← currentClass with
  | none => return none
  | some cls =>
    match t.member? cls name with
    | none => return none
    | some member =>
      if t.isStaticMember cls member then
        return some { object := .ofSymbol t cls, member, cls }
      else
        return (t.findInFunction? "this").map fun this => { object := .ofSymbol t this, member, cls }

/-- A name: a symbol in reach, else a member of the surrounding class. -/
def ident (name : Ident) (n : Node) : Lower Unit := do
  if !name.labels.isEmpty then fail (Complaint.unsupported n)
  let t ← table
  match t.lookup name.name name.token.pos with
  | .ok id =>
    if (t.get id).detail matches .target then fail (Complaint.unsupported n)
    push (.ofSymbol t id)
  | .error d =>
    match ← implicitMember name.name with
    | none => fail d
    | some found =>
      match ← readMember found n with
      | some o => push o
      | none => fail d

/-- The object at hand. -/
def this (pos : Position) : Lower Unit := do
  let t ← table
  match t.findInFunction? "this" with
  | some id => push { Operand.ofSymbol t id with surface := .word "this" }
  | none =>
    fail ((Diagnostic.mkAt .semantic Code.outsideMethod pos (.entry .thisOutside [])).withSpan 4)

end Frontend.Lower
