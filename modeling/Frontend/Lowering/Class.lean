import Frontend.Lowering.Function
import Frontend.Lowering.Expression

/-!
# Classes

A class is lowered in two passes: first all members are collected, then the code of the class, its
constructors and its methods is written. So a method may use what is defined further down in its class.
-/

namespace Frontend.Lower

/-- A constructor or method with its body. -/
abbrev Bodied := SymbolId × Block

/-- What the first pass finds. -/
structure Members where
  constructors : List Bodied := []
  methods : List Bodied := []

/-- Makes a class and registers it as a type. -/
def newClass (name : Ident) (info : ClassInfo) : Lower SymbolId := do
  let rid ← take (·.classRid name.name)
  let id ← newSymbol { name := name.name, rid, pos := name.token.pos, detail := .cls info }
  insert id
  changeTable (·.registerType id)
  return id

def declareClass (name : Ident) : Lower Unit := do
  let _ ← marksOf name.labels ("class '" ++ name.name ++ "'") Admitted.onClass
  let id ← newClass name { declared := true }
  noteDeclared id

/-- The class that a definition is about: a declared one is completed, else it is new. -/
def openClass (name : Ident) : Lower SymbolId := do
  let t ← table
  match if t.contains name.name then t.find? name.name else none with
  | none => newClass name {}
  | some old =>
    let s := t.get old
    match s.class?.filter (·.declared) with
    | none =>
      fail ((Complaint.marking name.name (.mkAt .symbolDuplicate Code.symbolDuplicate name.token.pos
        (.entry .redefinition [.text name.name]))).withInfo [Complaint.declaredAt name.name s.pos])
    | some _ =>
      changeTable (·.modify old (Symbol.mapClass fun c => { c with declared := false }))
      return old

/-- Hangs a class below the class that its type names. -/
def setBase (cls : SymbolId) (type : Tag) : Lower Unit := do
  if !type.isClass then
    fail (Complaint.marking type.name (.mkAt .typeMismatch Code.typeMismatch type.pos
      (.entry .notAClass [.text type.name])))
  let t ← table
  let base ← ofExcept (t.classOf type type.pos)
  let name := (t.get base).name
  if (t.classInfo base).declared then
    fail ((Complaint.marking type.name (Complaint.semantic type.pos
      (.entry .declaredNotDefined [.text name]))).withHint [.entry .hintDefineClass [.text name]])
  tryTable (·.setBase cls (some base) type.pos)

/-- Makes the class of a definition ready for its members. -/
def classHead (name : Ident) : Lower SymbolId := do
  let marks ← marksOf name.labels ("class '" ++ name.name ++ "'") Admitted.onClass
  let cls ← openClass name
  if !marks.type.isMissing then setBase cls marks.type
  if let some p := marks.permission? then
    changeTable (·.modify cls (Symbol.mapClass fun c => { c with defaultPermission := p }))
  return cls

/-- The permission of members that say nothing about it. -/
def defaultPermission (cls : SymbolId) : Lower Permission :=
  ask fun s => (s.session.symbols.classInfo cls).defaultPermission

def collectField (cls : SymbolId) (name : Ident) (init : Option Node) : Lower Unit := do
  let word := name.name
  let marks ← marksOf name.labels ("field '" ++ word ++ "'") Admitted.onField
  if marks.isConst && init.isNone then
    fail (Complaint.marking word (Complaint.semantic name.token.pos
      (.entry .constWithoutValue [.text word])))
  let rid ← freshRid word
  let id ← newSymbol {
    name := word, rid, pos := name.token.pos
    detail := .var {
      type := marks.typeOrAny, const := marks.isConst, static := marks.isStatic
      owner := some cls, init, permission := marks.permissionOr (← defaultPermission cls) } }
  tryTable (·.addMember cls id marks.isStatic)

/-- Fails if a method hides one of a class above without saying so, or says so without need. -/
def checkOverwrite (cls : SymbolId) (s : Symbol) (info : FunctionInfo) : Lower Unit := do
  let t ← table
  let hidden := ((t.classInfo cls).base.bind (t.member? · s.name)).bind fun id =>
    (t.get id).function?.map fun f => (t.get id, f)
  match hidden, info.overwrite with
  | some (h, f), false =>
    let owner := (f.owner.map fun o => (t.get o).name).getD ""
    fail (((Complaint.marking s.name (Complaint.semantic s.pos
      (.entry .overwriteRequired [.text s.name, .text owner]))).withInfo
      [Complaint.declaredAt s.name h.pos]).withHint [.entry .hintMarkOverwrite [.text s.name]])
  | none, true =>
    fail (Complaint.marking s.name (Complaint.semantic s.pos
      (.entry .overwriteNothing [.text s.name])))
  | _, _ => pure ()

/-- The member that a class itself has declared under a name and not yet defined. -/
def declaredMember? (t : SymbolTable) (cls : SymbolId) (name : String) : Option SymbolId :=
  (t.member? cls name).filter fun id =>
    memberOwner t id == some cls && (((t.get id).function?).getD {}).declared

/-- Collects a method; one without a body is only declared. -/
def collectMethod (cls : SymbolId) (name : Ident) (params : List Param) (labels : List Label)
    (body : Option Block) : Lower (List Bodied) := do
  let (s, info, marks) ← functionHead name (some cls) params labels Admitted.onMethod
  let info := { info with
    static := marks.isStatic
    overwrite := marks.has Role.overwrite.text
    virtual := marks.has Role.virtual.text || marks.has Role.interface.text
    permission := marks.permissionOr (← defaultPermission cls)
    declared := body.isNone }
  checkOverwrite cls s info
  match declaredMember? (← table) cls s.name, body with
  | some old, some b =>
    fulfil old s info
    return [(old, b)]
  | _, _ =>
    let id ← newSymbol { s with detail := .function info }
    if info.declared && !info.virtual then noteDeclared id
    tryTable (·.addMember cls id info.static)
    return (body.map fun b => (id, b)).toList

/-- Makes a constructor, which gives an instance of its class. -/
def newConstructor (cls : SymbolId) (pos : Position) (params : List Parameter)
    (permission : Permission) : Lower SymbolId := do
  let rid ← freshFunctionRid (some cls) "init"
  let c ← symbol cls
  let id ← newSymbol {
    name := "init", rid, pos
    detail := .function {
      params, result := .ofClass c.name c.rid, kind := .construct, owner := some cls
      permission } }
  changeTable (·.modify cls (Symbol.mapClass fun c =>
    { c with constructors := c.constructors ++ [id] }))
  return id

def collectConstructor (cls : SymbolId) (name : Ident) (params : List Param)
    (labels : List Label) : Lower SymbolId := do
  let c ← symbol cls
  let marks ← marksOf labels ("constructor of '" ++ c.name ++ "'") Admitted.onConstructor
  let params ← collect parameter params
  newConstructor cls name.token.pos params (marks.permissionOr (← defaultPermission cls))

def collectMember (cls : SymbolId) (found : Members) (item : Node) : Lower Members := do
  match item with
  | .varDef _ names values =>
    forAll (fun (name, init) => collectField cls name init) (names.zip values)
    return found
  | .funDef _ name params labels body _ =>
    let new ← collectMethod cls name params labels (some body)
    return { found with methods := found.methods ++ new }
  | .funDecl _ name params labels =>
    let _ ← collectMethod cls name params labels none
    return found
  | .constructor _ name params labels body =>
    let id ← collectConstructor cls name params labels
    return { found with constructors := found.constructors ++ [(id, body)] }
  | .pass _ => return found
  | _ => fail (Complaint.unsupported item)

def collectMembers (cls : SymbolId) : Members → List Node → Lower Members
  | found, [] => pure found
  | found, item :: rest => do collectMembers cls (← collectMember cls found item) rest

/-- Makes the constructor of a class that defines none. -/
def completeMembers (cls : SymbolId) (found : Members) : Lower Members := do
  let c ← symbol cls
  let constructors := (← table).classInfo cls |>.constructors
  if constructors.isEmpty then
    let id ← newConstructor cls c.pos [] .pub
    return { found with constructors := found.constructors ++ [(id, default)] }
  else return found

/-- Writes the initial value of a field. -/
def initField (visit : Visit) (object : String) (field : SymbolId) : Lower Unit := do
  let s ← symbol field
  let v := s.var?.getD {}
  match v.init with
  | none => pure ()
  | some n =>
    let o ← eval visit n
    if !(← table).assignable v.type o.effective then
      fail (((Complaint.mismatch n.pos v.type o.effective).withSpan (Complaint.width n)).withInfo
        [Complaint.declaredAt s.name s.pos])
    emit .setField [object, s.rid, o.raw]
    changeTable (·.modify field (Symbol.mapVariable fun v =>
      if v.type.isAny && v.value.isMissing then { v with value := o.effective } else v))

/-- Writes the initial values of the fields of an instance: those of the topmost class first. -/
def initInstance (visit : Visit) (cls : SymbolId) : Lower Unit := do
  let object ← thisRid
  let t ← table
  forAll (fun c => forAll (initField visit object) (t.fields c)) (t.chain (some cls)).reverse

/-- Writes the code of a class. -/
def emitClass (visit : Visit) (items : List Node → Lower Unit) (cls : SymbolId)
    (found : Members) : Lower Unit := do
  let t ← table
  let c := t.get cls
  let base := ((t.classInfo cls).base.map fun b => (t.get b).rid).toList
  emit .defineType (c.rid :: base)
  forAll (fun f => emit .addField [c.rid, (t.get f).rid]) (t.fields cls)
  forAll (fun f => emit .addStaticField [c.rid, (t.get f).rid]) (t.staticFields cls)
  forAll (initField visit c.rid) (t.staticFields cls)
  forAll (fun (id, body) => functionBody items id body (initInstance visit cls)) found.constructors
  forAll (fun (id, body) => functionBody items id body (pure ())) found.methods

def defineClass (visit : Visit) (items : List Node → Lower Unit) (name : Ident) (body : Block) :
    Lower Unit := do
  let cls ← classHead name
  inScope .cls <| inside cls do
    let found ← completeMembers cls (← collectMembers cls {} body.items)
    changeTable (·.modify cls (Symbol.mapClass fun c => { c with finished := true }))
    emitClass visit items cls found

end Frontend.Lower
