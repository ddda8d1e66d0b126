import Frontend.Lowering.Binding

/-!
# Labels of declarations

Gives the labels of a declaration their meaning. The name of a class becomes the type of its
instances; descriptor groups hold types only.
-/

namespace Frontend

mutual
def Label.tag (t : SymbolTable) : Label → Except Diagnostic Tag
  | .mk token groups =>
    match TagKind.ofToken? token.kind with
    | none =>
      .error (Complaint.unsupportedText token.pos (token.literal ++ Label.groupTexts groups))
    | some kind =>
      if token.kind == .ident then do
        let id ← t.lookup token.literal token.pos
        let s := t.get id
        if s.class?.isSome then return .mk .type s.name s.rid [] token.pos
        else .error ((Complaint.marking token.literal (.mkAt .typeMismatch Code.typeMismatch token.pos
          (.entry .notAClass [.text token.literal]))).withInfo
          [Complaint.declaredAt token.literal s.pos])
      else do return .mk kind token.literal "" (← Label.groupTags t token.literal groups) token.pos

/-- The tags of the groups of the label `owner`. -/
def Label.groupTags (t : SymbolTable) (owner : String) :
    List (List Label) → Except Diagnostic (List (List Tag))
  | [] => .ok []
  | g :: gs => do
    let tags ← Label.typeTags t owner g
    return tags :: (← Label.groupTags t owner gs)

/-- The tags of the labels in one group, which must be types. -/
def Label.typeTags (t : SymbolTable) (owner : String) : List Label → Except Diagnostic (List Tag)
  | [] => .ok []
  | l :: ls => do
    let tag ← Label.tag t l
    if tag.kind? == some .type then return tag :: (← Label.typeTags t owner ls)
    else .error (Complaint.marking l.name (Complaint.semantic l.pos
      (.entry .labelNotAdmitted [.text l.name, .text owner])))
end

namespace Marks

/-- The marks of a list of labels, added to those there are. -/
def ofLabels (t : SymbolTable) : Marks → List Label → Except Diagnostic Marks
  | m, [] => .ok m
  | m, l :: ls => do ofLabels t (← m.add (← l.tag t)) ls

/-- The type that was asked for; any type if there was none. -/
def typeOrAny (m : Marks) : Tag := if m.type.isMissing then .any else m.type

/-- The permission that was asked for, or another one. -/
def permissionOr (m : Marks) (p : Permission) : Permission := m.permission?.getD p

end Marks

/-! What may be said about each kind of declaration. -/

namespace Admitted

def onVariable : List String := ["type", "global", "const"]
def onParameter : List String := ["type", "quote"]
def onFunction : List String := ["type"]
def onClass : List String := ["type", "private", "protected", "public"]
def onField : List String :=
  ["type", "private", "protected", "public", "static", "instance", "const"]
def onMethod : List String :=
  ["type", "private", "protected", "public", "static", "instance", "overwrite", "virtual",
    "interface"]
def onConstructor : List String := ["private", "protected", "public"]

end Admitted

/-- The marks of a declaration, each of which must be admitted. `what` describes the declared
thing. -/
def Lower.marksOf (labels : List Label) (what : String) (admitted : List String) : Lower Marks := do
  let marks ← ofExcept (Marks.ofLabels (← table) {} labels)
  refuse (marks.refusal? what admitted)
  return marks

/-! ## Variables and functions

Definitions of variables, heads of functions, bodies of functions and the way out of them. -/

namespace Lower

/-- Defines a variable. Its value is computed before the name is known. -/
def defineVariable (visit : Visit) (name : Ident) (init : Option Node) : Lower Unit := do
  let word := name.name
  let marks ← marksOf name.labels ("variable '" ++ word ++ "'") Admitted.onVariable
  let type := marks.typeOrAny
  let value ← match init with
    | some n => do
      let o ← eval visit n
      if !(← table).assignable type o.effective then
        fail ((Complaint.mismatch n.pos type o.effective).withSpan (Complaint.width n))
      pure (some o)
    | none => do
      if marks.isConst then
        fail (Complaint.marking word (Complaint.semantic name.token.pos
          (.entry .constWithoutValue [.text word])))
      pure none
  let rid ← freshRid word
  let global := marks.lifeCycle? == some .global
  let id ← newSymbol {
    name := word, rid, pos := name.token.pos
    detail := .var { type, const := marks.isConst, global } }
  if global then tryTable (·.insertGlobal id) else insert id
  emit .allot [rid]
  match value with
  | none => pure ()
  | some o =>
    move o rid
    changeTable (·.modify id (Symbol.mapVariable fun v =>
      { v with meaning := o.meaning, value := if type.isAny then o.effective else v.value }))

/-- Defines several variables one after another. -/
def defineVariables (visit : Visit) (names : List Ident) (values : List (Option Node)) :
    Lower Unit :=
  forAll (fun (name, init) => defineVariable visit name init) (names.zip values)

/-- The type of a parameter: collecting parameters hold a list or a dictionary. -/
def paramType (kind : ParamKind) (marks : Marks) : Tag :=
  match kind with
  | .restPositional => .ofType .list
  | .restKeyword => .ofType .dict
  | _ => marks.typeOrAny

/-- Makes the parameter that stands at the head of a function. -/
def parameter (p : Param) : Lower Parameter := do
  let word := p.name.name
  let marks ← marksOf p.name.labels ("parameter '" ++ word ++ "'") Admitted.onParameter
  let rid ← freshRid word
  let type := paramType p.kind marks
  if !marks.type.isMissing && !type.meets marks.type then
    fail (Complaint.marking marks.type.name (Complaint.mismatch marks.type.pos type marks.type))
  match p.default with
  | none => pure ()
  | some n =>
    match Operand.ofLiteral? n with
    | none => fail ((Complaint.semantic n.pos
        (.entry .defaultNotLiteral [.text word])).withSpan (Complaint.width n))
    | some o =>
      if !(← table).assignable type o.type then
        fail ((Complaint.mismatch n.pos type o.type).withSpan (Complaint.width n))
  return {
    name := word, rid, pos := p.pos, kind := p.kind, type, default := p.default
    quote := marks.isQuote }

/-- Takes a raw id for a function, perhaps of a class. -/
def freshFunctionRid (owner : Option SymbolId) (name : String) : Lower String := do
  let t ← table
  take (·.functionRid (owner.map fun o => (t.get o).name) name)

/-- The symbol of a function from its head, not yet made, with its marks. -/
def functionHead (name : Ident) (owner : Option SymbolId) (params : List Param)
    (labels : List Label) (admitted : List String) : Lower (Symbol × FunctionInfo × Marks) := do
  let marks ← marksOf labels ("function '" ++ name.name ++ "'") admitted
  let params ← collect parameter params
  let rid ← freshFunctionRid owner name.name
  let info : FunctionInfo := {
    params, result := marks.typeOrAny, owner
    kind := if owner.isSome then .method else .plain }
  return ({ name := name.name, rid, pos := name.token.pos, detail := .function info }, info, marks)

/-- Whether a declaration and a definition have the same parameters and the same result. -/
def sameHead (declared defined : FunctionInfo) : Bool :=
  declared.params.length == defined.params.length && declared.result.same defined.result &&
    (declared.params.zip defined.params).all fun (p, q) => p.kind == q.kind && p.type.same q.type

/-- Completes a declared function by its definition. -/
def fulfil (declared : SymbolId) (s : Symbol) (info : FunctionInfo) : Lower Unit := do
  let old ← symbol declared
  let oldInfo := old.function?.getD {}
  if !sameHead oldInfo info then
    fail ((Complaint.marking s.name (Complaint.semantic s.pos
      (.entry .declarationMismatch [.text s.name]))).withInfo
      [Complaint.declaredAt old.name old.pos,
        .entry .infoExpected [.text (oldInfo.describe old.name)],
        .entry .infoFound [.text (info.describe s.name)]])
  changeTable (·.modify declared (Symbol.mapFunction fun f =>
    { f with params := info.params, declared := false }))

/-- Enters the parameters of a function in its scope and gives their raw ids. The object of a method
or constructor comes first. -/
def enterParams (id : SymbolId) : Lower (List String) := do
  let s ← symbol id
  let f := s.function?.getD {}
  let receiver ←
    if f.isMethod || f.kind == .construct then do
      let rid ← freshRid "this"
      let owner ← symbol (f.owner.getD 0)
      let this ← newSymbol {
        name := "this", rid, pos := s.pos
        detail := .var { type := .ofClass owner.name owner.rid, const := true } }
      insert this
      pure [rid]
    else pure []
  forAll (fun (p : Parameter) => do
    let id ← newSymbol {
      name := p.name, rid := p.rid, pos := p.pos
      detail := .parameter { type := p.type } p.kind }
    insert id) f.params
  return receiver ++ f.params.map (·.rid)

/-- The raw id of the object at hand. -/
def thisRid : Lower String := do
  let t ← table
  return ((t.findInFunction? "this").map fun id => (t.get id).rid).getD ""

/-- What a function does at its end if it has not returned: a constructor gives its object, a function
of any type gives nothing. `finish` is the end of the body. -/
def epilogue (id : SymbolId) (finish : Position) : Lower Unit := do
  let s ← symbol id
  let f := s.function?.getD {}
  if f.kind == .construct then emit .ret [← thisRid]
  else if f.returned then pure ()
  else if f.result.isAny then emit .ret [Spelling.null]
  else if f.result.is .nul then pure ()
  else fail (((Diagnostic.mkAt .typeMismatch Code.missingReturn finish
    (.entry .missingReturn [.text s.name, .text f.result.text])).withInfo
    [Complaint.declaredAt s.name s.pos]).withHint [.entry .hintAddReturn []])

/-- Lowers the body of a function. `items` lowers the items of a block; `before` comes first. -/
def functionBody (items : List Node → Lower Unit) (id : SymbolId) (body : Block)
    (before : Lower Unit) : Lower Unit :=
  inScope .function <| inside id do
    let params ← enterParams id
    let code ← apart do
      before
      items body.items
      epilogue id body.finish
    let s ← symbol id
    let f := s.function?.getD {}
    emit (if f.returnsValue then .funi else .func) (s.rid :: params)
    change fun s => { s with out := s.out.append code }
    emit .finish []

/-- Remembers a declared function or class. -/
def noteDeclared (id : SymbolId) : Lower Unit :=
  change fun s => { s with declared := s.declared ++ [id] }

def declareFunction (name : Ident) (params : List Param) (labels : List Label) : Lower Unit := do
  let (s, info, _) ← functionHead name none params labels Admitted.onFunction
  let id ← newSymbol { s with detail := .function { info with declared := true } }
  insert id
  noteDeclared id

/-- Defines a function; one that was declared before is completed. -/
def defineFunction (items : List Node → Lower Unit) (name : Ident) (params : List Param)
    (labels : List Label) (body : Block) : Lower Unit := do
  let (s, info, _) ← functionHead name none params labels Admitted.onFunction
  let t ← table
  let declared := (if t.contains name.name then t.find? name.name else none).filter fun old =>
    (((t.get old).function?).getD {}).declared
  let id ← match declared with
    | some old => do
      fulfil old s info
      pure old
    | none => do
      let id ← newSymbol s
      insert id
      pure id
  functionBody items id body (pure ())

/-- A function without a name. -/
def lambda (items : List Node → Lower Unit) (token : Token) (params : List Param)
    (labels : List Label) (body : Block) : Lower Unit := do
  let marks ← marksOf labels "anonymous function" Admitted.onFunction
  let params ← collect parameter params
  let rid ← freshFunctionRid none "lambda"
  let id ← newSymbol {
    name := "lambda", rid, pos := token.pos
    detail := .function { params, result := marks.typeOrAny, kind := .anonymous } }
  functionBody items id body (pure ())
  push (.ofSymbol (← table) id)

/-- A return without a value from a function. -/
def returnNothing (s : Symbol) (f : FunctionInfo) (token : Token) : Lower Unit := do
  if f.kind == .construct then emit .ret [← thisRid]
  else if f.result.is .nul then emit .ret []
  else if f.result.isAny then emit .ret [Spelling.null]
  else fail (Complaint.marking "return" (.mkAt .typeMismatch Code.typeMismatch token.pos
    (.entry .returnMismatch [.text s.name, .text f.result.text, .text TypeName.nul.text])))

def returnValue (visit : Visit) (s : Symbol) (f : FunctionInfo) (value : Node) : Lower Unit := do
  if f.kind == .construct then
    fail ((Complaint.semantic value.pos (.entry .constructorReturn [])).withSpan
      (Complaint.width value))
  let o ← eval visit value
  if f.result.is .nul || !(← table).assignable f.result o.effective then
    fail (((Diagnostic.mkAt .typeMismatch Code.typeMismatch value.pos (.entry .returnMismatch
      [.text s.name, .text f.result.text, .text o.effective.text])).withSpan
      (Complaint.width value)).withInfo [Complaint.declaredAt s.name s.pos])
  emit .ret [o.raw]

def returnFrom (visit : Visit) (token : Token) (value : Option Node) : Lower Unit := do
  match ← currentFunction, (← table).functionLevel with
  | some id, _ + 1 =>
    changeTable (·.modify id (Symbol.mapFunction fun f => { f with returned := true }))
    let s ← symbol id
    let f := s.function?.getD {}
    match value with
    | none => returnNothing s f token
    | some n => returnValue visit s f n
  | _, _ => fail (Complaint.marking "return" (.mkAt .semantic Code.outsideFunction token.pos
      (.entry .returnOutside [])))

end Lower

end Frontend
