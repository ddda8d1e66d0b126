import Frontend.Proofs.Judgement.Basic
import Frontend.Proofs.Lowering.Assignment
import Frontend.Proofs.Lowering.Control
import Frontend.Proofs.Lowering.Function

/-!
# Judgements about constructs

A judgement holds of a construct if it holds of the nodes inside of it. A definition completes only what the
table knows as declared. Files, which imports lead to, are seen by steps that are not plain; a judgement that
covers these holds of whole files, too.
-/

namespace Frontend.Lower.Judgement

open SymbolTable

variable {I : Type} {base : I} {J : Judgement base} {k : Bool} {α β : Type}

/-! # Constructs without nodes -/

/-! ## Expressions -/

theorem negate (o : Operand) : J.Holds k fun _ => Lower.negate o :=
  .ite (pure _) (compute fun _ => pure _)

theorem binary (op : Token) (word : String) (left right : Operand) (n : Node) :
    J.Holds k fun _ => Lower.binary op word left right n := by
  unfold Lower.binary
  split
  · exact compute fun _ => compute fun _ => pure _
  · refine (ofExcept _).bind fun type => ?_
    refine .ite ((negate right).bind fun second => ?_) ((pure _).bind fun second => ?_)
    all_goals
      refine freshTemp.bind fun result => ?_
      split
      · exact (emit _ _).bind fun _ => pure _
      · exact fail _

theorem checkIndexable (o : Operand) (left : Node) : J.Holds k fun _ => Lower.checkIndexable o left :=
  .ite (pure _) (fail _)

theorem assertedFor (cls : SymbolId) (name : String) : J.Holds k fun _ => Lower.assertedFor cls name :=
  table.bind fun _ => currentClass.bind fun _ => pure _

theorem readMember (found : Found) (n : Node) : J.Holds k fun _ => Lower.readMember found n := by
  refine table.bind fun t => ?_
  dsimp only
  split
  · exact compute fun _ => pure _
  · exact pure _
  · exact pure _

theorem implicitMember (name : String) : J.Holds k fun _ => Lower.implicitMember name := by
  refine table.bind fun t => currentClass.bind fun cls => ?_
  cases cls with
  | none => exact pure _
  | some cls =>
    dsimp only
    split
    · exact pure _
    · exact .ite (pure _) (pure _)

theorem ident (name : Ident) (n : Node) : J.Holds true fun _ => Lower.ident name n := by
  refine .guarded (table.bind fun t => ?_)
  split
  · exact .guarded (push _)
  · refine (implicitMember _).bind fun found => ?_
    cases found with
    | none => exact fail _
    | some found =>
      refine (readMember found n).bind fun o => ?_
      cases o with
      | some o => exact push _
      | none => exact fail _

theorem this (pos : Position) : J.Holds true fun _ => Lower.this pos := by
  refine table.bind fun t => ?_
  split
  · exact push _
  · exact fail _

/-! ## Assignments -/

theorem loadTarget (target : Target) (n : Node) : J.Holds k fun _ => Lower.loadTarget target n := by
  cases target with
  | slot id => exact table.bind fun _ => pure _
  | field object id => exact (symbol _).bind fun _ => compute fun _ => pure _
  | element container key => exact compute fun _ => pure _

theorem storeTarget (target : Target) (raw : Operand) : J.Holds k fun _ => Lower.storeTarget target raw := by
  cases target with
  | slot id => exact (symbol _).bind fun _ => move _ _
  | field object id => exact (symbol _).bind fun _ => emit _ _
  | element container key => exact emit _ _

theorem constructs (field : VariableInfo) : J.Holds k fun _ => Lower.constructs field := by
  refine table.bind fun t => currentFunction.bind fun f => ?_
  cases f with
  | none => exact pure _
  | some id => exact pure _

theorem checkConst (target : Target) (n : Node) : J.Holds k fun _ => Lower.checkConst target n := by
  unfold Lower.checkConst
  split
  · exact pure _
  · refine (symbol _).bind fun s => .ite ?_ (pure _)
    split
    · exact (constructs _).bind fun excused => .ite (fail _) (pure _)
    · exact (pure _).bind fun excused => .ite (fail _) (pure _)

theorem remember (id : SymbolId) (o : Operand) : J.Holds k fun _ => Lower.remember id o :=
  changeTable fun t => matures_mapVariable t _ _

theorem settle (place : Target) (value : Node) (result : Operand) :
    J.Holds true fun _ => Lower.settle place value result := by
  unfold Lower.settle
  dsimp only
  cases place.symbol?
  case' some id => refine table.bind fun _ => .guarded (.ite ((remember _ _).bind fun _ => ?_) ?_)
  all_goals
    refine (storeTarget _ _).bind fun _ => ?_
    cases place with
    | slot id => exact table.bind fun _ => push _
    | _ => exact push _

/-! ## Calls -/

theorem emitBinding (b : Binding) : J.Holds k fun _ => Lower.emitBinding b := by
  unfold Lower.emitBinding
  split
  · refine compute fun _ => ?_
    exact (forAll fun _ => emit _ _).bind fun _ => pure _
  · refine compute fun _ => ?_
    exact (forAll fun _ => emit _ _).bind fun _ => pure _
  · split
    · exact pure _
    · exact pure _

theorem construct (cls : SymbolId) (args : List Argument) (site : CallSite) :
    J.Holds true fun _ => Lower.construct cls args site := by
  refine table.bind fun t => .guarded ?_
  split
  · exact fail _
  · exact currentClass.bind fun _ => .guarded (compute fun _ =>
      (collect fun b => emitBinding b).bind fun _ => (emit _ _).bind fun _ => push _)

theorem callFunction (id : SymbolId) (callee : Operand) (args : List Argument) (site : CallSite) :
    J.Holds true fun _ => Lower.callFunction id callee args site := by
  refine table.bind fun t => (ofExcept _).bind fun bindings => ?_
  have passed : ∀ receiver : List String, J.Holds true fun _ =>
      Lower.callBound callee (((t.get id).function?).getD {}) bindings site.node receiver := fun receiver =>
    (collect fun b => emitBinding b).bind fun _ =>
      .ite (compute fun _ => push _) ((emit _ _).bind fun _ => push _)
  refine .ite ?_ ((pure _).bind passed)
  split
  · exact (pure _).bind passed
  · exact failBind

theorem callIndirect (callee : Operand) (type : Tag) (args : List Argument) (site : CallSite) :
    J.Holds true fun _ => Lower.callIndirect callee type args site := by
  have passed : J.Holds true fun _ => Lower.callValueWith callee type (args.map (·.value.raw)) site.node :=
    .ite ((emit _ _).bind fun _ => push _) (compute fun _ => push _)
  unfold Lower.callIndirect
  dsimp only
  split
  · exact failBind
  · exact .ite (table.bind fun _ => (refuse _).bind fun _ => passed) passed

theorem generate (entry : Builtin) (call : BuiltinCall) : J.Holds k fun _ => Lower.generate entry call :=
  quiet (fun _ => ⟨rfl, rfl, List.Subset.refl _, [], rfl⟩) (fun _ => ⟨rfl, rfl⟩) fun _ _ _ => rfl

theorem generated (entry : Builtin) (sym : Symbol) (given : List BuiltinArg) (site : CallSite) (result : String) :
    J.Holds true fun _ => Lower.generated entry sym given site result := by
  refine (generate entry _).bind fun result => ?_
  split
  · exact fail _
  · exact fail _
  · exact .guarded ((append _).bind fun _ => push _)

theorem callBuiltin (id : SymbolId) (args : List Argument) (site : CallSite) :
    J.Holds true fun _ => Lower.callBuiltin id args site := by
  refine (symbol id).bind fun s => (ask _ fun _ _ _ => rfl).bind fun builtins => ?_
  split
  · exact fail _
  · refine (ofExcept _).bind fun given => .guarded (.ite ?_ ?_)
    · exact freshTemp.bind fun result => generated _ _ _ _ _
    · exact (pure _).bind fun result => generated _ _ _ _ _

/-! ## Control flow -/

theorem enterTarget (word rid : String) (pos : Position) : J.Holds k fun _ => Lower.enterTarget word rid pos :=
  (newSymbol _).bind fun _ => insert _

theorem loopTarget? (word : String) : J.Holds k fun _ => Lower.loopTarget? word := table.bind fun _ => pure _

theorem breakOut (pos : Position) : J.Holds k fun _ => Lower.breakOut pos := by
  refine (loopTarget? _).bind fun target => ?_
  cases target with
  | some _ => exact emit _ _
  | none => exact fail _

theorem continueOn (pos : Position) : J.Holds k fun _ => Lower.continueOn pos := by
  refine (loopTarget? _).bind fun target => ?_
  cases target with
  | some _ => exact emit _ _
  | none => exact fail _

/-! ## Variables and functions -/

theorem introduce (name : Ident) (marks : Marks) (value : Option Operand) :
    J.Holds k fun _ => Lower.introduce name marks value := by
  refine (freshRid _).bind fun rid => (newSymbol _).bind fun id => ?_
  refine .ite ((tryTable fun _ _ => matures_insertAt).bind fun _ => ?_) ((insert _).bind fun _ => ?_)
  all_goals
    refine (emit _ _).bind fun _ => ?_
    cases value with
    | none => exact pure _
    | some o => exact (move _ _).bind fun _ => changeTable fun t => matures_mapVariable t _ _

theorem parameter (p : Param) : J.Holds k fun _ => Lower.parameter p := by
  refine (marksOf _ _ _).bind fun marks => (freshRid _).bind fun rid => .guarded ?_
  cases p.default with
  | none => exact pure _
  | some n =>
    dsimp only
    cases Operand.ofLiteral? n with
    | none => exact failBind
    | some o => exact table.bind fun _ => .guarded (pure _)

theorem freshFunctionRid (owner : Option SymbolId) (name : String) : J.Holds k fun _ => Lower.freshFunctionRid owner name :=
  table.bind fun _ => take _

theorem functionHead (name : Ident) (owner : Option SymbolId) (params : List Param) (labels : List Label)
    (admitted : List String) : J.Holds k fun _ => Lower.functionHead name owner params labels admitted :=
  (marksOf _ _ _).bind fun _ => (collect fun p => parameter p).bind fun _ => (freshFunctionRid _ _).bind fun _ =>
    pure _

/-- A declared function is completed if the definition fits. -/
theorem fulfil {s : Lowering} {id : SymbolId} {sym : Symbol} {info : FunctionInfo}
    (hopen : (((s.table.get id).function?).getD {}).declared = true) : J.At k s fun _ => Lower.fulfil id sym info := by
  refine J.bind (symbol id s) fun old s' h => ?_
  cases h
  by_cases hsame : Lower.sameHead (((s.table.get id).function?).getD {}) info = true
  · have hcheck : (!Lower.sameHead (((s.table.get id).function?).getD {}) info) = false := by rw [hsame]; rfl
    dsimp only
    rw [if_neg (by rw [hcheck]; exact Bool.false_ne_true)]
    exact changeTableAt (matures_fulfil hopen hsame)
  · have hcheck : (!Lower.sameHead (((s.table.get id).function?).getD {}) info) = true := by simpa using hsame
    dsimp only
    rw [if_pos hcheck]
    exact failBind s

theorem enterParams (id : SymbolId) : J.Holds k fun _ => Lower.enterParams id := by
  refine (symbol id).bind fun s => ?_
  have entered : ∀ receiver : List String, J.Holds k fun _ =>
      Lower.enterBehind receiver (((s.function?).getD {}).params) := fun _ =>
    (forAll fun p => (newSymbol _).bind fun _ => insert _).bind fun _ => pure _
  exact .ite ((freshRid _).bind fun _ => (symbol _).bind fun _ => (newSymbol _).bind fun _ =>
    (insert _).bind fun _ => (pure _).bind entered) ((pure _).bind entered)

theorem thisRid : J.Holds k fun _ => Lower.thisRid := table.bind fun _ => pure _

theorem epilogue (id : SymbolId) (finish : Position) : J.Holds k fun _ => Lower.epilogue id finish :=
  (symbol id).bind fun _ => .ite (thisRid.bind fun _ => emit _ _) (.ite (pure _)
    (.ite (emit _ _) (.ite (pure _) (fail _))))

theorem noteDeclared (id : SymbolId) : J.Holds k fun _ => Lower.noteDeclared id :=
  quiet (fun _ => ⟨rfl, rfl, List.Subset.refl _, [], rfl⟩) (fun _ => ⟨rfl, rfl⟩) fun _ _ _ => rfl

theorem declareFunction (name : Ident) (params : List Param) (labels : List Label) :
    J.Holds k fun _ => Lower.declareFunction name params labels :=
  (functionHead _ _ _ _ _).bind fun (_, _, _) => (newSymbol _).bind fun _ => (insert _).bind fun _ => noteDeclared _

theorem returnNothing (s : Symbol) (f : FunctionInfo) (token : Token) : J.Holds k fun _ => Lower.returnNothing s f token :=
  .ite (thisRid.bind fun _ => emit _ _) (.ite (emit _ _) (.ite (emit _ _) (fail _)))

/-! ## Classes -/

theorem newClass (name : Ident) (info : ClassInfo) : J.Holds k fun _ => Lower.newClass name info :=
  (take _).bind fun _ => (newSymbol _).bind fun id => (insert _).bind fun _ =>
    (changeTable fun t => matures_registerType t id).bind fun _ => pure _

theorem declareClass (name : Ident) : J.Holds k fun _ => Lower.declareClass name :=
  (marksOf _ _ _).bind fun _ => (newClass _ _).bind fun _ => noteDeclared _

theorem openClass (name : Ident) : J.Holds k fun _ => Lower.openClass name := by
  refine table.bind fun t => ?_
  split
  · exact newClass _ _
  · dsimp only
    split
    · exact fail _
    · exact (changeTable fun t => matures_mapClass t _ _).bind fun _ => pure _

theorem setBase (cls : SymbolId) (type : Tag) : J.Holds k fun _ => Lower.setBase cls type :=
  .guarded (table.bind fun _ => (ofExcept _).bind fun _ => .guarded (tryTable fun _ _ => matures_setBase))

theorem classHead (name : Ident) : J.Holds k fun _ => Lower.classHead name := by
  refine (marksOf _ _ _).bind fun marks => (openClass _).bind fun cls => ?_
  refine .ite ((setBase _ _).bind fun _ => ?_) ?_
  all_goals
    dsimp only
    split
    · exact (changeTable fun t => matures_mapClass t _ _).bind fun _ => pure _
    · exact pure _

section
variable (cls : SymbolId)
include cls

theorem defaultPermission : J.Holds k fun _ => Lower.defaultPermission cls := ask _ fun _ _ _ => rfl

theorem collectField (name : Ident) (init : Option Node) : J.Holds k fun _ => Lower.collectField cls name init :=
  (marksOf _ _ _).bind fun _ => .guarded ((freshRid _).bind fun _ => (defaultPermission cls).bind fun _ =>
    (newSymbol _).bind fun _ => tryTable fun _ _ => matures_addMember)

theorem checkOverwrite (s : Symbol) (info : FunctionInfo) : J.Holds k fun _ => Lower.checkOverwrite cls s info := by
  refine table.bind fun t => ?_
  dsimp only
  split
  · exact fail _
  · exact fail _
  · exact pure _

theorem collectMethod (name : Ident) (params : List Param) (labels : List Label) (body : Option Block) :
    J.Holds k fun _ => Lower.collectMethod cls name params labels body := by
  refine (functionHead _ _ _ _ _).bind fun (sym, info, marks) => (defaultPermission cls).bind fun permission =>
    (checkOverwrite _ _ _).bind fun _ => withTable fun s => ?_
  have added : ∀ (id : SymbolId) (static : Bool), J.Holds k fun _ => do
      Lower.tryTable (·.addMember cls id static)
      return (body.map fun b => (id, b)).toList :=
    fun _ _ => (tryTable fun _ _ => matures_addMember).bind fun _ => pure _
  split
  · next old b hold =>
    obtain ⟨-, hfit⟩ := Option.filter_eq_some_iff.mp hold
    exact J.bind (fulfil (Bool.and_eq_true_iff.mp hfit).2) fun _ s' _ => pure [(old, b)] s'
  · refine (newSymbol _).bind (fun id => .ite ?_ (added _ _)) s
    exact (noteDeclared _).bind fun _ => added _ _

theorem newConstructor (pos : Position) (params : List Parameter) (permission : Permission) :
    J.Holds k fun _ => Lower.newConstructor cls pos params permission :=
  (freshFunctionRid _ _).bind fun _ => (symbol _).bind fun _ => (newSymbol _).bind fun _ =>
    (changeTable fun t => matures_mapClass t _ _).bind fun _ => pure _

theorem collectConstructor (name : Ident) (params : List Param) (labels : List Label) :
    J.Holds k fun _ => Lower.collectConstructor cls name params labels :=
  (symbol _).bind fun _ => (marksOf _ _ _).bind fun _ => (collect fun p => parameter p).bind fun _ =>
    (defaultPermission _).bind fun _ => newConstructor _ _ _ _

theorem collectMember (found : Members) (item : Node) : J.Holds k fun _ => Lower.collectMember cls found item := by
  unfold Lower.collectMember
  split
  · exact (forAll fun (name, init) => collectField cls name init).bind fun _ => pure _
  · exact (collectMethod _ _ _ _ _).bind fun _ => pure _
  · exact (collectMethod _ _ _ _ _).bind fun _ => pure _
  · exact (collectConstructor _ _ _ _).bind fun _ => pure _
  · exact pure _
  · exact fail _

theorem collectMembers (found : Members) (nodes : List Node) :
    J.Holds k fun _ => Lower.collectMembers cls found nodes := by
  induction nodes generalizing found with
  | nil => exact pure found
  | cons item rest ih => exact (collectMember cls found item).bind fun found => ih found

theorem completeMembers (found : Members) : J.Holds k fun _ => Lower.completeMembers cls found :=
  (symbol cls).bind fun _ => table.bind fun _ =>
    .ite ((newConstructor _ _ _ _).bind fun _ => pure _) (pure _)

end

/-! ## Nodes -/

theorem literal (n : Node) : J.Holds true fun _ => match Operand.ofLiteral? n with
    | some o => Lower.push o
    | none => Lower.fail (Complaint.unsupported n) := by
  split
  · exact push _
  · exact fail _

/-! ## Functions -/

section Bodies

variable {bodies : I → List Node → Lower Unit} (hbodies : ∀ ns : List Node, J.Holds false fun i => bodies i ns)

include hbodies

theorem functionBody (id : SymbolId) (body : Block) {before : I → Lower Unit} (hbefore : J.Holds false before) :
    J.Holds k fun i => Lower.functionBody (bodies i) id body (before i) :=
  inScope (inside ((enterParams id).bind fun _ =>
    (apart (hbefore.bind fun _ => (hbodies body.items).bind fun _ => epilogue id body.finish)).bind fun _ =>
      (symbol id).bind fun _ => (emit _ _).bind fun _ => (append _).bind fun _ => emit _ _))

theorem defineFunction (name : Ident) (params : List Param) (labels : List Label) (body : Block) :
    J.Holds k fun i => Lower.defineFunction (bodies i) name params labels body := by
  refine (functionHead _ _ _ _ _).bind fun (sym, info, _) => withTable fun s => ?_
  have written : ∀ id, J.Holds k fun i => Lower.functionBody (bodies i) id body (Pure.pure ()) :=
    fun id => functionBody hbodies id body (pure ())
  dsimp only
  split
  · next old hold =>
    obtain ⟨-, hopen⟩ := Option.filter_eq_some_iff.mp hold
    exact J.bind (fulfil hopen) fun _ s' _ => (pure old).bind written s'
  · exact (newSymbol sym).bind (fun id => (insert id).bind fun _ => (pure id).bind written) s

theorem lambda (token : Token) (params : List Param) (labels : List Label) (body : Block) :
    J.Holds true fun i => Lower.lambda (bodies i) token params labels body :=
  (marksOf _ _ _).bind fun _ => (collect fun p => parameter p).bind fun _ => (freshFunctionRid _ _).bind fun _ =>
    (newSymbol _).bind fun _ => (functionBody hbodies _ body (pure ())).bind fun _ => table.bind fun _ => push _

end Bodies

/-! # Constructs around nodes -/

section Nodes

variable {v : I → Visit} (hv : ∀ n : Node, J.Holds n.leaves fun i => v i n)

include hv

/-! ## Expressions -/

theorem unary (op : Token) (operand n : Node) : J.Holds true fun i => Lower.unary (v i) op operand n := by
  unfold Lower.unary
  split
  · split
    · exact push _
    · exact (eval hv _).bind fun _ => .guarded (compute fun _ => push _)
  · exact (eval hv _).bind fun _ => compute fun _ => push _
  · exact fail _
  · exact fail _
  · exact fail _

theorem list (elements : List Node) (n : Node) : J.Holds true fun i => Lower.list (v i) elements n :=
  compute fun _ =>
    (forAll fun element => (eval hv element).bind fun _ => emit _ _).bind fun _ => push _

theorem dict (pairs : List Node) (n : Node) : J.Holds true fun i => Lower.dict (v i) pairs n := by
  refine freshTemp.bind fun result => (emit _ _).bind fun _ => (forAll fun pair => ?_).bind fun _ => push _
  cases pair with
  | pair key _ value => exact (eval hv key).bind fun _ => (eval hv value).bind fun _ => emit _ _
  | _ => exact fail _

theorem indexed (left subscript : Node) : J.Holds k fun i => Lower.indexed (v i) left subscript :=
  (eval hv left).bind fun _ => (checkIndexable _ _).bind fun _ => (eval hv subscript).bind fun _ => pure _

theorem index (left subscript n : Node) : J.Holds true fun i => Lower.index (v i) left subscript n :=
  (indexed hv left subscript).bind fun (_, _) => compute fun _ => push _

theorem group (body : Option Node) (n : Node) : J.Holds true fun i => Lower.group (v i) body n := by
  unfold Lower.group
  split
  · exact fail _
  · split
    · exact fail _
    · exact (forAll fun item => exec hv item).bind fun _ => (hv _).weaken
  · exact (hv _).weaken

theorem resolveMember (object : Node) (name : Ident) : J.Holds k fun i => Lower.resolveMember (v i) object name := by
  refine (eval hv object).bind fun o => table.bind fun t => ?_
  dsimp only
  split
  · exact (assertedFor _ _).bind fun _ => (ofExcept _).bind fun _ => .guarded (pure _)
  · exact .guarded ((ofExcept _).bind fun _ => (assertedFor _ _).bind fun _ => (ofExcept _).bind fun _ => pure _)

theorem member (object : Node) (name : Ident) (n : Node) : J.Holds true fun i => Lower.member (v i) object name n := by
  refine (resolveMember hv object name).bind fun found => (readMember found n).bind fun o => ?_
  cases o with
  | some o => exact push _
  | none => exact fail _

/-! ## Assignments -/

theorem resolveTarget (n : Node) : J.Holds k fun i => Lower.resolveTarget (v i) n := by
  unfold Lower.resolveTarget
  split
  · refine .guarded (table.bind fun t => ?_)
    split
    · exact .ite (pure _) (fail _)
    · refine (implicitMember _).bind fun found => ?_
      cases found with
      | none => exact fail _
      | some found => exact .ite (pure _) (fail _)
  · exact (resolveMember hv _ _).bind fun _ => table.bind fun _ => .ite (pure _) (fail _)
  · exact (indexed hv _ _).bind fun (_, _) => pure _
  · exact fail _

theorem assign (target : Node) (op : Token) (value n : Node) : J.Holds true fun i => Lower.assign (v i) target op value n :=
  (eval hv value).bind fun _ => (resolveTarget hv target).bind fun place => (checkConst _ _).bind fun _ =>
    .ite ((pure _).bind fun result => settle place value result)
      ((loadTarget _ _).bind fun _ => (binary _ _ _ _ _).bind fun result => settle place value result)

theorem increment (operand : Node) (op : Token) (n : Node) : J.Holds true fun i => Lower.increment (v i) operand op n := by
  refine (resolveTarget hv operand).bind fun place => (checkConst _ _).bind fun _ => (loadTarget _ _).bind fun current =>
    .guarded (freshTemp.bind fun before => (emit _ _).bind fun _ => ?_)
  cases place with
  | slot id => exact (emit _ _).bind fun _ => push _
  | _ => exact compute fun _ => (storeTarget _ _).bind fun _ => push _

/-! ## Calls -/

theorem argument (n : Node) : J.Holds k fun i => Lower.argument (v i) n := by
  unfold Lower.argument
  split
  · exact (eval hv _).bind fun _ => pure _
  · exact (eval hv _).bind fun _ => pure _

theorem call (callee : Node) (args : List Node) (n : Node) : J.Holds true fun i => Lower.call (v i) callee args n := by
  refine (eval hv callee).bind fun o => (collect fun a => argument hv a).bind fun given => table.bind fun t => ?_
  dsimp only
  split
  · exact construct _ _ _
  · split
    · exact .ite (callBuiltin _ _ _) (callFunction _ _ _ _)
    · exact .ite (callIndirect _ _ _ _) (fail _)

/-! ## Control flow -/

theorem condition (c : Condition) : J.Holds k fun i => Lower.condition (v i) c := by
  refine (ask _ fun _ _ _ => rfl).bind fun finish => ?_
  cases finish with
  | none => exact fail _
  | some finish =>
    exact (eval hv _).bind fun _ => (materialize _).bind fun _ => freshLabel.bind fun _ => (emit _ _).bind fun _ =>
      (hv (.block _)).bind fun _ => (emit _ _).bind fun _ => emit _ _

theorem branch (tests : List Condition) (otherwise : Option Block) : J.Holds k fun i => Lower.branch (v i) tests otherwise := by
  refine freshLabel.bind fun finish => forEffectOn (k := false) ((forAll fun c => condition hv c).bind fun _ => ?_)
  cases otherwise with
  | some body => exact (hv (.block _)).bind fun _ => emit _ _
  | none => exact emit _ _

theorem round (test : Node) (update : Option Node) (body : Block) (start finish next : String) :
    J.Holds k fun i => Lower.round (v i) test update body start finish next := by
  refine (emit _ _).bind fun _ => (eval hv test).bind fun _ => (materialize _).bind fun _ => (emit _ _).bind fun _ =>
    (hv (.block _)).bind fun _ => ?_
  cases update with
  | some n => exact (emit _ _).bind fun _ => (exec hv n).bind fun _ => (emit _ _).bind fun _ => emit _ _
  | none => exact (pure _).bind fun _ => (emit _ _).bind fun _ => emit _ _

theorem rounds (pos : Position) (test : Node) (update : Option Node) (body : Block) (start finish next : String) :
    J.Holds k fun i => Lower.rounds (v i) pos test update body start finish next :=
  (enterTarget _ _ _).bind fun _ => (enterTarget _ _ _).bind fun _ =>
    (emit _ _).bind fun _ => (round hv test update body start finish next).bind fun _ => emit _ _

theorem loop (pos : Position) (init : Option Node) (test : Node) (update : Option Node) (body : Block) :
    J.Holds k fun i => Lower.loop (v i) pos init test update body := by
  rw [show (fun i => Lower.loop (v i) pos init test update body) = _ from
    funext fun i => loop_eq pos init test update body]
  have labelled : J.Holds k fun i => Lower.labelled (v i) pos test update body := by
    refine freshLabel.bind fun start => freshLabel.bind fun finish => .ite ?_ ?_
    · exact freshLabel.bind fun next => rounds hv _ _ _ _ _ _ _
    · exact (pure _).bind fun next => rounds hv _ _ _ _ _ _ _
  refine inScope ?_
  cases init with
  | some n => exact (exec hv n).bind fun _ => labelled
  | none => exact labelled

/-! ## Variables and functions -/

theorem defineVariable (name : Ident) (init : Option Node) : J.Holds k fun i => Lower.defineVariable (v i) name init := by
  refine (marksOf _ _ _).bind fun marks => ?_
  cases init with
  | none => exact .guarded ((pure none).bind fun value => introduce name marks value)
  | some n =>
    exact (eval hv n).bind fun o => table.bind fun t => .guarded ((pure (some o)).bind fun value =>
      introduce name marks value)

theorem defineVariables (names : List Ident) (values : List (Option Node)) :
    J.Holds k fun i => Lower.defineVariables (v i) names values := forAll fun (name, init) => defineVariable hv name init

theorem returnValue (s : Symbol) (f : FunctionInfo) (value : Node) : J.Holds k fun i => Lower.returnValue (v i) s f value :=
  .guarded ((eval hv value).bind fun _ => table.bind fun _ => .guarded (emit _ _))

theorem returnFrom (token : Token) (value : Option Node) : J.Holds k fun i => Lower.returnFrom (v i) token value := by
  refine currentFunction.bind fun f => table.bind fun t => ?_
  dsimp only
  split
  · refine (changeTable fun t => matures_returned t _).bind fun _ => (symbol _).bind fun s => ?_
    cases value with
    | none => exact returnNothing _ _ _
    | some n => exact returnValue hv _ _ n
  · exact fail _

/-! ## Classes -/

theorem initField (object : String) (field : SymbolId) : J.Holds k fun i => Lower.initField (v i) object field := by
  refine (symbol field).bind fun s => ?_
  dsimp only
  split
  · exact pure _
  · exact (eval hv _).bind fun _ => table.bind fun _ => .guarded ((emit _ _).bind fun _ =>
      changeTable fun t => matures_mapVariable t _ _)

theorem initInstance (cls : SymbolId) : J.Holds k fun i => Lower.initInstance (v i) cls :=
  thisRid.bind fun object => table.bind fun _ => forAll fun _ => forAll fun field => initField hv object field

theorem emitClass {bodies : I → List Node → Lower Unit} (hbodies : ∀ ns : List Node, J.Holds false fun i => bodies i ns)
    (cls : SymbolId) (found : Members) : J.Holds k fun i => Lower.emitClass (v i) (bodies i) cls found :=
  table.bind fun _ => (emit _ _).bind fun _ => (forAll fun _ => emit _ _).bind fun _ =>
    (forAll fun _ => emit _ _).bind fun _ => (forAll fun field => initField hv _ field).bind fun _ =>
      (forAll fun (id, body) => functionBody hbodies id body (initInstance hv cls)).bind fun _ =>
        forAll fun (id, body) => functionBody hbodies id body (pure ())

theorem defineClass {bodies : I → List Node → Lower Unit} (hbodies : ∀ ns : List Node, J.Holds false fun i => bodies i ns)
    (name : Ident) (body : Block) : J.Holds k fun i => Lower.defineClass (v i) (bodies i) name body :=
  (classHead name).bind fun cls => inScope (inside ((collectMembers cls {} body.items).bind fun _ =>
    (completeMembers cls _).bind fun found => (changeTable fun t => matures_mapClass t _ _).bind fun _ =>
      emitClass hv hbodies cls found))

/-! ## Nodes -/

theorem block (b : Block) : J.Holds k fun i => Lower.block (v i) b := inScope (items hv b.items)

/-- A judgement holds of every node, if it holds of the nodes inside of it and of imports. -/
theorem visitWith (himport : ∀ path n, J.Holds true fun i => Lower.importFile (Lower.unit (v i)) path n) (n : Node) :
    J.Holds n.leaves fun i => Lower.visitWith (v i) n := by
  unfold Lower.visitWith
  cases n with
  | ident name => exact ident _ _
  | this token => exact this _
  | unary op operand => exact unary hv _ _ _
  | binary left op right =>
    exact (eval hv left).bind fun _ => (eval hv right).bind fun _ => (binary _ _ _ _ _).bind fun _ => push _
  | increment operand op => exact increment hv _ _ _
  | assign target op value => exact assign hv _ _ _ _
  | parallel ns => exact forAll (exec hv)
  | group _ _ _ inner => exact group hv _ _
  | block b => exact block hv _
  | list _ elements => exact list hv _ _
  | dict _ pairs => exact dict hv _ _
  | call callee _ _ args => exact call hv _ _ _
  | index left _ subscript => exact index hv _ _ _
  | member object _ name => exact member hv _ _ _
  | varDef _ names values => exact defineVariables hv _ _
  | funDecl _ name params labels => exact declareFunction _ _ _
  | funDef _ name params labels b _ => exact defineFunction (items hv) _ _ _ _
  | lambda token params labels b => exact lambda (items hv) _ _ _ _
  | classDecl _ name => exact declareClass _
  | classDef _ name b => exact defineClass hv (items hv) _ _
  | branch tests otherwise => exact branch hv _ _
  | whileLoop token test b => exact loop hv _ _ _ _ _
  | forLoop token init test update b => exact loop hv _ _ _ _ _
  | pass _ => exact pure _
  | breakOut token => exact breakOut _
  | continueOn token => exact continueOn _
  | returnFrom token value => exact returnFrom hv _ _
  | importFile _ path => exact himport _ _
  | int token value => exact literal (.int token value)
  | float token value => exact literal (.float token value)
  | str token => exact literal (.str token)
  | bool token value => exact literal (.bool token value)
  | null token => exact literal (.null token)
  | pair | arrow | argument | constructor => exact fail _

end Nodes

/-! # Files -/

/-- A judgement that also covers what looks at files: steps that leave the operands and the table alone, and steps
around which nothing is done to these. -/
structure Files (J : Judgement base) : Prop where
  step : ∀ {k : Bool} {s : Lowering} {α : Type} {p : Lower α}, (p s).2.operands = s.operands →
    (p s).2.table = s.table → J.At k s fun _ => p
  around : ∀ {k : Bool} {s u : Lowering} {α : Type} {p q : I → Lower α}
    (leave : Except Failure α × Lowering → Except Failure α × Lowering), J.At k u p → (∀ i, q i s = leave (p i u)) →
    (u.operands = s.operands ∧ u.table = s.table) →
    (∀ r, (leave r).2.operands = r.2.operands ∧ (leave r).2.table = r.2.table) →
    (∀ r a, (leave r).1 = .ok a → r.1 = .ok a) → J.At k s q

/-- What is left of a step whose failure is shown in the file at hand. -/
def shown : Except Failure α × Lowering → Except Failure α × Lowering
  | (.error (.diagnostic d), s) => (.error (.diagnostic (Failure.complete s.file s.source d)), s)
  | other => other

namespace Files

variable (hJ : J.Files)

include hJ

theorem ask (g : Lowering → α) : J.Holds k fun _ => Lower.ask g := fun _ => hJ.step rfl rfl

theorem startFile (file : String) : J.Holds k fun _ => Lower.startFile file := by
  refine fun s => hJ.step ?_ ?_
  all_goals
    unfold Lower.startFile
    split
    · rfl
    · split <;> rfl

theorem showingLine {p : I → Lower α} (hp : J.Holds k p) : J.Holds k fun i => Lower.showingLine (p i) := by
  refine fun s => hJ.around shown (hp s) (fun _ => rfl) ⟨rfl, rfl⟩ (fun r => ?_) fun r a h => ?_
  · unfold shown
    split <;> exact ⟨rfl, rfl⟩
  · unfold shown at h
    split at h
    · cases h
    · exact h

variable {v : I → Visit} (hv : ∀ n : Node, J.Holds n.leaves fun i => v i n)

include hv

theorem unit (p : Program) (src : Source) : J.Holds k fun i => Lower.unit (v i) p src := by
  have inner : J.Holds k fun i => (do
      Lower.startFile p.file
      Lower.showingLine (Lower.items (v i) p.body) : Lower Unit) :=
    (hJ.startFile p.file).bind fun _ => hJ.showingLine (items hv p.body)
  exact fun s => hJ.around
    (fun r => (r.1, { r.2 with
      file := s.file
      source := s.source
      session := { r.2.session with imports := r.2.session.imports.popTo s.session.imports.depth } }))
    (inner { s with file := p.file, source := src }) (fun _ => rfl) ⟨rfl, rfl⟩ (fun _ => ⟨rfl, rfl⟩) fun _ _ h => h

theorem importFile (path : Token) (n : Node) : J.Holds k fun i => Lower.importFile (Lower.unit (v i)) path n := by
  refine table.bind fun _ => .guarded ((hJ.ask _).bind fun imports => (hJ.ask _).bind fun files =>
    (hJ.ask _).bind fun file => ?_)
  split
  · exact fail _
  · refine .ite (fail _) (.ite (pure _) ?_)
    split
    · exact fail _
    · dsimp only
      split
      · exact fun _ => hJ.step rfl rfl
      · exact hJ.unit hv _ _

theorem visitWith (n : Node) : J.Holds n.leaves fun i => Lower.visitWith (v i) n :=
  Judgement.visitWith hv (hJ.importFile hv) n

end Files

end Frontend.Lower.Judgement
