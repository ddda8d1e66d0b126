import Frontend.Proofs.Blur.Expression
import Frontend.Proofs.Lowering.Function

/-!
# Calls and definitions out of focus

Calls, variables, functions and classes: what they make and what they refuse does not depend on what is
forgotten.
-/

namespace Frontend

/-- The place of a call out of focus. -/
def Lower.CallSite.moved (b : Blur) (site : Lower.CallSite) : Lower.CallSite :=
  ⟨site.callee.moved b.place, site.node.moved b.place⟩

/-- Makes a method that was not declared before; one without a body is only declared. -/
def Lower.addMethod (cls : SymbolId) (s : Symbol) (info : FunctionInfo) (body : Option Block) :
    Lower (List Bodied) := do
  let id ← newSymbol { s with detail := .function info }
  if info.declared && !info.virtual then noteDeclared id
  tryTable (·.addMember cls id info.static)
  return (body.map fun b => (id, b)).toList

/-- The members of a class that have bodies, out of focus. -/
def Lower.Members.blurred (b : Blur) (m : Lower.Members) : Lower.Members :=
  ⟨m.constructors.map (Prod.map id (Block.moved b.place)), m.methods.map (Prod.map id (Block.moved b.place))⟩

theorem Block.moved_default (b : Blur) : (default : Block).moved b.place = default := by
  have htoken : (default : Token).moved b.place = default := by
    change ({ (default : Token) with pos := b.place {} } : Token) = default
    rw [b.origin]
    rfl
  change Block.mk ((default : Token).moved b.place) ((default : Token).moved b.place) [] = default
  rw [htoken]
  rfl

namespace Blurs

variable {b : Blur} {visit visit' : Visit} {items items' : List Node → Lower Unit}

/-! ## Calls -/

section
variable (hv : ∀ n, Blurs b id (visit n) (visit' (n.moved b.place)))
include hv

theorem argument (n : Node) : Blurs b (Argument.blurred b) (Lower.argument visit n)
      (Lower.argument visit' (n.moved b.place)) := by
  cases n with
  | argument name value => exact (eval hv value).bind fun _ => .pure rfl
  | _ => exact (eval hv _).bind fun _ => .pure rfl

omit hv

theorem emitBinding (x : Binding) : Blurs b id (Lower.emitBinding x) (Lower.emitBinding (x.blurred b)) := by
  unfold Lower.emitBinding
  rw [show (x.blurred b).param.kind = x.param.kind from rfl,
    show (x.blurred b).rest = x.rest.map (Argument.blurred b) from rfl,
    show (x.blurred b).value = x.value.map (Argument.blurred b) from rfl]
  have hdefault : (((x.blurred b).param.default.bind Operand.ofLiteral?).map (·.raw)).getD "" =
      ((x.param.default.bind Operand.ofLiteral?).map (·.raw)).getD "" := by
    rw [show (x.blurred b).param.default = x.param.default.map (Node.moved b.place) from rfl]
    cases x.param.default with
    | none => rfl
    | some n => simp [Operand.ofLiteral?_moved, Function.comp_def]
  cases x.param.kind with
  | restPositional =>
    refine freshTemp.bind fun list => (emit _ _).bind fun _ => ?_
    refine .bind (.forAll fun a => ?_) fun _ => .pure (by simp)
    exact emit _ _
  | restKeyword =>
    refine freshTemp.bind fun dict => (emit _ _).bind fun _ => ?_
    refine .bind (.forAll fun a => ?_) fun _ => .pure (by simp)
    exact emit _ _
  | positional | keyword =>
    cases x.value with
    | some a => exact .pure rfl
    | none => exact .pure hdefault

theorem chooseConstructor_blurred (t : SymbolTable) (args : List Argument) (pos pos' : Position)
    (ids : List SymbolId) :
    (Lower.chooseConstructor (t.blurred b) (args.map (Argument.blurred b)) pos' ids).toOption =
      (Lower.chooseConstructor t args pos ids).toOption.map (Prod.map id (List.map (Binding.blurred b))) := by
  induction ids with
  | nil => rfl
  | cons i rest ih =>
    have hplan := Binding.plan_blurred (b := b) t (t.get i).name
      (((t.get i).function?).getD {}).params args pos pos'
    rw [Lower.chooseConstructor, Lower.chooseConstructor]
    simp only [SymbolTable.get_blurred, Symbol.getD_function?_blurred, Symbol.name_blurred,
      FunctionInfo.params_blurred]
    obtain ⟨bindings, h, h'⟩ | ⟨d, d', h, h'⟩ := cases_of_toOption_eq_map hplan
    · rw [h, h']
      rfl
    · rw [h, h']
      dsimp only
      obtain ⟨found, h, h'⟩ | ⟨lines, lines', h, h'⟩ := cases_of_toOption_eq_map ih
      · rw [h, h']
        rfl
      · rw [h, h']
        rfl

theorem construct (cls : SymbolId) (args : List Argument) (site : Lower.CallSite) :
    Blurs b id (Lower.construct cls args site)
      (Lower.construct cls (args.map (Argument.blurred b)) (site.moved b)) := by
  refine table.bind fun t => ?_
  dsimp only
  rw [SymbolTable.classInfo_blurred, SymbolTable.get_blurred]
  refine guarded ?_ Iff.rfl
  obtain ⟨⟨i, bindings⟩, h, h'⟩ | ⟨lines, lines', h, h'⟩ := cases_of_toOption_eq_map
    (chooseConstructor_blurred (b := b) t args site.pos (site.moved b).pos (t.classInfo cls).constructors)
  · rw [h, h']
    refine currentClass.bind fun _ => guarded (freshTemp.bind fun object => ?_) (by simp)
    refine (emit _ _).bind fun _ => (Blurs.collect emitBinding).bind fun raws => ?_
    simp only [SymbolTable.get_blurred, id, Symbol.rid_blurred, Symbol.name_blurred, List.map_id]
    refine (emit _ _).bind fun _ => push ?_
    rw [← Operand.temp_moved, Tag.blurred_ofClass]
    rfl
  · rw [h, h']
    exact .fail _ _

theorem callFunction (i : SymbolId) (callee : Operand) (args : List Argument) (site : Lower.CallSite) :
    Blurs b id (Lower.callFunction i callee args site)
      (Lower.callFunction i (callee.blurred b) (args.map (Argument.blurred b)) (site.moved b)) := by
  refine table.bind fun t => ?_
  simp only [SymbolTable.get_blurred, Symbol.getD_function?_blurred, Symbol.name_blurred,
    FunctionInfo.params_blurred, Operand.receiver_blurred]
  refine (Blurs.ofExcept (Binding.plan_blurred ..)).bind fun bindings => ?_
  have passed : ∀ (f : FunctionInfo) (receiver : List String),
      Blurs b id (Lower.callBound callee f bindings site.node receiver) (Lower.callBound (callee.blurred b) (f.blurred b)
        (bindings.map (Binding.blurred b)) (site.node.moved b.place) receiver) := by
    intro f receiver
    refine (Blurs.collect emitBinding).bind fun bound => ?_
    rw [List.map_id]
    refine .ite ?_ ?_ (by simp)
    · exact compute fun _ => push (by simp)
    · exact (emit _ _).bind fun _ => push (by simp)
  refine .ite ?_ (passed _ _) Iff.rfl
  cases callee.receiver.filter (!·.static) with
  | some r => exact (Blurs.pure (f := id) rfl).bind fun _ => passed _ _
  | none => exact failBind

theorem describedFault?_blurred (t : SymbolTable) (callee : Operand) (params : List Tag)
    (args : List Argument) (site : Lower.CallSite) :
    (Lower.describedFault? (t.blurred b) (callee.blurred b) (params.map (Tag.blurred b))
      (args.map (Argument.blurred b)) (site.moved b)).isSome =
      (Lower.describedFault? t callee params args site).isSome := by
  unfold Lower.describedFault?
  simp only [List.length_map]
  split
  · rfl
  · split
    · rfl
    · rw [List.zip_map]
      refine isSome_findSome?_map ?_ _
      rintro ⟨p, a⟩
      simp only [Prod.map, show (a.blurred b).value = a.value.blurred b from rfl,
        Operand.effective_blurred, SymbolTable.assignable_blurred]
      split <;> rfl

theorem callIndirect (callee : Operand) (type : Tag) (args : List Argument) (site : Lower.CallSite) :
    Blurs b id (Lower.callIndirect callee type args site)
      (Lower.callIndirect (callee.blurred b) (type.blurred b) (args.map (Argument.blurred b)) (site.moved b)) := by
  have hraws : (args.map (Argument.blurred b)).map (·.value.raw) = args.map (·.value.raw) := by
    rw [List.map_map]
    rfl
  have hnamed : (args.map (Argument.blurred b)).find? (!·.name.isEmpty) =
      (args.find? (!·.name.isEmpty)).map (Argument.blurred b) := by
    rw [List.find?_map]
    rfl
  have passed : Blurs b id (Lower.callValueWith callee type (args.map (·.value.raw)) site.node)
      (Lower.callValueWith (callee.blurred b) (type.blurred b) (args.map (·.value.raw)) (site.node.moved b.place)) := by
    refine .ite ?_ ?_ (by simp)
    · exact (emit _ _).bind fun _ => push (by simp)
    · exact compute fun _ => push (by simp)
  unfold Lower.callIndirect
  dsimp only
  rw [hraws, hnamed]
  cases args.find? (!·.name.isEmpty) with
  | some a => exact failBind
  | none =>
    refine .ite ?_ passed (by simp)
    refine table.bind fun t => ?_
    rw [Tag.params_blurred]
    exact (Blurs.refuse (describedFault?_blurred ..)).bind fun _ => passed

/-- How the value of an argument is written does not show where it stands. -/
theorem written_moved (n : Node) : (match n.moved b.place with
      | .argument _ value => value.text
      | n => n.text) = (match n with
      | .argument _ value => value.text
      | n => n.text) := by
  cases n with
  | argument name value => exact Node.text_moved value
  | _ => exact Node.text_moved _

theorem builtinArgs_blurred (entry : Builtin) (done : List BuiltinArg) (args : List Argument) :
    (Lower.builtinArgs entry done (args.map (Argument.blurred b))).toOption =
      (Lower.builtinArgs entry done args).toOption := by
  induction args generalizing done with
  | nil => rfl
  | cons a rest ih =>
    rw [List.map_cons, Lower.builtinArgs, Lower.builtinArgs]
    simp only [show (a.blurred b).name = a.name from rfl,
      show (a.blurred b).value = a.value.blurred b from rfl, Operand.raw_blurred,
      Operand.effective_blurred, Tag.text_blurred, Operand.isLiteral_blurred]
    split
    · rfl
    · split
      · rfl
      · exact (congrArg (fun w => (Lower.builtinArgs entry (⟨_, _, _, _, w⟩ :: done) _).toOption)
          (written_moved a.node)).trans (ih _)

/-- A generator is asked; what it refuses is refused, and what it gives is used. -/
theorem generate {entry : Builtin} {call call' : BuiltinCall} {k k' : Except Refusal Emission → Lower Unit}
    (hgives : ∀ supply, entry.gives? call' supply = entry.gives? call supply)
    (hok : ∀ emission, Blurs b id (k (.ok emission)) (k' (.ok emission)))
    (herror : ∀ r, ∃ d, k (.error r) = Lower.fail d) (herror' : ∀ r, ∃ d, k' (.error r) = Lower.fail d) :
    Blurs b id (Lower.generate entry call >>= k) (Lower.generate entry call' >>= k') where
  same s hs := by
    have hsupply := hgives s.session.supply
    unfold Builtin.gives? at hsupply
    change Lower.outcome? (fun s => Lower.andThen (Lower.generate entry call') k' s) _ =
      Option.map _ (Lower.outcome? (fun s => Lower.andThen (Lower.generate entry call) k s) _)
    unfold Lower.outcome? Lower.andThen Lower.generate
    dsimp only
    rw [show (s.blurred b).session.supply = s.session.supply from rfl]
    revert hsupply
    rcases entry.generate call s.session.supply with ⟨r | emission, supply⟩ <;>
      rcases entry.generate call' s.session.supply with ⟨r' | emission', supply'⟩ <;>
      intro hsupply
    · obtain ⟨d, hd⟩ := herror r
      obtain ⟨d', hd'⟩ := herror' r'
      rw [hd, hd']
      rfl
    · cases hsupply
    · cases hsupply
    · cases hsupply
      exact (hok emission).same { s with session := { s.session with supply } }
        ⟨hs.builtins, hs.noted⟩
  keeps s hs := by
    change Blur.Keeps s (Lower.andThen (Lower.generate entry call) k s).2
    unfold Lower.andThen Lower.generate
    dsimp only
    rcases entry.generate call s.session.supply with ⟨r | emission, supply⟩
    · obtain ⟨d, hd⟩ := herror r
      rw [hd]
      exact ⟨rfl, rfl⟩
    · have hkept := (hok emission).keeps { s with session := { s.session with supply } }
        ⟨hs.builtins, hs.noted⟩
      exact ⟨hkept.builtins, hkept.annotate⟩

/-- The built-in functions at hand. -/
theorem builtins {β : Type} {g : β → β} {k k' : Registry → Lower β}
    (hk : ∀ r, b.Spares r → Blurs b g (k r) (k' r)) :
    Blurs b g (Lower.ask (·.session.builtins) >>= k) (Lower.ask (·.session.builtins) >>= k') where
  same s hs := (hk _ hs.builtins).same s hs
  keeps s hs := (hk _ hs.builtins).keeps s hs

theorem code_items (emission : Emission) : b.code emission.items = emission.items := by
  refine Blur.code_eq_self fun item hitem => ?_
  cases emission with
  | instructions is =>
    obtain ⟨i, -, rfl⟩ := List.mem_map.mp hitem
    rfl
  | verbatim text =>
    change item ∈ (if text.isEmpty then [] else [CodeItem.passage text]) at hitem
    split at hitem
    · cases hitem
    · cases List.mem_singleton.mp hitem
      rfl

theorem generated {registry : Registry} {entry : Builtin} (hspares : b.Spares registry) (sym : Symbol)
    (hfind : registry.find? sym.name = some entry) (given : List BuiltinArg)
    (site : Lower.CallSite) (result : String) : Blurs b id (Lower.generated entry sym given site result)
      (Lower.generated entry (sym.blurred b) given (site.moved b) result) := by
  refine generate (fun supply => ?_) (fun emission => guarded ?_ (by simp)) ?_ ?_
  · exact hspares _ entry hfind ⟨sym.name, given, result, {}⟩ supply site.callee
  · refine (append (code_items emission).symm).bind fun _ => push ?_
    rw [Symbol.getD_function?_blurred, FunctionInfo.result_blurred, apply_ite (Operand.blurred b),
      ← Operand.temp_moved, ← Operand.null_moved]
    rfl
  · rintro (d | message) <;> exact ⟨_, rfl⟩
  · rintro (d | message) <;> exact ⟨_, rfl⟩

theorem callBuiltin (i : SymbolId) (args : List Argument) (site : Lower.CallSite) :
    Blurs b id (Lower.callBuiltin i args site)
      (Lower.callBuiltin i (args.map (Argument.blurred b)) (site.moved b)) := by
  refine (symbol i).bind fun sym => builtins fun registry hspares => ?_
  dsimp only
  rw [Symbol.name_blurred]
  cases hfind : registry.find? sym.name with
  | none => exact .fail _ _
  | some entry =>
    refine (Blurs.ofExcept (f := id) ?_).bind fun given => guarded ?_ Iff.rfl
    · rw [builtinArgs_blurred, Option.map_id, id]
    refine .ite ?_ ?_ Iff.rfl
    · exact freshTemp.bind fun result => generated hspares sym hfind given site result
    · exact (Blurs.pure (f := id) rfl).bind fun result =>
        generated hspares sym hfind given site result

include hv

theorem call (callee : Node) (args : List Node) (n : Node) : Blurs b id (Lower.call visit callee args n)
      (Lower.call visit' (callee.moved b.place) (args.map (Node.moved b.place)) (n.moved b.place)) := by
  refine (eval hv callee).bind fun o => (Blurs.collect (argument hv)).bind fun given => ?_
  refine table.bind fun t => ?_
  simp only [Operand.effective_blurred, Tag.isClass_blurred, Operand.class?_blurred, Operand.function?_blurred]
  cases if o.effective.isClass then none else o.class? t with
  | some cls => exact construct cls given ⟨callee, n⟩
  | none =>
    cases o.function? t with
    | some i =>
      simp only [SymbolTable.get_blurred, Symbol.getD_function?_blurred]
      exact .ite (callBuiltin i given ⟨callee, n⟩) (callFunction i o given ⟨callee, n⟩) (by simp)
    | none => exact .ite (callIndirect o _ given ⟨callee, n⟩) (.fail _ _) (by simp)

omit hv

/-! ## Variables -/

theorem introduce (name : Ident) (marks : Marks) (value : Option Operand) :
    Blurs b id (Lower.introduce name marks value)
      (Lower.introduce (name.moved b.place) (marks.blurred b) (value.map (Operand.blurred b))) := by
  refine (freshRid _).bind fun rid => (newSymbol ?_).bind fun i => ?_
  · simp [Symbol.blurred, SymbolDetail.blurred, VariableInfo.blurred]
  dsimp only
  rw [Marks.lifeCycle?_blurred]
  refine .ite ((tryTable fun t => t.insertAt_blurred 0 i).bind fun _ => ?_)
    ((insert i).bind fun _ => ?_) Iff.rfl
  all_goals
    refine (emit _ _).bind fun _ => ?_
    cases value with
    | none => exact .pure (by simp)
    | some o =>
      refine (move rid rfl).bind fun _ => modifyVariable i fun v => ?_
      simp only [VariableInfo.blurred, Marks.typeOrAny_blurred, Tag.isAny_blurred,
        Operand.effective_blurred, Operand.meaning_blurred, apply_ite (Tag.blurred b)]

include hv

theorem defineVariable (name : Ident) (init : Option Node) : Blurs b id (Lower.defineVariable visit name init)
      (Lower.defineVariable visit' (name.moved b.place) (init.map (Node.moved b.place))) := by
  refine (marksOf _ _ _).bind fun marks => ?_
  cases init with
  | none => exact guarded (introduce name marks none) (by simp)
  | some n =>
    refine (eval hv n).bind fun o => table.bind fun t => guarded (introduce name marks (some o)) ?_
    rw [Marks.typeOrAny_blurred, Operand.effective_blurred, SymbolTable.assignable_blurred]

theorem defineVariables (names : List Ident) (values : List (Option Node)) :
    Blurs b id (Lower.defineVariables visit names values)
      (Lower.defineVariables visit' (names.map (Ident.moved b.place))
        (values.map (Option.map (Node.moved b.place)))) := by
  unfold Lower.defineVariables
  rw [List.zip_map]
  exact .forAll fun x => defineVariable hv x.1 x.2

omit hv

/-! ## Functions -/

theorem paramType_blurred (kind : ParamKind) (marks : Marks) :
    Lower.paramType kind (marks.blurred b) = (Lower.paramType kind marks).blurred b := by
  cases kind <;> simp [Lower.paramType]

theorem parameter (p : Param) :
    Blurs b (Parameter.blurred b) (Lower.parameter p) (Lower.parameter (p.moved b.place)) := by
  obtain ⟨name, kind, default⟩ := p
  refine (marksOf _ _ _).bind fun marks => (freshRid _).bind fun rid => ?_
  dsimp only [Param.moved, Param.name, Param.kind, Param.default, Param.pos]
  rw [paramType_blurred, Node.moved?_eq]
  refine guarded ?_ (by simp)
  cases default with
  | none => exact .pure rfl
  | some n =>
    simp only [Option.map_some, Operand.ofLiteral?_moved]
    cases Operand.ofLiteral? n with
    | none => exact failBind
    | some o =>
      refine table.bind fun t => guarded (.pure rfl) ?_
      rw [Operand.type_blurred, SymbolTable.assignable_blurred]

theorem freshFunctionRid (owner : Option SymbolId) (name : String) :
    Blurs b id (Lower.freshFunctionRid owner name) (Lower.freshFunctionRid owner name) := by
  refine table.bind fun t => ?_
  simp only [SymbolTable.get_blurred, Symbol.name_blurred]
  exact take _

theorem functionHead (name : Ident) (owner : Option SymbolId) (params : List Param)
    (labels : List Label) (admitted : List String) :
    Blurs b (Prod.map (Symbol.blurred b) (Prod.map (FunctionInfo.blurred b) (Marks.blurred b)))
      (Lower.functionHead name owner params labels admitted)
      (Lower.functionHead (name.moved b.place) owner (params.map (Param.moved b.place))
        (labels.map (Label.moved b.place)) admitted) := by
  refine (marksOf _ _ _).bind fun marks => (Blurs.collect parameter).bind fun ps => ?_
  refine (freshFunctionRid _ _).bind fun rid => .pure ?_
  simp [Symbol.blurred, SymbolDetail.blurred, FunctionInfo.blurred]

theorem sameHead_blurred (declared defined : FunctionInfo) :
    Lower.sameHead (declared.blurred b) (defined.blurred b) = Lower.sameHead declared defined := by
  unfold Lower.sameHead
  rw [FunctionInfo.params_blurred, FunctionInfo.params_blurred, List.zip_map, List.all_map]
  simp [Function.comp_def, Parameter.blurred]

theorem fulfil (declared : SymbolId) (sym : Symbol) (info : FunctionInfo) :
    Blurs b id (Lower.fulfil declared sym info) (Lower.fulfil declared (sym.blurred b) (info.blurred b)) := by
  refine (symbol declared).bind fun old => ?_
  dsimp only
  rw [Symbol.getD_function?_blurred, sameHead_blurred]
  exact guarded (modifyFunction declared fun _ => rfl) Iff.rfl

theorem enterParams (i : SymbolId) : Blurs b id (Lower.enterParams i) (Lower.enterParams i) := by
  refine (symbol i).bind fun sym => ?_
  dsimp only
  rw [Symbol.getD_function?_blurred]
  have entered : ∀ (params : List Parameter) (receiver : List String), Blurs b id (Lower.enterBehind receiver params)
      (Lower.enterBehind receiver (params.map (Parameter.blurred b))) := by
    intro params receiver
    refine .bind (.forAll fun p => ?_) fun _ => .pure ?_
    · exact (newSymbol rfl).bind fun _ => insert _
    · simp [Function.comp_def, Parameter.blurred]
  refine .ite ?_ (entered _ _) Iff.rfl
  refine (freshRid _).bind fun rid => (symbol _).bind fun owner => (newSymbol ?_).bind fun this => ?_
  · simp [Symbol.blurred, SymbolDetail.blurred, VariableInfo.blurred]
  · exact (insert _).bind fun _ => (Blurs.pure (f := id) rfl).bind fun _ => entered _ _

theorem thisRid : Blurs b id Lower.thisRid Lower.thisRid := by
  refine table.bind fun t => .pure ?_
  simp

theorem epilogue (i : SymbolId) (finish finish' : Position) :
    Blurs b id (Lower.epilogue i finish) (Lower.epilogue i finish') := by
  refine (symbol i).bind fun sym => ?_
  dsimp only
  rw [Symbol.getD_function?_blurred]
  refine .ite (thisRid.bind fun _ => emit _ _) ?_ Iff.rfl
  refine .ite (.pure (by simp)) (.ite (emit _ _) (.ite (.pure (by simp)) ?_ (by simp)) (by simp)) Iff.rfl
  exact .fail _ _

theorem functionBody (hitems : ∀ ns, Blurs b id (items ns) (items' (ns.map (Node.moved b.place))))
    (i : SymbolId) (body : Block) {before before' : Lower Unit} (hbefore : Blurs b id before before') :
    Blurs b id (Lower.functionBody items i body before)
      (Lower.functionBody items' i (body.moved b.place) before') := by
  refine inScope (inside ((enterParams i).bind fun params => ?_))
  rw [Block.items_moved]
  refine (apart (hbefore.bind fun _ => (hitems _).bind fun _ => epilogue _ _ _)).bind fun code => ?_
  refine (symbol i).bind fun sym => ?_
  dsimp only
  rw [Symbol.getD_function?_blurred, FunctionInfo.returnsValue_blurred]
  exact (emit _ _).bind fun _ => (append rfl).bind fun _ => emit _ _

theorem noteDeclared (i : SymbolId) : Blurs b id (Lower.noteDeclared i) (Lower.noteDeclared i) :=
  .change (fun _ _ => rfl) fun _ => ⟨rfl, rfl⟩

theorem declareFunction (name : Ident) (params : List Param) (labels : List Label) :
    Blurs b id (Lower.declareFunction name params labels)
      (Lower.declareFunction (name.moved b.place) (params.map (Param.moved b.place))
        (labels.map (Label.moved b.place))) := by
  refine (functionHead _ _ _ _ _).bind fun head => ?_
  exact (newSymbol rfl).bind fun _ => (insert _).bind fun _ => noteDeclared _

section
variable (hitems : ∀ ns, Blurs b id (items ns) (items' (ns.map (Node.moved b.place))))
include hitems

theorem defineFunction (name : Ident) (params : List Param) (labels : List Label) (body : Block) :
    Blurs b id (Lower.defineFunction items name params labels body)
      (Lower.defineFunction items' (name.moved b.place) (params.map (Param.moved b.place))
        (labels.map (Label.moved b.place)) (body.moved b.place)) := by
  refine (functionHead _ _ _ _ _).bind fun head => table.bind fun t => ?_
  have written : ∀ i, Blurs b id (Lower.functionBody items i body (pure ()))
      (Lower.functionBody items' i (body.moved b.place) (pure ())) :=
    fun i => functionBody hitems i body (.pure (by simp))
  have hdeclared : (fun old => ((((t.blurred b).get old).function?).getD {}).declared) =
      fun old => (((t.get old).function?).getD {}).declared := by
    funext old
    rw [SymbolTable.get_blurred, Symbol.getD_function?_blurred]
    rfl
  dsimp only
  rw [hdeclared, Ident.name_moved, SymbolTable.contains_blurred, SymbolTable.find?_blurred]
  cases (if t.contains name.name then t.find? name.name else none).filter fun old =>
    (((t.get old).function?).getD {}).declared with
  | some old =>
    refine .bind (fulfil old head.1 head.2.1) fun _ => ?_
    exact (Blurs.pure (f := id) rfl).bind fun _ => written _
  | none =>
    refine .bind (newSymbol rfl) fun i => .bind (insert i) fun _ => ?_
    exact (Blurs.pure (f := id) rfl).bind fun _ => written _

theorem lambda (token : Token) (params : List Param) (labels : List Label) (body : Block) :
    Blurs b id (Lower.lambda items token params labels body)
      (Lower.lambda items' (token.moved b.place) (params.map (Param.moved b.place))
        (labels.map (Label.moved b.place)) (body.moved b.place)) := by
  refine (marksOf _ _ _).bind fun marks => (Blurs.collect parameter).bind fun ps => ?_
  refine (freshFunctionRid _ _).bind fun rid => (newSymbol ?_).bind fun i => ?_
  · simp [Symbol.blurred, SymbolDetail.blurred, FunctionInfo.blurred]
  · exact (functionBody hitems i body (.pure (by simp))).bind fun _ => table.bind fun _ => push (by simp)

end

theorem returnNothing (sym : Symbol) (f : FunctionInfo) (token : Token) :
    Blurs b id (Lower.returnNothing sym f token)
      (Lower.returnNothing (sym.blurred b) (f.blurred b) (token.moved b.place)) := by
  refine .ite (thisRid.bind fun _ => emit _ _) (.ite (emit _ _) ?_ (by simp)) Iff.rfl
  exact .ite (emit _ _) (.fail _ _) (by simp)

include hv

theorem returnValue (sym : Symbol) (f : FunctionInfo) (value : Node) :
    Blurs b id (Lower.returnValue visit sym f value)
      (Lower.returnValue visit' (sym.blurred b) (f.blurred b) (value.moved b.place)) := by
  refine guarded ((eval hv value).bind fun o => table.bind fun t => guarded (emit _ _) (by simp)) Iff.rfl

theorem returnFrom (token : Token) (value : Option Node) : Blurs b id (Lower.returnFrom visit token value)
      (Lower.returnFrom visit' (token.moved b.place) (value.map (Node.moved b.place))) := by
  refine currentFunction.bind fun function? => table.bind fun t => ?_
  rw [SymbolTable.functionLevel_blurred, id]
  cases function? with
  | none => exact .fail _ _
  | some i =>
    cases t.functionLevel with
    | zero => exact .fail _ _
    | succ level =>
      refine .bind (modifyFunction i fun _ => rfl) fun _ => (symbol i).bind fun sym => ?_
      dsimp only
      rw [Symbol.getD_function?_blurred]
      cases value with
      | none => exact returnNothing sym _ token
      | some n => exact returnValue hv sym _ n

omit hv

/-! ## Classes -/

theorem newClass (name : Ident) (info : ClassInfo) :
    Blurs b id (Lower.newClass name info) (Lower.newClass (name.moved b.place) info) := by
  refine (take _).bind fun rid => (newSymbol rfl).bind fun i => (insert i).bind fun _ => ?_
  exact (changeTable fun t => (t.registerType_blurred i).symm).bind fun _ => .pure (by simp)

theorem declareClass (name : Ident) :
    Blurs b id (Lower.declareClass name) (Lower.declareClass (name.moved b.place)) :=
  (marksOf _ _ _).bind fun _ => (newClass _ _).bind fun _ => noteDeclared _

theorem openClass (name : Ident) : Blurs b id (Lower.openClass name) (Lower.openClass (name.moved b.place)) := by
  refine table.bind fun t => ?_
  rw [Ident.name_moved, SymbolTable.contains_blurred, SymbolTable.find?_blurred]
  cases if t.contains name.name then t.find? name.name else none with
  | none => exact newClass name {}
  | some old =>
    dsimp only
    rw [SymbolTable.get_blurred, Symbol.class?_blurred]
    cases (t.get old).class?.filter (·.declared) with
    | none => exact .fail _ _
    | some c => exact (modifyClass old _).bind fun _ => .pure (by simp)

theorem setBase (cls : SymbolId) (type : Tag) :
    Blurs b id (Lower.setBase cls type) (Lower.setBase cls (type.blurred b)) := by
  refine guarded (table.bind fun t => ?_) (by simp)
  refine (Blurs.ofExcept (f := id) ?_).bind fun base => ?_
  · rw [Option.map_id, id]
    exact t.classOf_blurred ..
  · refine guarded (tryTable fun t => t.setBase_blurred ..) ?_
    simp

theorem classHead (name : Ident) : Blurs b id (Lower.classHead name) (Lower.classHead (name.moved b.place)) := by
  refine (marksOf _ _ _).bind fun marks => (openClass name).bind fun cls => ?_
  dsimp only
  rw [Marks.permission?_blurred]
  refine .ite ((setBase cls marks.type).bind fun _ => ?_) ?_ (by simp)
  all_goals
    cases marks.permission? with
    | some p => exact (modifyClass cls _).bind fun _ => .pure (by simp)
    | none => exact .pure (by simp)

theorem defaultPermission (cls : SymbolId) :
    Blurs b id (Lower.defaultPermission cls) (Lower.defaultPermission cls) :=
  .ask fun _ => by
    rw [id]
    exact congrArg ClassInfo.defaultPermission (SymbolTable.classInfo_blurred _ _)

theorem addMember (cls member : SymbolId) (static : Bool) :
    Blurs b id (Lower.tryTable (·.addMember cls member static)) (Lower.tryTable (·.addMember cls member static)) :=
  tryTable fun t => t.addMember_blurred cls member static

theorem collectField (cls : SymbolId) (name : Ident) (init : Option Node) :
    Blurs b id (Lower.collectField cls name init)
      (Lower.collectField cls (name.moved b.place) (init.map (Node.moved b.place))) := by
  refine (marksOf _ _ _).bind fun marks => guarded ?_ (by simp)
  refine (freshRid _).bind fun rid => (defaultPermission cls).bind fun p => ?_
  refine (newSymbol ?_).bind fun i => ?_
  · simp [Symbol.blurred, SymbolDetail.blurred, VariableInfo.blurred]
  · rw [Marks.isStatic_blurred]
    exact addMember _ _ _

theorem checkOverwrite (cls : SymbolId) (sym : Symbol) (info : FunctionInfo) :
    Blurs b id (Lower.checkOverwrite cls sym info) (Lower.checkOverwrite cls (sym.blurred b) (info.blurred b)) := by
  refine table.bind fun t => ?_
  have hhidden : (((t.blurred b).classInfo cls).base.bind
        ((t.blurred b).member? · (sym.blurred b).name)).bind (fun i =>
          ((t.blurred b).get i).function?.map fun f => ((t.blurred b).get i, f)) =
      ((((t.classInfo cls).base.bind (t.member? · sym.name)).bind fun i =>
        (t.get i).function?.map fun f => (t.get i, f)).map
          (Prod.map (Symbol.blurred b) (FunctionInfo.blurred b))) := by
    simp only [SymbolTable.classInfo_blurred, SymbolTable.member?_blurred, Symbol.name_blurred,
      SymbolTable.get_blurred, Symbol.function?_blurred, Option.map_map, Option.map_bind,
      Function.comp_def, Prod.map]
  dsimp only
  rw [hhidden, show (info.blurred b).overwrite = info.overwrite from rfl]
  cases ((t.classInfo cls).base.bind (t.member? · sym.name)).bind (fun i =>
      (t.get i).function?.map fun f => (t.get i, f)) with
  | none =>
    cases info.overwrite with
    | true => exact .fail _ _
    | false => exact .pure (by simp)
  | some hidden =>
    cases info.overwrite with
    | true => exact .pure (by simp)
    | false => exact .fail _ _

theorem declaredMember?_blurred (t : SymbolTable) (cls : SymbolId) (name : String) :
    Lower.declaredMember? (t.blurred b) cls name = Lower.declaredMember? t cls name := by
  unfold Lower.declaredMember?
  rw [SymbolTable.member?_blurred]
  congr 1
  funext i
  rw [memberOwner_blurred, SymbolTable.get_blurred, Symbol.getD_function?_blurred]
  rfl

section
variable (cls : SymbolId)
include cls

theorem addMethod (sym : Symbol) (info : FunctionInfo) (body : Option Block) :
    Blurs b (List.map (Prod.map id (Block.moved b.place))) (Lower.addMethod cls sym info body)
      (Lower.addMethod cls (sym.blurred b) (info.blurred b) (body.map (Block.moved b.place))) := by
  have added : ∀ i : SymbolId, Blurs b (List.map (Prod.map id (Block.moved b.place))) (do
      Lower.tryTable (·.addMember cls i info.static)
      return (body.map fun b => (i, b)).toList) (do
      Lower.tryTable (·.addMember cls i info.static)
      return ((body.map (Block.moved b.place)).map fun b => (i, b)).toList) := by
    refine fun i => (addMember cls i info.static).bind fun _ => .pure ?_
    cases body <;> rfl
  refine (newSymbol rfl).bind fun i => .ite ?_ (added i) Iff.rfl
  exact (noteDeclared i).bind fun _ => added i

theorem collectMethod (name : Ident) (params : List Param) (labels : List Label) (body : Option Block) :
    Blurs b (List.map (Prod.map id (Block.moved b.place)))
      (Lower.collectMethod cls name params labels body)
      (Lower.collectMethod cls (name.moved b.place) (params.map (Param.moved b.place))
        (labels.map (Label.moved b.place)) (body.map (Block.moved b.place))) := by
  refine (functionHead _ _ _ _ _).bind fun head => (defaultPermission cls).bind fun p => ?_
  simp only [id, Marks.isStatic_blurred, Marks.has_blurred, Marks.permissionOr_blurred,
    Option.isNone_map, Symbol.name_blurred]
  refine .bind (checkOverwrite cls head.1 { head.2.1 with
    static := head.2.2.isStatic
    overwrite := head.2.2.has Role.overwrite.text
    virtual := head.2.2.has Role.virtual.text || head.2.2.has Role.interface.text
    permission := head.2.2.permissionOr p
    declared := body.isNone }) fun _ => table.bind fun t => ?_
  rw [declaredMember?_blurred]
  cases Lower.declaredMember? t cls head.1.name with
  | none => exact addMethod cls head.1 _ body
  | some old =>
    cases body with
    | none => exact addMethod cls head.1 _ none
    | some body => exact .bind (fulfil old head.1 _) fun _ => .pure rfl

theorem newConstructor (pos : Position) (params : List Parameter) (permission : Permission) :
    Blurs b id (Lower.newConstructor cls pos params permission)
      (Lower.newConstructor cls (b.place pos) (params.map (Parameter.blurred b)) permission) := by
  refine (freshFunctionRid _ _).bind fun rid => (symbol cls).bind fun c => ?_
  refine (newSymbol ?_).bind fun i => (modifyClass cls _).bind fun _ => .pure (by simp)
  simp [Symbol.blurred, SymbolDetail.blurred, FunctionInfo.blurred]

theorem collectConstructor (name : Ident) (params : List Param) (labels : List Label) :
    Blurs b id (Lower.collectConstructor cls name params labels)
      (Lower.collectConstructor cls (name.moved b.place) (params.map (Param.moved b.place))
        (labels.map (Label.moved b.place))) := by
  refine (symbol cls).bind fun c => (marksOf _ _ _).bind fun marks => ?_
  refine (Blurs.collect parameter).bind fun ps => (defaultPermission cls).bind fun p => ?_
  rw [Marks.permissionOr_blurred]
  exact newConstructor _ _ _ _

theorem collectMember (found : Lower.Members) (item : Node) :
    Blurs b (Lower.Members.blurred b) (Lower.collectMember cls found item)
      (Lower.collectMember cls (found.blurred b) (item.moved b.place)) := by
  cases item with
  | varDef token names values =>
    rw [Node.moved, Node.movedEach?_eq]
    unfold Lower.collectMember
    dsimp only
    rw [List.zip_map]
    exact .bind (.forAll fun x => collectField cls x.1 x.2) fun _ => .pure (by simp)
  | funDef token name params labels body arrow =>
    rw [Node.moved, Param.movedAll_eq]
    refine .bind (collectMethod cls name params labels (some body)) fun new => .pure ?_
    simp [Lower.Members.blurred]
  | funDecl token name params labels =>
    rw [Node.moved, Param.movedAll_eq]
    exact .bind (collectMethod cls name params labels none) fun new => .pure (by simp)
  | constructor token name params labels body =>
    rw [Node.moved, Param.movedAll_eq]
    refine .bind (collectConstructor cls name params labels) fun i => .pure ?_
    simp [Lower.Members.blurred]
  | pass token => exact .pure (by simp)
  | _ => exact .fail _ _

theorem collectMembers (found : Lower.Members) (ns : List Node) :
    Blurs b (Lower.Members.blurred b) (Lower.collectMembers cls found ns)
      (Lower.collectMembers cls (found.blurred b) (ns.map (Node.moved b.place))) := by
  induction ns generalizing found with
  | nil => exact .pure (by simp)
  | cons n ns ih => exact (collectMember cls found n).bind fun found => ih found

theorem completeMembers (found : Lower.Members) :
    Blurs b (Lower.Members.blurred b) (Lower.completeMembers cls found)
      (Lower.completeMembers cls (found.blurred b)) := by
  refine (symbol cls).bind fun c => table.bind fun t => ?_
  dsimp only
  rw [SymbolTable.classInfo_blurred]
  refine .ite ?_ (.pure (by simp)) Iff.rfl
  refine (newConstructor cls c.pos [] .pub).bind fun i => .pure ?_
  simp [Lower.Members.blurred, Block.moved_default]

end

include hv

theorem initField (object : String) (field : SymbolId) :
    Blurs b id (Lower.initField visit object field) (Lower.initField visit' object field) := by
  refine (symbol field).bind fun sym => ?_
  dsimp only
  rw [Symbol.getD_var?_blurred]
  rw [show ((sym.var?.getD {}).blurred b).init = (sym.var?.getD {}).init.map (Node.moved b.place)
    from rfl]
  cases (sym.var?.getD {}).init with
  | none => exact .pure (by simp)
  | some n =>
    refine (eval hv n).bind fun o => table.bind fun t => guarded ?_ ?_
    · refine (emit _ _).bind fun _ => modifyVariable field fun v => ?_
      simp only [VariableInfo.blurred, Tag.isAny_blurred, Tag.isMissing_blurred, Operand.effective_blurred]
      split <;> rfl
    · rw [Operand.effective_blurred]
      simp [VariableInfo.blurred]

theorem initInstance (cls : SymbolId) :
    Blurs b id (Lower.initInstance visit cls) (Lower.initInstance visit' cls) := by
  refine thisRid.bind fun object => table.bind fun t => ?_
  simp only [SymbolTable.chain_blurred, SymbolTable.fields_blurred]
  exact forSame fun c => forSame (initField hv object)

section
variable (hitems : ∀ ns, Blurs b id (items ns) (items' (ns.map (Node.moved b.place))))
include hitems

theorem emitClass (cls : SymbolId) (found : Lower.Members) : Blurs b id (Lower.emitClass visit items cls found)
      (Lower.emitClass visit' items' cls (found.blurred b)) := by
  refine table.bind fun t => ?_
  simp only [SymbolTable.get_blurred, SymbolTable.classInfo_blurred, Symbol.rid_blurred,
    SymbolTable.fields_blurred, SymbolTable.staticFields_blurred]
  refine (emit _ _).bind fun _ => (forSame fun _ => emit _ _).bind fun _ => ?_
  refine (forSame fun _ => emit _ _).bind fun _ => ?_
  refine (forSame (initField hv _)).bind fun _ => ?_
  refine .bind (.forAll fun x => ?_) fun _ => .forAll fun x => ?_
  · exact functionBody hitems x.1 x.2 (initInstance hv cls)
  · exact functionBody hitems x.1 x.2 (.pure (by simp))

theorem defineClass (name : Ident) (body : Block) : Blurs b id (Lower.defineClass visit items name body)
      (Lower.defineClass visit' items' (name.moved b.place) (body.moved b.place)) := by
  refine (classHead name).bind fun cls => inScope (inside ?_)
  rw [Block.items_moved]
  refine .bind (collectMembers cls {} body.items) fun found => ?_
  refine (completeMembers cls found).bind fun found => ?_
  exact (modifyClass cls _).bind fun _ => emitClass hv hitems cls found

end

end

end Blurs

end Frontend
