import Frontend.Proofs.Blur.Logic
import Frontend.Proofs.Lowering.Assignment
import Frontend.Proofs.Lowering.Control

/-!
# Expressions out of focus

Operators, containers, members, assignments and control flow: each does out of focus what it does in
focus when what is inside of it does.
-/

namespace Frontend

/-- A member out of focus. -/
def Lower.Found.blurred (b : Blur) (f : Lower.Found) : Lower.Found :=
  { f with object := f.object.blurred b }

@[simp] theorem Lower.Found.object_blurred {b : Blur} (f : Lower.Found) :
    (f.blurred b).object = f.object.blurred b := rfl

@[simp] theorem Lower.Found.member_blurred {b : Blur} (f : Lower.Found) : (f.blurred b).member = f.member := rfl

@[simp] theorem Lower.Found.cls_blurred {b : Blur} (f : Lower.Found) : (f.blurred b).cls = f.cls := rfl

/-- The target of an assignment out of focus. -/
def Lower.Target.blurred (b : Blur) : Lower.Target → Lower.Target
  | .slot id => .slot id
  | .field object id => .field (object.blurred b) id
  | .element container key => .element (container.blurred b) (key.blurred b)

namespace Blurs

variable {b : Blur} {visit visit' : Visit}

/-! ## Operators and containers -/

theorem arithmeticType_moved (op : Token) (word : String) (l r : Tag) :
    (Lower.arithmeticType (op.moved b.place) word (l.blurred b) (r.blurred b)).toOption =
      (Lower.arithmeticType op word l r).toOption.map (Tag.blurred b) := by
  have hknown : (if l.isAny then r.blurred b else l.blurred b) =
      (if l.isAny then r else l).blurred b := (apply_ite (Tag.blurred b) ..).symm
  unfold Lower.arithmeticType
  simp only [Tag.isAny_blurred, Tag.isNumeric_blurred, Tag.is_blurred, hknown,
    apply_ite Except.toOption, apply_ite (Option.map (Tag.blurred b))]
  split_ifs <;> simp [Except.toOption]

theorem negate (o : Operand) : Blurs b id (Lower.negate o) (Lower.negate (o.blurred b)) :=
  .ite (.pure (by simp)) (compute fun _ => .pure (by simp)) (by simp)

theorem binary (op : Token) (word : String) (left right : Operand) (n : Node) :
    Blurs b (Operand.blurred b) (Lower.binary op word left right n)
      (Lower.binary (op.moved b.place) word (left.blurred b) (right.blurred b) (n.moved b.place)) := by
  unfold Lower.binary
  cases (Operator.ofText? word).bind Relation.ofOperator? with
  | some relation =>
    refine compute fun _ => freshTemp.bind fun _ => ?_
    exact (emit _ _).bind fun _ => .pure (by simp)
  | none =>
    dsimp only
    rw [Operand.effective_blurred, Operand.effective_blurred]
    refine (Blurs.ofExcept (arithmeticType_moved ..)).bind fun type => Blurs.ite ?_ ?_ (by simp)
    · refine (negate right).bind fun second => freshTemp.bind fun result => ?_
      cases Lower.arithmeticOpcode? word with
      | some code => exact (emit _ _).bind fun _ => .pure (by simp)
      | none => exact .fail _ _
    · refine (Blurs.pure (f := id) rfl).bind fun second => freshTemp.bind fun result => ?_
      cases Lower.arithmeticOpcode? word with
      | some code => exact (emit _ _).bind fun _ => .pure (by simp)
      | none => exact .fail _ _

section
variable (hv : ∀ n, Blurs b id (visit n) (visit' (n.moved b.place)))
include hv

theorem unary (op : Token) (operand n : Node) : Blurs b id (Lower.unary visit op operand n)
      (Lower.unary visit' (op.moved b.place) (operand.moved b.place) (n.moved b.place)) := by
  unfold Lower.unary
  rw [show (op.moved b.place).kind = op.kind from rfl]
  split
  · rw [Operand.ofLiteral?_moved]
    cases Operand.ofLiteral? n with
    | some o => exact push (by simp)
    | none =>
      refine (eval hv operand).bind fun o => guarded (freshTemp.bind fun _ => ?_) (by simp)
      exact (emit _ _).bind fun _ => push (by simp)
  · exact (eval hv operand).bind fun o => compute fun _ => push (by simp)
  · exact .fail _ _
  · exact .fail _ _
  · exact .fail _ _

theorem list (elements : List Node) (n : Node) : Blurs b id (Lower.list visit elements n)
      (Lower.list visit' (elements.map (Node.moved b.place)) (n.moved b.place)) := by
  refine compute fun _ => ?_
  refine (Blurs.forAll fun element => ?_).bind fun _ => push (by simp)
  exact (eval hv element).bind fun _ => emit _ _

theorem dict (pairs : List Node) (n : Node) : Blurs b id (Lower.dict visit pairs n)
      (Lower.dict visit' (pairs.map (Node.moved b.place)) (n.moved b.place)) := by
  refine compute fun _ => ?_
  refine (Blurs.forAll fun pair => ?_).bind fun _ => push (by simp)
  cases pair with
  | pair key colon value =>
    exact (eval hv key).bind fun _ => (eval hv value).bind fun _ => emit _ _
  | _ => exact .fail _ _

theorem indexed (left subscript : Node) :
    Blurs b (Prod.map (Operand.blurred b) (Operand.blurred b)) (Lower.indexed visit left subscript)
      (Lower.indexed visit' (left.moved b.place) (subscript.moved b.place)) := by
  refine (eval hv left).bind fun o => ?_
  have hindexable : Blurs b id (Lower.checkIndexable o left)
      (Lower.checkIndexable (o.blurred b) (left.moved b.place)) :=
    .ite (.pure (by simp)) (.fail _ _) (by simp)
  exact hindexable.bind fun _ => (eval hv subscript).bind fun _ => .pure (by simp)

theorem index (left subscript n : Node) : Blurs b id (Lower.index visit left subscript n)
      (Lower.index visit' (left.moved b.place) (subscript.moved b.place) (n.moved b.place)) := by
  refine (indexed hv left subscript).bind fun found => freshTemp.bind fun _ => ?_
  refine (emit _ _).bind fun _ => push ?_
  rw [← Operand.temp_moved, apply_ite (Tag.blurred b)]
  simp

theorem group (body : Option Node) (n : Node) : Blurs b id (Lower.group visit body n)
      (Lower.group visit' (body.map (Node.moved b.place)) (n.moved b.place)) := by
  cases body with
  | none => exact .fail _ _
  | some inner =>
    cases inner with
    | block body =>
      rw [Option.map_some, Node.moved, Lower.group, Lower.group, Block.items_moved, List.getLast?_map]
      cases body.items.getLast? with
      | none => exact .fail _ _
      | some last =>
        rw [← List.map_dropLast]
        exact (Blurs.forAll (exec hv)).bind fun _ => hv last
    | _ => exact hv _

omit hv

/-! ## Members -/

theorem memberOwner_blurred (t : SymbolTable) (member : SymbolId) :
    Lower.memberOwner (t.blurred b) member = Lower.memberOwner t member := by
  unfold Lower.memberOwner
  rw [SymbolTable.get_blurred, Symbol.detail_blurred]
  cases (t.get member).detail <;> rfl

theorem assertedFor (cls : SymbolId) (name : String) :
    Blurs b id (Lower.assertedFor cls name) (Lower.assertedFor cls name) := by
  refine table.bind fun t => currentClass.bind fun _ => .pure ?_
  have howner : Lower.memberOwner (t.blurred b) = Lower.memberOwner t :=
    funext (memberOwner_blurred t)
  simp [howner]

include hv

theorem resolveMember (object : Node) (name : Ident) :
    Blurs b (Lower.Found.blurred b) (Lower.resolveMember visit object name)
      (Lower.resolveMember visit' (object.moved b.place) (name.moved b.place)) := by
  refine (eval hv object).bind fun o => table.bind fun t => ?_
  dsimp only
  rw [Operand.effective_blurred, Tag.isClass_blurred, Operand.class?_blurred, Ident.name_moved]
  cases if o.effective.isClass then none else o.class? t with
  | some cls =>
    refine (assertedFor _ _).bind fun _ => ?_
    refine (Blurs.ofExcept (f := id) ?_).bind fun member => guarded (Blurs.pure ?_) (by simp)
    · rw [Option.map_id, id]
      exact t.memberFor_blurred ..
    · simp [Lower.Found.blurred, Operand.blurred, Surface.blurred]
  | none =>
    refine guarded ?_ (by simp)
    refine (Blurs.ofExcept (f := id) ?_).bind fun cls => (assertedFor _ _).bind fun _ => ?_
    · rw [Option.map_id, id]
      exact t.classOf_blurred ..
    · refine (Blurs.ofExcept (f := id) ?_).bind fun member => Blurs.pure rfl
      rw [Option.map_id, id]
      exact t.memberFor_blurred ..

omit hv

theorem readMember (found : Lower.Found) (n : Node) :
    Blurs b (Option.map (Operand.blurred b)) (Lower.readMember found n)
      (Lower.readMember (found.blurred b) (n.moved b.place)) := by
  refine table.bind fun t => ?_
  dsimp only
  rw [Lower.Found.member_blurred, Lower.Found.cls_blurred, SymbolTable.get_blurred,
    Symbol.detail_blurred, SymbolTable.isStaticMember_blurred]
  cases (t.get found.member).detail with
  | var v =>
    refine freshTemp.bind fun result => (emit _ _).bind fun _ => .pure ?_
    simp only [id, VariableInfo.blurred, Operand.temp_moved]
    rfl
  | function f =>
    refine .pure ?_
    rw [Operand.ofSymbol_blurred]
    rfl
  | _ => exact .pure (by simp)

include hv

theorem member (object : Node) (name : Ident) (n : Node) : Blurs b id (Lower.member visit object name n)
      (Lower.member visit' (object.moved b.place) (name.moved b.place) (n.moved b.place)) := by
  refine (resolveMember hv object name).bind fun found => (readMember found n).bind fun o? => ?_
  cases o? with
  | some o => exact push rfl
  | none => exact .fail _ _

omit hv

theorem implicitMember (name : String) : Blurs b (Option.map (Lower.Found.blurred b)) (Lower.implicitMember name)
      (Lower.implicitMember name) := by
  refine table.bind fun t => currentClass.bind fun cls? => ?_
  cases cls? with
  | none => exact .pure (by simp)
  | some cls =>
    simp only [id, SymbolTable.member?_blurred]
    cases t.member? cls name with
    | none => exact .pure (by simp)
    | some member =>
      refine .ite (.pure ?_) (.pure ?_) (by simp)
      · rw [Operand.ofSymbol_blurred]
        rfl
      · rw [SymbolTable.findInFunction?_blurred]
        cases t.findInFunction? "this" with
        | none => rfl
        | some this =>
          simp only [Option.map_some, Operand.ofSymbol_blurred]
          rfl

theorem isTarget_blurred (s : Symbol) : ((s.blurred b).detail matches .target) = (s.detail matches .target) := by
  rw [Symbol.detail_blurred]
  cases s.detail <;> rfl

theorem ident (name : Ident) (n : Node) :
    Blurs b id (Lower.ident name n) (Lower.ident (name.moved b.place) (n.moved b.place)) := by
  refine guarded (table.bind fun t => ?_) (by simp [Ident.moved])
  rw [Ident.name_moved]
  obtain ⟨id, h, h'⟩ | ⟨d, d', h, h'⟩ := cases_of_toOption_eq
    (t.lookup_blurred (b := b) name.name name.token.pos (name.moved b.place).token.pos)
  · rw [h, h']
    refine guarded (push (by simp)) ?_
    rw [SymbolTable.get_blurred]
    exact iff_of_eq (congrArg (· = true) (isTarget_blurred _))
  · rw [h, h']
    refine (implicitMember name.name).bind fun found? => ?_
    cases found? with
    | none => exact .fail _ _
    | some found =>
      refine (readMember found n).bind fun o? => ?_
      cases o? with
      | some o => exact push (by simp)
      | none => exact .fail _ _

theorem thisObject (pos pos' : Position) : Blurs b id (Lower.this pos) (Lower.this pos') := by
  refine table.bind fun t => ?_
  rw [SymbolTable.findInFunction?_blurred]
  cases t.findInFunction? "this" with
  | none => exact .fail _ _
  | some id =>
    refine push ?_
    rw [Operand.ofSymbol_blurred]
    rfl

include hv

/-! ## Assignments -/

theorem resolveTarget (n : Node) : Blurs b (Lower.Target.blurred b) (Lower.resolveTarget visit n)
      (Lower.resolveTarget visit' (n.moved b.place)) := by
  cases n with
  | ident name =>
    refine guarded (table.bind fun t => ?_) (by simp [Ident.moved])
    rw [Ident.name_moved]
    obtain ⟨id, h, h'⟩ | ⟨d, d', h, h'⟩ := cases_of_toOption_eq
      (t.lookup_blurred (b := b) name.name name.token.pos (name.moved b.place).token.pos)
    · rw [h, h']
      exact .ite (.pure rfl) (.fail _ _) (by simp)
    · rw [h, h']
      refine (implicitMember name.name).bind fun found? => ?_
      cases found? with
      | none => exact .fail _ _
      | some found =>
        refine .ite (.pure rfl) (.fail _ _) ?_
        rw [SymbolTable.get_blurred]
        exact iff_of_eq (congrArg (· = true) (SymbolTable.isVar_blurred _))
  | member object dot name =>
    refine (resolveMember hv object name).bind fun found => table.bind fun t => ?_
    refine .ite (.pure rfl) (.fail _ _) ?_
    rw [SymbolTable.get_blurred]
    exact iff_of_eq (congrArg (· = true) (SymbolTable.isVar_blurred _))
  | index left opener subscript => exact (indexed hv left subscript).bind fun found => .pure rfl
  | _ => exact .fail _ _

omit hv

theorem loadTarget (target : Lower.Target) (n : Node) : Blurs b (Operand.blurred b) (Lower.loadTarget target n)
      (Lower.loadTarget (target.blurred b) (n.moved b.place)) := by
  cases target with
  | slot id => exact table.bind fun t => .pure (by simp)
  | field object id =>
    refine (symbol id).bind fun s => freshTemp.bind fun result => (emit _ _).bind fun _ => .pure ?_
    rw [Symbol.getD_var?_blurred]
    change { Operand.temp result ((s.var?.getD {}).type.blurred b) (n.moved b.place) with
      value := (s.var?.getD {}).value.blurred b } = _
    rw [Operand.temp_moved]
    rfl
  | element container key =>
    exact freshTemp.bind fun result => (emit _ _).bind fun _ => .pure (by simp)

theorem storeTarget (target : Lower.Target) (o : Operand) : Blurs b id (Lower.storeTarget target o)
      (Lower.storeTarget (target.blurred b) (o.blurred b)) := by
  cases target with
  | slot id => exact (symbol id).bind fun s => move _ (by simp)
  | field object id => exact (symbol id).bind fun s => emit _ _
  | element container key => exact emit _ _

theorem constructs (v : VariableInfo) : Blurs b id (Lower.constructs v) (Lower.constructs (v.blurred b)) := by
  refine table.bind fun t => currentFunction.bind fun id? => ?_
  cases id? with
  | none => exact .pure (by simp)
  | some id =>
    refine .pure ?_
    rw [SymbolTable.get_blurred, Symbol.getD_function?_blurred]
    rfl

theorem symbol?_blurred (target : Lower.Target) : (target.blurred b).symbol? = target.symbol? := by
  cases target <;> rfl

theorem checkConst (target : Lower.Target) (n : Node) : Blurs b id (Lower.checkConst target n)
      (Lower.checkConst (target.blurred b) (n.moved b.place)) := by
  unfold Lower.checkConst
  rw [symbol?_blurred]
  cases target.symbol? with
  | none => exact .pure (by simp)
  | some slot =>
    refine (symbol slot).bind fun s => ?_
    dsimp only
    rw [Symbol.getD_var?_blurred]
    refine .ite ?_ (.pure (by simp)) Iff.rfl
    cases target with
    | field object field =>
      exact (constructs _).bind fun _ => .ite (.fail _ _) (.pure (by simp)) (by simp)
    | _ => exact (Blurs.pure (f := id) rfl).bind fun _ => Blurs.ite (Blurs.fail _ _) (Blurs.pure (by simp)) (by simp)

theorem remember (target : SymbolId) (o : Operand) :
    Blurs b id (Lower.remember target o) (Lower.remember target (o.blurred b)) := by
  refine modifyVariable target fun v => ?_
  simp [VariableInfo.blurred]

/-- A place is written and what it then holds is the result. -/
theorem storeAndPush (place : Lower.Target) (result : Operand) :
    Blurs b id (Lower.finishAssign place result) (Lower.finishAssign (place.blurred b) (result.blurred b)) := by
  refine (storeTarget place result).bind fun _ => ?_
  cases place with
  | slot id => exact table.bind fun t => push (by simp)
  | field object id => exact push (by simp)
  | element container key => exact push (by simp)

theorem settle (place : Lower.Target) (value : Node) (result : Operand) :
    Blurs b id (Lower.settle place value result)
      (Lower.settle (place.blurred b) (value.moved b.place) (result.blurred b)) := by
  have stored := storeAndPush (b := b) place result
  unfold Lower.settle
  rw [symbol?_blurred]
  cases place.symbol? with
  | none => exact stored
  | some id =>
    refine table.bind fun t => ?_
    dsimp only
    rw [SymbolTable.get_blurred, Symbol.getD_var?_blurred, Operand.effective_blurred]
    refine guarded (.ite ?_ stored ?_) ?_
    · exact (remember id result).bind fun _ => stored
    · simp [VariableInfo.blurred]
    · simp [VariableInfo.blurred]

include hv

theorem assign (target : Node) (op : Token) (value n : Node) : Blurs b id (Lower.assign visit target op value n)
      (Lower.assign visit' (target.moved b.place) (op.moved b.place) (value.moved b.place) (n.moved b.place)) := by
  refine (eval hv value).bind fun given => (resolveTarget hv target).bind fun place => ?_
  refine (checkConst place target).bind fun _ => ?_
  refine .ite (settle place value given) ?_ Iff.rfl
  refine (loadTarget place target).bind fun current => ?_
  exact (binary op (Lower.compoundWord op) current given n).bind fun result =>
    settle place value result

theorem increment (operand : Node) (op : Token) (n : Node) : Blurs b id (Lower.increment visit operand op n)
      (Lower.increment visit' (operand.moved b.place) (op.moved b.place) (n.moved b.place)) := by
  refine (resolveTarget hv operand).bind fun place => (checkConst place operand).bind fun _ => ?_
  refine (loadTarget place operand).bind fun current => guarded ?_ (by simp)
  refine freshTemp.bind fun before => (emit _ _).bind fun _ => ?_
  have stepped : ∀ amount, Blurs b id (Lower.stepTo place before current amount n)
      (Lower.stepTo (place.blurred b) before (current.blurred b) amount (n.moved b.place)) := by
    intro amount
    refine freshTemp.bind fun after => (emit _ _).bind fun _ => ?_
    rw [Operand.type_blurred, Operand.temp_moved]
    exact (storeTarget place _).bind fun _ => push (by simp)
  cases place with
  | slot id => exact (emit _ _).bind fun _ => push (by simp)
  | field object id => exact stepped _
  | element container key => exact stepped _

omit hv

/-! ## Control flow -/

theorem endLabel? : Blurs b id Lower.endLabel? Lower.endLabel? := by
  refine .ask fun s => ?_
  have hmoved : (s.blurred b).operands = s.operands.map (Operand.blurred b) := rfl
  rw [hmoved]
  cases s.operands <;> rfl

include hv

theorem condition (test : Condition) :
    Blurs b id (Lower.condition visit test) (Lower.condition visit' (test.moved b.place)) := by
  obtain ⟨keyword, test, body⟩ := test
  refine endLabel?.bind fun finish? => ?_
  cases finish? with
  | none => exact .fail _ _
  | some finish =>
    refine (eval hv test).bind fun o => (materialize o).bind fun _ => ?_
    refine freshLabel.bind fun _ => (emit _ _).bind fun _ => (hv (.block body)).bind fun _ => ?_
    exact (emit _ _).bind fun _ => emit _ _

theorem branch (tests : List Condition) (otherwise : Option Block) : Blurs b id (Lower.branch visit tests otherwise)
      (Lower.branch visit' (tests.map (Condition.moved b.place)) (otherwise.map (Block.moved b.place))) := by
  refine freshLabel.bind fun finish => forEffect ?_
  refine Blurs.bind (push (by simp)) fun _ => (Blurs.forAll (condition hv)).bind fun _ => ?_
  cases otherwise with
  | some body => exact (hv (.block body)).bind fun _ => emit _ _
  | none => exact emit _ _

omit hv

theorem enterTarget (word rid : String) (pos : Position) :
    Blurs b id (Lower.enterTarget word rid pos) (Lower.enterTarget word rid (b.place pos)) :=
  (newSymbol rfl).bind fun _ => insert _

include hv

theorem round (test : Node) (update : Option Node) (body : Block) (start finish next : String) :
    Blurs b id (Lower.round visit test update body start finish next)
      (Lower.round visit' (test.moved b.place) (update.map (Node.moved b.place))
        (body.moved b.place) start finish next) := by
  refine (emit _ _).bind fun _ => (eval hv test).bind fun o => (materialize o).bind fun _ => ?_
  refine (emit _ _).bind fun _ => (hv (.block body)).bind fun _ => ?_
  cases update with
  | some n =>
    refine (emit _ _).bind fun _ => (exec hv n).bind fun _ => ?_
    exact (emit _ _).bind fun _ => emit _ _
  | none => exact (emit _ _).bind fun _ => emit _ _

theorem rounds (pos : Position) (test : Node) (update : Option Node) (body : Block) (start finish next : String) :
    Blurs b id (Lower.rounds visit pos test update body start finish next)
      (Lower.rounds visit' (b.place pos) (test.moved b.place) (update.map (Node.moved b.place))
        (body.moved b.place) start finish next) := by
  refine (enterTarget _ _ _).bind fun _ => (enterTarget _ _ _).bind fun _ => ?_
  exact (emit _ _).bind fun _ => (round hv test update body _ _ _).bind fun _ => emit _ _

theorem loop (pos : Position) (init : Option Node) (test : Node) (update : Option Node) (body : Block) :
    Blurs b id (Lower.loop visit pos init test update body)
      (Lower.loop visit' (b.place pos) (init.map (Node.moved b.place)) (test.moved b.place)
        (update.map (Node.moved b.place)) (body.moved b.place)) := by
  have labelled : Blurs b id (Lower.labelled visit pos test update body)
      (Lower.labelled visit' (b.place pos) (test.moved b.place) (update.map (Node.moved b.place)) (body.moved b.place)) := by
    refine freshLabel.bind fun start => freshLabel.bind fun finish => .ite ?_ ?_ (by simp)
    · exact freshLabel.bind fun _ => rounds hv pos test update body _ _ _
    · exact rounds hv pos test update body _ _ _
  rw [Lower.loop_eq, Lower.loop_eq]
  refine inScope ?_
  cases init with
  | some n => exact (exec hv n).bind fun _ => labelled
  | none => exact labelled

end

theorem loopTarget? (word : String) : Blurs b id (Lower.loopTarget? word) (Lower.loopTarget? word) := by
  refine table.bind fun t => .pure ?_
  rw [SymbolTable.findInFunction?_blurred]
  cases t.findInFunction? word with
  | none => rfl
  | some id =>
    simp only [Option.bind_some, SymbolTable.get_blurred, Symbol.detail_blurred, Symbol.rid_blurred]
    cases (t.get id).detail <;> rfl

theorem breakOut (pos pos' : Position) : Blurs b id (Lower.breakOut pos) (Lower.breakOut pos') := by
  refine (loopTarget? _).bind fun target? => ?_
  cases target? with
  | some target => exact emit _ _
  | none => exact .fail _ _

theorem continueOn (pos pos' : Position) : Blurs b id (Lower.continueOn pos) (Lower.continueOn pos') := by
  refine (loopTarget? _).bind fun target? => ?_
  cases target? with
  | some target => exact emit _ _
  | none => exact .fail _ _

end Blurs

end Frontend
