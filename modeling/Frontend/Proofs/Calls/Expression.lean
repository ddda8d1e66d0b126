import Frontend.Proofs.Calls.Logic
import Frontend.Proofs.Lowering.Control

/-!
# Expressions, assignments and control flow

Most constructs only read the words of their operands and leave a temporary or a literal, which is not
the raw id of anything. A name, a member and an assignment leave the operand of a symbol, which knows
its function.
-/

namespace Frontend.Calls

open SymbolTable

variable {s : Lowering} {t : SymbolTable} {visit : Visit}
variable {n left test : Node} {word : String} {op : Token} {name : Ident} {pos : Position}
  {target : Lower.Target} {update : Option Node} {body : Block}
variable {id : SymbolId} {object value : Node} {place : Lower.Target} {result : Operand}
  {start finish next : String}

/-! ## Operands -/

theorem meaning_ofSymbol {h : CallHead} (hid : (t.get id).callHead? = some h) :
    (Operand.ofSymbol t id).meaning = some id := by
  obtain ⟨f, hf, -⟩ := Symbol.exists_function_of_callHead? hid
  unfold Operand.ofSymbol
  simp only [Symbol.detail_of_function hf]

theorem operandOk_ofSymbol (h : Reachable t id) : OperandOk t (.ofSymbol t id) :=
  fun _ => ⟨id, h.known, (ofSymbol_shape t id).1.symm, fun head hh =>
    ⟨meaning_ofSymbol hh, h.kind head hh⟩⟩

/-! ## Operators -/

theorem Tame.negate {o : Operand} : Tame (Lower.negate o) :=
  Tame.ite (Tame.pure _) (Tame.freshTemp fun _ _ => (Tame.emit rfl).bind fun _ => Tame.pure _)

theorem isPlain_arithmeticOpcode {op : Opcode} (h : Lower.arithmeticOpcode? word = some op) :
    isPlain op = true := by
  unfold Lower.arithmeticOpcode? at h
  split at h <;> first | (cases h; rfl) | cases h

/-- Arithmetic of operands. -/
theorem Keeps.compute {left second : String} {type : Tag} (hs : Sound s) :
    Keeps s (Lower.compute word left second type n) fun o _ => ¬ Word.HasNumber o.raw := by
  refine .freshTemp hs fun result s₂ h₂ _ hresult => ?_
  split
  · next code hcode =>
    exact (Tame.emit (isPlain_arithmeticOpcode hcode)).then h₂ fun _ s₃ h₃ _ =>
      .pure h₃ hresult
  · exact .fail

/-- A binary operation leaves a temporary. -/
theorem Keeps.binary {left right : Operand} (hs : Sound s) :
    Keeps s (Lower.binary op word left right n) fun o _ => ¬ Word.HasNumber o.raw := by
  unfold Lower.binary
  split
  · refine .freshTemp hs fun order s₁ h₁ _ _ => (Tame.emit rfl).then h₁ fun _ s₂ h₂ _ => ?_
    refine .freshTemp h₂ fun result s₃ h₃ _ hresult => ?_
    exact (Tame.emit rfl).then h₃ fun _ s₄ h₄ _ => .pure h₄ hresult
  · refine .ofExcept fun type _ => .ite (fun _ => ?_) fun _ => ?_
    · exact Tame.negate.then hs fun second s₁ h₁ _ => .compute h₁
    · exact .compute hs

section
variable (hv : VisitOk visit)
include hv

theorem Tame.pushBinary {right : Node} : Tame (do
      let l ← Lower.eval visit left
      let r ← Lower.eval visit right
      Lower.push (← Lower.binary op op.literal l r n)) := by
  refine (hv.value left).bind fun l => (hv.value right).bind fun r s hs => ?_
  exact (Keeps.binary hs).bind fun o s₁ h₁ _ ho => Tame.push ho s₁ h₁

/-! ## Containers -/

/-! ## Members -/

/-- The member that `object.name` means is one that a name may lead to. -/
theorem Keeps.resolveMember (hs : Sound s) :
    Keeps s (Lower.resolveMember visit object name) fun found s' =>
      Reachable s'.table found.member := by
  unfold Lower.resolveMember
  refine (hv.value object).then hs fun o s₁ h₁ _ => .ask ?_
  dsimp only
  split
  · refine .step rfl (.refl _) (.ofExcept fun member hmember => ?_)
    exact .unless fun _ => .pure h₁ (h₁.table.reachable_of_memberFor hmember)
  · refine .unless fun _ => .ofExcept fun cls _ => ?_
    refine .step rfl (.refl _) (.ofExcept fun member hmember => ?_)
    exact .pure h₁ (h₁.table.reachable_of_memberFor hmember)

omit hv

/-- The operand of a member: a field is read into a temporary, a function knows itself. -/
theorem Keeps.readMember {found : Lower.Found} (hs : Sound s) (hf : Reachable s.table found.member) :
    Keeps s (Lower.readMember found n) fun o? s' => ∀ o, o? = some o → OperandOk s'.table o := by
  unfold Lower.readMember
  refine .ask ?_
  dsimp only
  split
  · refine .freshTemp hs fun w s₁ h₁ _ hw => (Tame.emit rfl).then h₁ fun _ s₂ h₂ _ => ?_
    refine .pure h₂ ?_
    rintro o ⟨⟩
    exact leads_of_not_hasNumber hw
  · refine .pure hs ?_
    rintro o ⟨⟩
    exact operandOk_ofSymbol hf
  · exact .pure hs fun _ e => nomatch e

include hv

theorem Tame.member : Tame (Lower.member visit object name n) := by
  intro s hs
  refine (Keeps.resolveMember hv hs).bind fun found s₁ h₁ _ hf => ?_
  refine (Keeps.readMember h₁ hf).bind fun o? s₂ h₂ _ ho => ?_
  cases o? with
  | none => exact .fail
  | some o => exact .push h₂ (ho o rfl)

omit hv

/-- The member that a bare name means is one that a name may lead to. -/
theorem Keeps.implicitMember {name : String} (hs : Sound s) : Keeps s (Lower.implicitMember name) fun found? s' =>
      ∀ found, found? = some found → Reachable s'.table found.member := by
  unfold Lower.implicitMember
  refine .ask (.ask ?_)
  split
  · exact .pure hs fun _ e => nomatch e
  · split
    · exact .pure hs fun _ e => nomatch e
    · next member hmember =>
      have reachable := hs.table.reachable_of_member hmember
      refine .ite (fun _ => .pure hs ?_) fun _ => .pure hs ?_
      · rintro found ⟨⟩
        exact reachable
      · intro found hfound
        obtain ⟨this, -, rfl⟩ := Option.map_eq_some_iff.mp hfound
        exact reachable

theorem Tame.ident : Tame (Lower.ident name n) := by
  intro s hs
  unfold Lower.ident
  refine .unless fun _ => .ask ?_
  cases hl : s.table.lookup name.name name.token.pos with
  | ok id =>
    exact .unless fun _ => .push hs (operandOk_ofSymbol (hs.table.reachable_of_lookup hl))
  | error d =>
    refine (Keeps.implicitMember hs).bind fun found? s₁ h₁ _ hf => ?_
    cases found? with
    | none => exact .fail
    | some found =>
      refine (Keeps.readMember h₁ (hf found rfl)).bind fun o? s₂ h₂ _ ho => ?_
      cases o? with
      | none => exact .fail
      | some o => exact .push h₂ (ho o rfl)

theorem Tame.this : Tame (Lower.this pos) := by
  intro s hs
  unfold Lower.this
  refine .ask ?_
  split
  · next id hid =>
    exact .push hs (operandOk_ofSymbol (hs.table.reachable_of_findInFunction hid))
  · exact .fail

/-! ## Assignments -/

/-- The variable or field of a target is one that a name may lead to. -/
def TargetOk (t : SymbolTable) : Lower.Target → Prop
  | .slot id => Reachable t id
  | _ => True

include hv

theorem Keeps.resolveTarget (hs : Sound s) :
    Keeps s (Lower.resolveTarget visit n) fun target s' => TargetOk s'.table target := by
  unfold Lower.resolveTarget
  split
  · refine .unless fun _ => .ask ?_
    split
    · next id hid =>
      refine .ite (fun _ => .pure hs ?_) fun _ => .fail
      exact hs.table.reachable_of_lookup hid
    · refine (Keeps.implicitMember hs).bind fun found? s₁ h₁ _ _ => ?_
      split
      · exact .fail
      · exact .ite (fun _ => .pure h₁ trivial) fun _ => .fail
  · refine (Keeps.resolveMember hv hs).bind fun found s₁ h₁ _ _ => Keeps.ask ?_
    exact .ite (fun _ => .pure h₁ trivial) fun _ => .fail
  · exact (temper.indexed hv).then hs fun _ s₁ h₁ _ => .pure h₁ trivial
  · exact .fail

omit hv

theorem Tame.loadTarget : Tame (Lower.loadTarget target n) := by
  unfold Lower.loadTarget
  split
  · exact (Tame.ask _).bind fun _ => Tame.pure _
  · exact (Tame.ask _).bind fun _ => Tame.freshTemp fun _ _ => (Tame.emit rfl).bind fun _ =>
      .pure _
  · exact Tame.freshTemp fun _ _ => (Tame.emit rfl).bind fun _ => Tame.pure _

theorem Tame.storeTarget {raw : Operand} : Tame (Lower.storeTarget target raw) := by
  unfold Lower.storeTarget
  split
  · exact (Tame.ask _).bind fun _ => Tame.move
  · exact (Tame.ask _).bind fun _ => Tame.emit rfl
  · exact .emit rfl

theorem Tame.constructs {field : VariableInfo} : Tame (Lower.constructs field) := by
  refine (Tame.ask _).bind fun _ => (Tame.ask _).bind fun function? => ?_
  split
  · exact .pure _
  · exact .pure _

theorem Tame.checkConst : Tame (Lower.checkConst target n) := by
  unfold Lower.checkConst
  split
  · exact .pure ()
  · refine (Tame.ask _).bind fun _ => ?_
    dsimp only
    split
    · split
      · exact Tame.constructs.bind fun _ => .ite (.fail _) (.pure ())
      · exact (Tame.pure _).bind fun _ => Tame.ite (Tame.fail _) (Tame.pure ())
    · exact .pure ()

theorem TargetOk.grows {t' : SymbolTable} (h : TargetOk t target) (hg : Grows t t') : TargetOk t' target := by
  cases target with
  | slot id => exact Reachable.grows h hg
  | field object id => trivial
  | element container key => trivial

section
variable (hs : Sound s) (hp : TargetOk s.table place) (hr : OperandOk s.table result)
include hs hp hr

/-- What an assignment leaves: the variable, or the value that was stored. -/
theorem Keeps.finishAssign : Keeps s (Lower.finishAssign place result) fun _ _ => True := by
  refine Tame.storeTarget.then hs fun _ s₁ h₁ hg => ?_
  split
  · exact .ask (.push h₁ (operandOk_ofSymbol (Reachable.grows hp hg)))
  · exact .push h₁ (hr.grows hg)

/-- The result of an assignment is checked, remembered and stored. -/
theorem Keeps.settle : Keeps s (Lower.settle place value result) fun _ _ => True := by
  unfold Lower.settle
  dsimp only
  split
  · refine .ask (.unless fun _ => .ite (fun _ => ?_) fun _ => ?_)
    · refine (Tame.mapVariable _ _).then hs fun _ s₁ h₁ hg => ?_
      exact .finishAssign h₁ (hp.grows hg) (hr.grows hg)
    · exact .finishAssign hs hp hr
  · exact .finishAssign hs hp hr

end

include hv

theorem Tame.assign {target : Node} : Tame (Lower.assign visit target op value n) := by
  intro s hs
  unfold Lower.assign
  refine (hv.eval hs value).bind fun given s₁ h₁ _ hgiven => ?_
  refine (Keeps.resolveTarget hv h₁).bind fun place s₂ h₂ hg₂ hplace => ?_
  refine Tame.checkConst.then h₂ fun _ s₃ h₃ hg₃ => ?_
  refine .ite (fun _ => ?_) fun _ => ?_
  · exact .settle h₃ (hplace.grows hg₃) (hgiven.grows (hg₂.trans hg₃))
  · refine Tame.loadTarget.then h₃ fun current s₄ h₄ hg₄ => ?_
    refine (Keeps.binary h₄).bind fun o s₅ h₅ hg₅ ho => ?_
    exact .settle h₅ (hplace.grows (hg₃.trans (hg₄.trans hg₅))) (leads_of_not_hasNumber ho)

theorem Tame.increment {operand : Node} : Tame (Lower.increment visit operand op n) := by
  refine .bind (.tame fun _ hs => .resolveTarget hv hs) fun place => ?_
  refine Tame.checkConst.bind fun _ => Tame.loadTarget.bind fun current => temper.guarded ?_
  refine Tame.freshTemp fun before hbefore => (Tame.emit rfl).bind fun _ => ?_
  dsimp only
  split
  · exact (Tame.emit rfl).bind fun _ => Tame.push hbefore
  · refine Tame.freshTemp fun after _ => (Tame.emit rfl).bind fun _ => ?_
    exact Tame.storeTarget.bind fun _ => .push hbefore

/-! ## Control flow -/

theorem Tame.condition {c : Condition} : Tame (Lower.condition visit c) := by
  refine (Tame.ask _).bind fun finish? => ?_
  split
  · exact .fail _
  · refine (hv.value c.test).bind fun _ => temper.materialize.bind fun _ => ?_
    refine Tame.freshLabel fun _ _ => (Tame.emit rfl).bind fun _ => (hv _).bind fun _ => ?_
    exact (Tame.emit rfl).bind fun _ => Tame.emit rfl

theorem Tame.branch {tests : List Condition} {otherwise : Option Block} :
    Tame (Lower.branch visit tests otherwise) := by
  refine .freshLabel fun finish hfinish => .forEffect ?_
  refine .bind (.push hfinish) fun _ => ?_
  refine .bind (temper.forAll fun c _ => .condition hv) fun _ => ?_
  split
  · exact (hv _).bind fun _ => .emit rfl
  · exact .emit rfl

omit hv

/-- A label of a loop is not the raw id of a function. -/
theorem Tame.enterTarget {rid : String} (h : ¬ Word.HasNumber rid) : Tame (Lower.enterTarget word rid pos) := by
  intro s hs
  have fitting : Fitting s.supply.rids s.table { name := word, rid, pos, detail := .target } :=
    fitting_unnumbered hs.table h
      ⟨fun m hm => absurd ⟨m, hm⟩ h, fun _ e => (nomatch e), fun _ e => (nomatch e)⟩
      (fun _ e => nomatch e) fun _ e => nomatch e
  refine .newSymbol hs fitting rfl fun id s₁ made => ?_
  exact (Keeps.insert made.sound (made.reachable fun _ e => nomatch e)).weaken fun _ _ _ => trivial

include hv

theorem Tame.round : Tame (Lower.round visit test update body start finish next) := by
  refine (Tame.emit rfl).bind fun _ => (hv.value test).bind fun _ => temper.materialize.bind fun _ => ?_
  refine (Tame.emit rfl).bind fun _ => (hv _).bind fun _ => ?_
  split
  · refine (Tame.emit rfl).bind fun _ => (hv.exec _).bind fun _ => ?_
    exact (Tame.emit rfl).bind fun _ => Tame.emit rfl
  · exact (Tame.emit rfl).bind fun _ => Tame.emit rfl

theorem Tame.rounds (hfinish : ¬ Word.HasNumber finish) (hnext : ¬ Word.HasNumber next) :
    Tame (Lower.rounds visit pos test update body start finish next) := by
  refine (Tame.enterTarget hfinish).bind fun _ => (Tame.enterTarget hnext).bind fun _ => ?_
  exact (Tame.emit rfl).bind fun _ => (Tame.round hv).bind fun _ => Tame.emit rfl

theorem Tame.loop {init : Option Node} : Tame (Lower.loop visit pos init test update body) := by
  have labelled : Tame (Lower.labelled visit pos test update body) := by
    refine .freshLabel fun start hstart => .freshLabel fun finish hfinish => ?_
    refine .ite (.freshLabel fun next hnext => ?_) ?_
    · exact .rounds hv hfinish hnext
    · exact .pureBind (.rounds hv hfinish hstart)
  rw [Lower.loop_eq]
  refine .inScope ?_
  cases init with
  | some n => exact (hv.exec n).bind fun _ => labelled
  | none => exact labelled

end

end Frontend.Calls
