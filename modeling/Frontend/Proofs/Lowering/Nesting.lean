import Frontend.Proofs.Lowering.Step

/-!
# Steps around steps

Changes of the symbol table, and the steps that run another step: in a scope, inside of a function or
class, in a loop, apart from the code around it, or once for each element of a list.
-/

namespace Frontend

open SymbolTable Region

variable {Γ : Surroundings} {own own' : List String} {known known' : Set String}
  {s s' : Lowering} {α β : Type}
variable {id : SymbolId} {sym : Symbol} {Q : Set String → β → Lowering → Prop} {p : Lower Unit}

/-! ## Parts of constructs -/

namespace Lower

/-- A place is made for a variable, and its value moves in. -/
def allot (id : SymbolId) (rid : String) (marks : Marks) (value : Option Operand) : Lower Unit := do
  emit .allot [rid]
  match value with
  | none => pure ()
  | some o =>
    move o rid
    changeTable (·.modify id (Symbol.mapVariable fun v =>
      { v with meaning := o.meaning, value := if marks.typeOrAny.isAny then o.effective else v.value }))

/-- Parameters are entered in the scope of their function. -/
def enterParameters (params : List Parameter) : Lower Unit :=
  forAll (fun (p : Parameter) => do
    let id ← newSymbol {
      name := p.name, rid := p.rid, pos := p.pos
      detail := .parameter { type := p.type } p.kind }
    insert id) params

/-- Parameters are entered behind the object, and the words of all of them are given. -/
def enterBehind (receiver : List String) (params : List Parameter) : Lower (List String) := do
  enterParameters params
  return receiver ++ params.map (·.rid)

/-- Arithmetic of operands leaves a temporary. -/
def compute (word left second : String) (type : Tag) (n : Node) : Lower Operand := do
  let result ← freshTemp
  match arithmeticOpcode? word with
  | some code =>
    emit code [left, second, result]
    return .temp result type n
  | none => fail (Complaint.unsupported n)

/-- What an assignment leaves: the variable, or the value that was stored. -/
def finishAssign (place : Target) (result : Operand) : Lower Unit := do
  storeTarget place result
  match place with
  | .slot id => push (.ofSymbol (← table) id)
  | _ => push result

/-- What an assignment does with the assigned value: the value is checked, remembered and stored. -/
def settle (place : Target) (value : Node) (result : Operand) : Lower Unit := do
  if let some id := place.symbol? then
    let t ← table
    let declared := (((t.get id).var?).getD {}).type
    if !t.assignable declared result.effective then
      fail ((Complaint.mismatch value.pos declared result.effective).withSpan (Complaint.width value))
    if declared.isAny then remember id result
  storeTarget place result
  match place with
  | .slot id => push (.ofSymbol (← table) id)
  | _ => push result

/-- The next value of a place is stored, and the one from before is left. -/
def stepTo (place : Target) (before : String) (current : Operand) (amount : String) (n : Node) : Lower Unit := do
  let after ← freshTemp
  emit .add [current.raw, amount, after]
  storeTarget place (.temp after current.type n)
  push (.temp before current.effective n)

/-- A call that gives no value. -/
def callWith (callee : Operand) (raws : List String) (n : Node) : Lower Unit := do
  emit .call (callee.raw :: raws)
  push (.null n)

/-- A call whose value goes to a temporary. -/
def invokeWith (callee : Operand) (raws : List String) (type : Tag) (n : Node) : Lower Unit := do
  let result ← freshTemp
  emit .invoke (callee.raw :: raws ++ [result])
  push (.temp result type n)

/-- A known function is called with its object and the arguments that were bound. -/
def callBound (callee : Operand) (f : FunctionInfo) (bindings : List Binding) (n : Node) (receiver : List String) :
    Lower Unit := do
  let bound ← collect emitBinding bindings
  if f.returnsValue then invokeWith callee (receiver ++ bound) f.result n
  else callWith callee (receiver ++ bound) n

/-- A value is called with the arguments as they are. -/
def callValueWith (callee : Operand) (type : Tag) (raws : List String) (n : Node) : Lower Unit :=
  if type.is .func then callWith callee raws n else invokeWith callee raws type.result n

/-- What a call of a built-in function does when its arguments fit and it is settled where its value
goes. -/
def generated (entry : Builtin) (s : Symbol) (given : List BuiltinArg) (site : CallSite)
    (result : String) : Lower Unit := do
  let broken := fun (message : Phrase) =>
    Complaint.marking s.name (.mkAt .extension Code.extensionCall site.pos message)
  match ← generate entry { name := s.name, args := given, result, pos := site.pos } with
  | .error (.diagnostic d) => fail d
  | .error (.plain message) => fail (broken message)
  | .ok emission =>
    if (Text.trim emission.text).isEmpty then fail (broken (.entry .extensionCall [.text s.name]))
    change fun s => { s with out := s.out.append emission.items }
    push (if entry.pure then .temp result (s.function?.getD {}).result site.node else .null site.node)

/-- The head of a loop, a step, and the end of the loop. -/
def framed (labels : List String) (p : Lower Unit) : Lower Unit := do
  emit .untilLoop labels
  p
  emit .finish []

/-- The inside of a loop, between its head and its end. -/
def round (visit : Visit) (test : Node) (update : Option Node) (body : Block)
    (start finish next : String) : Lower Unit := do
  emit .set [start]
  let holds ← materialize (← eval visit test)
  emit .jumpIfFalse [holds.raw, finish]
  visit (.block body)
  match update with
  | some n =>
    emit .set [next]
    exec visit n
  | none => pure ()
  emit .jump [start]
  emit .set [finish]

/-- A loop whose labels were taken. -/
def rounds (visit : Visit) (pos : Position) (test : Node) (update : Option Node)
    (body : Block) (start finish next : String) : Lower Unit := do
  enterTarget breakWord finish pos
  enterTarget continueWord next pos
  framed [start, finish] (round visit test update body start finish next)

/-- A loop takes its labels; one with an update has a label of its own for the next round. -/
def labelled (visit : Visit) (pos : Position) (test : Node) (update : Option Node) (body : Block) : Lower Unit := do
  let start ← freshLabel
  let finish ← freshLabel
  let next ← if update.isSome then freshLabel else pure start
  rounds visit pos test update body start finish next

/-- A loop takes its labels and goes round. -/
theorem loop_eq {visit : Visit} (pos : Position) (init : Option Node) (test : Node) (update : Option Node) (body : Block) :
    loop visit pos init test update body = inScope .loop (do
      if let some n := init then exec visit n
      labelled visit pos test update body) := by
  unfold loop labelled rounds framed round
  cases init <;> cases update <;> simp only [bind_assoc]

end Lower

/-! ## States that agree -/

/-- Two states that agree in everything that effects speak about. -/
structure Agree (s s' : Lowering) : Prop where
  table : s'.table = s.table
  supply : s'.supply = s.supply
  builtins : s'.session.builtins = s.session.builtins
  out : s'.out = s.out
  operands : s'.operands = s.operands

theorem Stable.agree (h : Stable s) (ha : Agree s s') : Stable s' :=
  ⟨ha.builtins.trans h.builtins, by rw [ha.table, ha.supply]; exact h.ordered⟩

theorem Agree.symm (h : Agree s s') : Agree s' s :=
  ⟨h.table.symm, h.supply.symm, h.builtins.symm, h.out.symm, h.operands.symm⟩

theorem Ready.agree (h : Ready Γ known s) (ha : Agree s s') : Ready Γ known s' :=
  ⟨h.stable.agree ha, by rw [ha.table]; exact h.sees⟩

variable [Setting]
variable {t : Lowering} {Δ : Surroundings} {seen : Set String} {n : Nat} {t' : SymbolTable} {kind : ScopeKind}
  {f : β → Lower Unit}

theorem Effect.agree {t' : Lowering} {r : Region} (h : Effect Γ own known s r s') (hs : Agree s t) (hs' : Agree s' t') :
    Effect Γ own known t r t' where
  out := by rw [hs'.out, hs.out]; exact h.out
  fits := by rw [hs'.table]; exact h.fits
  labelled := by rw [hs.supply, hs'.supply]; exact h.labelled
  functions := h.functions
  labels := by rw [hs.supply, hs'.supply]; exact h.labels
  rids := by rw [hs.supply, hs'.supply]; exact h.rids
  table := by rw [hs.table, hs'.table]; exact h.table
  same := by rw [hs.table, hs'.table]; exact h.same
  operands := by rw [hs.operands, hs'.operands, hs'.table]; exact h.operands
  stable := h.stable.agree hs'

/-- A step that starts in a state that agrees and ends in one that agrees. -/
theorem Run.agree {p q : Lower α} {Q : Set String → α → SymbolTable → List Operand → Prop} (hs : Agree s t)
    (h : Run Γ own known t q fun known' a s' => Q known' a s'.table s'.operands)
    (hpq : ∀ a s', p s = (.ok a, s') → ∃ t', q t = (.ok a, t') ∧ Agree t' s') :
    Run Γ own known s p fun known' a s' => Q known' a s'.table s'.operands := by
  intro a s' hp
  obtain ⟨t', hq, ht'⟩ := hpq a s' hp
  obtain ⟨r, hr, hQ⟩ := h a t' hq
  refine ⟨r, hr.agree hs.symm ht', ?_⟩
  beta_reduce
  rw [ht'.table, ht'.operands]
  exact hQ

/-- A step inside of a function or class. -/
theorem Run.inside {p : Lower α} {Q : Set String → α → SymbolTable → List Operand → Prop}
    (h : ∀ t, Agree s t → t.processing = id :: s.processing →
      Run Γ own known t p fun known' a s' => Q known' a s'.table s'.operands) :
    Run Γ own known s (Lower.inside id p) fun known' a s' => Q known' a s'.table s'.operands := by
  have hs : Agree s { s with processing := id :: s.processing } := ⟨rfl, rfl, rfl, rfl, rfl⟩
  refine .agree hs (h _ hs rfl) fun a s' hp => ?_
  obtain ⟨after, hq, rfl⟩ := Lower.exists_of_inside hp
  exact ⟨after, hq, ⟨rfl, rfl, rfl, rfl, rfl⟩⟩

/-! ## The symbol table -/

/-- A change of the symbol table that keeps it in good order. -/
theorem Does.changeTable {g : SymbolTable → SymbolTable} (h : Ready Γ known s)
    (ho : Ordered s.supply.rids (g s.table)) (he : Extends s.table (g s.table))
    (hsame : SameScopes s.table (g s.table)) (hsees : Scoped Γ known (g s.table)) :
    Does Γ known s (Lower.changeTable g) fun _ _ s' =>
      s'.table = g s.table ∧ s'.supply = s.supply ∧ s'.operands = s.operands := by
  rintro a s' ⟨⟩
  refine ⟨.nil, .quiet rfl rfl (le_refl _) (le_refl _) he hsame ⟨h.stable.builtins, ho⟩, ?_, rfl, rfl, rfl⟩
  exact hsees.mono Set.subset_union_left

/-- A mild change of one symbol. -/
theorem Does.modify {g : Symbol → Symbol} (h : Ready Γ known s)
    (hg : ∀ sym, Mild s.supply.rids s.table sym (g sym)) :
    Does Γ known s (Lower.changeTable (·.modify id g)) fun _ _ s' =>
      s'.table = s.table.modify id g ∧ s'.supply = s.supply ∧ s'.operands = s.operands := by
  have key : Ordered s.supply.rids (s.table.modify id g) ∧ Extends s.table (s.table.modify id g) :=
    h.stable.ordered.modify id hg
  obtain ⟨ho, he⟩ := key
  exact .changeTable h ho he (.of_eq rfl) (h.sees.restore h.stable.ordered rfl he)

theorem Run.newSymbol {f : SymbolId → Lower β} (h : Ready Δ seen s) (hs : Fitting s.supply.rids s.table sym)
    (hf : ∀ s', Ready Δ seen s' → s'.table = (s.table.add sym).2 → s'.supply = s.supply →
      s'.operands = s.operands → Run Γ own known s' (f (s.table.add sym).1) Q) :
    Run Γ own known s (Lower.newSymbol sym >>= f) Q := by
  have he := extends_add s.table sym
  have hstable : Stable { s with
      session := { s.session with symbols := (s.table.add sym).2 } } :=
    ⟨h.stable.builtins, h.stable.ordered.add hs⟩
  have hsees : Scoped Δ seen (s.table.add sym).2 := h.sees.restore h.stable.ordered rfl he
  have hp : Lower.newSymbol sym s = (.ok (s.table.add sym).1,
      { s with session := { s.session with symbols := (s.table.add sym).2 } }) := rfl
  refine .quietStep hp ?_ (hf _ ⟨hstable, hsees⟩ rfl rfl rfl)
  exact .quiet rfl rfl (le_refl _) (le_refl _) he (.of_eq rfl) hstable

/-- A change of the symbol table that may be refused. -/
theorem Run.tryTable {g : SymbolTable → Except Diagnostic SymbolTable} {f : Unit → Lower β}
    (h : Stable s) (hg : ∀ t, g s.table = .ok t →
      Ordered s.supply.rids t ∧ Extends s.table t ∧ SameScopes s.table t)
    (hf : ∀ s', Stable s' → g s.table = .ok s'.table → s'.supply = s.supply →
      s'.operands = s.operands → Run Γ own known s' (f ()) Q) : Run Γ own known s (Lower.tryTable g >>= f) Q := by
  cases ht : g s.table with
  | error d =>
    intro b s' hb
    have hp : Lower.tryTable g s = (.error (.diagnostic d), s) := by
      change Lower.andThen (Lower.ofExcept (g s.table)) _ s = _
      rw [ht]
      rfl
    rw [Lower.bind_of_error hp] at hb
    cases hb
  | ok t =>
    obtain ⟨ho, he, hsame⟩ := hg t ht
    have hp : Lower.tryTable g s =
        (.ok (), { s with session := { s.session with symbols := t } }) := by
      change Lower.andThen (Lower.ofExcept (g s.table)) _ s = _
      rw [ht]
      rfl
    have hstable : Stable { s with session := { s.session with symbols := t } } :=
      ⟨h.builtins, ho⟩
    refine .quietStep hp ?_ (hf _ hstable ht rfl rfl)
    exact .quiet rfl rfl (le_refl _) (le_refl _) he hsame hstable

/-- A new symbol is entered in some scope. What it is entered for may differ from where the step
runs: the parameters of a function are entered before its code begins. -/
theorem Run.enterNew {g : SymbolId → SymbolTable → Except Diagnostic SymbolTable} {f : SymbolId → Unit → Lower β}
    (h : Ready Δ seen s) (hs : Fitting s.supply.rids s.table sym) (hentry : EntryOk Δ seen sym)
    (hg : ∀ t', g (s.table.add sym).1 (s.table.add sym).2 = .ok t' →
      Entered s.supply.rids (s.table.add sym).2 t' (s.table.add sym).1)
    (hf : ∀ id s', Ready Δ seen s' → Grows known s known s' → Alike (s.table.add sym).2 s'.table →
      (s'.table.get id).sort = sym.sort → s'.supply = s.supply → s'.operands = s.operands →
      Run Γ own known s' (f id ()) Q) :
    Run Γ own known s (Lower.newSymbol sym >>= fun id => Lower.tryTable (g id) >>= f id) Q := by
  refine .newSymbol h hs fun s₁ h₁ htable hsupply hoperands => ?_
  refine .tryTable h₁.stable (fun t ht => ?_) fun s₂ h₂ ht hsupply' hoperands' => ?_
  · rw [htable] at ht ⊢
    rw [hsupply]
    exact ⟨(hg t ht).ordered, (hg t ht).extends, (hg t ht).same⟩
  · rw [htable] at ht
    have entered := hg _ ht
    refine hf _ s₂ ⟨h₂, entered.sees (htable ▸ h₁.sees) (by rw [get_add_new]; exact hentry)⟩ ?_
      entered.alike ?_ (hsupply'.trans hsupply) (hoperands'.trans hoperands)
    · refine ⟨subset_rfl, (extends_add _ _).trans entered.extends, ?_, ?_, [], ?_, ?_⟩
      · rw [hsupply', hsupply]
      · exact ⟨entered.same.kinds, entered.same.outer⟩
      · rw [hoperands', hoperands]
        rfl
      · exact fun _ h => nomatch h
    · rw [entered.alike.sort, get_add_new]

omit [Setting] in
theorem entered_new {t : SymbolTable} (h : Ordered n t) (hs : Fitting n t sym)
    (hsort : sym.sort = .target → t.inner ≠ []) (hi : (t.add sym).2.insert (t.add sym).1 = .ok t') :
    Entered n (t.add sym).2 t' (t.add sym).1 := by
  refine entered_insert (h.add hs) (loose_add h sym) ?_ hi
  rw [get_add_new]
  exact hsort

omit [Setting] in
theorem entered_newGlobal {t : SymbolTable} (h : Ordered n t) (hs : Fitting n t sym) (hsort : sym.sort ≠ .target)
    (hi : (t.add sym).2.insertGlobal (t.add sym).1 = .ok t') : Entered n (t.add sym).2 t' (t.add sym).1 := by
  refine (entered_insertGlobal (h.add hs) (loose_add h sym) ?_ hi).1
  rw [get_add_new]
  exact hsort

/-! ## Scopes -/

/-- A step in a scope of its own. Afterwards the scopes are those from before. -/
theorem Run.inScope {Q : List Operand → Prop} (h : Ready Γ known s)
    (hp : ∀ t, Stable t → t.table = s.table.enter kind → t.operands = s.operands →
      Run Γ own known t p fun _ _ t' => Q t'.operands) : Run Γ own known s (Lower.inScope kind p) fun known' _ s' =>
      Scoped Γ known' s'.table ∧ Q s'.operands := by
  intro a s' hs
  have opened : Stable { s with
      session := { s.session with symbols := s.table.enter kind }
      scopes := kind :: s.scopes } :=
    ⟨h.stable.builtins, ordered_enter h.stable.ordered kind⟩
  obtain ⟨after, hq, rfl⟩ := Lower.exists_of_inScope hs
  obtain ⟨r, hr, hQ⟩ := hp _ opened rfl rfl a after hq
  obtain ⟨hinner, hsymbols, hglobal, -⟩ := leaveTo_of_sameScopes hr.same
  have hopen : Extends s.table (s.table.enter kind) := .of_eq rfl rfl
  have hclose : Extends after.table (after.table.leaveTo s.table.level) :=
    .of_eq hsymbols (by rw [hglobal])
  have hwhole : Extends s.table (after.table.leaveTo s.table.level) :=
    hopen.trans (hr.table.trans hclose)
  obtain ⟨new, hnew, hok⟩ := hr.operands
  refine ⟨r, ?_, ?_⟩
  · exact {
      out := hr.out
      fits := hr.fits.mono hclose.free_subset subset_rfl
      labelled := hr.labelled
      functions := hr.functions
      labels := hr.labels
      rids := hr.rids
      table := hwhole
      same := .of_eq hinner
      operands := ⟨new, hnew, fun o ho => (hok o ho).mono subset_rfl hclose⟩
      stable := ⟨hr.stable.builtins, ordered_leaveTo hr.same hr.stable.ordered⟩ }
  · exact ⟨(h.sees.restore h.stable.ordered hinner hwhole).mono Set.subset_union_left, hQ⟩

/-- A step in a scope that belongs to the same function. -/
theorem Does.inScope {Q : List Operand → Prop} (h : Ready Γ known s) (hk : kind ≠ .function)
    (hp : ∀ t, Ready Γ known t → t.table = s.table.enter kind → t.operands = s.operands →
      Does Γ known t p fun _ _ t' => Q t'.operands) :
    Does Γ known s (Lower.inScope kind p) fun _ _ s' => Q s'.operands := by
  refine Run.inScope h fun t ht htable hoperands => ?_
  have ready : Ready Γ known t := ⟨ht, by rw [htable]; exact scoped_enter h.sees hk⟩
  exact .weaken (hp t ready htable hoperands) fun _ _ _ hQ => hQ.2

/-! ## Loops and functions -/

/-- A loop around a step that places the labels of the loop. -/
theorem Run.framed (targets : List String) {labels : List String} (h : Stable s)
    (htargets : targets ⊆ own) (hlabels : labels ⊆ own) (hclean : ∀ l ∈ labels, Word.Clean l)
    (hp : ∀ t, Stable t → t.table = s.table → Run (Γ.enterLoop targets) own known t p Whatever) :
    Run Γ own known s (Lower.framed labels p) Whatever := by
  intro a s' hs
  have opened : Stable { s with out := s.out.emit .untilLoop labels } := ⟨h.builtins, h.ordered⟩
  have run := hp _ opened rfl
  have hs' : (p >>= fun _ => Lower.emit .finish []) { s with out := s.out.emit .untilLoop labels } = (.ok a, s') := hs
  obtain ⟨u, after, hq, ⟨⟩⟩ := Lower.bind_eq_ok.mp hs'
  obtain ⟨r, hr, -⟩ := run () after hq
  have hown := hr.labelled.here
  have hdefs : (Region.loop labels r .nil).defs = r.defs := by simp [Region.defs]
  refine ⟨.loop labels r .nil, ?_, trivial⟩
  exact {
    out := by
      change after.out.emit .finish [] = _
      rw [hr.out]
      simp only [flatten]
      rw [show CodeItem.instr ⟨.untilLoop, labels⟩ :: (r.flatten ++ [CodeItem.instr ⟨.finish, []⟩])
        = [CodeItem.instr ⟨.untilLoop, labels⟩] ++ (r.flatten ++ [CodeItem.instr ⟨.finish, []⟩])
        from rfl, CodeBuffer.append_append, CodeBuffer.append_append]
      rfl
    fits := hr.fits.loop (fun l hl => hown (htargets hl)) (fun l hl => hown (hlabels hl)) hclean
    labelled := hr.labelled.loop
    functions := ⟨hr.functions, trivial⟩
    labels := hr.labels
    rids := hr.rids
    table := hr.table
    same := hr.same
    operands := by rw [hdefs]; exact hr.operands
    stable := ⟨hr.stable.builtins, hr.stable.ordered⟩ }

/-- The code of a step goes between the head of a function and its end. The step must not leave
operands behind: what they stand for is known in the function only. -/
theorem Run.function {params : List String} (hparams : ∀ w ∈ params, Word.Clean w ∧ ¬ Word.IsTemp w)
    (hp : ∀ t, Agree { s with out := s.out.enter } t →
      Run Surroundings.function [] { w | w ∈ params } t p fun _ _ t' => t'.operands = t.operands)
    (hwritten : ∀ {t : Lowering} {r : Region}, p { s with out := s.out.enter } = (.ok (), t) →
      t.out = s.out.enter.append r.flatten → FunctionCode
        (if (((t.table.get id).function?).getD {}).returnsValue then .funi else .func)
        ((t.table.get id).rid :: params) r) : Run Γ [] known s (do
        let code ← Lower.apart p
        let sym ← Lower.symbol id
        let f := sym.function?.getD {}
        Lower.emit (if f.returnsValue then .funi else .func) (sym.rid :: params)
        Lower.change fun s => { s with out := s.out.append code }
        Lower.emit .finish []) fun _ _ s' => s'.operands = s.operands := by
  intro a s' hs
  cases hq : p { s with out := s.out.enter } with
  | mk result after =>
    cases result with
    | error e =>
      change Lower.andThen (Lower.apart p) _ s = _ at hs
      unfold Lower.andThen Lower.apart at hs
      simp only [hq] at hs
      cases hs
    | ok u =>
      obtain ⟨r, hr, hoperands⟩ :=
        hp { s with out := s.out.enter } ⟨rfl, rfl, rfl, rfl, rfl⟩ () after hq
      have happart : Lower.apart p s = (.ok r.flatten, { after with out := s.out }) := by
        unfold Lower.apart
        simp only [hq]
        rw [hr.out, CodeBuffer.leave?_enter_append]
        rfl
      change Lower.andThen (Lower.apart p) _ s = _ at hs
      unfold Lower.andThen at hs
      rw [happart] at hs
      have hclean : ∀ w ∈ (after.table.get id).rid :: params, Word.Clean w :=
        List.forall_mem_cons.mpr
          ⟨Or.inl (hr.stable.ordered.rid_plain id), fun w hw => (hparams w hw).1⟩
      generalize hop : (if (((after.table.get id).function?).getD {}).returnsValue
        then Opcode.funi else Opcode.func) = op
      have hfunction : op.opensFunction = true := by
        rw [← hop]
        split <;> rfl
      cases hs
      refine ⟨.func op ((after.table.get id).rid :: params) r .nil, ?_, hoperands⟩
      exact {
        out := by
          change ((s.out.emit _ _).append r.flatten).emit .finish [] = _
          rw [show CodeBuffer.emit s.out _ _ = s.out.append [CodeItem.instr
            ⟨op, (after.table.get id).rid :: params⟩] from by rw [← hop]; rfl]
          rw [← CodeBuffer.append_append]
          change CodeBuffer.append _ [CodeItem.instr ⟨.finish, []⟩] = _
          rw [← CodeBuffer.append_append]
          simp [flatten]
        fits := hr.fits.func hfunction hclean fun w hw => (hparams w hw).2
        labelled := hr.labelled.func
        functions := ⟨⟨hop ▸ hwritten hq hr.out, hr.functions⟩, trivial⟩
        labels := hr.labels
        rids := hr.rids
        table := hr.table
        same := hr.same
        operands := ⟨[], hoperands, fun _ h => nomatch h⟩
        stable := ⟨hr.stable.builtins, hr.stable.ordered⟩ }

/-! ## Lists of steps -/

/-- Steps one after another, with what all of them keep. -/
theorem Does.forAll {I : Set String → Lowering → Prop} :
    ∀ {bs : List β} {known : Set String} {s : Lowering}, Ready Γ known s → I known s →
      (∀ b ∈ bs, ∀ known' s', Grows known s known' s' → Ready Γ known' s' → I known' s' →
        Does Γ known' s' (f b) fun known'' _ s'' => I known'' s'') →
      Does Γ known s (Lower.forAll f bs) fun known' _ s' => I known' s' := by
  intro bs
  induction bs with
  | nil =>
    intro known s h hI _
    exact .pure h hI
  | cons b bs ih =>
    intro known s h hI hf
    refine .bind (hf b List.mem_cons_self known s (.refl _ _) h hI) ?_
    intro known' _ s' hg hready hI'
    refine ih hready hI' fun c hc known'' s'' hg' => ?_
    exact hf c (List.mem_cons_of_mem _ hc) known'' s'' (hg.trans hg')

/-- Steps that leave no operands. -/
theorem Does.forEach {bs : List β} (h : Ready Γ known s)
    (hf : ∀ b ∈ bs, ∀ known' s', Grows known s known' s' → Ready Γ known' s' →
      Does Γ known' s' (f b) fun _ _ s'' => s''.operands = s'.operands) :
    Does Γ known s (Lower.forAll f bs) fun _ _ s' => s'.operands = s.operands := by
  refine .forAll (I := fun _ s' => s'.operands = s.operands) h rfl ?_
  intro b hb known' s' hg hready hI
  exact (hf b hb known' s' hg hready).weaken fun _ _ _ he => he.trans hI

/-- The results of steps, each of which has a property that lasts. -/
theorem Does.collect {f : β → Lower α} {P : Set String → Lowering → α → Prop}
    (hP : ∀ {known known' s s' a}, Grows known s known' s' → P known s a → P known' s' a) :
    ∀ {bs : List β} {known : Set String} {s : Lowering}, Ready Γ known s →
      (∀ b ∈ bs, ∀ known' s', Grows known s known' s' → Ready Γ known' s' →
        Does Γ known' s' (f b) fun known'' a s'' => P known'' s'' a) →
      Does Γ known s (Lower.collect f bs) fun known' as s' => ∀ a ∈ as, P known' s' a := by
  intro bs
  induction bs with
  | nil =>
    intro known s h _
    exact .pure h fun _ h => nomatch h
  | cons b bs ih =>
    intro known s h hf
    refine .bind (hf b List.mem_cons_self known s (.refl _ _) h) ?_
    intro known' a s' hg hready ha
    refine .bind (ih hready fun c hc known'' s'' hg' =>
      hf c (List.mem_cons_of_mem _ hc) known'' s'' (hg.trans hg')) ?_
    intro known'' as s'' hg' hready' has
    exact .pure hready' (List.forall_mem_cons.mpr ⟨hP hg' ha, has⟩)

end Frontend
