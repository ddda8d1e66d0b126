import Frontend.Proofs.Lowering.Expression

/-!
# Assignments

The place that a value is assigned to may be written: a variable is in reach, and a field or an
element belongs to an operand that may be used.
-/

namespace Frontend

open SymbolTable Region

variable {Γ : Surroundings} {known known' : Set String} {s s' : Lowering} {t : SymbolTable}
  {visit : Visit}
variable {place : Lower.Target} {n : Node} {o : Operand}

/-- A place that may be read and written. -/
def Lower.Target.Ok (known : Set String) (t : SymbolTable) : Lower.Target → Prop
  | .slot id => id < t.symbols.size ∧ Usable known t (t.get id).rid
  | .field object _ => OperandOk known t object
  | .element container key => OperandOk known t container ∧ OperandOk known t key

theorem Lower.Target.Ok.grows (h : place.Ok known s.table) (hg : Grows known s known' s') :
    place.Ok known' s'.table := by
  cases place with
  | slot id =>
    refine ⟨Nat.lt_of_lt_of_le h.1 hg.table.size, ?_⟩
    rw [hg.table.rid id h.1]
    exact h.2.grows hg
  | field object id => exact OperandOk.grows h hg
  | element container key => exact ⟨h.1.grows hg, h.2.grows hg⟩

variable [Setting]
variable {value : Node} {op : Token}

theorem Does.resolveTarget (hv : VisitOk visit) (hn : n.WellRead) (h : Ready Γ known s) :
    Does Γ known s (Lower.resolveTarget visit n) fun known' place s' => place.Ok known' s'.table := by
  unfold Lower.resolveTarget
  split
  · rename_i name
    refine .unless fun _ => .ask ?_
    cases hl : s.table.lookup name.name name.token.pos with
    | ok id =>
      refine Run.ite (fun _ => Does.pure h ?_) fun _ => Run.fail
      exact ⟨lt_size_of_lookup h.stable.ordered hl, usable_of_lookup h.stable.ordered h.sees hl⟩
    | error d =>
      refine Does.bind (Does.implicitMember h) ?_
      rintro known₁ found? s₁ - h₁ ⟨-, hf⟩
      cases found? with
      | none => exact .fail
      | some found => exact Run.ite (fun _ => Does.pure h₁ (hf found rfl)) fun _ => Run.fail
  · refine .bind (.resolveMember hv (hn.child List.mem_cons_self) h) ?_
    intro known₁ found s₁ _ h₁ hf
    exact Run.ask (Run.ite (fun _ => Does.pure h₁ hf) fun _ => Run.fail)
  · refine .bind (.indexed hv (hn.child List.mem_cons_self)
      (hn.child (List.mem_cons_of_mem _ List.mem_cons_self)) h) ?_
    rintro known₁ ⟨container, key⟩ s₁ - h₁ hok
    exact .pure h₁ hok
  · exact .fail

section
variable (h : Ready Γ known s)
include h

theorem Does.loadTarget (hp : place.Ok known s.table) :
    Does Γ known s (Lower.loadTarget place n) fun known' o s' => OperandOk known' s'.table o := by
  unfold Lower.loadTarget
  cases place with
  | slot id => exact Run.ask (Does.pure h (operandOk_ofSymbol hp.2))
  | field object id =>
    refine .ask (.freshTemp h fun result s₁ h₁ hg₁ _ hresult => ?_)
    have hrid : Word.Clean (s.table.get id).rid := .inl (h.stable.ordered.rid_plain id)
    refine Does.bind (Does.emitBy h₁ (.inr (.inr rfl)) (hp.raw.grows hg₁) hrid hresult) ?_
    rintro known₂ _ s₂ - h₂ ⟨-, -, hu⟩
    exact .pure h₂ (operandOk_of_ident hu rfl rfl)
  | element container key =>
    refine .freshTemp h fun result s₁ h₁ hg₁ _ hresult => ?_
    refine Does.bind (Does.emitTo [container.raw, key.raw] h₁ rfl ?_ (.inr hresult)) ?_
    · simpa using ⟨hp.1.raw.grows hg₁, hp.2.raw.grows hg₁⟩
    · rintro known₂ _ s₂ - h₂ ⟨-, -, hu⟩
      exact .pure h₂ (operandOk_temp hu)

theorem Does.storeTarget (hp : place.Ok known s.table) (ho : Usable known s.table o.raw) :
    Does Γ known s (Lower.storeTarget place o) Whatever := by
  unfold Lower.storeTarget
  cases place with
  | slot id => exact Run.ask (Does.move h ho hp.2).whatever
  | field object id =>
    refine .ask ?_
    refine (Does.emitField h (.inl ⟨rfl, _, rfl⟩) hp.raw ?_ (by simpa using ho)).whatever
    exact .inl (h.stable.ordered.rid_plain id)
  | element container key =>
    refine (Does.emitOn h rfl ?_).whatever
    simpa using ⟨hp.1.raw, hp.2.raw, ho⟩

theorem Does.constructs {v : VariableInfo} : Does Γ known s (Lower.constructs v) Whatever := by
  unfold Lower.constructs
  refine .ask (.ask ?_)
  cases s.processing.find? fun id => (s.session.symbols.get id).function?.isSome with
  | none => exact Does.pure h trivial
  | some id => exact Does.pure h trivial

theorem Does.checkConst : Does Γ known s (Lower.checkConst place n) Whatever := by
  unfold Lower.checkConst
  cases place.symbol? with
  | none => exact .pure h trivial
  | some id =>
    refine Run.ask (Run.ite (fun _ => ?_) fun _ => Does.pure h trivial)
    refine Run.iteBind (Does.bind (Q := Whatever)
      (Run.ite (fun _ => Does.constructs h) fun _ => Does.pure h trivial) ?_)
    intro known₁ b s₁ _ h₁ _
    exact Run.ite (fun _ => Run.fail) fun _ => Does.pure h₁ trivial

theorem Does.remember {id : SymbolId} : Does Γ known s (Lower.remember id o) Whatever := by
  have mild : ∀ sym, Mild s.supply.rids s.table sym (sym.mapVariable fun v =>
      { v with value := o.effective, meaning := o.meaning }) :=
    mild_mapVariable fun _ => rfl
  exact (Does.modify h mild).whatever

theorem Does.settle (hp : place.Ok known s.table) (ho : OperandOk known s.table o) :
    Does Γ known s (Lower.settle place value o) Whatever := by
  have stored : ∀ known' s', Grows known s known' s' → Ready Γ known' s' →
      Does Γ known' s' (Lower.finishAssign place o) Whatever := by
    intro known' s' hg h'
    refine .bind (.storeTarget h' (hp.grows hg) (ho.raw.grows hg)) ?_
    intro known'' _ s'' hg' h'' _
    have hplace := hp.grows (hg.trans hg')
    have hvalue := ho.grows (hg.trans hg')
    cases place with
    | slot id => exact Run.ask (Does.push h'' (operandOk_ofSymbol hplace.2)).whatever
    | field object id => exact (Does.push h'' hvalue).whatever
    | element container key => exact (Does.push h'' hvalue).whatever
  unfold Lower.settle
  cases place.symbol? with
  | none => exact stored known s (.refl _ _) h
  | some id =>
    refine .ask (.unless fun _ => .ite (fun _ => ?_) fun _ => ?_)
    · refine Does.bind (Does.remember h) ?_
      intro known' _ s' hg h' _
      exact stored known' s' hg h'
    · exact stored known s (.refl _ _) h

end

theorem Does.assign {target : Node} (hv : VisitOk visit) (ht : target.WellRead) (hvalue : value.WellRead)
    (h : Ready Γ known s) : Does Γ known s (Lower.assign visit target op value n) Whatever := by
  unfold Lower.assign
  refine .bind (hv.eval hvalue h) ?_
  rintro known₁ given s₁ - h₁ ⟨hgiven, -⟩
  refine .bind (.resolveTarget hv ht h₁) ?_
  intro known₂ place s₂ hg₂ h₂ hplace
  refine .bind (.checkConst h₂) ?_
  intro known₃ _ s₃ hg₃ h₃ _
  have hgiven := hgiven.grows (hg₂.trans hg₃)
  have hplace := hplace.grows hg₃
  refine .ite (fun _ => ?_) fun _ => ?_
  · exact Run.query h₃.stable rfl (Does.settle h₃ hplace hgiven)
  · refine Does.bind (Does.loadTarget h₃ hplace) ?_
    intro known₄ current s₄ hg₄ h₄ hcurrent
    refine .bind (.binary h₄ hcurrent (hgiven.grows hg₄)) ?_
    intro known₅ result s₅ hg₅ h₅ hresult
    exact .settle h₅ (hplace.grows (hg₄.trans hg₅)) hresult

theorem Does.increment {operand : Node} (hv : VisitOk visit) (hn : operand.WellRead) (h : Ready Γ known s) :
    Does Γ known s (Lower.increment visit operand op n) Whatever := by
  unfold Lower.increment
  refine .bind (.resolveTarget hv hn h) ?_
  intro known₁ place s₁ _ h₁ hplace
  refine .bind (.checkConst h₁) ?_
  intro known₂ _ s₂ hg₂ h₂ _
  refine .bind (.loadTarget h₂ (hplace.grows hg₂)) ?_
  intro known₃ current s₃ hg₃ h₃ hcurrent
  have hplace := hplace.grows (hg₂.trans hg₃)
  refine .unless fun _ => .freshTemp h₃ fun before s₄ h₄ hg₄ _ hbefore => ?_
  refine Does.bind (Does.emitTo [current.raw] h₄ rfl (by simpa using hcurrent.raw.grows hg₄) (.inr hbefore)) ?_
  rintro known₅ _ s₅ hg₅ h₅ ⟨-, -, hu⟩
  have hcurrent := hcurrent.raw.grows (hg₄.trans hg₅)
  have hplace := hplace.grows (hg₄.trans hg₅)
  have step : ∀ {u : SymbolTable} {k : Set String} (i : Int), Usable k u (Spelling.ofInt i) :=
    fun i => usable_of_numeral (Word.numeral_ofInt i)
  have pushed : ∀ known' s', Grows known₅ s₅ known' s' → Ready Γ known' s' →
      Does Γ known' s' (Lower.push (.temp before current.effective n)) Whatever :=
    fun known' s' hg h' => (Does.push h' (operandOk_temp (hu.grows hg))).whatever
  have moved : ∀ i, Does Γ known₅ s₅ (Lower.stepTo place before current (Spelling.ofInt i) n) Whatever := by
    intro i
    refine .freshTemp h₅ fun after s₆ h₆ hg₆ _ hafter => ?_
    refine Does.bind (Does.emitTo [current.raw, _] h₆ rfl
      (by simpa using ⟨hcurrent.grows hg₆, step _⟩) (.inr hafter)) ?_
    rintro known₇ _ s₇ hg₇ h₇ ⟨-, -, hnew⟩
    refine .bind (.storeTarget h₇ (hplace.grows (hg₆.trans hg₇)) hnew) ?_
    intro known₈ _ s₈ hg₈ h₈ _
    exact pushed known₈ s₈ ((hg₆.trans hg₇).trans hg₈) h₈
  cases place with
  | slot id =>
    refine .bind (.emitTo [current.raw, _] h₅ rfl (by simpa using ⟨hcurrent, step _⟩) (.inl hcurrent)) ?_
    intro known₆ _ s₆ hg₆ h₆ _
    exact pushed known₆ s₆ hg₆ h₆
  | field object id => exact moved _
  | element container key => exact moved _

end Frontend
