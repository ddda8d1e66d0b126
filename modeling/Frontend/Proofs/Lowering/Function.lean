import Frontend.Proofs.Lowering.Expression

/-!
# Variables and functions

A variable is known from its definition on. A function begins with its parameters and knows nothing
else of its surroundings; what it writes is closed in itself.
-/

namespace Frontend

open SymbolTable Region

variable {Γ : Surroundings} {own : List String} {known : Set String} {s : Lowering} {visit : Visit}
  {levels : Nat} {α β : Type}
variable {items : List Node → Lower Unit} {labels : List Label} {Q : Set String → β → Lowering → Prop} {sym : Symbol}
  {name : Ident} {info : FunctionInfo} {params : List Param} {id : SymbolId} {body : Block} {token : Token}
variable {n : Nat} {t : SymbolTable} {rid : String} {pos : Position} {s' : Lowering} {admitted : List String}
  {owner : Option SymbolId} {f : String → Lower β}

/-- A variable with a fresh raw id may be made. -/
theorem fitting_variable {name : String} {v : VariableInfo} (h : Ordered n t) (hname : Word.Plain name)
    (hrid : rid = Word.numbered name n) (hinit : ∀ node, v.init = some node → node.WellRead) :
    Fitting (n + 1) t { name, rid, pos, detail := .var v } := by
  subst hrid
  refine fitting_fresh h ?_ (Word.isNumbered_numbered _ _) fun _ e => nomatch e
  refine ⟨Word.plain_numbered hname n, hname,
    .inl ⟨n, Nat.lt_succ_self n, Word.isNumbered_numbered _ _⟩, fun _ e => (nomatch e), ?_,
    fun _ e => (nomatch e)⟩
  rintro w ⟨⟩
  exact hinit

/-- A variable may be entered where its raw id is known. -/
theorem entryOk_variable (hs : sym.sort = .variable) (hrid : sym.rid ∈ known) : EntryOk Γ known sym :=
  ⟨fun _ => hrid, fun ht => by rw [hs] at ht; exact nomatch ht⟩

/-- A function with a fresh raw id may be made. -/
theorem fitting_function {name : String} (h : Ordered n t) (hname : Word.Plain name)
    (hrid : Word.Plain rid ∧ Word.IsNumbered rid n) (hparams : ∀ p ∈ info.params, ParameterOk n t p) :
    Fitting (n + 1) t { name, rid, pos, detail := .function info } := by
  refine fitting_fresh h ?_ hrid.2 ?_
  · refine ⟨hrid.1, hname, .inl ⟨n, Nat.lt_succ_self n, hrid.2⟩, ?_, fun _ e => (nomatch e),
      fun _ e => (nomatch e)⟩
    rintro f ⟨⟩ p hp
    exact (hparams p hp).mono (Nat.le_succ n)
  · rintro f ⟨⟩ p hp he
    obtain ⟨m, hm, hnumbered⟩ := (hparams p hp).numbered
    have := hrid.2.unique (he ▸ hnumbered)
    omega

/-- The head of a function that is about to be made. -/
structure HeadOk (s : Lowering) (sym : Symbol) (info : FunctionInfo) : Prop where
  detail : sym.detail = .function info
  fitting : ∀ info' : FunctionInfo, info'.params = info.params →
    Fitting s.supply.rids s.table { sym with detail := .function info' }
  params : ∀ p ∈ info.params, ParameterOk s.supply.rids s.table p

theorem HeadOk.self (h : HeadOk s sym info) : Fitting s.supply.rids s.table sym := by
  have whole : sym = { sym with detail := .function info } := by
    rw [← h.detail]
  rw [whole]
  exact h.fitting info rfl

theorem Lower.processing_newSymbol {a : Unit} (h : (newSymbol sym >>= insert) s = (.ok a, s')) :
    s'.processing = s.processing := by
  obtain ⟨_, _, ⟨⟩, h⟩ := bind_eq_ok.mp h
  obtain ⟨_, _, ⟨⟩, h⟩ := bind_eq_ok.mp h
  obtain ⟨_, _, ht, ⟨⟩⟩ := bind_eq_ok.mp h
  obtain ⟨-, rfl⟩ := ofExcept_eq_ok ht
  rfl

/-- The head of a function leaves it at hand. -/
theorem Lower.processing_enterParams {words : List String} (h : enterParams id s = (.ok words, s')) :
    s'.processing = s.processing := by
  have entered : ∀ {params : List Parameter} {s s' : Lowering} {a : Unit}, forAll (fun (p : Parameter) => do
      let id ← newSymbol { name := p.name, rid := p.rid, pos := p.pos, detail := .parameter { type := p.type } p.kind }
      insert id) params s = (.ok a, s') → s'.processing = s.processing := by
    intro params s s' a h
    induction params generalizing s with
    | nil =>
      cases h
      rfl
    | cons p params ih =>
      obtain ⟨_, u, hp, h⟩ := bind_eq_ok.mp h
      exact (ih h).trans (processing_newSymbol hp)
  unfold enterParams at h
  obtain ⟨_, _, ⟨⟩, h⟩ := bind_eq_ok.mp h
  split at h
  · obtain ⟨_, u, hrid, h⟩ := bind_eq_ok.mp h
    obtain ⟨_, _, ⟨⟩, h⟩ := bind_eq_ok.mp h
    obtain ⟨this, v, hnew, h⟩ := bind_eq_ok.mp h
    obtain ⟨_, w, hinsert, h⟩ := bind_eq_ok.mp h
    obtain ⟨_, _, ⟨⟩, h⟩ := bind_eq_ok.mp h
    obtain ⟨_, _, hparams, ⟨⟩⟩ := bind_eq_ok.mp h
    have htaken : u.processing = s.processing := by
      cases hrid
      rfl
    exact (entered hparams).trans ((processing_newSymbol (bind_eq_ok.mpr ⟨this, v, hnew, hinsert⟩)).trans htaken)
  · obtain ⟨_, _, ⟨⟩, h⟩ := bind_eq_ok.mp h
    obtain ⟨_, _, hparams, ⟨⟩⟩ := bind_eq_ok.mp h
    exact entered hparams

variable [Setting]

/-- Marks only ask. -/
theorem Run.marksOf {what : String} {f : Marks → Lower β} (hf : ∀ marks, Run Γ own known s (f marks) Q) :
    Run Γ own known s (Lower.marksOf labels what admitted >>= f) Q := by
  unfold Lower.marksOf
  rw [Lower.bind_assoc]
  refine .ask ?_
  rw [Lower.bind_assoc]
  refine .ofExcept fun marks _ => ?_
  rw [Lower.bind_assoc]
  exact .refuse (hf marks)

/-! ## Variables -/

/-- The definition of a variable whose value, if there is one, was computed. -/
def Lower.introduce (name : Ident) (marks : Marks) (value : Option Operand) : Lower Unit := do
  let type := marks.typeOrAny
  let rid ← freshRid name.name
  let global := marks.lifeCycle? == some .global
  let id ← newSymbol {
    name := name.name, rid, pos := name.token.pos
    detail := .var { type, const := marks.isConst, global } }
  if global then tryTable (·.insertGlobal id) else insert id
  emit .allot [rid]
  match value with
  | none => pure ()
  | some o =>
    move o rid
    changeTable (·.modify id (Symbol.mapVariable fun v =>
      { v with meaning := o.meaning, value := if type.isAny then o.effective else v.value }))

theorem Does.introduce {marks : Marks} {value : Option Operand} (h : Ready Γ known s) (hname : name.Spelled)
    (hvalue : ∀ o, value = some o → OperandOk known s.table o) :
    Does Γ known s (Lower.introduce name marks value) fun _ _ s' => s'.operands = s.operands := by
  unfold Lower.introduce
  have ordered := h.stable.ordered
  refine .freshRid h fun s₁ h₁ htable₁ hrids hoperands₁ => ?_
  have hplain : Word.Plain (Word.numbered name.name s.supply.rids) := Word.plain_numbered hname _
  generalize hrid : Word.numbered name.name s.supply.rids = rid at hplain ⊢
  have fitting : ∀ v : VariableInfo, v.init = none →
      Fitting s₁.supply.rids s₁.table
        { name := name.name, rid := rid, pos := name.token.pos, detail := .var v } := by
    intro v hv
    rw [hrids, htable₁]
    exact fitting_variable ordered hname hrid.symm fun _ hn => by rw [hv] at hn; exact nomatch hn
  -- with its room the variable becomes known
  have placed : ∀ id s₂, Ready Γ (insert rid known) s₂ → Grows known s₁ known s₂ →
      s₂.operands = s₁.operands →
      Does Γ known s₂ (Lower.allot id rid marks value) fun _ _ s' => s'.operands = s.operands := by
    intro id s₂ h₂ hg₂ hoperands₂
    have hoperands₂ := hoperands₂.trans hoperands₁
    refine .bind (.emitAllot h₂ (.inl hplain)) ?_
    rintro known₃ _ s₃ hg₃ h₃ ⟨-, hoperands₃, hknown⟩
    have hoperands₃ := hoperands₃.trans hoperands₂
    cases value with
    | none => exact .pure h₃ hoperands₃
    | some o =>
      have ho : Usable known₃ s₃.table o.raw :=
        (htable₁ ▸ (hvalue o rfl).raw : Usable known s₁.table o.raw).grows (hg₂.trans hg₃)
      refine .bind (.move h₃ ho ⟨.inl hplain, .inl hknown⟩) ?_
      rintro known₄ _ s₄ - h₄ ⟨-, hoperands₄⟩
      have mild : ∀ sym, Mild s₄.supply.rids s₄.table sym (sym.mapVariable fun v =>
          { v with
            meaning := o.meaning
            value := if marks.typeOrAny.isAny then o.effective else v.value }) :=
        mild_mapVariable fun _ => rfl
      exact (Does.modify h₄ mild).weaken fun _ _ _ hd => hd.2.2.trans (hoperands₄.trans hoperands₃)
  have ready : Ready Γ (insert rid known) s₁ := h₁.mono fun _ hw => .inr hw
  have entry : ∀ v : VariableInfo, EntryOk Γ (insert rid known)
      { name := name.name, rid := rid, pos := name.token.pos, detail := .var v } :=
    fun v => entryOk_variable rfl (.inl rfl)
  by_cases hglobal : (marks.lifeCycle? == some .global) = true
  · simp only [hglobal, if_true]
    refine .enterNew (g := fun id t => t.insertGlobal id) ready (fitting _ rfl) (entry _)
      (fun t' => entered_newGlobal h₁.stable.ordered (fitting _ rfl) fun e => nomatch e) ?_
    intro id s₂ h₂ hg₂ _ _ _ hoperands₂
    exact placed id s₂ h₂ hg₂ hoperands₂
  · simp only [hglobal]
    refine .enterNew (g := fun id t => t.insert id) ready (fitting _ rfl) (entry _)
      (fun t' => entered_new h₁.stable.ordered (fitting _ rfl) fun e => nomatch e) ?_
    intro id s₂ h₂ hg₂ _ _ _ hoperands₂
    exact placed id s₂ h₂ hg₂ hoperands₂

theorem Does.defineVariable {init : Option Node} (hv : VisitOk visit) (hname : name.Spelled)
    (hinit : ∀ n, init = some n → n.WellRead) (h : Ready Γ known s) :
    Does Γ known s (Lower.defineVariable visit name init) fun _ _ s' =>
      s'.operands = s.operands := by
  unfold Lower.defineVariable
  refine .marksOf fun marks => ?_
  cases init with
  | none =>
    refine .unless fun _ => .query h.stable rfl ?_
    change Does Γ known s (Lower.introduce name marks none) _
    exact .introduce h hname fun _ e => nomatch e
  | some n =>
    refine Does.bind (hv.eval (hinit n rfl) h) ?_
    rintro known₁ o s₁ - h₁ ⟨ho, hoperands⟩
    refine Run.ask (Run.unless fun _ => Run.query h₁.stable rfl ?_)
    change Does Γ known₁ s₁ (Lower.introduce name marks (some o)) _
    refine (Does.introduce h₁ hname ?_).weaken fun _ _ _ hd => hd.trans hoperands
    rintro _ ⟨⟩
    exact ho

theorem Does.defineVariables {names : List Ident} {values : List (Option Node)}
    (hv : VisitOk visit) (hnames : ∀ i ∈ names, i.Spelled)
    (hvalues : ∀ n, some n ∈ values → n.WellRead) (h : Ready Γ known s) :
    Does Γ known s (Lower.defineVariables visit names values) Whatever := by
  refine (Does.forEach h fun b hb known' s' _ h' => ?_).whatever
  obtain ⟨name, init⟩ := b
  have hmem := List.of_mem_zip hb
  refine .defineVariable hv (hnames name hmem.1) ?_ h'
  rintro n rfl
  exact hvalues n hmem.2

/-! ## Heads of functions -/

theorem Does.parameter {p : Param} (hname : p.name.Spelled) (h : Ready Γ known s) :
    Does Γ known s (Lower.parameter p) fun _ q s' =>
      s'.table = s.table ∧ s'.operands = s.operands ∧ s.supply.rids ≤ s'.supply.rids ∧
        ParameterOk s'.supply.rids s'.table q := by
  unfold Lower.parameter
  refine .marksOf fun marks => .freshRid h fun s₁ h₁ htable hrids hoperands => ?_
  have fresh : ∀ q : Parameter, q.name = p.name.name →
      q.rid = Word.numbered p.name.name s.supply.rids → ParameterOk s₁.supply.rids s₁.table q := by
    intro q hq hrid
    have hnumbered : Word.IsNumbered q.rid s.supply.rids := hrid ▸ Word.isNumbered_numbered _ _
    refine ⟨by rw [hrid]; exact Word.plain_numbered hname _, by rw [hq]; exact hname,
      ⟨s.supply.rids, by rw [hrids]; exact Nat.lt_succ_self _, hnumbered⟩, ?_⟩
    intro id hid he
    rw [htable] at hid he
    exact absurd (he ▸ hnumbered) (h.stable.ordered.not_numbered (le_refl _) hid)
  have done : ∀ q : Parameter, q.name = p.name.name →
      q.rid = Word.numbered p.name.name s.supply.rids →
      Does Γ known s₁ (Pure.pure q) fun _ q s' =>
        s'.table = s.table ∧ s'.operands = s.operands ∧ s.supply.rids ≤ s'.supply.rids ∧
          ParameterOk s'.supply.rids s'.table q :=
    fun q hq hrid => .pure h₁ ⟨htable, hoperands, by omega, fresh q hq hrid⟩
  refine .unless fun _ => ?_
  cases p.default with
  | none => exact done _ rfl rfl
  | some n =>
    dsimp only
    cases Operand.ofLiteral? n with
    | none => exact .failBind
    | some o => exact .ask (.unless fun _ => done _ rfl rfl)

theorem Does.parameters : ∀ {params : List Param} {known : Set String} {s : Lowering},
      (∀ p ∈ params, p.name.Spelled) → Ready Γ known s →
      Does Γ known s (Lower.collect Lower.parameter params) fun _ ps s' =>
        s'.table = s.table ∧ s'.operands = s.operands ∧ s.supply.rids ≤ s'.supply.rids ∧
          ∀ q ∈ ps, ParameterOk s'.supply.rids s'.table q := by
  intro params
  induction params with
  | nil =>
    intro known s _ h
    exact .pure h ⟨rfl, rfl, le_refl _, fun _ hq => nomatch hq⟩
  | cons p params ih =>
    intro known s hnames h
    refine .bind (.parameter (hnames p List.mem_cons_self) h) ?_
    rintro known₁ q s₁ - h₁ ⟨htable₁, hoperands₁, hrids₁, hq⟩
    refine .bind (ih (fun p hp => hnames p (List.mem_cons_of_mem _ hp)) h₁) ?_
    rintro known₂ qs s₂ - h₂ ⟨htable₂, hoperands₂, hrids₂, hqs⟩
    refine .pure h₂ ⟨htable₂.trans htable₁, hoperands₂.trans hoperands₁,
      hrids₁.trans hrids₂, List.forall_mem_cons.mpr ⟨?_, hqs⟩⟩
    rw [htable₂]
    exact hq.mono hrids₂

/-- A raw id for a function is numbered like all others. -/
theorem Run.freshFunctionRid {name : String} (h : Ready Γ known s) (hname : Word.Plain name)
    (hf : ∀ rid s', Ready Γ known s' → s'.table = s.table → s'.supply.rids = s.supply.rids + 1 →
      s'.operands = s.operands → Word.Plain rid ∧ Word.IsNumbered rid s.supply.rids →
      Run Γ own known s' (f rid) Q) : Run Γ own known s (Lower.freshFunctionRid owner name >>= f) Q := by
  unfold Lower.freshFunctionRid
  rw [Lower.bind_assoc]
  refine .ask ?_
  obtain ⟨base, hbase, rfl⟩ := Supply.functionRid_eq s.supply
    (owner.map fun o => (s.table.get o).name) name
  refine .take h hbase fun s₁ h₁ htable hrids hoperands => ?_
  refine hf _ s₁ h₁ htable hrids hoperands ⟨Word.plain_numbered ?_ _, Word.isNumbered_numbered _ _⟩
  refine Word.plain_append (Word.plain_append (by decide) ?_) hname
  cases owner with
  | none => exact (by decide : Word.Plain "")
  | some o => exact Word.plain_append (h.stable.ordered.name_plain o) (by decide)

theorem Does.functionHead (hname : name.Spelled) (hparams : ∀ p ∈ params, p.name.Spelled) (h : Ready Γ known s) :
    Does Γ known s (Lower.functionHead name owner params labels admitted) fun _ head s' =>
      s'.operands = s.operands ∧ HeadOk s' head.1 head.2.1 := by
  unfold Lower.functionHead
  refine .marksOf fun marks => ?_
  refine Does.bind (Does.parameters hparams h) ?_
  rintro known₁ ps s₁ - h₁ ⟨-, hoperands₁, -, hps⟩
  refine .freshFunctionRid h₁ hname fun rid s₂ h₂ htable hrids hoperands₂ hrid => ?_
  refine Does.pure h₂ ⟨hoperands₂.trans hoperands₁, rfl, ?_, ?_⟩
  · intro info' hinfo
    rw [hrids, htable]
    refine fitting_function h₁.stable.ordered hname hrid ?_
    rw [hinfo]
    exact hps
  · rw [hrids, htable]
    exact fun p hp => (hps p hp).mono (Nat.le_succ _)

/-- A declared function takes over the parameters of its definition. -/
theorem Does.fulfil {old : SymbolId} (h : Ready Γ known s)
    (hparams : ∀ p ∈ info.params, ParameterOk s.supply.rids s.table p) :
    Does Γ known s (Lower.fulfil old sym info) fun _ _ s' => s'.operands = s.operands := by
  unfold Lower.fulfil
  refine .ask (.unless fun _ => ?_)
  have mild : ∀ other, Mild s.supply.rids s.table other (other.mapFunction fun f =>
      { f with params := info.params, declared := false }) :=
    mild_mapFunction fun _ => .inr hparams
  exact (Does.modify h mild).weaken fun _ _ _ hd => hd.2.2

/-! ## Bodies of functions -/

/-- Parameters are entered in the scope of their function. -/
theorem Run.enterParameters {seen : Set String} :
    ∀ {params : List Parameter} {s : Lowering}, Ready .function seen s →
      (∀ p ∈ params, p.rid ∈ seen ∧ ParameterOk s.supply.rids s.table p) →
      Run Γ [] known s (Lower.enterParameters params) fun _ _ s' =>
        Scoped .function seen s'.table ∧ s'.operands = s.operands := by
  intro params
  induction params with
  | nil =>
    intro s h _
    exact .pure h.stable ⟨h.sees, rfl⟩
  | cons p params ih =>
    intro s h hparams
    obtain ⟨hseen, hp⟩ := hparams p List.mem_cons_self
    have fitting : Fitting s.supply.rids s.table
        { name := p.name, rid := p.rid, pos := p.pos
          detail := .parameter { type := p.type } p.kind } := by
      refine ⟨⟨hp.rid_plain, hp.name_plain, .inl hp.numbered, fun _ e => (nomatch e), ?_,
        fun _ e => (nomatch e)⟩, ?_, fun hv => absurd rfl hv, fun _ e => (nomatch e)⟩
      · rintro v ⟨⟩ node hnode
        exact nomatch hnode
      · exact fun id hid he => iff_of_true (hp.reserved id hid he) rfl
    change Run Γ [] known s ((_ >>= fun id => Lower.insert id) >>= fun _ => Lower.forAll _ params) _
    rw [Lower.bind_assoc]
    refine .enterNew (g := fun id t => t.insert id) h fitting (entryOk_variable rfl hseen)
      (fun t' => entered_new h.stable.ordered fitting fun e => nomatch e) ?_
    intro id s₁ h₁ _ halike _ hsupply hoperands
    refine (ih h₁ fun q hq => ?_).weaken fun _ _ _ hd => ⟨hd.1, hd.2.trans hoperands⟩
    obtain ⟨hseen', hq⟩ := hparams q (List.mem_cons_of_mem _ hq)
    rw [hsupply]
    exact ⟨hseen', (hq.add fun hv => absurd rfl hv).alike halike⟩

/-- A function sees its parameters, and its object if it has one. -/
theorem Run.enterParams (h : Ready .function ∅ s) : Run Γ [] known s (Lower.enterParams id) fun _ words s' =>
      (∀ w ∈ words, Word.Clean w ∧ ¬ Word.IsTemp w) ∧
        Scoped .function { w | w ∈ words } s'.table ∧ s'.operands = s.operands := by
  have params : ∀ p ∈ (((s.table.get id).function?).getD {}).params,
      ParameterOk s.supply.rids s.table p := by
    intro p hp
    cases hf : (s.table.get id).function? with
    | none =>
      rw [hf] at hp
      exact nomatch hp
    | some f =>
      rw [hf] at hp
      have hlt : id < s.table.symbols.size :=
        lt_size_of_sort_ne (by rw [Symbol.sort_of_function hf]; exact fun e => nomatch e)
      exact (h.stable.ordered.symbols id hlt).params f hf p hp
  -- the parameters come behind the object
  have rest : ∀ (receiver : List String) (s' : Lowering),
      Ready .function
        { w | w ∈ receiver ++ (((s.table.get id).function?).getD {}).params.map (·.rid) } s' →
      (∀ p ∈ (((s.table.get id).function?).getD {}).params, ParameterOk s'.supply.rids s'.table p) →
      (∀ w ∈ receiver, Word.Clean w ∧ ¬ Word.IsTemp w) → s'.operands = s.operands →
      Run Γ [] known s' (Lower.enterBehind receiver (((s.table.get id).function?).getD {}).params)
        fun _ words s' => (∀ w ∈ words, Word.Clean w ∧ ¬ Word.IsTemp w) ∧
          Scoped .function { w | w ∈ words } s'.table ∧ s'.operands = s.operands := by
    intro receiver s' h' hparams hreceiver hoperands
    refine .bind (.enterParameters h' fun p hp => ?_) ?_
    · exact ⟨List.mem_append_right _ (List.mem_map_of_mem hp), hparams p hp⟩
    · rintro known₁ _ s₁ - stable₁ ⟨sees₁, hoperands₁⟩
      refine .pure stable₁ ⟨fun w hw => ?_, sees₁, hoperands₁.trans hoperands⟩
      rcases List.mem_append.mp hw with hw | hw
      · exact hreceiver w hw
      · obtain ⟨p, hp, rfl⟩ := List.mem_map.mp hw
        obtain ⟨m, -, hm⟩ := (hparams p hp).numbered
        exact ⟨.inl (hparams p hp).rid_plain, Word.not_isTemp_of_isNumbered hm⟩
  unfold Lower.enterParams
  refine .ask (.ite (fun _ => ?_) fun _ => ?_)
  · refine .freshRid h fun s₁ h₁ htable hrids hoperands => .ask ?_
    have hplain : Word.Plain (Word.numbered "this" s.supply.rids) :=
      Word.plain_numbered (by decide) _
    generalize hrid : Word.numbered "this" s.supply.rids = rid at hplain ⊢
    have fitting : ∀ v : VariableInfo, v.init = none →
        Fitting s₁.supply.rids s₁.table
          { name := "this", rid := rid, pos := (s.table.get id).pos, detail := .var v } := by
      intro v hv
      rw [hrids, htable]
      exact fitting_variable h.stable.ordered (by decide) hrid.symm
        fun _ hn => by rw [hv] at hn; exact nomatch hn
    have ready : Ready .function { w | w ∈ [rid] ++
        (((s.table.get id).function?).getD {}).params.map (·.rid) } s₁ :=
      h₁.mono (Set.empty_subset _)
    refine .enterNew (g := fun id t => t.insert id) ready (fitting _ rfl)
      (entryOk_variable rfl List.mem_cons_self)
      (fun t' => entered_new h₁.stable.ordered (fitting _ rfl) fun e => nomatch e) ?_
    intro this s₂ h₂ _ halike _ hsupply hoperands₂
    refine .query h₂.stable rfl ?_
    refine rest [rid] s₂ h₂ (fun p hp => ?_) ?_ (hoperands₂.trans hoperands)
    · rw [hsupply, hrids]
      have hp := (params p hp).mono (Nat.le_succ _)
      rw [← htable] at hp
      exact (hp.add fun hv => absurd rfl hv).alike halike
    · intro w hw
      rw [List.mem_singleton.mp hw]
      refine ⟨.inl hplain, ?_⟩
      rw [← hrid]
      exact Word.not_isTemp_of_isNumbered (Word.isNumbered_numbered _ _)
  · exact .query h.stable rfl
      (rest [] s (h.mono (Set.empty_subset _)) params (fun _ hw => nomatch hw) rfl)

/-- The object at hand may be used. -/
theorem Run.thisRid (h : Ready Γ known s) (hf : ∀ w, Usable known s.table w → Run Γ own known s (f w) Q) :
    Run Γ own known s (Lower.thisRid >>= f) Q := by
  refine .query h.stable rfl (hf _ ?_)
  cases hthis : s.table.findInFunction? "this" with
  | none => exact usable_empty
  | some id => exact usable_of_findInFunction h.stable.ordered h.sees hthis

theorem Does.epilogue {finish : Position} (h : Ready Γ known s) (hΓ : Γ.inFunction) :
    Does Γ known s (Lower.epilogue id finish) fun _ _ s' => s'.operands = s.operands := by
  unfold Lower.epilogue
  refine .ask (.ite (fun _ => .thisRid h fun w hw => ?_) fun _ => ?_)
  · exact Does.emitReturn h hΓ (by simpa using hw)
  · refine Run.ite (fun _ => Does.pure h rfl) fun _ => Run.ite (fun _ => ?_) fun _ => ?_
    · exact Does.emitReturn h hΓ (by simpa using usable_null)
    · exact Run.ite (fun _ => Does.pure h rfl) fun _ => Run.fail

/-- A lowering of several items that leaves no operands. -/
def ItemsOk (items : List Node → Lower Unit) : Prop :=
  ∀ {Γ : Surroundings} {known : Set String} {s : Lowering} {ns : List Node},
    (∀ n ∈ ns, n.WellRead) → Ready Γ known s →
      Does Γ known s (items ns) fun _ _ s' => s'.operands = s.operands

def PreludeOk (before : Lower Unit) : Prop :=
  ∀ {known : Set String} {s : Lowering}, Ready .function known s →
    Does .function known s before fun _ _ s' => s'.operands = s.operands

theorem preludeOk_pure : PreludeOk (pure ()) := fun h => .pure h rfl

/-- The body of a function is closed in itself, wherever the function stands. -/
theorem Does.functionBody {before inner : Lower Unit} (hwithin : Lower.Within levels visit items) (hitems : ItemsOk items)
    (hbody : ∀ n ∈ body.items, n.WellRead) (hprelude : Lower.Prelude (Lower.visit levels) inner)
    (hinner : ∀ s s', before s = (.ok (), s') → inner s = (.ok (), s')) (hbefore : PreludeOk before)
    (h : Ready Γ known s) : Does Γ known s (Lower.functionBody items id body before) fun _ _ s' =>
      s'.operands = s.operands := by
  unfold Lower.functionBody
  refine Run.inScope (Q := fun operands => operands = s.operands) h fun t ht htable hoperands => ?_
  refine .inside (Q := fun _ _ _ operands => operands = s.operands) fun u hu hprocessing => ?_
  have ready : Ready .function ∅ u := by
    refine ⟨ht.agree hu, ?_⟩
    rw [hu.table, htable]
    exact scoped_enter_function _
  have same : u.operands = s.operands := hu.operands.trans hoperands
  refine Run.bind (Run.enterParams ready).along ?_
  rintro known₁ params s₁ - stable₁ ⟨⟨hclean, sees₁, hoperands₁⟩, henter⟩
  have within : ∀ v, Agree { s₁ with out := s₁.out.enter } v → Ready .function { w | w ∈ params } v := by
    intro v hv
    refine ⟨⟨hv.builtins.trans stable₁.builtins, ?_⟩, ?_⟩
    · rw [hv.table, hv.supply]
      exact stable₁.ordered
    · rw [hv.table]
      exact sees₁
  refine (Run.function hclean (fun v hv => ?_) fun hrun hout => ?_).weaken fun _ _ _ he =>
    he.trans (hoperands₁.trans same)
  rotate_left
  · obtain ⟨_, m, hfields, hrun⟩ := Lower.bind_eq_ok.mp hrun
    obtain ⟨_, m', hlowered, hrun⟩ := Lower.bind_eq_ok.mp hrun
    let i : Inside :=
      { levels, id, body
        before := inner
        start := { s₁ with out := s₁.out.enter }
        after := _
        code := _
        prelude := hprelude
        run := by
          rw [Lower.bind_of_ok (hinner _ _ hfields), Lower.bind_of_ok (hwithin.body hlowered)]
          exact hrun
        out := hout }
    have hhead : s₁.processing.head? = some id := by
      rw [Lower.processing_enterParams henter, hprocessing]
      rfl
    exact ⟨i, hwithin.lowers rfl hhead (hinner _ _ hfields) hlowered, hbody, within _ ⟨rfl, rfl, rfl, rfl, rfl⟩, rfl,
      rfl, rfl⟩
  have whole : Does .function { w | w ∈ params } v
      (do
        before
        items body.items
        Lower.epilogue id body.finish) fun _ _ v' => v'.operands = v.operands := by
    refine .bind (hbefore (within v hv)) ?_
    intro known₂ _ s₂ _ h₂ hoperands₂
    refine .bind (hitems hbody h₂) ?_
    intro known₃ _ s₃ _ h₃ hoperands₃
    exact (Does.epilogue h₃ trivial).weaken fun _ _ _ he =>
      he.trans (hoperands₃.trans hoperands₂)
  exact .weaken whole fun _ _ _ hd => hd.2

/-! ## Definitions of functions -/

theorem Does.noteDeclared (h : Ready Γ known s) :
    Does Γ known s (Lower.noteDeclared id) fun _ _ s' => s'.operands = s.operands := by
  rintro a s' ⟨⟩
  refine ⟨.nil, ?_, h.sees.mono Set.subset_union_left, rfl⟩
  exact .quiet rfl rfl (le_refl _) (le_refl _) (.refl _) (.of_eq rfl)
    ⟨h.stable.builtins, h.stable.ordered⟩

/-- A function is made and entered in the innermost scope. -/
theorem Run.enterFunction {f : SymbolId → Unit → Lower β} (h : Ready Γ known s) (hs : Fitting s.supply.rids s.table sym)
    (hsort : sym.sort = .function)
    (hf : ∀ id s', Ready Γ known s' → s'.operands = s.operands → Run Γ own known s' (f id ()) Q) :
    Run Γ own known s (Lower.newSymbol sym >>= fun id => Lower.insert id >>= f id) Q := by
  have entry : EntryOk Γ known sym := by
    constructor
    · intro hv
      rw [hsort] at hv
      exact nomatch hv
    · intro ht
      rw [hsort] at ht
      exact nomatch ht
  refine .enterNew (g := fun id t => t.insert id) h hs entry
    (fun t' => entered_new h.stable.ordered hs fun ht => ?_) ?_
  · rw [hsort] at ht
    exact nomatch ht
  · intro id s₁ h₁ _ _ _ _ hoperands
    exact hf id s₁ h₁ hoperands

theorem Does.declareFunction (hname : name.Spelled) (hparams : ∀ p ∈ params, p.name.Spelled) (h : Ready Γ known s) :
    Does Γ known s (Lower.declareFunction name params labels) Whatever := by
  unfold Lower.declareFunction
  refine .bind (.functionHead hname hparams h) ?_
  rintro known₁ ⟨sym, info, marks⟩ s₁ - h₁ ⟨-, hhead⟩
  refine .enterFunction h₁ (hhead.fitting _ rfl) rfl fun id s₂ h₂ _ => ?_
  exact (Does.noteDeclared h₂).whatever

theorem Does.defineFunction (hwithin : Lower.Within levels visit items) (hitems : ItemsOk items) (hname : name.Spelled)
    (hparams : ∀ p ∈ params, p.name.Spelled) (hbody : ∀ n ∈ body.items, n.WellRead) (h : Ready Γ known s) :
    Does Γ known s (Lower.defineFunction items name params labels body) Whatever := by
  unfold Lower.defineFunction
  refine .bind (.functionHead hname hparams h) ?_
  rintro known₁ ⟨sym, info, marks⟩ s₁ - h₁ ⟨-, hhead⟩
  have sort : sym.sort = .function := by
    unfold Symbol.sort
    rw [hhead.detail]
  refine .ask ?_
  dsimp only
  generalize Option.filter _ _ = declared
  cases declared with
  | some old =>
    refine Does.bind (Does.fulfil h₁ hhead.params) ?_
    intro known₂ _ s₂ _ h₂ _
    exact Run.query h₂.stable rfl (Does.functionBody hwithin hitems hbody .nothing (fun _ _ h => h) preludeOk_pure h₂).whatever
  | none =>
    refine .enterFunction h₁ hhead.self sort fun id s₂ h₂ _ => ?_
    exact Run.query h₂.stable rfl (Does.functionBody hwithin hitems hbody .nothing (fun _ _ h => h) preludeOk_pure h₂).whatever

theorem Does.lambda (hwithin : Lower.Within levels visit items) (hitems : ItemsOk items) (hparams : ∀ p ∈ params, p.name.Spelled)
    (hbody : ∀ n ∈ body.items, n.WellRead) (h : Ready Γ known s) :
    Does Γ known s (Lower.lambda items token params labels body) Whatever := by
  unfold Lower.lambda
  refine .marksOf fun marks => ?_
  refine Does.bind (Does.parameters hparams h) ?_
  rintro known₁ ps s₁ - h₁ ⟨-, -, -, hps⟩
  refine .freshFunctionRid h₁ (by decide) fun rid s₂ h₂ htable hrids _ hrid => ?_
  have fitting : ∀ info : FunctionInfo, info.params = ps →
      Fitting s₂.supply.rids s₂.table
        { name := "lambda", rid := rid, pos := token.pos, detail := .function info } := by
    intro info hinfo
    rw [hrids, htable]
    refine fitting_function h₁.stable.ordered (by decide) hrid ?_
    rw [hinfo]
    exact hps
  refine .newSymbol h₂ (fitting _ rfl) fun s₃ h₃ htable₃ _ _ => ?_
  generalize hid : (s₂.table.add _).1 = id
  have made : id < s₃.table.symbols.size ∧ (s₃.table.get id).sort = .function := by
    rw [htable₃, ← hid]
    exact ⟨by rw [size_add]; exact Nat.lt_succ_self _, by rw [get_add_new]; rfl⟩
  refine Does.bind (Does.functionBody hwithin hitems hbody .nothing (fun _ _ h => h) preludeOk_pure h₃) ?_
  intro known₄ _ s₄ hg₄ h₄ _
  refine Run.ask (Does.push h₄ (operandOk_ofSymbol (usable_of_sort_ne h₄.stable.ordered ?_))).whatever
  rw [hg₄.table.sort id made.1, made.2]
  exact fun e => nomatch e

/-! ## Ways out of functions -/

theorem Does.returnNothing {f : FunctionInfo} (h : Ready Γ known s) (hΓ : Γ.inFunction) :
    Does Γ known s (Lower.returnNothing sym f token) Whatever := by
  unfold Lower.returnNothing
  refine .ite (fun _ => .thisRid h fun w hw => ?_) fun _ => ?_
  · exact (Does.emitReturn h hΓ (by simpa using hw)).whatever
  · refine .ite (fun _ => ?_) fun _ => .ite (fun _ => ?_) fun _ => .fail
    · exact (Does.emitReturn h hΓ (by simp)).whatever
    · exact (Does.emitReturn h hΓ (by simpa using usable_null)).whatever

theorem Does.returnValue {f : FunctionInfo} {value : Node} (hv : VisitOk visit) (hn : value.WellRead)
    (h : Ready Γ known s) (hΓ : Γ.inFunction) : Does Γ known s (Lower.returnValue visit sym f value) Whatever := by
  unfold Lower.returnValue
  refine .unless fun _ => ?_
  refine Does.bind (hv.eval hn h) ?_
  rintro known₁ o s₁ - h₁ ⟨ho, -⟩
  refine Run.ask (Run.unless fun _ => ?_)
  exact (Does.emitReturn h₁ hΓ (by simpa using ho.raw)).whatever

theorem Does.returnFrom {value : Option Node} (hv : VisitOk visit) (hn : ∀ n, value = some n → n.WellRead)
    (h : Ready Γ known s) : Does Γ known s (Lower.returnFrom visit token value) Whatever := by
  unfold Lower.returnFrom
  refine .ask (.ask ?_)
  split
  · rename_i id level _ hlevel
    have hΓ : Γ.inFunction := h.sees.inFunction (by
      rw [show s.table.functionLevel = level + 1 from hlevel]
      exact Nat.succ_pos level)
    have mild : ∀ sym, Mild s.supply.rids s.table sym (sym.mapFunction fun f =>
        { f with returned := true }) :=
      mild_mapFunction fun _ => .inl rfl
    refine Does.bind (Does.modify h mild) ?_
    intro known₁ _ s₁ _ h₁ _
    refine .ask ?_
    cases value with
    | none => exact Does.returnNothing h₁ hΓ
    | some n => exact Does.returnValue hv (hn n rfl) h₁ hΓ
  · exact .fail

end Frontend
