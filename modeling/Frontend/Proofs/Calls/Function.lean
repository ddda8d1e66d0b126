import Frontend.Proofs.Calls.Expression
import Frontend.Proofs.Lowering.Function

/-!
# Functions

The parameters and the raw id of a function are taken in front of its symbol, so none of them can be
mixed up with anything that was there before. A body is written under a head with as many parameters as
calls of the function pass arguments.
-/

namespace Frontend.Calls

open SymbolTable

variable {s s' : Lowering} {t t' : SymbolTable} {n : Nat} {id : SymbolId} {visit : Visit} {β : Type}
variable {rid : String} {name : Ident} {params : List Param} {info : FunctionInfo} {owner : Option SymbolId}
  {owed : List SymbolId} {labels : List Label} {sym : Symbol} {items : List Node → Lower Unit} {body : Block}
  {token : Token}
variable {pos : Position} {marks : Marks} {value : Option Operand} {f : String → Lower β} {Q : β → Lowering → Prop}
  {before : Lower Unit}

/-! ## Variables -/

/-- A variable with the next number may be made. -/
theorem fitting_variable (h : Callable n t) {name : String} {v : VariableInfo} (hrid : Word.IsNumbered rid n) :
    Fitting (n + 1) t { name, rid, pos, detail := .var v } := by
  refine fitting_fresh h (le_refl n) hrid ?_ fun _ e => nomatch e
  refine ⟨fun m hm => ?_, fun _ e => (nomatch e), fun _ e => (nomatch e)⟩
  rw [hm.unique hrid]
  exact Nat.lt_succ_self n

/-- A place is made for a variable, and its value moves in. -/
theorem Tame.allot : Tame (Lower.allot id rid marks value) := by
  refine (Tame.emit rfl).bind fun _ => ?_
  split
  · exact .pure ()
  · exact Tame.move.bind fun _ => .mapVariable _ _

theorem Tame.introduce : Tame (Lower.introduce name marks value) := by
  intro s hs
  unfold Lower.introduce
  refine .freshRid hs fun rid s₁ h₁ htable hrids hrid => ?_
  dsimp only
  refine .newSymbol h₁ (by rw [hrids, htable]; exact fitting_variable hs.table hrid) rfl ?_
  intro id s₂ made
  have reachable := made.reachable fun _ e => by cases e
  refine .ite (fun _ => ?_) fun _ => ?_
  · refine (Keeps.tryTable made.sound fun t ht => ?_).bind fun _ s₃ h₃ _ _ => Tame.allot s₃ h₃
    exact made.sound.table.insertAt reachable ht
  · exact (Keeps.insert made.sound reachable).bind fun _ s₃ h₃ _ _ => Tame.allot s₃ h₃

theorem Tame.defineVariable {init : Option Node} (hv : VisitOk visit) :
    Tame (Lower.defineVariable visit name init) := by
  refine Tame.marksOf.bind fun marks => ?_
  cases init with
  | none =>
    refine temper.guarded ?_
    change Tame (Lower.introduce name marks none)
    exact .introduce
  | some n =>
    refine (hv.value n).bind fun o => (Tame.ask _).bind fun _ => temper.guarded ?_
    change Tame (Lower.introduce name marks (some o))
    exact .introduce

theorem Tame.defineVariables {names : List Ident} {values : List (Option Node)}
    (hv : VisitOk visit) : Tame (Lower.defineVariables visit names values) :=
  temper.forAll fun _ _ => .defineVariable hv

/-! ## Heads of functions -/

theorem ParameterOk.mono {n' : Nat} {p : Parameter} (h : ParameterOk n t p) (hn : n ≤ n') : ParameterOk n' t p := by
  obtain ⟨m, hm, hp⟩ := h.numbered
  exact ⟨⟨m, by omega, hp⟩, h.spared⟩

/-- A parameter takes a number that belongs to no function. -/
theorem Keeps.parameter {p : Param} (hs : Sound s) : Keeps s (Lower.parameter p) fun q s' => s'.table = s.table ∧
      s.supply.rids ≤ s'.supply.rids ∧ ParameterOk s'.supply.rids s'.table q := by
  unfold Lower.parameter
  refine .marksOf fun marks => .freshRid hs fun rid s₁ h₁ htable hrids hrid => ?_
  have fresh : ∀ q : Parameter, q.rid = rid → Keeps s₁ (pure q) fun q s' => s'.table = s.table ∧
      s.supply.rids ≤ s'.supply.rids ∧ ParameterOk s'.supply.rids s'.table q := by
    rintro q rfl
    refine .pure h₁ ⟨htable, by omega, ⟨s.supply.rids, by omega, hrid⟩, ?_⟩
    rw [htable]
    intro id head hid he
    exact hs.table.not_numbered (le_refl _) (lt_size_of_callHead? hid) (he ▸ hrid)
  refine .unless fun _ => ?_
  cases p.default with
  | none => exact fresh _ rfl
  | some n =>
    dsimp only
    cases Operand.ofLiteral? n with
    | none => exact .failBind
    | some o => exact .ask (.unless fun _ => fresh _ rfl)

theorem Keeps.parameters (hs : Sound s) :
    Keeps s (Lower.collect Lower.parameter params) fun ps s' => s'.table = s.table ∧
      s.supply.rids ≤ s'.supply.rids ∧ ∀ q ∈ ps, ParameterOk s'.supply.rids s'.table q := by
  induction params generalizing s with
  | nil => exact .pure hs ⟨rfl, le_refl _, fun _ hq => nomatch hq⟩
  | cons p params ih =>
    refine (Keeps.parameter hs).bind fun q s₁ h₁ _ hq => ?_
    refine (ih h₁).bind fun qs s₂ h₂ _ hqs => ?_
    refine .pure h₂ ⟨hqs.1.trans hq.1, hq.2.1.trans hqs.2.1, ?_⟩
    refine List.forall_mem_cons.mpr ⟨?_, hqs.2.2⟩
    rw [hqs.1]
    exact hq.2.2.mono hqs.2.1

/-- A function with the next number may be made. -/
theorem fitting_function (h : Callable n t) {name : String} (hb : info.isBuiltin = false) (hrid : Word.IsNumbered rid n)
    (hparams : ∀ p ∈ info.params, ParameterOk n t p) :
    Fitting (n + 1) t { name, rid, pos, detail := .function info } := by
  refine fitting_fresh h (le_refl n) hrid ⟨fun m hm => ?_, ?_, fun _ e => by cases e⟩ ?_
  · have := hm.unique hrid
    omega
  · rintro f ⟨⟩
    refine ⟨fun p hp => (hparams p hp).mono (Nat.le_succ n), fun h => ?_, fun _ => ⟨n, hrid⟩⟩
    rw [hb] at h
    cases h
  · rintro f ⟨⟩ p hp he
    obtain ⟨m, hm, hp'⟩ := (hparams p hp).numbered
    have := hrid.unique (he ▸ hp')
    omega

theorem Keeps.freshFunctionRid {name : String} (hs : Sound s)
    (hf : ∀ rid s', Sound s' → s'.table = s.table → s'.supply.rids = s.supply.rids + 1 →
      Word.IsNumbered rid s.supply.rids → Keeps s' (f rid) Q) :
    Keeps s (Lower.freshFunctionRid owner name >>= f) Q := by
  unfold Lower.freshFunctionRid
  rw [Lower.bind_assoc]
  obtain ⟨base, hbase, -⟩ := Supply.functionRid_eq s.supply
    (owner.map fun o => (s.table.get o).name) name
  exact .ask (.takeNumber hs ⟨base, hbase⟩ hf)

/-- As above, where functions are owed. -/
theorem Owes.freshFunctionRid {name : String} {owed' : β → List SymbolId} (hs : Sound s)
    (hf : ∀ rid s', Sound s' → s'.table = s.table → s'.supply.rids = s.supply.rids + 1 →
      Word.IsNumbered rid s.supply.rids → Owes owed s' (f rid) owed' Q) :
    Owes owed s (Lower.freshFunctionRid owner name >>= f) owed' Q := by
  refine Keeps.thenOwes (R := fun rid s' => s'.table = s.table ∧ s'.supply.rids = s.supply.rids + 1 ∧
    Word.IsNumbered rid s.supply.rids) ?_ fun rid s' hs' _ h => hf rid s' hs' h.1 h.2.1 h.2.2
  rw [← Lower.bind_pure (Lower.freshFunctionRid owner name)]
  exact .freshFunctionRid hs fun rid s' hs' ht hr hn => .pure hs' ⟨ht, hr, hn⟩

/-- The head of a function that is about to be made or to complete a declaration. -/
structure HeadOk (s : Lowering) (sym : Symbol) (info : FunctionInfo) : Prop where
  detail : sym.detail = .function info
  kind : info.kind ≠ .construct
  written : info.isBuiltin = false
  fitting : ∀ info' : FunctionInfo, info'.isBuiltin = false → info'.params = info.params →
    Fitting s.supply.rids s.table { sym with detail := .function info' }
  params : ∀ p ∈ info.params, ParameterOk s.supply.rids s.table p

theorem Keeps.functionHead {admitted : List String} (hs : Sound s) :
    Keeps s (Lower.functionHead name owner params labels admitted) fun head s' =>
      HeadOk s' head.1 head.2.1 := by
  unfold Lower.functionHead
  refine Keeps.marksOf fun marks => (Keeps.parameters hs).bind fun ps s₁ h₁ _ hps => ?_
  refine .freshFunctionRid h₁ fun rid s₂ h₂ htable hrids hrid => ?_
  refine .pure h₂ ⟨rfl, ?_, rfl, fun info' hb hparams => ?_, ?_⟩
  · cases owner <;> exact fun e => nomatch e
  · rw [hrids, htable]
    exact fitting_function h₁.table hb hrid (by rw [hparams]; exact hps.2.2)
  · rw [hrids, htable]
    exact fun p hp => (hps.2.2 p hp).mono (Nat.le_succ _)

theorem HeadOk.self (h : HeadOk s sym info) : Fitting s.supply.rids s.table sym := by
  have whole : sym = { sym with detail := .function info } := by
    rw [← h.detail]
  rw [whole]
  exact h.fitting info h.written rfl

/-- A function of the source text. -/
def IsWritten (t : SymbolTable) (id : SymbolId) : Prop :=
  ∃ h, (t.get id).callHead? = some h ∧ h.builtin = false

theorem IsWritten.grows (h : IsWritten t id) (hg : Grows t t') : IsWritten t' id := by
  obtain ⟨head, hhead, hb⟩ := h
  exact ⟨head, by rw [hg.head id (lt_size_of_callHead? hhead), hhead], hb⟩

/-- What was only declared is not built in. -/
theorem Callable.isWritten_of_declared (h : Callable n t)
    (hd : (((t.get id).function?).getD {}).declared = true) : IsWritten t id := by
  cases hf : (t.get id).function? with
  | none =>
    rw [hf] at hd
    cases hd
  | some f =>
    rw [hf] at hd
    have head := Symbol.callHead?_of_function hf
    refine ⟨f.callHead, head, ?_⟩
    have ok := (h.symbols id (lt_size_of_callHead? head)).function f hf
    rw [← Bool.not_eq_true]
    intro hb
    rw [Option.getD_some, (ok.builtin hb).2] at hd
    cases hd

/-- A definition that completes a declaration has the head of the declaration, and its body has to be
written. -/
theorem Owes.fulfil {old : SymbolId} (hs : Sound s) (hparams : ∀ p ∈ info.params, ParameterOk s.supply.rids s.table p) :
    Owes owed s (Lower.fulfil old sym info) (fun _ => old :: owed) fun _ _ => True := by
  unfold Lower.fulfil
  refine .ask (.unless fun hsame => ?_)
  have changed := hs.table.mapFunction old (g := fun f => { f with params := info.params, declared := false })
    fun f hf => ⟨?_, fun hok => ⟨hparams, fun hb => ⟨(hok.builtin hb).1, rfl⟩, hok.numbered⟩⟩
  · rintro a s' ⟨⟩
    refine ⟨hs.of_grows rfl changed.1 changed.2.grows (List.Subset.refl _) fun _ hi => hi, changed.2.grows, rfl, ?_,
      trivial⟩
    intro hold id deferred virtual hid
    by_cases hne : id = old
    · exact .inl (hne ▸ List.mem_cons_self)
    · have other : ((s.table.modify old (Symbol.mapFunction fun f =>
          { f with params := info.params, declared := false })).get id) = s.table.get id := by
        rw [get_modify, if_neg fun h => hne h.1]
      obtain howed | hrest := hold id deferred virtual (other ▸ hid)
      · exact .inl (List.mem_cons_of_mem _ howed)
      · exact .inr (by rw [changed.2.rid id]; exact hrest)
  · have length : f.params.length = info.params.length := by
      rw [show s.session.symbols.get old = s.table.get old from rfl, hf] at hsame
      simp only [Option.getD_some, Lower.sameHead, Bool.not_eq_eq_eq_not, Bool.not_true,
        Bool.not_eq_false, Bool.and_eq_true, beq_iff_eq] at hsame
      exact hsame.1.1
    simp [FunctionInfo.callHead, FunctionInfo.isMethod, FunctionInfo.returnsValue, FunctionInfo.isBuiltin, length]

/-! ## Bodies of functions -/

theorem Keeps.enterParameters {params : List Parameter} (hs : Sound s)
    (hparams : ∀ p ∈ params, ParameterOk s.supply.rids s.table p) :
    Keeps s (Lower.enterParameters params) fun _ _ => True := by
  induction params generalizing s with
  | nil => exact .pure hs trivial
  | cons p params ih =>
    have fitting := fitting_parameter (hparams p List.mem_cons_self)
      (s := { name := p.name, rid := p.rid, pos := p.pos,
              detail := .parameter { type := p.type } p.kind }) rfl rfl rfl
    unfold Lower.enterParameters Lower.forAll
    rw [Lower.bind_assoc]
    refine .newSymbol hs fitting rfl fun id s₁ made => ?_
    refine (Keeps.insert made.sound (made.reachable fun _ e => by cases e)).bind
      fun _ s₂ h₂ _ hinsert => ih h₂ fun q hq => ?_
    rw [hinsert.1, made.supply]
    refine ParameterOk.alike ?_ hinsert.2.toSameHeads
    rw [made.table]
    exact (hparams q (List.mem_cons_of_mem _ hq)).add fun e => by cases e

/-- As many words are entered as calls pass arguments. -/
theorem Keeps.enterParams {h : CallHead} (hs : Sound s) (hid : (s.table.get id).callHead? = some h) :
    Keeps s (Lower.enterParams id) fun words _ => words.length = h.arity := by
  obtain ⟨f, hf, rfl⟩ := Symbol.exists_function_of_callHead? hid
  unfold Lower.enterParams
  refine .ask ?_
  rw [show s.session.symbols.get id = s.table.get id from rfl, hf, Option.getD_some]
  have params : ∀ p ∈ f.params, ParameterOk s.supply.rids s.table p :=
    fun p hp => hs.table.parameterOk hf hp
  -- the parameters come behind the object
  have rest : ∀ (receiver : List String) (s' : Lowering), Sound s' →
      (∀ p ∈ f.params, ParameterOk s'.supply.rids s'.table p) →
      Keeps s' (Lower.enterBehind receiver f.params) fun words _ => words.length = receiver.length + f.params.length := by
    intro receiver s' hs' hparams
    refine (Keeps.enterParameters hs' hparams).bind fun _ s₁ h₁ _ _ => Keeps.pure h₁ ?_
    rw [List.length_append, List.length_map]
  refine .ite (fun hc => ?_) fun hc => ?_
  · refine .freshRid hs fun rid s₁ h₁ htable hrids hrid => .ask ?_
    refine .newSymbol h₁ (by rw [hrids, htable]; exact fitting_variable hs.table hrid) rfl ?_
    intro this s₂ made
    refine (Keeps.insert made.sound (made.reachable fun _ e => by cases e)).bind
      fun _ s₃ h₃ _ hinsert => ?_
    refine (rest [rid] s₃ h₃ fun p hp => ?_).weaken fun words _ hw => ?_
    · rw [hinsert.1, made.supply, hrids]
      refine ParameterOk.alike ?_ hinsert.2.toSameHeads
      rw [made.table, htable]
      exact ((params p hp).mono (Nat.le_succ _)).add fun e => by cases e
    · rw [hw, FunctionInfo.callHead, if_pos hc]
      rfl
  · refine (rest [] s hs params).weaken fun words _ hw => ?_
    rw [hw, FunctionInfo.callHead, if_neg hc]
    rfl

/-- The head of a body says what the table says. -/
theorem instructionOk_head {returnsValue : Bool} {w : String} {params : List String}
    (h : Heads t w params.length returnsValue) :
    InstructionOk t ⟨if returnsValue then .funi else .func, w :: params⟩ := by
  cases returnsValue with
  | true => exact h
  | false => exact h

/-- The code that was kept apart is written under the head of its function. -/
theorem KeptApart.write {code : Code} {op : Opcode} {params : List String} {u : Lowering} (h : KeptApart s code s')
    (hop : op = .func ∨ op = .funi) (hi : InstructionOk s'.table ⟨op, (s'.table.get id).rid :: params⟩) (hp : (do
      Lower.emit op ((s'.table.get id).rid :: params)
      Lower.change fun s => { s with out := s.out.append code }
      Lower.emit .finish []) s' = (.ok (), u)) :
    Sound u ∧ Grows s.table u.table ∧ u.out.depth = s.out.depth ∧ (Settles (id :: owed) s → Settles owed u) := by
  cases hp
  have items : ∀ item, item ∈ (((s'.out.emit op ((s'.table.get id).rid :: params)).append code).emit .finish []).items ↔
      item = .instr ⟨.finish, []⟩ ∨ item ∈ code ∨ item = .instr ⟨op, (s'.table.get id).rid :: params⟩ ∨
        item ∈ s'.out.items := by
    intro item
    rw [CodeBuffer.mem_items_emit, CodeBuffer.mem_items_append, CodeBuffer.mem_items_emit]
  refine ⟨⟨h.sound.builtins, h.sound.table, h.sound.operands, fun i hmem => ?_⟩, h.grows, ?_, fun hold => ?_⟩
  · obtain hfinish | hcode | hhead | hold := (items _).mp hmem
    · cases hfinish
      exact instructionOk_of_isPlain rfl
    · exact h.ok i hcode
    · cases hhead
      exact hi
    · exact h.sound.code i hold
  · change (((s'.out.emit op ((s'.table.get id).rid :: params)).append code).emit .finish []).depth = s.out.depth
    rw [CodeBuffer.emit_eq, CodeBuffer.depth_append, CodeBuffer.depth_append, CodeBuffer.emit_eq,
      CodeBuffer.depth_append, h.depth]
  · intro other deferred virtual hother
    obtain howed | hdeferred | ⟨op', params', hop', hmem⟩ := h.settles _ hold other deferred virtual hother
    · obtain rfl | howed := List.mem_cons.mp howed
      · exact .inr (.inr ⟨op, params, hop, (items _).mpr (.inr (.inr (.inl rfl)))⟩)
      · exact .inl howed
    · exact .inr (.inl hdeferred)
    · refine .inr (.inr ⟨op', params', hop', (items _).mpr ?_⟩)
      exact (List.mem_append.mp hmem).elim (fun hcode => .inr (.inl hcode)) fun hitem => .inr (.inr (.inr hitem))

/-- A body is written under a head with the parameters that calls pass arguments for. -/
theorem Owes.functionBody (hitems : ∀ ns, Tame (items ns)) (hbefore : Tame before) (hs : Sound s)
    (hid : IsWritten s.table id) :
    Owes (id :: owed) s (Lower.functionBody items id body before) (fun _ => owed) fun _ _ => True := by
  obtain ⟨head, hhead, hb⟩ := hid
  have hlt := lt_size_of_callHead? hhead
  unfold Lower.functionBody
  refine .inScope hs fun u hu hgu => .inside hu fun v hv hvtable => ?_
  have hgv : Grows s.table v.table := by rw [hvtable]; exact hgu
  refine (Keeps.enterParams hv (by rw [hgv.head id hlt, hhead])).thenOwes fun params s₁ h₁ hg₁ hparams => ?_
  have lowered : Tame (do
      before
      items body.items
      Lower.epilogue id body.finish) :=
    hbefore.bind fun _ => (hitems _).bind fun _ => temper.epilogue
  intro _ after hp
  obtain ⟨code, s₂, hcode, hp⟩ := Lower.bind_eq_ok.mp hp
  have apart := lowered.keptApart h₁ hcode
  have known : (s₂.table.get id).callHead? = some head := by
    rw [(hgv.trans (hg₁.trans apart.grows)).head id hlt, hhead]
  obtain ⟨f, hf, rfl⟩ := Symbol.exists_function_of_callHead? known
  have heads : Heads s₂.table (s₂.table.get id).rid params.length f.returnsValue :=
    ⟨id, f.callHead, known, rfl, hb, hparams.symm, rfl⟩
  have op : (if f.returnsValue then Opcode.funi else .func) = .func ∨
      (if f.returnsValue then Opcode.funi else .func) = .funi := by
    cases f.returnsValue
    · exact .inl rfl
    · exact .inr rfl
  have rest : (do
      Lower.emit (if f.returnsValue then .funi else .func) ((s₂.table.get id).rid :: params)
      Lower.change fun s => { s with out := s.out.append code }
      Lower.emit .finish []) s₂ = (.ok (), after) := by
    rw [← hp]
    change _ = (do
      Lower.emit (if ((s₂.table.get id).function?.getD {}).returnsValue then .funi else .func)
        ((s₂.table.get id).rid :: params)
      Lower.change fun s => { s with out := s.out.append code }
      Lower.emit .finish []) s₂
    rw [hf, Option.getD_some]
  obtain ⟨hafter, hg, hdepth, hsettles⟩ := apart.write op (instructionOk_head heads) rest
  exact ⟨hafter, hg, hdepth, hsettles, trivial⟩

/-- The bodies of several functions are written one after another. -/
theorem Owes.functionBodies {bodies : List (SymbolId × Block)} (hitems : ∀ ns, Tame (items ns)) (hbefore : Tame before)
    (hs : Sound s) (hb : ∀ b ∈ bodies, IsWritten s.table b.1) :
    Owes (bodies.map (·.1) ++ owed) s
      (Lower.forAll (fun (id, body) => Lower.functionBody items id body before) bodies) (fun _ => owed)
      fun _ _ => True := by
  induction bodies generalizing s with
  | nil => exact .pure hs (List.Subset.refl _) trivial
  | cons b bodies ih =>
    refine (Owes.functionBody hitems hbefore hs (hb b List.mem_cons_self)).bind fun _ s₁ h₁ hg _ => ih h₁ ?_
    exact fun other hother => (hb other (List.mem_cons_of_mem _ hother)).grows hg

/-! ## Definitions of functions -/

theorem Tame.noteDeclared : Tame (Lower.noteDeclared id) := by
  rintro s hs a s' ⟨⟩
  refine ⟨⟨hs.builtins, hs.table, hs.operands, hs.code⟩, ⟨.refl _, rfl, fun _ hold => ?_⟩, trivial⟩
  exact hold.mono (fun _ => rfl) (fun _ _ => rfl) (List.subset_append_left _ _) (List.Subset.refl _)

/-- A function that is only declared need not be written, once its declaration is noted. -/
theorem Owes.noteDeclared {builtin virtual : Bool} (hs : Sound s)
    (hid : (s.table.get id).standing? = some (builtin, true, virtual)) :
    Owes (id :: owed) s (Lower.noteDeclared id) (fun _ => owed) fun _ s' => s'.table = s.table := by
  rintro a s' hp
  obtain ⟨hs', hm, -⟩ := Tame.noteDeclared s hs a s' hp
  cases hp
  refine ⟨hs', hm.grows, hm.depth, fun hold => ?_, rfl⟩
  exact (hm.settles _ hold).forgive hid (.inr (List.mem_append_right _ List.mem_cons_self))

theorem callHead?_of_detail (h : sym.detail = .function info) : sym.callHead? = some info.callHead := by
  unfold Symbol.callHead? Symbol.function?
  rw [h]
  rfl

theorem Tame.declareFunction : Tame (Lower.declareFunction name params labels) := by
  intro s hs
  unfold Lower.declareFunction
  refine (Keeps.functionHead hs).bind fun head s₁ h₁ _ hhead => Keeps.of_owes fun owed => ?_
  obtain ⟨sym, info, marks⟩ := head
  refine .newFunction h₁ (hhead.fitting { info with declared := true } hhead.written rfl) fun id s₂ made => ?_
  refine (Keeps.insert made.sound (made.reachable ?_)).thenOwes fun _ s₃ h₃ _ hinsert => ?_
  · rintro h ⟨⟩
    exact hhead.kind
  · have standing : (s₃.table.get id).standing? = some (info.isBuiltin, true, info.virtual) := by
      rw [hinsert.2.standing id, made.get]
      rfl
    exact (Owes.noteDeclared h₃ standing).weaken (fun _ => List.Subset.refl _) fun _ _ _ => trivial

theorem Tame.defineFunction (hitems : ∀ ns, Tame (items ns)) :
    Tame (Lower.defineFunction items name params labels body) := by
  intro s hs
  unfold Lower.defineFunction
  refine (Keeps.functionHead hs).bind fun head s₁ h₁ _ hhead => Keeps.of_owes fun owed => ?_
  obtain ⟨sym, info, marks⟩ := head
  refine .ask ?_
  dsimp only
  split
  · next old hold =>
    have written := h₁.table.isWritten_of_declared (Option.filter_eq_some_iff.mp hold).2
    refine (Owes.fulfil h₁ hhead.params).bind fun _ s₂ h₂ hg₂ _ => ?_
    exact .functionBody hitems (.pure ()) h₂ (written.grows hg₂)
  · refine .newFunction h₁ hhead.self fun id s₂ made => ?_
    have known : (s₂.table.get id).callHead? = some info.callHead := by
      rw [made.get, callHead?_of_detail hhead.detail]
    have written : IsWritten s₂.table id := ⟨_, known, hhead.written⟩
    refine (Keeps.insert made.sound ⟨made.known, ?_⟩).thenOwes fun _ s₃ h₃ hg₃ _ => ?_
    · rw [known]
      rintro h ⟨⟩
      exact hhead.kind
    · exact .functionBody hitems (.pure ()) h₃ (written.grows hg₃)

theorem Tame.lambda (hitems : ∀ ns, Tame (items ns)) : Tame (Lower.lambda items token params labels body) := by
  intro s hs
  unfold Lower.lambda
  refine Keeps.marksOf fun marks => (Keeps.parameters hs).bind fun ps s₁ h₁ _ hps => ?_
  refine .freshFunctionRid h₁ fun rid s₂ h₂ htable hrids hrid => .of_owes fun owed => ?_
  refine .newFunction h₂ ?_ fun id s₃ made => ?_
  · rw [hrids, htable]
    exact fitting_function h₁.table rfl hrid hps.2.2
  · have known := congrArg Symbol.callHead? made.get
    have written : IsWritten s₃.table id := ⟨_, known, rfl⟩
    have reachable : Reachable s₃.table id := made.reachable (by rintro h ⟨⟩; exact fun e => nomatch e)
    refine (Owes.functionBody hitems (Tame.pure ()) made.sound written).bind fun _ s₄ h₄ hg₄ _ => ?_
    exact Owes.ask (Keeps.push h₄ (operandOk_ofSymbol (reachable.grows hg₄))).owes

/-! ## Ways out of functions -/

theorem Tame.returnFrom {value : Option Node} (hv : VisitOk visit) : Tame (Lower.returnFrom visit token value) := by
  refine (Tame.ask _).bind fun function? => (Tame.ask _).bind fun _ => ?_
  split
  · next id _ _ =>
    have marked : Tame (Lower.changeTable (·.modify id (Symbol.mapFunction fun f =>
        { f with returned := true }))) :=
      .tame fun s hs => .changeTable hs (hs.table.returned id)
    refine marked.bind fun _ => (Tame.ask _).bind fun _ => ?_
    split
    · exact temper.returnNothing
    · exact temper.returnValue hv
  · exact .fail _

end Frontend.Calls
