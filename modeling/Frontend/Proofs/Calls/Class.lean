import Frontend.Proofs.Calls.Function

/-!
# Classes

A class learns of its members as they are collected: constructors are kept apart from what can be
reached by a name. The bodies that are written afterwards belong to functions of the source text.
-/

namespace Frontend.Calls

open SymbolTable

variable {s : Lowering} {t t' : SymbolTable} {visit : Visit} {β : Type}
variable {name : Ident} {cls id : SymbolId} {owed : List SymbolId} {body : Option Block} {found : Lower.Members}
variable {info : FunctionInfo} {params : List Param} {labels : List Label}

/-! ## Heads of classes -/

theorem Tame.newClass {info : ClassInfo} (hinfo : ∀ t, ClassOk t info) : Tame (Lower.newClass name info) := by
  intro s hs
  unfold Lower.newClass
  refine .takeNumber hs ⟨_, Supply.rid_eq _ _⟩ fun rid s₁ h₁ htable hrids hrid => ?_
  have fitting : Fitting s₁.supply.rids s₁.table
      { name := name.name, rid, pos := name.token.pos, detail := .cls info } := by
    rw [hrids, htable]
    refine fitting_fresh hs.table (le_refl _) hrid ⟨fun m hm => ?_, fun _ e => (nomatch e), ?_⟩
      fun _ e => nomatch e
    · have := hm.unique hrid
      omega
    · rintro c ⟨⟩
      exact hinfo _
  refine .newSymbol h₁ fitting rfl fun id s₂ made => ?_
  refine (Keeps.insert made.sound (made.reachable fun _ e => nomatch e)).bind fun _ s₃ h₃ _ _ => ?_
  refine (Keeps.changeTable h₃ (h₃.table.registerType id)).bind fun _ s₄ h₄ _ _ => ?_
  exact .pure h₄ trivial

theorem classOk_empty (declared : Bool) (t : SymbolTable) : ClassOk t { declared } :=
  ⟨fun _ h => (nomatch h), fun _ h => (nomatch h), fun _ h => (nomatch h)⟩

theorem Tame.declareClass : Tame (Lower.declareClass name) :=
  Tame.marksOf.bind fun _ => (Tame.newClass (classOk_empty true)).bind fun _ => Tame.noteDeclared

/-- A class is changed, and not in what it knows about functions. -/
theorem Tame.mapClass {g : ClassInfo → ClassInfo}
    (hg : ∀ c, (g c).constructors = c.constructors ∧ (g c).members = c.members ∧
      (g c).statics = c.statics) : Tame (Lower.changeTable (·.modify cls (Symbol.mapClass g))) := by
  refine .tame fun s hs => .changeTable hs (hs.table.mapClass cls fun c hc => ?_)
  obtain ⟨hconstructors, hmembers, hstatics⟩ := hg c
  exact ⟨by rw [hconstructors]; exact hc.constructors, by rw [hmembers]; exact hc.members,
    by rw [hstatics]; exact hc.statics⟩

theorem Tame.openClass : Tame (Lower.openClass name) := by
  refine (Tame.ask _).bind fun t => ?_
  split
  · exact .newClass (classOk_empty false)
  · dsimp only
    split
    · exact .fail _
    · exact .bind (.mapClass fun _ => ⟨rfl, rfl, rfl⟩) fun _ => .pure _

theorem Tame.setBase {type : Tag} : Tame (Lower.setBase cls type) := by
  refine temper.guarded ((Tame.ask _).bind fun t => (temper.ofExcept _).bind fun base => ?_)
  refine temper.guarded (.tame fun s hs => .tryTable hs fun t ht => ?_)
  exact hs.table.setBase ht

theorem Tame.classHead : Tame (Lower.classHead name) := by
  refine Tame.marksOf.bind fun marks => Tame.openClass.bind fun cls => ?_
  refine .ite (Tame.setBase.bind fun _ => ?_) ?_
  all_goals
    split
    · exact .bind (.mapClass fun _ => ⟨rfl, rfl, rfl⟩) fun _ => .pure _
    · exact .pure _

/-! ## Members -/

theorem Tame.collectField {init : Option Node} : Tame (Lower.collectField cls name init) := by
  intro s hs
  unfold Lower.collectField
  refine .marksOf fun marks => .unless fun _ => ?_
  refine .freshRid hs fun rid s₁ h₁ htable hrids hrid => .ask ?_
  refine .newSymbol h₁ (by rw [hrids, htable]; exact fitting_variable hs.table hrid) rfl ?_
  intro id s₂ made
  refine (Keeps.tryTable made.sound fun t ht => ?_).weaken fun _ _ _ => trivial
  exact made.sound.table.addMember (made.reachable fun _ e => nomatch e) ht

/-- The check of a method only asks. -/
theorem Owes.checkOverwrite {sym : Symbol} {f : Unit → Lower β} {owed' : β → List SymbolId} {Q : β → Lowering → Prop}
    (hf : Owes owed s (f ()) owed' Q) : Owes owed s (Lower.checkOverwrite cls sym info >>= f) owed' Q := by
  unfold Lower.checkOverwrite
  rw [Lower.bind_assoc]
  refine .ask ?_
  dsimp only
  split
  · exact .failBind
  · exact .failBind
  · exact hf

/-- Bodies that belong to functions of the source text. -/
def BodiesOk (t : SymbolTable) (bodies : List Lower.Bodied) : Prop := ∀ b ∈ bodies, IsWritten t b.1

theorem BodiesOk.grows {bodies : List Lower.Bodied} (h : BodiesOk t bodies) (hg : Grows t t') :
    BodiesOk t' bodies :=
  fun b hb => (h b hb).grows hg

theorem BodiesOk.append {few more : List Lower.Bodied} (h : BodiesOk t few) (h' : BodiesOk t more) :
    BodiesOk t (few ++ more) :=
  fun b hb => (List.mem_append.mp hb).elim (h b) (h' b)

section
variable (hs : Sound s) (hid : Reachable s.table id) (hwritten : IsWritten s.table id)
include hs hid hwritten

/-- A method that was made is added to its class. Its body is owed, if it has one. -/
theorem Owes.addMethod {static : Bool} :
    Owes ((body.map fun _ => id).toList ++ owed) s (do
        Lower.tryTable (·.addMember cls id static)
        return (body.map fun b => (id, b)).toList) (fun found => found.map (·.1) ++ owed)
      fun found s' => BodiesOk s'.table found ∧ (body = none → found = []) := by
  refine (Keeps.tryTable hs fun t ht => hs.table.addMember hid ht).thenOwes fun _ s' h' hg _ => ?_
  cases body with
  | none => exact .pure h' (List.Subset.refl _) ⟨fun _ hb => (nomatch hb), fun _ => rfl⟩
  | some b =>
    refine .pure h' (List.Subset.refl _) ⟨fun other hother => ?_, fun e => nomatch e⟩
    rw [List.mem_singleton.mp hother]
    exact hwritten.grows hg

/-- A method is recorded: it is noted if it has to be defined later, and is added to its class. -/
theorem Owes.recordMethod (hstanding : (s.table.get id).standing? = some (info.isBuiltin, info.declared, info.virtual))
    (hbody : info.declared = body.isNone) : Owes (id :: owed) s (do
        if info.declared && !info.virtual then Lower.noteDeclared id
        Lower.tryTable (·.addMember cls id info.static)
        return (body.map fun b => (id, b)).toList) (fun found => found.map (·.1) ++ owed)
      fun found s' => BodiesOk s'.table found ∧ (body = none → found = []) := by
  cases body with
  | some b =>
    rw [hbody]
    exact .addMethod hs hid hwritten
  | none =>
    rw [hbody] at hstanding ⊢
    refine .ite (fun _ => ?_) fun hvirtual => ?_
    · refine (Owes.noteDeclared hs hstanding).bind fun _ s₁ h₁ hg _ => ?_
      exact .addMethod h₁ (hid.grows hg) (hwritten.grows hg)
    · have virtual : info.virtual = true := by simpa using hvirtual
      exact (Owes.addMethod hs hid hwritten).forgive fun hold => hold.forgive hstanding (.inl virtual)

end

/-- The bodies of the methods that were collected are owed. -/
theorem Owes.collectMethod (hs : Sound s) :
    Owes owed s (Lower.collectMethod cls name params labels body) (fun found => found.map (·.1) ++ owed)
      fun found s' => BodiesOk s'.table found ∧ (body = none → found = []) := by
  unfold Lower.collectMethod
  refine (Keeps.functionHead hs).thenOwes fun head s₁ h₁ _ hhead => ?_
  obtain ⟨sym, info, marks⟩ := head
  refine .ask (.checkOverwrite (.ask ?_))
  -- what the marks say about a method leaves its parameters alone
  generalize hinfo : ({ info with
    static := marks.isStatic
    overwrite := marks.has Role.overwrite.text
    virtual := marks.has Role.virtual.text || marks.has Role.interface.text
    permission := marks.permissionOr _
    declared := body.isNone } : FunctionInfo) = marked
  have same : marked.params = info.params ∧ marked.kind = info.kind ∧
      marked.isBuiltin = info.isBuiltin ∧ marked.declared = body.isNone := by
    rw [← hinfo]
    exact ⟨rfl, rfl, rfl, rfl⟩
  split
  · next old b hold =>
    have declared := (Option.filter_eq_some_iff.mp hold).2
    rw [Bool.and_eq_true] at declared
    have written := h₁.table.isWritten_of_declared declared.2
    refine (Owes.fulfil h₁ (by rw [same.1]; exact hhead.params)).bind fun _ s₂ h₂ hg _ => ?_
    refine .pure h₂ (List.Subset.refl _) ⟨fun other hother => ?_, fun e => nomatch e⟩
    rw [List.mem_singleton.mp hother]
    exact written.grows hg
  · have builtin : marked.isBuiltin = false := same.2.2.1.trans hhead.written
    refine .newFunction h₁ (hhead.fitting marked builtin same.1) fun id s₂ made => ?_
    have written : IsWritten s₂.table id := ⟨_, congrArg Symbol.callHead? made.get, builtin⟩
    have reachable : Reachable s₂.table id := made.reachable (by
      rintro h ⟨⟩
      rw [show marked.callHead.kind = info.kind from same.2.1]
      exact hhead.kind)
    exact .recordMethod made.sound reachable written (by rw [made.get]; rfl) same.2.2.2

/-- A constructor is made and added to its class. Its body is owed. -/
theorem Owes.newConstructor {pos : Position} {params : List Parameter} {permission : Permission} (hs : Sound s)
    (hparams : ∀ p ∈ params, ParameterOk s.supply.rids s.table p) :
    Owes owed s (Lower.newConstructor cls pos params permission) (fun id => id :: owed)
      fun id s' => IsWritten s'.table id := by
  unfold Lower.newConstructor
  refine .freshFunctionRid hs fun rid s₁ h₁ htable hrids hrid => .ask ?_
  refine .newFunction h₁ ?_ fun id s₂ made => ?_
  · rw [hrids, htable]
    exact fitting_function hs.table rfl hrid hparams
  · have known := congrArg Symbol.callHead? made.get
    have constructor : IsConstructor s₂.table id := ⟨_, known, rfl, rfl⟩
    have written : IsWritten s₂.table id := ⟨_, known, rfl⟩
    refine (Keeps.changeTable made.sound (made.sound.table.mapClass cls fun c hc => ?_)).thenOwes
      fun _ s₃ h₃ hg _ => .pure h₃ (List.Subset.refl _) (written.grows hg)
    refine ⟨fun other hother => ?_, hc.members, hc.statics⟩
    rcases List.mem_append.mp hother with hother | hother
    · exact hc.constructors other hother
    · rw [List.mem_singleton.mp hother]
      exact constructor

theorem Owes.collectConstructor (hs : Sound s) :
    Owes owed s (Lower.collectConstructor cls name params labels) (fun id => id :: owed)
      fun id s' => IsWritten s'.table id := by
  unfold Lower.collectConstructor
  refine Owes.ask (Keeps.thenOwes (Tame.marksOf s hs) fun marks s₀ h₀ _ _ => ?_)
  refine (Keeps.parameters h₀).thenOwes fun ps s₁ h₁ _ hps => Owes.ask ?_
  exact .newConstructor h₁ hps.2.2

/-- The functions whose bodies the first pass has found. -/
def bodied (found : Lower.Members) : List SymbolId := found.constructors.map (·.1) ++ found.methods.map (·.1)

/-- What the first pass has found belongs to functions of the source text. -/
structure MembersOk (t : SymbolTable) (found : Lower.Members) : Prop where
  constructors : BodiesOk t found.constructors
  methods : BodiesOk t found.methods

theorem MembersOk.grows (h : MembersOk t found) (hg : Grows t t') : MembersOk t' found :=
  ⟨h.constructors.grows hg, h.methods.grows hg⟩

/-- A constructor more is found. -/
theorem MembersOk.constructor (h : MembersOk t found) (hid : IsWritten t id) (body : Block) :
    MembersOk t { found with constructors := found.constructors ++ [(id, body)] } :=
  ⟨h.constructors.append fun _ hb => List.mem_singleton.mp hb ▸ hid, h.methods⟩

theorem bodied_constructor (found : Lower.Members) (id : SymbolId) (body : Block) (owed : List SymbolId) :
    id :: (bodied found ++ owed) ⊆
      bodied { found with constructors := found.constructors ++ [(id, body)] } ++ owed := by
  intro other hother
  simp only [bodied, List.mem_cons, List.mem_append, List.map_append, List.map_cons, List.map_nil] at hother ⊢
  tauto

theorem bodied_methods (found : Lower.Members) (new : List Lower.Bodied) (owed : List SymbolId) :
    new.map (·.1) ++ (bodied found ++ owed) ⊆ bodied { found with methods := found.methods ++ new } ++ owed := by
  intro other hother
  simp only [bodied, List.mem_append, List.map_append] at hother ⊢
  tauto

section
variable (hs : Sound s) (hfound : MembersOk s.table found)
include hs hfound

theorem Owes.collectMember {item : Node} :
    Owes (bodied found ++ owed) s (Lower.collectMember cls found item) (fun found => bodied found ++ owed)
      fun found s' => MembersOk s'.table found := by
  unfold Lower.collectMember
  split
  · exact Keeps.thenOwes (temper.forAll (fun _ _ => Tame.collectField) s hs) fun _ s₁ h₁ hg _ =>
      .pure h₁ (List.Subset.refl _) (hfound.grows hg)
  · refine (Owes.collectMethod hs).bind fun new s₁ h₁ hg hnew => Owes.pure h₁ (bodied_methods ..) ?_
    exact ⟨hfound.constructors.grows hg, (hfound.methods.grows hg).append hnew.1⟩
  · refine (Owes.collectMethod hs).bind fun new s₁ h₁ hg hnew => ?_
    rw [hnew.2 rfl]
    exact .pure h₁ (List.Subset.refl _) (hfound.grows hg)
  · refine (Owes.collectConstructor hs).bind fun id s₁ h₁ hg hid => ?_
    exact .pure h₁ (bodied_constructor ..) ((hfound.grows hg).constructor hid _)
  · exact .pure hs (List.Subset.refl _) hfound
  · exact .fail

theorem Owes.collectMembers {items : List Node} :
    Owes (bodied found ++ owed) s (Lower.collectMembers cls found items) (fun found => bodied found ++ owed)
      fun found s' => MembersOk s'.table found := by
  induction items generalizing s found with
  | nil => exact .pure hs (List.Subset.refl _) hfound
  | cons item items ih =>
    exact (Owes.collectMember hs hfound).bind fun found s₁ h₁ _ hfound₁ => ih h₁ hfound₁

theorem Owes.completeMembers :
    Owes (bodied found ++ owed) s (Lower.completeMembers cls found) (fun found => bodied found ++ owed)
      fun found s' => MembersOk s'.table found := by
  unfold Lower.completeMembers
  refine .ask (.ask (.ite (fun _ => ?_) fun _ => .pure hs (List.Subset.refl _) hfound))
  have noParams : ∀ p ∈ ([] : List Parameter), ParameterOk s.supply.rids s.table p :=
    fun _ hp => nomatch hp
  refine (Owes.newConstructor hs noParams).bind fun id s₁ h₁ hg hid => ?_
  exact .pure h₁ (bodied_constructor ..) ((hfound.grows hg).constructor hid _)

end

/-! ## The code of a class -/

section
variable (hv : VisitOk visit)
include hv

theorem Tame.initField {object : String} {field : SymbolId} : Tame (Lower.initField visit object field) := by
  refine (Tame.ask _).bind fun sym => ?_
  dsimp only
  split
  · exact .pure ()
  · refine (hv.value _).bind fun o => (Tame.ask _).bind fun _ => temper.guarded ?_
    exact (Tame.emit rfl).bind fun _ => Tame.mapVariable _ _

theorem Tame.initInstance : Tame (Lower.initInstance visit cls) := by
  refine temper.thisRid.bind fun object => (Tame.ask _).bind fun t => ?_
  exact temper.forAll fun c _ => temper.forAll fun field _ => .initField hv

/-- All bodies that were found are written. -/
theorem Owes.emitClass {items : List Node → Lower Unit} (hitems : ∀ ns, Tame (items ns)) (hs : Sound s)
    (hfound : MembersOk s.table found) :
    Owes (bodied found ++ owed) s (Lower.emitClass visit items cls found) (fun _ => owed) fun _ _ => True := by
  unfold Lower.emitClass
  refine .ask ?_
  dsimp only
  have fields : ∀ op rid, isPlain op = true → ∀ ids : List SymbolId,
      Tame (Lower.forAll (fun f => Lower.emit op [rid, (s.table.get f).rid]) ids) :=
    fun op rid hop ids => temper.forAll fun _ _ => .emit hop
  refine Keeps.thenOwes (Tame.emit rfl s hs) fun _ s₁ h₁ hg₁ _ => ?_
  refine Keeps.thenOwes (fields .addField _ rfl _ s₁ h₁) fun _ s₂ h₂ hg₂ _ => ?_
  refine Keeps.thenOwes (fields .addStaticField _ rfl _ s₂ h₂) fun _ s₃ h₃ hg₃ _ => ?_
  refine Keeps.thenOwes (temper.forAll (fun _ _ => Tame.initField hv) s₃ h₃) fun _ s₄ h₄ hg₄ _ => ?_
  have hg := hg₁.trans (hg₂.trans (hg₃.trans hg₄))
  unfold bodied
  rw [List.append_assoc]
  refine (Owes.functionBodies hitems (Tame.initInstance hv) h₄ (hfound.constructors.grows hg)).bind
    fun _ s₅ h₅ hg₅ _ => ?_
  exact .functionBodies hitems (.pure ()) h₅ (hfound.methods.grows (hg.trans hg₅))

theorem Tame.defineClass {items : List Node → Lower Unit} {body : Block} (hitems : ∀ ns, Tame (items ns)) :
    Tame (Lower.defineClass visit items name body) := by
  refine Tame.classHead.bind fun cls s hs => .of_owes fun owed => ?_
  refine .inScope hs fun u hu _ => .inside hu fun v hv' _ => ?_
  have none : MembersOk v.table {} := ⟨fun _ hb => (nomatch hb), fun _ hb => (nomatch hb)⟩
  refine (Owes.collectMembers hv' none).bind fun found s₁ h₁ _ hfound => ?_
  refine (Owes.completeMembers h₁ hfound).bind fun found s₂ h₂ _ hfound => ?_
  refine Keeps.thenOwes (Tame.mapClass (g := fun c => { c with finished := true }) (fun _ => ⟨rfl, rfl, rfl⟩) s₂ h₂) fun _ s₃ h₃ hg₃ _ => ?_
  exact .emitClass hv hitems h₃ (hfound.grows hg₃)

end

end Frontend.Calls
