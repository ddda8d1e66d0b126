import Frontend.Proofs.Lowering.Function

/-!
# Classes

Collecting the members of a class writes no code. The code of a class touches its own raw id and that
of its base; the initial values of fields are computed anew in every constructor, where nothing but
the parameters and the object is known.
-/

namespace Frontend

open SymbolTable Region

variable {Γ : Surroundings} {own : List String} {known : Set String} {s : Lowering} {visit : Visit}
  {α β : Type}
variable {cls : SymbolId} {pos : Position} {name : Ident} {found : Lower.Members} {items : List Node → Lower Unit}
variable {f : ClassInfo → ClassInfo} {base field : SymbolId} {type : Tag} {params : List Param} {labels : List Label}
  {levels : Nat}

/-! ## Tables with classes -/

namespace SymbolTable

variable {n : Nat} {t t' : SymbolTable} {id : SymbolId}

/-- Registering a class changes nothing that names lead to. -/
theorem inner_registerType (t : SymbolTable) (id : SymbolId) : (t.registerType id).inner = t.inner ∨
      ∃ top rest, t.inner = top :: rest ∧
        (t.registerType id).inner = { top with types := top.types ++ [(t.get id).rid] } :: rest := by
  unfold registerType mapScope
  cases hi : t.inner with
  | nil =>
    left
    simp [level, hi]
  | cons top rest =>
    right
    refine ⟨top, rest, rfl, ?_⟩
    simp [level, hi]

theorem global_registerType (t : SymbolTable) (id : SymbolId) : (t.registerType id).symbols = t.symbols ∧
      (t.registerType id).global.names = t.global.names ∧ (t.registerType id).global.rids = t.global.rids := by
  unfold registerType mapScope
  by_cases hl : t.level = 0
  · simp [hl]
  · simp [hl]

theorem ordered_registerType (h : Ordered n t) (hid : (t.get id).sort = .cls) : Ordered n (t.registerType id) := by
  obtain ⟨hsymbols, hnames, hrids⟩ := global_registerType t id
  refine h.of_eq hsymbols hnames hrids ?_ fun e he => ?_
  · rcases inner_registerType t id with hi | ⟨top, rest, hi, hi'⟩
    · rw [hi]
      exact h.levelled
    · have hl := h.levelled
      rw [hi] at hl
      rw [hi']
      exact hl
  · rcases mem_putEntry he with rfl | he
    · exact hid
    · exact h.types e he

theorem sameScopes_registerType (t : SymbolTable) (id : SymbolId) : SameScopes t (t.registerType id) := by
  rcases inner_registerType t id with hi | ⟨top, rest, hi, hi'⟩
  · exact .of_eq hi
  · constructor
    · rw [hi, hi']
      rfl
    · rw [hi, hi']
      rfl

theorem extends_registerType (t : SymbolTable) (id : SymbolId) : Extends t (t.registerType id) :=
  .of_eq (global_registerType t id).1 (global_registerType t id).2.2

theorem scoped_registerType (h : Scoped Γ known t) (ho : Ordered n t) (id : SymbolId) :
    Scoped Γ known (t.registerType id) := by
  rcases inner_registerType t id with hi | ⟨top, rest, hi, hi'⟩
  · exact h.restore ho hi (extends_registerType t id)
  · refine ⟨?_, fun hl => h.inFunction ?_⟩
    · have hget : ∀ j, (t.registerType id).get j = t.get j := fun j => by
        unfold get
        rw [(global_registerType t id).1]
      have entries := h.entries
      rw [hi, functionScopes] at entries
      intro scope hs e he
      rw [hget]
      rw [hi', functionScopes] at hs
      split at hs
      · rename_i hk
        rw [if_pos hk] at entries
        rw [List.mem_singleton.mp hs] at he
        exact entries top (List.mem_singleton.mpr rfl) e he
      · rename_i hk
        rw [if_neg hk] at entries
        rcases List.mem_cons.mp hs with rfl | hs
        · exact entries top List.mem_cons_self e he
        · exact entries scope (List.mem_cons_of_mem _ hs) e he
    · rwa [functionLevel_of_kinds (sameScopes_registerType t id).kinds] at hl

/-- Changes of classes one after another that leave constructors and bases as they are. -/
theorem ordered_foldl_mapClass (hf : ∀ c, (f c).constructors =
    c.constructors ∧ (f c).base = c.base) (ids : List SymbolId) (h : Ordered n t) :
    Ordered n (ids.foldl (fun t b => t.modify b (Symbol.mapClass f)) t) ∧
      Extends t (ids.foldl (fun t b => t.modify b (Symbol.mapClass f)) t) ∧
      (ids.foldl (fun t b => t.modify b (Symbol.mapClass f)) t).inner = t.inner := by
  induction ids generalizing t with
  | nil => exact ⟨h, .refl t, rfl⟩
  | cons id ids ih =>
    have mild : ∀ sym, Mild n t sym (sym.mapClass f) := by
      refine mild_mapClass fun c hc => ⟨?_, ?_⟩
      · rw [(hf c).1]
        exact hc.constructors
      · rw [(hf c).2]
        exact hc.base
    obtain ⟨ho, he⟩ := h.modify id mild
    obtain ⟨ho', he', hi'⟩ := ih ho
    exact ⟨ho', he.trans he', hi'⟩

theorem ordered_setBase (h : Ordered n t) (hbase : (t.get base).sort = .cls)
    (hs : t.setBase cls (some base) pos = .ok t') : Ordered n t' ∧ Extends t t' ∧ t'.inner = t.inner := by
  unfold setBase at hs
  simp only at hs
  split at hs
  · cases hs
  · cases hs
    have mild : ∀ sym, Mild n t sym (sym.mapClass fun c => { c with base := some base }) := by
      refine mild_mapClass fun c hc => ⟨hc.constructors, ?_⟩
      rintro id ⟨⟩
      exact hbase
    obtain ⟨ho, he⟩ := h.modify cls mild
    obtain ⟨ho', he', hi'⟩ := ordered_foldl_mapClass
      (f := fun c => { c with derived := c.derived ++ [cls] }) (fun _ => ⟨rfl, rfl⟩)
      (t.chain (some base)) ho
    exact ⟨ho', he.trans he', hi'⟩

theorem ordered_addMember {member : SymbolId} {static : Bool} (h : Ordered n t)
    (hs : t.addMember cls member static = .ok t') : Ordered n t' ∧ Extends t t' ∧ t'.inner = t.inner := by
  unfold addMember at hs
  simp only at hs
  split at hs
  · cases hs
  · cases hs
    have mild : ∀ sym, Mild n t sym (sym.mapClass fun c =>
        if static then { c with statics := c.statics ++ [((t.get member).name, member)] }
        else { c with members := c.members ++ [((t.get member).name, member)] }) := by
      refine mild_mapClass fun c hc => ?_
      split
      · exact ⟨hc.constructors, hc.base⟩
      · exact ⟨hc.constructors, hc.base⟩
    obtain ⟨ho, he⟩ := h.modify cls mild
    exact ⟨ho, he, rfl⟩

end SymbolTable

theorem classOk_empty (declared : Bool) (t : SymbolTable) : ClassOk t { declared } :=
  ⟨fun _ hid => (nomatch hid), fun _ hid => (nomatch hid)⟩

/-- A type that stands for a class leads to a class. -/
theorem sort_of_classOf {n : Nat} {t : SymbolTable} {id : SymbolId} (h : Ordered n t)
    (hc : t.classOf type pos = .ok id) : (t.get id).sort = .cls := by
  unfold classOf at hc
  split at hc
  · cases hc
  · split at hc
    · rename_i hl
      cases hc
      exact h.types _ (mem_of_lookup hl)
    · cases hc

/-- Definitions whose bodies are well read. -/
def BodiesOk (found : List Lower.Bodied) : Prop := ∀ b ∈ found, ∀ n ∈ b.2.items, n.WellRead

/-- What the first pass finds is well read. -/
structure MembersOk (found : Lower.Members) : Prop where
  constructors : BodiesOk found.constructors
  methods : BodiesOk found.methods

theorem BodiesOk.append {few more : List Lower.Bodied} (h : BodiesOk few) (h' : BodiesOk more) :
    BodiesOk (few ++ more) :=
  fun b hb => (List.mem_append.mp hb).elim (h b) (h' b)

theorem bodiesOk_single {id : SymbolId} {b : Block} (h : ∀ n ∈ b.items, n.WellRead) : BodiesOk [(id, b)] := by
  intro other hother
  rw [List.mem_singleton.mp hother]
  exact h

theorem usable_of_base {n : Nat} {t : SymbolTable} (h : Ordered n t) (hb : (t.classInfo cls).base = some base) :
    Usable known t (t.get base).rid := by
  refine usable_of_sort_ne h ?_
  unfold classInfo at hb
  cases hc : (t.get cls).class? with
  | none =>
    rw [hc] at hb
    exact nomatch hb
  | some c =>
    rw [hc] at hb
    have hlt : cls < t.symbols.size :=
      lt_size_of_sort_ne (by rw [Symbol.sort_of_class hc]; exact fun e => nomatch e)
    rw [((h.symbols cls hlt).cls c hc).base base hb]
    exact fun e => nomatch e

theorem wellRead_of_init {n : Nat} {t : SymbolTable} {node : Node} (h : Ordered n t)
    (hinit : (((t.get field).var?).getD {}).init = some node) : node.WellRead := by
  cases hv : (t.get field).var? with
  | none =>
    rw [hv] at hinit
    exact nomatch hinit
  | some v =>
    rw [hv] at hinit
    by_cases hlt : field < t.symbols.size
    · exact (h.symbols field hlt).init v hv node hinit
    · rw [get_of_size_le (Nat.le_of_not_lt hlt)] at hv
      cases hv
      exact nomatch hinit

variable [Setting]

/-! ## Heads of classes -/

/-- A change of the table that leaves the scopes as they are and may be refused. -/
theorem Does.tryTable {g : SymbolTable → Except Diagnostic SymbolTable} (h : Ready Γ known s)
    (hg : ∀ t, g s.table = .ok t → Ordered s.supply.rids t ∧ Extends s.table t ∧ t.inner = s.table.inner) :
    Does Γ known s (Lower.tryTable g) fun _ _ s' => s'.operands = s.operands := by
  rw [← Lower.bind_pure (Lower.tryTable g)]
  refine Run.tryTable h.stable (fun t ht => ?_) fun s₁ h₁ ht _ hoperands => ?_
  · obtain ⟨ho, he, hi⟩ := hg t ht
    exact ⟨ho, he, .of_eq hi⟩
  · obtain ⟨-, he, hi⟩ := hg _ ht
    exact Does.pure ⟨h₁, h.sees.restore h.stable.ordered hi he⟩ hoperands

theorem Does.newClass {info : ClassInfo} (hname : name.Spelled) (hinfo : ∀ t, ClassOk t info)
    (h : Ready Γ known s) : Does Γ known s (Lower.newClass name info) fun _ id s' =>
      s'.operands = s.operands ∧ (s'.table.get id).sort = .cls := by
  unfold Lower.newClass
  refine .take h (Supply.rid_eq _ _) fun s₁ h₁ htable hrids hoperands₁ => ?_
  have hplain : Word.Plain ("T_" ++ name.name) := Word.plain_append (by decide) hname
  have fitting : Fitting s₁.supply.rids s₁.table
      { name := name.name, rid := Word.numbered ("T_" ++ name.name) s.supply.rids,
        pos := name.token.pos, detail := .cls info } := by
    rw [hrids, htable]
    refine fitting_fresh h.stable.ordered ?_ (Word.isNumbered_numbered _ _) fun _ e => nomatch e
    refine ⟨Word.plain_numbered hplain _, hname,
      .inl ⟨_, Nat.lt_succ_self _, Word.isNumbered_numbered _ _⟩, fun _ e => (nomatch e),
      fun _ e => (nomatch e), ?_⟩
    rintro c ⟨⟩
    exact hinfo _
  refine .enterNew (g := fun id t => t.insert id) h₁ fitting
    ⟨fun e => (nomatch e), fun e => (nomatch e)⟩
    (fun t' => entered_new h₁.stable.ordered fitting fun e => nomatch e) ?_
  intro id s₂ h₂ _ _ hsort _ hoperands₂
  refine Does.bind (Does.changeTable h₂ (ordered_registerType h₂.stable.ordered hsort)
    (extends_registerType _ id) (sameScopes_registerType _ id)
    (scoped_registerType h₂.sees h₂.stable.ordered id)) ?_
  rintro known₃ _ s₃ - h₃ ⟨htable₃, -, hoperands₃⟩
  refine .pure h₃ ⟨hoperands₃.trans (hoperands₂.trans hoperands₁), ?_⟩
  have hlt : id < s₂.table.symbols.size :=
    lt_size_of_sort_ne (by rw [hsort]; exact fun e => nomatch e)
  rw [htable₃, (extends_registerType s₂.table id).sort id hlt, hsort]
  rfl

theorem Does.declareClass (hname : name.Spelled) (h : Ready Γ known s) :
    Does Γ known s (Lower.declareClass name) Whatever := by
  unfold Lower.declareClass
  refine .marksOf fun marks => ?_
  refine Does.bind (Does.newClass hname (classOk_empty true) h) ?_
  intro known₁ id s₁ _ h₁ _
  exact (Does.noteDeclared h₁).whatever

/-- A change of a class that leaves its constructors and its base as they are. -/
theorem Does.modifyClass {id : SymbolId} (h : Ready Γ known s)
    (hf : ∀ c, (f c).constructors = c.constructors ∧ (f c).base = c.base) :
    Does Γ known s (Lower.changeTable (·.modify id (Symbol.mapClass f))) fun _ _ s' =>
      s'.operands = s.operands := by
  have mild : ∀ sym, Mild s.supply.rids s.table sym (sym.mapClass f) := by
    refine mild_mapClass fun c hc => ⟨?_, ?_⟩
    · rw [(hf c).1]
      exact hc.constructors
    · rw [(hf c).2]
      exact hc.base
  exact (Does.modify h mild).weaken fun _ _ _ hd => hd.2.2

theorem Does.openClass (hname : name.Spelled) (h : Ready Γ known s) :
    Does Γ known s (Lower.openClass name) fun _ id s' =>
      s'.operands = s.operands ∧ (s'.table.get id).sort = .cls := by
  unfold Lower.openClass
  refine .ask ?_
  generalize (if s.session.symbols.contains name.name then
    s.session.symbols.find? name.name else none) = found
  cases found with
  | none => exact Does.newClass hname (classOk_empty false) h
  | some old =>
    dsimp only
    cases hc : (s.table.get old).class?.filter (·.declared) with
    | none => exact .fail
    | some c =>
      have hsort : (s.table.get old).sort = .cls :=
        Symbol.sort_of_class (Option.filter_eq_some_iff.mp hc).1
      have hlt : old < s.table.symbols.size :=
        lt_size_of_sort_ne (by rw [hsort]; exact fun e => nomatch e)
      refine Does.bind (Does.modifyClass h fun _ => ⟨rfl, rfl⟩) ?_
      intro known₁ _ s₁ hg₁ h₁ hoperands
      exact .pure h₁ ⟨hoperands, by rw [hg₁.table.sort old hlt, hsort]⟩

theorem Does.setBase (h : Ready Γ known s) :
    Does Γ known s (Lower.setBase cls type) fun _ _ s' => s'.operands = s.operands := by
  unfold Lower.setBase
  refine .unless fun _ => .ask (.ofExcept fun base hbase => .unless fun _ => ?_)
  exact Does.tryTable h fun t ht =>
    ordered_setBase h.stable.ordered (sort_of_classOf h.stable.ordered hbase) ht

/-- A class is given the permission of its marks. -/
theorem Does.permit {marks : Marks} {known' : Set String} {s' : Lowering}
    (hg : Grows known s known' s') (h' : Ready Γ known' s') (hoperands : s'.operands = s.operands)
    (hsort : (s.table.get cls).sort = .cls) : Does Γ known' s' (do
        if let some p := marks.permission? then
          Lower.changeTable (·.modify cls (Symbol.mapClass fun c =>
            { c with defaultPermission := p }))
        return cls) fun _ id t => t.operands = s.operands ∧ (t.table.get id).sort = .cls := by
  have hlt : cls < s.table.symbols.size :=
    lt_size_of_sort_ne (by rw [hsort]; exact fun e => by cases e)
  cases marks.permission? with
  | none =>
    refine .pure h' ⟨hoperands, ?_⟩
    rw [hg.table.sort cls hlt, hsort]
  | some p =>
    refine .bind (.modifyClass h' fun _ => ⟨rfl, rfl⟩) ?_
    intro known'' _ s'' hg' h'' hoperands'
    refine .pure h'' ⟨hoperands'.trans hoperands, ?_⟩
    rw [(hg.trans hg').table.sort cls hlt, hsort]

theorem Does.classHead (hname : name.Spelled) (h : Ready Γ known s) :
    Does Γ known s (Lower.classHead name) fun _ id s' =>
      s'.operands = s.operands ∧ (s'.table.get id).sort = .cls := by
  unfold Lower.classHead
  refine .marksOf fun marks => ?_
  refine Does.bind (Does.openClass hname h) ?_
  rintro known₁ cls s₁ - h₁ ⟨hoperands₁, hsort⟩
  rw [← hoperands₁]
  refine .ite (fun _ => ?_) fun _ => ?_
  · refine Does.bind (Does.setBase h₁) ?_
    intro known₂ _ s₂ hg₂ h₂ hoperands₂
    exact .permit hg₂ h₂ hoperands₂ hsort
  · exact Does.permit (.refl _ _) h₁ rfl hsort

/-! ## Members -/

theorem Does.collectField {init : Option Node} (hname : name.Spelled)
    (hinit : ∀ n, init = some n → n.WellRead) (h : Ready Γ known s) :
    Does Γ known s (Lower.collectField cls name init) fun _ _ s' => s'.operands = s.operands := by
  unfold Lower.collectField
  refine .marksOf fun marks => .unless fun _ => ?_
  refine .freshRid h fun s₁ h₁ htable hrids hoperands₁ => .ask ?_
  refine .newSymbol h₁ ?_ fun s₂ h₂ _ _ hoperands₂ => ?_
  · rw [hrids, htable]
    exact fitting_variable h.stable.ordered hname rfl hinit
  · exact (Does.tryTable h₂ fun t ht => ordered_addMember h₂.stable.ordered ht).weaken
      fun _ _ _ he => he.trans (hoperands₂.trans hoperands₁)

theorem Run.checkOverwrite {sym : Symbol} {info : FunctionInfo} {f : Unit → Lower β}
    {Q : Set String → β → Lowering → Prop} (hf : Run Γ own known s (f ()) Q) :
    Run Γ own known s (Lower.checkOverwrite cls sym info >>= f) Q := by
  unfold Lower.checkOverwrite
  rw [Lower.bind_assoc]
  refine .ask ?_
  dsimp only
  split
  · exact .failBind
  · exact .failBind
  · exact hf

theorem Does.collectMethod {body : Option Block} (hname : name.Spelled) (hparams : ∀ p ∈ params, p.name.Spelled)
    (hbody : ∀ b, body = some b → ∀ n ∈ b.items, n.WellRead) (h : Ready Γ known s) :
    Does Γ known s (Lower.collectMethod cls name params labels body) fun _ found s' =>
      s'.operands = s.operands ∧ BodiesOk found := by
  unfold Lower.collectMethod
  refine .bind (.functionHead hname hparams h) ?_
  rintro known₁ ⟨sym, info, marks⟩ s₁ - h₁ ⟨hoperands₁, hhead⟩
  refine .ask (.checkOverwrite (.ask ?_))
  -- what the marks say about a method leaves its parameters alone
  generalize hinfo : ({ info with
    static := marks.isStatic
    overwrite := marks.has Role.overwrite.text
    virtual := marks.has Role.virtual.text || marks.has Role.interface.text
    permission := marks.permissionOr _
    declared := body.isNone } : FunctionInfo) = marked
  have same : marked.params = info.params := by rw [← hinfo]
  have made : ∀ known' s' id, Ready Γ known' s' → s'.operands = s₁.operands →
      Does Γ known' s'
        (do
          Lower.tryTable (·.addMember cls id marked.static)
          return (body.map fun b => (id, b)).toList)
        fun _ found s' => s'.operands = s.operands ∧ BodiesOk found := by
    intro known' s' id h' hoperands
    refine .bind (.tryTable h' fun t ht => ordered_addMember h'.stable.ordered ht) ?_
    intro known'' _ s'' _ h'' hoperands'
    refine .pure h'' ⟨hoperands'.trans (hoperands.trans hoperands₁), ?_⟩
    rintro ⟨other, b⟩ hb
    obtain ⟨b', hb', ⟨⟩⟩ := Option.map_eq_some_iff.mp (Option.mem_toList.mp hb)
    exact hbody b hb'
  split
  · rename_i old b hold
    refine Does.bind (Does.fulfil h₁ (by rw [same]; exact hhead.params)) ?_
    intro known₂ _ s₂ _ h₂ hoperands₂
    refine .pure h₂ ⟨hoperands₂.trans hoperands₁, ?_⟩
    intro other hother
    rw [List.mem_singleton.mp hother]
    exact hbody b rfl
  · refine .newSymbol h₁ (hhead.fitting marked same) fun s₂ h₂ _ _ hoperands₂ => ?_
    refine .ite (fun _ => ?_) fun _ => made known₁ s₂ _ h₂ hoperands₂
    refine Does.bind (Does.noteDeclared h₂) ?_
    intro known₃ _ s₃ _ h₃ hoperands₃
    exact made known₃ s₃ _ h₃ (hoperands₃.trans hoperands₂)

theorem Does.newConstructor {params : List Parameter} {permission : Permission} (h : Ready Γ known s)
    (hparams : ∀ p ∈ params, ParameterOk s.supply.rids s.table p) :
    Does Γ known s (Lower.newConstructor cls pos params permission) fun _ _ s' =>
      s'.operands = s.operands := by
  unfold Lower.newConstructor
  refine .freshFunctionRid h (by decide) fun rid s₁ h₁ htable hrids hoperands₁ hrid => ?_
  refine .ask (.newSymbol h₁ ?_ fun s₂ h₂ htable₂ _ hoperands₂ => ?_)
  · rw [hrids, htable]
    exact fitting_function h.stable.ordered (by decide) hrid hparams
  · generalize hid : (s₁.table.add _).1 = id
    have sort : (s₂.table.get id).sort = .function := by
      rw [htable₂, ← hid, get_add_new]
      rfl
    have mild : ∀ sym, Mild s₂.supply.rids s₂.table sym (sym.mapClass fun c =>
        { c with constructors := c.constructors ++ [id] }) := by
      refine mild_mapClass fun c hc => ⟨fun other hother => ?_, hc.base⟩
      rcases List.mem_append.mp hother with hother | hother
      · exact hc.constructors other hother
      · rw [List.mem_singleton.mp hother]
        exact sort
    refine Does.bind (Does.modify h₂ mild) ?_
    rintro known₃ _ s₃ - h₃ ⟨-, -, hoperands₃⟩
    exact .pure h₃ (hoperands₃.trans (hoperands₂.trans hoperands₁))

theorem Does.collectConstructor (hparams : ∀ p ∈ params, p.name.Spelled) (h : Ready Γ known s) :
    Does Γ known s (Lower.collectConstructor cls name params labels) fun _ _ s' =>
      s'.operands = s.operands := by
  unfold Lower.collectConstructor
  refine .ask (.marksOf fun marks => ?_)
  refine Does.bind (Does.parameters hparams h) ?_
  rintro known₁ ps s₁ - h₁ ⟨-, hoperands₁, -, hps⟩
  refine .ask ?_
  exact (Does.newConstructor h₁ hps).weaken fun _ _ _ he => he.trans hoperands₁

theorem Does.collectMember {item : Node} (hitem : item.WellRead) (hfound : MembersOk found) (h : Ready Γ known s) :
    Does Γ known s (Lower.collectMember cls found item) fun _ found' s' =>
      s'.operands = s.operands ∧ MembersOk found' := by
  unfold Lower.collectMember
  split
  · rename_i token names values
    refine .bind (.forEach h fun b hb known' s' _ h' => ?_) ?_
    · obtain ⟨name, init⟩ := b
      have hmem := List.of_mem_zip hb
      refine .collectField (hitem.name hmem.1) ?_ h'
      rintro n rfl
      exact hitem.child (List.mem_filterMap.mpr ⟨some n, hmem.2, rfl⟩)
    · intro known₁ _ s₁ _ h₁ hoperands
      exact .pure h₁ ⟨hoperands, hfound⟩
  · rename_i token name params labels body arrow
    refine .bind (.collectMethod (hitem.name List.mem_cons_self) (fun p hp => ?_) ?_ h) ?_
    · exact hitem.name (List.mem_cons_of_mem _ (List.mem_map_of_mem hp))
    · rintro b ⟨⟩ n hn
      exact hitem.child hn
    · rintro known₁ new s₁ - h₁ ⟨hoperands, hnew⟩
      exact .pure h₁ ⟨hoperands, hfound.constructors, hfound.methods.append hnew⟩
  · rename_i token name params labels
    refine .bind (.collectMethod (hitem.name List.mem_cons_self) (fun p hp => ?_) ?_ h) ?_
    · exact hitem.name (List.mem_cons_of_mem _ (List.mem_map_of_mem hp))
    · exact fun _ e => nomatch e
    · rintro known₁ new s₁ - h₁ ⟨hoperands, -⟩
      exact .pure h₁ ⟨hoperands, hfound⟩
  · rename_i token name params labels body
    refine .bind (.collectConstructor (fun p hp => ?_) h) ?_
    · exact hitem.name (List.mem_cons_of_mem _ (List.mem_map_of_mem hp))
    · intro known₁ id s₁ _ h₁ hoperands
      refine .pure h₁ ⟨hoperands, hfound.constructors.append ?_, hfound.methods⟩
      exact bodiesOk_single fun n hn => hitem.child hn
  · exact .pure h ⟨rfl, hfound⟩
  · exact .fail

theorem Does.collectMembers : ∀ {items : List Node} {found : Lower.Members} {known : Set String} {s : Lowering},
      (∀ n ∈ items, n.WellRead) → MembersOk found → Ready Γ known s →
      Does Γ known s (Lower.collectMembers cls found items) fun _ found' s' =>
        s'.operands = s.operands ∧ MembersOk found' := by
  intro items
  induction items with
  | nil =>
    intro found known s _ hfound h
    exact .pure h ⟨rfl, hfound⟩
  | cons item items ih =>
    intro found known s hitems hfound h
    refine .bind (.collectMember (hitems item List.mem_cons_self) hfound h) ?_
    rintro known₁ found₁ s₁ - h₁ ⟨hoperands₁, hfound₁⟩
    refine (ih (fun n hn => hitems n (List.mem_cons_of_mem _ hn)) hfound₁ h₁).weaken ?_
    exact fun _ _ _ hd => ⟨hd.1.trans hoperands₁, hd.2⟩

theorem Does.completeMembers (hfound : MembersOk found) (h : Ready Γ known s) :
    Does Γ known s (Lower.completeMembers cls found) fun _ found' s' =>
      s'.operands = s.operands ∧ MembersOk found' := by
  unfold Lower.completeMembers
  refine Run.ask (Run.ask (Run.ite (fun _ => ?_) fun _ => Does.pure h ⟨rfl, hfound⟩))
  refine Does.bind (Does.newConstructor h fun _ hp => nomatch hp) ?_
  intro known₁ id s₁ _ h₁ hoperands
  refine .pure h₁ ⟨hoperands, hfound.constructors.append ?_, hfound.methods⟩
  exact bodiesOk_single fun _ hn => nomatch hn

/-! ## The code of a class -/

section
variable (hv : VisitOk visit)
include hv

theorem Does.initField {object : String} (h : Ready Γ known s) (ho : Usable known s.table object) :
    Does Γ known s (Lower.initField visit object field) fun _ _ s' =>
      s'.operands = s.operands := by
  unfold Lower.initField
  refine .ask ?_
  dsimp only
  cases hinit : (((s.table.get field).var?).getD {}).init with
  | none => exact Does.pure h rfl
  | some node =>
    refine Does.bind (hv.eval (wellRead_of_init h.stable.ordered hinit) h) ?_
    rintro known₁ o s₁ hg₁ h₁ ⟨hvalue, hoperands₁⟩
    refine Run.ask (Run.unless fun _ => ?_)
    refine Does.bind (Does.emitField h₁ (.inl ⟨rfl, _, rfl⟩) (ho.grows hg₁) ?_ (by simpa using hvalue.raw)) ?_
    · exact .inl (h.stable.ordered.rid_plain field)
    · rintro known₂ _ s₂ - h₂ ⟨-, hoperands₂⟩
      have mild : ∀ sym, Mild s₂.supply.rids s₂.table sym (sym.mapVariable fun v =>
          if v.type.isAny && v.value.isMissing then { v with value := o.effective } else v) := by
        refine mild_mapVariable fun v => ?_
        split <;> rfl
      exact (Does.modify h₂ mild).weaken fun _ _ _ hd =>
        hd.2.2.trans (hoperands₂.trans hoperands₁)

/-- In a constructor the object is at hand. -/
theorem Does.initInstance (h : Ready Γ known s) :
    Does Γ known s (Lower.initInstance visit cls) fun _ _ s' => s'.operands = s.operands := by
  unfold Lower.initInstance
  refine .thisRid h fun object hobject => .ask ?_
  refine Does.forEach h fun c _ known₁ s₁ hg₁ h₁ => ?_
  refine .forEach h₁ fun field _ known₂ s₂ hg₂ h₂ => ?_
  exact .initField hv h₂ (hobject.grows (hg₁.trans hg₂))

theorem Does.emitClass (hwithin : Lower.Within levels visit items) (hitems : ItemsOk items)
    (hfound : MembersOk found) (h : Ready Γ known s) (hcls : (s.table.get cls).sort = .cls) :
    Does Γ known s (Lower.emitClass visit items cls found)
      fun _ _ s' => s'.operands = s.operands := by
  unfold Lower.emitClass
  refine .ask ?_
  have hrid : Usable known s.table (s.table.get cls).rid :=
    usable_of_sort_ne h.stable.ordered (by rw [hcls]; exact fun e => nomatch e)
  have hfield : ∀ f, Word.Clean (s.table.get f).rid := fun f =>
    .inl (h.stable.ordered.rid_plain f)
  refine Does.bind (Does.emitOn h rfl ?_) ?_
  · intro w hw
    rcases List.mem_cons.mp hw with rfl | hw
    · exact hrid
    · obtain ⟨base, hb, rfl⟩ := Option.map_eq_some_iff.mp (Option.mem_toList.mp hw)
      exact usable_of_base h.stable.ordered hb
  rintro known₁ _ s₁ hg₁ h₁ ⟨-, hoperands₁⟩
  refine .bind (.forEach h₁ fun f _ known' s' hg h' => ?_) ?_
  · refine (Does.emitField h' (.inr ⟨.inl rfl, rfl⟩) (hrid.grows (hg₁.trans hg)) (hfield f)
      (by simp)).weaken fun _ _ _ hd => hd.2
  intro known₂ _ s₂ hg₂ h₂ hoperands₂
  have hg₂ := hg₁.trans hg₂
  refine .bind (.forEach h₂ fun f _ known' s' hg h' => ?_) ?_
  · refine (Does.emitField h' (.inr ⟨.inr rfl, rfl⟩) (hrid.grows (hg₂.trans hg)) (hfield f)
      (by simp)).weaken fun _ _ _ hd => hd.2
  intro known₃ _ s₃ hg₃ h₃ hoperands₃
  have hg₃ := hg₂.trans hg₃
  refine .bind (.forEach h₃ fun f _ known' s' hg h' =>
    .initField hv h' (hrid.grows (hg₃.trans hg))) ?_
  intro known₄ _ s₄ _ h₄ hoperands₄
  refine .bind (.forEach h₄ fun b hb known' s' _ h' => ?_) ?_
  · exact .functionBody hwithin hitems (hfound.constructors b hb) (.fields cls) (fun _ _ => hwithin.prelude)
      (.initInstance hv) h'
  intro known₅ _ s₅ _ h₅ hoperands₅
  refine (Does.forEach h₅ fun b hb known' s' _ h' => ?_).weaken fun _ _ _ he => ?_
  · exact .functionBody hwithin hitems (hfound.methods b hb) .nothing (fun _ _ h => h) preludeOk_pure h'
  · rw [he, hoperands₅, hoperands₄, hoperands₃, hoperands₂, hoperands₁]

theorem Does.defineClass {body : Block} (hwithin : Lower.Within levels visit items) (hitems : ItemsOk items)
    (hname : name.Spelled) (hbody : ∀ n ∈ body.items, n.WellRead) (h : Ready Γ known s) :
    Does Γ known s (Lower.defineClass visit items name body) Whatever := by
  unfold Lower.defineClass
  refine .bind (.classHead hname h) ?_
  rintro known₁ cls s₁ - h₁ ⟨-, hsort⟩
  have hlt : cls < s₁.table.symbols.size :=
    lt_size_of_sort_ne (by rw [hsort]; exact fun e => nomatch e)
  have inside : ∀ t, Ready Γ known₁ t → Extends s₁.table t.table → Does Γ known₁ t
      (do
        let found ← Lower.completeMembers cls (← Lower.collectMembers cls {} body.items)
        Lower.changeTable (·.modify cls (Symbol.mapClass fun c => { c with finished := true }))
        Lower.emitClass visit items cls found)
      Whatever := by
    intro t ht hext
    refine .bind (.collectMembers hbody ⟨fun _ hb => (nomatch hb), fun _ hb => (nomatch hb)⟩ ht) ?_
    rintro known₂ found s₂ hg₂ h₂ ⟨-, hfound⟩
    refine .bind (.completeMembers hfound h₂) ?_
    rintro known₃ found' s₃ hg₃ h₃ ⟨-, hfound'⟩
    refine .bind (.modifyClass h₃ fun _ => ⟨rfl, rfl⟩) ?_
    intro known₄ _ s₄ hg₄ h₄ _
    refine (Does.emitClass hv hwithin hitems hfound' h₄ ?_).whatever
    have whole := hext.trans ((hg₂.trans hg₃).trans hg₄).table
    rw [whole.sort cls hlt, hsort]
  have scope : ScopeKind.cls ≠ .function := fun e => nomatch e
  refine (Does.inScope (Q := fun _ => True) h₁ scope fun t ht htable _ => ?_).whatever
  refine .inside (Q := fun known' _ table _ => Scoped Γ known' table ∧ True) fun u hu _ => ?_
  refine inside u (ht.agree hu) ?_
  rw [hu.table, htable]
  exact .of_eq rfl rfl

end

end Frontend
