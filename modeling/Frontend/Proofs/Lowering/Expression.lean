import Frontend.Proofs.Lowering.Nesting

/-!
# Expressions

What the lowering of operators, containers and literals does. A lowering of nodes is sound if it does
what a step may do wherever a well-read node stands; every construct is sound if the lowering of the
nodes inside of it is.
-/

namespace Frontend

open SymbolTable Region

variable {Γ : Surroundings} {known : Set String} {s : Lowering} {t : SymbolTable}
variable {n : Node} {w : String} {o : Operand} {id : SymbolId} {name : Ident}
variable {type : Tag} {word : String} {op : Opcode} {left subscript object : Node}

/-! ## Operands -/

theorem usable_of_numeral (h : Word.Numeral w) : Usable known t w :=
  usable_of_constant (.inl h.plain) h.constant

theorem usable_quote (text : String) : Usable known t (Text.quote text) :=
  usable_of_constant (Word.clean_quote text) (Word.constant_quote text)

/-- A word in which no raw id and no temporary can hide. -/
theorem usable_of_bare (hw : Word.Plain w) (hu : '_' ∉ w.toList) (hp : '%' ∉ w.toList) : Usable known t w :=
  usable_of_constant (.inl hw) (Word.constant_of_bare hu hp)

theorem usable_null : Usable known t Spelling.null :=
  usable_of_bare (by decide) (by decide) (by decide)

theorem usable_empty : Usable known t "" :=
  usable_of_bare (by decide) (by decide) (by decide)

theorem usable_emptyList : Usable known t Spelling.emptyList :=
  usable_of_bare (by decide) (by decide) (by decide)

theorem usable_emptyDict : Usable known t Spelling.emptyDict :=
  usable_of_bare (by decide) (by decide) (by decide)

/-- An operand that is no literal and comes from no object. -/
theorem operandOk_of_ident (h : Usable known t o.raw) (hk : o.kind = .ident)
    (hr : o.receiver = none) : OperandOk known t o := by
  refine ⟨h, ?_, ?_, ?_⟩
  · rw [hk]
    exact fun e => nomatch e
  · rw [hk]
    exact fun e => nomatch e
  · rw [hr]
    exact fun _ e => nomatch e

theorem operandOk_temp (h : Usable known t w) : OperandOk known t (.temp w type n) :=
  operandOk_of_ident h rfl rfl

theorem ofSymbol_shape (t : SymbolTable) (id : SymbolId) :
    (Operand.ofSymbol t id).raw = (t.get id).rid ∧ (Operand.ofSymbol t id).kind = .ident ∧
      (Operand.ofSymbol t id).receiver = none := by
  unfold Operand.ofSymbol
  cases hd : (t.get id).detail <;> simp only [hd, and_self]

theorem operandOk_ofSymbol (h : Usable known t (t.get id).rid) : OperandOk known t (.ofSymbol t id) := by
  obtain ⟨raw, kind, receiver⟩ := ofSymbol_shape t id
  exact operandOk_of_ident (by rw [raw]; exact h) kind receiver

theorem clean_relation (r : Relation) : Word.Clean r.name := by
  cases r <;> exact .inl (by decide)

theorem gives_arithmeticOpcode (h : Lower.arithmeticOpcode? word = some op) : gives op = true := by
  unfold Lower.arithmeticOpcode? at h
  split at h <;> first | (cases h; rfl) | cases h

/-- A literal; one of a numeric type is written like a number. -/
theorem operandOk_literal {type : TypeName} (h : Usable known t w)
    (hw : (Tag.ofType type).isNumeric = true → Word.Numeral w) : OperandOk known t (.literal w type n) := by
  have effective : (Operand.literal w type n).effective = .ofType type := by
    simp [Operand.effective, Operand.literal, Tag.isMissing]
  refine ⟨h, fun e => (by cases e), ?_, fun _ e => by cases e⟩
  rw [effective]
  exact fun _ => hw

theorem operandOk_null : OperandOk known t (.null n) :=
  operandOk_literal usable_null fun e => absurd e (by decide)

theorem operandOk_numeral {type : TypeName} (h : Word.Numeral w) : OperandOk known t (.literal w type n) :=
  operandOk_literal (usable_of_numeral h) fun _ => h

theorem operandOk_ofLiteral (h : Operand.ofLiteral? n = some o) : OperandOk known t o := by
  unfold Operand.ofLiteral? at h
  split at h
  · cases h
    exact operandOk_numeral (Word.numeral_ofInt _)
  · cases h
    exact operandOk_numeral (Word.numeral_ofDouble _)
  · cases h
    exact operandOk_literal (usable_quote _) fun e => absurd e (by decide)
  · rename_i v
    cases h
    refine operandOk_literal ?_ fun e => absurd e (by decide)
    cases v <;> exact usable_of_bare (by decide) (by decide) (by decide)
  · cases h
    exact operandOk_null
  · split at h
    · split at h
      · cases h
        exact operandOk_numeral (Word.numeral_ofInt _)
      · cases h
        exact operandOk_numeral (Word.numeral_ofDouble _)
      · cases h
    · cases h
  · cases h

/-- A class may be used everywhere. -/
theorem usable_of_class {n : Nat} (h : Ordered n t) (hc : (t.get id).class?.isSome = true) :
    Usable known t (t.get id).rid := by
  obtain ⟨c, hc⟩ := Option.isSome_iff_exists.mp hc
  refine usable_of_sort_ne h ?_
  rw [Symbol.sort_of_class hc]
  exact fun e => nomatch e

theorem class?_of_operand (h : o.class? t = some id) : (t.get id).class?.isSome = true := by
  unfold Operand.class? at h
  exact (Option.filter_eq_some_iff.mp h).2

theorem function?_of_operand (h : o.function? t = some id) : (t.get id).function?.isSome = true := by
  unfold Operand.function? at h
  exact (Option.filter_eq_some_iff.mp h).2

/-- What a member is taken from keeps being usable. -/
theorem OperandOk.withSurface (h : OperandOk known t o) (surface : Surface) :
    OperandOk known t { o with surface } :=
  ⟨h.raw, h.kind, h.numeral, h.receiver⟩

variable [Setting]

/-- A lowering that does what a step may do, for every well-read node. -/
def VisitOk (visit : Visit) : Prop :=
  ∀ {Γ : Surroundings} {known : Set String} {s : Lowering} {n : Node}, n.WellRead →
    Ready Γ known s → Does Γ known s (visit n) Whatever

theorem VisitOk.eval {visit : Visit} (hv : VisitOk visit) (hn : n.WellRead) (h : Ready Γ known s) :
    Does Γ known s (Lower.eval visit n) fun known' o s' =>
      OperandOk known' s'.table o ∧ s'.operands = s.operands :=
  .forValue (hv hn h)

theorem VisitOk.exec {visit : Visit} (hv : VisitOk visit) (hn : n.WellRead) (h : Ready Γ known s) :
    Does Γ known s (Lower.exec visit n) fun _ _ s' => s'.operands = s.operands :=
  Run.weaken (Run.forEffect (Q := fun known' _ t => Scoped Γ known' t ∧ True) (hv hn h))
    fun _ _ _ hp => ⟨hp.2.1, hp.1⟩

/-! ## Moving values -/

section
variable (h : Ready Γ known s)
include h

theorem Does.move {target : String} (ho : Usable known s.table o.raw) (ht : Usable known s.table target) :
    Does Γ known s (Lower.move o target) fun _ _ s' =>
      s'.table = s.table ∧ s'.operands = s.operands := by
  have moved : ∀ op, gives op = true → Does Γ known s (Lower.emit op [o.raw, target])
      fun _ _ s' => s'.table = s.table ∧ s'.operands = s.operands := by
    intro op hop
    refine (Does.emitTo [o.raw] h hop (by simpa using ho) (.inl ht)).weaken ?_
    exact fun _ _ _ hd => ⟨hd.1, hd.2.1⟩
  unfold Lower.move
  refine Run.ite (fun _ => Does.pure h ⟨rfl, rfl⟩) fun _ => ?_
  exact .ite (fun _ => moved .put rfl) fun _ => moved .copy rfl

theorem Does.materialize (ho : OperandOk known s.table o) :
    Does Γ known s (Lower.materialize o) fun known' o' s' =>
      OperandOk known' s'.table o' ∧ s'.operands = s.operands := by
  unfold Lower.materialize
  refine Run.ite (fun _ => ?_) fun _ => Does.pure h ⟨ho, rfl⟩
  refine .freshTemp h fun w s' hs' hg hoperands hw => ?_
  refine Does.bind (Does.emitTo [o.raw] hs' rfl ?_ (.inr hw)) ?_
  · simpa using ho.raw.grows hg
  · rintro known' _ s'' - hs'' ⟨-, hoperands', hu⟩
    exact .pure hs'' ⟨operandOk_of_ident hu rfl rfl, hoperands'.trans hoperands⟩

/-! ## Operators -/

theorem Does.negate (ho : OperandOk known s.table o) :
    Does Γ known s (Lower.negate o) fun known' w s' => Usable known' s'.table w := by
  unfold Lower.negate
  refine .ite (fun hc => ?_) fun _ => ?_
  · rw [Bool.and_eq_true] at hc
    have hw : Word.Numeral o.raw := ho.numeral (by simpa [Operand.isLiteral] using hc.1) hc.2
    exact Does.pure h (usable_of_numeral (Word.numeral_opposite hw))
  · refine .freshTemp h fun w s' hs' hg _ hw => ?_
    refine Does.bind (Does.emitTo [o.raw] hs' rfl ?_ (.inr hw)) ?_
    · simpa using ho.raw.grows hg
    · rintro known' _ s'' - hs'' ⟨-, -, hu⟩
      exact .pure hs'' hu

theorem Does.binary {op : Token} {left right : Operand} (hl : OperandOk known s.table left)
    (hr : OperandOk known s.table right) :
    Does Γ known s (Lower.binary op word left right n) fun known' o s' =>
      OperandOk known' s'.table o := by
  unfold Lower.binary
  cases hrel : (Operator.ofText? word).bind Relation.ofOperator? with
  | some relation =>
    refine .freshTemp h fun order s₁ h₁ hg₁ _ horder => ?_
    refine Does.bind (Does.emitTo [left.raw, right.raw] h₁ rfl ?_ (.inr horder)) ?_
    · simpa using ⟨hl.raw.grows hg₁, hr.raw.grows hg₁⟩
    rintro known' _ s₂ - h₂ ⟨-, -, hu⟩
    refine .freshTemp h₂ fun result s₃ h₃ hg₃ _ hresult => ?_
    refine Does.bind (Does.emitBy h₃ (.inl rfl) (hu.grows hg₃) (clean_relation relation) hresult) ?_
    rintro known'' _ s₄ - h₄ ⟨-, -, hu'⟩
    exact .pure h₄ (operandOk_temp hu')
  | none =>
    refine .ofExcept fun type _ => ?_
    have second : Does Γ known s
        (if word == "-" then Lower.negate right else Pure.pure right.raw)
        fun known' w s' => Usable known' s'.table w :=
      Run.ite (fun _ => Does.negate h hr) fun _ => Does.pure h hr.raw
    refine Run.iteBind (Does.bind second ?_)
    intro known' w s₁ hg h₁ hw
    refine Run.freshTemp h₁ fun result s₂ h₂ hg₂ _ hresult => ?_
    cases hop : Lower.arithmeticOpcode? word with
    | none => exact .fail
    | some code =>
      refine Does.bind (Does.emitTo [left.raw, w] h₂ (gives_arithmeticOpcode hop) ?_ (.inr hresult)) ?_
      · simpa using ⟨hl.raw.grows (hg.trans hg₂), hw.grows hg₂⟩
      rintro known'' _ s₃ - h₃ ⟨-, -, hu⟩
      exact .pure h₃ (operandOk_temp hu)

end

variable {visit : Visit}

/-- An instruction on one value, the result of which is pushed. -/
theorem Does.pushOf {x : String} (hop : gives op = true) (h : Ready Γ known s) (hx : Usable known s.table x) :
    Does Γ known s (do
        let result ← Lower.freshTemp
        Lower.emit op [x, result]
        Lower.push (.temp result type n)) Whatever := by
  refine .freshTemp h fun result s₁ h₁ hg _ hresult => ?_
  refine Does.bind (Does.emitTo [x] h₁ hop (by simpa using hx.grows hg) (.inr hresult)) ?_
  rintro known' _ s₂ - h₂ ⟨-, -, hu⟩
  exact (Does.push h₂ (operandOk_temp hu)).whatever

theorem Does.unary {op : Token} {operand : Node} (hv : VisitOk visit) (hn : operand.WellRead)
    (h : Ready Γ known s) : Does Γ known s (Lower.unary visit op operand n) Whatever := by
  unfold Lower.unary
  split
  · cases hlit : Operand.ofLiteral? n with
    | some o => exact (Does.push h (operandOk_ofLiteral hlit)).whatever
    | none =>
      refine .bind (hv.eval hn h) ?_
      rintro known' o s₁ - h₁ ⟨ho, -⟩
      exact Run.unless fun _ => Does.pushOf rfl h₁ ho.raw
  · refine .bind (hv.eval hn h) ?_
    rintro known' o s₁ - h₁ ⟨ho, -⟩
    exact .pushOf rfl h₁ ho.raw
  · exact .fail
  · exact .fail
  · exact .fail

/-! ## Containers -/

/-- A container in a temporary that something is put into piece by piece. -/
theorem Does.filled {α β : Type} {empty : String} {f : String → β → Lower Unit} {bs : List β}
    {p : String → Lower α} {Q : Set String → α → Lowering → Prop} (h : Ready Γ known s)
    (he : Usable known s.table empty)
    (hf : ∀ w, ∀ b ∈ bs, ∀ known' s', Grows known s known' s' → Ready Γ known' s' → Usable known' s'.table w →
      Does Γ known' s' (f w b) fun _ _ s'' => s''.operands = s'.operands)
    (hp : ∀ w known' s', Ready Γ known' s' → Usable known' s'.table w → Does Γ known' s' (p w) Q) : Does Γ known s
      (do
        let result ← Lower.freshTemp
        Lower.emit .put [empty, result]
        Lower.forAll (f result) bs
        p result) Q := by
  refine .freshTemp h fun w s₁ h₁ hg₁ _ hw => ?_
  refine Does.bind (Does.emitTo [empty] h₁ rfl (by simpa using he.grows hg₁) (.inr hw)) ?_
  rintro known₂ _ s₂ hg₂ h₂ ⟨-, -, hu⟩
  refine .bind (.forEach h₂ fun b hb known₃ s₃ hg₃ h₃ => ?_) ?_
  · exact hf w b hb known₃ s₃ ((hg₁.trans hg₂).trans hg₃) h₃ (hu.grows hg₃)
  · intro known₃ _ s₃ hg₃ h₃ _
    exact hp w known₃ s₃ h₃ (hu.grows hg₃)

section
variable (hv : VisitOk visit)
include hv

theorem Does.list {elements : List Node} (hn : ∀ e ∈ elements, e.WellRead) (h : Ready Γ known s) :
    Does Γ known s (Lower.list visit elements n) Whatever := by
  unfold Lower.list
  refine .filled (f := fun result element => do
    let o ← Lower.eval visit element
    Lower.emit .append [result, o.raw]) h usable_emptyList ?_ ?_
  · rintro w e he known' s' - hs' hw
    refine .bind (hv.eval (hn e he) hs') ?_
    rintro known'' o s'' hg hs'' ⟨ho, hoperands⟩
    refine (Does.emitOn hs'' rfl ?_).weaken fun _ _ _ hd => hd.2.trans hoperands
    simpa using ⟨hw.grows hg, ho.raw⟩
  · intro w known' s' hs' hw
    exact (Does.push hs' (operandOk_temp hw)).whatever

theorem Does.dict {pairs : List Node} (hn : ∀ p ∈ pairs, p.WellRead) (h : Ready Γ known s) :
    Does Γ known s (Lower.dict visit pairs n) Whatever := by
  unfold Lower.dict
  refine .filled h usable_emptyDict ?_ ?_
  · rintro w p hp known' s' - hs' hw
    have hread := hn p hp
    cases p
    case pair key colon value =>
      refine .bind (hv.eval (hread.child List.mem_cons_self) hs') ?_
      rintro known₁ k s₁ hg₁ h₁ ⟨hk, hoperands₁⟩
      refine .bind (hv.eval (hread.child (List.mem_cons_of_mem _ List.mem_cons_self)) h₁) ?_
      rintro known₂ v s₂ hg₂ h₂ ⟨hval, hoperands₂⟩
      refine (Does.emitOn h₂ rfl ?_).weaken fun _ _ _ hd =>
        hd.2.trans (hoperands₂.trans hoperands₁)
      simpa using ⟨hw.grows (hg₁.trans hg₂), hk.raw.grows hg₂, hval.raw⟩
    all_goals exact .fail
  · intro w known' s' hs' hw
    exact (Does.push hs' (operandOk_temp hw)).whatever

section
variable (hl : left.WellRead) (hr : subscript.WellRead) (h : Ready Γ known s)
include hl hr h

theorem Does.indexed :
    Does Γ known s (Lower.indexed visit left subscript) fun known' p s' =>
      OperandOk known' s'.table p.1 ∧ OperandOk known' s'.table p.2 := by
  unfold Lower.indexed
  refine .bind (hv.eval hl h) ?_
  rintro known₁ container s₁ - h₁ ⟨hc, -⟩
  have checked : Does Γ known₁ s₁ (Lower.checkIndexable container left) fun known' _ s' =>
      OperandOk known' s'.table container :=
    Run.ite (fun _ => Does.pure h₁ hc) fun _ => Run.fail
  refine .bind checked ?_
  intro known₂ _ s₂ _ h₂ hc
  refine .bind (hv.eval hr h₂) ?_
  rintro known₃ key s₃ hg₃ h₃ ⟨hk, -⟩
  exact .pure h₃ ⟨hc.grows hg₃, hk⟩

theorem Does.index : Does Γ known s (Lower.index visit left subscript n) Whatever := by
  unfold Lower.index
  refine .bind (.indexed hv hl hr h) ?_
  rintro known₁ ⟨container, key⟩ s₁ - h₁ ⟨hc, hk⟩
  refine .freshTemp h₁ fun result s₂ h₂ hg₂ _ hresult => ?_
  refine Does.bind (Does.emitTo [container.raw, key.raw] h₂ rfl ?_ (.inr hresult)) ?_
  · simpa using ⟨hc.raw.grows hg₂, hk.raw.grows hg₂⟩
  · rintro known₃ _ s₃ - h₃ ⟨-, -, hu⟩
    exact (Does.push h₃ (operandOk_temp hu)).whatever

end

theorem Does.group {body : Option Node} (hn : ∀ m, body = some m → m.WellRead) (h : Ready Γ known s) :
    Does Γ known s (Lower.group visit body n) Whatever := by
  unfold Lower.group
  split
  · exact .fail
  · rename_i b
    have hread : ∀ m ∈ b.items, m.WellRead := fun m hm => (hn _ rfl).child hm
    cases hlast : b.items.getLast? with
    | none => exact .fail
    | some last =>
      refine .bind (.forEach h fun m hm known' s' _ hs' =>
        hv.exec (hread m (List.dropLast_subset _ hm)) hs') ?_
      intro known' _ s' _ hs' _
      exact hv (hread last (List.mem_of_getLast? hlast)) hs'
  · exact hv (hn _ rfl) h

/-! ## Names and members

What a name leads to may be used where it stands: it is a symbol in reach, or it is taken from the
object at hand or from a class. -/

theorem Does.resolveMember (hn : object.WellRead) (h : Ready Γ known s) :
    Does Γ known s (Lower.resolveMember visit object name) fun known' found s' =>
      OperandOk known' s'.table found.object := by
  unfold Lower.resolveMember
  refine .bind (hv.eval hn h) ?_
  rintro known₁ o s₁ - h₁ ⟨ho, -⟩
  refine .ask ?_
  cases hc : (if o.effective.isClass then none else o.class? s₁.table) with
  | some cls =>
    have hcls : (s₁.table.get cls).class?.isSome = true := by
      split at hc
      · cases hc
      · exact class?_of_operand hc
    simp only [hc]
    refine .query h₁.stable rfl (.ofExcept fun member _ => .unless fun _ => ?_)
    exact Does.pure h₁
      ((operandOk_ofSymbol (usable_of_class h₁.stable.ordered hcls)).withSurface _)
  | none =>
    simp only [hc]
    refine .unless fun _ => .ofExcept fun cls _ => ?_
    exact Run.query h₁.stable rfl (Run.ofExcept fun member _ => Does.pure h₁ ho)

end

/-- The value of a member. -/
theorem Does.readMember {found : Lower.Found} (h : Ready Γ known s) (hf : OperandOk known s.table found.object) :
    Does Γ known s (Lower.readMember found n) fun known' o? s' =>
      ∀ o, o? = some o → OperandOk known' s'.table o := by
  unfold Lower.readMember
  refine .ask ?_
  have hplain : Word.Clean (s.table.get found.member).rid :=
    .inl (h.stable.ordered.rid_plain _)
  cases hd : (s.table.get found.member).detail with
  | var v =>
    simp only [hd]
    refine .freshTemp h fun result s₁ h₁ hg₁ _ hresult => ?_
    refine Does.bind (Does.emitBy h₁ (.inr (.inr rfl)) (hf.raw.grows hg₁) hplain hresult) ?_
    rintro known₂ _ s₂ hg₂ h₂ ⟨-, -, hu⟩
    refine .pure h₂ ?_
    rintro o ⟨⟩
    refine ⟨hu, fun e => (nomatch e), fun e => (nomatch e), ?_⟩
    rintro r ⟨⟩
    exact hf.raw.grows (hg₁.trans hg₂)
  | function f =>
    simp only [hd]
    refine Does.pure h ?_
    rintro o ⟨⟩
    have hsort : (s.table.get found.member).sort ≠ .variable := by
      unfold Symbol.sort
      rw [hd]
      exact fun e => nomatch e
    have hok : OperandOk known s.table (.ofSymbol s.table found.member) :=
      operandOk_ofSymbol (usable_of_sort_ne h.stable.ordered hsort)
    refine ⟨hok.raw, hok.kind, hok.numeral, ?_⟩
    rintro r ⟨⟩
    exact hf.raw
  | parameter v k =>
    simp only [hd]
    exact Does.pure h fun _ e => nomatch e
  | cls c =>
    simp only [hd]
    exact Does.pure h fun _ e => nomatch e
  | target =>
    simp only [hd]
    exact Does.pure h fun _ e => nomatch e

theorem Does.member (hv : VisitOk visit) (hn : object.WellRead) (h : Ready Γ known s) :
    Does Γ known s (Lower.member visit object name n) Whatever := by
  unfold Lower.member
  refine .bind (.resolveMember hv hn h) ?_
  intro known₁ found s₁ _ h₁ hf
  refine .bind (.readMember h₁ hf) ?_
  intro known₂ o? s₂ _ h₂ ho
  cases o? with
  | none => exact .fail
  | some o => exact (Does.push h₂ ((ho o rfl).withSurface _)).whatever

/-- The member that a bare name means is taken from a class or from the object at hand. -/
theorem Does.implicitMember {name : String} (h : Ready Γ known s) :
    Does Γ known s (Lower.implicitMember name) fun known' found? s' =>
      s' = s ∧ ∀ found, found? = some found → OperandOk known' s'.table found.object := by
  unfold Lower.implicitMember
  refine .ask (.ask ?_)
  cases hc : s.processing.find? fun id => (s.session.symbols.get id).class?.isSome with
  | none => exact Does.pure h ⟨rfl, fun _ e => nomatch e⟩
  | some cls =>
    have hcls : (s.table.get cls).class?.isSome = true := by
      have found := List.find?_some hc
      exact found
    simp only
    cases hm : s.table.member? cls name with
    | none => exact Does.pure h ⟨rfl, fun _ e => nomatch e⟩
    | some member =>
      refine Run.ite (fun _ => Does.pure h ⟨rfl, ?_⟩) fun _ => Does.pure h ⟨rfl, ?_⟩
      · rintro found ⟨⟩
        exact operandOk_ofSymbol (usable_of_class h.stable.ordered hcls)
      · intro found hfound
        obtain ⟨this, hthis, rfl⟩ := Option.map_eq_some_iff.mp hfound
        exact operandOk_ofSymbol (usable_of_findInFunction h.stable.ordered h.sees hthis)

theorem Does.ident (h : Ready Γ known s) : Does Γ known s (Lower.ident name n) Whatever := by
  unfold Lower.ident
  refine .unless fun _ => .ask ?_
  cases hl : s.table.lookup name.name name.token.pos with
  | ok id =>
    have hok := operandOk_ofSymbol (usable_of_lookup h.stable.ordered h.sees hl)
    exact Run.unless fun _ => (Does.push h hok).whatever
  | error d =>
    refine Does.bind (Does.implicitMember h) ?_
    rintro known₁ found? s₁ - h₁ ⟨-, hf⟩
    cases found? with
    | none => exact .fail
    | some found =>
      refine .bind (.readMember h₁ (hf found rfl)) ?_
      intro known₂ o? s₂ _ h₂ ho
      cases o? with
      | none => exact .fail
      | some o => exact (Does.push h₂ (ho o rfl)).whatever

theorem Does.this {pos : Position} (h : Ready Γ known s) : Does Γ known s (Lower.this pos) Whatever := by
  unfold Lower.this
  refine .ask ?_
  cases hf : s.table.findInFunction? "this" with
  | none => exact .fail
  | some id =>
    have hok := operandOk_ofSymbol (usable_of_findInFunction h.stable.ordered h.sees hf)
    exact (Does.push h (hok.withSurface _)).whatever

end Frontend
