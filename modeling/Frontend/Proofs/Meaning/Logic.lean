import Frontend.Proofs.Meaning.Names

/-!
# What steps of lowering write

`Emits` is the judgement that a step, whenever it succeeds, has written instructions that have a
property together with its result and the state afterwards. Steps one after another write one passage
behind the other.
-/

namespace Frontend.Meaning

open SymbolTable

variable {s s' s'' : Lowering} {α β : Type}
variable {p : Lower α} {Q : List Instruction → β → Lowering → Prop} {f : α → Lower β}
  {d : Diagnostic}
variable {R : List Instruction → α → Lowering → Prop} {a : α} {op : Opcode} {args : List String}

/-- Whenever the step succeeds, it has written code, and the instructions of it have a property. -/
def Emits (s : Lowering) {α : Type} (p : Lower α)
    (Q : List Instruction → α → Lowering → Prop) : Prop :=
  ∀ a s', p s = (.ok a, s') → ∃ code : Code, s'.out = s.out.append code ∧ Q code.instructions a s'

theorem Emits.weaken {Q : List Instruction → α → Lowering → Prop} (h : Emits s p R)
    (hi : ∀ c a s', R c a s' → Q c a s') : Emits s p Q := by
  intro a s' hs
  obtain ⟨code, hout, hR⟩ := h a s' hs
  exact ⟨code, hout, hi _ a s' hR⟩

/-! ## Steps one after another -/

theorem Emits.bind (hp : Emits s p R) (hf : ∀ c a s', R c a s' → Emits s' (f a) fun d b s'' => Q (c ++ d) b s'') :
    Emits s (p >>= f) Q := by
  intro b s'' h
  obtain ⟨a, s', heq, h⟩ := Lower.bind_eq_ok.mp h
  obtain ⟨code, hout, hR⟩ := hp a s' heq
  obtain ⟨more, hout', hQ⟩ := hf _ a s' hR b s'' h
  refine ⟨code ++ more, by rw [hout', hout, CodeBuffer.append_append], ?_⟩
  rw [Code.instructions_append]
  exact hQ

theorem Emits.pure {Q : List Instruction → α → Lowering → Prop} (hQ : Q [] a s) : Emits s (pure a) Q := by
  rintro b s' ⟨⟩
  exact ⟨[], rfl, hQ⟩

theorem Emits.fail {Q : List Instruction → α → Lowering → Prop} : Emits s (Lower.fail d) Q := by
  rintro a s' ⟨⟩

theorem Emits.failBind : Emits s (Lower.fail d >>= f) Q := by
  rintro a s' ⟨⟩

/-- Something is refused, and otherwise lowering goes on. -/
theorem Emits.unless {c : Prop} [Decidable c] {q : Lower β} (hq : ¬ c → Emits s q Q) :
    Emits s (if c then Lower.fail d >>= f else q) Q := by
  by_cases h : c
  · rw [if_pos h]
    exact .failBind
  · rw [if_neg h]
    exact hq h

theorem Emits.ofExcept {e : Except Diagnostic α} (h : ∀ a, e = .ok a → Emits s (f a) Q) :
    Emits s (Lower.ofExcept e >>= f) Q := by
  cases e with
  | error d => exact .failBind
  | ok a => exact h a rfl

theorem Emits.refuse {o : Option Diagnostic} {f : Unit → Lower β} (h : Emits s (f ()) Q) :
    Emits s (Lower.refuse o >>= f) Q := by
  cases o with
  | some d => exact .failBind
  | none => exact h

/-- A step that writes nothing and goes to a known state. -/
theorem Emits.quiet (hp : p s = (.ok a, s')) (hout : s'.out = s.out) (hf : Emits s' (f a) Q) :
    Emits s (p >>= f) Q := by
  intro b s'' h
  obtain ⟨code, hout', hQ⟩ := hf b s'' (Lower.bind_of_ok hp f ▸ h)
  exact ⟨code, by rw [hout', hout], hQ⟩

/-! ## Single steps -/

/-- Nothing has changed that the meaning of names depends on. -/
structure Keeps (s s' : Lowering) : Prop where
  table : s'.table = s.table
  rids : s'.supply.rids = s.supply.rids
  processing : s'.processing = s.processing

theorem Keeps.refl (s : Lowering) : Keeps s s := ⟨rfl, rfl, rfl⟩

theorem Keeps.trans (h : Keeps s s') (h' : Keeps s' s'') : Keeps s s'' :=
  ⟨h'.table.trans h.table, h'.rids.trans h.rids, h'.processing.trans h.processing⟩

theorem Follows.keeps {c : Scoping} {round : Option String} (h : Follows c round s)
    (hk : Keeps s s') : Follows c round s' := by
  have he : Extends s.table s'.table := by
    rw [hk.table]
    exact .refl _
  exact h.of_extends he (by rw [hk.table]) (by rw [hk.table]) hk.rids hk.processing

theorem Emits.freshTemp {f : String → Lower β}
    (h : ∀ s', Keeps s s' → s'.operands = s.operands → s'.supply.temps = s.supply.temps + 1 →
      Emits s' (f (Word.temp s.supply.temps)) Q) : Emits s (Lower.freshTemp >>= f) Q :=
  .quiet rfl rfl (h _ ⟨rfl, rfl, rfl⟩ rfl rfl)

theorem Emits.freshLabel {f : String → Lower β}
    (h : ∀ l s', Keeps s s' → s'.operands = s.operands → Emits s' (f l) Q) : Emits s (Lower.freshLabel >>= f) Q :=
  .quiet rfl rfl (h _ _ ⟨rfl, rfl, rfl⟩ rfl)

theorem Emits.emit {Q : List Instruction → Unit → Lowering → Prop}
    (h : ∀ s', Keeps s s' → s'.operands = s.operands → s'.supply = s.supply →
      Q [⟨op, args⟩] () s') : Emits s (Lower.emit op args) Q := by
  rintro a s' ⟨⟩
  exact ⟨[.instr ⟨op, args⟩], rfl, h _ ⟨rfl, rfl, rfl⟩ rfl rfl⟩

theorem Emits.emitBind {f : Unit → Lower β}
    (h : ∀ s', Keeps s s' → s'.operands = s.operands → s'.supply = s.supply →
      Emits s' (f ()) fun c b s'' => Q (⟨op, args⟩ :: c) b s'') : Emits s (Lower.emit op args >>= f) Q := by
  refine .bind (R := fun c _ s' => c = [⟨op, args⟩] ∧ Keeps s s' ∧
    s'.operands = s.operands ∧ s'.supply = s.supply)
    (.emit fun s' hk hops hsupply => ⟨rfl, hk, hops, hsupply⟩) ?_
  rintro c a s' ⟨rfl, hk, hops, hsupply⟩
  exact h s' hk hops hsupply

/-- The last step of an expression is its operand. -/
theorem Emits.push {o : Operand} {Q : List Instruction → Unit → Lowering → Prop}
    (h : ∀ s', Keeps s s' → s'.operands = o :: s.operands → s'.supply = s.supply → Q [] () s') :
    Emits s (Lower.push o) Q := by
  rintro a s' ⟨⟩
  exact ⟨[], rfl, h _ ⟨rfl, rfl, rfl⟩ rfl rfl⟩

/-! ## The symbol table -/

theorem Emits.freshRid {name : String} {f : String → Lower β}
    (h : ∀ s', s'.table = s.table → s'.supply.rids = s.supply.rids + 1 →
      s'.supply.temps = s.supply.temps → s'.processing = s.processing →
      s'.operands = s.operands → Emits s' (f (Word.numbered name s.supply.rids)) Q) :
    Emits s (Lower.freshRid name >>= f) Q :=
  .quiet rfl rfl (h _ rfl rfl rfl rfl rfl)

theorem Emits.newSymbol {sym : Symbol} {f : SymbolId → Lower β}
    (h : ∀ s', s'.table = (s.table.add sym).2 → s'.supply = s.supply →
      s'.processing = s.processing → s'.operands = s.operands →
      Emits s' (f (s.table.add sym).1) Q) : Emits s (Lower.newSymbol sym >>= f) Q :=
  .quiet rfl rfl (h _ rfl rfl rfl rfl)

/-- A change of the symbol table that may be refused. -/
theorem Emits.tryTable {g : SymbolTable → Except Diagnostic SymbolTable}
    {Q : List Instruction → Unit → Lowering → Prop} (h : ∀ s', g s.table = .ok s'.table → s'.supply = s.supply →
      s'.processing = s.processing → s'.operands = s.operands → Q [] () s') : Emits s (Lower.tryTable g) Q := by
  intro a s' hs
  change (Lower.ofExcept (g s.table) >>= _) s = _ at hs
  obtain ⟨t, s₁, ht, ⟨⟩⟩ := Lower.bind_eq_ok.mp hs
  obtain ⟨htable, rfl⟩ := Lower.ofExcept_eq_ok ht
  exact ⟨[], rfl, h _ htable rfl rfl rfl⟩

/-- A change of the symbol table. -/
theorem Emits.changeTable {g : SymbolTable → SymbolTable} {Q : List Instruction → Unit → Lowering → Prop}
    (h : ∀ s', s'.table = g s.table → s'.supply = s.supply → s'.processing = s.processing →
      s'.operands = s.operands → Q [] () s') : Emits s (Lower.changeTable g) Q := by
  rintro a s' ⟨⟩
  exact ⟨[], rfl, h _ rfl rfl rfl rfl⟩

/-! ## Steps around steps -/

/-- The operands that a step leaves are dropped. -/
theorem Emits.forEffect {p : Lower Unit} {Q : List Instruction → Unit → Lowering → Prop}
    (h : Emits s p fun c a s' => Q c a (Lower.truncate s.operands.length s')) : Emits s (Lower.forEffect p) Q := by
  intro a s' hs
  obtain ⟨after, hp, rfl⟩ := Lower.exists_of_ensuring hs
  exact h a after hp

/-- The value of a step that leaves one operand is that operand. -/
theorem Emits.forValue {p : Lower Unit} {Q : List Instruction → Operand → Lowering → Prop}
    (h : Emits s p fun c _ s' => ∃ o, s'.operands = o :: s.operands ∧ Q c o (Lower.truncate s.operands.length s')) :
    Emits s (Lower.forValue p (Lower.fail d)) Q := by
  intro o s' hs
  obtain ⟨after, rest, hp, hops, -, rfl⟩ := Lower.exists_of_forValue hs
  obtain ⟨code, hout, o', hops', hQ⟩ := h () after hp
  obtain ⟨rfl, -⟩ := List.cons.inj (hops.symm.trans hops')
  exact ⟨code, hout, hQ⟩

/-- A step in a scope of its own. -/
theorem Emits.inScope {kind : ScopeKind} {p : Lower Unit} {Q : List Instruction → Unit → Lowering → Prop} (h : Emits
      { s with
        session := { s.session with symbols := s.table.enter kind }
        scopes := kind :: s.scopes } p fun c a s' =>
      Q c a { s' with
        session := { s'.session with symbols := s'.table.leaveTo s.table.level }
        scopes := s'.scopes.drop (s'.scopes.length - s.scopes.length) }) : Emits s (Lower.inScope kind p) Q := by
  intro a s' hs
  obtain ⟨after, hq, rfl⟩ := Lower.exists_of_inScope hs
  exact h a after hq

end Frontend.Meaning
