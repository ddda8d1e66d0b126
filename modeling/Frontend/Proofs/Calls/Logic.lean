import Frontend.Proofs.Binding.Exact
import Frontend.Proofs.Calls.Table

/-!
# Steps that keep calls and definitions together

A state of lowering is sound if every instruction it has written calls a function the way it is
defined, and if every operand that is the raw id of a function knows that function. It is settled if every
function of the source text is written or only declared; the functions that were made and are not yet
written are owed. `Keeps` is the judgement that a step goes from a given state to a sound one, owes no more
than before and gives a result with a property; `Tame` is the judgement that a step does so from every sound
state, which is all that can be said about most constructs. `Owes` follows the functions that are owed in
between.
-/

namespace Frontend

variable {b : CodeBuffer} {code : Code} {op : Opcode} {args : List String} {P : SymbolId → CallHead → Prop}
  {o : Operand} {declared : List SymbolId} {id : SymbolId} {d : Diagnostic} {c : Prop} {sym : Symbol}
  {kind : ScopeKind}
variable {item : CodeItem} {k : Nat} {pos : Position} {left subscript : Node} {i : Instruction} {labels : List Label}
  {what : String} {admitted : List String}

namespace CodeBuffer

def items (b : CodeBuffer) : List CodeItem := b.root ++ b.inner.flatten

/-- The items of all buffers after more was written. -/
theorem items_append (b : CodeBuffer) (code : Code) : (b.append code).items.Perm (code ++ b.items) := by
  rw [append_eq]
  unfold items
  have hreverse := List.reverse_perm code
  cases b.inner with
  | nil =>
    rw [List.flatten_nil, List.append_nil]
    simpa using hreverse.append_right b.root
  | cons top rest =>
    simp only [List.flatten_cons, List.append_assoc]
    refine (List.perm_append_comm_assoc ..).trans ?_
    exact hreverse.append_right _

theorem mem_items_append : item ∈ (b.append code).items ↔ item ∈ code ∨ item ∈ b.items :=
  (b.items_append code).mem_iff.trans List.mem_append

/-- An instruction is code of one item. -/
theorem emit_eq (b : CodeBuffer) (op : Opcode) (args : List String) :
    b.emit op args = b.append [.instr ⟨op, args⟩] := rfl

theorem mem_items_emit : item ∈ (b.emit op args).items ↔ item = .instr ⟨op, args⟩ ∨ item ∈ b.items := by
  rw [emit_eq, mem_items_append, List.mem_singleton]

@[simp] theorem depth_append (b : CodeBuffer) (code : Code) : (b.append code).depth = b.depth := by
  rw [append_eq]
  unfold depth
  cases b.inner <;> rfl

/-- Ending a passage splits off the code that was written since it was opened. -/
theorem leave?_eq {depth : Nat} (h : b.depth = depth + 1) :
    ∃ code b', b.leave? depth = some (code, b') ∧ b'.depth = depth ∧ b.items.Perm (code ++ b'.items) := by
  obtain ⟨annotate, root, inner⟩ := b
  cases inner with
  | nil => cases h
  | cons top rest =>
    have hrest : rest.length = depth := Nat.succ.inj h
    refine ⟨top.reverse, ⟨annotate, root, rest⟩, ?_, hrest, ?_⟩
    · simp [leave?, dropTo, exit?, CodeBuffer.depth, hrest]
    · unfold items
      rw [List.flatten_cons]
      exact (List.perm_append_comm_assoc ..).trans ((List.reverse_perm top).symm.append_right _)

end CodeBuffer

/-! ## Steps that compute -/

namespace Calls

theorem not_hasNumber_of_bare {w : String} (h : '_' ∉ w.toList) : ¬ Word.HasNumber w :=
  fun ⟨_, hn⟩ => h (Word.underscore_mem_of_isNumbered hn)

theorem not_hasNumber_null : ¬ Word.HasNumber Spelling.null := not_hasNumber_of_bare (by decide)

/-- A literal is not the raw id of anything. -/
theorem not_hasNumber_of_ofLiteral {n : Node} (h : Operand.ofLiteral? n = some o) : ¬ Word.HasNumber o.raw := by
  have number : ∀ {w : String}, Word.Numeral w → ¬ Word.HasNumber w :=
    fun hw => Word.not_hasNumber_of_constant hw.constant
  unfold Operand.ofLiteral? at h
  split at h
  · cases h
    exact number (Word.numeral_ofInt _)
  · cases h
    exact number (Word.numeral_ofDouble _)
  · cases h
    exact Word.not_hasNumber_of_constant (Word.constant_quote _)
  · next v =>
    cases h
    have bare : '_' ∉ (Spelling.ofBool v).toList := by cases v <;> decide
    exact not_hasNumber_of_bare bare
  · cases h
    exact not_hasNumber_null
  · split at h
    · split at h
      · cases h
        exact number (Word.numeral_ofInt _)
      · cases h
        exact number (Word.numeral_ofDouble _)
      · cases h
    · cases h
  · cases h

end Calls

namespace Lower

open Calls

/-- Operations that compute: they bring nothing in, call nothing and set no field. -/
def computes : Opcode → Bool
  | .allot | .func | .funi | .set | .defineType | .addField | .addStaticField | .untilLoop | .finish | .setField
  | .call | .invoke => false
  | _ => true

/-- A property that steps have which ask, refuse and compute with temporaries, one after another and inside of
others. -/
structure Temper (T : ∀ {α : Type}, Lower α → Prop) : Prop where
  pure : ∀ {α : Type} (a : α), T (Pure.pure a : Lower α)
  bind : ∀ {α β : Type} {p : Lower α} {f : α → Lower β}, T p → (∀ a, T (f a)) → T (p >>= f)
  failWith : ∀ {α : Type} (e : Failure), T (Lower.failWith e : Lower α)
  ask : ∀ {α : Type} (g : Lowering → α), T (Lower.ask g)
  freshTemp : ∀ {β : Type} {f : String → Lower β}, (∀ n, T (f (Word.temp n))) → T (Lower.freshTemp >>= f)
  emit : ∀ {op : Opcode} {args : List String}, computes op = true →
    (∀ w ∈ Instruction.writes ⟨op, args⟩, ¬ Word.HasNumber w) → T (Lower.emit op args)
  push : ∀ {o : Operand}, ¬ Word.HasNumber o.raw → T (Lower.push o)
  forEffect : ∀ {p : Lower Unit}, T p → T (Lower.forEffect p)
  forValue : ∀ {p : Lower Unit} {d : Diagnostic}, T p → T (Lower.forValue p (Lower.fail d))

namespace Temper

variable {T : ∀ {α : Type}, Lower α → Prop} (hT : Temper T) {α β : Type} {op : Opcode} {args : List String} {n : Node}

include hT

theorem fail (d : Diagnostic) : T (Lower.fail d : Lower α) := hT.failWith _

theorem failBind {f : α → Lower β} : T (Lower.fail d >>= f) := hT.failWith (.diagnostic d)

theorem ofExcept (e : Except Diagnostic α) : T (Lower.ofExcept e) := by
  cases e with
  | error d => exact hT.fail d
  | ok a => exact hT.pure a

theorem refuse (o : Option Diagnostic) : T (Lower.refuse o) := by
  cases o with
  | some d => exact hT.fail d
  | none => exact hT.pure ()

omit hT in
theorem ite [Decidable c] {p q : Lower α} (hp : T p) (hq : T q) : T (if c then p else q) := by
  split
  · exact hp
  · exact hq

/-- Something is refused, and otherwise lowering goes on. -/
theorem guarded [Decidable c] {f : α → Lower β} {q : Lower β} (hq : T q) :
    T (if c then Lower.fail d >>= f else q) := ite hT.failBind hq

theorem forAll {f : α → Lower Unit} {xs : List α} (h : ∀ x ∈ xs, T (f x)) : T (Lower.forAll f xs) := by
  induction xs with
  | nil => exact hT.pure ()
  | cons x xs ih =>
    exact hT.bind (h x List.mem_cons_self) fun _ => ih fun y hy => h y (List.mem_cons_of_mem _ hy)

/-- An instruction that writes nothing. -/
theorem emitOn (hop : computes op = true) (hwrites : Instruction.writes ⟨op, args⟩ = []) : T (Lower.emit op args) :=
  hT.emit hop fun _ hw => absurd (hwrites ▸ hw) List.not_mem_nil

/-- An instruction that writes a temporary. -/
theorem emitTo (hop : computes op = true) (hwrites : Instruction.writes ⟨op, args⟩ = [Word.temp k]) :
    T (Lower.emit op args) := by
  refine hT.emit hop fun w hw => ?_
  rw [hwrites, List.mem_singleton] at hw
  rw [hw]
  exact Word.not_hasNumber_temp k

theorem pushTemp {type : Tag} : T (Lower.push (.temp (Word.temp k) type n)) :=
  hT.push (Word.not_hasNumber_temp k)

theorem materialize : T (Lower.materialize o) :=
  ite (hT.freshTemp fun _ => hT.bind (hT.emitTo rfl rfl) fun _ => hT.pure _) (hT.pure o)

theorem emitBinding {b : Binding} : T (Lower.emitBinding b) := by
  unfold Lower.emitBinding
  split
  · refine hT.freshTemp fun _ => hT.bind (hT.emitTo rfl rfl) fun _ => ?_
    exact hT.bind (hT.forAll fun _ _ => hT.emitOn rfl rfl) fun _ => hT.pure _
  · refine hT.freshTemp fun _ => hT.bind (hT.emitTo rfl rfl) fun _ => ?_
    exact hT.bind (hT.forAll fun _ _ => hT.emitOn rfl rfl) fun _ => hT.pure _
  · split
    · exact hT.pure _
    · exact hT.pure _

theorem breakOut : T (Lower.breakOut pos) := by
  refine hT.bind (hT.bind (hT.ask _) fun _ => hT.pure _) fun target? => ?_
  split
  · exact hT.emitOn rfl rfl
  · exact hT.fail _

theorem continueOn : T (Lower.continueOn pos) := by
  refine hT.bind (hT.bind (hT.ask _) fun _ => hT.pure _) fun target? => ?_
  split
  · exact hT.emitOn rfl rfl
  · exact hT.fail _

theorem literal (n : Node) : T (match Operand.ofLiteral? n with
    | some o => Lower.push o
    | none => Lower.fail (Complaint.unsupported n)) := by
  cases hlit : Operand.ofLiteral? n with
  | none => exact hT.fail _
  | some o => exact hT.push (not_hasNumber_of_ofLiteral hlit)

theorem thisRid : T Lower.thisRid := hT.bind (hT.ask _) fun _ => hT.pure _

theorem returnNothing {s : Symbol} {f : FunctionInfo} {token : Token} : T (Lower.returnNothing s f token) :=
  ite (hT.bind hT.thisRid fun _ => hT.emitOn rfl rfl) (ite (hT.emitOn rfl rfl) (ite (hT.emitOn rfl rfl) (hT.fail _)))

theorem epilogue {finish : Position} : T (Lower.epilogue id finish) :=
  hT.bind (hT.ask _) fun _ => ite (hT.bind hT.thisRid fun _ => hT.emitOn rfl rfl) (ite (hT.pure ())
    (ite (hT.emitOn rfl rfl) (ite (hT.pure ()) (hT.fail _))))

variable {visit : Visit} (hv : ∀ n, T (visit n))

theorem importFile {path : Token} (hunit : ∀ p src, T (Lower.unit visit p src)) :
    T (Lower.importFile (Lower.unit visit) path n) := by
  refine hT.bind (hT.ask _) fun t => hT.guarded (hT.bind (hT.ask _) fun imports => ?_)
  refine hT.bind (hT.ask _) fun files => hT.bind (hT.ask _) fun file => ?_
  split
  · exact hT.fail _
  · refine ite (hT.fail _) (ite (hT.pure ()) ?_)
    split
    · exact hT.fail _
    · dsimp only
      split
      · exact hT.failWith _
      · exact hunit _ _

include hv

theorem eval (n : Node) : T (Lower.eval visit n) := hT.forValue (hv n)

theorem exec (n : Node) : T (Lower.exec visit n) := hT.forEffect (hv n)

theorem unary {op : Token} {operand : Node} : T (Lower.unary visit op operand n) := by
  unfold Lower.unary
  split
  · split
    · next literal hliteral => exact hT.push (not_hasNumber_of_ofLiteral hliteral)
    · refine hT.bind (hT.eval hv operand) fun o => hT.guarded (hT.freshTemp fun _ => ?_)
      exact hT.bind (hT.emitTo rfl rfl) fun _ => hT.pushTemp
  · refine hT.bind (hT.eval hv operand) fun o => hT.freshTemp fun _ => ?_
    exact hT.bind (hT.emitTo rfl rfl) fun _ => hT.pushTemp
  · exact hT.fail _
  · exact hT.fail _
  · exact hT.fail _

theorem list {elements : List Node} : T (Lower.list visit elements n) := by
  refine hT.freshTemp fun _ => hT.bind (hT.emitTo rfl rfl) fun _ => ?_
  refine hT.bind (hT.forAll fun element _ => ?_) fun _ => hT.pushTemp
  exact hT.bind (hT.eval hv element) fun _ => hT.emitOn rfl rfl

theorem dict {pairs : List Node} : T (Lower.dict visit pairs n) := by
  refine hT.freshTemp fun _ => hT.bind (hT.emitTo rfl rfl) fun _ => ?_
  refine hT.bind (hT.forAll fun pair _ => ?_) fun _ => hT.pushTemp
  split
  · exact hT.bind (hT.eval hv _) fun _ => hT.bind (hT.eval hv _) fun _ => hT.emitOn rfl rfl
  · exact hT.fail _

theorem indexed : T (Lower.indexed visit left subscript) := by
  refine hT.bind (hT.eval hv left) fun o => hT.bind (ite (hT.pure ()) (hT.fail _)) fun _ => ?_
  exact hT.bind (hT.eval hv subscript) fun _ => hT.pure _

theorem index : T (Lower.index visit left subscript n) := by
  refine hT.bind (hT.indexed hv) fun _ => hT.freshTemp fun _ => ?_
  exact hT.bind (hT.emitTo rfl rfl) fun _ => hT.pushTemp

theorem group {body : Option Node} : T (Lower.group visit body n) := by
  unfold Lower.group
  split
  · exact hT.fail _
  · split
    · exact hT.fail _
    · exact hT.bind (hT.forAll fun m _ => hT.exec hv m) fun _ => hv _
  · exact hv _

theorem argument : T (Lower.argument visit n) := by
  unfold Lower.argument
  split
  · exact hT.bind (hT.eval hv _) fun _ => hT.pure _
  · exact hT.bind (hT.eval hv _) fun _ => hT.pure _

theorem returnValue {s : Symbol} {f : FunctionInfo} {value : Node} : T (Lower.returnValue visit s f value) :=
  hT.guarded (hT.bind (hT.eval hv value) fun _ => hT.bind (hT.ask _) fun _ => hT.guarded (hT.emitOn rfl rfl))

end Temper

end Lower

namespace Calls

open SymbolTable

/-! ## Sound states -/

/-- A word that has no number, or is the raw id of a symbol; if that is a function, it has a property. -/
def Leads (t : SymbolTable) (w : String) (P : SymbolId → CallHead → Prop) : Prop :=
  Word.HasNumber w → ∃ id < t.symbols.size, (t.get id).rid = w ∧
    ∀ h, (t.get id).callHead? = some h → P id h

/-- A word that is the raw id of a function with the given number of parameters. -/
def Heads (t : SymbolTable) (w : String) (params : Nat) (returnsValue : Bool) : Prop :=
  ∃ id h, (t.get id).callHead? = some h ∧ (t.get id).rid = w ∧ h.builtin = false ∧
    h.arity = params ∧ h.returnsValue = returnsValue

/-- An instruction that calls or defines a function the way the table knows it. -/
def InstructionOk (t : SymbolTable) (i : Instruction) : Prop :=
  match i.op, i.args with
  | .call, w :: args => Leads t w fun _ h =>
      args.length = h.arity ∧ (h.returnsValue = false ∨ h.kind = .construct)
  | .invoke, w :: args => Leads t w fun _ h => args.length = h.arity + 1 ∧ h.returnsValue = true
  | .func, w :: params => Heads t w params.length false
  | .funi, w :: params => Heads t w params.length true
  | _, _ => True

/-- Operations that neither call nor define a function. -/
def isPlain : Opcode → Bool
  | .call | .invoke | .func | .funi => false
  | _ => true

/-- An operand that knows the function whose raw id it is. -/
def OperandOk (t : SymbolTable) (o : Operand) : Prop :=
  Leads t o.raw fun id h => o.meaning = some id ∧ h.kind ≠ .construct

/-- A state in which calls and definitions go together. -/
structure Sound (s : Lowering) : Prop where
  builtins : s.session.builtins = .standard
  table : Callable s.supply.rids s.table
  operands : ∀ o ∈ s.operands, OperandOk s.table o
  code : ∀ i, .instr i ∈ s.out.items → InstructionOk s.table i

/-- Every function of the source text is owed, or only declared and either virtual or asked for at the end, or
has a head among the items. -/
def Settled (owed : List SymbolId) (t : SymbolTable) (declared : List SymbolId) (items : List CodeItem) : Prop :=
  ∀ id deferred virtual, (t.get id).standing? = some (false, deferred, virtual) →
    id ∈ owed ∨ (deferred = true ∧ (virtual = true ∨ id ∈ declared)) ∨
      ∃ op params, (op = .func ∨ op = .funi) ∧ .instr ⟨op, (t.get id).rid :: params⟩ ∈ items

/-- Every function of the source text in a state is owed, only declared, or written. -/
abbrev Settles (owed : List SymbolId) (s : Lowering) : Prop := Settled owed s.table s.declared s.out.items

/-- From one state to another one symbols stay what they were, no passage is left open, and no more is owed. -/
structure Moves (s s' : Lowering) : Prop where
  grows : Grows s.table s'.table
  depth : s'.out.depth = s.out.depth
  settles : ∀ owed, Settles owed s → Settles owed s'

/-- Whenever the step succeeds, the state is sound, symbols are what they were, no more is owed, and the result
has a property. -/
def Keeps (s : Lowering) {α : Type} (p : Lower α) (Q : α → Lowering → Prop) : Prop :=
  ∀ a s', p s = (.ok a, s') → Sound s' ∧ Moves s s' ∧ Q a s'

/-- A step that goes from sound states to sound states. -/
def Tame {α : Type} (p : Lower α) : Prop := ∀ s, Sound s → Keeps s p fun _ _ => True

/-- Whenever the step succeeds where some functions are owed, the state is sound, symbols are what they were,
the functions are owed that go with the result, and the result has a property. -/
def Owes (owed : List SymbolId) (s : Lowering) {α : Type} (p : Lower α) (owed' : α → List SymbolId)
    (Q : α → Lowering → Prop) : Prop :=
  ∀ a s', p s = (.ok a, s') → Sound s' ∧ Grows s.table s'.table ∧ s'.out.depth = s.out.depth ∧
    (Settles owed s → Settles (owed' a) s') ∧ Q a s'

variable {s s' s'' : Lowering} {t t' : SymbolTable} {α β : Type} {w : String} {owed : List SymbolId}

theorem Leads.grows (h : Leads t w P) (hg : Grows t t') : Leads t' w P := by
  intro hw
  obtain ⟨id, hid, hrid, hP⟩ := h hw
  refine ⟨id, Nat.lt_of_lt_of_le hid hg.size, ?_, ?_⟩
  · rw [hg.rid id hid, hrid]
  · rw [hg.head id hid]
    exact hP

theorem Leads.imp {R : SymbolId → CallHead → Prop} (h : Leads t w P)
    (hi : ∀ id head, (t.get id).callHead? = some head → P id head → R id head) : Leads t w R := by
  intro hw
  obtain ⟨id, hid, hrid, hP⟩ := h hw
  exact ⟨id, hid, hrid, fun head hh => hi id head hh (hP head hh)⟩

theorem leads_of_not_hasNumber (h : ¬ Word.HasNumber w) : Leads t w P :=
  fun hw => absurd hw h

theorem Heads.grows {params : Nat} {returnsValue : Bool} (h : Heads t w params returnsValue)
    (hg : Grows t t') : Heads t' w params returnsValue := by
  obtain ⟨id, head, hid, hrid, hh⟩ := h
  have hlt := lt_size_of_callHead? hid
  exact ⟨id, head, by rw [hg.head id hlt, hid], by rw [hg.rid id hlt, hrid], hh⟩

theorem InstructionOk.grows (h : InstructionOk t i) (hg : Grows t t') : InstructionOk t' i := by
  obtain ⟨op, args⟩ := i
  cases op <;> first | trivial | skip
  all_goals cases args <;> first | trivial | exact Leads.grows h hg | exact Heads.grows h hg

theorem instructionOk_of_isPlain (h : isPlain i.op = true) : InstructionOk t i := by
  obtain ⟨op, args⟩ := i
  cases op <;> trivial

theorem OperandOk.grows (h : OperandOk t o) (hg : Grows t t') : OperandOk t' o :=
  Leads.grows h hg

/-- A state whose table has grown in a good way, and in which nothing else that matters has changed. -/
theorem Sound.of_grows (h : Sound s) (hb : s'.session.builtins = s.session.builtins)
    (ht : Callable s'.supply.rids s'.table) (hg : Grows s.table s'.table)
    (ho : s'.operands ⊆ s.operands) (hc : ∀ item ∈ s'.out.items, item ∈ s.out.items) : Sound s' :=
  ⟨hb.trans h.builtins, ht, fun o hmem => (h.operands o (ho hmem)).grows hg,
    fun i hi => (h.code i (hc _ hi)).grows hg⟩

/-! ## Functions that are owed -/

/-- Where the same functions have to be written, and more is written, no more is owed. -/
theorem Settled.mono {declared' : List SymbolId} {items items' : List CodeItem} (h : Settled owed t declared items)
    (hst : ∀ id, (t'.get id).standing? = (t.get id).standing?)
    (hrid : ∀ id < t.symbols.size, (t'.get id).rid = (t.get id).rid) (hd : declared ⊆ declared')
    (hi : items ⊆ items') : Settled owed t' declared' items' := by
  intro id deferred virtual hid
  have hlt : id < t.symbols.size := by
    rw [hst] at hid
    obtain ⟨f, hf, -⟩ := Option.map_eq_some_iff.mp hid
    exact lt_size_of_callHead? (Symbol.callHead?_of_function hf)
  rw [hrid id hlt]
  obtain howed | ⟨hdeferred, hvirtual⟩ | ⟨op, params, hop, hmem⟩ := h id deferred virtual ((hst id).symm.trans hid)
  · exact .inl howed
  · exact .inr (.inl ⟨hdeferred, hvirtual.imp_right fun hmem => hd hmem⟩)
  · exact .inr (.inr ⟨op, params, hop, hi hmem⟩)

theorem Settled.owing {owed' : List SymbolId} {items : List CodeItem} (h : Settled owed t declared items)
    (ho : owed ⊆ owed') : Settled owed' t declared items :=
  fun id deferred virtual hid => (h id deferred virtual hid).imp_left fun hmem => ho hmem

/-- What is only declared need not be written, if it is virtual or asked for at the end. -/
theorem Settled.forgive {builtin virtual : Bool} {items : List CodeItem} (h : Settled (id :: owed) t declared items)
    (hid : (t.get id).standing? = some (builtin, true, virtual)) (hd : virtual = true ∨ id ∈ declared) :
    Settled owed t declared items := by
  intro other deferred virtual' hother
  obtain howed | hrest := h other deferred virtual' hother
  · obtain rfl | howed := List.mem_cons.mp howed
    · cases hid.symm.trans hother
      exact .inr (.inl ⟨rfl, hd⟩)
    · exact .inl howed
  · exact .inr hrest

/-- A state with the same code, in which the same functions have to be written. -/
theorem Moves.of_grows (hg : Grows s.table s'.table)
    (hst : ∀ id, (s'.table.get id).standing? = (s.table.get id).standing?) (hd : s'.declared = s.declared)
    (ho : s'.out = s.out) : Moves s s' :=
  ⟨hg, by rw [ho], fun _ h => h.mono hst hg.rid (hd ▸ List.Subset.refl _) (ho ▸ List.Subset.refl _)⟩

theorem Moves.of_alike (ha : Alike s.table s'.table) (hd : s'.declared = s.declared) (ho : s'.out = s.out) :
    Moves s s' :=
  .of_grows ha.grows ha.standing hd ho

/-- A state with the same table, in which more is written. -/
theorem Moves.of_append (ht : s'.table = s.table) (hd : s'.declared = s.declared) (ho : s'.out = s.out.append code) :
    Moves s s' := by
  refine ⟨ht ▸ .refl _, by rw [ho, CodeBuffer.depth_append], fun _ h => ?_⟩
  unfold Settles
  rw [ht, hd, ho]
  exact h.mono (fun _ => rfl) (fun _ _ => rfl) (List.Subset.refl _)
    fun item hitem => CodeBuffer.mem_items_append.mpr (.inr hitem)

theorem Moves.refl (s : Lowering) : Moves s s := ⟨.refl _, rfl, fun _ h => h⟩

theorem Moves.trans (h : Moves s s') (h' : Moves s' s'') : Moves s s'' :=
  ⟨h.grows.trans h'.grows, h'.depth.trans h.depth, fun owed hs => h'.settles owed (h.settles owed hs)⟩

/-! ## Steps one after another -/

variable {Q : β → Lowering → Prop} {f : α → Lower β} {p : Lower α}

protected theorem Keeps.bind {R : α → Lowering → Prop} (hp : Keeps s p R)
    (hf : ∀ a s', Sound s' → Grows s.table s'.table → R a s' → Keeps s' (f a) Q) : Keeps s (p >>= f) Q := by
  intro b s'' h
  obtain ⟨a, s', heq, h⟩ := Lower.bind_eq_ok.mp h
  obtain ⟨hs', hm, hR⟩ := hp a s' heq
  obtain ⟨hs'', hm', hQ⟩ := hf a s' hs' hm.grows hR b s'' h
  exact ⟨hs'', hm.trans hm', hQ⟩

/-- A step that goes to a known state. -/
protected theorem Keeps.step {a : α} (hp : p s = (.ok a, s')) (hm : Moves s s') (hf : Keeps s' (f a) Q) :
    Keeps s (p >>= f) Q := by
  intro b s'' h
  obtain ⟨hs'', hm', hQ⟩ := hf b s'' (Lower.bind_of_ok hp f ▸ h)
  exact ⟨hs'', hm.trans hm', hQ⟩

theorem Keeps.weaken {R Q : α → Lowering → Prop} (h : Keeps s p R) (hi : ∀ a s', R a s' → Q a s') : Keeps s p Q := by
  intro a s' hp
  obtain ⟨hs', hg, hR⟩ := h a s' hp
  exact ⟨hs', hg, hi a s' hR⟩

protected theorem Keeps.pure {Q : α → Lowering → Prop} {a : α} (h : Sound s) (hQ : Q a s) : Keeps s (pure a) Q := by
  rintro b s' ⟨⟩
  exact ⟨h, .refl _, hQ⟩

protected theorem Keeps.failWith {Q : α → Lowering → Prop} {e : Failure} : Keeps s (Lower.failWith e) Q := by
  rintro a s' ⟨⟩

protected theorem Keeps.fail {Q : α → Lowering → Prop} : Keeps s (Lower.fail d) Q :=
  .failWith

theorem Keeps.failBind : Keeps s (Lower.fail d >>= f) Q := by
  rintro a s' ⟨⟩

protected theorem Keeps.ite [Decidable c] {q : Lower α} {Q : α → Lowering → Prop} (hp : c → Keeps s p Q)
    (hq : ¬ c → Keeps s q Q) : Keeps s (if c then p else q) Q := by
  split
  · exact hp ‹_›
  · exact hq ‹_›

/-- Something is refused, and otherwise lowering goes on. -/
protected theorem Keeps.unless [Decidable c] {q : Lower β}
    (hq : ¬ c → Keeps s q Q) : Keeps s (if c then Lower.fail d >>= f else q) Q :=
  .ite (fun _ => .failBind) hq

/-- A question is answered on the spot. -/
protected theorem Keeps.ask {g : Lowering → α} (h : Keeps s (f (g s)) Q) : Keeps s (Lower.ask g >>= f) Q := h

theorem Keeps.ofExcept {e : Except Diagnostic α}
    (h : ∀ a, e = .ok a → Keeps s (f a) Q) : Keeps s (Lower.ofExcept e >>= f) Q := by
  cases e with
  | error d => exact .failBind
  | ok a => exact h a rfl

protected theorem Keeps.refuse {o : Option Diagnostic} {f : Unit → Lower β}
    (h : Keeps s (f ()) Q) : Keeps s (Lower.refuse o >>= f) Q := by
  cases o with
  | some d => exact .failBind
  | none => exact h

/-! ## Steps after which functions are owed -/

theorem Keeps.owes {Q : α → Lowering → Prop} (h : Keeps s p Q) : Owes owed s p (fun _ => owed) Q := by
  intro a s' hp
  obtain ⟨hs', hm, hQ⟩ := h a s' hp
  exact ⟨hs', hm.grows, hm.depth, hm.settles owed, hQ⟩

/-- Whatever is owed before, no more is owed afterwards. -/
theorem Keeps.of_owes {Q : α → Lowering → Prop} (h : ∀ owed, Owes owed s p (fun _ => owed) Q) : Keeps s p Q := by
  intro a s' hp
  obtain ⟨hs', hg, hd, -, hQ⟩ := h [] a s' hp
  exact ⟨hs', ⟨hg, hd, fun owed => (h owed a s' hp).2.2.2.1⟩, hQ⟩

protected theorem Owes.bind {owed₁ : α → List SymbolId} {owed₂ : β → List SymbolId}
    {R : α → Lowering → Prop} (hp : Owes owed s p owed₁ R)
    (hf : ∀ a s', Sound s' → Grows s.table s'.table → R a s' → Owes (owed₁ a) s' (f a) owed₂ Q) :
    Owes owed s (p >>= f) owed₂ Q := by
  intro b s'' h
  obtain ⟨a, s', hp', h⟩ := Lower.bind_eq_ok.mp h
  obtain ⟨hs', hg, hd, hsettles, hR⟩ := hp a s' hp'
  obtain ⟨hs'', hg', hd', hsettles', hQ⟩ := hf a s' hs' hg hR b s'' h
  exact ⟨hs'', hg.trans hg', hd'.trans hd, fun hs => hsettles' (hsettles hs), hQ⟩

/-- A step after which no more is owed, in front of one that follows what is owed. -/
theorem Keeps.thenOwes {owed' : β → List SymbolId} {R : α → Lowering → Prop} (hp : Keeps s p R)
    (hf : ∀ a s', Sound s' → Grows s.table s'.table → R a s' → Owes owed s' (f a) owed' Q) :
    Owes owed s (p >>= f) owed' Q :=
  hp.owes.bind hf

variable {owed' : α → List SymbolId}

theorem Owes.pure {Q : α → Lowering → Prop} {a : α} (hs : Sound s)
    (ho : owed ⊆ owed' a) (hQ : Q a s) : Owes owed s (pure a) owed' Q := by
  rintro b s' ⟨⟩
  exact ⟨hs, .refl _, rfl, fun h => h.owing ho, hQ⟩

theorem Owes.weaken {owed'' : α → List SymbolId} {R Q : α → Lowering → Prop} (h : Owes owed s p owed' R)
    (ho : ∀ a, owed' a ⊆ owed'' a) (hi : ∀ a s', R a s' → Q a s') : Owes owed s p owed'' Q := by
  intro a s' hp
  obtain ⟨hs', hg, hd, hsettles, hR⟩ := h a s' hp
  exact ⟨hs', hg, hd, fun hs => (hsettles hs).owing (ho a), hi a s' hR⟩

theorem Owes.fail {Q : α → Lowering → Prop} : Owes owed s (Lower.fail d) owed' Q := by
  rintro a s' ⟨⟩

theorem Owes.failBind {owed' : β → List SymbolId} : Owes owed s (Lower.fail d >>= f) owed' Q := by
  rintro a s' ⟨⟩

/-- Something is refused, and otherwise lowering goes on. -/
theorem Owes.unless [Decidable c] {q : Lower β} {owed' : β → List SymbolId} (hq : ¬ c → Owes owed s q owed' Q) :
    Owes owed s (if c then Lower.fail d >>= f else q) owed' Q := by
  split
  · exact .failBind
  · exact hq ‹_›

/-- A question is answered on the spot. -/
theorem Owes.ask {g : Lowering → α} {owed' : β → List SymbolId}
    (h : Owes owed s (f (g s)) owed' Q) : Owes owed s (Lower.ask g >>= f) owed' Q := h

protected theorem Owes.ite [Decidable c] {q : Lower α} {Q : α → Lowering → Prop} (hp : c → Owes owed s p owed' Q)
    (hq : ¬ c → Owes owed s q owed' Q) : Owes owed s (if c then p else q) owed' Q := by
  split
  · exact hp ‹_›
  · exact hq ‹_›

/-- What is owed in front of a step may be more than what has to be. -/
theorem Owes.forgive {owed₁ : List SymbolId} {Q : α → Lowering → Prop}
    (h : Owes owed s p owed' Q) (ho : Settles owed₁ s → Settles owed s) : Owes owed₁ s p owed' Q := by
  intro a s' hp
  obtain ⟨hs', hg, hd, hsettles, hQ⟩ := h a s' hp
  exact ⟨hs', hg, hd, fun hold => hsettles (ho hold), hQ⟩

/-! ## Tame steps -/

protected theorem Tame.bind (hp : Tame p) (hf : ∀ a, Tame (f a)) : Tame (p >>= f) :=
  fun s hs => (hp s hs).bind fun a s' hs' _ _ => hf a s' hs'

/-- A tame step in front of one for which the state matters. -/
protected theorem Tame.then (hp : Tame p)
    (hs : Sound s) (hf : ∀ a s', Sound s' → Grows s.table s'.table → Keeps s' (f a) Q) : Keeps s (p >>= f) Q :=
  (hp s hs).bind fun a s' hs' hg _ => hf a s' hs' hg

/-- A step after which nothing is asked about the result. -/
theorem Keeps.tame {Q : Lowering → α → Lowering → Prop} (h : ∀ s, Sound s → Keeps s p (Q s)) : Tame p :=
  fun s hs => (h s hs).weaken fun _ _ _ => trivial

protected theorem Tame.pure (a : α) : Tame (pure a : Lower α) := fun _ hs => .pure hs trivial

theorem Tame.pureBind {a : α} (h : Tame (f a)) : Tame (pure a >>= f) := h

protected theorem Tame.failWith (e : Failure) : Tame (Lower.failWith e : Lower α) := fun _ _ => .failWith

protected theorem Tame.fail (d : Diagnostic) : Tame (Lower.fail d : Lower α) := fun _ _ => .fail

protected theorem Tame.ask (g : Lowering → α) : Tame (Lower.ask g) := by
  rintro s hs a s' ⟨⟩
  exact ⟨hs, .refl _, trivial⟩

protected theorem Tame.ite [Decidable c] {q : Lower α} (hp : Tame p) (hq : Tame q) : Tame (if c then p else q) := by
  split
  · exact hp
  · exact hq

/-! ## Single steps -/

/-- Something is taken from the supply, and no number for raw ids. -/
protected theorem Keeps.take {g : Supply → String × Supply} {f : String → Lower β}
    (hs : Sound s) (hg : (g s.supply).2.rids = s.supply.rids)
    (hf : ∀ s', Sound s' → s'.table = s.table → Keeps s' (f (g s.supply).1) Q) : Keeps s (Lower.take g >>= f) Q := by
  refine .step rfl (.of_alike (.refl _) rfl rfl) (hf _ ?_ rfl)
  exact hs.of_grows rfl (hg ▸ hs.table) (.refl _) (List.Subset.refl _) fun _ hi => hi

theorem Keeps.freshTemp {f : String → Lower β} (hs : Sound s)
    (hf : ∀ w s', Sound s' → s'.table = s.table → ¬ Word.HasNumber w → Keeps s' (f w) Q) :
    Keeps s (Lower.freshTemp >>= f) Q :=
  .take hs rfl fun s' hs' ht => hf _ s' hs' ht (Word.not_hasNumber_temp _)

theorem Tame.freshTemp {f : String → Lower β} (hf : ∀ w, ¬ Word.HasNumber w → Tame (f w)) :
    Tame (Lower.freshTemp >>= f) :=
  fun _ hs => .freshTemp hs fun w s' hs' _ hw => hf w hw s' hs'

theorem Tame.freshLabel {f : String → Lower β} (hf : ∀ w, ¬ Word.HasNumber w → Tame (f w)) :
    Tame (Lower.freshLabel >>= f) :=
  fun _ hs => .take hs rfl fun s' hs' _ =>
    hf _ (Word.not_hasNumber_of_constant (Word.constant_label _)) s' hs'

/-- The next number is taken for a raw id. -/
theorem Keeps.takeNumber {g : Supply → String × Supply} {f : String → Lower β} (hs : Sound s)
    (hg : ∃ base, g s.supply = (Word.numbered base s.supply.rids, { s.supply with rids := s.supply.rids + 1 }))
    (hf : ∀ w s', Sound s' → s'.table = s.table → s'.supply.rids = s.supply.rids + 1 →
      Word.IsNumbered w s.supply.rids → Keeps s' (f w) Q) : Keeps s (Lower.take g >>= f) Q := by
  obtain ⟨base, hbase⟩ := hg
  have hp : Lower.take g s = (.ok (Word.numbered base s.supply.rids), { s with
      session := { s.session with supply := { s.supply with rids := s.supply.rids + 1 } } }) := by
    unfold Lower.take
    rw [show s.session.supply = s.supply from rfl, hbase]
  refine .step hp (.of_alike (.refl _) rfl rfl) (hf _ _ ?_ rfl rfl ⟨base, rfl⟩)
  exact hs.of_grows rfl (hs.table.mono (Nat.le_succ _)) (.refl _) (List.Subset.refl _)
    fun _ hi => hi

theorem Keeps.freshRid {name : String} {f : String → Lower β} (hs : Sound s)
    (hf : ∀ w s', Sound s' → s'.table = s.table → s'.supply.rids = s.supply.rids + 1 →
      Word.IsNumbered w s.supply.rids → Keeps s' (f w) Q) : Keeps s (Lower.freshRid name >>= f) Q :=
  .takeNumber hs ⟨name, Supply.rid_eq _ _⟩ hf

protected theorem Keeps.emit (hs : Sound s) (hi : InstructionOk s.table ⟨op, args⟩) :
    Keeps s (Lower.emit op args) fun _ s' => s'.table = s.table := by
  rintro a s' ⟨⟩
  have written : Moves s { s with out := s.out.emit op args } := .of_append rfl rfl (CodeBuffer.emit_eq _ _ _)
  refine ⟨⟨hs.builtins, hs.table, hs.operands, fun i hmem => ?_⟩, written, rfl⟩
  rcases CodeBuffer.mem_items_emit.mp hmem with he | hmem
  · cases he
    exact hi
  · exact hs.code i hmem

protected theorem Tame.emit (h : isPlain op = true) : Tame (Lower.emit op args) :=
  fun _ hs => (Keeps.emit hs (instructionOk_of_isPlain h)).weaken fun _ _ _ => trivial

/-- Code that was written elsewhere is taken over. -/
protected theorem Keeps.append (hs : Sound s) (hc : ∀ i, .instr i ∈ code → InstructionOk s.table i) :
    Keeps s (Lower.change fun s => { s with out := s.out.append code }) fun _ _ => True := by
  rintro a s' ⟨⟩
  refine ⟨⟨hs.builtins, hs.table, hs.operands, fun i hmem => ?_⟩, .of_append rfl rfl rfl, trivial⟩
  exact (CodeBuffer.mem_items_append.mp hmem).elim (hc i) (hs.code i)

protected theorem Keeps.push (hs : Sound s) (ho : OperandOk s.table o) : Keeps s (Lower.push o) fun _ _ => True := by
  rintro a s' ⟨⟩
  exact ⟨⟨hs.builtins, hs.table, List.forall_mem_cons.mpr ⟨ho, hs.operands⟩, hs.code⟩,
    .of_alike (.refl _) rfl rfl, trivial⟩

protected theorem Tame.push (h : ¬ Word.HasNumber o.raw) : Tame (Lower.push o) :=
  fun _ hs => .push hs (leads_of_not_hasNumber h)

protected theorem Tame.move {target : String} : Tame (Lower.move o target) :=
  .ite (.pure ()) (.ite (.emit rfl) (.emit rfl))

/-! ## The symbol table -/

theorem Keeps.changeTable {g : SymbolTable → SymbolTable} (hs : Sound s)
    (hg : Callable s.supply.rids (g s.table) ∧ Alike s.table (g s.table)) :
    Keeps s (Lower.changeTable g) fun _ s' => s'.table = g s.table ∧ s'.supply = s.supply := by
  rintro a s' ⟨⟩
  refine ⟨?_, .of_alike hg.2 rfl rfl, rfl, rfl⟩
  exact hs.of_grows rfl hg.1 hg.2.grows (List.Subset.refl _) fun _ hi => hi

theorem Tame.mapVariable (id : SymbolId) (g : VariableInfo → VariableInfo) :
    Tame (Lower.changeTable (·.modify id (Symbol.mapVariable g))) :=
  .tame fun _ hs => .changeTable hs (hs.table.mapVariable id g)

theorem Keeps.tryTable {g : SymbolTable → Except Diagnostic SymbolTable} (hs : Sound s)
    (hg : ∀ t, g s.table = .ok t → Callable s.supply.rids t ∧ Alike s.table t) :
    Keeps s (Lower.tryTable g) fun _ s' => s'.supply = s.supply ∧ Alike s.table s'.table := by
  unfold Lower.tryTable
  refine .ask (.ofExcept fun t ht => ?_)
  refine (Keeps.changeTable hs (hg t ht)).weaken fun _ s' h => ⟨h.2, ?_⟩
  rw [h.1]
  exact (hg t ht).2

/-- What is known after a symbol was made. -/
structure Made (s : Lowering) (sym : Symbol) (id : SymbolId) (s' : Lowering) : Prop where
  sound : Sound s'
  table : s'.table = (s.table.add sym).2
  supply : s'.supply = s.supply
  id : id = s.table.symbols.size

theorem Made.known (h : Made s sym id s') : id < s'.table.symbols.size := by
  rw [h.table, size_add, h.id]
  exact Nat.lt_succ_self _

theorem Made.get (h : Made s sym id s') : s'.table.get id = sym := by
  rw [h.table, h.id]
  exact get_add_self s.table sym

theorem Made.reachable (h : Made s sym id s') (hk : ∀ head, sym.callHead? = some head → head.kind ≠ .construct) :
    Reachable s'.table id :=
  ⟨h.known, by rw [h.get]; exact hk⟩

section
variable (hs : Sound s) (hfit : Fitting s.supply.rids s.table sym)
include hs hfit

theorem made_newSymbol :
    Made s sym s.table.symbols.size { s with session := { s.session with symbols := (s.table.add sym).2 } } :=
  ⟨hs.of_grows rfl (hs.table.add hfit) (grows_add s.table sym) (List.Subset.refl _) fun _ hi => hi, rfl, rfl, rfl⟩

/-- A fitting symbol is made that is no function. -/
theorem Keeps.newSymbol {f : SymbolId → Lower β} (hfun : sym.function? = none)
    (hf : ∀ id s', Made s sym id s' → Keeps s' (f id) Q) : Keeps s (Lower.newSymbol sym >>= f) Q := by
  refine .step rfl (.of_grows (grows_add s.table sym) (fun id => ?_) rfl rfl) (hf _ _ (made_newSymbol hs hfit))
  exact standing_add _ hfun id

/-- A fitting function is made. From now on it is owed. -/
theorem Owes.newFunction {f : SymbolId → Lower β} {owed' : β → List SymbolId}
    (hf : ∀ id s', Made s sym id s' → Owes (id :: owed) s' (f id) owed' Q) :
    Owes owed s (Lower.newSymbol sym >>= f) owed' Q := by
  intro b s'' h
  obtain ⟨hs'', hg, hd, hsettles, hQ⟩ := hf _ _ (made_newSymbol hs hfit) b s'' h
  refine ⟨hs'', (grows_add s.table sym).trans hg, hd, fun hold => hsettles fun id deferred virtual hid => ?_, hQ⟩
  by_cases hsame : id = s.table.symbols.size
  · exact .inl (hsame ▸ List.mem_cons_self)
  · have hget := get_add_of_ne s.table sym hsame
    rw [show (s.table.add sym).2.get id = s.table.get id from hget] at hid
    change _ ∨ _ ∨ ∃ op params, _ ∧ .instr ⟨op, ((s.table.add sym).2.get id).rid :: params⟩ ∈ s.out.items
    rw [hget]
    exact (hold id deferred virtual hid).imp_left fun hmem => List.mem_cons_of_mem _ hmem

end

protected theorem Keeps.insert (hs : Sound s) (hid : Reachable s.table id) :
    Keeps s (Lower.insert id) fun _ s' => s'.supply = s.supply ∧ Alike s.table s'.table :=
  .tryTable hs fun _ ht => hs.table.insertAt hid ht

/-! ## Steps inside of something -/

protected theorem Owes.inside (hs : Sound s)
    (h : ∀ u, Sound u → u.table = s.table → Owes owed u p owed' fun _ _ => True) :
    Owes owed s (Lower.inside id p) owed' fun _ _ => True := by
  intro a s' hp
  obtain ⟨after, hq, rfl⟩ := Lower.exists_of_inside hp
  have entered : Sound { s with processing := id :: s.processing } :=
    ⟨hs.builtins, hs.table, hs.operands, hs.code⟩
  obtain ⟨hafter, hg, hdepth, hsettles, -⟩ := h _ entered rfl a after hq
  exact ⟨⟨hafter.builtins, hafter.table, hafter.operands, hafter.code⟩, hg, hdepth, hsettles, trivial⟩

/-- A step in a scope of its own. -/
theorem Owes.inScope (hs : Sound s) (h : ∀ u, Sound u → Grows s.table u.table → Owes owed u p owed' fun _ _ => True) :
    Owes owed s (Lower.inScope kind p) owed' fun _ _ => True := by
  intro a s' hp
  have symbols : (s.table.enter kind).symbols = s.table.symbols := rfl
  have opened : Moves s { s with
      session := { s.session with symbols := s.table.enter kind }
      scopes := kind :: s.scopes } := .of_alike (.of_symbols symbols) rfl rfl
  have entered : Sound { s with
      session := { s.session with symbols := s.table.enter kind }
      scopes := kind :: s.scopes } :=
    hs.of_grows rfl (hs.table.enter kind) opened.grows (List.Subset.refl _) fun _ hi => hi
  obtain ⟨after, hq, rfl⟩ := Lower.exists_of_inScope hp
  obtain ⟨hafter, hg, hdepth, hsettles, -⟩ := h _ entered opened.grows a after hq
  obtain ⟨left, symbols⟩ := hafter.table.exitMany (after.table.level - s.table.level)
  have closed : Moves after { after with
      session := { after.session with symbols := after.table.leaveTo s.table.level }
      scopes := after.scopes.drop (after.scopes.length - s.scopes.length) } :=
    .of_alike (.of_symbols symbols) rfl rfl
  exact ⟨hafter.of_grows rfl left closed.grows (List.Subset.refl _) fun _ hi => hi,
    opened.grows.trans (hg.trans closed.grows), hdepth,
    fun hold => closed.settles _ (hsettles (opened.settles _ hold)), trivial⟩

theorem Keeps.inScope (hs : Sound s) (h : ∀ u, Sound u → Grows s.table u.table → Keeps u p fun _ _ => True) :
    Keeps s (Lower.inScope kind p) fun _ _ => True :=
  .of_owes fun _ => .inScope hs fun u hu hg => (h u hu hg).owes

theorem Tame.inScope (h : Tame p) : Tame (Lower.inScope kind p) :=
  fun _ hs => .inScope hs fun u hu _ => h u hu

/-- What is known after the code of a step was kept apart: no more is owed, if that code is counted. -/
structure KeptApart (s : Lowering) (code : Code) (s' : Lowering) : Prop where
  sound : Sound s'
  grows : Grows s.table s'.table
  depth : s'.out.depth = s.out.depth
  ok : ∀ i, .instr i ∈ code → InstructionOk s'.table i
  settles : ∀ owed, Settles owed s → Settled owed s'.table s'.declared (code ++ s'.out.items)

theorem Tame.keptApart {p : Lower Unit} (h : Tame p) (hs : Sound s) (hp : Lower.apart p s = (.ok code, s')) :
    KeptApart s code s' := by
  unfold Lower.apart at hp
  simp only at hp
  have entered : Sound { s with out := s.out.enter } :=
    hs.of_grows rfl hs.table (.refl _) (List.Subset.refl _) fun _ hi => hi
  cases hq : p { s with out := s.out.enter } with
  | mk result after =>
    rw [hq] at hp
    cases result with
    | error e => cases hp
    | ok u =>
      obtain ⟨hafter, hm, -⟩ := h _ entered u after hq
      have opened : after.out.depth = s.out.depth + 1 := hm.depth
      obtain ⟨written, left, hleave, hdepth, hperm⟩ := CodeBuffer.leave?_eq opened
      dsimp only at hp
      rw [hleave] at hp
      cases hp
      refine ⟨⟨hafter.builtins, hafter.table, hafter.operands, fun i hi => ?_⟩, hm.grows, hdepth, fun i hi => ?_, ?_⟩
      · exact hafter.code i (hperm.mem_iff.mpr (List.mem_append_right _ hi))
      · exact hafter.code i (hperm.mem_iff.mpr (List.mem_append_left _ hi))
      · exact fun owed howed => (hm.settles owed howed).mono (fun _ => rfl) (fun _ _ => rfl) (List.Subset.refl _)
          fun item hitem => hperm.mem_iff.mp hitem

theorem Sound.truncate (h : Sound s) (mark : Nat) : Sound (Lower.truncate mark s) :=
  h.of_grows rfl h.table (.refl _) (List.drop_subset _ _) fun _ hi => hi

theorem moves_truncate (mark : Nat) (s : Lowering) : Moves s (Lower.truncate mark s) :=
  .of_alike (.refl _) rfl rfl

theorem Tame.forEffect {p : Lower Unit} (h : Tame p) : Tame (Lower.forEffect p) := by
  intro s hs a s' hp
  obtain ⟨after, hq, rfl⟩ := Lower.exists_of_ensuring hp
  obtain ⟨hafter, hm, -⟩ := h s hs a after hq
  exact ⟨hafter.truncate _, hm.trans (moves_truncate _ _), trivial⟩

/-- The value of a step is an operand that knows its function. -/
theorem Keeps.forValue {p : Lower Unit} (hs : Sound s) (h : Tame p) :
    Keeps s (Lower.forValue p (Lower.fail d)) fun o s' => OperandOk s'.table o := by
  intro o s' hp
  obtain ⟨after, rest, hq, hops, -, rfl⟩ := Lower.exists_of_forValue hp
  obtain ⟨hafter, hm, -⟩ := h s hs _ after hq
  exact ⟨hafter.truncate _, hm.trans (moves_truncate _ _), hafter.operands _ (hops ▸ List.mem_cons_self)⟩

theorem isPlain_of_computes (h : Lower.computes op = true) : isPlain op = true := by
  cases op <;> first | rfl | cases h

theorem temper : Lower.Temper Tame where
  pure := .pure
  bind := .bind
  failWith := .failWith
  ask := .ask
  freshTemp hf _ hs := .take hs rfl fun s' hs' _ => hf _ s' hs'
  emit h _ := .emit (isPlain_of_computes h)
  push := .push
  forEffect := .forEffect
  forValue h := .tame fun _ hs => .forValue hs h

/-! ## Nodes -/

/-- Nodes are lowered by tame steps. -/
def VisitOk (visit : Visit) : Prop := ∀ n, Tame (visit n)

variable {visit : Visit}

theorem VisitOk.eval (hv : VisitOk visit) (hs : Sound s) (n : Node) :
    Keeps s (Lower.eval visit n) fun o s' => OperandOk s'.table o :=
  .forValue hs (hv n)

theorem VisitOk.value (hv : VisitOk visit) (n : Node) : Tame (Lower.eval visit n) :=
  .tame fun _ hs => hv.eval hs n

theorem VisitOk.exec (hv : VisitOk visit) (n : Node) : Tame (Lower.exec visit n) :=
  (hv n).forEffect

/-- Marks are found out without a change of the state. -/
theorem Keeps.marksOf {f : Marks → Lower β} (hf : ∀ marks, Keeps s (f marks) Q) :
    Keeps s (Lower.marksOf labels what admitted >>= f) Q := by
  unfold Lower.marksOf
  simp only [Lower.bind_assoc]
  exact .ask (.ofExcept fun marks _ => .refuse (hf marks))

theorem Tame.marksOf : Tame (Lower.marksOf labels what admitted) :=
  (Tame.ask _).bind fun _ => (temper.ofExcept _).bind fun _ => (temper.refuse _).bind fun _ =>
    .pure _

end Calls

end Frontend
