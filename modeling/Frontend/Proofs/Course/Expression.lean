import Frontend.Proofs.Calls.Expression
import Frontend.Proofs.Course.Logic

/-!
# Courses of expressions

Operators, containers, members, assignments and control flow take a course, if the nodes inside of them do.
What an assignment or an increment stores goes to a temporary, to a variable that is no constant, or to a
field that may be set.
-/

namespace Frontend.Course

open SymbolTable

variable {home : Option Home} {ws : List String} {s : Lowering} {visit : Visit} {α β : Type}
variable {o : Operand} {n left : Node} {op : Token} {name : Ident}
variable {cls id : SymbolId} {word : String} {type : Tag} {object : Node} {callee : Operand}

/-! ## Members that are looked for -/

theorem Asks.assertedFor {name : String} : Asks (Lower.assertedFor cls name) :=
  (Asks.ask _).bind fun _ => (Asks.ask _).bind fun _ => Asks.pure _

theorem Asks.implicitMember {name : String} : Asks (Lower.implicitMember name) := by
  refine (Asks.ask _).bind fun t => (Asks.ask _).bind fun cls? => ?_
  split
  · exact .pure _
  · split
    · exact .pure _
    · exact .ite (.pure _) (.pure _)

/-- The value of a call goes to a temporary. -/
theorem writes_invoke (args : List String) (n : Nat) :
    Instruction.writes ⟨.invoke, args ++ [Word.temp n]⟩ = [Word.temp n] := by
  unfold Instruction.writes
  simp

/-! ## Values -/

variable [Setting]

section
variable (hv : ∀ n, Tame (visit n))
include hv

/-- The value of a node: its word was given out. -/
theorem Goes.eval (n : Node) :
    Goes home ws s (Lower.eval visit n) fun o ws' s' => ws' = ws ∧ Word.Below s'.supply.rids o.raw :=
  .forValue (hv n)

omit hv

/-- The value of an operand goes to a word that may be written. -/
theorem Goes.move {target : String} {Q : Unit → List String → Lowering → Prop} (hw : Writable s.table target)
    (hQ : ∀ s', Course home true ws s ws s' → s'.table = s.table → Q () ws s') :
    Goes home ws s (Lower.move o target) Q := by
  have written : ∀ op : Opcode, op = .put ∨ op = .copy → Course home true ws s ws (s.withOut (s.out.emit op [o.raw, target])) := by
    intro op hop
    refine .write (by rcases hop with rfl | rfl <;> rfl) (fun w h => ?_) (fun h => ?_)
    · rcases hop with rfl | rfl
      · exact List.mem_singleton.mp h ▸ hw
      · exact List.mem_singleton.mp h ▸ hw
    · rcases hop with rfl | rfl <;> cases h
  refine .ite (fun _ => .pure (hQ s .refl rfl)) fun _ => .ite (fun _ => ?_) fun _ => ?_
  · exact .last rfl (written .put (.inl rfl)) (hQ _ (written .put (.inl rfl)) rfl)
  · exact .last rfl (written .copy (.inr rfl)) (hQ _ (written .copy (.inr rfl)) rfl)

/-! ## Operators -/

theorem Goes.negate {f : String → Lower β} {Q : β → List String → Lowering → Prop}
    (hf : ∀ w s', s'.table = s.table → Goes home ws s' (f w) Q) : Goes home ws s (Lower.negate o >>= f) Q := by
  unfold Lower.negate
  split
  · exact hf _ s rfl
  · rw [Lower.bind_assoc]
    refine .freshTemp fun i s₁ _ ht => ?_
    rw [Lower.bind_assoc]
    exact .emitTo rfl rfl (hf _ _ ht)

/-- Arithmetic of operands leaves a temporary. -/
theorem Goes.compute {left second : String} {t : SymbolTable} (ht : s.table = t) :
    Goes home ws s (Lower.compute word left second type n) fun o ws' s' =>
      ws' = ws ∧ s'.table = t ∧ ¬ Word.HasNumber o.raw := by
  refine .freshTemp fun i s₁ _ ht₁ => ?_
  split
  · next code hcode =>
    have written : isPlain code = true ∧ Instruction.writes ⟨code, [left, second, Word.temp i]⟩ = [Word.temp i] := by
      unfold Lower.arithmeticOpcode? at hcode
      split at hcode <;> first | (cases hcode; exact ⟨rfl, rfl⟩) | cases hcode
    exact .emitTo written.1 written.2 (.pure ⟨rfl, ht₁.trans ht, Word.not_hasNumber_temp i⟩)
  · exact .fail

/-- A binary operation leaves a temporary and the table alone. -/
theorem Goes.binary {left right : Operand} :
    Goes home ws s (Lower.binary op word left right n) fun o ws' s' =>
      ws' = ws ∧ s'.table = s.table ∧ ¬ Word.HasNumber o.raw := by
  unfold Lower.binary
  split
  · refine .freshTemp fun order s₁ _ h₁ => .emitTo rfl rfl ?_
    refine .freshTemp fun result s₂ _ h₂ => .emitTo rfl rfl ?_
    exact .pure ⟨rfl, h₂.trans h₁, Word.not_hasNumber_temp result⟩
  · refine .ofExcept fun type _ => .ite (fun _ => ?_) fun _ => .compute rfl
    exact .negate fun second s₁ h₁ => .compute h₁

include hv

theorem Tame.pushBinary {right : Node} : Tame (do
      let l ← Lower.eval visit left
      let r ← Lower.eval visit right
      Lower.push (← Lower.binary op op.literal l r n)) := by
  refine (temper.eval hv left).bind fun l => (temper.eval hv right).bind fun r => ?_
  intro home ws s
  refine Goes.binary.bind ?_
  rintro o _ s₁ - ⟨rfl, -, ho⟩
  exact Tame.push ho _ _ _

/-! ## Members -/

theorem Tame.resolveMember : Tame (Lower.resolveMember visit object name) := by
  refine (temper.eval hv object).bind fun o => (Tame.ask _).bind fun t => ?_
  dsimp only
  split
  · refine Asks.assertedFor.tame.bind fun asserted => (temper.ofExcept _).bind fun member => ?_
    exact temper.guarded (.pure _)
  · refine temper.guarded ((temper.ofExcept _).bind fun cls => ?_)
    exact Asks.assertedFor.tame.bind fun asserted => (temper.ofExcept _).bind fun member => .pure _

omit hv

/-- The operand of a member: a field is read into a temporary, a function is its symbol. -/
theorem Goes.readMember {found : Lower.Found} : Goes home ws s (Lower.readMember found n) fun o? ws' s' =>
      ws' = ws ∧ ∀ o, o? = some o → Word.Below s'.supply.rids o.raw := by
  unfold Lower.readMember
  refine .ask ?_
  dsimp only
  split
  · refine Goes.freshTemp fun i s₁ _ _ => (Tame.emitTo rfl rfl).then fun _ s₂ _ => Goes.pure ⟨rfl, ?_⟩
    rintro o ⟨⟩
    exact Word.below_of_not_hasNumber (Word.not_hasNumber_temp i)
  · refine .good fun hg => .pure ⟨rfl, ?_⟩
    rintro o ⟨⟩
    change Word.Below _ (Operand.ofSymbol s.table found.member).raw
    rw [raw_ofSymbol]
    exact hg.below _
  · refine .pure ⟨rfl, ?_⟩
    rintro o ⟨⟩

include hv

theorem Tame.member : Tame (Lower.member visit object name n) := by
  intro home ws s
  refine (Tame.resolveMember hv).then fun found s₁ _ => Goes.readMember.bind ?_
  rintro o? _ s₂ - ⟨rfl, ho⟩
  cases o? with
  | none => exact .fail
  | some o => exact .push (ho o rfl) rfl

end

theorem Tame.ident : Tame (Lower.ident name n) := by
  intro home ws s
  unfold Lower.ident
  refine .unless fun _ => .ask ?_
  cases hl : s.table.lookup name.name name.token.pos with
  | ok id => exact .unless fun _ => .pushSymbol (raw_ofSymbol _ _) rfl
  | error d =>
    refine Asks.implicitMember.tame.then fun found? s₁ _ => ?_
    cases found? with
    | none => exact .fail
    | some found =>
      refine Goes.readMember.bind ?_
      rintro o? _ s₂ - ⟨rfl, ho⟩
      cases o? with
      | none => exact .fail
      | some o => exact .push (ho o rfl) rfl

theorem Tame.this {pos : Position} : Tame (Lower.this pos) := by
  intro home ws s
  unfold Lower.this
  refine .ask ?_
  split
  · exact .pushSymbol (raw_ofSymbol _ _) rfl
  · exact .fail

/-! ## Courses of calls

A call writes its arguments and its value to temporaries. A call of a built-in function writes what its
generator gives, and the generator takes no words but temporaries. -/

variable {args : List Argument} {site : Lower.CallSite}

theorem Tame.pushNull : Tame (Lower.push (.null n)) := .push Calls.not_hasNumber_null

theorem Tame.construct : Tame (Lower.construct cls args site) := by
  refine (Tame.ask _).bind fun t => temper.guarded ?_
  split
  · exact .fail _
  · refine (Tame.ask _).bind fun asserted => temper.guarded (Tame.freshTemp fun _ => ?_)
    refine (Tame.emitTo rfl rfl).bind fun _ => (Tame.collect fun _ => temper.emitBinding).bind fun raws => ?_
    exact (Tame.emitOn rfl rfl).bind fun _ => temper.pushTemp

theorem Tame.callFunction : Tame (Lower.callFunction id callee args site) := by
  have passed : ∀ (f : FunctionInfo) (bindings : List Binding) (receiver : List String),
      Tame (Lower.callBound callee f bindings site.node receiver) := by
    intro f bindings receiver
    refine (Tame.collect fun _ => temper.emitBinding).bind fun bound => Tame.ite (Tame.freshTemp fun i => ?_) ?_
    · exact (Tame.emitTo rfl (writes_invoke _ i)).bind fun _ => temper.pushTemp
    · exact (Tame.emitOn rfl rfl).bind fun _ => Tame.pushNull
  refine (Tame.ask _).bind fun t => (temper.ofExcept _).bind fun bindings => Tame.ite ?_ (passed _ _ _)
  split
  · exact passed _ _ _
  · exact temper.failBind

theorem Tame.callIndirect : Tame (Lower.callIndirect callee type args site) := by
  have called : Tame (Lower.callValueWith callee type (args.map (·.value.raw)) site.node) := by
    refine Tame.ite ((Tame.emitOn rfl rfl).bind fun _ => Tame.pushNull) (Tame.freshTemp fun i => ?_)
    exact (Tame.emitTo rfl (writes_invoke _ i)).bind fun _ => temper.pushTemp
  unfold Lower.callIndirect
  dsimp only
  split
  · exact temper.failBind
  · exact Tame.ite ((Tame.ask _).bind fun t => (temper.refuse _).bind fun _ => called) called

/-- A generator takes temporaries, and its code is written. -/
theorem Goes.generated {entry : Builtin} {sym : Symbol} {given : List BuiltinArg} {result : String}
    (hentry : entry ∈ s.session.builtins.entries) (hresult : ¬ Word.HasNumber result) :
    Goes home ws s (Lower.generated entry sym given site result) (Same ws) := by
  refine .good fun hg => ?_
  let call : BuiltinCall := ⟨sym.name, given, result, site.pos⟩
  obtain ⟨htemps, hrids, hlabels⟩ := hg.sober.takes entry hentry call s.supply
  have hgen : Lower.generate entry call s = (.ok (entry.generate call s.supply).1,
      s.withSupply { s.supply with temps := (entry.generate call s.supply).2.temps }) := by
    have hsupply : ∀ u : Supply, u.rids = s.supply.rids → u.labels = s.supply.labels →
        s.withSupply u = s.withSupply { s.supply with temps := u.temps } := by
      rintro ⟨rids, temps, labels⟩ rfl rfl
      rfl
    exact congrArg _ (hsupply _ hrids hlabels)
  refine .step hgen (.temps _ htemps) ?_
  split
  · exact .fail
  · exact .fail
  · next emission hemission =>
    refine .unless fun _ => .step rfl (.generated hentry hemission hresult) ?_
    split
    · exact Tame.push hresult _ _ _
    · exact Tame.pushNull _ _ _

theorem Tame.callBuiltin : Tame (Lower.callBuiltin id args site) := by
  intro home ws s
  unfold Lower.callBuiltin
  refine .ask (.ask ?_)
  cases hentry : s.session.builtins.find? (s.session.symbols.get id).name with
  | none => exact .fail
  | some entry =>
    have member : entry ∈ s.session.builtins.entries := List.mem_of_find?_eq_some hentry
    refine .ofExcept fun given _ => .unless fun _ => .ite (fun _ => ?_) fun hpure => ?_
    · refine .freshTemp fun i s₁ hcourse _ => .generated ?_ (Word.not_hasNumber_temp i)
      rw [hcourse.steps.builtins]
      exact member
    · have hempty : ¬ Word.HasNumber "" := Calls.not_hasNumber_of_bare (by decide)
      exact .generated member hempty

theorem Tame.call {callee : Node} {args : List Node} (hv : ∀ n, Tame (visit n)) :
    Tame (Lower.call visit callee args n) := by
  refine (temper.eval hv callee).bind fun o => (Tame.collect fun _ => temper.argument hv).bind fun given => ?_
  refine (Tame.ask _).bind fun t => ?_
  dsimp only
  split
  · exact .construct
  · split
    · exact .ite Tame.callBuiltin Tame.callFunction
    · exact .ite Tame.callIndirect (.fail _)

end Frontend.Course
