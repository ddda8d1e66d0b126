import Frontend.Proofs.Meaning.Logic
import Frontend.Proofs.Meaning.Simulation

/-!
# The meaning of expressions

Lowering an expression without effects writes code that computes its value, and leaves an operand
whose word holds the value. Number literals take no code; what is made from them is again a number
with an opposite, so a subtraction may change the sign in the text.
-/

namespace Frontend.Meaning

open SymbolTable Machine

/-- A passage computes an expression, whose value is then that of an operand. A literal operand is a
number that has an opposite. -/
structure Gives (c : List Instruction) (e : Expr) (o : Operand) (lo hi defined : Nat) : Prop where
  evaluates : Evaluates c e o.raw lo hi defined
  literal : o.kind = .literal → ∃ n, hasOpposite n = true ∧ o.raw = Spelling.ofInt n ∧
    ∀ σ, e.eval σ = some (.int n)

/-- A lowering that gives every expression its value. -/
def ValueOk (visit : Visit) : Prop :=
  ∀ {n : Node} {e : Expr} {c : Scoping} {round : Option String} {s : Lowering},
    Expr.ofNode? c n = some e → Follows c round s →
      Emits s (visit n) fun code _ s' => ∃ o, s'.operands = o :: s.operands ∧ Keeps s s' ∧
        Gives code e o s.supply.temps s'.supply.temps c.next

variable {visit : Visit} {c : Scoping} {round : Option String} {s s' s'' : Lowering} {n : Node}
  {e l r : Expr} {o left right : Operand} {code codeₗ codeᵣ : List Instruction} {w : String}
  {lo mid hi defined : Nat}
variable {node : Node} {op : Token} {word : String} {type : Tag}

theorem Gives.of_ident (h : Evaluates code e o.raw lo hi defined) (hk : o.kind = .ident) :
    Gives code e o lo hi defined :=
  ⟨h, fun hl => by rw [hk] at hl; exact nomatch hl⟩

theorem readWord?_of_hasOpposite {n : Int} (h : hasOpposite n = true) :
    Decimal.readWord? (Spelling.ofInt n) = some n := by
  unfold hasOpposite at h
  rw [Bool.and_eq_true] at h
  exact Word.readWord?_ofInt h.1

theorem gives_number {n : Int} {type : TypeName} (h : hasOpposite n = true) (he : ∀ σ, e.eval σ = some (.int n)) :
    Gives [] e (.literal (Spelling.ofInt n) type node) lo lo defined :=
  ⟨evaluates_number (readWord?_of_hasOpposite h) he, fun _ => ⟨n, h, rfl, he⟩⟩

theorem wrapWord_neg {n : Int} (h : hasOpposite n = true) : Decimal.wrapWord (-n) = -n :=
  Word.wrapWord_of_inWord (Bool.and_eq_true_iff.mp h).2

theorem hasOpposite_neg {n : Int} (h : hasOpposite n = true) : hasOpposite (-n) = true := by
  unfold hasOpposite at h ⊢
  rw [Int.neg_neg, Bool.and_comm]
  exact h

/-! ## Operands -/

/-- The value of an expression is an operand, and the stack is as it was. -/
theorem ValueOk.eval (hv : ValueOk visit) (hn : Expr.ofNode? c n = some e) (h : Follows c round s) :
    Emits s (Lower.eval visit n) fun code o s' => s'.operands = s.operands ∧ Keeps s s' ∧
      Gives code e o s.supply.temps s'.supply.temps c.next := by
  refine .forValue ((hv hn h).weaken ?_)
  rintro code _ s' ⟨o, hops, hk, hg⟩
  refine ⟨o, hops, truncate_append s' [o] s.operands hops, ?_, hg⟩
  exact ⟨hk.table, hk.rids, hk.processing⟩

/-- A literal is put into a temporary. -/
theorem Gives.materialize (h : Gives code e o lo s.supply.temps defined) :
    Emits s (Lower.materialize o) fun d o' s' => s'.operands = s.operands ∧ Keeps s s' ∧
      Evaluates (code ++ d) e o'.raw lo s'.supply.temps defined := by
  unfold Lower.materialize
  by_cases hl : o.isLiteral
  · rw [if_pos hl]
    obtain ⟨n, hn, hraw, he⟩ := h.literal (by simpa [Operand.isLiteral] using hl)
    refine .freshTemp fun s₁ hk₁ hops₁ htemps₁ => ?_
    refine .emitBind fun s₂ hk₂ hops₂ hsupply₂ => ?_
    refine .pure ⟨hops₂.trans hops₁, hk₁.trans hk₂, ?_⟩
    rw [hsupply₂, htemps₁]
    refine h.evaluates.unary (f := id) (fun σ => by rw [Option.map_id]; rfl) ?_ rfl
      (fun e => by cases e)
    intro m v hval
    have read := readWord?_of_hasOpposite hn
    rw [hraw] at hval ⊢
    rw [operand?_number m read] at hval
    cases hval
    simp only [compute, read]
    rfl
  · rw [if_neg hl]
    exact .pure ⟨rfl, .refl s, by rw [List.append_nil]; exact h.evaluates⟩

/-! ## Operators -/

/-- The opposite of a literal is its text with the other sign, every other opposite is computed. -/
theorem Gives.negate (h : Gives code e o lo s.supply.temps defined) :
    Emits s (Lower.negate o) fun d w s' => s'.operands = s.operands ∧ Keeps s s' ∧
      Evaluates (code ++ d) (.negate e) w lo s'.supply.temps defined := by
  unfold Lower.negate
  by_cases hl : (o.isLiteral && o.effective.isNumeric) = true
  · rw [if_pos hl]
    rw [Bool.and_eq_true] at hl
    obtain ⟨n, hn, hraw, he⟩ := h.literal (by simpa [Operand.isLiteral] using hl.1)
    have inverse : Decimal.readWord? (Word.opposite o.raw) = some (-n) := by
      unfold hasOpposite at hn
      rw [Bool.and_eq_true] at hn
      rw [hraw]
      exact Word.readWord?_opposite hn.2
    have value : ∀ σ, (Expr.negate e).eval σ = some (.int (-n)) := by
      intro σ
      simp only [Expr.eval, he, Option.map_some, Value.negate, Value.number, wrapWord_neg hn]
    refine .pure ⟨rfl, .refl s, ?_⟩
    rw [List.append_nil]
    exact h.evaluates.changeWord inverse (fun σ => by rw [he]; rfl) value
  · rw [if_neg hl]
    refine .freshTemp fun s₁ hk₁ hops₁ htemps₁ => ?_
    refine .emitBind fun s₂ hk₂ hops₂ hsupply₂ => ?_
    refine .pure ⟨hops₂.trans hops₁, hk₁.trans hk₂, ?_⟩
    rw [hsupply₂, htemps₁]
    refine h.evaluates.unary (f := Value.negate) (fun σ => rfl) ?_ rfl (fun e => by cases e)
    intro m v hval
    simp only [compute, hval]
    rfl

theorem relation?_name (r : Relation) : relation? r.name = some r := by
  cases r <;> decide

/-- A comparison: the order of the values, and then whether the relation holds. -/
theorem Gives.relate {relation : Relation}
    (hword : (Operator.ofText? word).bind Relation.ofOperator? = some relation)
    (hl : Evaluates codeₗ l left.raw lo mid defined) (hr : Evaluates codeᵣ r right.raw mid s.supply.temps defined) :
    Emits s (Lower.binary op word left right n) fun d o s' => s'.operands = s.operands ∧
      Keeps s s' ∧ Gives (codeₗ ++ codeᵣ ++ d) (.relate relation l r) o lo s'.supply.temps defined := by
  unfold Lower.binary
  rw [hword]
  refine .freshTemp fun s₁ hk₁ hops₁ htemps₁ => ?_
  refine .emitBind fun s₂ hk₂ hops₂ hsupply₂ => ?_
  refine .freshTemp fun s₃ hk₃ hops₃ htemps₃ => ?_
  refine .emitBind fun s₄ hk₄ hops₄ hsupply₄ => ?_
  refine .pure ⟨?_, ((hk₁.trans hk₂).trans hk₃).trans hk₄, .of_ident ?_ rfl⟩
  · rw [hops₄, hops₃, hops₂, hops₁]
  rw [hsupply₄, htemps₃, hsupply₂, htemps₁]
  refine hl.binary hr (f := Value.relate relation) ?_ ?_ ?_ (.temp (Nat.lt_succ_self _)) ?_
  · intro σ
    simp only [Expr.eval]
    cases l.eval σ <;> cases r.eval σ <;> rfl
  · intro is k ho m a b ha hb loops
    obtain ⟨horder, ho⟩ := occurs_cons.mp ho
    obtain ⟨hresult, -⟩ := occurs_cons.mp ho
    have compared : compute m ⟨.compare, [left.raw, right.raw, Word.temp s.supply.temps]⟩ =
        some (m.set (Word.temp s.supply.temps) (some (.order a b))) := by
      simp only [compute, ha, hb]
      rfl
    have related : compute (m.set (Word.temp s.supply.temps) (some (.order a b)))
        ⟨.relate, [Word.temp s.supply.temps, relation.name, Word.temp (s.supply.temps + 1)]⟩ =
        some ((m.set (Word.temp s.supply.temps) (some (.order a b))).set
          (Word.temp (s.supply.temps + 1)) (some (.value (.relate relation a b)))) := by
      simp only [compute]
      rw [Memory.set_self, relation?_name]
    refine ⟨_, (step_of_compute horder compared).trans (step_of_compute hresult related), ?_, operand?_temp _ _ _⟩
    exact (untouched_set_temp (le_refl _) _).trans (Nat.le_succ _)
      (untouched_set_temp (le_refl _) _)
  · exact .plain rfl (fun e => by cases e) (balanced_single rfl fun e => by cases e)
  · exact Nat.le_add_right _ 2

/-- One instruction for a sum or a product. -/
theorem Gives.instruction {op : Opcode} {f : Value → Value → Value} (hl : Evaluates codeₗ l left.raw lo mid defined)
    (hr : Evaluates codeᵣ r w mid s.supply.temps defined)
    (he : ∀ σ, e.eval σ = (l.eval σ).bind fun a => (r.eval σ).map (f a))
    (hop : ∀ m t a b, operand? m left.raw = some a → operand? m w = some b →
      compute m ⟨op, [left.raw, w, t]⟩ = some (m.set t (some (.value (f a b))))) (hopens : op.opensFrame = false)
    (hcloses : op ≠ .finish) : Emits s (do
        let result ← Lower.freshTemp
        Lower.emit op [left.raw, w, result]
        return .temp result type n) fun d o s' => s'.operands = s.operands ∧ Keeps s s' ∧
      Gives (codeₗ ++ codeᵣ ++ d) e o lo s'.supply.temps defined := by
  refine .freshTemp fun s₁ hk₁ hops₁ htemps₁ => ?_
  refine .emitBind fun s₂ hk₂ hops₂ hsupply₂ => ?_
  refine .pure ⟨hops₂.trans hops₁, hk₁.trans hk₂, .of_ident ?_ rfl⟩
  rw [hsupply₂, htemps₁]
  exact hl.pair hr he (fun m a b => hop m _ a b) hopens hcloses

/-- A sum, a difference or a product. A difference is a sum with the opposite. -/
theorem Gives.arith {a : Arith} (hnone : (Operator.ofText? word).bind Relation.ofOperator? = none)
    (hword : Arith.ofText? word = some a) (hl : Evaluates codeₗ l left.raw lo mid defined)
    (hr : Gives codeᵣ r right mid s.supply.temps defined) :
    Emits s (Lower.binary op word left right n) fun d o s' => s'.operands = s.operands ∧
      Keeps s s' ∧ Gives (codeₗ ++ codeᵣ ++ d) (.arith a l r) o lo s'.supply.temps defined := by
  have sum : ∀ m w t a b, operand? m left.raw = some a → operand? m w = some b →
      compute m ⟨.add, [left.raw, w, t]⟩ = some (m.set t (some (.value (a.add b)))) := by
    intro m w t a b ha hb
    simp only [compute, ha, hb]
    rfl
  unfold Lower.binary
  rw [hnone]
  refine .ofExcept fun type _ => ?_
  unfold Arith.ofText? at hword
  split at hword
  · cases hword
    refine .quiet rfl rfl ?_
    refine Gives.instruction hl hr.evaluates (f := Value.add) ?_ (fun m => sum m _) rfl
      fun e => by cases e
    intro σ
    simp only [Expr.eval]
    cases l.eval σ <;> cases r.eval σ <;> rfl
  · cases hword
    change Emits s (Lower.negate right >>= _) _
    refine .bind hr.negate ?_
    rintro d second s₁ ⟨hops₁, hk₁, hsecond⟩
    refine (Gives.instruction hl hsecond (e := .arith .sub l r) (f := Value.add) ?_
      (fun m => sum m _) rfl fun e => by cases e).weaken ?_
    · intro σ
      simp only [Expr.eval, Arith.apply]
      cases l.eval σ with
      | none => rfl
      | some a =>
        cases r.eval σ with
        | none => rfl
        | some b => exact congrArg some (Value.add_negate a b).symm
    · rintro d' o s₂ ⟨hops₂, hk₂, hg⟩
      refine ⟨hops₂.trans hops₁, hk₁.trans hk₂, ?_⟩
      simpa only [List.append_assoc] using hg
  · cases hword
    refine .quiet rfl rfl ?_
    refine Gives.instruction hl hr.evaluates (f := Value.mul) ?_ ?_ rfl fun e => by cases e
    · intro σ
      simp only [Expr.eval]
      cases l.eval σ <;> cases r.eval σ <;> rfl
    · intro m t a b ha hb
      simp only [compute, ha, hb]
      rfl
  · cases hword

/-! ## Nodes -/

/-- One instruction for an operator in front of its operand. -/
theorem Gives.apply (op : Opcode) (f : Value → Value) (h : Gives code l o lo s.supply.temps defined)
    (he : ∀ σ, e.eval σ = (l.eval σ).map f)
    (hop : ∀ m t v, operand? m o.raw = some v → compute m ⟨op, [o.raw, t]⟩ = some (m.set t (some (.value (f v)))))
    (hopens : op.opensFrame = false) (hcloses : op ≠ .finish) : Emits s (do
        let result ← Lower.freshTemp
        Lower.emit op [o.raw, result]
        Lower.push (.temp result type n)) fun d _ s' => ∃ o', s'.operands = o' :: s.operands ∧
      Keeps s s' ∧ Gives (code ++ d) e o' lo s'.supply.temps defined := by
  refine .freshTemp fun s₁ hk₁ hops₁ htemps₁ => ?_
  refine .emitBind fun s₂ hk₂ hops₂ hsupply₂ => ?_
  refine .push fun s₃ hk₃ hops₃ hsupply₃ => ?_
  refine ⟨_, by rw [hops₃, hops₂, hops₁], (hk₁.trans hk₂).trans hk₃, .of_ident ?_ rfl⟩
  rw [hsupply₃, hsupply₂, htemps₁]
  exact h.evaluates.unary he (fun m v => hop m _ v) hopens hcloses

theorem ValueOk.unary {operand : Node} (hv : ValueOk visit) (hn : Expr.ofNode? c (.unary op operand) = some e)
    (h : Follows c round s) :
    Emits s (Lower.unary visit op operand (.unary op operand)) fun code _ s' =>
      ∃ o, s'.operands = o :: s.operands ∧ Keeps s s' ∧ Gives code e o s.supply.temps s'.supply.temps c.next := by
  unfold Lower.unary
  unfold Expr.ofNode? at hn
  split at hn
  · rename_i hop
    obtain ⟨x, hx, rfl⟩ := Option.map_eq_some_iff.mp hn
    rw [hop]
    simp only
    cases hl : Operand.ofLiteral? (.unary op operand) with
    | some literal =>
      simp only [Operand.ofLiteral?, hop, beq_self_eq_true, if_true] at hl
      split at hl
      · rename_i v
        cases hl
        simp only [Expr.ofNode?] at hx
        split at hx
        · rename_i hword
          cases hx
          refine .push fun s' hk hops hsupply => ⟨_, hops, hk, ?_⟩
          rw [hsupply, wrapWord_neg hword]
          refine gives_number (hasOpposite_neg hword) fun σ => ?_
          simp only [Expr.eval, Option.map_some, Value.negate, Value.number, wrapWord_neg hword]
        · cases hx
      · simp only [Expr.ofNode?] at hx
        cases hx
      · cases hl
    | none =>
      simp only
      refine .bind (hv.eval hx h) ?_
      rintro code o s₁ ⟨hops₁, hk₁, hg⟩
      refine .unless fun _ => ?_
      rw [← hops₁]
      refine (hg.apply .negate Value.negate (e := .negate x) (fun σ => rfl) ?_ rfl fun e => by cases e).weaken ?_
      · intro m t v hval
        simp only [compute, hval]
        rfl
      · rintro d _ s₂ ⟨o', hops₂, hk₂, hg'⟩
        exact ⟨o', hops₂, hk₁.trans hk₂, hg'⟩
  · rename_i hop
    obtain ⟨x, hx, rfl⟩ := Option.map_eq_some_iff.mp hn
    rw [hop]
    refine .bind (hv.eval hx h) ?_
    rintro code o s₁ ⟨hops₁, hk₁, hg⟩
    rw [← hops₁]
    refine (hg.apply .not Value.not (e := .not x) (fun σ => rfl) ?_ rfl fun e => by cases e).weaken ?_
    · intro m t v hval
      simp only [compute, hval]
      rfl
    · rintro d _ s₂ ⟨o', hops₂, hk₂, hg'⟩
      exact ⟨o', hops₂, hk₁.trans hk₂, hg'⟩
  · cases hn

theorem ValueOk.binary {left right : Node} (hv : ValueOk visit)
    (hn : Expr.ofNode? c (.binary left op right) = some e) (h : Follows c round s) : Emits s (do
      let l ← Lower.eval visit left
      let r ← Lower.eval visit right
      Lower.push (← Lower.binary op op.literal l r (.binary left op right))) fun code _ s' =>
      ∃ o, s'.operands = o :: s.operands ∧ Keeps s s' ∧ Gives code e o s.supply.temps s'.supply.temps c.next := by
  simp only [Expr.ofNode?, Option.bind_eq_bind, Option.bind_eq_some_iff] at hn
  obtain ⟨l, hl, r, hr, hn⟩ := hn
  refine .bind (hv.eval hl h) ?_
  rintro codeₗ x s₁ ⟨hops₁, hk₁, hx⟩
  refine .bind (hv.eval hr (h.keeps hk₁)) ?_
  rintro codeᵣ y s₂ ⟨hops₂, hk₂, hy⟩
  have operation : Emits s₂ (Lower.binary op op.literal x y (.binary left op right))
      fun d o s' => s'.operands = s₂.operands ∧ Keeps s₂ s' ∧
        Gives (codeₗ ++ codeᵣ ++ d) e o s.supply.temps s'.supply.temps c.next := by
    split at hn
    · rename_i relation hrelation
      cases hn
      exact Gives.relate hrelation hx.evaluates hy.evaluates
    · rename_i hnone
      obtain ⟨a, ha, ⟨⟩⟩ := Option.bind_eq_some_iff.mp hn
      exact Gives.arith hnone ha hx.evaluates hy
  refine .bind operation ?_
  rintro d o s₃ ⟨hops₃, hk₃, hg⟩
  refine .push fun s₄ hk₄ hops₄ hsupply₄ => ?_
  refine ⟨o, by rw [hops₄, hops₃, hops₂, hops₁], ((hk₁.trans hk₂).trans hk₃).trans hk₄, ?_⟩
  rw [hsupply₄]
  simpa only [List.append_assoc, List.append_nil] using hg

/-- Outside of classes there are no members to be named. -/
theorem implicitMember_outside (h : s.processing = []) (name : String) :
    Lower.implicitMember name s = (.ok none, s) := by
  obtain ⟨session, files, out, operands, processing, scopes, file, source, declared⟩ := s
  cases h
  rfl

/-- A name that stands for a variable. -/
theorem emits_ident {name : Ident} (hn : Expr.ofNode? c (.ident name) = some e) (h : Follows c round s) :
    Emits s (Lower.ident name node) fun code _ s' => ∃ o, s'.operands = o :: s.operands ∧
      Keeps s s' ∧ Gives code e o s.supply.temps s'.supply.temps c.next := by
  simp only [Expr.ofNode?] at hn
  obtain ⟨x, hx, rfl⟩ := Option.map_eq_some_iff.mp hn
  unfold Lower.ident
  refine .unless fun _ => .quiet rfl rfl ?_
  cases hl : s.table.lookup name.name name.token.pos with
  | error d => exact .quiet (implicitMember_outside h.processing _) rfl Emits.fail
  | ok id =>
    refine .unless fun hne => ?_
    have target : (s.table.get id).sort ≠ .target := by
      intro hsort
      unfold Symbol.sort at hsort
      split at hsort <;> simp_all
    obtain ⟨-, hrid⟩ := h.lookup hx hl target
    obtain ⟨hraw, hkind, -⟩ := ofSymbol_shape s.table id
    refine .push fun s' hk hops hsupply => ⟨_, hops, hk, .of_ident ?_ hkind⟩
    rw [hsupply, hraw, hrid]
    exact evaluates_var (h.number_lt hx)

/-- If the nodes inside are given their values, so are the expressions made of them. -/
theorem ValueOk.visitWith (hv : ValueOk visit) : ValueOk (Lower.visitWith visit) := by
  intro n e c round s hn h
  cases n with
  | int token v =>
    simp only [Expr.ofNode?] at hn
    split at hn
    · rename_i hword
      cases hn
      refine .push fun s' hk hops hsupply => ⟨_, hops, hk, ?_⟩
      rw [hsupply]
      exact gives_number hword fun _ => rfl
    · cases hn
  | ident name => exact emits_ident hn h
  | unary op operand => exact hv.unary hn h
  | binary left op right => exact hv.binary hn h
  | group opening closing separator body =>
    cases body with
    | none =>
      simp only [Expr.ofNode?] at hn
      exact nomatch hn
    | some inner =>
      simp only [Expr.ofNode?] at hn
      cases inner with
      | block b =>
        simp only [Expr.ofNode?] at hn
        exact nomatch hn
      | _ => exact hv hn h
  | _ =>
    simp only [Expr.ofNode?] at hn
    exact nomatch hn

end Frontend.Meaning
