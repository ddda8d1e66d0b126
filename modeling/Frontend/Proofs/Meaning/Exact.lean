import Frontend.Proofs.Binding.Exact
import Frontend.Proofs.Meaning.Expression

/-!
# Expressions over exact integers

An expression over variables of integers is lowered to instructions that come to its value over exact
integers. They write the temporaries that lowering it takes, each of them once, and nothing else. That holds
in every state of lowering, for what names mean is read off the symbol table.
-/

namespace Frontend.Exact

open Meaning

open Machine (Cell Memory)

variable {tag : Tag} {op : Token}
variable {word : String} {operand : Node} {k : Int}

/-! ## Terms -/

/-- What an operator of arithmetic makes of two integers. -/
def ofArith : Arith → Int → Int → Int
  | .add, a, b => a + b
  | .sub, a, b => a - b
  | .mul, a, b => a * b

/-- Expressions without effects. A variable is known by its word. -/
inductive Term where
  | literal (n : Int)
  | var (word : String)
  | group (e : Term)
  | negate (e : Term)
  | not (e : Term)
  | arith (op : Arith) (left right : Term)
  | relate (relation : Relation) (left right : Term)
  deriving Repr, Inhabited

namespace Term

/-- The value of a term over exact integers. -/
def value (values : String → Int) : Term → Value
  | literal n => .int n
  | var w => .int (values w)
  | group e => e.value values
  | negate e => .int (-(e.value values).number)
  | not e => (e.value values).not
  | arith op l r => .int (ofArith op (l.value values).number (r.value values).number)
  | relate relation l r => .relate relation (l.value values) (r.value values)

/-- The type of a term: arithmetic is for integers only. -/
def type? : Term → Option TypeName
  | literal _ | var _ => some .int
  | group e => e.type?
  | negate e => if e.type? = some .int then some .int else none
  | not e => e.type?.map fun _ => .bool
  | arith _ l r => if l.type? = some .int ∧ r.type? = some .int then some .int else none
  | relate _ l r => if l.type?.isSome ∧ r.type?.isSome then some .bool else none

def words : Term → List String
  | literal _ => []
  | var w => [w]
  | group e | negate e | not e => e.words
  | arith _ l r | relate _ l r => l.words ++ r.words

/-- The memory holds the values of the variables. -/
def Held (e : Term) (values : String → Int) (m : Memory) : Prop :=
  ∀ w ∈ e.words, m w = some (.value (.int (values w)))

end Term

/-! ## Straight lines of instructions -/

/-- The value of an operand: a number, or what a word of the memory holds. -/
def operand? (m : Memory) (w : String) : Option Value :=
  match Decimal.readInt? w, m w with
  | some n, _ => some (.int n)
  | none, some (.value v) => some v
  | _, _ => none

/-- The memory behind an instruction, over exact integers. -/
def execute (m : Memory) (i : Instruction) : Option Memory :=
  match i.op, i.args with
  | .add, [a, b, x] => do
    return m.set x (some (.value (.int ((← operand? m a).number + (← operand? m b).number))))
  | .mul, [a, b, x] => do
    return m.set x (some (.value (.int ((← operand? m a).number * (← operand? m b).number))))
  | .negate, [a, x] => do return m.set x (some (.value (.int (-(← operand? m a).number))))
  | .not, [a, x] => do return m.set x (some (.value (← operand? m a).not))
  | .compare, [a, b, x] => do return m.set x (some (.order (← operand? m a) (← operand? m b)))
  | .relate, [a, name, x] =>
    match m a, Machine.relation? name with
    | some (.order v w), some r => some (m.set x (some (.value (.relate r v w))))
    | _, _ => none
  | _, _ => none

/-- The memory behind instructions one after another. -/
def run (m : Memory) (is : List Instruction) : Option Memory := is.foldlM execute m

/-- The word that an instruction of a straight line writes. -/
def target? (i : Instruction) : Option String := i.args.getLast?

section
variable {m m' m'' : Memory} {i : Instruction} {is js : List Instruction} {w x : String} {v : Value}
  {values : String → Int} {lo count : Nat}

theorem run_append (h : run m is = some m') : run m (is ++ js) = run m' js := by
  rw [run, List.foldlM_append]
  exact congrArg (· >>= fun m => js.foldlM execute m) h

/-- An instruction changes no word but the one it writes. -/
theorem execute_elsewhere (h : execute m i = some m') (hw : target? i ≠ some w) : m' w = m w := by
  obtain ⟨op, args⟩ := i
  have set : ∀ {x : String} {cell : Option Cell}, x ≠ w → (m.set x cell) w = m w :=
    fun hx => Machine.Memory.set_of_ne m hx.symm _
  unfold execute at h
  dsimp only at h
  split at h
  all_goals subst_eqs
  case h_1 | h_2 | h_5 =>
    obtain ⟨a, -, h⟩ := Option.bind_eq_some_iff.mp h
    obtain ⟨b, -, ⟨⟩⟩ := Option.bind_eq_some_iff.mp h
    exact set fun he => hw (congrArg some he)
  case h_3 | h_4 =>
    obtain ⟨a, -, ⟨⟩⟩ := Option.bind_eq_some_iff.mp h
    exact set fun he => hw (congrArg some he)
  case h_6 =>
    split at h
    · cases h
      exact set fun he => hw (congrArg some he)
    · cases h

theorem run_elsewhere (h : run m is = some m') (hw : ∀ i ∈ is, target? i ≠ some w) : m' w = m w := by
  induction is generalizing m with
  | nil =>
    cases h
    rfl
  | cons i is ih =>
    obtain ⟨m₁, hi, hrest⟩ := Option.bind_eq_some_iff.mp h
    exact (ih hrest fun j hj => hw j (List.mem_cons_of_mem i hj)).trans
      (execute_elsewhere hi (hw i List.mem_cons_self))

theorem operand?_number {n : Int} (h : Decimal.readInt? w = some n) (m : Memory) :
    operand? m w = some (.int n) := by
  unfold operand?
  rw [h]

theorem operand?_temp (m : Memory) (j : Nat) (v : Value) :
    operand? (m.set (Word.temp j) (some (.value v))) (Word.temp j) = some v := by
  unfold operand?
  rw [Word.readInt?_temp, Machine.Memory.set_self]

theorem operand?_var (hw : ∃ k, Word.IsNumbered w k) (h : m w = some (.value v)) : operand? m w = some v := by
  obtain ⟨k, hk⟩ := hw
  unfold operand?
  rw [Word.readInt?_numbered hk, h]

/-! ## Code that computes a term -/

/-- A word that stays what it is while later temporaries are written. -/
inductive Lasting (temps : Nat) : String → Prop where
  | number {w : String} {n : Int} (h : Decimal.readInt? w = some n) : Lasting temps w
  | temp {j : Nat} (h : j < temps) : Lasting temps (Word.temp j)
  | numbered {w : String} {k : Nat} (h : Word.IsNumbered w k) : Lasting temps w

/-- The words of temporaries in a row. -/
def temps (lo count : Nat) : List String := (List.range' lo count).map Word.temp

/-- The instructions compute the term and leave its value in a word. They write `count` temporaries from
`lo` on, each of them once. -/
structure Computes (is : List Instruction) (e : Term) (w : String) (lo count : Nat) : Prop where
  targets : is.map target? = (temps lo count).map some
  lasting : Lasting (lo + count) w
  words : ∀ w ∈ e.words, ∃ k, Word.IsNumbered w k
  run : ∀ values m, e.Held values m → ∃ m', run m is = some m' ∧ operand? m' w = some (e.value values)

theorem temps_append (lo count more : Nat) :
    temps lo count ++ temps (lo + count) more = temps lo (count + more) := by
  unfold temps
  rw [← List.map_append, List.range'_append_1]

/-- A word is not written by instructions that write other temporaries. -/
theorem not_target (htargets : is.map target? = (temps lo count).map some)
    (hw : ∀ j, lo ≤ j → j < lo + count → w ≠ Word.temp j) : ∀ i ∈ is, target? i ≠ some w := by
  intro i hi he
  have hmem : some w ∈ (temps lo count).map some := htargets ▸ List.mem_map.mpr ⟨i, hi, he⟩
  obtain ⟨x, hx, ⟨⟩⟩ := List.mem_map.mp hmem
  obtain ⟨j, hj, rfl⟩ := List.mem_map.mp hx
  obtain ⟨hlow, hhigh⟩ := List.mem_range'_1.mp hj
  exact hw j hlow hhigh rfl

/-- A lasting word has the same value behind instructions that write later temporaries. -/
theorem Lasting.operand? (h : Lasting lo w) (hrun : run m is = some m')
    (htargets : is.map target? = (temps lo count).map some) : operand? m' w = operand? m w := by
  have same : (∀ j, lo ≤ j → j < lo + count → w ≠ Word.temp j) →
      Exact.operand? m' w = Exact.operand? m w := by
    intro hw
    unfold Exact.operand?
    rw [run_elsewhere hrun (not_target htargets hw)]
  cases h with
  | number h => rw [operand?_number h, operand?_number h]
  | @temp j hj =>
    refine same fun i hi _ he => ?_
    have := Word.temp_inj he
    omega
  | numbered h => exact same fun j _ _ he => Word.not_isTemp_of_isNumbered h ⟨j, he⟩

namespace Computes

variable {e l r : Term} {wₗ wᵣ : String} {isₗ isᵣ : List Instruction} {more : Nat}

/-- Instructions that only write temporaries leave the variables alone. -/
theorem held (h : Computes is e w lo count) (hrun : Exact.run m is = some m')
    (hwords : ∀ x ∈ r.words, ∃ k, Word.IsNumbered x k) (hr : r.Held values m) : r.Held values m' := by
  intro x hx
  obtain ⟨k, hk⟩ := hwords x hx
  rw [run_elsewhere hrun (not_target h.targets fun j _ _ he => Word.not_isTemp_of_isNumbered hk ⟨j, he⟩)]
  exact hr x hx

/-- Behind the code of both operands, both values are there. -/
theorem both (hl : Computes isₗ l wₗ lo count) (hr : Computes isᵣ r wᵣ (lo + count) more)
    (hheldₗ : l.Held values m) (hheldᵣ : r.Held values m) :
    ∃ m', Exact.run m (isₗ ++ isᵣ) = some m' ∧ Exact.operand? m' wₗ = some (l.value values) ∧
      Exact.operand? m' wᵣ = some (r.value values) := by
  obtain ⟨m₁, hrun, hval⟩ := hl.run values m hheldₗ
  obtain ⟨m₂, hrun', hval'⟩ := hr.run values m₁ (hl.held hrun hr.words hheldᵣ)
  refine ⟨m₂, (run_append hrun).trans hrun', ?_, hval'⟩
  rw [hl.lasting.operand? hrun' hr.targets, hval]

theorem targets_both (hl : isₗ.map target? = (temps lo count).map some)
    (hr : isᵣ.map target? = (temps (lo + count) more).map some) :
    (isₗ ++ isᵣ).map target? = (temps lo (count + more)).map some := by
  rw [List.map_append, hl, hr, ← List.map_append, temps_append]

theorem targets_next (h : is.map target? = (temps lo count).map some)
    (hi : target? i = some (Word.temp (lo + count))) : (is ++ [i]).map target? = (temps lo (count + 1)).map some :=
  targets_both h (by rw [List.map_singleton, hi]; rfl)

theorem lasting_temp : Lasting (lo + (count + 1)) (Word.temp (lo + count)) := .temp (by omega)

/-- One more instruction, which makes the value out of that of a part. -/
theorem unary (h : Computes is l w lo count) (hwords : e.words = l.words)
    (htarget : target? i = some (Word.temp (lo + count)))
    (hexecute : ∀ values m, Exact.operand? m w = some (l.value values) →
      execute m i = some (m.set (Word.temp (lo + count)) (some (.value (e.value values))))) :
    Computes (is ++ [i]) e (Word.temp (lo + count)) lo (count + 1) where
  targets := targets_next h.targets htarget
  lasting := lasting_temp
  words := hwords ▸ h.words
  run := fun values m hheld => by
    have hheld' : l.Held values m := by rwa [Term.Held, ← hwords]
    obtain ⟨m₁, hrun, hval⟩ := h.run values m hheld'
    refine ⟨_, ?_, operand?_temp m₁ (lo + count) _⟩
    rw [run_append hrun]
    exact Option.bind_eq_some_iff.mpr ⟨_, hexecute values m₁ hval, rfl⟩

section
variable (hl : Computes isₗ l wₗ lo count) (hr : Computes isᵣ r wᵣ (lo + count) more)
include hl hr

theorem words_both : ∀ w ∈ l.words ++ r.words, ∃ k, Word.IsNumbered w k :=
  List.forall_mem_append.mpr ⟨hl.words, hr.words⟩

/-- One more instruction, which makes the value out of those of two parts. -/
theorem binary (hwords : e.words = l.words ++ r.words) (htarget : target? i = some (Word.temp (lo + (count + more))))
    (hexecute : ∀ values m, Exact.operand? m wₗ = some (l.value values) →
      Exact.operand? m wᵣ = some (r.value values) →
      execute m i = some (m.set (Word.temp (lo + (count + more))) (some (.value (e.value values))))) :
    Computes (isₗ ++ isᵣ ++ [i]) e (Word.temp (lo + (count + more))) lo (count + more + 1) where
  targets := targets_next (targets_both hl.targets hr.targets) htarget
  lasting := lasting_temp
  words := hwords ▸ hl.words_both hr
  run := fun values m hheld => by
    have hheld' : ∀ w ∈ l.words ++ r.words, m w = some (.value (.int (values w))) := by
      rw [← hwords]
      exact hheld
    obtain ⟨hheldₗ, hheldᵣ⟩ := List.forall_mem_append.mp hheld'
    obtain ⟨m₁, hrun, hvalₗ, hvalᵣ⟩ := hl.both hr hheldₗ hheldᵣ
    refine ⟨_, ?_, operand?_temp m₁ _ _⟩
    rw [run_append hrun]
    exact Option.bind_eq_some_iff.mpr ⟨_, hexecute values m₁ hvalₗ hvalᵣ, rfl⟩

/-- A comparison takes two instructions: the order of the values, and whether the relation holds. -/
theorem relate (relation : Relation) :
    Computes (isₗ ++ isᵣ ++ [⟨.compare, [wₗ, wᵣ, Word.temp (lo + (count + more))]⟩,
        ⟨.relate, [Word.temp (lo + (count + more)), relation.name, Word.temp (lo + (count + more) + 1)]⟩])
      (.relate relation l r) (Word.temp (lo + (count + more) + 1)) lo (count + more + 2) where
  targets := targets_both (targets_both hl.targets hr.targets) rfl
  lasting := .temp (by omega)
  words := hl.words_both hr
  run := fun values m hheld => by
    obtain ⟨hheldₗ, hheldᵣ⟩ := List.forall_mem_append.mp hheld
    obtain ⟨m₁, hrun, hvalₗ, hvalᵣ⟩ := hl.both hr hheldₗ hheldᵣ
    have hcompare : execute m₁ ⟨.compare, [wₗ, wᵣ, Word.temp (lo + (count + more))]⟩ =
        some (m₁.set (Word.temp (lo + (count + more))) (some (.order (l.value values) (r.value values)))) := by
      simp only [execute, hvalₗ, hvalᵣ]
      rfl
    have hrelate : ∀ m₂ : Memory, m₂ (Word.temp (lo + (count + more))) =
        some (.order (l.value values) (r.value values)) →
        execute m₂ ⟨.relate, [Word.temp (lo + (count + more)), relation.name,
          Word.temp (lo + (count + more) + 1)]⟩ = some (m₂.set (Word.temp (lo + (count + more) + 1))
            (some (.value ((Term.relate relation l r).value values)))) := by
      intro m₂ hm₂
      simp only [execute, hm₂, relation?_name]
      rfl
    have hsecond := hrelate _ (Machine.Memory.set_self m₁ _ _)
    exact ⟨_, (run_append hrun).trans (Option.bind_eq_some_iff.mpr ⟨_, hcompare,
      Option.bind_eq_some_iff.mpr ⟨_, hsecond, rfl⟩⟩), operand?_temp _ _ _⟩

end

/-- The opposite of a number is its text with the other sign. -/
theorem opposite {n : Int} (h : Computes is e (Spelling.ofInt n) lo count)
    (hvalue : ∀ values, e.value values = .int n) :
    Computes is (.negate e) (Word.opposite (Spelling.ofInt n)) lo count where
  targets := h.targets
  lasting := .number (Word.readInt?_opposite n)
  words := h.words
  run := fun values m hheld => by
    obtain ⟨m', hrun, -⟩ := h.run values m hheld
    refine ⟨m', hrun, ?_⟩
    rw [operand?_number (Word.readInt?_opposite n), Term.value, hvalue]
    rfl

/-- Numbers and variables take no code. -/
theorem literal {n : Int} (hvalue : ∀ values, e.value values = .int n) (hwords : e.words = []) :
    Computes [] e (Spelling.ofInt n) lo 0 where
  targets := rfl
  lasting := .number (Word.readInt?_ofInt n)
  words := by simp [hwords]
  run := fun _ m _ => ⟨m, rfl, by rw [operand?_number (Word.readInt?_ofInt n), hvalue]⟩

theorem var (hw : ∃ k, Word.IsNumbered w k) : Computes [] (.var w) w lo 0 where
  targets := rfl
  lasting := .numbered hw.choose_spec
  words := List.forall_mem_singleton.mpr hw
  run := fun _ m hheld => ⟨m, rfl, operand?_var hw (hheld w List.mem_cons_self)⟩

end Computes

end

/-! ## Expressions and their terms -/

/-- A name stands for a variable or a parameter of integers, which has a word. -/
structure IsInteger (t : SymbolTable) (name : Ident) (w : String) : Prop where
  plain : name.labels = []
  found : ∃ id, t.lookup name.name name.token.pos = .ok id ∧ (t.get id).rid = w ∧
    (Operand.ofSymbol t id).effective.is .int = true
  numbered : ∃ k, Word.IsNumbered w k

/-- An expression without effects as a term, nested no deeper than the given number of levels. Literals have
an opposite of 64 bits. -/
inductive Reads (t : SymbolTable) : Nat → Node → Term → Prop where
  | literal {levels : Nat} {token : Token} {n : Int} (h : hasOpposite n = true) :
      Reads t (levels + 1) (.int token n) (.literal n)
  | var {levels : Nat} {name : Ident} {w : String} (h : IsInteger t name w) :
      Reads t (levels + 1) (.ident name) (.var w)
  | group {levels : Nat} {opener closer : Token} {n : Node} {e : Term} (h : Reads t levels n e) :
      Reads t (levels + 1) (.group opener closer .paren (some n)) (.group e)
  | negate {levels : Nat} {op : Token} {n : Node} {e : Term} (hop : op.kind = .op .minus)
      (h : Reads t levels n e) : Reads t (levels + 1) (.unary op n) (.negate e)
  | not {levels : Nat} {op : Token} {n : Node} {e : Term} (hop : op.kind = .op .not)
      (h : Reads t levels n e) : Reads t (levels + 1) (.unary op n) (.not e)
  | arith {levels : Nat} {op : Token} {a : Arith} {left right : Node} {l r : Term}
      (hop : Arith.ofText? op.literal = some a) (hl : Reads t levels left l) (hr : Reads t levels right r) :
      Reads t (levels + 1) (.binary left op right) (.arith a l r)
  | relate {levels : Nat} {op : Token} {relation : Relation} {left right : Node} {l r : Term}
      (hop : (Operator.ofText? op.literal).bind Relation.ofOperator? = some relation)
      (hl : Reads t levels left l) (hr : Reads t levels right r) :
      Reads t (levels + 1) (.binary left op right) (.relate relation l r)

/-- What an operand is known to be: it has the type of its term, and a literal is a number. -/
structure Gives (is : List Instruction) (e : Term) (type : TypeName) (o : Operand) (lo count : Nat) : Prop where
  computes : Computes is e o.raw lo count
  type : o.effective.is type = true
  literal : o.isLiteral = true → ∃ n, o.raw = Spelling.ofInt n ∧ ∀ values, e.value values = .int n

/-- The state behind an expression: code is written, and one operand is pushed. -/
def pushed (s : Lowering) (count : Nat) (is : List Instruction) (o : Operand) : Lowering :=
  { s.wrote count is with operands := o :: s.operands }

/-- What lowering a term comes to: it is lowered if it has a type, and refused otherwise. -/
inductive Outcome (p : Lower Unit) (e : Term) (s : Lowering) : Prop where
  | lowered {type : TypeName} (o : Operand) (is : List Instruction) (count : Nat) (htype : e.type? = some type)
      (hp : p s = (.ok (), pushed s count is o)) (h : Gives is e type o s.supply.temps count)
  | refused {f : Failure} {s' : Lowering} (htype : e.type? = none) (hp : p s = (.error f, s'))

/-- What the last step of a term comes to, behind the code of its parts. -/
inductive Makes (p : Lower Operand) (e : Term) (parts : List Instruction) (lo count : Nat) (s : Lowering) :
    Prop where
  | made {type : TypeName} (o : Operand) (is : List Instruction) (more : Nat) (htype : e.type? = some type)
      (hp : p s = (.ok o, s.wrote more is)) (h : Gives (parts ++ is) e type o lo (count + more))
  | refused {f : Failure} {s' : Lowering} (htype : e.type? = none) (hp : p s = (.error f, s'))

section
variable {α : Type} {p : Lower Unit} {visit : Visit} {s s' : Lowering} {t : SymbolTable} {n : Node}
  {e l r : Term} {x y o : Operand} {is isₗ isᵣ : List Instruction} {lo count more : Nat} {type typeₗ typeᵣ : TypeName}

/-! ### Types -/

theorem is_eq (h : tag.is type = true) (other : TypeName) : tag.is other = (other == type) := by
  cases tag with
  | missing => cases h
  | mk kind name rid groups pos =>
    cases kind with
    | type =>
      obtain ⟨hrid, hname⟩ : rid.isEmpty = true ∧ name = type.text := by simpa [Tag.is] using h
      rw [Tag.is, hrid, hname]
      cases type <;> cases other <;> decide
    | _ => cases h

theorem isMissing_eq (h : tag.is type = true) : tag.isMissing = false := by
  cases tag with
  | missing => cases h
  | mk => rfl

/-- A term is an integer or a truth value. -/
theorem type_cases (h : e.type? = some type) : type = .int ∨ type = .bool := by
  induction e generalizing type with
  | literal | var =>
    cases h
    exact .inl rfl
  | group e ih => exact ih h
  | negate e =>
    obtain ⟨-, ⟨⟩⟩ := Option.ite_none_right_eq_some.mp h
    exact .inl rfl
  | not e =>
    obtain ⟨_, -, rfl⟩ := Option.map_eq_some_iff.mp h
    exact .inr rfl
  | arith op l r =>
    obtain ⟨-, ⟨⟩⟩ := Option.ite_none_right_eq_some.mp h
    exact .inl rfl
  | relate relation l r =>
    obtain ⟨-, ⟨⟩⟩ := Option.ite_none_right_eq_some.mp h
    exact .inr rfl

/-- Arithmetic is for integers; between integers and truth values there is none. -/
theorem arithmeticType_eq (op : Token) (word : String) {left right : Tag} (hl : left.is typeₗ = true)
    (hr : right.is typeᵣ = true) (hₗ : typeₗ = .int ∨ typeₗ = .bool) (hᵣ : typeᵣ = .int ∨ typeᵣ = .bool) :
    (typeₗ = .int ∧ typeᵣ = .int ∧ Lower.arithmeticType op word left right = .ok (.ofType .int)) ∨
      (¬ (typeₗ = .int ∧ typeᵣ = .int) ∧ ∃ d, Lower.arithmeticType op word left right = .error d) := by
  unfold Lower.arithmeticType
  simp only [Tag.isAny, Tag.isNumeric, isMissing_eq hl, isMissing_eq hr, is_eq hl, is_eq hr]
  rcases hₗ with rfl | rfl <;> rcases hᵣ with rfl | rfl <;>
    simp +decide

/-! ### Steps of lowering -/

theorem eval_of_visit (h : visit n s = (.ok (), pushed s count is o)) :
    Lower.eval visit n s = (.ok o, s.wrote count is) := by
  unfold Lower.eval Lower.forValue
  simp only [h]
  change (if (pushed s count is o).operands.length ≤ s.operands.length then _ else _) = _
  rw [if_neg (by simp [pushed])]
  refine congrArg (Prod.mk (Except.ok o)) ?_
  simp [Lower.truncate, pushed, Lowering.wrote]

/-- The opposite of an integer: a literal changes its sign, all else takes an instruction. -/
theorem negate_eq (hg : Gives is e .int o lo count) (hs : s.supply.temps = lo + count) :
    ∃ w js more, Lower.negate o s = (.ok w, s.wrote more js) ∧
      Computes (is ++ js) (.negate e) w lo (count + more) := by
  have hnumeric : o.effective.isNumeric = true := by
    rw [Tag.isNumeric, is_eq hg.type, is_eq hg.type]
    rfl
  cases hliteral : o.isLiteral with
  | true =>
    obtain ⟨k, hraw, hvalue⟩ := hg.literal hliteral
    refine ⟨Word.opposite o.raw, [], 0, ?_, ?_⟩
    · unfold Lower.negate
      rw [hliteral, hnumeric]
      rfl
    · have hcomputes := hg.computes
      rw [hraw] at hcomputes ⊢
      rw [List.append_nil]
      exact hcomputes.opposite hvalue
  | false =>
    refine ⟨Word.temp (lo + count), [⟨.negate, [o.raw, Word.temp (lo + count)]⟩], 1, ?_, ?_⟩
    · unfold Lower.negate
      rw [hliteral, Bool.false_and, if_neg Bool.false_ne_true, Lower.freshTemp_bind, hs]
      rfl
    · refine hg.computes.unary rfl rfl fun values m hval => ?_
      simp only [execute, hval]
      rfl

theorem is_ofType (type : TypeName) : (Tag.ofType type).is type = true := by
  simp [Tag.ofType, Tag.is]

/-- What is computed into a temporary is known by its type. -/
theorem Gives.of_computes {k : Nat} (h : Computes is e (Word.temp k) lo count) (htag : tag.is type = true) :
    Gives is e type (.temp (Word.temp k) tag n) lo count where
  computes := h
  type := by
    have heffective : (Operand.temp (Word.temp k) tag n).effective = tag := by
      rw [Operand.temp, Operand.effective, isMissing_eq htag, if_neg Bool.false_ne_true]
      simp [Tag.isMissing]
    rw [heffective, htag]
  literal := nofun

/-- A sum, a difference or a product of integers. -/
theorem binary_arith {a : Arith} (hop : Arith.ofText? word = some a) (hl : Gives isₗ l typeₗ x lo count)
    (hr : Gives isᵣ r typeᵣ y (lo + count) more) (hₗ : l.type? = some typeₗ) (hᵣ : r.type? = some typeᵣ)
    (hs : s.supply.temps = lo + (count + more)) :
    Makes (Lower.binary op word x y n) (.arith a l r) (isₗ ++ isᵣ) lo (count + more) s := by
  have hrelation : (Operator.ofText? word).bind Relation.ofOperator? = none := by
    unfold Arith.ofText? at hop
    split at hop <;> first | rfl | decide | cases hop
  unfold Lower.binary
  rw [hrelation]
  dsimp only
  have types := arithmeticType_eq op word hl.type hr.type (type_cases hₗ) (type_cases hᵣ)
  rcases types with ⟨rfl, rfl, htype⟩ | ⟨hne, d, htype⟩
  · have hint : (Term.arith a l r).type? = some .int := if_pos ⟨hₗ, hᵣ⟩
    rw [htype]
    unfold Arith.ofText? at hop
    split at hop
    · cases hop
      refine .made (.temp (Word.temp s.supply.temps) (.ofType .int) n)
        [⟨.add, [x.raw, y.raw, Word.temp s.supply.temps]⟩] 1 hint rfl ?_
      rw [hs]
      refine .of_computes (hl.computes.binary hr.computes rfl rfl fun values m hₗ hᵣ => ?_) (is_ofType _)
      simp only [execute, hₗ, hᵣ]
      rfl
    · cases hop
      obtain ⟨w, js, k, hnegate, hcomputes⟩ := negate_eq (s := s) hr (by rw [hs, Nat.add_assoc])
      refine .made (.temp (Word.temp (s.supply.temps + k)) (.ofType .int) n)
        (js ++ [⟨.add, [x.raw, w, Word.temp (s.supply.temps + k)]⟩]) (k + 1) hint ?_ ?_
      · change (Lower.negate y >>= _) s = _
        rw [Lower.bind_of_ok hnegate, Lower.freshTemp_bind]
        change (Lower.emit .add _ >>= fun _ => pure _) ((s.wrote k js).wrote 1 []) = _
        rw [Lower.emit_bind, Lowering.wrote_wrote, Lowering.wrote_wrote]
        rfl
      · have hword : s.supply.temps + k = lo + (count + (more + k)) := by omega
        have hsum : Computes
            (isₗ ++ (isᵣ ++ js) ++ [⟨.add, [x.raw, w, Word.temp (lo + (count + (more + k)))]⟩])
            (.arith .sub l r) (Word.temp (lo + (count + (more + k)))) lo (count + (more + k) + 1) := by
          refine hl.computes.binary hcomputes rfl rfl fun values m hₗ hᵣ => ?_
          simp only [execute, hₗ, hᵣ]
          refine congrArg some (congrArg (m.set _) ?_)
          simp only [Term.value, ofArith, Value.number, Int.sub_eq_add_neg]
        rw [hword, show count + more + (k + 1) = count + (more + k) + 1 by omega]
        simp only [List.append_assoc] at hsum ⊢
        exact .of_computes hsum (is_ofType _)
    · cases hop
      refine .made (.temp (Word.temp s.supply.temps) (.ofType .int) n)
        [⟨.mul, [x.raw, y.raw, Word.temp s.supply.temps]⟩] 1 hint rfl ?_
      rw [hs]
      refine .of_computes (hl.computes.binary hr.computes rfl rfl fun values m hₗ hᵣ => ?_) (is_ofType _)
      simp only [execute, hₗ, hᵣ]
      rfl
    · cases hop
  · rw [htype]
    refine .refused (if_neg ?_) rfl
    rintro ⟨hl', hr'⟩
    exact hne ⟨Option.some.inj (hₗ.symm.trans hl'), Option.some.inj (hᵣ.symm.trans hr')⟩

/-- A comparison of two values. -/
theorem binary_relate {relation : Relation} (hop : (Operator.ofText? word).bind Relation.ofOperator? = some relation)
    (hl : Gives isₗ l typeₗ x lo count) (hr : Gives isᵣ r typeᵣ y (lo + count) more) (hₗ : l.type? = some typeₗ)
    (hᵣ : r.type? = some typeᵣ) (hs : s.supply.temps = lo + (count + more)) :
    Makes (Lower.binary op word x y n) (.relate relation l r) (isₗ ++ isᵣ) lo (count + more) s := by
  have hbool : (Term.relate relation l r).type? = some .bool := by
    simp only [Term.type?, hₗ, hᵣ, Option.isSome_some, and_self, if_true]
  unfold Lower.binary
  rw [hop]
  dsimp only
  refine .made (.temp (Word.temp (s.supply.temps + 1)) (.ofType .bool) n)
    [⟨.compare, [x.raw, y.raw, Word.temp s.supply.temps]⟩,
      ⟨.relate, [Word.temp s.supply.temps, relation.name, Word.temp (s.supply.temps + 1)]⟩] 2 hbool ?_ ?_
  · rw [Lower.freshTemp_bind, Lower.emit_bind, Lower.freshTemp_bind, Lower.emit_bind]
    simp only [Lowering.wrote_wrote]
    rfl
  · rw [hs]
    exact .of_computes (hl.computes.relate hr.computes relation) (is_ofType _)

/-! ### Nodes -/

theorem Outcome.binary {left right : Node} (hl : Outcome (visit left) l s)
    (hr : ∀ s' : Lowering, s'.table = s.table → Outcome (visit right) r s')
    (hnone : l.type? = none ∨ r.type? = none → e.type? = none)
    (hmakes : ∀ {isₗ isᵣ : List Instruction} {typeₗ typeᵣ : TypeName} {x y : Operand} {lo count more : Nat}
      {s : Lowering}, Gives isₗ l typeₗ x lo count → Gives isᵣ r typeᵣ y (lo + count) more →
      l.type? = some typeₗ → r.type? = some typeᵣ → s.supply.temps = lo + (count + more) →
      Makes (Lower.binary op op.literal x y (.binary left op right)) e (isₗ ++ isᵣ) lo (count + more) s) :
    Outcome (Lower.visitWith visit (.binary left op right)) e s := by
  change Outcome (Lower.eval visit left >>= fun x => Lower.eval visit right >>= fun y =>
    Lower.binary op op.literal x y (.binary left op right) >>= Lower.push) e s
  cases hl with
  | refused htype hp => exact .refused (hnone (.inl htype)) (Lower.bind_of_error (Lower.eval_of_error hp) _)
  | lowered x isₗ count hₗ hp hgₗ =>
    cases hr (s.wrote count isₗ) rfl with
    | refused htype hp' =>
      exact .refused (hnone (.inr htype)) ((Lower.bind_of_ok (eval_of_visit hp) _).trans
        (Lower.bind_of_error (Lower.eval_of_error hp') _))
    | lowered y isᵣ more hᵣ hp' hgᵣ =>
      have first := (Lower.bind_of_ok (eval_of_visit hp) fun x => Lower.eval visit right >>= fun y =>
        Lower.binary op op.literal x y (.binary left op right) >>= Lower.push).trans
        (Lower.bind_of_ok (eval_of_visit hp') _)
      rw [Lowering.wrote_wrote] at first
      cases hmakes (s := s.wrote (count + more) (isₗ ++ isᵣ)) hgₗ hgᵣ hₗ hᵣ rfl with
      | refused htype hp'' => exact .refused htype (first.trans (Lower.bind_of_error hp'' _))
      | made o is total htype hp'' hg =>
        refine .lowered o _ _ htype (first.trans ((Lower.bind_of_ok hp'' _).trans ?_)) hg
        rw [Lowering.wrote_wrote]
        rfl

/-- One instruction for an operator in front of its operand. -/
theorem Outcome.apply {op : Opcode} {a : Term} (ha : Computes is a o.raw s.supply.temps count)
    (hwords : e.words = a.words) (htype : e.type? = some type) (htag : tag.is type = true)
    (hexecute : ∀ values m w, operand? m o.raw = some (a.value values) →
      execute m ⟨op, [o.raw, w]⟩ = some (m.set w (some (.value (e.value values))))) (hp : p s = (do
      let result ← Lower.freshTemp
      Lower.emit op [o.raw, result]
      Lower.push (.temp result tag n)) (s.wrote count is)) : Outcome p e s := by
  refine .lowered (.temp (Word.temp (s.supply.temps + count)) tag n)
    (is ++ [⟨op, [o.raw, Word.temp (s.supply.temps + count)]⟩]) (count + 1) htype ?_
    (.of_computes (ha.unary hwords rfl fun values m => hexecute values m _) htag)
  rw [hp, Lower.freshTemp_bind, Lowering.wrote_wrote, Lower.emit_bind, Lowering.wrote_wrote, List.append_nil]
  rfl

/-- A minus in front of an operand that is no literal. -/
theorem Outcome.negate (hop : op.kind = .op .minus) (hliteral : Operand.ofLiteral? (.unary op operand) = none)
    (h : Outcome (visit operand) e s) : Outcome (Lower.visitWith visit (.unary op operand)) (.negate e) s := by
  change Outcome (Lower.unary visit op operand (.unary op operand)) _ s
  unfold Lower.unary
  rw [hop]
  dsimp only
  rw [hliteral]
  dsimp only
  cases h with
  | refused htype hp =>
    refine .refused (if_neg ?_) (Lower.bind_of_error (Lower.eval_of_error hp) _)
    rw [htype]
    exact nofun
  | @lowered type o is count htype hp hg =>
    have hcheck : (!o.effective.isAny && !o.effective.isNumeric) = !(type == .int) := by
      rw [Tag.isAny, Tag.isNumeric, isMissing_eq hg.type, is_eq hg.type, is_eq hg.type, is_eq hg.type]
      rcases type_cases htype with rfl | rfl <;> decide
    have first := Lower.bind_of_ok (eval_of_visit hp) fun o : Operand => do
      if !o.effective.isAny && !o.effective.isNumeric then
        Lower.fail (Complaint.invalidOperand op op.literal o.effective)
      let result ← Lower.freshTemp
      Lower.emit .negate [o.raw, result]
      Lower.push (.temp result o.effective (.unary op operand))
    rw [hcheck] at first
    rcases type_cases htype with rfl | rfl
    · refine .apply hg.computes rfl (if_pos htype) hg.type (fun values m w hval => ?_) first
      simp only [execute, hval]
      rfl
    · refine .refused (if_neg ?_) first
      rw [htype]
      exact nofun

theorem Outcome.not (hop : op.kind = .op .not) (h : Outcome (visit operand) e s) :
    Outcome (Lower.visitWith visit (.unary op operand)) (.not e) s := by
  change Outcome (Lower.unary visit op operand (.unary op operand)) _ s
  unfold Lower.unary
  rw [hop]
  dsimp only
  cases h with
  | refused htype hp =>
    exact .refused (by rw [Term.type?, htype, Option.map_none]) (Lower.bind_of_error (Lower.eval_of_error hp) _)
  | lowered o is count htype hp hg =>
    refine .apply hg.computes rfl ?_ (is_ofType .bool) (fun values m w hval => ?_)
      (Lower.bind_of_ok (eval_of_visit hp) _)
    · rw [Term.type?, htype, Option.map_some]
    · simp only [execute, hval]
      rfl

/-- A number, which is an integer of known type. -/
theorem gives_literal (hvalue : ∀ values, e.value values = .int k) (hwords : e.words = []) :
    Gives [] e .int (.literal (Spelling.ofInt k) .int n) lo 0 where
  computes := .literal hvalue hwords
  type := is_ofType .int
  literal := fun _ => ⟨k, rfl, hvalue⟩

theorem Outcome.push (o : Operand) (htype : e.type? = some type) (h : Gives [] e type o s.supply.temps 0)
    (hp : p s = Lower.push o s) : Outcome p e s :=
  .lowered o [] 0 htype (hp.trans (by rw [pushed, Lowering.wrote_zero]; rfl)) h

/-- A name of a variable, which is its own operand. -/
theorem Outcome.ident {name : Ident} {w : String} (h : IsInteger s.table name w) :
    Outcome (Lower.visitWith visit (.ident name)) (.var w) s := by
  obtain ⟨id, hlookup, hrid, htype⟩ := h.found
  obtain ⟨hraw, hkind, -⟩ := ofSymbol_shape s.table id
  refine .push (.ofSymbol s.table id) rfl ⟨?_, htype, ?_⟩ ?_
  · rw [hraw, hrid]
    exact .var h.numbered
  · intro hliteral
    rw [Operand.isLiteral, hkind] at hliteral
    cases hliteral
  · change Lower.ident name (.ident name) s = _
    unfold Lower.ident
    rw [h.plain, if_neg (by decide)]
    beta_reduce
    rw [Lower.table_bind, hlookup]
    dsimp only
    split
    case h_1 hdetail =>
      -- the target of a jump has no type
      rw [Operand.ofSymbol, hdetail] at htype
      cases htype
    case h_2 => rfl

/-- The opposite of a number literal is a number literal. -/
theorem Outcome.opposite {token : Token} (hop : op.kind = .op .minus) (hk : hasOpposite k = true) :
    Outcome (Lower.visitWith visit (.unary op (.int token k))) (.negate (.literal k)) s := by
  refine Outcome.push (.literal (Spelling.ofInt (-k)) .int (.unary op (.int token k))) rfl
    (gives_literal (fun _ => rfl) rfl) ?_
  change Lower.unary visit op (.int token k) _ s = _
  unfold Lower.unary
  simp only [hop, Operand.ofLiteral?, beq_self_eq_true, if_true, wrapWord_neg hk]

/-- Parentheses take no code. -/
theorem Outcome.group (h : Outcome p e s) : Outcome p (.group e) s := by
  cases h with
  | refused htype hp => exact .refused htype hp
  | lowered o is count htype hp h =>
    obtain ⟨⟨targets, lasting, words, run⟩, htag, literal⟩ := h
    exact .lowered o is count htype hp ⟨⟨targets, lasting, words, run⟩, htag, literal⟩

/-- What lowering a term comes to, over all terms and in every state. -/
theorem Reads.outcome {levels : Nat} (h : Reads t levels n e) (hs : s.table = t) :
    Outcome (Lower.visit levels n) e s := by
  induction h generalizing s with
  | @literal levels token k hk =>
    exact Outcome.push (.literal (Spelling.ofInt k) .int (.int token k)) rfl
      (gives_literal (fun _ => rfl) rfl) rfl
  | var h => exact .ident (hs ▸ h)
  | @group levels opener closer n e h ih =>
    have hinner : Lower.visitWith (Lower.visit levels) (.group opener closer .paren (some n)) =
        Lower.visit levels n := by
      cases h <;> rfl
    change Outcome (Lower.visitWith (Lower.visit levels) (.group opener closer .paren (some n))) (.group e) s
    rw [hinner]
    exact (ih hs).group
  | @negate levels op n e hop h ih =>
    cases h with
    | literal hk => exact .opposite hop hk
    | _ => exact .negate hop (by simp [Operand.ofLiteral?]) (ih hs)
  | not hop h ih => exact .not hop (ih hs)
  | @arith levels op a left right l r hop hl hr ihl ihr =>
    refine .binary (ihl hs) (fun s' hs' => ihr (hs'.trans hs)) ?_
      fun hgₗ hgᵣ hₗ hᵣ hs => binary_arith hop hgₗ hgᵣ hₗ hᵣ hs
    rintro (h | h) <;> simp [Term.type?, h]
  | relate hop hl hr ihl ihr =>
    refine .binary (ihl hs) (fun s' hs' => ihr (hs'.trans hs)) ?_
      fun hgₗ hgᵣ hₗ hᵣ hs => binary_relate hop hgₗ hgᵣ hₗ hᵣ hs
    rintro (h | h) <;> simp [Term.type?, h]

theorem nodup_temps (lo count : Nat) : (temps lo count).Nodup := by
  exact List.Pairwise.map _ (fun _ _ hne h => hne (Word.temp_inj h)) List.nodup_range'

end

/-- The instructions of an expression come to its value over exact integers, from every memory that holds the
variables. They write the temporaries that lowering takes, each of them once, and change no other word. Where
an operand of arithmetic is no integer the expression is refused. -/
theorem visit_computes (s : Lowering) (levels : Nat) {n : Node} {e : Term} (h : Reads s.table levels n e) :
    (∀ type, e.type? = some type → ∃ o is count,
      Lower.visit levels n s = (.ok (), pushed s count is o) ∧
        is.map target? = (temps s.supply.temps count).map some ∧ (temps s.supply.temps count).Nodup ∧
        ∀ values m, e.Held values m → ∃ m', run m is = some m' ∧
          operand? m' o.raw = some (e.value values) ∧ ∀ w ∉ temps s.supply.temps count, m' w = m w) ∧
    (e.type? = none → ∃ f s', Lower.visit levels n s = (.error f, s')) := by
  cases h.outcome rfl with
  | refused hnone hp => exact ⟨fun _ htype => absurd (hnone.symm.trans htype) nofun, fun _ => ⟨_, _, hp⟩⟩
  | lowered o is count hsome hp hgives =>
    refine ⟨fun _ _ => ⟨o, is, count, hp, hgives.computes.targets, nodup_temps _ _, fun values m hheld => ?_⟩,
      fun htype => absurd (htype.symm.trans hsome) nofun⟩
    obtain ⟨m', hrun, hvalue⟩ := hgives.computes.run values m hheld
    refine ⟨m', hrun, hvalue, fun w hw => run_elsewhere hrun fun i hi htarget => hw ?_⟩
    have hmem : some w ∈ is.map target? := List.mem_map.mpr ⟨i, hi, htarget⟩
    rw [hgives.computes.targets] at hmem
    obtain ⟨x, hx, hxw⟩ := List.mem_map.mp hmem
    exact Option.some.inj hxw ▸ hx

/-- One variable of integers. -/
def sampleState : Lowering where
  session :=
    { symbols :=
        { symbols := #[{ name := "a", rid := Word.numbered "a" 1, detail := .var { type := .ofType .int } }]
          global := { kind := .global, names := [("a", 0)] } } }

/-- `-a - 3 < 2 * a` -/
def sampleNode : Node :=
  let a : Ident := { token := .ofText "a" {} }
  let op := fun text => Token.ofText text {}
  .binary (.binary (.unary (op "-") (.ident a)) (op "-") (.int (op "3") 3)) (op "<")
    (.binary (.int (op "2") 2) (op "*") (.ident a))

def sampleTerm : Term :=
  let a := Term.var (Word.numbered "a" 1)
  .relate .lt (.arith .sub (.negate a) (.literal 3)) (.arith .mul (.literal 2) a)

theorem visit_sample : Reads sampleState.table 4 sampleNode sampleTerm ∧ ∃ o is count,
    Lower.visit 4 sampleNode sampleState = (.ok (), pushed sampleState count is o) ∧
      is.map target? = (temps 0 count).map some ∧ (temps 0 count).Nodup ∧
      ∀ values m, sampleTerm.Held values m → ∃ m', run m is = some m' ∧
        operand? m' o.raw = some (sampleTerm.value values) ∧ ∀ w ∉ temps 0 count, m' w = m w := by
  have ha : IsInteger sampleState.table { token := .ofText "a" {} } (Word.numbered "a" 1) :=
    ⟨rfl, ⟨0, rfl, rfl, by decide⟩, 1, Word.isNumbered_numbered _ _⟩
  have reads : Reads sampleState.table 4 sampleNode sampleTerm :=
    .relate rfl (.arith rfl (.negate (by decide) (.var ha)) (.literal (by decide)))
      (.arith rfl (.literal (by decide)) (.var ha))
  exact ⟨reads, (visit_computes sampleState 4 reads).1 .bool (by decide)⟩

end Frontend.Exact
