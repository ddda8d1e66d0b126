import Frontend.Proofs.Meaning.Machine

/-!
# Code that does what programs mean

`Evaluates` says of a passage of code that it computes the value of an expression, `Performs` that it
does what a statement does. Both speak about every place where the passage may stand, so longer
passages are put together from shorter ones: one rule for each construct.
-/

namespace Frontend.Machine

open Meaning

variable {n : Int} {x : Variable} {i : Instruction}
variable {j : Nat} {f : Value → Value → Value} {finish next : String} {body : List Instruction}

/-! ## Memory and variables -/

/-- The memory holds the values of the variables. -/
def Matches (σ : Store) (m : Memory) : Prop := ∀ x : Variable, m x.rid = (σ x).map Cell.value

/-- All words are as they were, except for the temporaries from a number on. -/
def Untouched (temps : Nat) (m m' : Memory) : Prop :=
  ∀ w, (∀ j, temps ≤ j → w ≠ Word.temp j) → m' w = m w

/-- A word whose value does not change while an expression is evaluated: a number, a temporary that was
given out before, or a variable that was defined before. -/
inductive Lasting (temps defined : Nat) : String → Prop where
  | number {w : String} {n : Int} (h : Decimal.readWord? w = some n) : Lasting temps defined w
  | temp {j : Nat} (h : j < temps) : Lasting temps defined (Word.temp j)
  | variable {x : Variable} (h : x.number < defined) : Lasting temps defined x.rid

theorem Memory.set_self (m : Memory) (w : String) (cell : Option Cell) : m.set w cell w = cell := by
  simp [Memory.set]

theorem Memory.set_set (m : Memory) (w : String) (cell cell' : Option Cell) :
    (m.set w cell).set w cell' = m.set w cell' := by
  funext w'
  simp only [Memory.set]
  split <;> rfl

theorem Memory.set_of_ne (m : Memory) {w w' : String} (h : w' ≠ w) (cell : Option Cell) :
    m.set w cell w' = m w' := by
  simp [Memory.set, h]

section

variable {temps more defined : Nat} {m m' m'' : Memory} {σ : Store} {w : String}

theorem Untouched.refl (temps : Nat) (m : Memory) : Untouched temps m m := fun _ _ => rfl

theorem Untouched.trans (h : Untouched temps m m') (hle : temps ≤ more)
    (h' : Untouched more m' m'') : Untouched temps m m'' := by
  intro w hw
  rw [h' w fun j hj => hw j (hle.trans hj), h w hw]

theorem untouched_set_temp (h : temps ≤ j) (cell : Option Cell) : Untouched temps m (m.set (Word.temp j) cell) :=
  fun _ hw => Memory.set_of_ne m (hw j h) cell

theorem Matches.untouched (h : Matches σ m) (hu : Untouched temps m m') : Matches σ m' := by
  intro x
  rw [hu x.rid fun j _ => x.rid_ne_temp j, h x]

theorem Matches.set (h : Matches σ m) (x : Variable) (v : Value) :
    Matches (σ.set x v) (m.set x.rid (some (.value v))) := by
  intro y
  unfold Store.set
  by_cases hy : y = x
  · rw [hy, Memory.set_self, if_pos rfl]
    rfl
  · rw [Memory.set_of_ne m (fun he => hy (Variable.rid_inj he)), if_neg hy, h y]

theorem operand?_number (m : Memory) (h : Decimal.readWord? w = some n) : operand? m w = some (.int n) := by
  unfold operand?
  rw [h]

theorem operand?_variable (h : Matches σ m) (x : Variable) : operand? m x.rid = σ x := by
  have word : Decimal.readWord? x.rid = none := Word.readWord?_numbered x.name x.number
  unfold operand?
  rw [word, h x]
  cases σ x <;> rfl

theorem operand?_temp (m : Memory) (j : Nat) (v : Value) :
    operand? (m.set (Word.temp j) (some (.value v))) (Word.temp j) = some v := by
  unfold operand?
  rw [Word.readWord?_temp, Memory.set_self]

theorem Lasting.operand? (h : Lasting temps defined w) (hu : Untouched temps m m') :
    operand? m' w = operand? m w := by
  have same : m' w = m w ∨ ∃ n, Decimal.readWord? w = some n := by
    cases h with
    | number hn => exact Or.inr ⟨_, hn⟩
    | @temp j hj =>
      refine Or.inl (hu _ fun i hi he => ?_)
      have := Word.temp_inj he
      omega
    | @«variable» x hx => exact Or.inl (hu _ fun j _ => x.rid_ne_temp j)
  unfold Machine.operand?
  rcases same with same | ⟨n, hn⟩
  · rw [same]
  · rw [hn]

/-- The word of a variable that is not defined yet is none of these. -/
theorem Lasting.ne_rid (h : Lasting temps defined w) (hx : defined ≤ x.number) : w ≠ x.rid := by
  intro he
  cases h with
  | number hn =>
    rw [he, show Decimal.readWord? x.rid = none from Word.readWord?_numbered _ _] at hn
    exact nomatch hn
  | temp hj => exact x.rid_ne_temp _ he.symm
  | @«variable» y hy =>
    have := congrArg Variable.number (Variable.rid_inj he)
    omega

end

/-! ## Balanced passages -/

theorem balanced_append {c d : List Instruction} (hc : Code.Balanced c) (hd : Code.Balanced d) :
    Code.Balanced (c ++ d) := by
  induction hc with
  | nil => exact hd
  | plain hopens hcloses _ ih => exact .plain hopens hcloses ih
  | frame hopens hbody hcloses _ _ ih =>
    rw [List.cons_append, List.append_assoc, List.cons_append]
    exact .frame hopens hbody hcloses ih

theorem balanced_single (hopens : i.op.opensFrame = false) (hcloses : i.op ≠ .finish) :
    Code.Balanced [i] := .plain hopens hcloses .nil

/-! ## Expressions -/

/-- A passage computes the value of an expression and leaves it in a word. It uses temporaries from
`lo` up to `hi`. -/
structure Evaluates (c : List Instruction) (e : Expr) (w : String) (lo hi defined : Nat) : Prop where
  run : ∀ {is : List Instruction} {k : Nat}, Occurs c is k →
    ∀ {σ : Store} {m : Memory} {v : Value}, e.eval σ = some v → Matches σ m → ∀ loops : List Nat,
      ∃ m', Steps is ⟨k, m, loops⟩ ⟨k + c.length, m', loops⟩ ∧ Untouched lo m m' ∧
        operand? m' w = some v
  balanced : Code.Balanced c
  lasting : Lasting hi defined w
  le : lo ≤ hi

variable {c d : List Instruction} {e l r : Expr} {w w' : String} {lo mid hi defined : Nat}

/-- The word of a number computes every expression with that value. -/
theorem evaluates_number (h : Decimal.readWord? w = some n) (he : ∀ σ, e.eval σ = some (.int n)) :
    Evaluates [] e w lo lo defined := by
  refine ⟨?_, .nil, .number h, le_refl _⟩
  intro is k _ σ m v hv _ loops
  rw [he, Option.some.injEq] at hv
  exact ⟨m, .refl, Untouched.refl _ _, by rw [operand?_number m h, hv]⟩

theorem evaluates_var (h : x.number < defined) : Evaluates [] (.var x) x.rid lo lo defined := by
  refine ⟨?_, .nil, .variable h, le_refl _⟩
  intro is k _ σ m v hv hm loops
  exact ⟨m, .refl, Untouched.refl _ _, by rw [operand?_variable hm]; exact hv⟩

/-- Behind a passage, the word of a number holds the value of an expression with that value. -/
theorem Evaluates.changeWord (h : Evaluates c l w lo hi defined) (hn : Decimal.readWord? w' = some n)
    (hl : ∀ σ, (l.eval σ).isSome = true) (he : ∀ σ, e.eval σ = some (.int n)) : Evaluates c e w' lo hi defined := by
  refine ⟨?_, h.balanced, .number hn, h.le⟩
  intro is k ho σ m v hv hm loops
  obtain ⟨u, hu⟩ := Option.isSome_iff_exists.mp (hl σ)
  obtain ⟨m', hsteps, huntouched, -⟩ := h.run ho hu hm loops
  rw [he, Option.some.injEq] at hv
  exact ⟨m', hsteps, huntouched, by rw [operand?_number m' hn, hv]⟩

/-- One instruction that makes a value from the value of an expression. -/
theorem Evaluates.unary {f : Value → Value} (h : Evaluates c l w lo hi defined)
    (he : ∀ σ, e.eval σ = (l.eval σ).map f) (hi' : ∀ m v, operand? m w = some v →
      compute m i = some (m.set (Word.temp hi) (some (.value (f v)))))
    (hopens : i.op.opensFrame = false) (hcloses : i.op ≠ .finish) :
    Evaluates (c ++ [i]) e (Word.temp hi) lo (hi + 1) defined := by
  refine ⟨?_, balanced_append h.balanced (balanced_single hopens hcloses), .temp (Nat.lt_succ_self _),
    h.le.trans (Nat.le_succ _)⟩
  intro is k ho σ m v hv hm loops
  obtain ⟨hoc, hoi⟩ := occurs_append.mp ho
  rw [he, Option.map_eq_some_iff] at hv
  obtain ⟨u, hu, rfl⟩ := hv
  obtain ⟨m', hsteps, huntouched, hoperand⟩ := h.run hoc hu hm loops
  refine ⟨_, hsteps.trans ?_, huntouched.trans h.le (untouched_set_temp (le_refl _) _), operand?_temp _ _ _⟩
  rw [List.length_append, List.length_singleton, ← Nat.add_assoc]
  exact step_of_compute (occurs_cons.mp hoi).1 (hi' m' u hoperand)

section
variable (hl : Evaluates c l w lo mid defined) (hr : Evaluates d r w' mid hi defined)
  (he : ∀ σ, e.eval σ = (l.eval σ).bind fun a => (r.eval σ).map (f a))
include hl hr he

/-- Instructions that make a value from the values of two expressions. -/
theorem Evaluates.binary {more : List Instruction} {t : String} {top : Nat}
    (hmore : ∀ {is k}, Occurs more is k → ∀ m a b, operand? m w = some a → operand? m w' = some b →
      ∀ loops, ∃ m', Steps is ⟨k, m, loops⟩ ⟨k + more.length, m', loops⟩ ∧ Untouched hi m m' ∧
        operand? m' t = some (f a b)) (hbalanced : Code.Balanced more) (ht : Lasting top defined t)
    (htop : hi ≤ top) : Evaluates (c ++ d ++ more) e t lo top defined := by
  refine ⟨?_, balanced_append (balanced_append hl.balanced hr.balanced) hbalanced, ht,
    hl.le.trans (hr.le.trans htop)⟩
  intro is k ho σ m v hv hm loops
  obtain ⟨hocd, homore⟩ := occurs_append.mp ho
  obtain ⟨hoc, hod⟩ := occurs_append.mp hocd
  rw [he, Option.bind_eq_some_iff] at hv
  obtain ⟨a, ha, hv⟩ := hv
  obtain ⟨b, hb, rfl⟩ := Option.map_eq_some_iff.mp hv
  obtain ⟨m₁, hsteps₁, hu₁, hw₁⟩ := hl.run hoc ha hm loops
  obtain ⟨m₂, hsteps₂, hu₂, hw₂⟩ := hr.run hod hb (hm.untouched hu₁) loops
  -- the left value is still there when the right one has been computed
  have hw : Machine.operand? m₂ w = some a := by rw [hl.lasting.operand? hu₂, hw₁]
  obtain ⟨m₃, hsteps₃, hu₃, hw₃⟩ := hmore homore m₂ a b hw hw₂ loops
  refine ⟨m₃, ?_, (hu₁.trans hl.le hu₂).trans (hl.le.trans hr.le) hu₃, hw₃⟩
  rw [List.length_append, List.length_append, ← Nat.add_assoc, ← Nat.add_assoc]
  rw [List.length_append, ← Nat.add_assoc] at hsteps₃
  exact (hsteps₁.trans hsteps₂).trans hsteps₃

/-- One instruction that makes a value from the values of two expressions. -/
theorem Evaluates.pair (hi' : ∀ m a b, operand? m w = some a → operand? m w' = some b →
      compute m i = some (m.set (Word.temp hi) (some (.value (f a b))))) (hopens : i.op.opensFrame = false)
    (hcloses : i.op ≠ .finish) : Evaluates (c ++ d ++ [i]) e (Word.temp hi) lo (hi + 1) defined := by
  refine hl.binary hr he ?_ (balanced_single hopens hcloses) (.temp (Nat.lt_succ_self _))
    (Nat.le_succ _)
  intro is k ho m a b ha hb loops
  exact ⟨_, step_of_compute (occurs_cons.mp ho).1 (hi' m a b ha hb),
    untouched_set_temp (le_refl _) _, operand?_temp _ _ _⟩

end

/-! ## Statements -/

/-- Where a machine is when a statement has ended: behind its passage, at the exit of the loop around
it, or at the jump to the next round of that loop. -/
def Arrives (is : List Instruction) (round : Option String) (behind pc : Nat) : Ending → Prop
  | .normal => pc = behind
  | .broken => is[pc]? = some ⟨.exitLoop, []⟩
  | .continued => ∃ l, round = some l ∧ is[pc]? = some ⟨.jump, [l]⟩

/-- A passage does what a statement does, in code whose labels are placed once. The label `round` is
that of the next round of the loop around it. -/
structure Performs (c : List Instruction) (s : Stmt) (round : Option String) : Prop where
  run : ∀ {is : List Instruction} {k : Nat}, Occurs c is k →
    (is.flatMap Instruction.sets).Nodup → ∀ {σ σ' : Store} {e : Ending}, Exec σ s e σ' →
      ∀ {m : Memory}, Matches σ m → ∀ loops : List Nat,
        ∃ pc m', Steps is ⟨k, m, loops⟩ ⟨pc, m', loops⟩ ∧ Matches σ' m' ∧
          Arrives is round (k + c.length) pc e
  balanced : Code.Balanced c

variable {s t : Stmt} {round : Option String}

theorem performs_skip : Performs [] .skip round := by
  refine ⟨?_, .nil⟩
  rintro is k - - σ σ' e ⟨⟩ m hm loops
  exact ⟨k, m, .refl, hm, rfl⟩

theorem performs_breakOut : Performs [⟨.exitLoop, []⟩] .breakOut round := by
  refine ⟨?_, balanced_single rfl (fun e => nomatch e)⟩
  rintro is k ho - σ σ' e ⟨⟩ m hm loops
  exact ⟨k, m, .refl, hm, (occurs_cons.mp ho).1⟩

theorem performs_continueOn {l : String} (h : round = some l) : Performs [⟨.jump, [l]⟩] .continueOn round := by
  refine ⟨?_, balanced_single rfl (fun e => nomatch e)⟩
  rintro is k ho - σ σ' e ⟨⟩ m hm loops
  exact ⟨k, m, .refl, hm, l, h, (occurs_cons.mp ho).1⟩

theorem Performs.seq (hs : Performs c s round) (ht : Performs d t round) : Performs (c ++ d) (.seq s t) round := by
  refine ⟨?_, balanced_append hs.balanced ht.balanced⟩
  intro is k ho hn σ σ' e hexec m hm loops
  obtain ⟨hoc, hod⟩ := occurs_append.mp ho
  cases hexec with
  | seq hfirst hsecond =>
    obtain ⟨pc, m₁, hsteps, hm₁, ⟨⟩⟩ := hs.run hoc hn hfirst hm loops
    obtain ⟨pc, m₂, hsteps', hm₂, hpc⟩ := ht.run hod hn hsecond hm₁ loops
    refine ⟨pc, m₂, hsteps.trans hsteps', hm₂, ?_⟩
    rwa [List.length_append, ← Nat.add_assoc]
  | seqEarly hfirst he =>
    obtain ⟨pc, m₁, hsteps, hm₁, hpc⟩ := hs.run hoc hn hfirst hm loops
    refine ⟨pc, m₁, hsteps, hm₁, ?_⟩
    cases e with
    | normal => exact absurd rfl he
    | broken => exact hpc
    | continued => exact hpc

/-- A passage stores the value of a word in a variable. -/
structure Stores (c : List Instruction) (w : String) (x : Variable) : Prop where
  run : ∀ {is : List Instruction} {k : Nat}, Occurs c is k → ∀ {m : Memory} {v : Value},
    operand? m w = some v → ∀ loops : List Nat,
      Steps is ⟨k, m, loops⟩ ⟨k + c.length, m.set x.rid (some (.value v)), loops⟩
  balanced : Code.Balanced c

/-- One instruction that stores the value of a word. -/
theorem stores_single (h : ∀ m v, operand? m w = some v → compute m i = some (m.set x.rid (some (.value v))))
    (hopens : i.op.opensFrame = false) (hcloses : i.op ≠ .finish) : Stores [i] w x := by
  refine ⟨?_, balanced_single hopens hcloses⟩
  intro is k ho m v hv loops
  exact step_of_compute (occurs_cons.mp ho).1 (h m v hv)

/-- A variable that has a value need not be given it. -/
theorem stores_self (x : Variable) : Stores [] x.rid x := by
  refine ⟨?_, .nil⟩
  intro is k _ m v hv loops
  have held : m x.rid = some (.value v) := by
    unfold operand? at hv
    rw [show Decimal.readWord? x.rid = none from Word.readWord?_numbered _ _] at hv
    split at hv
    · rename_i hread _
      exact nomatch hread
    · rename_i hcell
      cases hv
      exact hcell
    · cases hv
  have same : m.set x.rid (some (.value v)) = m := by
    funext w
    by_cases hw : w = x.rid
    · rw [hw, Memory.set_self, held]
    · exact Memory.set_of_ne m hw _
  rw [same]
  exact .refl

/-- Room is made for a variable before it gets its value. -/
theorem Stores.allot (h : Stores c w x) (hw : w ≠ x.rid) : Stores (⟨.allot, [x.rid]⟩ :: c) w x := by
  refine ⟨?_, .plain rfl (fun e => nomatch e) h.balanced⟩
  intro is k ho m v hv loops
  obtain ⟨hallot, hoc⟩ := occurs_cons.mp ho
  have cleared : operand? (m.set x.rid none) w = some v := by
    unfold operand? at hv ⊢
    rw [Memory.set_of_ne m hw]
    exact hv
  have stored := (step_of_compute hallot rfl).trans (h.run hoc cleared loops)
  rw [Memory.set_set, Nat.add_assoc, Nat.add_comm 1] at stored
  exact stored

theorem Performs.assign (he : Evaluates c e w lo hi defined) (hx : Stores d w x) :
    Performs (c ++ d) (.assign x e) round := by
  refine ⟨?_, balanced_append he.balanced hx.balanced⟩
  intro is k ho _ σ σ' ending hexec m hm loops
  obtain ⟨hoc, hod⟩ := occurs_append.mp ho
  cases hexec with
  | assign hv =>
    obtain ⟨m₁, hsteps, hu, hw⟩ := he.run hoc hv hm loops
    refine ⟨_, _, hsteps.trans (hx.run hod hw loops), (hm.untouched hu).set x _, ?_⟩
    rw [List.length_append, ← Nat.add_assoc]
    rfl

/-- A number is added to a variable in its place. The value from before is kept in a temporary. -/
theorem performs_increment (hn : Decimal.readWord? w = some n) (he : ∀ σ, e.eval σ = (σ x).map (·.add (.int n))) :
    Performs [⟨.copy, [x.rid, Word.temp j]⟩, ⟨.add, [x.rid, w, x.rid]⟩] (.assign x e) round := by
  refine ⟨?_, .plain rfl (fun e => nomatch e) (balanced_single rfl fun e => nomatch e)⟩
  intro is k ho _ σ σ' ending hexec m hm loops
  obtain ⟨hcopy, ho⟩ := occurs_cons.mp ho
  obtain ⟨hadd, -⟩ := occurs_cons.mp ho
  cases hexec with
  | assign hv =>
    rw [he] at hv
    obtain ⟨u, hu, rfl⟩ := Option.map_eq_some_iff.mp hv
    have held : operand? m x.rid = some u := by rw [operand?_variable hm, hu]
    have copied : compute m ⟨.copy, [x.rid, Word.temp j]⟩ =
        some (m.set (Word.temp j) (some (.value u))) := by
      simp only [compute, held]
      rfl
    have hm₁ : Matches σ (m.set (Word.temp j) (some (.value u))) :=
      hm.untouched (untouched_set_temp (le_refl j) _)
    have added : compute (m.set (Word.temp j) (some (.value u))) ⟨.add, [x.rid, w, x.rid]⟩ =
        some ((m.set (Word.temp j) (some (.value u))).set x.rid (some (.value (u.add (.int n))))) := by
      simp only [compute, operand?_variable hm₁, hu, operand?_number _ hn]
      rfl
    exact ⟨_, _, (step_of_compute hcopy copied).trans (step_of_compute hadd added), hm₁.set x _, rfl⟩

/-! ## Chains of tests -/

/-- Like `Performs`, for a passage of a chain that is followed by the place of its end label. -/
structure Leads (c : List Instruction) (s : Stmt) (finish : String) (round : Option String) :
    Prop where
  run : ∀ {is : List Instruction} {k : Nat}, Occurs (c ++ [⟨.set, [finish]⟩]) is k →
    (is.flatMap Instruction.sets).Nodup → ∀ {σ σ' : Store} {e : Ending}, Exec σ s e σ' →
      ∀ {m : Memory}, Matches σ m → ∀ loops : List Nat,
        ∃ pc m', Steps is ⟨k, m, loops⟩ ⟨pc, m', loops⟩ ∧ Matches σ' m' ∧
          Arrives is round (k + c.length) pc e
  balanced : Code.Balanced c

theorem Performs.leads (h : Performs c s round) (finish : String) : Leads c s finish round :=
  ⟨fun ho => h.run (occurs_append.mp ho).1, h.balanced⟩

theorem Leads.performs (h : Leads c s finish round) : Performs (c ++ [⟨.set, [finish]⟩]) s round := by
  refine ⟨?_, balanced_append h.balanced (balanced_single rfl fun e => nomatch e)⟩
  intro is k ho hn σ σ' e hexec m hm loops
  obtain ⟨pc, m', hsteps, hm', hpc⟩ := h.run ho hn hexec hm loops
  have hset := (occurs_cons.mp (occurs_append.mp ho).2).1
  cases e with
  | normal =>
    cases hpc
    refine ⟨_, m', hsteps.trans (step_of_compute hset rfl), hm', ?_⟩
    rw [List.length_append, ← Nat.add_assoc]
    rfl
  | broken => exact ⟨pc, m', hsteps, hm', hpc⟩
  | continued => exact ⟨pc, m', hsteps, hm', hpc⟩

/-- One test in front of the rest of a chain. -/
theorem Leads.test {rest : List Instruction} (skip : String) (he : Evaluates c e w lo hi defined)
    (hs : Performs body s round) (ht : Leads rest t finish round) :
    Leads (c ++ ⟨.jumpIfFalse, [w, skip]⟩ :: (body ++ ⟨.jump, [finish]⟩ :: ⟨.set, [skip]⟩ :: rest))
      (.branch e s t) finish round := by
  refine ⟨?_, ?_⟩
  · intro is k ho hn σ σ' ending hexec m hm loops
    have hend := (occurs_cons.mp (occurs_append.mp ho).2).1
    rw [List.append_assoc, List.cons_append, List.append_assoc, List.cons_append, List.cons_append] at ho
    obtain ⟨hoc, ho⟩ := occurs_append.mp ho
    obtain ⟨hjump, ho⟩ := occurs_cons.mp ho
    obtain ⟨hobody, ho⟩ := occurs_append.mp ho
    obtain ⟨hleave, ho⟩ := occurs_cons.mp ho
    obtain ⟨hskip, horest⟩ := occurs_cons.mp ho
    have length : k + (c ++ ⟨.jumpIfFalse, [w, skip]⟩ ::
        (body ++ ⟨.jump, [finish]⟩ :: ⟨.set, [skip]⟩ :: rest)).length =
        k + c.length + 1 + body.length + 1 + 1 + rest.length := by
      simp only [List.length_append, List.length_cons]
      omega
    rw [length] at hend ⊢
    cases hexec with
    | branchYes hv htrue hyes =>
      obtain ⟨m₁, hsteps, hu, hw⟩ := he.run hoc hv hm loops
      have jump : Steps is ⟨k + c.length, m₁, loops⟩ ⟨_, m₁, loops⟩ :=
        step_jumpIfFalse hjump hw (target?_eq hn hskip)
      rw [if_pos htrue] at jump
      obtain ⟨pc, m₂, hsteps', hm₂, hpc⟩ := hs.run hobody hn hyes (hm.untouched hu) loops
      have whole := (hsteps.trans jump).trans hsteps'
      cases ending with
      | normal =>
        cases hpc
        exact ⟨_, m₂, whole.trans (step_jump hleave (target?_eq hn hend)), hm₂, rfl⟩
      | broken => exact ⟨pc, m₂, whole, hm₂, hpc⟩
      | continued => exact ⟨pc, m₂, whole, hm₂, hpc⟩
    | branchNo hv hfalse hno =>
      obtain ⟨m₁, hsteps, hu, hw⟩ := he.run hoc hv hm loops
      have jump : Steps is ⟨k + c.length, m₁, loops⟩ ⟨_, m₁, loops⟩ :=
        step_jumpIfFalse hjump hw (target?_eq hn hskip)
      rw [if_neg (by simp [hfalse])] at jump
      obtain ⟨pc, m₂, hsteps', hm₂, hpc⟩ := ht.run horest hn hno (hm.untouched hu) loops
      exact ⟨pc, m₂, ((hsteps.trans jump).trans (step_of_compute hskip rfl)).trans hsteps', hm₂, hpc⟩
  · refine balanced_append he.balanced (.plain rfl (fun e => nomatch e) ?_)
    refine balanced_append hs.balanced (.plain rfl (fun e => nomatch e) ?_)
    exact .plain rfl (fun e => nomatch e) ht.balanced

/-! ## Loops -/

/-- What stands between the head and the end of a loop: the test, the body, the way to the next round
and the end label. -/
def loopBody (start finish w : String) (test body again : List Instruction) : List Instruction :=
  ⟨.set, [start]⟩ :: (test ++ ⟨.jumpIfFalse, [w, finish]⟩ ::
    (body ++ (again ++ [⟨.jump, [start]⟩, ⟨.set, [finish]⟩])))

/-- A passage leads from the end of a round to the jump to the next test, doing the update. A round
that ends early jumps to the label `next`. -/
structure GoesOn (again : List Instruction) (update : Stmt) (start next : String) : Prop where
  run : ∀ {is : List Instruction} {k : Nat}, Occurs (again ++ [⟨.jump, [start]⟩]) is k →
    (is.flatMap Instruction.sets).Nodup → ∀ {σ σ' : Store}, Exec σ update .normal σ' →
      ∀ {m : Memory}, Matches σ m → ∀ {pc top : Nat} {e : Ending}, e ≠ .broken →
        Arrives is (some next) k pc e → is[top]? = some ⟨.set, [start]⟩ → ∀ loops : List Nat,
          ∃ m', Steps is ⟨pc, m, loops⟩ ⟨top, m', loops⟩ ∧ Matches σ' m'
  balanced : Code.Balanced again

/-- Without an update the next round begins with the test. -/
theorem goesOn_test (start : String) : GoesOn [] .skip start start := by
  refine ⟨?_, .nil⟩
  rintro is k ho hn σ σ' ⟨⟩ m hm pc top e he hpc htop loops
  cases e with
  | normal =>
    cases hpc
    exact ⟨m, step_jump (occurs_cons.mp ho).1 (target?_eq hn htop), hm⟩
  | broken => exact absurd rfl he
  | continued =>
    obtain ⟨l, ⟨⟩, hpc⟩ := hpc
    exact ⟨m, step_jump hpc (target?_eq hn htop), hm⟩

/-- An update has a label of its own. -/
theorem Performs.goesOn (h : Performs c s round) (start : String) : GoesOn (⟨.set, [next]⟩ :: c) s start next := by
  refine ⟨?_, .plain rfl (fun e => nomatch e) h.balanced⟩
  intro is k ho hn σ σ' hexec m hm pc top e he hpc htop loops
  rw [List.cons_append] at ho
  obtain ⟨hset, ho⟩ := occurs_cons.mp ho
  obtain ⟨hoc, hojump⟩ := occurs_append.mp ho
  have reach : Steps is ⟨pc, m, loops⟩ ⟨k + 1, m, loops⟩ := by
    cases e with
    | normal =>
      cases hpc
      exact step_of_compute hset rfl
    | broken => exact absurd rfl he
    | continued =>
      obtain ⟨l, ⟨⟩, hpc⟩ := hpc
      exact (step_jump hpc (target?_eq hn hset)).trans (step_of_compute hset rfl)
  obtain ⟨pc', m', hsteps, hm', ⟨⟩⟩ := h.run hoc hn hexec hm loops
  exact ⟨m', (reach.trans hsteps).trans (step_jump (occurs_cons.mp hojump).1 (target?_eq hn htop)), hm'⟩

theorem Performs.loop {again : List Instruction} {start : String} {u : Stmt} (finish : String)
    (he : Evaluates c e w lo hi defined) (hs : Performs body s (some next)) (hu : GoesOn again u start next) :
    Performs (⟨.untilLoop, [start, finish]⟩ ::
      (loopBody start finish w c body again ++ [⟨.finish, []⟩])) (.loop e s u) round := by
  have balanced : Code.Balanced (loopBody start finish w c body again) := by
    refine .plain rfl (fun e => nomatch e) (balanced_append he.balanced ?_)
    refine .plain rfl (fun e => nomatch e) (balanced_append hs.balanced ?_)
    refine balanced_append hu.balanced (.plain rfl (fun e => nomatch e) ?_)
    exact balanced_single rfl fun e => nomatch e
  refine ⟨?_, .frame rfl balanced rfl .nil⟩
  intro is k ho hn σ σ' ending hexec m hm loops
  obtain ⟨hopen, ho⟩ := occurs_cons.mp ho
  -- the exit and the end label lead to the same place
  have exits : past? is k = some (k + 1 + (loopBody start finish w c body again).length + 1) := by
    obtain ⟨rest, hrest⟩ := ho
    have closed : is.drop (k + 1) =
        loopBody start finish w c body again ++ ⟨.finish, []⟩ :: rest := by
      rw [← hrest, List.append_assoc]
      rfl
    exact past?_eq balanced closed
  obtain ⟨hobody, hoclose⟩ := occurs_append.mp ho
  have hclose := (occurs_cons.mp hoclose).1
  unfold loopBody at hobody
  obtain ⟨hstart, hobody⟩ := occurs_cons.mp hobody
  obtain ⟨hotest, hobody⟩ := occurs_append.mp hobody
  obtain ⟨hjump, hobody⟩ := occurs_cons.mp hobody
  obtain ⟨hoinner, hobody⟩ := occurs_append.mp hobody
  obtain ⟨hoagain, hoback⟩ := occurs_append.mp hobody
  obtain ⟨hback, hofinish⟩ := occurs_cons.mp hoback
  have hfinish := (occurs_cons.mp hofinish).1
  have hogo : Occurs (again ++ [⟨.jump, [start]⟩]) is (k + 1 + 1 + c.length + 1 + body.length) :=
    occurs_append.mpr ⟨hoagain, occurs_cons.mpr ⟨hback, List.nil_prefix⟩⟩
  have length : (loopBody start finish w c body again).length =
      1 + c.length + 1 + body.length + again.length + 2 := by
    unfold loopBody
    simp only [List.length_append, List.length_cons, List.length_nil]
    omega
  -- the test of a round, which leads into the body or to the end label
  have test : ∀ {σ : Store} {m : Memory} {v : Value}, e.eval σ = some v → Matches σ m → ∃ m₁, Matches σ m₁ ∧
      Steps is ⟨k + 1, m, k :: loops⟩ ⟨if v.truth then k + 1 + 1 + c.length + 1
        else k + 1 + 1 + c.length + 1 + body.length + again.length + 1, m₁, k :: loops⟩ := by
    intro σ m v hv hm
    obtain ⟨m₁, hsteps, hunt, hw⟩ := he.run hotest hv hm (k :: loops)
    exact ⟨m₁, hm.untouched hunt, ((step_of_compute hstart rfl).trans hsteps).trans
      (step_jumpIfFalse hjump hw (target?_eq hn hfinish))⟩
  -- the rounds, from the place of the test on
  have rounds : ∀ {σ σ' : Store} {ending : Ending} {st : Stmt}, Exec σ st ending σ' →
      st = .loop e s u → ∀ {m : Memory}, Matches σ m →
        ∃ m', Steps is ⟨k + 1, m, k :: loops⟩
          ⟨k + 1 + (loopBody start finish w c body again).length + 1, m', loops⟩ ∧
            Matches σ' m' ∧ ending = .normal := by
    intro σ σ' ending st hexec
    induction hexec with
    | loopEnd hv hfalse =>
      rintro ⟨⟩ m hm
      obtain ⟨m₁, hm₁, hsteps⟩ := test hv hm
      rw [if_neg (by simp [hfalse])] at hsteps
      refine ⟨m₁, hsteps.trans ?_, hm₁, rfl⟩
      refine (step_of_compute hfinish rfl).trans ?_
      rw [show k + 1 + 1 + c.length + 1 + body.length + again.length + 1 + 1 =
        k + 1 + (loopBody start finish w c body again).length by omega]
      exact step_close hclose
    | loopBroken hv htrue hbody =>
      rintro ⟨⟩ m hm
      obtain ⟨m₁, hm₁, hsteps⟩ := test hv hm
      rw [if_pos htrue] at hsteps
      obtain ⟨pc, m₂, hsteps', hm₂, hpc⟩ := hs.run hoinner hn hbody hm₁ (k :: loops)
      exact ⟨m₂, (hsteps.trans hsteps').trans (step_exit hpc exits), hm₂, rfl⟩
    | loopRound hv htrue hbody hending hupdate _ _ _ ih =>
      rintro ⟨⟩ m hm
      obtain ⟨m₁, hm₁, hsteps⟩ := test hv hm
      rw [if_pos htrue] at hsteps
      obtain ⟨pc, m₂, hsteps', hm₂, hpc⟩ := hs.run hoinner hn hbody hm₁ (k :: loops)
      obtain ⟨m₃, hsteps'', hm₃⟩ :=
        hu.run hogo hn hupdate hm₂ hending hpc hstart (k :: loops)
      obtain ⟨m₄, hrest, hm₄, -⟩ := ih rfl hm₃
      exact ⟨m₄, ((hsteps.trans hsteps').trans hsteps'').trans hrest, hm₄, rfl⟩
    | _ => rintro ⟨⟩
  obtain ⟨m', hsteps, hm', rfl⟩ := rounds hexec rfl hm
  refine ⟨_, m', (step_open hopen).trans hsteps, hm', ?_⟩
  simp only [Arrives, List.length_cons, List.length_append, List.length_nil]
  omega

end Frontend.Machine
