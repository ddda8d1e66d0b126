import Frontend.Proofs.Lowering.Expression

/-!
# Control flow

Branches and loops place every label they take, and they place it once. A jump out of a loop or to
its next round is written only where the innermost function has a loop around it.
-/

namespace Frontend

open SymbolTable Region

variable {Γ : Surroundings} {own : List String} {known : Set String} {s : Lowering} {visit : Visit}
  {α β γ : Type}
variable {t : SymbolTable} {word l : String} {pos : Position} {test : Node} {body : Block}

theorem Ready.withLabels (h : Ready Γ known s) (own : List String) : Ready (Γ.withLabels own) known s :=
  ⟨h.stable, ⟨fun scope hs e he => ⟨(h.sees.entries scope hs e he).var,
    (h.sees.entries scope hs e he).target⟩, h.sees.inFunction⟩⟩

theorem SymbolTable.Scoped.withoutLabels (h : Scoped (Γ.withLabels own) known t) : Scoped Γ known t :=
  ⟨fun scope hs e he => ⟨(h.entries scope hs e he).var, (h.entries scope hs e he).target⟩, h.inFunction⟩

theorem SymbolTable.Scoped.enterLoop (h : Scoped Γ known t) (targets : List String) :
    Scoped (Γ.enterLoop targets) known t :=
  ⟨fun scope hs e he => ⟨(h.entries scope hs e he).var, fun hsort =>
    ⟨trivial, .inl ((h.entries scope hs e he).target hsort).2⟩⟩, h.inFunction⟩

/-- A label that a word stands for belongs to a target in the innermost function. -/
theorem exists_target_of_loopTarget (hl : ((t.findInFunction? word).bind fun id =>
      if (t.get id).detail matches .target then some (t.get id).rid else none) = some l) :
    ∃ id, t.findInFunction? word = some id ∧ (t.get id).sort = .target ∧ (t.get id).rid = l := by
  obtain ⟨id, hid, hrid⟩ := Option.bind_eq_some_iff.mp hl
  split at hrid
  · rename_i hdetail
    cases hrid
    exact ⟨id, hid, Symbol.sort_of_target hdetail, rfl⟩
  · cases hrid

/-- A word that stands for a target in the innermost function leads to a loop around. -/
theorem target_of_loopTarget (h : Ready Γ known s) (hl : ((s.table.findInFunction? word).bind fun id =>
      if (s.table.get id).detail matches .target then some (s.table.get id).rid else none) =
      some l) : Γ.inLoop ∧ l ∈ Γ.labels ∧ Word.Clean l := by
  obtain ⟨id, hid, hsort, rfl⟩ := exists_target_of_loopTarget hl
  have around := target_of_findInFunction h.stable.ordered h.sees hid hsort
  exact ⟨around.1, Γ.targets_subset around.2, .inl (h.stable.ordered.rid_plain id)⟩

/-- The labels that a loop places, in the order in which it does. -/
def loopLabels (update : Option Node) (start finish next : String) : List String :=
  match update with
  | some _ => [start, next, finish]
  | none => [start, finish]

variable [Setting]
variable {finish : String} {update : Option Node}

/-! ## Branches -/

/-- One test of a chain whose end label lies on the stack, if a label lies there at all. -/
theorem Does.condition {c : Condition} (hv : VisitOk visit) (htest : c.test.WellRead)
    (hbody : ∀ m ∈ c.body.items, m.WellRead) (h : Ready Γ known s)
    (hend : ∀ o rest, s.operands = o :: rest → o.kind = .label → o.raw = finish) (hfinish : finish ∈ Γ.labels)
    (hclean : Word.Clean finish) : Does Γ known s (Lower.condition visit c) Whatever := by
  unfold Lower.condition
  refine .ask ?_
  split
  · exact .fail
  · rename_i found hfound
    have same : found = finish := by
      split at hfound
      · rename_i o rest hops
        split at hfound
        · rename_i hkind
          cases hfound
          exact hend o rest hops (by simpa using hkind)
        · cases hfound
      · cases hfound
    subst same
    refine Does.bind (hv.eval htest h) ?_
    rintro known₁ o s₁ - h₁ ⟨ho, -⟩
    refine Does.bind (Does.materialize h₁ ho) ?_
    rintro known₂ test s₂ - h₂ ⟨htest, -⟩
    refine .freshLabel h₂ fun skip s₃ h₃ htable _ hskip _ => ?_
    have hskip : Word.Clean skip := .inl hskip
    refine Does.bindRun (Does.emitJump (h₃.withLabels [skip])
      (.inr ⟨test.raw, by rw [htable]; exact htest.raw, rfl, rfl⟩) (.inr List.mem_cons_self) hskip) ?_
    intro known₄ _ s₄ _ h₄ _
    refine Does.bindRun (hv (Node.wellRead_block hbody) h₄) ?_
    intro known₅ _ s₅ _ h₅ _
    refine Does.bindRun (Does.emitJump h₅ (.inl ⟨rfl, rfl⟩) (.inl hfinish) hclean) ?_
    intro known₆ _ s₆ _ h₆ _
    exact (Run.emitSet h₆ hskip).weaken fun _ _ _ hd => ⟨hd.1.withoutLabels, trivial⟩

theorem Does.branch {tests : List Condition} {otherwise : Option Block} (hv : VisitOk visit)
    (hn : (Node.branch tests otherwise).WellRead) (h : Ready Γ known s) :
    Does Γ known s (Lower.branch visit tests otherwise) Whatever := by
  have htests : ∀ c ∈ tests, ∀ m ∈ c.test :: c.body.items, m.WellRead := by
    intro c hc m hm
    exact hn.child (List.mem_append_left _ (List.mem_flatMap.mpr ⟨c, hc, hm⟩))
  have hotherwise : ∀ b, otherwise = some b → ∀ m ∈ b.items, m.WellRead := by
    rintro b rfl m hm
    exact hn.child (List.mem_append_right _ hm)
  unfold Lower.branch
  refine .freshLabel h fun finish s₁ h₁ _ _ hplain _ => ?_
  have hfinish : finish ∈ (Γ.withLabels [finish]).labels := .inr List.mem_cons_self
  have hclean : Word.Clean finish := .inl hplain
  refine .weaken (.underLabel (Q := fun known' _ t =>
    Scoped (Γ.withLabels [finish]) known' t) ?_) fun _ _ _ hd => ⟨hd.withoutLabels, trivial⟩
  have h₂ : Ready (Γ.withLabels [finish]) known
      { s₁ with operands := .label finish :: s₁.operands } :=
    ⟨⟨h₁.stable.builtins, h₁.stable.ordered⟩, (h₁.withLabels [finish]).sees⟩
  have chain : Does (Γ.withLabels [finish]) known
      { s₁ with operands := .label finish :: s₁.operands }
      (Lower.forAll (Lower.condition visit) tests) fun _ _ _ => True := by
    refine .forAll h₂ trivial fun c hc known' s' hg h' _ => ?_
    have hread := htests c hc
    refine .condition hv (hread _ List.mem_cons_self)
      (fun m hm => hread m (List.mem_cons_of_mem _ hm)) h' ?_ hfinish hclean
    intro o rest hops hkind
    obtain ⟨new, hnew, hlabel⟩ := hg.operands
    rw [hops] at hnew
    cases new with
    | nil =>
      cases hnew
      rfl
    | cons x new =>
      cases hnew
      exact absurd hkind (hlabel o List.mem_cons_self)
  refine Does.bindRun chain ?_
  intro known₃ _ s₃ _ h₃ _
  cases otherwise with
  | none => exact (Run.emitSet h₃ hclean).weaken fun _ _ _ hd => hd.1
  | some b =>
    refine Does.bindRun (hv (Node.wellRead_block (hotherwise b rfl)) h₃) ?_
    intro known₄ _ s₄ _ h₄ _
    exact (Run.emitSet h₄ hclean).weaken fun _ _ _ hd => hd.1

/-! ## Loops -/

/-- A label of a loop is entered in the scope of the loop. -/
theorem Run.enterTarget {Δ : Surroundings} {f : Unit → Lower β} {Q : Set String → β → Lowering → Prop}
    (h : Ready Δ known s) (hword : Word.Plain word) (hplain : Word.Plain l) (hconst : Word.Constant l)
    (hinner : s.table.inner ≠ []) (hloop : Δ.inLoop) (hl : l ∈ Δ.targets)
    (hf : ∀ s', Ready Δ known s' → s'.table.inner ≠ [] → Run Γ own known s' (f ()) Q) :
    Run Γ own known s (Lower.enterTarget word l pos >>= f) Q := by
  unfold Lower.enterTarget
  rw [Lower.bind_assoc]
  have ordered := h.stable.ordered
  have fitting : Fitting s.supply.rids s.table
      { name := word, rid := l, pos, detail := .target } := by
    refine fitting_constant ordered ?_ hconst (fun e => nomatch e) fun _ e => nomatch e
    exact ⟨hplain, hword, .inr ⟨hconst, fun e => (nomatch e)⟩, fun _ e => (nomatch e),
      fun _ e => (nomatch e), fun _ e => (nomatch e)⟩
  refine .enterNew (g := fun id t => t.insert id) (f := fun _ => f) h fitting
    ⟨fun e => (nomatch e), fun _ => ⟨hloop, hl⟩⟩
    (fun t' => entered_new ordered fitting fun _ => hinner) fun id s₁ h₁ hg _ _ _ _ => ?_
  exact hf s₁ h₁ (hg.same.inner_ne_nil hinner)

theorem Run.round {start next : String} (hv : VisitOk visit) (htest : test.WellRead)
    (hupdate : ∀ n, update = some n → n.WellRead) (hbody : ∀ m ∈ body.items, m.WellRead) (h : Ready Γ known s)
    (hclean : ∀ l ∈ [start, finish, next], Word.Clean l) (hstart : start ∈ Γ.labels) (hfinish : finish ∈ Γ.labels) :
    Run Γ (loopLabels update start finish next) known s
      (Lower.round visit test update body start finish next) Whatever := by
  obtain ⟨cleanStart, cleanFinish, cleanNext⟩ : Word.Clean start ∧ Word.Clean finish ∧
      Word.Clean next := by simpa using hclean
  -- the way back to the test and the end of the loop
  have back : ∀ known' s', Ready Γ known' s' → Run Γ [finish] known' s'
      (do
        Lower.emit .jump [start]
        Lower.emit .set [finish]) Whatever := by
    intro known' s' h'
    refine Does.bindRun (Does.emitJump h' (.inl ⟨rfl, rfl⟩) hstart cleanStart) ?_
    intro known'' _ s'' _ h'' _
    exact (Run.emitSet h'' cleanFinish).weaken fun _ _ _ _ => trivial
  have labels : loopLabels update start finish next = [start] ++ (loopLabels update start finish
      next).tail := by cases update <;> rfl
  unfold Lower.round
  rw [labels]
  refine .bind (.emitSet h cleanStart) ?_
  rintro known₁ _ s₁ - stable₁ ⟨sees₁, -⟩
  refine Does.bindRun (hv.eval htest ⟨stable₁, sees₁⟩) ?_
  rintro known₂ o s₂ - h₂ ⟨ho, -⟩
  refine Does.bindRun (Does.materialize h₂ ho) ?_
  rintro known₃ holds s₃ - h₃ ⟨hholds, -⟩
  refine Does.bindRun (Does.emitJump h₃ (.inr ⟨_, hholds.raw, rfl, rfl⟩) hfinish cleanFinish) ?_
  intro known₄ _ s₄ _ h₄ _
  refine Does.bindRun (hv (Node.wellRead_block hbody) h₄) ?_
  intro known₅ _ s₅ _ h₅ _
  cases update with
  | none => exact back known₅ s₅ h₅
  | some n =>
    change Run Γ ([next] ++ [finish]) known₅ s₅ _ _
    refine .bind (.emitSet h₅ cleanNext) ?_
    rintro known₆ _ s₆ - stable₆ ⟨sees₆, -⟩
    refine Does.bindRun (hv.exec (hupdate n rfl) ⟨stable₆, sees₆⟩) ?_
    intro known₇ _ s₇ _ h₇ _
    exact back known₇ s₇ h₇

theorem Run.rounds (update : Option Node) (start finish next : String) (hv : VisitOk visit)
    (htest : test.WellRead) (hupdate : ∀ n, update = some n → n.WellRead)
    (hbody : ∀ m ∈ body.items, m.WellRead) (h : Ready Γ known s) (hinner : s.table.inner ≠ [])
    (hplain : ∀ l ∈ [start, finish, next], Word.Plain l ∧ Word.Constant l) (hstart : start ∈ Γ.labels)
    (hnext : next ∈ loopLabels update start finish next) : Run Γ (loopLabels update start finish next) known s
      (Lower.rounds visit pos test update body start finish next) Whatever := by
  have hclean : ∀ l ∈ [start, finish, next], Word.Clean l := fun l hl => .inl (hplain l hl).1
  have here : start ∈ loopLabels update start finish next ∧
      finish ∈ loopLabels update start finish next := by
    cases update <;> simp [loopLabels]
  have hfinish := hplain finish (by simp)
  have hnext' := hplain next (by simp)
  -- inside of the loop its labels may be jumped to
  have inside : Ready (Γ.enterLoop [finish, next]) known s := ⟨h.stable, h.sees.enterLoop _⟩
  unfold Lower.rounds
  refine .enterTarget inside (by decide) hfinish.1 hfinish.2 hinner trivial
    (.inr (by simp)) fun s₁ h₁ hinner₁ => ?_
  refine .enterTarget h₁ (by decide) hnext'.1 hnext'.2 hinner₁ trivial (.inr (by simp))
    fun s₂ h₂ _ => ?_
  refine .framed [finish, next] h₂.stable ?_ ?_ ?_ fun t ht htable => ?_
  · simpa using ⟨here.2, hnext⟩
  · simpa using here
  · exact fun l hl => hclean l (by simp at hl ⊢; tauto)
  · refine .round hv htest hupdate hbody ⟨ht, by rw [htable]; exact h₂.sees⟩ hclean
      (.inl hstart) (.inr (by simp))

theorem Does.loop {init : Option Node} (hv : VisitOk visit) (hinit : ∀ n, init = some n → n.WellRead)
    (htest : test.WellRead) (hupdate : ∀ n, update = some n → n.WellRead) (hbody : ∀ m ∈ body.items, m.WellRead)
    (h : Ready Γ known s) : Does Γ known s (Lower.loop visit pos init test update body) Whatever := by
  rw [Lower.loop_eq]
  refine (Run.inScope (Q := fun _ => True) h fun t ht htable _ => ?_).weaken
    fun _ _ _ hd => ⟨hd.1, trivial⟩
  have ready : Ready Γ known t :=
    ⟨ht, by rw [htable]; exact scoped_enter h.sees fun e => nomatch e⟩
  have hinner : t.table.inner ≠ [] := by
    rw [htable]
    exact fun e => nomatch e
  have labelled : ∀ known' s', Ready Γ known' s' → s'.table.inner ≠ [] →
      Run Γ [] known' s' (Lower.labelled visit pos test update body) fun _ _ _ => True := by
    intro known' s' h' hinner'
    refine .freshLabel h' fun start s₁ h₁ htable₁ _ plain₁ const₁ => ?_
    refine .freshLabel (h₁.withLabels _) fun finish s₂ h₂ htable₂ _ plain₂ const₂ => ?_
    have hinner₂ : s₂.table.inner ≠ [] := by rw [htable₂, htable₁]; exact hinner'
    cases update with
    | none =>
      refine .query h₂.stable rfl (.perm (List.Perm.swap _ _ _) ?_)
      refine .rounds none start finish start hv htest hupdate hbody (h₂.withLabels _) hinner₂
        ?_ ?_ ?_
      · simpa using ⟨⟨plain₁, const₁⟩, ⟨plain₂, const₂⟩, plain₁, const₁⟩
      · exact .inl (.inr List.mem_cons_self)
      · simp [loopLabels]
    | some n =>
      refine .freshLabel (h₂.withLabels _) fun next s₃ h₃ htable₃ _ plain₃ const₃ => ?_
      have order : ([start] ++ [next, finish]).Perm ([next, finish] ++ [start]) :=
        List.perm_append_comm
      refine .perm order ?_
      refine .rounds (some n) start finish next hv htest hupdate hbody (h₃.withLabels _)
        ?_ ?_ ?_ ?_
      · rw [htable₃]
        exact hinner₂
      · simpa using ⟨⟨plain₁, const₁⟩, ⟨plain₂, const₂⟩, plain₃, const₃⟩
      · exact .inl (.inl (.inr List.mem_cons_self))
      · simp [loopLabels]
  cases init with
  | none => exact labelled known t ready hinner
  | some n =>
    refine Does.bindRun (hv.exec (hinit n rfl) ready) ?_
    intro known₁ _ s₁ hg h₁ _
    exact labelled known₁ s₁ h₁ (hg.same.inner_ne_nil hinner)

/-! ## Ways out -/

theorem Does.breakOut (h : Ready Γ known s) : Does Γ known s (Lower.breakOut pos) Whatever := by
  unfold Lower.breakOut
  refine .query h.stable rfl ?_
  split
  · rename_i l hl
    exact (Does.emitExit h (target_of_loopTarget h hl).1).whatever
  · exact .fail

theorem Does.continueOn (h : Ready Γ known s) : Does Γ known s (Lower.continueOn pos) Whatever := by
  unfold Lower.continueOn
  refine .query h.stable rfl ?_
  split
  · rename_i l hl
    obtain ⟨-, hlabel, hclean⟩ := target_of_loopTarget h hl
    exact (Does.emitJump h (.inl ⟨rfl, rfl⟩) hlabel hclean).whatever
  · exact .fail

end Frontend
