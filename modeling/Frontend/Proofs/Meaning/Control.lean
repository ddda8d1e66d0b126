import Frontend.Proofs.Meaning.Assignment

/-!
# The meaning of blocks, branches and loops

Every statement is lowered to a passage that does what the statement does, whatever statements are
nested in it. The tests of a chain share the end label that lies on the operand stack; a loop enters
the label of its next round in its scope, where the innermost `continue` finds it.
-/

namespace Frontend.Meaning

open SymbolTable Machine

/-- A lowering that gives expressions their values and does what statements do. A block leaves no
operands. -/
structure StmtOk (visit : Visit) : Prop where
  value : ValueOk visit
  node : ∀ {n : Node} {st : Stmt} {c c' : Scoping} {round : Option String} {s : Lowering},
    Stmt.ofNode? c n = some (st, c') → Follows c round s →
      Emits s (visit n) fun code _ s' =>
        (∃ new, s'.operands = new ++ s.operands) ∧ Goes c' round st s code s'
  block : ∀ {b : Block} {st : Stmt} {c c' : Scoping} {round : Option String} {s : Lowering},
    Stmt.ofBlock? c b = some (st, c') → Follows c round s →
      Emits s (visit (.block b)) fun code _ s' =>
        s'.operands = s.operands ∧ Goes c' round st s code s'

variable {visit : Visit} {c c' : Scoping} {round : Option String} {s s' : Lowering} {n : Node}
  {st : Stmt}
variable {finish : String} {old : List Operand} {test : Node} {body : Block} {e : Expr} {c₁ : Scoping}
  {pos : Position} {update : Option Node} {u : Stmt}
variable {chain : List (Expr × Stmt)} {start next : String} {token : Token}

theorem StmtOk.exec (hv : StmtOk visit) (hn : Stmt.ofNode? c n = some (st, c')) (h : Follows c round s) :
    Emits s (Lower.exec visit n) fun code _ s' =>
      s'.operands = s.operands ∧ Goes c' round st s code s' := by
  refine .forEffect ((hv.node hn h).weaken ?_)
  rintro code _ s' ⟨⟨new, hops⟩, hgoes⟩
  have hk : Keeps s' (Lower.truncate s.operands.length s') := ⟨rfl, rfl, rfl⟩
  exact ⟨truncate_append s' new s.operands hops, hgoes.toReaches.trans (hgoes.follows.reaches hk), hgoes.performs⟩

/-! ## Blocks -/

/-- A note in the code is no instruction. -/
theorem emits_annotate (n : Node) :
    Emits s (Lower.annotate n) fun d _ s' => d = [] ∧ s'.operands = s.operands ∧ Keeps s s' := by
  intro a s' hs
  unfold Lower.annotate Lower.change at hs
  simp only [Prod.mk.injEq] at hs
  obtain ⟨-, rfl⟩ := hs
  by_cases hnote : s.out.annotate = true
  · rw [if_pos hnote]
    refine ⟨[.note (Path.base s.file ++ ":" ++ Text.ofInt n.pos.line ++ " " ++ n.summary)], ?_,
      rfl, rfl, rfl, rfl, rfl⟩
    simp only [CodeBuffer.note, if_pos hnote]
    rfl
  · rw [if_neg hnote]
    exact ⟨[], rfl, rfl, rfl, .refl s⟩

theorem StmtOk.items (hv : StmtOk visit) {ns : List Node}
    (hn : Stmt.ofItems? c ns = some (st, c')) (h : Follows c round s) :
    Emits s (Lower.items visit ns) fun code _ s' =>
      s'.operands = s.operands ∧ Goes c' round st s code s' := by
  induction ns generalizing c s st with
  | nil =>
    rw [Stmt.ofItems?] at hn
    cases hn
    exact .pure ⟨rfl, .skip h⟩
  | cons n ns ih =>
    simp only [Stmt.ofItems?, Option.bind_eq_bind, Option.bind_eq_some_iff] at hn
    obtain ⟨⟨first, c₁⟩, hfirst, ⟨rest, c₂⟩, hrest, ⟨⟩⟩ := hn
    change Emits s ((Lower.annotate n >>= fun _ => Lower.exec visit n) >>= fun _ =>
      Lower.items visit ns) _
    rw [Lower.bind_assoc]
    refine .bind (emits_annotate n) ?_
    rintro _ _ s₁ ⟨rfl, hops₁, hk₁⟩
    refine .bind (hv.exec hfirst (h.keeps hk₁)) ?_
    rintro code _ s₂ ⟨hops₂, hgoes₂⟩
    refine (ih hrest hgoes₂.follows).weaken ?_
    rintro d _ s₃ ⟨hops₃, hgoes₃⟩
    exact ⟨by rw [hops₃, hops₂, hops₁], (hgoes₂.seq hgoes₃).after (h.reaches hk₁)⟩

/-- A passage in a scope of its own. Behind it names mean what they meant in front of it. -/
theorem Emits.scope {kind : ScopeKind} {p : Lower Unit} (h : Follows c round s) (hkind : kind ≠ .function)
    (hp : ∀ s₁, Follows c.enter round s₁ → s₁.table.inner ≠ [] →
      Emits s₁ p fun code _ s' => s'.operands = s₁.operands ∧
        (∃ round', Reaches c' round' s₁ s') ∧ Performs code st round) :
    Emits s (Lower.inScope kind p) fun code _ s' =>
      s'.operands = s.operands ∧ Goes c'.leave round st s code s' := by
  refine .inScope ?_
  generalize hs₁ : ({ s with
    session := { s.session with symbols := s.table.enter kind }
    scopes := kind :: s.scopes } : Lowering) = s₁
  have htable : s₁.table = s.table.enter kind := by rw [← hs₁]
  have hrids : s₁.supply.rids = s.supply.rids := by rw [← hs₁]
  have hprocessing : s₁.processing = s.processing := by rw [← hs₁]
  have hops : s₁.operands = s.operands := by rw [← hs₁]
  have inner : s₁.table.inner ≠ [] := by
    rw [htable]
    exact fun e => nomatch e
  refine (hp s₁ (h.enter hkind htable hrids hprocessing) inner).weaken ?_
  rintro code _ s₂ ⟨hops₂, ⟨round', hr₂⟩, hperforms⟩
  have hsame : SameScopes (s.table.enter kind) s₂.table := by
    rw [← htable]
    exact hr₂.same
  have hgrows : Extends s.table s₂.table := by
    refine .trans (.of_eq ?_ ?_) hr₂.grows
    · rw [htable]
      rfl
    · rw [htable]
      rfl
  obtain ⟨hinner, hsymbols, hglobal, -⟩ := leaveTo_of_sameScopes hsame
  refine ⟨hops₂.trans hops, ⟨?_, .of_eq hinner, ?_⟩, hperforms⟩
  · exact h.leave hr₂.follows hsame hgrows rfl rfl
      (by rw [hr₂.follows.processing, h.processing])
  · exact hgrows.trans (.of_eq hsymbols (by rw [hglobal]))

theorem StmtOk.blockItems (hv : StmtOk visit) {b : Block}
    (hn : Stmt.ofBlock? c b = some (st, c')) (h : Follows c round s) :
    Emits s (Lower.block visit b) fun code _ s' =>
      s'.operands = s.operands ∧ Goes c' round st s code s' := by
  obtain ⟨opening, closing, items⟩ := b
  simp only [Stmt.ofBlock?, Option.bind_eq_bind, Option.bind_eq_some_iff] at hn
  obtain ⟨⟨inside, c₁⟩, hitems, ⟨⟩⟩ := hn
  refine .scope h (fun e => nomatch e) fun s₁ h₁ _ => ?_
  refine (hv.items hitems h₁).weaken ?_
  rintro code _ s₂ ⟨hops₂, hgoes⟩
  exact ⟨hops₂, ⟨round, hgoes.toReaches⟩, hgoes.performs⟩

/-! ## Branches -/

theorem endLabel?_of_top (h : s.operands = .label finish :: old) : Lower.endLabel? s = (.ok (some finish), s) := by
  unfold Lower.endLabel? Lower.ask
  simp only [h]
  rfl

/-- One test of a chain: behind it comes what is left of the chain. -/
theorem StmtOk.condition (hv : StmtOk visit) {pos : Token} (he : Expr.ofNode? c test = some e)
    (hn : Stmt.ofBlock? c body = some (st, c')) (h : Follows c round s) (hops : s.operands = .label finish :: old) :
    Emits s (Lower.condition visit (.mk pos test body)) fun code _ s' =>
      s'.operands = s.operands ∧ Reaches c' round s s' ∧ ∀ {rest : List Instruction} {t : Stmt},
        Leads rest t finish round → Leads (code ++ rest) (.branch e st t) finish round := by
  unfold Lower.condition
  refine .quiet (a := some finish) (endLabel?_of_top hops) rfl ?_
  simp only
  refine .bind (ValueOk.eval hv.value he h) ?_
  rintro codeₑ o s₁ ⟨hops₁, hk₁, hg⟩
  refine .bind hg.materialize ?_
  rintro d o' s₂ ⟨hops₂, hk₂, hevaluates⟩
  refine .freshLabel fun skip s₃ hk₃ hops₃ => ?_
  refine .emitBind fun s₄ hk₄ hops₄ _ => ?_
  have hk := ((hk₁.trans hk₂).trans hk₃).trans hk₄
  refine .bind (hv.block hn (h.keeps hk)) ?_
  rintro codeᵦ _ s₅ ⟨hops₅, hgoes⟩
  refine .emitBind fun s₆ hk₆ hops₆ _ => ?_
  refine .emit fun s₇ hk₇ hops₇ _ => ?_
  refine ⟨by rw [hops₇, hops₆, hops₅, hops₄, hops₃, hops₂, hops₁], ?_, ?_⟩
  · exact ((h.reaches hk).trans hgoes.toReaches).trans (hgoes.follows.reaches (hk₆.trans hk₇))
  · intro rest t hrest
    have chain := Leads.test skip hevaluates hgoes.performs hrest
    simpa only [List.append_assoc, List.cons_append, List.nil_append] using chain

/-- The tests of a chain, all with the same end. -/
theorem StmtOk.tests (hv : StmtOk visit) {tests : List Condition} (hn : Stmt.ofTests? c tests = some (chain, c'))
    (h : Follows c round s) (hops : s.operands = .label finish :: old) :
    Emits s (Lower.forAll (Lower.condition visit) tests) fun code _ s' =>
      s'.operands = s.operands ∧ Reaches c' round s s' ∧ ∀ {rest : List Instruction} {t : Stmt},
        Leads rest t finish round → Leads (code ++ rest) (Stmt.chain chain t) finish round := by
  induction tests generalizing c s chain with
  | nil =>
    rw [Stmt.ofTests?] at hn
    cases hn
    exact .pure ⟨rfl, h.reaches (.refl s), fun hrest => hrest⟩
  | cons test tests ih =>
    obtain ⟨pos, test, body⟩ := test
    simp only [Stmt.ofTests?, Option.bind_eq_bind, Option.bind_eq_some_iff] at hn
    obtain ⟨e, he, ⟨first, c₁⟩, hbody, ⟨others, c₂⟩, hrest, ⟨⟩⟩ := hn
    refine .bind (hv.condition he hbody h hops) ?_
    rintro code _ s₁ ⟨hops₁, hr₁, hfirst⟩
    refine (ih hrest hr₁.follows (hops₁.trans hops)).weaken ?_
    rintro d _ s₂ ⟨hops₂, hr₂, hothers⟩
    refine ⟨hops₂.trans hops₁, hr₁.trans hr₂, fun hlast => ?_⟩
    rw [List.append_assoc]
    exact hfirst (hothers hlast)

theorem StmtOk.branch (hv : StmtOk visit) {tests : List Condition} {otherwise : Option Block}
    (htests : Stmt.ofTests? c tests = some (chain, c₁)) (hn : Stmt.ofOtherwise? c₁ otherwise = some (st, c'))
    (h : Follows c round s) :
    Emits s (Lower.branch visit tests otherwise) fun code _ s' =>
      s'.operands = s.operands ∧ Goes c' round (Stmt.chain chain st) s code s' := by
  unfold Lower.branch
  refine .freshLabel fun finish s₁ hk₁ hops₁ => .forEffect ?_
  refine .bind (R := fun d _ s₂ => d = [] ∧ s₂.operands = Operand.label finish :: s₁.operands ∧
    Keeps s₁ s₂) (.push fun s₂ hk₂ hops₂ _ => ⟨rfl, hops₂, hk₂⟩) ?_
  rintro _ _ s₂ ⟨rfl, hops₂, hk₂⟩
  have hk := hk₁.trans hk₂
  refine .bind (hv.tests htests (h.keeps hk) hops₂) ?_
  rintro code _ s₃ ⟨hops₃, hr₃, hchain⟩
  -- the end label comes last, and the one on the stack is dropped
  have ended : ∀ {d : List Instruction} {s₄ : Lowering}, s₄.operands = s₃.operands →
      Goes c' round st s₃ d s₄ →
      Emits s₄ (Lower.emit .set [finish]) fun d' _ s' =>
        (Lower.truncate s₁.operands.length s').operands = s.operands ∧
          Goes c' round (Stmt.chain chain st) s (code ++ (d ++ d'))
            (Lower.truncate s₁.operands.length s') := by
    intro d s₄ hops₄ hgoes
    refine .emit fun s₅ hk₅ hops₅ _ => ?_
    have stack : s₅.operands = [.label finish] ++ s₁.operands := by
      rw [hops₅, hops₄, hops₃, hops₂]
      rfl
    have hk₆ : Keeps s₅ (Lower.truncate s₁.operands.length s₅) := ⟨rfl, rfl, rfl⟩
    refine ⟨(truncate_append s₅ _ _ stack).trans hops₁, ?_, ?_⟩
    · exact ((h.reaches hk).trans hr₃).trans
        (hgoes.toReaches.trans (hgoes.follows.reaches (hk₅.trans hk₆)))
    · rw [← List.append_assoc]
      exact (hchain (hgoes.performs.leads finish)).performs
  cases otherwise with
  | none =>
    rw [Stmt.ofOtherwise?] at hn
    cases hn
    exact ended rfl (.skip hr₃.follows)
  | some body =>
    rw [Stmt.ofOtherwise?] at hn
    refine .bind (hv.block hn hr₃.follows) ?_
    rintro d _ s₄ ⟨hops₄, hgoes⟩
    exact ended hops₄ hgoes

/-! ## Loops -/

/-- What is done between two rounds of a loop. -/
def Stmt.ofUpdate? (c : Scoping) : Option Node → Option (Stmt × Scoping)
  | none => some (.skip, c)
  | some n => Stmt.ofNode? c n

/-- A label of a loop is entered in the scope of the loop. -/
theorem Follows.enterTarget {word l : String} (h : Follows c round s) (hword : word ≠ discardName)
    (hinner : s.table.inner ≠ []) :
    Emits s (Lower.enterTarget word l pos) fun d _ s' => d = [] ∧ s'.operands = s.operands ∧
      Reaches c (if word = Lower.continueWord then some l else round) s s' := by
  unfold Lower.enterTarget
  refine .newSymbol fun s₁ htable₁ hsupply₁ hprocessing₁ hops₁ => ?_
  refine .tryTable fun s₂ hi hsupply₂ hprocessing₂ hops₂ => ?_
  rw [htable₁] at hi
  obtain ⟨h₂, hsame⟩ := h.target rfl hinner hword hi (by rw [hsupply₂, hsupply₁])
    (by rw [hprocessing₂, hprocessing₁])
  exact ⟨rfl, hops₂.trans hops₁, h₂, hsame, (adds_insertAt hi).grows⟩

section
variable (hv : StmtOk visit) (he : Expr.ofNode? c test = some e) (hbody : Stmt.ofBlock? c body = some (st, c₁))
  (hupdate : Stmt.ofUpdate? c₁ update = some (u, c'))
include hv he hbody hupdate

/-- The inside of a loop, between its head and its end, makes a loop. -/
theorem StmtOk.goesRound (hnext : update = none → next = start) (h : Follows c (some next) s) :
    Emits s (Lower.round visit test update body start finish next) fun code _ s' =>
      s'.operands = s.operands ∧ Reaches c' (some next) s s' ∧ ∀ round,
        Performs (⟨.untilLoop, [start, finish]⟩ :: (code ++ [⟨.finish, []⟩])) (.loop e st u) round := by
  unfold Lower.round
  refine .emitBind fun s₁ hk₁ hops₁ _ => ?_
  refine .bind (ValueOk.eval hv.value he (h.keeps hk₁)) ?_
  rintro codeₑ o s₂ ⟨hops₂, hk₂, hg⟩
  refine .bind hg.materialize ?_
  rintro d o' s₃ ⟨hops₃, hk₃, hevaluates⟩
  refine .emitBind fun s₄ hk₄ hops₄ _ => ?_
  have hk := ((hk₁.trans hk₂).trans hk₃).trans hk₄
  refine .bind (hv.block hbody (h.keeps hk)) ?_
  rintro codeᵦ _ s₅ ⟨hops₅, hgoes⟩
  have hr₅ := (h.reaches hk).trans hgoes.toReaches
  have hops : s₅.operands = s.operands := by rw [hops₅, hops₄, hops₃, hops₂, hops₁]
  -- the way back to the test and the end of the loop
  have back : ∀ {again : List Instruction} {s₆ : Lowering}, s₆.operands = s.operands →
      Reaches c' (some next) s s₆ → GoesOn again u start next →
      Emits s₆
        (do
          Lower.emit .jump [start]
          Lower.emit .set [finish]) fun d' _ s' =>
        s'.operands = s.operands ∧ Reaches c' (some next) s s' ∧ ∀ round,
          Performs (⟨.untilLoop, [start, finish]⟩ :: (⟨.set, [start]⟩ :: (codeₑ ++ (d ++
            ⟨.jumpIfFalse, [o'.raw, finish]⟩ :: (codeᵦ ++ (again ++ d')))) ++ [⟨.finish, []⟩]))
            (.loop e st u) round := by
    intro again s₆ hops₆ hr₆ hagain
    refine .emitBind fun s₇ hk₇ hops₇ _ => ?_
    refine .emit fun s₈ hk₈ hops₈ _ => ?_
    refine ⟨by rw [hops₈, hops₇, hops₆], hr₆.trans (hr₆.follows.reaches (hk₇.trans hk₈)), ?_⟩
    intro round
    have loop : Performs _ _ round := .loop finish hevaluates hgoes.performs hagain
    simpa only [loopBody, List.append_assoc] using loop
  cases update with
  | none =>
    cases hupdate
    rw [hnext rfl] at back hr₅ ⊢
    exact back hops hr₅ (goesOn_test start)
  | some n =>
    refine .emitBind fun s₆ hk₆ hops₆ _ => ?_
    refine .bind (hv.exec hupdate (hr₅.follows.keeps hk₆)) ?_
    rintro codeᵤ _ s₇ ⟨hops₇, hgoes₇⟩
    have hr₇ := (hr₅.trans (hr₅.follows.reaches hk₆)).trans hgoes₇.toReaches
    exact back (by rw [hops₇, hops₆, hops]) hr₇ (hgoes₇.performs.goesOn start)

/-- A loop whose labels were taken, in its scope. -/
theorem StmtOk.rounds (hnext : update = none → next = start) (h : Follows c round s) (hinner : s.table.inner ≠ []) :
    Emits s (Lower.rounds visit pos test update body start finish next) fun code _ s' =>
      s'.operands = s.operands ∧ Reaches c' (some next) s s' ∧ Performs code (.loop e st u) round := by
  unfold Lower.rounds Lower.framed
  refine .bind (h.enterTarget (by decide) hinner) ?_
  rintro _ _ s₁ ⟨rfl, hops₁, hr₁⟩
  refine .bind (hr₁.follows.enterTarget (by decide) (hr₁.same.inner_ne_nil hinner)) ?_
  rintro _ _ s₂ ⟨rfl, hops₂, hr₂⟩
  rw [if_pos rfl] at hr₂
  refine .emitBind fun s₃ hk₃ hops₃ _ => ?_
  refine .bind (hv.goesRound he hbody hupdate hnext (hr₂.follows.keeps hk₃)) ?_
  rintro code _ s₄ ⟨hops₄, hr₄, hloop⟩
  refine .emit fun s₅ hk₅ hops₅ _ => ?_
  refine ⟨by rw [hops₅, hops₄, hops₃, hops₂, hops₁], ?_, hloop round⟩
  exact ((hr₁.trans hr₂).trans ((hr₂.follows.reaches hk₃).trans hr₄)).trans
    (hr₄.follows.reaches hk₅)

/-- A loop takes its labels and goes round. -/
theorem StmtOk.labelled (h : Follows c round s) (hinner : s.table.inner ≠ []) :
    Emits s (Lower.labelled visit pos test update body) fun code _ s' =>
      s'.operands = s.operands ∧ (∃ round', Reaches c' round' s s') ∧ Performs code (.loop e st u) round := by
  refine .freshLabel fun start s₁ hk₁ hops₁ => ?_
  refine .freshLabel fun finish s₂ hk₂ hops₂ => ?_
  have taken : ∀ {next : String} {s₃ : Lowering}, Keeps s₂ s₃ → s₃.operands = s₂.operands →
      (update = none → next = start) →
      Emits s₃ (Lower.rounds visit pos test update body start finish next) fun code _ s' =>
        s'.operands = s.operands ∧ (∃ round', Reaches c' round' s s') ∧
          Performs code (.loop e st u) round := by
    intro next s₃ hk₃ hops₃ hnext
    have hk := (hk₁.trans hk₂).trans hk₃
    have inner : s₃.table.inner ≠ [] := by
      rw [hk.table]
      exact hinner
    refine (hv.rounds he hbody hupdate hnext (h.keeps hk) inner).weaken ?_
    rintro code _ s₄ ⟨hops₄, hr₄, hloop⟩
    exact ⟨by rw [hops₄, hops₃, hops₂, hops₁], ⟨_, (h.reaches hk).trans hr₄⟩, hloop⟩
  cases update with
  | none => exact .quiet rfl rfl (taken (.refl s₂) rfl fun _ => rfl)
  | some n => exact .freshLabel fun next s₃ hk₃ hops₃ => taken hk₃ hops₃ fun hnone => nomatch hnone

end

theorem StmtOk.whileLoop (hv : StmtOk visit) (hn : Stmt.ofNode? c (.whileLoop token test body) = some (st, c'))
    (h : Follows c round s) :
    Emits s (Lower.loop visit token.pos none test none body) fun code _ s' =>
      s'.operands = s.operands ∧ Goes c' round st s code s' := by
  simp only [Stmt.ofNode?, Option.bind_eq_bind, Option.bind_eq_some_iff] at hn
  obtain ⟨e, he, ⟨inside, c₁⟩, hbody, ⟨⟩⟩ := hn
  rw [Lower.loop_eq]
  refine .scope h (fun e => nomatch e) fun s₁ h₁ hinner => ?_
  exact hv.labelled he hbody rfl h₁ hinner

theorem StmtOk.forLoop (hv : StmtOk visit) {init update : Node}
    (hn : Stmt.ofNode? c (.forLoop token init test update body) = some (st, c')) (h : Follows c round s) :
    Emits s (Lower.loop visit token.pos (some init) test (some update) body) fun code _ s' =>
      s'.operands = s.operands ∧ Goes c' round st s code s' := by
  simp only [Stmt.ofNode?, Option.bind_eq_bind, Option.bind_eq_some_iff] at hn
  obtain ⟨⟨first, c₁⟩, hinit, e, he, ⟨inside, c₂⟩, hbody, ⟨last, c₃⟩, hupdate, ⟨⟩⟩ := hn
  rw [Lower.loop_eq]
  refine .scope h (fun e => nomatch e) fun s₁ h₁ hinner => ?_
  refine .bind (hv.exec hinit h₁) ?_
  rintro code _ s₂ ⟨hops₂, hgoes⟩
  have hupdate : Stmt.ofUpdate? c₂ (some update) = some (last, c₃) := hupdate
  refine (hv.labelled he hbody hupdate hgoes.follows (hgoes.same.inner_ne_nil hinner)).weaken ?_
  rintro d _ s₃ ⟨hops₃, ⟨round', hr₃⟩, hloop⟩
  exact ⟨hops₃.trans hops₂, ⟨round', hgoes.toReaches.trans hr₃⟩, hgoes.performs.seq hloop⟩

/-! ## Ways out -/

theorem emits_breakOut (h : Follows c round s) : Emits s (Lower.breakOut pos) fun code _ s' =>
      s'.operands = s.operands ∧ Goes c round .breakOut s code s' := by
  unfold Lower.breakOut
  refine .quiet rfl rfl ?_
  split
  · exact .emit fun s₁ hk hops _ => ⟨hops, h.reaches hk, performs_breakOut⟩
  · exact .fail

/-- The label that is found belongs to the innermost loop. -/
theorem emits_continueOn (h : Follows c round s) : Emits s (Lower.continueOn pos) fun code _ s' =>
      s'.operands = s.operands ∧ Goes c round .continueOn s code s' := by
  unfold Lower.continueOn
  refine .quiet rfl rfl ?_
  split
  · rename_i l hl
    obtain ⟨id, hid, hsort, rfl⟩ := exists_target_of_loopTarget hl
    refine .emit fun s₁ hk hops _ => ⟨hops, h.reaches hk, ?_⟩
    exact performs_continueOn (h.round_of_findInFunction hid hsort)
  · exact .fail

/-! ## Nodes -/

/-- If the nodes inside do what they should, so do the statements made of them. -/
theorem StmtOk.visitWith (hv : StmtOk visit) : StmtOk (Lower.visitWith visit) := by
  have none : ∀ {s s' : Lowering}, s'.operands = s.operands →
      ∃ new, s'.operands = new ++ s.operands := fun hops => ⟨[], hops⟩
  refine ⟨ValueOk.visitWith hv.value, ?_, fun hn h => hv.blockItems hn h⟩
  intro n st c c' round s hn h
  cases n with
  | varDef token names values =>
    rw [Stmt.ofNode?] at hn
    exact (ValueOk.defineVariables hv.value hn h).weaken fun _ _ _ hd => ⟨none hd.1, hd.2⟩
  | assign target op value =>
    rw [Stmt.ofNode?] at hn
    exact ValueOk.assign hv.value hn h
  | increment operand op =>
    rw [Stmt.ofNode?] at hn
    exact emits_increment hn h
  | block b =>
    rw [Stmt.ofNode?] at hn
    exact (hv.blockItems hn h).weaken fun _ _ _ hd => ⟨none hd.1, hd.2⟩
  | branch tests otherwise =>
    simp only [Stmt.ofNode?, Option.bind_eq_bind, Option.bind_eq_some_iff] at hn
    obtain ⟨⟨chain, c₁⟩, htests, ⟨last, c₂⟩, hlast, ⟨⟩⟩ := hn
    exact (hv.branch htests hlast h).weaken fun _ _ _ hd => ⟨none hd.1, hd.2⟩
  | whileLoop token test body =>
    exact (hv.whileLoop hn h).weaken fun _ _ _ hd => ⟨none hd.1, hd.2⟩
  | forLoop token init test update body =>
    exact (hv.forLoop hn h).weaken fun _ _ _ hd => ⟨none hd.1, hd.2⟩
  | breakOut token =>
    rw [Stmt.ofNode?] at hn
    cases hn
    exact (emits_breakOut h).weaken fun _ _ _ hd => ⟨none hd.1, hd.2⟩
  | continueOn token =>
    rw [Stmt.ofNode?] at hn
    cases hn
    exact (emits_continueOn h).weaken fun _ _ _ hd => ⟨none hd.1, hd.2⟩
  | _ =>
    simp only [Stmt.ofNode?] at hn
    exact nomatch hn

/-- The lowering of nodes does what statements do, however deep they are nested. -/
theorem stmtOk_visit (levels : Nat) : StmtOk (Lower.visit levels) := by
  induction levels with
  | zero => exact ⟨fun _ _ => .fail, fun _ _ => .fail, fun _ _ => .fail⟩
  | succ levels ih => exact ih.visitWith

end Frontend.Meaning
