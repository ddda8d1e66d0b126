import Frontend.Proofs.Course.Expression

/-!
# Courses of assignments and of control flow

What an assignment or an increment stores goes to a temporary, to a variable that is no constant, or to a
field that may be set. A label of a branch or a loop is due until it is placed.
-/

namespace Frontend.Course

open SymbolTable

variable {home : Option Home} {ws : List String} {s s' : Lowering} {t : SymbolTable} {visit : Visit} {α β : Type}
variable {n test : Node} {place : Lower.Target} {pos : Position} {update : Option Node} {body : Block}
variable {field : VariableInfo} {Q : β → List String → Lowering → Prop} {result : Operand} {value : Node} {op : Token}
  {start finish next : String} {due : List String}

/-! ## Targets -/

/-- A target that is a variable or a field, if it is a symbol. -/
def IsPlace (t : SymbolTable) : Lower.Target → Prop
  | .slot id => ∃ v, (t.get id).var? = some v
  | .field _ id => ∃ v, (t.get id).detail = .var v
  | .element .. => True

/-- A place that may change, seen from a function. -/
def MayChange (home : Option Home) (t : SymbolTable) : Lower.Target → Prop
  | .slot id => ∃ v, (t.get id).var? = some v ∧ v.const = false
  | .field _ id => ∃ v, (t.get id).detail = .var v ∧ (v.const = false ∨
      ∃ h f, home = some h ∧ (t.get h.function).function? = some f ∧ f.kind = .construct ∧ f.owner = v.owner)
  | .element .. => True

theorem Asks.constructs : Asks (Lower.constructs field) := by
  refine (Asks.ask _).bind fun t => (Asks.ask _).bind fun id? => ?_
  split
  · exact .pure _
  · exact .pure _

/-- In a constructor of the class of a field the home of the place is that constructor. -/
theorem Good.constructs (hg : Good home s) (h : Lower.constructs field s = (.ok true, s)) :
    ∃ h f, home = some h ∧ (s.table.get h.function).function? = some f ∧ f.kind = .construct ∧ f.owner = field.owner := by
  have hhome := hg.home
  obtain ⟨t, s₁, ht, h⟩ := Lower.bind_eq_ok.mp h
  obtain ⟨id?, s₂, hid, h⟩ := Lower.bind_eq_ok.mp h
  cases ht
  obtain rfl : s.innermost = id? := Except.ok.inj (Prod.mk.inj hid).1
  obtain rfl : s = s₂ := (Prod.mk.inj hid).2
  cases hin : s.innermost with
  | none =>
    rw [hin] at h
    cases h
  | some id =>
    rw [hin] at h hhome
    obtain ⟨h', rfl, rfl⟩ := Option.map_eq_some_iff.mp hhome
    have hsome : (s.table.get h'.function).function?.isSome = true :=
      List.find?_some (p := fun id => (s.table.get id).function?.isSome) hin
    obtain ⟨f, hf⟩ := Option.isSome_iff_exists.mp hsome
    have hb : (f.kind == .construct && f.owner == field.owner) = true := by
      change (Except.ok _, s) = (Except.ok true, s) at h
      rw [hf] at h
      exact Except.ok.inj (Prod.mk.inj h).1
    obtain ⟨hkind, howner⟩ := Bool.and_eq_true_iff.mp hb
    exact ⟨h', f, rfl, hf, eq_of_beq hkind, eq_of_beq howner⟩

theorem MayChange.congr {t' : SymbolTable} (h : MayChange home t place)
    (hcore : ∀ id, (t'.get id).core = (t.get id).core) : MayChange home t' place := by
  cases place with
  | element container key => trivial
  | slot id =>
    obtain ⟨v, hv, hconst⟩ := h
    obtain ⟨v', hv', hsame⟩ := Symbol.var?_of_core (hcore id) hv
    exact ⟨v', hv', (congrArg VariableInfo.const hsame).trans hconst⟩
  | field object id =>
    obtain ⟨v, hv, hmay⟩ := h
    obtain ⟨v', hv', hsame⟩ := Symbol.var_of_core (hcore id) hv
    refine ⟨v', hv', hmay.imp (congrArg VariableInfo.const hsame).trans ?_⟩
    rintro ⟨h, f, hhome, hf, hkind, howner⟩
    obtain ⟨f', hf', hfsame⟩ := Symbol.function?_of_core (hcore h.function) hf
    refine ⟨h, f', hhome, hf', (congrArg FunctionInfo.kind hfsame).trans hkind, ?_⟩
    exact (congrArg FunctionInfo.owner hfsame).trans (howner.trans (congrArg VariableInfo.owner hsame).symm)

theorem core_get_mapVariable {g : VariableInfo → VariableInfo} (hg : ∀ v, (g v).core = v.core) (t : SymbolTable)
    (id j : SymbolId) : ((t.modify id (Symbol.mapVariable g)).get j).core = (t.get j).core := by
  rw [get_modify]
  split
  · next hj => rw [hj.1, Symbol.core_mapVariable hg]
  · rfl

variable [Setting]

section
variable (hv : ∀ n, Tame (visit n))
include hv

theorem Goes.resolveTarget :
    Goes home ws s (Lower.resolveTarget visit n) fun target ws' s' => ws' = ws ∧ IsPlace s'.table target := by
  unfold Lower.resolveTarget
  split
  · refine .unless fun _ => .ask ?_
    split
    · next id hid =>
      exact .ite (fun h => .pure ⟨rfl, Option.isSome_iff_exists.mp h⟩) fun _ => .fail
    · refine .asks Asks.implicitMember fun found? _ => ?_
      split
      · exact .fail
      · refine .ite (fun h => .pure ⟨rfl, ?_⟩) fun _ => .fail
        next found _ =>
        change ∃ v, (s.table.get found.member).detail = .var v
        cases hd : (s.table.get found.member).detail with
        | var v => exact ⟨v, rfl⟩
        | _ =>
          rw [show s.session.symbols.get found.member = s.table.get found.member from rfl, hd] at h
          cases h
  · refine (Tame.resolveMember hv).then fun found s₁ _ => Goes.ask ?_
    refine .ite (fun h => .pure ⟨rfl, ?_⟩) fun _ => .fail
    change ∃ v, (s₁.table.get found.member).detail = .var v
    cases hd : (s₁.table.get found.member).detail with
    | var v => exact ⟨v, rfl⟩
    | _ =>
      rw [show s₁.session.symbols.get found.member = s₁.table.get found.member from rfl, hd] at h
      cases h
  · exact (temper.indexed hv).then fun _ s₁ _ => .pure ⟨rfl, trivial⟩
  · exact .fail

omit hv

/-- A target that must keep its value is refused. -/
theorem Goes.checkConst {f : Unit → Lower β} (hplace : IsPlace s.table place)
    (hf : MayChange home s.table place → Goes home ws s (f ()) Q) :
    Goes home ws s (Lower.checkConst place n >>= f) Q := by
  unfold Lower.checkConst
  cases place with
  | element container key => exact hf trivial
  | slot id =>
    obtain ⟨v, hv⟩ := hplace
    change Goes home ws s ((if ((s.table.get id).var?.getD {}).const = true then _ else _) >>= f) Q
    rw [hv, Option.getD_some]
    split
    · exact .failBind
    · next hconst => exact hf ⟨v, hv, Bool.eq_false_iff.mpr hconst⟩
  | field object id =>
    obtain ⟨v, hv⟩ := hplace
    have hvar : (s.table.get id).var? = some v := by rw [Symbol.var?, hv]
    change Goes home ws s ((if ((s.table.get id).var?.getD {}).const = true then _ else _) >>= f) Q
    rw [hvar, Option.getD_some]
    split
    · change Goes home ws s ((Lower.constructs v >>= fun excused => _) >>= f) Q
      rw [Lower.bind_assoc]
      refine .asks Asks.constructs fun excused hexcused => ?_
      cases excused with
      | false => exact .failBind
      | true => exact .good fun hg => hf ⟨v, hv, .inr (hg.constructs hexcused)⟩
    · next hconst => exact hf ⟨v, hv, .inl (Bool.eq_false_iff.mpr hconst)⟩

theorem Goes.loadTarget {f : Operand → Lower β} (hf : ∀ o s', s'.table = s.table → Goes home ws s' (f o) Q) :
    Goes home ws s (Lower.loadTarget place n >>= f) Q := by
  unfold Lower.loadTarget
  cases place with
  | slot id => exact hf _ s rfl
  | field object id =>
    dsimp only
    rw [Lower.bind_assoc]
    refine .ask ?_
    rw [Lower.bind_assoc]
    refine .freshTemp fun i s₁ _ ht => ?_
    rw [Lower.bind_assoc]
    exact .emitTo rfl rfl (hf _ _ ht)
  | element container key =>
    dsimp only
    rw [Lower.bind_assoc]
    refine .freshTemp fun i s₁ _ ht => ?_
    rw [Lower.bind_assoc]
    exact .emitTo rfl rfl (hf _ _ ht)

/-- A value goes to a place that may change. -/
theorem Goes.storeTarget {o : Operand} (h : MayChange home s.table place) :
    Goes home ws s (Lower.storeTarget place o) (Same ws) := by
  unfold Lower.storeTarget
  cases place with
  | slot id =>
    obtain ⟨v, hv, hconst⟩ := h
    exact .ask (.move (.inr ⟨id, v, hv, hconst, rfl⟩) fun _ _ _ => rfl)
  | field object id =>
    obtain ⟨v, hv, hmay⟩ := h
    refine .ask (.write rfl (fun w hw => absurd hw List.not_mem_nil) (fun _ => ⟨_, _, _, rfl, ?_⟩) rfl)
    exact ⟨id, v, hv, rfl, hmay⟩
  | element container key => exact Tame.emitOn rfl rfl _ _ _

section
variable (hplace : MayChange home s.table place) (hresult : Word.Below s.supply.rids result.raw)
include hplace hresult

/-- What an assignment leaves: the variable, or the value that was stored. -/
theorem Goes.finishAssign : Goes home ws s (Lower.finishAssign place result) (Same ws) := by
  refine (Goes.storeTarget hplace).bind ?_
  rintro _ _ s₁ hcourse rfl
  split
  · exact .ask (.pushSymbol (raw_ofSymbol _ _) rfl)
  · exact .push (hresult.mono hcourse.steps.supply.rids) rfl

/-- The result of an assignment is checked, remembered and stored. -/
theorem Goes.settle : Goes home ws s (Lower.settle place value result) (Same ws) := by
  unfold Lower.settle
  dsimp only
  split
  · next id _ =>
    refine .ask (.unless fun _ => .ite (fun _ => ?_) fun _ => .finishAssign hplace hresult)
    have hg : ∀ v : VariableInfo, { v with value := result.effective, meaning := result.meaning }.core = v.core :=
      fun _ => rfl
    refine .step rfl (.change (.value id _ hg)) (.finishAssign (hplace.congr ?_) hresult)
    exact core_get_mapVariable hg s.table id
  · exact .finishAssign hplace hresult

end

include hv

theorem Tame.assign {target : Node} : Tame (Lower.assign visit target op value n) := by
  intro home ws s
  unfold Lower.assign
  refine (Goes.eval hv value).bind ?_
  rintro given _ s₁ - ⟨rfl, hgiven⟩
  refine (Goes.resolveTarget hv).bind ?_
  rintro place _ s₂ hcourse ⟨rfl, hplace⟩
  refine .checkConst hplace fun hmay => .ite (fun _ => ?_) fun _ => ?_
  · exact .settle hmay (hgiven.mono hcourse.steps.supply.rids)
  · refine .loadTarget fun current s₃ h₃ => Goes.binary.bind ?_
    rintro o _ s₄ - ⟨rfl, h₄, ho⟩
    have hsame : s₄.table = s₂.table := h₄.trans h₃
    exact .settle (hsame ▸ hmay) (Word.below_of_not_hasNumber ho)

theorem Tame.increment {operand : Node} : Tame (Lower.increment visit operand op n) := by
  intro home ws s
  unfold Lower.increment
  refine (Goes.resolveTarget hv).bind ?_
  rintro place _ s₁ - ⟨rfl, hplace⟩
  refine .checkConst hplace fun hmay => ?_
  cases place with
  | slot id =>
    obtain ⟨v, hv, hconst⟩ := hmay
    refine .ask (.unless fun _ => .freshTemp fun i s₂ _ h₂ => .emitTo rfl rfl ?_)
    refine .bind (R := Same _) (.write rfl (fun w hw => .inr ⟨id, v, ?_, hconst, ?_⟩) (fun h => by cases h) rfl) ?_
    · change (s₂.table.get id).var? = some v
      rwa [h₂]
    · change (s₂.table.get id).rid = w
      rw [List.mem_singleton.mp hw, h₂]
      exact (raw_ofSymbol _ _).symm
    · rintro _ _ s₃ - rfl
      exact temper.pushTemp _ _ _
  | field object id =>
    refine .loadTarget fun current s₂ h₂ => .unless fun _ => .freshTemp fun i s₃ _ h₃ => .emitTo rfl rfl ?_
    refine .freshTemp fun j s₄ _ h₄ => .emitTo rfl rfl ?_
    have hsame : s₄.table = s₁.table := h₄.trans (h₃.trans h₂)
    refine .bind (R := Same _) (.storeTarget (show MayChange home s₄.table _ from hsame ▸ hmay)) ?_
    rintro _ _ s₅ - rfl
    exact temper.pushTemp _ _ _
  | element container key =>
    refine .loadTarget fun current s₂ h₂ => .unless fun _ => .freshTemp fun i s₃ _ h₃ => .emitTo rfl rfl ?_
    refine .freshTemp fun j s₄ _ h₄ => .emitTo rfl rfl ?_
    refine .bind (R := Same _) (.storeTarget trivial) ?_
    rintro _ _ s₅ - rfl
    exact temper.pushTemp _ _ _

/-! ## Control flow -/

theorem Tame.condition {c : Condition} : Tame (Lower.condition visit c) := by
  refine (Tame.ask _).bind fun finish? => ?_
  split
  · exact .fail _
  · refine (temper.eval hv c.test).bind fun _ => temper.materialize.bind fun _ => ?_
    intro home ws s
    refine Goes.freshLabel fun l s₁ _ => (Tame.emitOn rfl rfl).then fun _ s₂ _ => (hv _).then fun _ s₃ _ => ?_
    exact (Tame.emitOn rfl rfl).then fun _ s₄ _ => Goes.bringLast rfl (.refl _)

theorem Tame.branch {tests : List Condition} {otherwise : Option Block} :
    Tame (Lower.branch visit tests otherwise) := by
  intro home ws s
  refine .freshLabel fun finish s₁ hfinish => .forEffect (Q := fun _ ws' => ws' = ws) ?_
  refine (Tame.push hfinish).then fun _ s₂ _ => (temper.forAll fun c _ => Tame.condition hv).then fun _ s₃ _ => ?_
  split
  · exact (hv _).then fun _ s₄ _ => .bringLast rfl (.refl _)
  · exact .bringLast rfl (.refl _)

omit hv

/-- A label of a loop is entered in its scope. -/
theorem Tame.enterTarget {word rid : String} (h : ¬ Word.HasNumber rid) : Tame (Lower.enterTarget word rid pos) := by
  intro home ws s
  refine .newSymbol (fun v hv => ?_) rfl rfl (.inr h) ⟨Word.below_of_not_hasNumber h, fun f hf => ?_⟩ fun _ => ?_
  · cases hv
  · cases hf
  · exact Tame.insert _ _ _

include hv

/-- One round of a loop places its labels. -/
theorem Goes.round (hdue : ([start] ++ ((update.map fun _ => next).toList ++ ([finish] ++ ws))).Subperm due) :
    Goes home due s (Lower.round visit test update body start finish next) (Same ws) := by
  refine .bring rfl hdue fun s₁ _ => (temper.eval hv test).then fun _ s₂ _ => temper.materialize.then fun _ s₃ _ => ?_
  refine (Tame.emitOn rfl rfl).then fun _ s₄ _ => (hv _).then fun _ s₅ _ => ?_
  split
  · refine .bring rfl (.refl _) fun s₆ _ => (temper.exec hv _).then fun _ s₇ _ => ?_
    exact (Tame.emitOn rfl rfl).then fun _ s₈ _ => Goes.bringLast rfl (.refl _)
  · exact (Tame.emitOn rfl rfl).then fun _ s₆ _ => Goes.bringLast rfl (.refl _)

theorem Goes.rounds (hfinish : ¬ Word.HasNumber finish) (hnext : ¬ Word.HasNumber next)
    (hdue : ([start] ++ ((update.map fun _ => next).toList ++ ([finish] ++ ws))).Subperm due) :
    Goes home due s (Lower.rounds visit pos test update body start finish next) (Same ws) := by
  refine (Tame.enterTarget hfinish).then fun _ s₁ _ => (Tame.enterTarget hnext).then fun _ s₂ _ => ?_
  exact .inLoop (.round hv hdue)

theorem Tame.loop {init : Option Node} : Tame (Lower.loop visit pos init test update body) := by
  have labelled : Tame (Lower.labelled visit pos test update body) := by
    intro home ws s
    refine .freshLabel fun start s₁ hstart => .freshLabel fun finish s₂ hfinish => ?_
    cases update with
    | some n =>
      refine .freshLabel fun next s₃ hnext => .rounds hv hfinish hnext (List.Perm.subperm ?_)
      exact (List.Perm.swap ..).trans ((List.Perm.swap ..).cons _)
    | none => exact .rounds hv hfinish hstart (List.Perm.swap ..).subperm
  rw [Lower.loop_eq]
  refine .inScope ?_
  cases init with
  | some n => exact (temper.exec hv n).bind fun _ => labelled
  | none => exact labelled

end

end Frontend.Course
