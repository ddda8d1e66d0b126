import Frontend.Proofs.Lowering.Logic

/-!
# Single steps

What the single steps of lowering do: taking fresh names, writing instructions, pushing operands and
changing the symbol table, and the steps that run another one inside of something.
-/

namespace Frontend

open SymbolTable Region

variable {Γ : Surroundings} {own own' : List String} {known known' : Set String}
  {s s' : Lowering} {α β : Type}
variable {p : Lower α} {Q : Set String → β → Lowering → Prop} {a : α} {f : String → Lower β}
  {w l : String} {op : Opcode} {args : List String}
variable {i : Instruction} {r : Region} {Δ : Surroundings} {seen : Set String} {t x word : String}

theorem mem_defs_item (h : i.Defines w) : w ∈ known ∪ (Region.item i .nil).defs :=
  .inr (.inl h)

/-- A word that may be written: it may be used, or it is a temporary. -/
def Writable (known : Set String) (t : SymbolTable) (w : String) : Prop :=
  Usable known t w ∨ Word.IsTemp w

theorem clean_of_isTemp (h : Word.IsTemp w) : Word.Clean w := by
  obtain ⟨n, rfl⟩ := h
  exact .inl (Word.plain_temp n)

theorem Writable.clean {t : SymbolTable} (h : Writable known t w) : Word.Clean w :=
  h.elim And.left clean_of_isTemp

theorem truncate_append (s : Lowering) (new old : List Operand) (h : s.operands = new ++ old) :
    (Lower.truncate old.length s).operands = old := by
  unfold Lower.truncate
  simp only [h, List.length_append, Nat.add_sub_cancel, List.drop_left]

variable [Setting]

/-! ## Steps whose effect is known -/

/-- A step that goes to a known state. -/
theorem Run.step {f : α → Lower β} (hp : p s = (.ok a, s')) (ho : Effect Γ own known s r s')
    (hf : Run Γ own' (known ∪ r.defs) s' (f a) Q) : Run Γ (own ++ own') known s (p >>= f) Q := by
  refine .bind (R := fun known' b t => known' = known ∪ r.defs ∧ b = a ∧ t = s') ?_ ?_
  · intro b t hb
    rw [hp] at hb
    cases hb
    exact ⟨r, ho, rfl, rfl, rfl⟩
  · rintro _ _ _ _ _ ⟨rfl, rfl, rfl⟩
    exact hf

/-- A step that writes nothing and pushes nothing. -/
theorem Effect.quiet (hout : s'.out = s.out) (hoperands : s'.operands = s.operands)
    (hlabels : s.supply.labels ≤ s'.supply.labels) (hrids : s.supply.rids ≤ s'.supply.rids)
    (ht : Extends s.table s'.table) (hsame : SameScopes s.table s'.table) (h : Stable s') :
    Effect Γ [] known s .nil s' :=
  { out := hout
    fits := .nil
    labelled := labelled_of_allSets_nil rfl _ _
    functions := trivial
    labels := hlabels
    rids := hrids
    table := ht
    same := hsame
    operands := ⟨[], hoperands, fun _ h => nomatch h⟩
    stable := h }

theorem Run.quietStep {f : α → Lower β} (hp : p s = (.ok a, s')) (ho : Effect Γ [] known s .nil s')
    (hf : Run Γ own known s' (f a) Q) : Run Γ own known s (p >>= f) Q := by
  refine .step hp ho ?_
  rw [show known ∪ Region.nil.defs = known from Set.union_empty known]
  exact hf

/-- A step that only asks. -/
theorem Run.query {f : α → Lower β} (h : Stable s) (hp : p s = (.ok a, s))
    (hf : Run Γ own known s (f a) Q) : Run Γ own known s (p >>= f) Q :=
  .quietStep hp (Effect.refl h) hf

/-! ## Fresh names -/

theorem Run.freshTemp (h : Ready Γ known s)
    (hf : ∀ t s', Ready Γ known s' → Grows known s known s' → s'.operands = s.operands →
      Word.IsTemp t → Run Γ own known s' (f t) Q) : Run Γ own known s (Lower.freshTemp >>= f) Q := by
  refine .quietStep rfl ?_ (hf _ _ ⟨⟨h.stable.builtins, h.stable.ordered⟩, h.sees⟩
    ⟨subset_rfl, .refl _, le_refl _, .of_eq rfl, [], rfl, fun _ h => nomatch h⟩ rfl ⟨s.supply.temps, rfl⟩)
  exact .quiet rfl rfl (le_refl _) (le_refl _) (.refl _) (.of_eq rfl)
    ⟨h.stable.builtins, h.stable.ordered⟩

/-- A fresh label has to be placed by what follows. -/
theorem Run.freshLabel (h : Ready Γ known s)
    (hf : ∀ l s', Ready Γ known s' → s'.table = s.table → s'.operands = s.operands →
      Word.Plain l → Word.Constant l → Run (Γ.withLabels [l]) (l :: own) known s' (f l) Q) :
    Run Γ own known s (Lower.freshLabel >>= f) Q := by
  intro b s'' hb
  have hready : Ready Γ known
      { s with session := { s.session with supply := s.supply.label.2 } } :=
    ⟨⟨h.stable.builtins, h.stable.ordered⟩, h.sees⟩
  obtain ⟨r, hr, hQ⟩ := hf (Word.label s.supply.labels) _ hready rfl rfl (Word.plain_label _)
    (Word.constant_label _) b s'' hb
  have hlt : s.supply.labels < s''.supply.labels := hr.labels
  refine ⟨r, { hr with
    fits := hr.fits.withoutLabels fun l hl => hr.labelled.here ?_
    labelled := hr.labelled.take hlt
    labels := hlt.le }, hQ⟩
  rw [List.mem_singleton.mp hl]
  exact List.mem_cons_self

/-- The state may be ready for other surroundings than those the step itself runs in: so it is at the
head of a function. -/
theorem Run.take {g : Supply → String × Supply} (h : Ready Δ seen s)
    (hg : g s.supply = (w, { s.supply with rids := s.supply.rids + 1 }))
    (hf : ∀ s', Ready Δ seen s' → s'.table = s.table → s'.supply.rids = s.supply.rids + 1 →
      s'.operands = s.operands → Run Γ own known s' (f w) Q) : Run Γ own known s (Lower.take g >>= f) Q := by
  have ordered : Ordered (s.supply.rids + 1) s.table := h.stable.ordered.mono (Nat.le_succ _)
  have hp : Lower.take g s = (.ok w, { s with session := { s.session with
      supply := { s.supply with rids := s.supply.rids + 1 } } }) := by
    unfold Lower.take
    rw [show s.session.supply = s.supply from rfl, hg]
  refine .quietStep hp ?_ (hf _ ⟨⟨h.stable.builtins, ordered⟩, h.sees⟩ rfl rfl rfl)
  exact .quiet rfl rfl (le_refl _) (Nat.le_succ _) (.refl _) (.of_eq rfl)
    ⟨h.stable.builtins, ordered⟩

/-- The raw id with the next number. -/
theorem Run.freshRid {name : String} (h : Ready Δ seen s)
    (hf : ∀ s', Ready Δ seen s' → s'.table = s.table → s'.supply.rids = s.supply.rids + 1 →
      s'.operands = s.operands → Run Γ own known s' (f (Word.numbered name s.supply.rids)) Q) :
    Run Γ own known s (Lower.freshRid name >>= f) Q :=
  .take h (Supply.rid_eq _ _) hf

/-! ## Instructions -/

/-- The writing of one instruction that neither opens nor closes a frame. -/
theorem Effect.emit (h : Stable s) (hop : i.op ≠ .invalid) (hframe : i.op.opensFrame = false)
    (hfinish : i.op ≠ .finish) (hclean : ∀ w ∈ i.args, Word.Clean w) (hloop : i.op = .exitLoop → Γ.inLoop)
    (hret : i.op = .ret → Γ.inFunction) (huses : ∀ l ∈ i.uses, l ∈ Γ.labels)
    (htouch : i.Touches (known ∪ s.table.free)) :
    Effect Γ i.sets known s (.item i .nil) { s with out := s.out.emit i.op i.args } where
  out := rfl
  fits :=
    ⟨⟨⟨hop, hframe, hfinish, hclean⟩, trivial⟩, ⟨⟨hloop, hret⟩, trivial⟩,
      fun l hl => .inr (huses l (by simpa [Region.uses] using hl)), ⟨htouch, trivial⟩⟩
  labelled :=
    ⟨by simp [Region.sets], [], by simp [Region.allSets], List.nodup_nil, fun _ h => nomatch h⟩
  functions := trivial
  labels := le_refl _
  rids := le_refl _
  table := .refl _
  same := .of_eq rfl
  operands := ⟨[], rfl, fun _ h => nomatch h⟩
  stable := ⟨h.builtins, h.ordered⟩

/-- Operations that only compute. -/
def isOrdinary : Opcode → Bool
  | .invalid | .func | .funi | .finish | .ret | .set | .jump | .jumpIfTrue | .jumpIfFalse
  | .untilLoop | .exitLoop => false
  | _ => true

/-- An instruction that only computes. -/
theorem Does.emit (h : Ready Γ known s) (hop : isOrdinary op = true) (hclean : ∀ w ∈ args, Word.Clean w)
    (hread : ∀ w ∈ Instruction.reads ⟨op, args⟩, Usable known s.table w)
    (hwrite : ∀ w ∈ Instruction.writes ⟨op, args⟩, Writable known s.table w ∨ (op = .allot ∧ w ∈ args)) :
    Does Γ known s (Lower.emit op args) fun known' _ s' =>
      s'.table = s.table ∧ s'.operands = s.operands ∧ ∀ w, Instruction.Defines ⟨op, args⟩ w → w ∈ known' := by
  have quiet : Instruction.sets ⟨op, args⟩ = [] ∧ Instruction.uses ⟨op, args⟩ = [] := by
    cases op <;> first | exact ⟨rfl, rfl⟩ | exact absurd hop (by decide)
  have touch : Instruction.Touches (known ∪ s.table.free) ⟨op, args⟩ := by
    refine ⟨fun w hw => (hread w hw).2, fun w hw => ?_⟩
    rcases hwrite w hw with (hu | ht) | ha
    · exact .inl hu.2
    · exact .inr (.inr ⟨ht, hw⟩)
    · exact .inr (.inl ha)
  rintro a s' ⟨⟩
  refine ⟨.item ⟨op, args⟩ .nil, ?_, ?_⟩
  · rw [← quiet.1]
    refine Effect.emit h.stable ?_ ?_ ?_ hclean ?_ ?_ (by simp [quiet.2]) touch
    all_goals
      cases op <;> first | rfl | exact absurd hop (by decide) | (intro he; cases he)
  · exact ⟨h.sees.mono Set.subset_union_left, rfl, rfl, fun w hw => mem_defs_item hw⟩

/-- Operations that make their last operand from the others. -/
def gives : Opcode → Bool
  | .newInstance | .put | .copy | .add | .mul | .div | .mod | .negate | .not | .compare | .getItem
  | .size | .keys | .values | .invoke | .typeOf => true
  | _ => false

/-- Operations that only use their operands. -/
def consumes : Opcode → Bool
  | .defineType | .append | .setItem | .deleteKey | .call | .output => true
  | _ => false

/-- An instruction that makes its last operand from the others. -/
theorem Does.emitTo (xs : List String) (h : Ready Γ known s) (hop : gives op = true)
    (hx : ∀ x ∈ xs, Usable known s.table x) (ht : Writable known s.table t) :
    Does Γ known s (Lower.emit op (xs ++ [t])) fun known' _ s' =>
      s'.table = s.table ∧ s'.operands = s.operands ∧ Usable known' s'.table t := by
  have shape : Instruction.reads ⟨op, xs ++ [t]⟩ = xs ∧
      Instruction.writes ⟨op, xs ++ [t]⟩ = [t] ∧ isOrdinary op = true := by
    cases op <;> first | exact absurd hop (by decide) |
      exact ⟨by simp [Instruction.reads], by simp [Instruction.writes], rfl⟩
  have clean : ∀ w ∈ xs ++ [t], Word.Clean w := by
    intro w hw
    rcases List.mem_append.mp hw with hw | hw
    · exact (hx w hw).1
    · rw [List.mem_singleton.mp hw]
      exact ht.clean
  have writes : ∀ w ∈ Instruction.writes ⟨op, xs ++ [t]⟩, Writable known s.table w ∨
      (op = .allot ∧ w ∈ xs ++ [t]) := by
    rw [shape.2.1]
    intro w hw
    rw [List.mem_singleton.mp hw]
    exact .inl ht
  intro a s' hs
  obtain ⟨r, hr, hsees, htable, hoperands, hdefs⟩ :=
    Does.emit h shape.2.2 clean (by rw [shape.1]; exact hx) writes a s' hs
  refine ⟨r, hr, hsees, htable, hoperands, ?_⟩
  rcases ht with hu | htemp
  · exact hu.mono Set.subset_union_left (htable ▸ Extends.refl _)
  · refine ⟨clean_of_isTemp htemp, .inl (hdefs t ?_)⟩
    exact .inr ⟨htemp, by rw [shape.2.1]; exact List.mem_singleton.mpr rfl⟩

/-- An instruction that only uses its operands. -/
theorem Does.emitOn (h : Ready Γ known s) (hop : consumes op = true) (hx : ∀ x ∈ args, Usable known s.table x) :
    Does Γ known s (Lower.emit op args) fun _ _ s' =>
      s'.table = s.table ∧ s'.operands = s.operands := by
  have shape : Instruction.reads ⟨op, args⟩ = args ∧ Instruction.writes ⟨op, args⟩ = [] ∧
      isOrdinary op = true := by
    cases op <;> first | exact absurd hop (by decide) | exact ⟨rfl, rfl, rfl⟩
  refine (Does.emit h shape.2.2 (fun w hw => (hx w hw).1) ?_ ?_).weaken fun _ _ _ hd => ⟨hd.1, hd.2.1⟩
  · rw [shape.1]
    exact hx
  · rw [shape.2.1]
    exact fun w hw => nomatch hw

/-- An instruction that makes its last operand from its first by a word that is no value. -/
theorem Does.emitBy (h : Ready Γ known s) (hop : op = .relate ∨ op = .cast ∨ op = .getField)
    (hx : Usable known s.table x) (hword : Word.Clean word) (ht : Word.IsTemp t) :
    Does Γ known s (Lower.emit op [x, word, t]) fun known' _ s' =>
      s'.table = s.table ∧ s'.operands = s.operands ∧ Usable known' s'.table t := by
  have shape : Instruction.reads ⟨op, [x, word, t]⟩ = [x] ∧
      Instruction.writes ⟨op, [x, word, t]⟩ = [t] ∧ isOrdinary op = true := by
    rcases hop with rfl | rfl | rfl <;> exact ⟨rfl, rfl, rfl⟩
  have clean : ∀ w ∈ [x, word, t], Word.Clean w := by
    simpa using ⟨hx.1, hword, clean_of_isTemp ht⟩
  refine (Does.emit h shape.2.2 clean ?_ ?_).weaken ?_
  · rw [shape.1]
    simpa using hx
  · rw [shape.2.1]
    intro w hw
    rw [List.mem_singleton.mp hw]
    exact .inl (.inr ht)
  · rintro known' _ s' ⟨htable, hoperands, hdefs⟩
    refine ⟨htable, hoperands, clean_of_isTemp ht, .inl (hdefs t (.inr ⟨ht, ?_⟩))⟩
    rw [shape.2.1]
    exact List.mem_singleton.mpr rfl

/-- An instruction on a field: all operands but the name of the field are values. -/
theorem Does.emitField {more : List String} (h : Ready Γ known s)
    (hop : (op = .setField ∧ ∃ y, more = [y]) ∨ ((op = .addField ∨ op = .addStaticField) ∧ more = []))
    (hx : Usable known s.table x) (hword : Word.Clean word) (hmore : ∀ y ∈ more, Usable known s.table y) :
    Does Γ known s (Lower.emit op (x :: word :: more)) fun _ _ s' =>
      s'.table = s.table ∧ s'.operands = s.operands := by
  have shape : Instruction.reads ⟨op, x :: word :: more⟩ = x :: more ∧
      Instruction.writes ⟨op, x :: word :: more⟩ = [] ∧ isOrdinary op = true := by
    rcases hop with ⟨rfl, y, rfl⟩ | ⟨rfl | rfl, rfl⟩ <;> exact ⟨rfl, rfl, rfl⟩
  have clean : ∀ w ∈ x :: word :: more, Word.Clean w := by
    intro w hw
    rcases List.mem_cons.mp hw with rfl | hw
    · exact hx.1
    · rcases List.mem_cons.mp hw with rfl | hw
      · exact hword
      · exact (hmore w hw).1
  refine (Does.emit h shape.2.2 clean ?_ ?_).weaken fun _ _ _ hd => ⟨hd.1, hd.2.1⟩
  · rw [shape.1]
    exact List.forall_mem_cons.mpr ⟨hx, hmore⟩
  · rw [shape.2.1]
    exact fun w hw => nomatch hw

/-- Room is made for a variable, which may be in scope already. -/
theorem Does.emitAllot {rid : String} (h : Ready Γ (insert rid known) s) (hrid : Word.Clean rid) :
    Does Γ known s (Lower.emit .allot [rid]) fun known' _ s' =>
      s'.table = s.table ∧ s'.operands = s.operands ∧ rid ∈ known' := by
  have defines : Instruction.Defines ⟨.allot, [rid]⟩ rid :=
    .inl ⟨rfl, List.mem_singleton.mpr rfl⟩
  rintro a s' ⟨⟩
  refine ⟨.item ⟨.allot, [rid]⟩ .nil, ?_, h.sees.mono ?_, rfl, rfl, mem_defs_item defines⟩
  · refine Effect.emit (i := ⟨.allot, [rid]⟩) h.stable ?_ rfl ?_ ?_ ?_ ?_ ?_ ?_
    · exact fun e => nomatch e
    · exact fun e => nomatch e
    · simpa using hrid
    · exact fun e => nomatch e
    · exact fun e => nomatch e
    · exact fun l hl => nomatch hl
    · exact ⟨fun w hw => (nomatch hw), fun w hw => .inr (.inl ⟨rfl, hw⟩)⟩
  · rintro w (rfl | hw)
    · exact mem_defs_item defines
    · exact .inl hw

section
variable (h : Ready Γ known s)
include h

/-- The placing of a label that was taken before. -/
theorem Run.emitSet (hl : Word.Clean l) :
    Run Γ [l] known s (Lower.emit .set [l]) fun known' _ s' =>
      Scoped Γ known' s'.table ∧ s'.operands = s.operands := by
  rintro a s' ⟨⟩
  refine ⟨.item ⟨.set, [l]⟩ .nil, ?_, h.sees.mono Set.subset_union_left, rfl⟩
  refine Effect.emit (i := ⟨.set, [l]⟩) h.stable ?_ rfl ?_ ?_ ?_ ?_ ?_ ?_
  · exact fun e => nomatch e
  · exact fun e => nomatch e
  · intro w hw
    rw [List.mem_singleton.mp hw]
    exact hl
  · exact fun e => nomatch e
  · exact fun e => nomatch e
  · exact fun l hl => nomatch hl
  · exact ⟨fun w hw => (nomatch hw), fun w hw => (nomatch hw)⟩

/-- A jump to a label that is placed around here; on a condition, the condition is read. -/
theorem Does.emitJump
    (hop : (op = .jump ∧ args = [l]) ∨ ∃ w, Usable known s.table w ∧ op = .jumpIfFalse ∧ args = [w, l])
    (hl : l ∈ Γ.labels) (hclean : Word.Clean l) : Does Γ known s (Lower.emit op args) fun _ _ s' =>
      s'.table = s.table ∧ s'.operands = s.operands := by
  rintro a s' ⟨⟩
  refine ⟨.item ⟨op, args⟩ .nil, ?_, h.sees.mono Set.subset_union_left, rfl, rfl⟩
  rcases hop with ⟨rfl, rfl⟩ | ⟨w, hw, rfl, rfl⟩
  · refine Effect.emit (i := ⟨.jump, [l]⟩) h.stable ?_ rfl ?_ ?_ ?_ ?_ ?_ ?_
    · exact fun e => nomatch e
    · exact fun e => nomatch e
    · simpa using hclean
    · exact fun e => nomatch e
    · exact fun e => nomatch e
    · simpa [Instruction.uses] using hl
    · exact ⟨fun w hw => (nomatch hw), fun w hw => (nomatch hw)⟩
  · refine Effect.emit (i := ⟨.jumpIfFalse, [w, l]⟩) h.stable ?_ rfl ?_ ?_ ?_ ?_ ?_ ?_
    · exact fun e => nomatch e
    · exact fun e => nomatch e
    · simpa using ⟨hw.1, hclean⟩
    · exact fun e => nomatch e
    · exact fun e => nomatch e
    · simpa [Instruction.uses] using hl
    · exact ⟨by simpa [Instruction.reads] using hw.2, fun w hw => (nomatch hw)⟩

/-- The way out of a loop. -/
theorem Does.emitExit (hl : Γ.inLoop) :
    Does Γ known s (Lower.emit .exitLoop []) fun _ _ s' => s'.operands = s.operands := by
  rintro a s' ⟨⟩
  refine ⟨.item ⟨.exitLoop, []⟩ .nil, ?_, h.sees.mono Set.subset_union_left, rfl⟩
  refine Effect.emit (i := ⟨.exitLoop, []⟩) h.stable ?_ rfl ?_ ?_ (fun _ => hl) ?_ ?_ ?_
  · exact fun e => nomatch e
  · exact fun e => nomatch e
  · exact fun w hw => nomatch hw
  · exact fun e => nomatch e
  · exact fun l hl => nomatch hl
  · exact ⟨fun w hw => (nomatch hw), fun w hw => (nomatch hw)⟩

/-- The way out of a function. -/
theorem Does.emitReturn (hf : Γ.inFunction) (hargs : ∀ w ∈ args, Usable known s.table w) :
    Does Γ known s (Lower.emit .ret args) fun _ _ s' => s'.operands = s.operands := by
  rintro a s' ⟨⟩
  refine ⟨.item ⟨.ret, args⟩ .nil, ?_, h.sees.mono Set.subset_union_left, rfl⟩
  refine Effect.emit (i := ⟨.ret, args⟩) h.stable ?_ rfl ?_ ?_ ?_ (fun _ => hf) ?_ ?_
  · exact fun e => nomatch e
  · exact fun e => nomatch e
  · exact fun w hw => (hargs w hw).1
  · exact fun e => nomatch e
  · exact fun l hl => nomatch hl
  · exact ⟨fun w hw => (hargs w hw).2, fun w hw => (nomatch hw)⟩

/-! ## Operands -/

theorem Does.push {o : Operand} (ho : OperandOk known s.table o) :
    Does Γ known s (Lower.push o) fun _ _ s' => s'.table = s.table := by
  rintro a s' ⟨⟩
  refine ⟨.nil, ?_, h.sees.mono Set.subset_union_left, rfl⟩
  have hok : OperandOk (known ∪ Region.nil.defs) s.table o :=
    ho.mono Set.subset_union_left (.refl _)
  refine ⟨rfl, .nil, labelled_of_allSets_nil rfl _ _, trivial, le_refl _, le_refl _, .refl _,
    .of_eq rfl, ⟨[o], rfl, ?_⟩, ⟨h.stable.builtins, h.stable.ordered⟩⟩
  intro x hx
  rw [List.mem_singleton.mp hx]
  exact hok

end

/-- The operands that a step leaves are dropped. -/
theorem Effect.truncate (h : Effect Γ own known s r s') :
    Effect Γ own known s r (Lower.truncate s.operands.length s') := by
  obtain ⟨new, hnew, -⟩ := h.operands
  exact { h with
    operands := ⟨[], truncate_append s' new s.operands hnew, fun _ h => nomatch h⟩
    stable := ⟨h.stable.builtins, h.stable.ordered⟩ }

theorem Run.forEffect {p : Lower Unit} {Q : Set String → Unit → SymbolTable → Prop}
    (h : Run Γ own known s p fun known' a s' => Q known' a s'.table) :
    Run Γ own known s (Lower.forEffect p) fun known' a s' =>
      s'.operands = s.operands ∧ Q known' a s'.table := by
  intro a s' hs
  obtain ⟨after, hp, rfl⟩ := Lower.exists_of_ensuring hs
  obtain ⟨r, hr, hQ⟩ := h a after hp
  obtain ⟨new, hnew, -⟩ := hr.operands
  exact ⟨r, hr.truncate, truncate_append after new s.operands hnew, hQ⟩

/-- A step above a label on the stack; the label and all operands above it are dropped again. -/
theorem Run.underLabel {p : Lower Unit} {Q : Set String → Unit → SymbolTable → Prop}
    (h : Run Γ own known { s with operands := .label l :: s.operands } p fun known' a s' => Q known' a s'.table) :
    Run Γ own known s (Lower.forEffect do
        Lower.push (.label l)
        p) fun known' a s' => Q known' a s'.table := by
  intro a s' hs
  obtain ⟨after, hp, rfl⟩ := Lower.exists_of_ensuring hs
  obtain ⟨r, hr, hQ⟩ := h a after hp
  obtain ⟨new, hnew, -⟩ := hr.operands
  have hall : after.operands = (new ++ [Operand.label l]) ++ s.operands := by simp [hnew]
  exact ⟨r, { hr with
    operands := ⟨[], truncate_append after _ s.operands hall, fun _ h => nomatch h⟩
    stable := ⟨hr.stable.builtins, hr.stable.ordered⟩ }, hQ⟩

/-- The value of a step is an operand that may be used. -/
theorem Does.forValue {p : Lower Unit} {d : Diagnostic} (h : Does Γ known s p Whatever) :
    Does Γ known s (Lower.forValue p (Lower.fail d)) fun known' o s' =>
      OperandOk known' s'.table o ∧ s'.operands = s.operands := by
  intro o s' hs
  obtain ⟨after, rest, hp, hops, hlen, rfl⟩ := Lower.exists_of_forValue hs
  obtain ⟨r, hr, hsees, -⟩ := h () after hp
  obtain ⟨new, hnew, hok⟩ := hr.operands
  refine ⟨r, hr.truncate, hsees, hok _ ?_, truncate_append after new s.operands hnew⟩
  cases new with
  | nil =>
    rw [hnew] at hlen
    exact absurd hlen (lt_irrefl _)
  | cons x new =>
    rw [hops, List.cons_append, List.cons.injEq] at hnew
    rw [hnew.1]
    exact List.mem_cons_self

end Frontend
