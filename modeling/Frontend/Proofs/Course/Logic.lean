import Frontend.Proofs.Course.Steps

/-!
# Steps that take a course

`Goes` is the judgement that a step takes a course from a given good state, whether it succeeds or fails; if
it succeeds, its result has a property. A step is tame if it does so from every good state in every function
and leaves alone what is due.
-/

namespace Frontend.Course

open SymbolTable

/-- The step takes a course from a good state. -/
def Goes [Setting] (home : Option Home) (ws : List String) (s : Lowering) {α : Type} (p : Lower α)
    (Q : α → List String → Lowering → Prop) : Prop :=
  Good home s → ∀ r s', p s = (r, s') → match r with
    | .ok a => ∃ ws', Course home true ws s ws' s' ∧ Q a ws' s'
    | .error _ => Course home false ws s [] s'

/-- The result is good for nothing but that the same words are due. -/
def Same (ws : List String) {α : Type} (_ : α) (ws' : List String) (_ : Lowering) : Prop := ws' = ws

/-- A step that takes a course from every good state. -/
def Tame [Setting] {α : Type} (p : Lower α) : Prop := ∀ home ws s, Goes home ws s p (Same ws)

/-- A step that only asks. -/
def Asks {α : Type} (p : Lower α) : Prop := ∀ s, ∃ a, p s = (.ok a, s)

variable {home : Option Home} {ws ws' : List String} {s s' : Lowering} {α β : Type}
variable {p q : Lower α} {f : α → Lower β} {c : Prop} {R : α → List String → Lowering → Prop}
  {Q : β → List String → Lowering → Prop} {a : α} {d : Diagnostic} {op : Opcode} {args : List String} {o : Operand}
  {id : SymbolId}

/-- The words that an operation writes besides are no raw ids. -/
theorem writable_of_not_hasNumber {t : SymbolTable} (h : ∀ w ∈ Instruction.writes ⟨op, args⟩, ¬ Word.HasNumber w) :
    ∀ w ∈ Instruction.writes ⟨op, args⟩, Writable t w := fun w hw => .inl (h w hw)

/-- Operations whose instructions bring nothing in and set no field. -/
def isPlain (op : Opcode) : Bool := isQuiet op && op != .setField

theorem isPlain_of_computes (h : Lower.computes op = true) : isPlain op = true := by
  cases op <;> first | rfl | cases h

/-- The raw ids of symbols were given out. -/
theorem Good.below (h : Good home s) (id : SymbolId) : Word.Below s.supply.rids (s.table.get id).rid :=
  (h.order.words id).rid

theorem raw_ofSymbol (t : SymbolTable) (id : SymbolId) : (Operand.ofSymbol t id).raw = (t.get id).rid := by
  unfold Operand.ofSymbol
  dsimp only
  split <;> rfl

theorem aside_truncate (mark : Nat) (s : Lowering) : Aside s (Lower.truncate mark s) :=
  ⟨rfl, rfl, rfl, rfl, rfl, rfl, rfl, List.drop_subset _ _⟩

/-! ## Questions -/

protected theorem Asks.bind (hp : Asks p) (hf : ∀ a, Asks (f a)) : Asks (p >>= f) := by
  intro s
  obtain ⟨a, ha⟩ := hp s
  obtain ⟨b, hb⟩ := hf a s
  refine ⟨b, ?_⟩
  change Lower.andThen p f s = _
  unfold Lower.andThen
  rw [ha]
  exact hb

protected theorem Asks.pure (a : α) : Asks (pure a : Lower α) := fun _ => ⟨a, rfl⟩

protected theorem Asks.ask (g : Lowering → α) : Asks (Lower.ask g) := fun s => ⟨g s, rfl⟩

protected theorem Asks.ite [Decidable c] (hp : Asks p) (hq : Asks q) : Asks (if c then p else q) := by
  split
  · exact hp
  · exact hq

/-! ## Steps one after another -/

variable [Setting]
variable {name : String} {n : Nat} {kind : ScopeKind}

protected theorem Goes.bind (hp : Goes home ws s p R)
    (hf : ∀ a ws' s', Course home true ws s ws' s' → R a ws' s' → Goes home ws' s' (f a) Q) :
    Goes home ws s (p >>= f) Q := by
  intro hg r s'' h
  change Lower.andThen p f s = (r, s'') at h
  unfold Lower.andThen at h
  split at h
  · next a s' heq =>
    obtain ⟨ws', hcourse, hR⟩ := hp hg _ _ heq
    have hnext := hf a ws' s' hcourse hR (hcourse.good hg) r s'' h
    cases r with
    | ok b =>
      obtain ⟨ws'', hcourse', hQ⟩ := hnext
      exact ⟨ws'', hcourse.trans hcourse', hQ⟩
    | error e => exact hcourse.trans hnext
  · next e s' heq =>
    cases h
    exact hp hg _ _ heq

theorem Goes.weaken {Q : α → List String → Lowering → Prop} (h : Goes home ws s p R)
    (hi : ∀ a ws' s', Course home true ws s ws' s' → R a ws' s' → Q a ws' s') : Goes home ws s p Q := by
  intro hg r s' hp
  have hr := h hg r s' hp
  cases r with
  | ok a =>
    obtain ⟨ws', hcourse, hR⟩ := hr
    exact ⟨ws', hcourse, hi a ws' s' hcourse hR⟩
  | error e => exact hr

/-- What is known of a good state may be used. -/
theorem Goes.good {Q : α → List String → Lowering → Prop} (h : Good home s → Goes home ws s p Q) :
    Goes home ws s p Q := fun hg => h hg hg

/-- A step that goes to a known state. -/
theorem Goes.last {Q : α → List String → Lowering → Prop} (hp : p s = (.ok a, s'))
    (hcourse : Course home true ws s ws' s') (hQ : Q a ws' s') : Goes home ws s p Q := by
  intro _ r u hr
  rw [hp] at hr
  cases hr
  exact ⟨ws', hcourse, hQ⟩

/-- A step that goes to a known state, in front of others. -/
protected theorem Goes.step (hp : p s = (.ok a, s')) (hcourse : Course home true ws s ws' s')
    (hf : Goes home ws' s' (f a) Q) : Goes home ws s (p >>= f) Q := by
  refine .bind (R := fun b vs u => b = a ∧ vs = ws' ∧ u = s') (.last hp hcourse ⟨rfl, rfl, rfl⟩) ?_
  rintro _ _ _ - ⟨rfl, rfl, rfl⟩
  exact hf

/-- A course leads to the state that a step is taken from. -/
theorem Goes.goneTo {u : Lowering} {Q : α → List String → Lowering → Prop} (hcourse : Course home true ws s ws' u)
    (hp : Goes home ws' u p Q) : Goes home ws s (fun _ => p u) Q := by
  intro hg r s' hr
  have hnext := hp (hcourse.good hg) r s' hr
  cases r with
  | ok a =>
    obtain ⟨vs, hcourse', hQ⟩ := hnext
    exact ⟨vs, hcourse.trans hcourse', hQ⟩
  | error e => exact hcourse.trans hnext

/-- What is done with a result may be seen as done from the state in front. -/
theorem Goes.bindRun (hp : Goes home ws s p R)
    (hf : ∀ a ws' u, p s = (.ok a, u) → Course home true ws s ws' u → R a ws' u →
      Goes home ws s (fun _ => f a u) Q) : Goes home ws s (p >>= f) Q := by
  intro hg r s' hr
  change Lower.andThen p f s = _ at hr
  unfold Lower.andThen at hr
  split at hr
  · next a u heq =>
    obtain ⟨ws', hcourse, hR⟩ := hp hg _ _ heq
    exact hf a ws' u heq hcourse hR hg r s' hr
  · next e u heq =>
    cases hr
    exact hp hg _ _ heq

/-- Some words are not due any more. -/
protected theorem Goes.forget {Q : α → List String → Lowering → Prop} (hsub : ws'.Subperm ws)
    (h : Goes home ws' s p Q) : Goes home ws s p Q := by
  intro hg r s' hp
  have hr := h hg r s' hp
  cases r with
  | ok a =>
    obtain ⟨vs, hcourse, hQ⟩ := hr
    exact ⟨vs, (Course.forget hsub).trans hcourse, hQ⟩
  | error e => exact (Course.forget hsub).trans hr

protected theorem Goes.pure {Q : α → List String → Lowering → Prop} (hQ : Q a ws s) :
    Goes home ws s (pure a) Q := .last rfl .refl hQ

protected theorem Goes.failWith {Q : α → List String → Lowering → Prop} {e : Failure} :
    Goes home ws s (Lower.failWith e) Q := by
  rintro - r s' ⟨⟩
  exact Course.refl.stop

protected theorem Goes.fail {Q : α → List String → Lowering → Prop} :
    Goes home ws s (Lower.fail d) Q := .failWith

theorem Goes.failBind : Goes home ws s (Lower.fail d >>= f) Q := by
  rintro - r s' ⟨⟩
  exact Course.refl.stop

protected theorem Goes.ite [Decidable c] {Q : α → List String → Lowering → Prop} (hp : c → Goes home ws s p Q)
    (hq : ¬ c → Goes home ws s q Q) : Goes home ws s (if c then p else q) Q := by
  split
  · exact hp ‹_›
  · exact hq ‹_›

/-- Something is refused, and otherwise lowering goes on. -/
protected theorem Goes.unless [Decidable c] {q : Lower β} (hq : ¬ c → Goes home ws s q Q) :
    Goes home ws s (if c then Lower.fail d >>= f else q) Q :=
  .ite (fun _ => .failBind) hq

/-- A question is answered on the spot. -/
protected theorem Goes.ask {g : Lowering → α} (h : Goes home ws s (f (g s)) Q) :
    Goes home ws s (Lower.ask g >>= f) Q := h

/-- A question in front of other steps. -/
protected theorem Goes.asks (hp : Asks p) (hf : ∀ a, p s = (.ok a, s) → Goes home ws s (f a) Q) :
    Goes home ws s (p >>= f) Q := by
  obtain ⟨a, ha⟩ := hp s
  exact .step ha .refl (hf a ha)

theorem Goes.ofExcept {e : Except Diagnostic α} (hf : ∀ a, e = .ok a → Goes home ws s (f a) Q) :
    Goes home ws s (Lower.ofExcept e >>= f) Q := by
  cases e with
  | error d => exact .failBind
  | ok a => exact hf a rfl

protected theorem Goes.refuse {o : Option Diagnostic} {f : Unit → Lower β} (hf : Goes home ws s (f ()) Q) :
    Goes home ws s (Lower.refuse o >>= f) Q := by
  cases o with
  | some d => exact .failBind
  | none => exact hf

/-- What a step does may be continued in a state that differs in what courses say nothing about. -/
theorem Goes.aside {Q : α → List String → Lowering → Prop} (hp : Goes home ws s p Q)
    (hq : ∀ r s', q s = (r, s') → ∃ u, p s = (r, u) ∧ Aside u s' ∧ ∀ a ws', r = .ok a → Q a ws' u → Q a ws' s') :
    Goes home ws s q Q := by
  intro hg r s' h
  obtain ⟨u, hu, haside, hQ⟩ := hq r s' h
  have hr := hp hg r u hu
  cases r with
  | ok a =>
    obtain ⟨ws', hcourse, h'⟩ := hr
    exact ⟨ws', hcourse.after haside, hQ a ws' rfl h'⟩
  | error e => exact hr.after haside

/-! ## Tame steps -/

protected theorem Tame.bind (hp : Tame p) (hf : ∀ a, Tame (f a)) : Tame (p >>= f) := by
  intro home ws s
  refine (hp home ws s).bind ?_
  rintro a _ s' - rfl
  exact hf a home _ s'

/-- A tame step in front of one for which the state matters. -/
protected theorem Tame.then (hp : Tame p) (hf : ∀ a s', Course home true ws s ws s' → Goes home ws s' (f a) Q) :
    Goes home ws s (p >>= f) Q := by
  refine (hp home ws s).bind ?_
  rintro a _ s' hcourse rfl
  exact hf a s' hcourse

protected theorem Tame.pure (a : α) : Tame (pure a : Lower α) := fun _ _ _ => .pure rfl

protected theorem Tame.failWith (e : Failure) : Tame (Lower.failWith e : Lower α) := fun _ _ _ => .failWith

protected theorem Tame.fail (d : Diagnostic) : Tame (Lower.fail d : Lower α) := fun _ _ _ => .fail

protected theorem Tame.ask (g : Lowering → α) : Tame (Lower.ask g) := fun _ _ _ => .last rfl .refl rfl

protected theorem Asks.tame (h : Asks p) : Tame p := by
  intro home ws s
  obtain ⟨a, ha⟩ := h s
  exact .last ha .refl rfl

protected theorem Tame.ite [Decidable c] (hp : Tame p) (hq : Tame q) : Tame (if c then p else q) := by
  split
  · exact hp
  · exact hq

theorem Tame.collect {xs : List α} (h : ∀ x, Tame (f x)) : Tame (Lower.collect f xs) := by
  induction xs with
  | nil => exact .pure []
  | cons x xs ih => exact (h x).bind fun _ => ih.bind fun _ => .pure _

/-- A tame step takes a course to its end, whether it succeeds or fails. -/
theorem exists_course_of_tame (h : Tame p) (hg : Good home s) : ∃ k ws', Course home k [] s ws' (p s).2 := by
  have hgoes := h home [] s hg (p s).1 (p s).2 rfl
  cases hr : (p s).1 with
  | error e =>
    rw [hr] at hgoes
    exact ⟨false, [], hgoes⟩
  | ok a =>
    rw [hr] at hgoes
    obtain ⟨ws', hcourse, -⟩ := hgoes
    exact ⟨true, ws', hcourse⟩

/-! ## Words -/

theorem Goes.freshTemp {f : String → Lower β}
    (hf : ∀ n s', Course home true ws s ws s' → s'.table = s.table → Goes home ws s' (f (Word.temp n)) Q) :
    Goes home ws s (Lower.freshTemp >>= f) Q :=
  have hcourse := .temps (s.supply.temps + 1) (Nat.le_succ _)
  .step rfl hcourse (hf s.supply.temps _ hcourse rfl)

theorem Tame.freshTemp {f : String → Lower β} (hf : ∀ n, Tame (f (Word.temp n))) :
    Tame (Lower.freshTemp >>= f) := fun _ _ _ => .freshTemp fun n _ _ _ => hf n _ _ _

/-- A label is due until it is placed. -/
theorem Goes.freshLabel {f : String → Lower β}
    (hf : ∀ l s', ¬ Word.HasNumber (Word.label l) → Goes home (Word.label l :: ws) s' (f (Word.label l)) Q) :
    Goes home ws s (Lower.freshLabel >>= f) Q :=
  .step rfl .label (hf _ _ (Word.not_hasNumber_of_constant (Word.constant_label _)))

/-- The next number is taken for a raw id. -/
theorem Goes.takeNumber {g : Supply → String × Supply} {f : String → Lower β}
    (hg : ∃ base, g s.supply = (Word.numbered base s.supply.rids, { s.supply with rids := s.supply.rids + 1 }))
    (hf : ∀ w s', Course home true ws s (w :: ws) s' → Word.Below s'.supply.rids w → s'.table = s.table →
      Goes home (w :: ws) s' (f w) Q) : Goes home ws s (Lower.take g >>= f) Q := by
  obtain ⟨base, hg⟩ := hg
  have hp : Lower.take g s = (.ok (Word.numbered base s.supply.rids),
      s.withSupply { s.supply with rids := s.supply.rids + 1 }) := by
    change (Except.ok (g s.supply).1, s.withSupply (g s.supply).2) = _
    rw [hg]
  exact .step hp (.number base) (hf _ _ (.number base) (Word.below_numbered base (Nat.lt_succ_self _)) rfl)

theorem Goes.freshRid {f : String → Lower β}
    (hf : ∀ w s', Course home true ws s (w :: ws) s' → Word.Below s'.supply.rids w → s'.table = s.table →
      Goes home (w :: ws) s' (f w) Q) : Goes home ws s (Lower.freshRid name >>= f) Q :=
  .takeNumber ⟨name, Supply.rid_eq _ _⟩ hf

theorem Goes.freshFunctionRid {owner : Option SymbolId} {f : String → Lower β}
    (hf : ∀ w s', Course home true ws s (w :: ws) s' → Word.Below s'.supply.rids w → s'.table = s.table →
      Goes home (w :: ws) s' (f w) Q) : Goes home ws s (Lower.freshFunctionRid owner name >>= f) Q := by
  unfold Lower.freshFunctionRid
  rw [Lower.bind_assoc]
  obtain ⟨base, hbase, -⟩ := Supply.functionRid_eq s.supply (owner.map fun o => (s.table.get o).name) name
  exact .ask (.takeNumber ⟨base, hbase⟩ hf)

/-! ## Code -/

theorem Goes.write {Q : Unit → List String → Lowering → Prop} (hop : isQuiet op = true)
    (hwrites : ∀ w ∈ Instruction.writes ⟨op, args⟩, Writable s.table w)
    (hset : op = .setField → ∃ object word raw, args = [object, word, raw] ∧ Settable home s.table word)
    (hQ : Q () ws (s.withOut (s.out.emit op args))) : Goes home ws s (Lower.emit op args) Q :=
  .last rfl (.write hop hwrites hset) hQ

section
variable (hop : isPlain op = true)
include hop

/-- An instruction that writes no raw id and sets no field. -/
theorem Tame.emit (hwrites : ∀ w ∈ Instruction.writes ⟨op, args⟩, ¬ Word.HasNumber w) : Tame (Lower.emit op args) := by
  obtain ⟨hquiet, hset⟩ := Bool.and_eq_true_iff.mp hop
  exact fun _ _ _ => .write hquiet (writable_of_not_hasNumber hwrites) (fun h => absurd h (bne_iff_ne.mp hset)) rfl

/-- An instruction that writes nothing. -/
theorem Tame.emitOn (hwrites : Instruction.writes ⟨op, args⟩ = []) : Tame (Lower.emit op args) :=
  .emit hop fun _ hw => absurd (hwrites ▸ hw) List.not_mem_nil

/-- An instruction that writes a temporary. -/
theorem Tame.emitTo (hwrites : Instruction.writes ⟨op, args⟩ = [Word.temp n]) : Tame (Lower.emit op args) := by
  refine .emit hop fun w hw => ?_
  rw [hwrites, List.mem_singleton] at hw
  rw [hw]
  exact Word.not_hasNumber_temp n

/-- An instruction that writes a temporary, in front of other steps. -/
theorem Goes.emitTo {f : Unit → Lower β} (hwrites : Instruction.writes ⟨op, args⟩ = [Word.temp n])
    (hf : Goes home ws (s.withOut (s.out.emit op args)) (f ()) Q) : Goes home ws s (Lower.emit op args >>= f) Q := by
  refine .bind (R := fun _ ws' s' => ws' = ws ∧ s' = s.withOut (s.out.emit op args)) ?_ ?_
  · rintro hg r s' ⟨⟩
    obtain ⟨ws', hcourse, rfl⟩ := Tame.emitTo hop hwrites home ws s hg _ _ rfl
    exact ⟨_, hcourse, rfl, rfl⟩
  · rintro _ _ _ - ⟨rfl, rfl⟩
    exact hf

end

section
variable (hop : brings op = true) (hdue : (Instruction.introduces ⟨op, args⟩ ++ ws').Subperm ws)
include hop hdue

/-- An instruction is written, and the words that it brings in were due. -/
theorem Goes.bring {f : Unit → Lower β} (hf : ∀ s', s'.table = s.table → Goes home ws' s' (f ()) Q) :
    Goes home ws s (Lower.emit op args >>= f) Q :=
  .forget hdue (.step rfl (.bring hop) (hf _ rfl))

/-- The last instruction, which brings words in. -/
theorem Goes.bringLast :
    Goes home ws s (Lower.emit op args) (Same ws') := .forget hdue (.last rfl (.bring hop) rfl)

end

/-- A step in the frame of a loop. -/
theorem Goes.inLoop {labels : List String} {p : Lower Unit}
    (h : Goes home ws (s.withOut (s.out.emit .untilLoop labels)) p (Same ws')) :
    Goes home ws s (do Lower.emit .untilLoop labels; p; Lower.emit .finish []) (Same ws') := by
  intro hg r s' hr
  have hbegun : Good home (s.withOut (s.out.emit .untilLoop labels)) :=
    ⟨hg.sober, hg.order, hg.operands, hg.processing, hg.home⟩
  change Lower.andThen p (fun _ => Lower.emit .finish []) (s.withOut (s.out.emit .untilLoop labels)) = _ at hr
  unfold Lower.andThen at hr
  split at hr
  · next a u heq =>
    cases hr
    obtain ⟨vs, hcourse, rfl⟩ := h hbegun _ _ heq
    exact ⟨_, .loop hcourse, rfl⟩
  · next e u heq =>
    cases hr
    exact .endless (h hbegun _ _ heq)

/-! ## Operands -/

theorem Goes.push {Q : Unit → List String → Lowering → Prop} (ho : Word.Below s.supply.rids o.raw)
    (hQ : Q () ws { s with operands := o :: s.operands }) : Goes home ws s (Lower.push o) Q :=
  .last rfl (.push o ho) hQ

/-- An operand whose word is no raw id. -/
theorem Tame.push (ho : ¬ Word.HasNumber o.raw) : Tame (Lower.push o) :=
  fun _ _ _ => .push (Word.below_of_not_hasNumber ho) rfl

theorem Goes.pushSymbol {Q : Unit → List String → Lowering → Prop} (ho : o.raw = (s.table.get id).rid)
    (hQ : Q () ws { s with operands := o :: s.operands }) : Goes home ws s (Lower.push o) Q :=
  .good fun hg => .push (ho ▸ hg.below id) hQ

theorem Goes.forEffect {p : Lower Unit} {Q : Unit → List String → Prop} (h : Goes home ws s p fun a ws' _ => Q a ws') :
    Goes home ws s (Lower.forEffect p) fun a ws' _ => Q a ws' := by
  refine .aside h fun r s' hr => ?_
  cases hr
  exact ⟨_, rfl, aside_truncate _ _, fun _ _ _ h => h⟩

theorem Tame.forEffect {p : Lower Unit} (h : Tame p) : Tame (Lower.forEffect p) :=
  fun home ws s => .forEffect (Q := fun _ ws' => ws' = ws) (h home ws s)

/-- A step for its value. -/
theorem Goes.forValue {p : Lower Unit} (h : Tame p) :
    Goes home ws s (Lower.forValue p (Lower.fail d)) fun o ws' s' => ws' = ws ∧ Word.Below s'.supply.rids o.raw := by
  intro hg r s' hr
  unfold Lower.forValue at hr
  dsimp only at hr
  split at hr
  · next e u heq =>
    cases hr
    exact (h home ws s hg _ _ heq).after (aside_truncate _ _)
  · next u heq =>
    obtain ⟨ws', hcourse, rfl⟩ := h home ws s hg _ _ heq
    split at hr
    · next o rest hops =>
      split at hr
      · cases hr
        exact hcourse.stop
      · cases hr
        refine ⟨_, hcourse.after (aside_truncate _ _), rfl, (hcourse.good hg).operands o ?_⟩
        rw [hops]
        exact List.mem_cons_self
    · cases hr
      exact hcourse.stop

theorem temper : Lower.Temper Tame where
  pure := .pure
  bind := .bind
  failWith := .failWith
  ask := .ask
  freshTemp := .freshTemp
  emit h := .emit (isPlain_of_computes h)
  push := .push
  forEffect := .forEffect
  forValue h _ _ _ := (Goes.forValue h).weaken fun _ _ _ _ h => h.1

/-! ## Places -/

/-- A step in a scope of its own. -/
theorem Goes.inScope {Q : α → List String → Lowering → Prop} (h : Goes home ws (s.opened kind) p R)
    (hQ : ∀ a ws' u, Course home true ws (s.opened kind) ws' u → R a ws' u → Q a ws' (s.closed u)) :
    Goes home ws s (Lower.inScope kind p) Q := by
  intro hg r s' hr
  obtain ⟨u, hp, rfl⟩ := Lower.exists_of_inScope hr
  have hu := h (hg.opened kind) r u hp
  cases r with
  | ok a =>
    obtain ⟨ws', hcourse, hR⟩ := hu
    exact ⟨ws', hcourse.scope kind, hQ a ws' u hcourse hR⟩
  | error e => exact hu.scope kind

theorem Tame.inScope (h : Tame p) : Tame (Lower.inScope kind p) :=
  fun home ws _ => .inScope (h home ws _) fun _ _ _ _ h => h

/-- A step inside of a class. -/
theorem Goes.insideClass {cls : SymbolId} {Q : α → List String → Lowering → Prop}
    (hcls : (s.table.get cls).class?.isSome = true) (h : Goes home ws (s.entered cls) p R)
    (hQ : ∀ a ws' u, R a ws' u → Q a ws' (s.left u)) : Goes home ws s (Lower.inside cls p) Q := by
  intro hg r s' hr
  obtain ⟨u, hp, rfl⟩ := Lower.exists_of_inside hr
  have hu := h (hg.entered hcls) r u hp
  cases r with
  | ok a =>
    obtain ⟨ws', hcourse, hR⟩ := hu
    exact ⟨ws', hcourse.inside hcls, hQ a ws' u hR⟩
  | error e => exact hu.inside hcls

/-! ## Symbols -/

/-- The table is changed. -/
theorem Goes.changeTable {f : SymbolTable → SymbolTable} {Q : Unit → List String → Lowering → Prop}
    (h : Change s.supply.rids ws s.table ws' (f s.table)) (hQ : Q () ws' (s.withTable (f s.table))) :
    Goes home ws s (Lower.changeTable f) Q := .last rfl (.change h) hQ

/-- The table is changed by an operation that may be refused. -/
theorem Goes.tryTable {f : SymbolTable → Except Diagnostic SymbolTable} {Q : Unit → List String → Lowering → Prop}
    (h : ∀ t, f s.table = .ok t → Change s.supply.rids ws s.table ws' t)
    (hQ : ∀ t, f s.table = .ok t → Q () ws' (s.withTable t)) : Goes home ws s (Lower.tryTable f) Q := by
  unfold Lower.tryTable
  refine .ask ?_
  change Goes home ws s (Lower.ofExcept (f s.table) >>= fun t => Lower.changeTable fun _ => t) Q
  refine .ofExcept fun t ht => ?_
  exact .changeTable (f := fun _ => t) (h t ht) (hQ t ht)

/-- A symbol is entered in the innermost scope. -/
theorem Tame.insert : Tame (Lower.insert id) :=
  fun _ _ _ => .tryTable (fun _ ht => .enter (.inl rfl) ht) fun _ _ => rfl

/-- What is known of a variable now is remembered. -/
theorem Tame.mapVariable {g : VariableInfo → VariableInfo} (hg : ∀ v, (g v).core = v.core) :
    Tame (Lower.changeTable (·.modify id (Symbol.mapVariable g))) :=
  fun _ _ _ => .changeTable (.value id g hg) rfl

/-- A symbol is made that is neither a variable nor a class. -/
theorem Goes.newSymbol {sym : Symbol} {f : SymbolId → Lower β} (hvar : ∀ v, sym.detail ≠ .var v)
    (hcls : sym.class? = none) (hws : ws = sym.open?.toList ++ ws') (hdue : sym.rid ∈ ws ∨ ¬ Word.HasNumber sym.rid)
    (hwords : WordsBelow s.supply.rids sym) (hf : Course home true ws s ws' (s.withTable (s.table.add sym).2) →
      Goes home ws' (s.withTable (s.table.add sym).2) (f s.table.symbols.size) Q) :
    Goes home ws s (Lower.newSymbol sym >>= f) Q :=
  have hcourse := .change (.make sym hvar hcls hws hdue hwords)
  .step rfl hcourse (hf hcourse)

end Frontend.Course
