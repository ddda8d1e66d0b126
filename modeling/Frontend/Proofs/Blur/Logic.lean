import Frontend.Proofs.Blur.Operand
import Frontend.Proofs.Lowering.Logic

/-!
# Steps out of focus

`Blurs` compares two steps of lowering: the second one, from a state out of focus, succeeds exactly when
the first one does, and then its result and its state are those of the first one out of focus. The
judgement is closed under everything that steps are built from, so that a step is never able to tell what
was forgotten.
-/

namespace Frontend

variable {s s' : Lowering} {d d' : Diagnostic}
variable {c : Code} {x y : Prop} {γ : Type} {o o' : Operand}

/-! ## Code -/

def CodeItem.isNote : CodeItem → Bool
  | .note _ => true
  | _ => false

theorem CodeBuffer.annotate_append (x : CodeBuffer) (c : Code) : (x.append c).annotate = x.annotate := by
  rw [CodeBuffer.append_eq]
  split <;> rfl

namespace Blur

/-- Code out of focus. -/
def code (b : Blur) (c : Code) : Code := if b.dropsNotes then c.filter (!·.isNote) else c

variable {b : Blur}

@[simp] theorem code_nil : b.code [] = [] := by
  unfold code
  split <;> rfl

@[simp] theorem code_append (c d : Code) : b.code (c ++ d) = b.code c ++ b.code d := by
  unfold code
  split
  · exact List.filter_append ..
  · rfl

@[simp] theorem code_reverse (c : Code) : b.code c.reverse = (b.code c).reverse := by
  unfold code
  split
  · exact List.filter_reverse ..
  · rfl

theorem code_eq_self (h : ∀ item ∈ c, item.isNote = false) : b.code c = c := by
  unfold code
  split
  · exact List.filter_eq_self.mpr fun item hitem => by rw [h item hitem]; rfl
  · rfl

/-- Buffers of code out of focus. -/
def buffer (b : Blur) (x : CodeBuffer) : CodeBuffer :=
  { annotate := x.annotate && !b.dropsNotes, root := b.code x.root, inner := x.inner.map b.code }

@[simp] theorem depth_buffer (x : CodeBuffer) : (b.buffer x).depth = x.depth := by
  simp [buffer, CodeBuffer.depth]

theorem buffer_append (x : CodeBuffer) (c : Code) : b.buffer (x.append c) = (b.buffer x).append (b.code c) := by
  rw [CodeBuffer.append_eq, CodeBuffer.append_eq]
  obtain ⟨annotate, root, inner⟩ := x
  cases inner <;> simp [buffer]

theorem buffer_enter (x : CodeBuffer) : b.buffer x.enter = (b.buffer x).enter := by
  simp [buffer, CodeBuffer.enter]

theorem buffer_leave? (x : CodeBuffer) (depth : Nat) :
    (b.buffer x).leave? depth = (x.leave? depth).map (Prod.map b.code b.buffer) := by
  unfold CodeBuffer.leave? CodeBuffer.dropTo CodeBuffer.exit?
  dsimp only
  rw [depth_buffer, show (b.buffer x).inner = x.inner.map b.code from rfl, ← List.map_drop]
  cases List.drop (x.depth - (depth + 1)) x.inner <;> simp [buffer]

end Blur

/-! ## States -/

/-- A state of lowering out of focus. The text at hand serves messages only. -/
def Lowering.blurred (b : Blur) (s : Lowering) : Lowering :=
  { s with
    session := { s.session with symbols := s.session.symbols.blurred b }
    out := b.buffer s.out
    operands := s.operands.map (Operand.blurred b)
    source := [] }

/-- What a generator gives when it does not refuse. -/
def Builtin.gives? (e : Builtin) (call : BuiltinCall) (supply : Supply) :
    Option (Emission × Supply) :=
  match e.generate call supply with
  | (.ok emission, supply) => some (emission, supply)
  | (.error _, _) => none

namespace Blur

/-- The built-in functions make the same of a call wherever a blur puts it. -/
def Spares (b : Blur) (r : Registry) : Prop :=
  ∀ name e, r.find? name = some e → ∀ (call : BuiltinCall) supply (n : Node),
    e.gives? { call with pos := (n.moved b.place).pos } supply =
      e.gives? { call with pos := n.pos } supply

/-- A state in which nothing depends on what is forgotten. -/
structure Admits (b : Blur) (s : Lowering) : Prop where
  builtins : b.Spares s.session.builtins
  noted : b.dropsNotes = true ∨ s.out.annotate = false

/-- What every step leaves alone. -/
structure Keeps (s s' : Lowering) : Prop where
  builtins : s'.session.builtins = s.session.builtins
  annotate : s'.out.annotate = s.out.annotate

theorem Keeps.refl (s : Lowering) : Keeps s s := ⟨rfl, rfl⟩

theorem Keeps.trans {s'' : Lowering} (h : Keeps s s') (h' : Keeps s' s'') : Keeps s s'' :=
  ⟨h'.builtins.trans h.builtins, h'.annotate.trans h.annotate⟩

theorem Keeps.admits {b : Blur} (h : Keeps s s') (hs : b.Admits s) : b.Admits s' :=
  ⟨h.builtins ▸ hs.builtins, h.annotate ▸ hs.noted⟩

end Blur

/-- The result of a step that succeeds, with the state afterwards. -/
def Lower.outcome? {α : Type} (p : Lower α) (s : Lowering) : Option (α × Lowering) :=
  match p s with
  | (.ok a, s') => some (a, s')
  | (.error _, _) => none

theorem Lower.outcome?_eq_some {α : Type} {p : Lower α} {a : α} :
    Lower.outcome? p s = some (a, s') ↔ p s = (.ok a, s') := by
  unfold Lower.outcome?
  rcases p s with ⟨_ | _, _⟩ <;> simp

theorem Lower.outcome?_bind {α β : Type} (p : Lower α) (f : α → Lower β) (s : Lowering) :
    Lower.outcome? (p >>= f) s = (Lower.outcome? p s).bind fun r => Lower.outcome? (f r.1) r.2 := by
  change Lower.outcome? (Lower.andThen p f) s = _
  unfold Lower.outcome? Lower.andThen
  rcases p s with ⟨_ | _, _⟩ <;> rfl

/-- The second step does out of focus what the first one does; `f` takes its result out of focus. -/
structure Blurs (b : Blur) {α : Type} (f : α → α) (p q : Lower α) : Prop where
  same : ∀ s, b.Admits s → Lower.outcome? q (s.blurred b) =
    (Lower.outcome? p s).map (Prod.map f (Lowering.blurred b))
  keeps : ∀ s, b.Admits s → Blur.Keeps s (p s).2

namespace Blurs

open Blur (Keeps)

variable {b : Blur} {α β : Type} {f : α → α} {g : β → β}

/-- Either both steps fail, or both succeed alike. -/
theorem runs {p q : Lower α} (h : Blurs b f p q) (hs : b.Admits s) :
    (∃ e t e' t', p s = (.error e, t) ∧ q (s.blurred b) = (.error e', t')) ∨
      ∃ a t, p s = (.ok a, t) ∧ q (s.blurred b) = (.ok (f a), t.blurred b) := by
  have hsame := h.same s hs
  unfold Lower.outcome? at hsame
  revert hsame
  rcases p s with ⟨e | a, t⟩ <;> rcases q (s.blurred b) with ⟨e' | a', t'⟩ <;> intro hsame
  · exact .inl ⟨e, t, e', t', rfl, rfl⟩
  · cases hsame
  · cases hsame
  · obtain ⟨rfl, rfl⟩ := Prod.mk.inj (Option.some.inj hsame)
    exact .inr ⟨a, t, rfl, rfl⟩

/-! ## Steps one after another -/

protected theorem bind {p q : Lower α} {k k' : α → Lower β} (hp : Blurs b f p q)
    (hk : ∀ a, Blurs b g (k a) (k' (f a))) : Blurs b g (p >>= k) (q >>= k') where
  same s hs := by
    rw [Lower.outcome?_bind, Lower.outcome?_bind, hp.same s hs]
    cases hrun : Lower.outcome? p s with
    | none => rfl
    | some r =>
      have hkept := hp.keeps s hs
      rw [Lower.outcome?_eq_some.mp hrun] at hkept
      exact (hk r.1).same r.2 (hkept.admits hs)
  keeps s hs := by
    have hkept := hp.keeps s hs
    change Keeps s (Lower.andThen p k s).2
    unfold Lower.andThen
    rcases hrun : p s with ⟨_ | a, s'⟩
    · rw [hrun] at hkept
      exact hkept
    · rw [hrun] at hkept
      exact hkept.trans ((hk a).keeps s' (hkept.admits hs))

protected theorem pure {a a' : α} (h : a' = f a) : Blurs b f (pure a) (pure a' : Lower α) where
  same s _ := by rw [h]; rfl
  keeps s _ := .refl s

protected theorem failWith (e e' : Failure) : Blurs b f (Lower.failWith e) (Lower.failWith e') where
  same _ _ := rfl
  keeps s _ := .refl s

protected theorem fail (d d' : Diagnostic) : Blurs b f (Lower.fail d) (Lower.fail d') :=
  .failWith _ _

theorem failBind {k k' : α → Lower β} : Blurs b g (Lower.fail d >>= k) (Lower.fail d' >>= k') where
  same _ _ := rfl
  keeps s _ := .refl s

/-- A question that can be answered out of focus. -/
protected theorem ask {u u' : Lowering → α} (h : ∀ s, u' (Lowering.blurred b s) = f (u s)) :
    Blurs b f (Lower.ask u) (Lower.ask u') where
  same s _ := by
    change some (u' (s.blurred b), s.blurred b) = some (f (u s), s.blurred b)
    rw [h]
  keeps s _ := .refl s

/-- A change that can be made out of focus. -/
protected theorem change {u u' : Lowering → Lowering}
    (h : ∀ s, b.Admits s → u' (Lowering.blurred b s) = (u s).blurred b) (kept : ∀ s, Keeps s (u s)) :
    Blurs b id (Lower.change u) (Lower.change u') where
  same s hs := by
    change some ((), u' (s.blurred b)) = some ((), (u s).blurred b)
    rw [h s hs]
  keeps s _ := kept s

protected theorem ite [Decidable x] [Decidable y] {p p' q q' : Lower α} (hp : Blurs b f p q) (hp' : Blurs b f p' q')
    (hxy : y ↔ x) : Blurs b f (if x then p else p') (if y then q else q') := by
  by_cases h : x
  · rw [if_pos h, if_pos (hxy.mpr h)]
    exact hp
  · rw [if_neg h, if_neg (mt hxy.mp h)]
    exact hp'

/-- Something is refused, and otherwise lowering goes on. -/
theorem guarded [Decidable x] [Decidable y] {k k' : α → Lower β} {p q : Lower β} (hp : Blurs b g p q)
    (hxy : y ↔ x) : Blurs b g (if x then Lower.fail d >>= k else p) (if y then Lower.fail d' >>= k' else q) :=
  .ite failBind hp hxy

protected theorem ofExcept {e e' : Except Diagnostic α} (h : e'.toOption = e.toOption.map f) :
    Blurs b f (Lower.ofExcept e) (Lower.ofExcept e') := by
  cases e with
  | error d =>
    cases e' with
    | error d' => exact .fail d d'
    | ok a' => cases h
  | ok a =>
    cases e' with
    | error d' => cases h
    | ok a' => exact .pure (Option.some.inj h)

protected theorem refuse {o o' : Option Diagnostic} (h : o'.isSome = o.isSome) :
    Blurs b id (Lower.refuse o) (Lower.refuse o') := by
  cases o with
  | none =>
    cases o' with
    | none => exact .pure (by simp)
    | some d' => cases h
  | some d =>
    cases o' with
    | none => cases h
    | some d' => exact .fail d d'

protected theorem forAll {m : α → γ} {u : α → Lower Unit} {u' : γ → Lower Unit} {xs : List α}
    (h : ∀ x, Blurs b id (u x) (u' (m x))) : Blurs b id (Lower.forAll u xs) (Lower.forAll u' (xs.map m)) := by
  induction xs with
  | nil => exact .pure (by simp)
  | cons x xs ih => exact (h x).bind fun _ => ih

theorem forSame {u u' : α → Lower Unit} {xs : List α} (h : ∀ x, Blurs b id (u x) (u' x)) :
    Blurs b id (Lower.forAll u xs) (Lower.forAll u' xs) := by
  have hall : Blurs b id (Lower.forAll u xs) (Lower.forAll u' (xs.map fun x => x)) :=
    .forAll h
  rwa [List.map_id'] at hall

protected theorem collect {m : α → γ} {u : α → Lower β} {u' : γ → Lower β} {xs : List α}
    (h : ∀ x, Blurs b g (u x) (u' (m x))) :
    Blurs b (List.map g) (Lower.collect u xs) (Lower.collect u' (xs.map m)) := by
  induction xs with
  | nil => exact .pure (by simp)
  | cons x xs ih => exact (h x).bind fun _ => ih.bind fun _ => .pure (by simp)

/-! ## Single steps -/

theorem table : Blurs b (SymbolTable.blurred b) Lower.table Lower.table :=
  .ask fun _ => rfl

theorem symbol (id : SymbolId) : Blurs b (Symbol.blurred b) (Lower.symbol id) (Lower.symbol id) :=
  .ask fun _ => SymbolTable.get_blurred _ _

theorem currentFunction : Blurs b id Lower.currentFunction Lower.currentFunction :=
  .ask fun s => by simp [Lowering.blurred]

theorem currentClass : Blurs b id Lower.currentClass Lower.currentClass :=
  .ask fun s => by simp [Lowering.blurred]

theorem changeTable {u u' : SymbolTable → SymbolTable} (h : ∀ t, u' (SymbolTable.blurred b t) = (u t).blurred b) :
    Blurs b id (Lower.changeTable u) (Lower.changeTable u') :=
  .change (fun s _ => by simp [Lowering.blurred, h]) fun _ => ⟨rfl, rfl⟩

theorem modifyClass (cls : SymbolId) (u : ClassInfo → ClassInfo) :
    Blurs b id (Lower.changeTable (·.modify cls (Symbol.mapClass u)))
      (Lower.changeTable (·.modify cls (Symbol.mapClass u))) :=
  changeTable fun t => (t.modify_mapClass_blurred u cls).symm

theorem modifyVariable (i : SymbolId) {u u' : VariableInfo → VariableInfo}
    (h : ∀ v, (u v).blurred b = u' (v.blurred b)) :
    Blurs b id (Lower.changeTable (·.modify i (Symbol.mapVariable u)))
      (Lower.changeTable (·.modify i (Symbol.mapVariable u'))) :=
  changeTable fun t => (t.modify_blurred (Symbol.mapVariable_blurred h) i).symm

theorem modifyFunction (i : SymbolId) {u u' : FunctionInfo → FunctionInfo}
    (h : ∀ f, (u f).blurred b = u' (f.blurred b)) :
    Blurs b id (Lower.changeTable (·.modify i (Symbol.mapFunction u)))
      (Lower.changeTable (·.modify i (Symbol.mapFunction u'))) :=
  changeTable fun t => (t.modify_blurred (Symbol.mapFunction_blurred h) i).symm

theorem newSymbol {s s' : Symbol} (h : s' = s.blurred b) : Blurs b id (Lower.newSymbol s) (Lower.newSymbol s') where
  same state _ := by
    have hadd := state.session.symbols.add_blurred (b := b) s
    rw [h]
    unfold Lower.outcome? Lower.newSymbol
    dsimp only
    rw [show (state.blurred b).session.symbols = state.session.symbols.blurred b from rfl, hadd]
    rfl
  keeps _ _ := ⟨rfl, rfl⟩

theorem tryTable {u u' : SymbolTable → Except Diagnostic SymbolTable}
    (h : ∀ t, (u' (SymbolTable.blurred b t)).toOption = (u t).toOption.map (SymbolTable.blurred b)) :
    Blurs b id (Lower.tryTable u) (Lower.tryTable u') :=
  table.bind fun t => (Blurs.ofExcept (h t)).bind fun _ => changeTable fun _ => rfl

theorem insert (new : SymbolId) : Blurs b id (Lower.insert new) (Lower.insert new) :=
  tryTable fun t => t.insertAt_blurred t.level new

theorem take (u : Supply → String × Supply) : Blurs b id (Lower.take u) (Lower.take u) where
  same _ _ := rfl
  keeps _ _ := ⟨rfl, rfl⟩

theorem freshTemp : Blurs b id Lower.freshTemp Lower.freshTemp := take _

theorem freshLabel : Blurs b id Lower.freshLabel Lower.freshLabel := take _

theorem freshRid (name : String) : Blurs b id (Lower.freshRid name) (Lower.freshRid name) := take _

/-- Code is written. -/
theorem append {c' : Code} (h : c' = b.code c) :
    Blurs b id (Lower.change fun s => { s with out := s.out.append c })
      (Lower.change fun s => { s with out := s.out.append c' }) :=
  .change (fun s _ => by rw [h]; simp [Lowering.blurred, Blur.buffer_append]) fun s =>
    ⟨rfl, s.out.annotate_append c⟩

theorem emit (op : Opcode) (args : List String) : Blurs b id (Lower.emit op args) (Lower.emit op args) :=
  append (c := [.instr ⟨op, args⟩]) (Blur.code_eq_self (by simp [CodeItem.isNote])).symm

/-- Something is computed into a new temporary. -/
theorem compute {op : Opcode} {args : String → List String} {f f' : String → Lower β}
    (hf : ∀ w, Blurs b g (f w) (f' w)) :
    Blurs b g (Lower.freshTemp >>= fun w => Lower.emit op (args w) >>= fun _ => f w)
      (Lower.freshTemp >>= fun w => Lower.emit op (args w) >>= fun _ => f' w) :=
  freshTemp.bind fun w => (emit op (args w)).bind fun _ => hf w

theorem push (h : o' = o.blurred b) : Blurs b id (Lower.push o) (Lower.push o') :=
  .change (fun s _ => by rw [h]; rfl) fun _ => ⟨rfl, rfl⟩

theorem move (target : String) (h : o' = o.blurred b) :
    Blurs b id (Lower.move o target) (Lower.move o' target) := by
  rw [h]
  exact .ite (.pure (by simp)) (.ite (emit _ _) (emit _ _) (by simp)) (by simp)

theorem materialize (o : Operand) :
    Blurs b (Operand.blurred b) (Lower.materialize o) (Lower.materialize (o.blurred b)) :=
  .ite (compute fun _ => .pure rfl) (.pure (by simp)) (by simp)

/-! ## Steps inside of something -/

/-- Two steps, each between an entrance and an exit, of which the second pair is the first one out of
focus. -/
theorem between {p p' q q' : Lower α} (enter enter' : Lowering → Lowering)
    (leave leave' : Lowering → Lowering → Lowering) (hq : ∀ s, q s = Lower.ensuring (leave s) p (enter s))
    (hq' : ∀ s, q' s = Lower.ensuring (leave' s) p' (enter' s)) (hp : Blurs b f p p')
    (entered : ∀ s, Keeps s (enter s)) (left : ∀ s u, Keeps u (leave s u))
    (enter_blurred : ∀ s, enter' (Lowering.blurred b s) = (enter s).blurred b)
    (leave_blurred : ∀ s u, leave' (Lowering.blurred b s) (Lowering.blurred b u) = (leave s u).blurred b) :
    Blurs b f q q' where
  same s hs := by
    unfold Lower.outcome?
    rw [hq, hq', Lower.ensuring, Lower.ensuring, enter_blurred]
    obtain ⟨e, t, e', t', hrun, hrun'⟩ | ⟨a, t, hrun, hrun'⟩ := hp.runs ((entered s).admits hs)
    · rw [hrun, hrun']
      rfl
    · simp only [hrun, hrun', leave_blurred]
      rfl
  keeps s hs := by
    rw [hq]
    exact ((entered s).trans (hp.keeps _ ((entered s).admits hs))).trans (left s _)

theorem inScope {kind : ScopeKind} {p q : Lower α} (hp : Blurs b f p q) :
    Blurs b f (Lower.inScope kind p) (Lower.inScope kind q) :=
  let enter := fun s : Lowering => { s with
    session := { s.session with symbols := (s.session.symbols.openScope kind).2 }
    scopes := kind :: s.scopes }
  let leave := fun s u : Lowering => { u with
    session := { u.session with
      symbols := (u.session.symbols.closeScope (s.session.symbols.openScope kind).1).2 }
    scopes := u.scopes.drop (u.scopes.length - s.scopes.length) }
  between enter enter leave leave (fun _ => rfl) (fun _ => rfl) hp (fun _ => ⟨rfl, rfl⟩)
    (fun _ _ => ⟨rfl, rfl⟩) (fun _ => rfl)
    fun s u => by simp [leave, Lowering.blurred, SymbolTable.openScope, SymbolTable.closeScope_blurred]

theorem inside {i : SymbolId} {p q : Lower α} (hp : Blurs b f p q) :
    Blurs b f (Lower.inside i p) (Lower.inside i q) :=
  let enter := fun s : Lowering => { s with processing := i :: s.processing }
  let leave := fun s u : Lowering => { u with
    processing := u.processing.drop (u.processing.length - s.processing.length) }
  between enter enter leave leave (fun _ => rfl) (fun _ => rfl) hp (fun _ => ⟨rfl, rfl⟩)
    (fun _ _ => ⟨rfl, rfl⟩) (fun _ => rfl) fun _ _ => rfl

theorem truncate_blurred (mark : Nat) (s : Lowering) :
    Lower.truncate mark (s.blurred b) = (Lower.truncate mark s).blurred b := by
  simp [Lower.truncate, Lowering.blurred]

theorem forEffect {p q : Lower Unit} (hp : Blurs b id p q) : Blurs b id (Lower.forEffect p) (Lower.forEffect q) :=
  let leave := fun s u : Lowering => Lower.truncate s.operands.length u
  between id id leave leave (fun _ => rfl) (fun _ => rfl) hp Keeps.refl (fun _ _ => ⟨rfl, rfl⟩)
    (fun _ => rfl) fun s u => by
      change Lower.truncate (s.operands.map (Operand.blurred b)).length _ = _
      rw [List.length_map, truncate_blurred]

theorem apart {p q : Lower Unit} (hp : Blurs b id p q) : Blurs b b.code (Lower.apart p) (Lower.apart q) where
  same s hs := by
    have hentered : ({ s.blurred b with out := (s.blurred b).out.enter } : Lowering) =
        Lowering.blurred b { s with out := s.out.enter } := by
      simp [Lowering.blurred, Blur.buffer_enter]
    have hdepth : (s.blurred b).out.depth = s.out.depth := Blur.depth_buffer _
    unfold Lower.outcome? Lower.apart
    simp only [hentered, hdepth]
    obtain ⟨e, t, e', t', hrun, hrun'⟩ | ⟨a, t, hrun, hrun'⟩ :=
      hp.runs (s := { s with out := s.out.enter }) ⟨hs.builtins, hs.noted⟩
    · rw [hrun, hrun']
      rfl
    · rw [hrun, hrun', show (t.blurred b).out = b.buffer t.out from rfl, Blur.buffer_leave?]
      cases t.out.leave? s.out.depth <;> simp [Except.map, Lowering.blurred]
  keeps s hs := by
    have hkept := hp.keeps { s with out := s.out.enter } ⟨hs.builtins, hs.noted⟩
    unfold Lower.apart
    dsimp only
    rcases hrun : p { s with out := s.out.enter } with ⟨r, t⟩
    rw [hrun] at hkept
    refine ⟨hkept.builtins, ?_⟩
    have hleft : ((t.out.leave? s.out.depth).getD ([], t.out)).2.annotate = t.out.annotate := by
      unfold CodeBuffer.leave? CodeBuffer.exit?
      split <;> rfl
    exact hleft.trans hkept.annotate

theorem forValue {p q : Lower Unit} (hp : Blurs b id p q) :
    Blurs b (Operand.blurred b) (Lower.forValue p (Lower.fail d)) (Lower.forValue q (Lower.fail d')) where
  same s hs := by
    have hlength : ∀ s : Lowering, (s.blurred b).operands.length = s.operands.length := fun s =>
      List.length_map ..
    unfold Lower.outcome? Lower.forValue
    simp only [hlength]
    obtain ⟨e, t, e', t', hrun, hrun'⟩ | ⟨a, t, hrun, hrun'⟩ := hp.runs hs
    · rw [hrun, hrun']
      rfl
    · rw [hrun, hrun']
      dsimp only
      rw [hlength, show (t.blurred b).operands = t.operands.map (Operand.blurred b) from rfl]
      cases hops : t.operands with
      | nil => rfl
      | cons o rest =>
        rw [List.map_cons]
        dsimp only
        by_cases hmark : (o :: rest).length ≤ s.operands.length
        · rw [if_pos hmark, if_pos hmark]
          rfl
        · rw [if_neg hmark, if_neg hmark, truncate_blurred]
          rfl
  keeps s hs := by
    have hkept := hp.keeps s hs
    unfold Lower.forValue
    dsimp only
    rcases hrun : p s with ⟨_ | a, t⟩ <;> rw [hrun] at hkept
    · exact ⟨hkept.builtins, hkept.annotate⟩
    · dsimp only
      split
      · split
        · exact hkept
        · exact ⟨hkept.builtins, hkept.annotate⟩
      · exact hkept

/-! ## Nodes -/

variable {visit visit' : Visit}

section
variable (hv : ∀ n, Blurs b id (visit n) (visit' (n.moved b.place))) (n : Node)
include hv n

theorem eval : Blurs b (Operand.blurred b) (Lower.eval visit n) (Lower.eval visit' (n.moved b.place)) :=
  forValue (hv n)

theorem exec : Blurs b id (Lower.exec visit n) (Lower.exec visit' (n.moved b.place)) :=
  forEffect (hv n)

end

theorem marksOf (labels : List Label) (what : String) (admitted : List String) :
    Blurs b (Marks.blurred b) (Lower.marksOf labels what admitted)
      (Lower.marksOf (labels.map (Label.moved b.place)) what admitted) := by
  refine table.bind fun t => (Blurs.ofExcept (Marks.ofLabels_moved t {} labels)).bind fun m => ?_
  exact (Blurs.refuse (Marks.refusal?_blurred m what admitted)).bind fun _ => Blurs.pure (by simp)

end Blurs

end Frontend
