import Frontend.Lowering.Unit
import Frontend.Proofs.Lowering.Scope

/-!
# What steps of lowering do

A step of lowering that succeeds has written a region of code. `Effect` says everything about one
such step that later steps rely on; `Run` is the judgement that a step has such an effect whenever it
succeeds, and `Does` that it moreover leaves a state from which lowering can go on in the same way.
-/

namespace Frontend

/-! ## Buffers -/

namespace CodeBuffer

section
variable (b : CodeBuffer)
include b

theorem append_eq (code : Code) : b.append code =
      match b.inner with
      | [] => { b with root := code.reverse ++ b.root }
      | top :: rest => { b with inner := (code.reverse ++ top) :: rest } := by
  induction code generalizing b with
  | nil =>
    obtain ⟨annotate, root, inner⟩ := b
    cases inner <;> rfl
  | cons item code ih =>
    have step : b.append (item :: code) = (b.push item).append code := rfl
    rw [step, ih]
    obtain ⟨annotate, root, inner⟩ := b
    cases inner <;> simp [push]

theorem append_append (code more : Code) : b.append (code ++ more) = (b.append code).append more := by
  unfold append
  rw [List.foldl_append]

theorem append_nil : b.append [] = b := rfl

theorem append_injective {code more : Code} (h : b.append code = b.append more) : code = more := by
  rw [append_eq, append_eq] at h
  obtain ⟨annotate, root, inner⟩ := b
  cases inner with
  | nil => exact List.reverse_injective (List.append_cancel_right (CodeBuffer.mk.inj h).2.1)
  | cons top rest =>
    exact List.reverse_injective (List.append_cancel_right (List.cons.inj (CodeBuffer.mk.inj h).2.2).1)

/-- What is written after a buffer was opened comes back when it is closed. -/
theorem leave?_enter_append (code : Code) : (b.enter.append code).leave? b.depth = some (code, b) := by
  rw [append_eq]
  simp [enter, leave?, dropTo, exit?, depth]

end

end CodeBuffer

/-! ## Effects -/

open SymbolTable Region

/-- An operand whose words may be used. Labels are no operands of expressions, and a number literal is
written like a number. -/
structure OperandOk (known : Set String) (t : SymbolTable) (o : Operand) : Prop where
  raw : Usable known t o.raw
  kind : o.kind ≠ .label
  numeral : o.kind = .literal → o.effective.isNumeric = true → Word.Numeral o.raw
  receiver : ∀ r, o.receiver = some r → Usable known t r.object

/-- The symbol table of a state. -/
abbrev Lowering.table (s : Lowering) : SymbolTable := s.session.symbols

/-- The counters of a state. -/
abbrev Lowering.supply (s : Lowering) : Supply := s.session.supply

/-- A state between two steps: its table is in good order, and the built-in functions are the standard
ones. -/
structure Stable (s : Lowering) : Prop where
  builtins : s.session.builtins = .standard
  ordered : Ordered s.supply.rids s.table

/-- A state from which lowering can go on where some words are known. -/
structure Ready (Γ : Surroundings) (known : Set String) (s : Lowering) : Prop where
  stable : Stable s
  sees : Scoped Γ known s.table

/-! ## Functions -/

/-- What comes before the items of a function: nothing, or the initial values of the fields of a class. -/
inductive Lower.Prelude (visit : Visit) : Lower Unit → Prop where
  | nothing : Prelude visit (pure ())
  | fields (cls : SymbolId) : Prelude visit (Lower.initInstance visit cls)

/-- The lowering of what stands inside of a function, and the code that it wrote. -/
structure Inside where
  levels : Nat
  id : SymbolId
  body : Block
  before : Lower Unit
  start : Lowering
  after : Lowering
  code : Code
  prelude : Lower.Prelude (Lower.visit levels) before
  run : (do
    before
    Lower.items (Lower.visit levels) body.items
    Lower.epilogue id body.finish : Lower Unit) start = (.ok (), after)
  out : after.out = start.out.append code

/-- The function whose inside was lowered, as it is known at its end. -/
def Inside.function (i : Inside) : FunctionInfo := ((i.after.table.get i.id).function?).getD {}

/-- The operation that opens the function. -/
def Inside.op (i : Inside) : Opcode := if i.function.returnsValue then .funi else .func

/-! ## Runs that steps are a part of -/

/-- An expression that is lowered for its value. -/
structure Evaluation where
  levels : Nat
  node : Node
  start : Lowering
  value : Operand
  finish : Lowering
  run : Lower.eval (Lower.visit levels) node start = (.ok value, finish)

/-- What is known of the run that steps are a part of: which expressions are evaluated in it, and which insides of
functions are lowered. -/
class Setting where
  evaluates : Evaluation → Prop
  lowers : Inside → Prop

/-- Any run, of which nothing is asked. -/
abbrev Setting.any : Setting := ⟨fun _ => True, fun _ => True⟩

namespace Lower

/-- Lowers a node, and the items of the functions that it defines in a way of their own. -/
def visitBodies (visit : Visit) (items : List Node → Lower Unit) : Node → Lower Unit
  | .funDef _ name params labels body _ => defineFunction items name params labels body
  | .lambda token params labels body => lambda items token params labels body
  | .classDef _ name body => defineClass visit items name body
  | n => visitWith visit n

theorem visitBodies_items (visit : Visit) (n : Node) : visitBodies visit (items visit) n = visitWith visit n := by
  cases n <;> rfl

/-- Functions are lowered as on a level of a run, and what comes of their insides is known of the run. -/
structure Within [Setting] (levels : Nat) (visit : Visit) (items : List Node → Lower Unit) : Prop where
  prelude : ∀ {cls s s'}, initInstance visit cls s = (.ok (), s') →
    initInstance (Lower.visit levels) cls s = (.ok (), s')
  body : ∀ {ns s s'}, items ns s = (.ok (), s') → Lower.items (Lower.visit levels) ns s = (.ok (), s')
  lowers : ∀ {i : Inside} {s s'}, i.levels = levels → i.start.processing.head? = some i.id →
    i.before i.start = (.ok (), s) → items i.body.items s = (.ok (), s') → Setting.lowers i

end Lower

/-- A function whose body is the code of a well-read block, which was lowered where only the parameters were
known. -/
def FunctionCode [Setting] (op : Opcode) (head : List String) (body : Region) : Prop :=
  ∃ i : Inside, Setting.lowers i ∧ (∀ n ∈ i.body.items, n.WellRead) ∧ Ready .function { w | w ∈ head.tail } i.start ∧
    op = i.op ∧ head.head? = some (i.after.table.get i.id).rid ∧ body.flatten = i.code

/-! ## What a step has done -/

/-- More words are known, more symbols were made, more numbers were given out, and no label was pushed
on the operands; the same scopes are open. -/
structure Grows (known : Set String) (s : Lowering) (known' : Set String) (s' : Lowering) :
    Prop where
  known : known ⊆ known'
  table : Extends s.table s'.table
  rids : s.supply.rids ≤ s'.supply.rids
  same : SameScopes s.table s'.table
  operands : ∃ new, s'.operands = new ++ s.operands ∧ ∀ o ∈ new, o.kind ≠ .label

/-- What a step has done that led from one state to another and wrote a region. The labels `own` were
taken before and are placed by the step. -/
structure Effect [Setting] (Γ : Surroundings) (own : List String) (known : Set String) (s : Lowering)
    (r : Region) (s' : Lowering) : Prop where
  out : s'.out = s.out.append r.flatten
  fits : r.Fits Γ s'.table.free known
  labelled : r.Labelled own s.supply.labels s'.supply.labels
  functions : r.Functions FunctionCode
  labels : s.supply.labels ≤ s'.supply.labels
  rids : s.supply.rids ≤ s'.supply.rids
  table : Extends s.table s'.table
  same : SameScopes s.table s'.table
  operands : ∃ new, s'.operands = new ++ s.operands ∧
    ∀ o ∈ new, OperandOk (known ∪ r.defs) s'.table o
  stable : Stable s'

/-- Whenever the step succeeds, it has an effect, and its result has a property. -/
def Run [Setting] (Γ : Surroundings) (own : List String) (known : Set String) (s : Lowering) {α : Type}
    (p : Lower α) (Q : Set String → α → Lowering → Prop) : Prop :=
  ∀ a s', p s = (.ok a, s') → ∃ r, Effect Γ own known s r s' ∧ Q (known ∪ r.defs) a s'

/-- Whenever the step succeeds, it has an effect, lowering can go on, and its result has a
property. -/
def Does [Setting] (Γ : Surroundings) (known : Set String) (s : Lowering) {α : Type} (p : Lower α)
    (Q : Set String → α → Lowering → Prop) : Prop :=
  Run Γ [] known s p fun known' a s' => Scoped Γ known' s'.table ∧ Q known' a s'

def Whatever {α : Type} (_ : Set String) (_ : α) (_ : Lowering) : Prop := True

variable {Γ : Surroundings} {own own' : List String} {known known' known'' : Set String}
  {s s' s'' : Lowering} {α β γ : Type}
variable {p : Lower α} {f : α → Lower β} {R : Set String → α → Lowering → Prop}
  {Q : Set String → β → Lowering → Prop} {d : Diagnostic} {c : Prop}
variable {a : α} {e : Failure} {r : Except Failure α} {o : Operand} {q : Lower α}

theorem Lower.bind_assoc (p : Lower α) (f : α → Lower β) (g : β → Lower γ) :
    (p >>= f) >>= g = p >>= fun a => f a >>= g := by
  funext s
  change andThen (andThen p f) g s = andThen p (fun a => andThen (f a) g) s
  unfold andThen
  cases p s with
  | mk result s' => cases result <;> rfl

theorem Lower.forAll_append (f : α → Lower Unit) (xs ys : List α) :
    forAll f (xs ++ ys) = forAll f xs >>= fun _ => forAll f ys := by
  induction xs with
  | nil => rfl
  | cons x xs ih =>
    change (f x >>= fun _ => forAll f (xs ++ ys)) = (f x >>= fun _ => forAll f xs) >>= _
    rw [ih, bind_assoc]

theorem Lower.bind_pure (p : Lower α) : p >>= pure = p := by
  funext s
  change andThen p succeed s = p s
  unfold andThen
  cases p s with
  | mk result s' => cases result <;> rfl

theorem Lower.bind_of_ok (h : p s = (.ok a, s')) (f : α → Lower β) : (p >>= f) s = f a s' := by
  change andThen p f s = f a s'
  unfold andThen
  rw [h]

theorem Lower.table_bind (f : SymbolTable → Lower α) : (table >>= f) s = f s.session.symbols s := rfl

theorem Lower.bind_of_error (h : p s = (.error e, s')) (f : α → Lower β) : (p >>= f) s = (.error e, s') := by
  change andThen p f s = (.error e, s')
  unfold andThen
  rw [h]

theorem Lower.bind_eq_ok {b : β} :
    (p >>= f) s = (.ok b, s') ↔ ∃ a m, p s = (.ok a, m) ∧ f a m = (.ok b, s') := by
  cases hp : p s with
  | mk r m =>
    cases r with
    | ok a => simp [bind_of_ok hp]
    | error e => simp [bind_of_error hp]

theorem Lower.ofExcept_eq_ok {r : Except Diagnostic α} (h : ofExcept r s = (.ok a, s')) : r = .ok a ∧ s = s' := by
  cases r with
  | error d => cases h
  | ok b =>
    cases h
    exact ⟨rfl, rfl⟩

/-- Restoring a part of the state does not change how a step ends. -/
theorem Lower.exists_of_ensuring {restore : Lowering → Lowering} (h : ensuring restore p s = (r, s')) :
    ∃ u, p s = (r, u) ∧ s' = restore u :=
  ⟨_, Prod.ext (show (p s).1 = r from congrArg Prod.fst h) rfl, (congrArg Prod.snd h).symm⟩

theorem Lower.exists_of_inside {id : SymbolId} (h : inside id p s = (r, s')) :
    ∃ u, p { s with processing := id :: s.processing } = (r, u) ∧
      s' = { u with processing := u.processing.drop (u.processing.length - s.processing.length) } := by
  unfold inside at h
  exact exists_of_ensuring h

theorem Lower.exists_of_inScope {kind : ScopeKind} (h : inScope kind p s = (r, s')) :
    ∃ u, p { s with
        session := { s.session with symbols := s.table.enter kind }
        scopes := kind :: s.scopes } = (r, u) ∧
      s' = { u with
        session := { u.session with symbols := u.table.leaveTo s.table.level }
        scopes := u.scopes.drop (u.scopes.length - s.scopes.length) } := by
  unfold inScope at h
  exact exists_of_ensuring h

/-- The value of a step is on top of what the step leaves. -/
theorem Lower.exists_of_forValue {p : Lower Unit} (h : forValue p (fail d) s = (.ok o, s')) :
    ∃ u rest, p s = (.ok (), u) ∧ u.operands = o :: rest ∧ s.operands.length < u.operands.length ∧
      s' = truncate s.operands.length u := by
  unfold forValue at h
  dsimp only at h
  split at h
  · cases h
  · next u hp =>
    split at h
    · next o' rest hops =>
      rcases ite_eq_iff.mp h with ⟨-, h⟩ | ⟨hmore, h⟩
      · cases h
      · cases h
        exact ⟨u, rest, hp, hops, by omega, rfl⟩
    · cases h

theorem Lower.eq_of_showingLine (h : showingLine p s = (.ok a, s')) : p s = (.ok a, s') := by
  unfold showingLine at h
  split at h
  · cases h
  · exact h

/-! ## Growth -/

theorem Ready.mono (h : Ready Γ known s) (hk : known ⊆ known') : Ready Γ known' s :=
  ⟨h.stable, h.sees.mono hk⟩

theorem Grows.refl (known : Set String) (s : Lowering) : Grows known s known s :=
  ⟨subset_rfl, .refl _, le_refl _, .of_eq rfl, [], rfl, fun _ h => nomatch h⟩

theorem Grows.trans (h : Grows known s known' s') (h' : Grows known' s' known'' s'') :
    Grows known s known'' s'' := by
  obtain ⟨new, hnew, hkind⟩ := h.operands
  obtain ⟨new', hnew', hkind'⟩ := h'.operands
  refine ⟨h.known.trans h'.known, h.table.trans h'.table, h.rids.trans h'.rids,
    h.same.trans h'.same, new' ++ new, by rw [hnew', hnew, List.append_assoc], ?_⟩
  intro o ho
  exact (List.mem_append.mp ho).elim (hkind' o) (hkind o)

theorem SymbolTable.Usable.grows {w : String} (h : Usable known s.table w) (hg : Grows known s known' s') :
    Usable known' s'.table w :=
  h.mono hg.known hg.table

theorem OperandOk.mono {t t' : SymbolTable} (h : OperandOk known t o) (hk : known ⊆ known') (ht : Extends t t') :
    OperandOk known' t' o :=
  ⟨h.raw.mono hk ht, h.kind, h.numeral, fun r hr => (h.receiver r hr).mono hk ht⟩

theorem OperandOk.grows (h : OperandOk known s.table o) (hg : Grows known s known' s') :
    OperandOk known' s'.table o :=
  h.mono hg.known hg.table

variable [Setting]

theorem Effect.grows {r : Region} (h : Effect Γ own known s r s') : Grows known s (known ∪ r.defs) s' := by
  obtain ⟨new, hnew, hok⟩ := h.operands
  exact ⟨Set.subset_union_left, h.table, h.rids, h.same, new, hnew, fun o ho => (hok o ho).kind⟩

/-! ## Steps one after another -/

/-- The step that does nothing. -/
theorem Effect.refl (h : Stable s) : Effect Γ [] known s .nil s :=
  { out := (CodeBuffer.append_nil _).symm
    fits := .nil
    labelled := labelled_of_allSets_nil rfl _ _
    functions := trivial
    labels := le_refl _
    rids := le_refl _
    table := .refl _
    same := .of_eq rfl
    operands := ⟨[], rfl, fun _ h => nomatch h⟩
    stable := h }

theorem Effect.trans {r r' : Region} (h : Effect Γ own known s r s')
    (h' : Effect Γ own' (known ∪ r.defs) s' r' s'') : Effect Γ (own ++ own') known s (r.append r') s'' := by
  obtain ⟨new, hnew, hok⟩ := h.operands
  obtain ⟨new', hnew', hok'⟩ := h'.operands
  refine ⟨?_, ?_, h.labelled.append h'.labelled h.labels h'.labels,
    functions_append h.functions h'.functions, h.labels.trans h'.labels, h.rids.trans h'.rids,
    h.table.trans h'.table, h.same.trans h'.same, ?_, h'.stable⟩
  · rw [h'.out, h.out, flatten_append, CodeBuffer.append_append]
  · exact (h.fits.mono h'.table.free_subset subset_rfl).append h'.fits
  · refine ⟨new' ++ new, by rw [hnew', hnew, List.append_assoc], ?_⟩
    rw [defs_append, ← Set.union_assoc]
    intro o ho
    rcases List.mem_append.mp ho with ho | ho
    · exact hok' o ho
    · exact (hok o ho).mono Set.subset_union_left h'.table

theorem Run.bind (hp : Run Γ own known s p R)
    (hf : ∀ known' a s', Grows known s known' s' → Stable s' → R known' a s' →
      Run Γ own' known' s' (f a) Q) : Run Γ (own ++ own') known s (p >>= f) Q := by
  intro b s'' h
  obtain ⟨a, s', heq, h⟩ := Lower.bind_eq_ok.mp h
  obtain ⟨r, hr, hR⟩ := hp a s' heq
  obtain ⟨r', hr', hQ⟩ := hf _ a s' hr.grows hr.stable hR b s'' h
  refine ⟨r.append r', hr.trans hr', ?_⟩
  rw [defs_append, ← Set.union_assoc]
  exact hQ

/-- How the step ends is known, too. -/
theorem Run.along {Q : Set String → α → Lowering → Prop} (h : Run Γ own known s p Q) :
    Run Γ own known s p fun known' a s' => Q known' a s' ∧ p s = (.ok a, s') := by
  intro a s' hs
  obtain ⟨r, hr, hQ⟩ := h a s' hs
  exact ⟨r, hr, hQ, hs⟩

theorem Run.weaken {Q : Set String → α → Lowering → Prop} (h : Run Γ own known s p R)
    (hi : ∀ known' a s', R known' a s' → Q known' a s') : Run Γ own known s p Q := by
  intro a s' hs
  obtain ⟨r, hr, hR⟩ := h a s' hs
  exact ⟨r, hr, hi _ a s' hR⟩

theorem Run.perm {Q : Set String → α → Lowering → Prop} (hp : own.Perm own') (h : Run Γ own known s p Q) :
    Run Γ own' known s p Q := by
  intro a s' hs
  obtain ⟨r, hr, hQ⟩ := h a s' hs
  exact ⟨r, { hr with labelled := hr.labelled.perm hp }, hQ⟩

theorem Does.bind (hp : Does Γ known s p R)
    (hf : ∀ known' a s', Grows known s known' s' → Ready Γ known' s' → R known' a s' →
      Does Γ known' s' (f a) Q) : Does Γ known s (p >>= f) Q :=
  Run.bind hp fun known' a s' hg hs hR => hf known' a s' hg ⟨hs, hR.1⟩ hR.2

/-- A step that can be gone on from, in front of one that places labels. -/
theorem Does.bindRun (hp : Does Γ known s p R)
    (hf : ∀ known' a s', Grows known s known' s' → Ready Γ known' s' → R known' a s' →
      Run Γ own known' s' (f a) Q) : Run Γ own known s (p >>= f) Q :=
  .bind hp fun known' a s' hg hs hR => hf known' a s' hg ⟨hs, hR.1⟩ hR.2

theorem Does.weaken {Q : Set String → α → Lowering → Prop} (h : Does Γ known s p R)
    (hi : ∀ known' a s', R known' a s' → Q known' a s') : Does Γ known s p Q :=
  Run.weaken h fun known' a s' hR => ⟨hR.1, hi known' a s' hR.2⟩

theorem Does.whatever (h : Does Γ known s p R) : Does Γ known s p Whatever :=
  h.weaken fun _ _ _ _ => trivial

theorem Run.pure {Q : Set String → α → Lowering → Prop} (h : Stable s) (hQ : Q known a s) :
    Run Γ [] known s (pure a) Q := by
  rintro b s' ⟨⟩
  refine ⟨.nil, Effect.refl h, ?_⟩
  rw [show known ∪ Region.nil.defs = known from Set.union_empty known]
  exact hQ

theorem Does.pure {Q : Set String → α → Lowering → Prop} (h : Ready Γ known s) (hQ : Q known a s) :
    Does Γ known s (pure a) Q :=
  Run.pure h.stable ⟨h.sees, hQ⟩

theorem Run.failWith {Q : Set String → α → Lowering → Prop} : Run Γ own known s (Lower.failWith e) Q := by
  rintro a s' ⟨⟩

theorem Run.fail {Q : Set String → α → Lowering → Prop} : Run Γ own known s (Lower.fail d) Q := .failWith

theorem Run.failBind : Run Γ own known s (Lower.fail d >>= f) Q := by
  rintro a s' ⟨⟩

theorem Run.ite [Decidable c] {Q : Set String → α → Lowering → Prop} (hp : c → Run Γ own known s p Q)
    (hq : ¬ c → Run Γ own known s q Q) : Run Γ own known s (if c then p else q) Q := by
  by_cases h : c
  · rw [if_pos h]
    exact hp h
  · rw [if_neg h]
    exact hq h

/-- One of two steps, in front of what comes behind both. -/
theorem Run.iteBind [Decidable c] (h : Run Γ own known s ((if c then p else q) >>= f) Q) :
    Run Γ own known s (if c then p >>= f else q >>= f) Q := by
  by_cases hc : c
  · rw [if_pos hc] at h ⊢
    exact h
  · rw [if_neg hc] at h ⊢
    exact h

/-- Something is refused, and otherwise lowering goes on. -/
theorem Run.unless [Decidable c] {q : Lower β} (hq : ¬ c → Run Γ own known s q Q) :
    Run Γ own known s (if c then Lower.fail d >>= f else q) Q :=
  .ite (fun _ => .failBind) hq

/-- A question is answered on the spot. -/
theorem Run.ask {g : Lowering → α} (h : Run Γ own known s (f (g s)) Q) :
    Run Γ own known s (Lower.ask g >>= f) Q := h

theorem Run.ofExcept {e : Except Diagnostic α} (h : ∀ a, e = .ok a → Run Γ own known s (f a) Q) :
    Run Γ own known s (Lower.ofExcept e >>= f) Q := by
  cases e with
  | error d => exact .failBind
  | ok a => exact h a rfl

theorem Run.refuse {o : Option Diagnostic} {f : Unit → Lower β} (h : Run Γ own known s (f ()) Q) :
    Run Γ own known s (Lower.refuse o >>= f) Q := by
  cases o with
  | some d => exact .failBind
  | none => exact h

end Frontend
