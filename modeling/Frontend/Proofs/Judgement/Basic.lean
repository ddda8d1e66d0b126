import Frontend.Proofs.Course.Steps
import Frontend.Proofs.Symbol.Tag

/-!
# Judgements about lowering

Most of lowering looks at no file, and what it makes of the nodes inside of a construct depends on the visitor
only through the nodes that it lowers. A judgement about families of steps, one for each visitor of a family,
holds of every construct if it holds of such plain steps, of steps one after another and of steps inside of a frame.
-/

namespace Frontend

variable {cls : SymbolId} {s : Lowering} {c : Prop} {d : Diagnostic} {k : Bool}

/-! ## Functions that are completed -/

/-- Two parameters of one kind and one type. -/
structure Parameter.Alike (p q : Parameter) : Prop where
  kind : p.kind = q.kind
  type : p.type.same q.type = true

theorem Parameter.Alike.symm {p q : Parameter} (h : p.Alike q) : q.Alike p := ⟨h.kind.symm, Tag.same_symm h.type⟩

/-- What becomes of a function: it stays as it is, or it was declared and is completed by parameters of the same
number, kinds and types. -/
inductive FunctionInfo.Becomes (f g : FunctionInfo) : Prop where
  | same (declared : g.declared = f.declared) (params : g.params = f.params)
  | defined (before : f.declared = true) (after : g.declared = false)
      (alike : List.Forall₂ Parameter.Alike f.params g.params)

namespace FunctionInfo

variable {f g h : FunctionInfo}

theorem Becomes.refl (f : FunctionInfo) : f.Becomes f := .same rfl rfl

theorem Becomes.trans (hfg : f.Becomes g) (hgh : g.Becomes h) : f.Becomes h := by
  cases hfg with
  | same declared params =>
    cases hgh with
    | same declared' params' => exact .same (declared'.trans declared) (params'.trans params)
    | defined before after alike => exact .defined (declared ▸ before) after (params ▸ alike)
  | defined before after alike =>
    cases hgh with
    | same declared' params' => exact .defined before (declared'.trans after) (params'.symm ▸ alike)
    | defined before' _ _ => exact absurd (after.symm.trans before') Bool.false_ne_true

/-- The parameters stay of the same number, kinds and types. -/
theorem Becomes.alike (hfg : f.Becomes g) : List.Forall₂ Parameter.Alike f.params g.params := by
  cases hfg with
  | same declared params =>
    rw [params]
    exact List.forall₂_same.mpr fun p _ => ⟨rfl, Tag.same_refl p.type⟩
  | defined before after alike => exact alike

theorem Becomes.params_eq (hfg : f.Becomes g) (hdeclared : f.declared = g.declared) : f.params = g.params := by
  cases hfg with
  | same declared params => exact params.symm
  | defined before after alike => cases before.symm.trans (hdeclared.trans after)

/-- The parameters of a definition that fits its declaration. -/
theorem alike_of_sameHead (hs : Lower.sameHead f g = true) : List.Forall₂ Parameter.Alike f.params g.params := by
  unfold Lower.sameHead at hs
  simp only [Bool.and_eq_true, beq_iff_eq] at hs
  obtain ⟨⟨hlength, -⟩, hall⟩ := hs
  refine List.forall₂_iff_zip.mpr ⟨hlength, fun {p q} hmem => ?_⟩
  have hboth := List.all_eq_true.mp hall (p, q) hmem
  simp only [Bool.and_eq_true, beq_iff_eq] at hboth
  exact ⟨hboth.1, hboth.2⟩

end FunctionInfo

namespace SymbolTable

/-- Every function of a table is in a later one, where it may have been completed. -/
structure Matures (t t' : SymbolTable) : Prop where
  function : ∀ id f, (t.get id).function? = some f → ∃ g, (t'.get id).function? = some g ∧ f.Becomes g

variable {t t' t'' : SymbolTable} {id : SymbolId}

theorem Matures.refl (t : SymbolTable) : Matures t t := ⟨fun _ f hf => ⟨f, hf, .refl f⟩⟩

theorem Matures.trans (h : Matures t t') (h' : Matures t' t'') : Matures t t'' := by
  refine ⟨fun id f hf => ?_⟩
  obtain ⟨g, hg, hfg⟩ := h.function id f hf
  obtain ⟨k, hk, hgk⟩ := h'.function id g hg
  exact ⟨k, hk, hfg.trans hgk⟩

theorem Matures.of_eq (h : t' = t) : Matures t t' := h ▸ .refl t

theorem Matures.of_symbols (h : t'.symbols = t.symbols) : Matures t t' :=
  ⟨fun id f hf => ⟨f, by rw [get_of_symbols h]; exact hf, .refl f⟩⟩

theorem matures_add (t : SymbolTable) (sym : Symbol) : Matures t (t.add sym).2 :=
  ⟨fun id f hf => ⟨f, by rw [get_add_of_lt t sym (lt_size_of_function? hf)]; exact hf, .refl f⟩⟩

/-- A symbol is changed; a function may become another one. -/
theorem matures_modify {F : Symbol → Symbol}
    (h : ∀ f, (t.get id).function? = some f → ∃ g, (F (t.get id)).function? = some g ∧ f.Becomes g) :
    Matures t (t.modify id F) := by
  refine ⟨fun j f hf => ?_⟩
  rw [get_modify]
  split
  · next hj =>
    rw [hj.1] at hf ⊢
    exact h f hf
  · exact ⟨f, hf, .refl f⟩

theorem matures_mapVariable (t : SymbolTable) (id : SymbolId) (g : VariableInfo → VariableInfo) :
    Matures t (t.modify id (Symbol.mapVariable g)) :=
  matures_modify fun f hf => ⟨f, by rw [Symbol.function?_mapVariable, hf], .refl f⟩

theorem matures_mapClass (t : SymbolTable) (id : SymbolId) (g : ClassInfo → ClassInfo) :
    Matures t (t.modify id (Symbol.mapClass g)) :=
  matures_modify fun f hf => ⟨f, by rw [Symbol.function?_mapClass, hf], .refl f⟩

theorem matures_returned (t : SymbolTable) (id : SymbolId) :
    Matures t (t.modify id (Symbol.mapFunction fun f => { f with returned := true })) :=
  matures_modify fun f hf => ⟨{ f with returned := true }, by rw [Symbol.function?_mapFunction, hf]; rfl, .same rfl rfl⟩

/-- A declared function is completed by a definition that fits. -/
theorem matures_fulfil {info : FunctionInfo} (hopen : (((t.get id).function?).getD {}).declared = true)
    (hsame : Lower.sameHead (((t.get id).function?).getD {}) info = true) :
    Matures t (t.modify id (Symbol.mapFunction fun f => { f with params := info.params, declared := false })) := by
  refine matures_modify fun f hf => ⟨{ f with params := info.params, declared := false }, ?_, ?_⟩
  · rw [Symbol.function?_mapFunction, hf]
    rfl
  · rw [hf, Option.getD_some] at hopen hsame
    exact .defined hopen rfl (FunctionInfo.alike_of_sameHead (g := info) hsame)

theorem matures_insertAt {level : Nat} (h : t.insertAt level id = .ok t') : Matures t t' :=
  (matures_modify (F := fun s => { s with level }) fun f hf => ⟨f, hf, .refl f⟩).trans (.of_symbols (symbols_insertAt h))

theorem matures_addMember {member : SymbolId} {static : Bool} (h : t.addMember cls member static = .ok t') :
    Matures t t' := by
  rw [addMember_eq h]
  exact matures_mapClass ..

theorem matures_setBase {base : Option SymbolId} {pos : Position} (h : t.setBase cls base pos = .ok t') :
    Matures t t' :=
  setBase_induction (P := Matures t) h (matures_mapClass ..) fun _ _ hu => hu.trans (matures_mapClass ..)

theorem matures_registerType (t : SymbolTable) (id : SymbolId) : Matures t (t.registerType id) :=
  .of_symbols (Course.scopes_registerType t id).2.2.1

theorem matures_leaveTo (t : SymbolTable) (level : Nat) : Matures t (t.leaveTo level) :=
  .of_symbols (Course.symbols_leaveTo t level)

end SymbolTable

/-! ## What is seen -/

/-- What lowering sees of the world around it: the files, and where imports are looked for. -/
structure View where
  files : FileTree
  root : String
  search : List String

namespace Lowering

def view (s : Lowering) : View := ⟨s.files, s.session.imports.root, s.session.imports.search⟩

/-- The same state, seeing something else and with another text at hand. -/
def seeing (s : Lowering) (v : View) (src : Source) : Lowering :=
  { s with
    files := v.files
    source := src
    session := { s.session with
      imports := { s.session.imports with root := v.root, search := v.search } } }

def loaded (s : Lowering) : List String := s.session.imports.loaded

end Lowering

namespace Locality

/-- What every step leaves alone: what is seen, and the file at hand. No file is unloaded, and code is
written behind the code that was there. -/
structure Kept (s s' : Lowering) : Prop where
  view : s'.view = s.view
  file : s'.file = s.file
  loaded : s.loaded ⊆ s'.loaded
  out : ∃ code, s'.out = s.out.append code

theorem Kept.refl (s : Lowering) : Kept s s := ⟨rfl, rfl, List.Subset.refl _, [], rfl⟩

theorem Kept.trans {s' s'' : Lowering} (h : Kept s s') (h' : Kept s' s'') : Kept s s'' := by
  obtain ⟨code, hout⟩ := h.out
  obtain ⟨more, hout'⟩ := h'.out
  refine ⟨h'.view.trans h.view, h'.file.trans h.file, List.Subset.trans h.loaded h'.loaded, code ++ more, ?_⟩
  rw [hout', hout, CodeBuffer.append_append]

end Locality

theorem CodeBuffer.exists_note_eq (b : CodeBuffer) (text : String) : ∃ code, b.note text = b.append code := by
  unfold note
  split
  · exact ⟨[.note text], rfl⟩
  · exact ⟨[], rfl⟩

/-- Whether a node may leave an operand. -/
def Node.leaves : Node → Bool
  | .block _ => false
  | _ => true

open Locality SymbolTable

namespace Lower

variable {α β : Type}

/-- What a step has done to the operands: those that were there stay. A step that went well has left them as they
are, or it has put one operand on them, if it `leaves` one. -/
structure Leaves (leaves : Bool) (s : Lowering) (r : Except Failure α × Lowering) : Prop where
  stays : s.operands <:+ r.2.operands
  ended : ∀ a, r.1 = .ok a → r.2.operands = s.operands ∨ leaves = true ∧ ∃ o, r.2.operands = o :: s.operands

/-- The step does not touch the operands. -/
theorem Leaves.of_eq {b : Bool} {r : Except Failure α × Lowering} (h : r.2.operands = s.operands) :
    Leaves b s r := ⟨h ▸ List.suffix_rfl, fun _ _ => .inl h⟩

theorem operands_truncate {t : Lowering} (h : s.operands <:+ t.operands) :
    (truncate s.operands.length t).operands = s.operands := (List.suffix_iff_eq_drop.mp h).symm

/-- A step does the same whatever is seen, and it completes functions at most. -/
structure Plain (b : Bool) (p : Lower α) (s : Lowering) : Prop where
  kept : Kept s (p s).2
  leaves : Leaves b s (p s)
  matures : Matures s.table (p s).2.table
  same : ∀ v src, p (s.seeing v src) = ((p s).1, (p s).2.seeing v src)

/-- What is done in front of a step and behind it. -/
structure Frame (α β : Type) where
  enter : Lowering → Lowering
  leave : Lowering → Except Failure α × Lowering → Except Failure β × Lowering

namespace Frame

/-- A step inside of a frame. -/
def run (f : Frame α β) (p : Lower α) : Lower β := fun s => f.leave s (p (f.enter s))

/-- What is done around the step does not depend on what is seen, and it hides no failure. The first flag tells
whether the step leaves an operand, the second one whether it does so within the frame. -/
structure Plain (b b' : Bool) (f : Frame α β) : Prop where
  kept : ∀ s r t, Kept (f.enter s) t → Kept s (f.leave s (r, t)).2
  leaves : ∀ s r, Leaves b (f.enter s) r → Leaves b' s (f.leave s r)
  matures_enter : ∀ s, Matures s.table (f.enter s).table
  matures_leave : ∀ s r, Matures r.2.table (f.leave s r).2.table
  entered : ∀ s, (f.enter s).view = s.view ∧ (f.enter s).file = s.file := by exact fun _ => ⟨rfl, rfl⟩
  left : ∀ s r, (f.leave s r).2.loaded = r.2.loaded := by exact fun _ _ => rfl
  enter_seeing : ∀ s v src, f.enter (Lowering.seeing s v src) = (f.enter s).seeing v src := by exact fun _ _ _ => rfl
  leave_seeing : ∀ s r t v src, f.leave (Lowering.seeing s v src) (r, Lowering.seeing t v src) =
    ((f.leave s (r, t)).1, (f.leave s (r, t)).2.seeing v src) := by exact fun _ _ _ _ _ => rfl
  fails : ∀ s e t b, (f.leave s (.error e, t)).1 ≠ .ok b := by exact fun _ _ _ _ h => nomatch h

end Frame

/-- A judgement about families of steps from given states. In a family every step belongs to a visitor; where
steps follow one another, the state in between is that of the step for the base. The flag tells whether a step may
leave an operand, which only the last one of several steps may do. -/
structure Judgement {I : Type} (base : I) where
  At : Bool → Lowering → {α : Type} → (I → Lower α) → Prop
  plain : ∀ {b : Bool} {s : Lowering} {α : Type} {p : Lower α}, Plain b p s → At b s fun _ => p
  weaken : ∀ {s : Lowering} {α : Type} {p : I → Lower α}, At false s p → At true s p
  bind : ∀ {b : Bool} {s : Lowering} {α β : Type} {p : I → Lower α} {f : I → α → Lower β}, At false s p →
    (∀ a s', p base s = (.ok a, s') → At b s' fun i => f i a) → At b s fun i => p i >>= f i
  within : ∀ {b b' : Bool} {s : Lowering} {α β : Type} {f : Frame α β} {p : I → Lower α}, f.Plain b b' →
    At b (f.enter s) p → At b' s fun i => f.run (p i)

namespace Judgement

variable {I : Type} {base : I} {J : Judgement base} {b : Bool}

def Holds (J : Judgement base) (b : Bool) {α : Type} (p : I → Lower α) : Prop := ∀ s, J.At b s p

/-! ## Steps one after another -/

theorem Holds.weaken {p : I → Lower α} (hp : J.Holds b p) : J.Holds true p := by
  cases b with
  | false => exact fun s => J.weaken (hp s)
  | true => exact hp

variable {f : I → α → Lower β}

theorem Holds.bind {p : I → Lower α} (hp : J.Holds false p) (hf : ∀ a, J.Holds b fun i => f i a) :
    J.Holds b fun i => p i >>= f i := fun s => J.bind (hp s) fun a s' _ => hf a s'

theorem Holds.ite [Decidable c] {p q : I → Lower α} (hp : J.Holds b p) (hq : J.Holds b q) :
    J.Holds b fun i => if c then p i else q i := by
  split
  · exact hp
  · exact hq

/-- A step that leaves the operands and the table alone. -/
theorem quiet {p : Lower α} (kept : ∀ s, Kept s (p s).2)
    (untouched : ∀ s, (p s).2.operands = s.operands ∧ (p s).2.table = s.table)
    (same : ∀ s v src, p (Lowering.seeing s v src) = ((p s).1, (p s).2.seeing v src)) : J.Holds b fun _ => p :=
  fun s => J.plain ⟨kept s, .of_eq (untouched s).1, .of_eq (untouched s).2, same s⟩

theorem pure (a : α) : J.Holds b fun _ => (Pure.pure a : Lower α) := quiet Kept.refl (fun _ => ⟨rfl, rfl⟩) fun _ _ _ => rfl

theorem fail (d : Diagnostic) : J.Holds b fun _ => (Lower.fail d : Lower α) :=
  quiet Kept.refl (fun _ => ⟨rfl, rfl⟩) fun _ _ _ => rfl

/-- Something is refused, and what comes behind does not matter. -/
theorem failBind : J.Holds b fun i => (Lower.fail d : Lower α) >>= f i :=
  fun s => J.bind (fail d s) fun _ _ h => nomatch h

/-- Something is refused, and otherwise lowering goes on. -/
theorem Holds.guarded [Decidable c] {q : I → Lower β} (hq : J.Holds b q) :
    J.Holds b fun i => if c then (Lower.fail d : Lower α) >>= f i else q i := failBind.ite hq

/-- A question that is not about files. -/
theorem ask (g : Lowering → α) (same : ∀ s v src, g (Lowering.seeing s v src) = g s) : J.Holds b fun _ => Lower.ask g :=
  quiet Kept.refl (fun _ => ⟨rfl, rfl⟩) fun s v src => by rw [Lower.ask, same]; rfl

theorem ofExcept (e : Except Diagnostic α) : J.Holds b fun _ => Lower.ofExcept e := by
  cases e with
  | error d => exact fail d
  | ok a => exact pure a

theorem refuse (o : Option Diagnostic) : J.Holds b fun _ => Lower.refuse o := by
  cases o with
  | some d => exact fail d
  | none => exact pure ()

theorem forAll {f : I → α → Lower Unit} {xs : List α} (h : ∀ x, J.Holds false fun i => f i x) :
    J.Holds b fun i => Lower.forAll (f i) xs := by
  induction xs with
  | nil => exact pure ()
  | cons x xs ih => exact (h x).bind fun _ => ih

theorem collect {xs : List α} (h : ∀ x, J.Holds false fun i => f i x) : J.Holds b fun i => Lower.collect (f i) xs := by
  induction xs generalizing b with
  | nil => exact pure []
  | cons x xs ih => exact (h x).bind fun _ => ih.bind fun _ => pure _

/-! ## Single steps -/

theorem table : J.Holds b fun _ => Lower.table := ask _ fun _ _ _ => rfl

/-- The table is asked for, and what comes behind goes on from there. -/
theorem withTable {f : I → SymbolTable → Lower β} (h : ∀ s, J.At b s fun i => f i s.table) :
    J.Holds b fun i => Lower.table >>= f i := fun s => J.bind (table s) fun _ _ hs => by cases hs; exact h s

theorem symbol (id : SymbolId) : J.Holds b fun _ => Lower.symbol id := ask _ fun _ _ _ => rfl

theorem currentFunction : J.Holds b fun _ => Lower.currentFunction := ask _ fun _ _ _ => rfl

theorem currentClass : J.Holds b fun _ => Lower.currentClass := ask _ fun _ _ _ => rfl

theorem take (f : Supply → String × Supply) : J.Holds b fun _ => Lower.take f :=
  quiet (fun _ => ⟨rfl, rfl, List.Subset.refl _, [], rfl⟩) (fun _ => ⟨rfl, rfl⟩) fun _ _ _ => rfl

theorem freshTemp : J.Holds b fun _ => Lower.freshTemp := take _

theorem freshLabel : J.Holds b fun _ => Lower.freshLabel := take _

theorem freshRid (name : String) : J.Holds b fun _ => Lower.freshRid name := take _

/-- Code is written. -/
theorem append (code : Code) : J.Holds b fun _ => Lower.change fun s => { s with out := s.out.append code } :=
  quiet (fun _ => ⟨rfl, rfl, List.Subset.refl _, code, rfl⟩) (fun _ => ⟨rfl, rfl⟩) fun _ _ _ => rfl

theorem emit (op : Opcode) (args : List String) : J.Holds b fun _ => Lower.emit op args := append [.instr ⟨op, args⟩]

/-- Something is computed into a new temporary. -/
theorem compute {op : Opcode} {args : String → List String} {f : I → String → Lower α}
    (hf : ∀ w, J.Holds b fun i => f i w) :
    J.Holds b fun i => Lower.freshTemp >>= fun w => Lower.emit op (args w) >>= fun _ => f i w :=
  freshTemp.bind fun w => (emit op (args w)).bind fun _ => hf w

theorem push (o : Operand) : J.Holds true fun _ => Lower.push o := fun _ =>
  J.plain ⟨⟨rfl, rfl, List.Subset.refl _, [], rfl⟩, ⟨List.suffix_cons o _, fun _ _ => .inr ⟨rfl, o, rfl⟩⟩, .refl _,
    fun _ _ => rfl⟩

theorem changeTableAt {f : SymbolTable → SymbolTable} (h : Matures s.table (f s.table)) :
    J.At b s fun _ => Lower.changeTable f := J.plain ⟨⟨rfl, rfl, List.Subset.refl _, [], rfl⟩, .of_eq rfl, h, fun _ _ => rfl⟩

theorem changeTable {f : SymbolTable → SymbolTable} (h : ∀ t, Matures t (f t)) : J.Holds b fun _ => Lower.changeTable f :=
  fun s => changeTableAt (h s.table)

theorem tryTable {f : SymbolTable → Except Diagnostic SymbolTable} (h : ∀ t t', f t = .ok t' → Matures t t') :
    J.Holds b fun _ => Lower.tryTable f := by
  refine withTable fun s => ?_
  cases ht : f s.table with
  | error d => exact failBind s
  | ok t => exact J.bind (pure t s) fun _ _ hs => by cases hs; exact changeTableAt (h _ _ ht)

theorem newSymbol (sym : Symbol) : J.Holds b fun _ => Lower.newSymbol sym := fun s =>
  J.plain ⟨⟨rfl, rfl, List.Subset.refl _, [], rfl⟩, .of_eq rfl, matures_add s.table sym, fun _ _ => rfl⟩

theorem insert (id : SymbolId) : J.Holds b fun _ => Lower.insert id := tryTable fun _ _ => matures_insertAt

theorem move (o : Operand) (target : String) : J.Holds b fun _ => Lower.move o target :=
  (pure ()).ite ((emit _ _).ite (emit _ _))

theorem materialize (o : Operand) : J.Holds b fun _ => Lower.materialize o :=
  Holds.ite (compute fun _ => pure _) (pure _)

theorem marksOf (labels : List Label) (what : String) (admitted : List String) :
    J.Holds b fun _ => Lower.marksOf labels what admitted :=
  table.bind fun _ => (ofExcept _).bind fun _ => (refuse _).bind fun _ => pure _

theorem annotate (n : Node) : J.Holds b fun _ => Lower.annotate n := by
  refine quiet (fun s => ?_) (fun s => ?_) fun s v src => ?_
  all_goals unfold Lower.annotate Lower.change; dsimp only
  · split
    · exact ⟨rfl, rfl, List.Subset.refl _, CodeBuffer.exists_note_eq _ _⟩
    · exact Kept.refl s
  · split <;> exact ⟨rfl, rfl⟩
  · change (_, if s.out.annotate then _ else _) = _
    split <;> rfl

/-! ## Steps inside of something -/

theorem inScope {kind : ScopeKind} {p : I → Lower α} (hp : J.Holds b p) : J.Holds b fun i => Lower.inScope kind (p i) :=
  fun s => J.within (f := ⟨fun s => s.opened kind, fun s r => (r.1, s.closed r.2)⟩)
    { kept := fun _ _ _ h => ⟨h.view, h.file, h.loaded, h.out⟩
      leaves := fun _ _ h => ⟨h.stays, h.ended⟩
      matures_enter := fun _ => .of_symbols rfl
      matures_leave := fun _ _ => matures_leaveTo .. } (hp _)

theorem inside {id : SymbolId} {p : I → Lower α} (hp : J.Holds b p) : J.Holds b fun i => Lower.inside id (p i) :=
  fun s => J.within (f := ⟨fun s => s.entered id, fun s r => (r.1, s.left r.2)⟩)
    { kept := fun _ _ _ h => ⟨h.view, h.file, h.loaded, h.out⟩
      leaves := fun _ _ h => ⟨h.stays, h.ended⟩
      matures_enter := fun _ => .refl _
      matures_leave := fun _ _ => .refl _ } (hp _)

/-- Operands are put on the others, and in the end everything on these is taken away. -/
theorem plain_truncated (b b' : Bool) (front : List Operand) : Frame.Plain (α := Unit) b b'
    ⟨fun s => { s with operands := front ++ s.operands }, fun s r => (r.1, truncate s.operands.length r.2)⟩ where
  kept _ _ _ h := ⟨h.view, h.file, h.loaded, h.out⟩
  leaves _ _ h := .of_eq (operands_truncate ((List.suffix_append front _).trans h.stays))
  matures_enter _ := .refl _
  matures_leave _ _ := .refl _

variable {p : I → Lower Unit}

theorem forEffect (hp : J.Holds k p) : J.Holds b fun i => Lower.forEffect (p i) :=
  fun s => J.within (plain_truncated k b []) (hp s)

/-- For its effect, a step may be done on top of another operand. -/
theorem forEffectOn {o : Operand} (hp : J.Holds k p) :
    J.Holds b fun i => Lower.forEffect (Lower.push o >>= fun _ => p i) :=
  fun _ => J.within (plain_truncated k b [o]) (hp _)

/-- What is left of a step whose code is kept apart. -/
def cutOff (s : Lowering) (r : Except Failure Unit × Lowering) : Except Failure Code × Lowering :=
  (r.1.map fun _ => ((r.2.out.leave? s.out.depth).getD ([], r.2.out)).1,
    { r.2 with out := ((r.2.out.leave? s.out.depth).getD ([], r.2.out)).2 })

theorem apart (hp : J.Holds b p) : J.Holds b fun i => Lower.apart (p i) := by
  have kept : ∀ s r t, Kept { s with out := s.out.enter } t → Kept s (cutOff s (r, t)).2 := by
    intro s r t h
    obtain ⟨code, hout⟩ := h.out
    have hleave : t.out.leave? s.out.depth = some (code, s.out) := by rw [hout, CodeBuffer.leave?_enter_append]
    exact ⟨h.view, h.file, h.loaded, [], by rw [cutOff, hleave]; rfl⟩
  have leaves : ∀ s r, Leaves b { s with out := s.out.enter } r → Leaves b s (cutOff s r) := by
    intro s r h
    refine ⟨h.stays, fun code hcode => ?_⟩
    obtain ⟨_ | u, t⟩ := r
    · cases hcode
    · exact h.ended u rfl
  exact fun s => J.within (f := ⟨fun s => { s with out := s.out.enter }, cutOff⟩)
    { kept, leaves, matures_enter := fun _ => .refl _, matures_leave := fun _ _ => .refl _ } (hp _)

/-- What is left of a step for its value. -/
def valueOf (d : Diagnostic) (s : Lowering) : Except Failure Unit × Lowering → Except Failure Operand × Lowering
  | (.error e, t) => (.error e, truncate s.operands.length t)
  | (.ok _, t) =>
    match t.operands with
    | o :: _ => if t.operands.length ≤ s.operands.length then Lower.fail d t else (.ok o, truncate s.operands.length t)
    | [] => Lower.fail d t

theorem exists_valueOf (d : Diagnostic) (s : Lowering) (r : Except Failure Unit × Lowering) :
    ∃ operands, (valueOf d s r).2 = { r.2 with operands } := by
  obtain ⟨_ | _, t⟩ := r
  · exact ⟨_, rfl⟩
  · unfold valueOf
    dsimp only
    split
    · split
      · exact ⟨_, rfl⟩
      · exact ⟨_, rfl⟩
    · exact ⟨_, rfl⟩

theorem operands_valueOf {r : Except Failure Unit × Lowering} (d : Diagnostic) (h : s.operands <:+ r.2.operands) :
    (valueOf d s r).2.operands = s.operands := by
  obtain ⟨_ | _, t⟩ := r
  · exact operands_truncate h
  · unfold valueOf
    dsimp only
    split
    · next o rest heq =>
      split
      next hle => exact (h.eq_of_length_le hle).symm
      · exact operands_truncate h
    · next heq => exact heq.trans (List.suffix_nil.mp (heq ▸ h)).symm

theorem forValue {b' : Bool} (hp : J.Holds b' p) : J.Holds b fun i => Lower.forValue (p i) (Lower.fail d) := by
  have kept : ∀ s r t, Kept s t → Kept s (valueOf d s (r, t)).2 := by
    intro s r t h
    obtain ⟨operands, he⟩ := exists_valueOf d s (r, t)
    rw [he]
    exact ⟨h.view, h.file, h.loaded, h.out⟩
  have same : ∀ s r t v src, valueOf d (Lowering.seeing s v src) (r, Lowering.seeing t v src) =
      ((valueOf d s (r, t)).1, (valueOf d s (r, t)).2.seeing v src) := by
    intro s r t v src
    cases r with
    | error e => rfl
    | ok u =>
      change (match t.operands with
        | o :: _ => if t.operands.length ≤ s.operands.length then Lower.fail d (t.seeing v src)
          else (.ok o, truncate s.operands.length (t.seeing v src))
        | [] => Lower.fail d (t.seeing v src)) = _
      unfold valueOf
      dsimp only
      split
      · split <;> rfl
      · rfl
  refine fun s => J.within (f := ⟨id, valueOf d⟩) ?_ (hp s)
  exact {
    kept
    leaves := fun s r h => .of_eq (operands_valueOf d h.stays)
    matures_enter := fun _ => .refl _
    matures_leave := fun s r => by
      obtain ⟨operands, he⟩ := exists_valueOf d s r
      exact .of_eq (by rw [he])
    left := fun s r => by
      obtain ⟨operands, he⟩ := exists_valueOf d s r
      rw [he]
      rfl
    leave_seeing := same }

/-! ## Nodes -/

section Nodes

variable {v : I → Visit} (hv : ∀ n : Node, J.Holds n.leaves fun i => v i n)

include hv

theorem eval (n : Node) : J.Holds b fun i => Lower.eval (v i) n := forValue (hv n)

theorem exec (n : Node) : J.Holds b fun i => Lower.exec (v i) n := forEffect (hv n)

theorem items (nodes : List Node) : J.Holds b fun i => Lower.items (v i) nodes :=
  forAll fun n => (annotate n).bind fun _ => exec hv n

end Nodes

end Judgement

end Lower

end Frontend
