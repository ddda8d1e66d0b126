import Frontend.Proofs.Binding.Exact
import Frontend.Proofs.Blur.Layout

/-!
# How operands look does not matter

An operand knows how it looks in the source text, for messages only. Two steps that are given operands which
differ in their looks, or which stand at different nodes, both fail or leave states that differ in looks.
-/

namespace Frontend

/-- An operand without its looks. -/
def Operand.bare (o : Operand) : Operand := { o with surface := .word "" }

/-- A state without the looks of its operands. -/
def Lowering.bare (s : Lowering) : Lowering := { s with operands := s.operands.map Operand.bare }

variable {α β γ δ : Type}
variable {k : α → Lower γ} {k' : β → Lower δ} {d d' : Diagnostic}
variable {p : Lower α} {q : Lower β} {c c' : Prop}

/-- From one state two steps both fail, or they both succeed with results and states in a relation. -/
def Abreast (R : α → Lowering → β → Lowering → Prop) (p : Lower α) (q : Lower β) (s : Lowering) : Prop :=
  (∃ a t b t', p s = (.ok a, t) ∧ q s = (.ok b, t') ∧ R a t b t') ∨
    ∃ e t e' t', p s = (.error e, t) ∧ q s = (.error e', t')

namespace Abreast

/-- Related results in one state. -/
def Results (r : α → β → Prop) : α → Lowering → β → Lowering → Prop := fun a t b t' => r a b ∧ t' = t

/-- States that differ in how operands look. -/
def Looks : Unit → Lowering → Unit → Lowering → Prop := fun _ t _ t' => t'.bare = t.bare

/-- Operands that differ in how they look. -/
def Bare (o o' : Operand) : Prop := o'.bare = o.bare

theorem Bare.exists_surface {o o' : Operand} (h : Bare o o') : ∃ x, o' = { o with surface := x } := by
  obtain ⟨kind, surface, raw, type, value, meaning, receiver⟩ := o
  obtain ⟨kind', surface', raw', type', value', meaning', receiver'⟩ := o'
  cases h
  exact ⟨surface', rfl⟩

variable {R : γ → Lowering → δ → Lowering → Prop} {r : α → β → Prop} {s : Lowering}

/-! ## Steps one after another -/

theorem bind_run (h : Abreast (Results r) p q s) (hk : ∀ a b t, p s = (.ok a, t) → r a b → Abreast R (k a) (k' b) t) :
    Abreast R (p >>= k) (q >>= k') s := by
  obtain ⟨a, t, b, t', hp, hq, hab, rfl⟩ | ⟨e, t, e', t', hp, hq⟩ := h
  · unfold Abreast
    rw [Lower.bind_of_ok hp, Lower.bind_of_ok hq]
    exact hk a b t' hp hab
  · exact .inr ⟨e, t, e', t', Lower.bind_of_error hp k, Lower.bind_of_error hq k'⟩

protected theorem bind (h : Abreast (Results r) p q s) (hk : ∀ a b t, r a b → Abreast R (k a) (k' b) t) :
    Abreast R (p >>= k) (q >>= k') s :=
  h.bind_run fun a b t _ hab => hk a b t hab

/-- One and the same step. -/
theorem same (p : Lower α) : Abreast (Results Eq) p p s := by
  cases hp : p s with
  | mk result t =>
    cases result with
    | ok a => exact .inl ⟨a, t, a, t, hp, hp, rfl, rfl⟩
    | error e => exact .inr ⟨e, t, e, t, hp, hp⟩

/-- One and the same step, and then others. -/
theorem after (p : Lower α) {k' : α → Lower δ} (hk : ∀ a t, Abreast R (k a) (k' a) t) :
    Abreast R (p >>= k) (p >>= k') s :=
  (same p).bind fun a _ t h => h ▸ hk a t

/-- A question. -/
theorem asked {f : Lowering → α} {k' : α → Lower δ} (h : Abreast R (k (f s)) (k' (f s)) s) :
    Abreast R (Lower.ask f >>= k) (Lower.ask f >>= k') s := h

protected theorem pure {a : α} {b : β} (h : r a b) : Abreast (Results r) (pure a) (pure b) s :=
  .inl ⟨a, s, b, s, rfl, rfl, h, rfl⟩

protected theorem fail {S : α → Lowering → β → Lowering → Prop} :
    Abreast S (Lower.fail d) (Lower.fail d') s := .inr ⟨_, s, _, s, rfl, rfl⟩

theorem failBind : Abreast R (Lower.fail d >>= k) (Lower.fail d' >>= k') s := .inr ⟨_, s, _, s, rfl, rfl⟩

/-- Something is refused for one reason. -/
theorem guarded [Decidable c] [Decidable c'] {p : Lower γ} {q : Lower δ} (hc : c' ↔ c) (h : Abreast R p q s) :
    Abreast R (if c then Lower.fail d >>= k else p) (if c' then Lower.fail d' >>= k' else q) s := by
  by_cases hyes : c
  · rw [if_pos hyes, if_pos (hc.mpr hyes)]
    exact failBind
  · rw [if_neg hyes, if_neg (mt hc.mp hyes)]
    exact h

protected theorem ite [Decidable c] [Decidable c'] {p p' : Lower γ} {q q' : Lower δ} (hc : c' ↔ c)
    (hp : Abreast R p q s) (hq : Abreast R p' q' s) : Abreast R (if c then p else p') (if c' then q else q') s := by
  by_cases hyes : c
  · rw [if_pos hyes, if_pos (hc.mpr hyes)]
    exact hp
  · rw [if_neg hyes, if_neg (mt hc.mp hyes)]
    exact hq

protected theorem push {o o' : Operand} (h : o'.bare = o.bare) : Abreast Looks (Lower.push o) (Lower.push o') s :=
  .inl ⟨(), _, (), _, rfl, rfl, by simp [Looks, Lowering.bare, h]⟩

/-- A result that may be a diagnostic. -/
protected theorem ofExcept {x y : Except Diagnostic α} (h : y.toOption = x.toOption) :
    Abreast (Results Eq) (Lower.ofExcept x) (Lower.ofExcept y) s := by
  obtain ⟨a, rfl, rfl⟩ | ⟨d, d', rfl, rfl⟩ := cases_of_toOption_eq h
  · exact .pure rfl
  · exact .fail

protected theorem refuse {o o' : Option Diagnostic} (h : o'.isSome = o.isSome) :
    Abreast (Results Eq) (Lower.refuse o) (Lower.refuse o') s := by
  cases o with
  | none =>
    cases o' with
    | none => exact .pure rfl
    | some d => cases h
  | some d =>
    cases o' with
    | none => cases h
    | some d' => exact .fail

end Abreast

/-! ## Calls -/

theorem Binding.plan_congr (t : SymbolTable) (callee : String) (params : List Parameter) (args : List Argument)
    (pos pos' : Position) : (plan t callee params args pos').toOption = (plan t callee params args pos).toOption := by
  have fault : ∀ b : Binding, (fault? t callee pos b).isSome = (fault? t callee pos' b).isSome := by
    intro b
    unfold fault?
    cases b.value with
    | none => dsimp only; split <;> rfl
    | some a => rfl
  have ok : ∀ (x y : Position) bs, (∀ b : Binding, (fault? t callee x b).isSome = (fault? t callee y b).isSome) →
      plan t callee params args x = .ok bs → plan t callee params args y = .ok bs := by
    intro x y bs hfault h
    obtain ⟨hleft, hnamed, hnone⟩ := plan_eq_ok.mp h
    refine plan_eq_ok.mpr ⟨hleft, hnamed, ?_⟩
    rw [List.findSome?_eq_none_iff] at hnone ⊢
    intro b hb
    have hsome := hfault b
    rw [hnone b hb] at hsome
    exact Option.isNone_iff_eq_none.mp (by simpa using hsome.symm)
  cases h : plan t callee params args pos with
  | ok bs => rw [ok pos pos' bs fault h]
  | error d =>
    cases h' : plan t callee params args pos' with
    | error d' => rfl
    | ok bs =>
      rw [ok pos' pos bs (fun b => (fault b).symm) h'] at h
      cases h

/-- The built-in functions make the same of a call wherever it stands. -/
def Registry.Placeless (r : Registry) : Prop :=
  ∀ name e, r.find? name = some e → ∀ (call : BuiltinCall) supply pos,
    e.gives? { call with pos } supply = e.gives? call supply

theorem Registry.placeless_standard : Registry.standard.Placeless := by
  intro name e hfind call supply pos
  have hmem : e ∈ Builtin.standard := List.mem_of_find?_eq_some hfind
  unfold Builtin.standard at hmem
  simp only [List.mem_cons, List.not_mem_nil, or_false] at hmem
  rcases hmem with rfl | rfl | rfl | rfl | rfl | rfl | rfl | rfl | rfl | rfl | rfl | rfl <;> rfl

namespace Lower

theorem chooseConstructor_congr (t : SymbolTable) (args : List Argument) (pos pos' : Position) (ids : List SymbolId) :
    (chooseConstructor t args pos' ids).toOption = (chooseConstructor t args pos ids).toOption := by
  induction ids with
  | nil => rfl
  | cons id rest ih =>
    rw [chooseConstructor, chooseConstructor]
    obtain ⟨bs, h, h'⟩ | ⟨d, d', h, h'⟩ := cases_of_toOption_eq (Binding.plan_congr t (t.get id).name
      ((t.get id).function?.getD {}).params args pos pos')
    · rw [h, h']
    · rw [h, h']
      dsimp only
      obtain ⟨found, h, h'⟩ | ⟨l, l', h, h'⟩ := cases_of_toOption_eq ih
      · rw [h, h']
      · rw [h, h']
        rfl

def callValue (o : Operand) (given : List Argument) (site : CallSite) : Lower Unit := do
  let t ← table
  let type := o.effective
  match if type.isClass then none else o.class? t with
  | some cls => construct cls given site
  | none =>
    match o.function? t with
    | some id =>
      if (((t.get id).function?).getD {}).isBuiltin then callBuiltin id given site
      else callFunction id o given site
    | none =>
      if type.isFunction || type.isAny then callIndirect o type given site
      else fail ((Diagnostic.mkAt .typeMismatch Code.notCallable site.pos
        (.entry .notCallable [.text o.surface.text, .text type.text])).withSpan site.calleeWidth)

theorem call_eq (visit : Visit) (callee : Node) (args : List Node) (n : Node) :
    call visit callee args n = eval visit callee >>= fun o =>
      collect (argument visit) args >>= fun given => callValue o given ⟨callee, n⟩ := by
  rfl

variable {s : Lowering} {site site' : CallSite} {args : List Argument} {o o' : Operand}

theorem construct_abreast (cls : SymbolId) :
    Abreast Abreast.Looks (construct cls args site) (construct cls args site') s := by
  unfold construct
  refine .after _ fun t s => ?_
  refine .guarded Iff.rfl ?_
  obtain ⟨⟨id, bindings⟩, h, h'⟩ | ⟨l, l', h, h'⟩ := cases_of_toOption_eq
    (chooseConstructor_congr t args site.pos site'.pos (t.classInfo cls).constructors)
  · rw [h, h']
    refine .after _ fun inside s => .guarded Iff.rfl (.after _ fun object s => ?_)
    exact .after _ fun _ s => .after _ fun raws s => .after _ fun _ s => .push rfl
  · rw [h, h']
    exact .fail

/-- The receiver of a method, and the call. -/
theorem callFunction_abreast (id : SymbolId) (ho : o'.bare = o.bare) :
    Abreast Abreast.Looks (callFunction id o args site) (callFunction id o' args site') s := by
  have hreceiver : o'.receiver = o.receiver := (congrArg Operand.receiver ho :)
  have hraw : o'.raw = o.raw := (congrArg Operand.raw ho :)
  unfold callFunction
  rw [hreceiver, hraw]
  refine Abreast.after _ fun t s => (Abreast.ofExcept (Binding.plan_congr ..)).bind ?_
  rintro bindings _ s rfl
  have passed : ∀ (receiver : List String) (s : Lowering), Abreast Abreast.Looks
      (callBound o (((t.get id).function?).getD {}) bindings site.node receiver)
      (callBound o (((t.get id).function?).getD {}) bindings site'.node receiver) s := by
    intro receiver s
    refine .after _ fun bound s => .ite Iff.rfl ?_ ?_
    · exact .after _ fun result s => .after _ fun _ s => .push rfl
    · exact .after _ fun _ s => .push rfl
  refine .ite Iff.rfl ?_ (passed _ _)
  cases o.receiver.filter (!·.static) with
  | some r => exact .after _ fun _ s => passed _ s
  | none => exact .failBind

theorem describedFault?_congr (t : SymbolTable) (params : List Tag) :
    (describedFault? t o' params args site').isSome = (describedFault? t o params args site).isSome := by
  unfold describedFault?
  dsimp only
  split
  · rfl
  · split <;> rfl

theorem callIndirect_abreast (type : Tag) (ho : o'.bare = o.bare) :
    Abreast Abreast.Looks (callIndirect o type args site) (callIndirect o' type args site') s := by
  have hraw : o'.raw = o.raw := (congrArg Operand.raw ho :)
  have passed : ∀ s : Lowering, Abreast Abreast.Looks (callValueWith o type (args.map (·.value.raw)) site.node)
      (callValueWith o type (args.map (·.value.raw)) site'.node) s := by
    intro s
    refine .ite Iff.rfl ?_ ?_
    · exact .after _ fun _ s => .push rfl
    · exact .after _ fun result s => .after _ fun _ s => .push rfl
  unfold callIndirect
  rw [hraw]
  cases args.find? (!·.name.isEmpty) with
  | some a => exact .failBind
  | none =>
    refine .ite Iff.rfl ?_ (passed s)
    refine Abreast.after _ fun t s => (Abreast.refuse (describedFault?_congr ..)).bind ?_
    rintro _ _ s rfl
    exact passed s

/-! ## Built-in functions -/

/-- A generator is asked; what it refuses is refused, and what it gives is used. -/
theorem generate_abreast {entry : Builtin} {c c' : BuiltinCall} {k k' : Except Refusal Emission → Lower Unit}
    (hgives : ∀ supply, entry.gives? c' supply = entry.gives? c supply)
    (hok : ∀ emission t, Abreast Abreast.Looks (k (.ok emission)) (k' (.ok emission)) t)
    (herror : ∀ r, ∃ d, k (.error r) = fail d) (herror' : ∀ r, ∃ d, k' (.error r) = fail d) :
    Abreast Abreast.Looks (generate entry c >>= k) (generate entry c' >>= k') s := by
  have hsupply := hgives s.session.supply
  unfold Builtin.gives? at hsupply
  change Abreast Abreast.Looks (fun s => andThen (generate entry c) k s) (fun s => andThen (generate entry c') k' s) s
  unfold Abreast andThen generate
  dsimp only
  revert hsupply
  rcases entry.generate c s.session.supply with ⟨r | emission, supply⟩ <;>
    rcases entry.generate c' s.session.supply with ⟨r' | emission', supply'⟩ <;> intro hsupply
  · obtain ⟨d, hd⟩ := herror r
    obtain ⟨d', hd'⟩ := herror' r'
    rw [hd, hd']
    exact .inr ⟨_, _, _, _, rfl, rfl⟩
  · cases hsupply
  · cases hsupply
  · cases hsupply
    exact hok emission _

theorem callBuiltin_abreast (id : SymbolId) (hplaceless : s.session.builtins.Placeless) :
    Abreast Abreast.Looks (callBuiltin id args site) (callBuiltin id args site') s := by
  unfold callBuiltin
  refine .asked (.asked ?_)
  cases hfind : s.session.builtins.find? (s.session.symbols.get id).name with
  | none => exact .fail
  | some entry =>
    have made : ∀ given result t, Abreast Abreast.Looks
        (generated entry (s.session.symbols.get id) given site result)
        (generated entry (s.session.symbols.get id) given site' result) t := by
      intro given result t
      refine generate_abreast (fun supply => ?_) (fun emission t => ?_) (fun r => ?_) (fun r => ?_)
      · exact hplaceless _ _ hfind ⟨(s.session.symbols.get id).name, given, result, site.pos⟩ supply site'.pos
      · refine .guarded Iff.rfl (.after _ fun _ t => .push ?_)
        split <;> rfl
      · cases r with
        | diagnostic d => exact ⟨d, rfl⟩
        | plain message => exact ⟨_, rfl⟩
      · cases r with
        | diagnostic d => exact ⟨d, rfl⟩
        | plain message => exact ⟨_, rfl⟩
    refine .after _ fun given t => .guarded Iff.rfl (.ite Iff.rfl ?_ ?_)
    · exact .after _ fun result t => made given result t
    · exact .after _ fun result t => made given result t

/-- What is called looks different, and so does the place of the call. -/
theorem callValue_abreast (ho : o'.bare = o.bare) (hplaceless : s.session.builtins.Placeless) :
    Abreast Abreast.Looks (callValue o args site) (callValue o' args site') s := by
  have hmeaning : o'.meaning = o.meaning := (congrArg Operand.meaning ho :)
  have heffective : o'.effective = o.effective := (congrArg Operand.effective ho :)
  unfold callValue Operand.class? Operand.function?
  rw [hmeaning, heffective]
  refine .asked ?_
  dsimp only
  split
  · exact construct_abreast _
  · split
    · exact .ite Iff.rfl (callBuiltin_abreast _ hplaceless) (callFunction_abreast _ ho)
    · exact .ite Iff.rfl (callIndirect_abreast _ ho) Abreast.fail

/-! ## Assignments -/

/-- A binary operation whose operands look different. -/
theorem binary_abreast (op : Token) (word : String) {left left' right right' : Operand} (n n' : Node)
    (hleft : Abreast.Bare left left') (hright : Abreast.Bare right right') :
    Abreast (Abreast.Results Abreast.Bare) (binary op word left right n) (binary op word left' right' n') s := by
  obtain ⟨x, rfl⟩ := hleft.exists_surface
  obtain ⟨y, rfl⟩ := hright.exists_surface
  unfold binary
  split
  · exact .after _ fun order t => .after _ fun _ t => .after _ fun result t =>
      .after _ fun _ t => .pure rfl
  · refine .after _ fun type t => ?_
    have computed : ∀ (second : String) (t : Lowering), Abreast (Abreast.Results Abreast.Bare)
        (compute word left.raw second type n) (compute word left.raw second type n') t := by
      intro second t
      refine .after _ fun result t => ?_
      split
      · exact .after _ fun _ t => .pure rfl
      · exact .fail
    refine .ite Iff.rfl ?_ ?_
    · exact .after _ fun second t => computed second t
    · exact .after _ fun second t => computed second t

/-- Two targets that are one and the same field. -/
def SameField (p p' : Target) : Prop := ∃ o o' id, o'.raw = o.raw ∧ p = .field o id ∧ p' = .field o' id

variable {place place' : Target}

theorem checkConst_abreast (h : SameField place place') (n n' : Node) :
    Abreast (Abreast.Results Eq) (checkConst place n) (checkConst place' n') s := by
  obtain ⟨o, o', id, -, rfl, rfl⟩ := h
  unfold checkConst
  refine .after _ fun sym t => .ite Iff.rfl ?_ (.pure rfl)
  exact .after _ fun excused t => .ite Iff.rfl Abreast.fail (.pure rfl)

theorem loadTarget_abreast (h : SameField place place') (n n' : Node) :
    Abreast (Abreast.Results Abreast.Bare) (loadTarget place n) (loadTarget place' n') s := by
  obtain ⟨o, o', id, hraw, rfl, rfl⟩ := h
  unfold loadTarget
  dsimp only
  rw [hraw]
  exact .after _ fun sym t => .after _ fun result t => .after _ fun _ t => .pure rfl

theorem storeTarget_abreast (h : SameField place place') (ho : o'.bare = o.bare) :
    Abreast (Abreast.Results Eq) (storeTarget place o) (storeTarget place' o') s := by
  have hraw : o'.raw = o.raw := (congrArg Operand.raw ho :)
  obtain ⟨f, f', id, hfield, rfl, rfl⟩ := h
  unfold storeTarget
  dsimp only
  rw [hraw, hfield]
  exact .same _

/-- A place is assigned a value that was computed. -/
def assignTo (place : Target) (given : Operand) (target : Node) (op : Token) (value n : Node) : Lower Unit := do
  checkConst place target
  let result ←
    if op.kind == .op .assign then pure given
    else do
      let current ← loadTarget place target
      binary op (compoundWord op) current given n
  if let some id := place.symbol? then
    let t ← table
    let declared := (((t.get id).var?).getD {}).type
    if !t.assignable declared result.effective then
      fail ((Complaint.mismatch value.pos declared result.effective).withSpan (Complaint.width value))
    if declared.isAny then remember id result
  storeTarget place result
  match place with
  | .slot id => push (.ofSymbol (← table) id)
  | _ => push result

theorem assign_eq (visit : Visit) (target : Node) (op : Token) (value n : Node) :
    assign visit target op value n = eval visit value >>= fun given =>
      resolveTarget visit target >>= fun place => assignTo place given target op value n := by
  rfl

def incrementAt (place : Target) (operand : Node) (op : Token) (n : Node) : Lower Unit := do
  checkConst place operand
  let current ← loadTarget place operand
  let type := current.effective
  if !type.isAny && !type.isNumeric then fail (Complaint.invalidOperand op op.literal type)
  let before ← freshTemp
  emit .copy [current.raw, before]
  let step := Spelling.ofInt (if op.kind == .op .decrement then -1 else 1)
  match place with
  | .slot _ => emit .add [current.raw, step, current.raw]
  | _ =>
    let after ← freshTemp
    emit .add [current.raw, step, after]
    storeTarget place (.temp after current.type n)
  push (.temp before type n)

theorem increment_eq (visit : Visit) (operand : Node) (op : Token) (n : Node) :
    increment visit operand op n = resolveTarget visit operand >>= fun place => incrementAt place operand op n := by
  rfl

theorem settle_abreast (h : SameField place place') (ho : o'.bare = o.bare) (value : Node) :
    Abreast Abreast.Looks (settle place value o) (settle place' value o') s := by
  have heffective : o'.effective = o.effective := (congrArg Operand.effective ho :)
  have hmeaning : o'.meaning = o.meaning := (congrArg Operand.meaning ho :)
  have hstore := fun s => storeTarget_abreast (s := s) h ho
  obtain ⟨f, f', id, hraw, rfl, rfl⟩ := h
  unfold settle
  dsimp only [Target.symbol?]
  unfold remember
  rw [heffective, hmeaning]
  have stored : ∀ s, Abreast Abreast.Looks (storeTarget (.field f id) o >>= fun _ => push o)
      (storeTarget (.field f' id) o' >>= fun _ => push o') s :=
    fun s => (hstore s).bind fun _ _ t _ => .push ho
  refine .after _ fun table t => .guarded Iff.rfl (.ite Iff.rfl ?_ (stored t))
  exact .after _ fun _ t => stored t

theorem assignTo_abreast (h : SameField place place') (given : Operand) (op : Token) (value target target' n n' : Node) :
    Abreast Abreast.Looks (assignTo place given target op value n) (assignTo place' given target' op value n') s := by
  unfold assignTo
  refine (checkConst_abreast h _ _).bind fun _ _ t _ => ?_
  have finished : ∀ result result' t, Abreast.Bare result result' →
      Abreast Abreast.Looks (settle place value result) (settle place' value result') t :=
    fun result result' t hbare => settle_abreast h hbare value
  refine .ite Iff.rfl (.after _ fun result t => finished result result t rfl) ?_
  refine (loadTarget_abreast h _ _).bind fun now now' t hbare => ?_
  exact (binary_abreast op _ n n' hbare rfl).bind finished

theorem incrementAt_abreast (h : SameField place place') (op : Token) (target target' n n' : Node) :
    Abreast Abreast.Looks (incrementAt place target op n) (incrementAt place' target' op n') s := by
  unfold incrementAt
  refine (checkConst_abreast h _ _).bind fun _ _ t _ => (loadTarget_abreast h _ _).bind fun now now' t hbare => ?_
  have heffective : now'.effective = now.effective := (congrArg Operand.effective hbare :)
  have hraw : now'.raw = now.raw := (congrArg Operand.raw hbare :)
  have htype : now'.type = now.type := (congrArg Operand.type hbare :)
  have hstore := fun (after : String) s =>
    @storeTarget_abreast s (.temp after now.type n) (.temp after now.type n') _ _ h rfl
  obtain ⟨o, o', id, -, rfl, rfl⟩ := h
  dsimp only
  rw [heffective, hraw, htype]
  refine .guarded Iff.rfl (.after _ fun before t => .after _ fun _ t => ?_)
  refine .after _ fun after t => .after _ fun _ t => (hstore after t).bind fun _ _ t _ => ?_
  exact .push rfl

end Lower

end Frontend
