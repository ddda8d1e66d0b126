import Frontend.Proofs.Calls.Class
import Frontend.Proofs.Lowering.Unit

/-!
# Calls and nodes

Binding gives every parameter its place, so a call passes as many arguments as its function has
parameters, and the object of a method or of a constructor in front of them. With calls, every construct
keeps calls and definitions together, and so does lowering as a whole.
-/

namespace Frontend

variable {args : List Argument} {bs : List Binding} {id : SymbolId} {n : Node} {site : Lower.CallSite}
variable {callee : String} {pos : Position} {entry : Builtin}

/-! ## Binding of arguments -/

namespace Binding

theorem length_positional (params : List Parameter) (args : List Argument) :
    (positional params args).1.length = params.length := by
  induction params generalizing args with
  | nil => rfl
  | cons p params ih =>
    unfold positional
    split
    · exact congrArg Nat.succ (ih [])
    · exact congrArg Nat.succ (ih _)
    · exact congrArg Nat.succ (ih [])
    · exact congrArg Nat.succ (ih _)

theorem length_changeFirst (p : Binding → Bool) (f : Binding → Binding) (bs : List Binding) :
    (changeFirst p f bs).length = bs.length := by
  induction bs with
  | nil => rfl
  | cons b bs ih =>
    unfold changeFirst
    split
    · rfl
    · exact congrArg Nat.succ ih

theorem length_changeLast (p : Binding → Bool) (f : Binding → Binding) (bs : List Binding) :
    (changeLast p f bs).length = bs.length := by
  unfold changeLast
  rw [List.length_reverse, length_changeFirst, List.length_reverse]

theorem length_named {bs' : List Binding} (h : named callee bs args = .ok bs') : bs'.length = bs.length := by
  induction args generalizing bs with
  | nil =>
    cases h
    rfl
  | cons a args ih =>
    unfold named at h
    split at h
    · split at h
      · cases h
      · rw [ih h, length_changeFirst]
    · split at h
      · rw [ih h, length_changeLast]
      · cases h

/-- A plan has a place for every parameter. -/
theorem length_plan {t : SymbolTable} {params : List Parameter} (h : plan t callee params args pos = .ok bs) :
    bs.length = params.length := by
  rw [length_named (named_of_plan h), length_positional]

end Binding

namespace Calls

open SymbolTable

variable {s s' : Lowering} {t : SymbolTable} {visit : Visit} {α β : Type}

/-- The constructor that is chosen belongs to the class, and its plan has a place for every
parameter. -/
theorem length_of_chooseConstructor {ids : List SymbolId}
    (h : Lower.chooseConstructor t args pos ids = .ok (id, bs)) :
    bs.length = (((t.get id).function?).getD {}).params.length := by
  induction ids with
  | nil => exact nomatch h
  | cons first rest ih =>
    unfold Lower.chooseConstructor at h
    simp only at h
    split at h
    · next hplan =>
      cases h
      exact Binding.length_plan hplan
    · split at h
      · next found hrest =>
        cases h
        exact ih hrest
      · cases h

/-! ## Arguments -/

/-- A tame step for each element of a list gives as many results. -/
theorem Keeps.collect {f : α → Lower β} {xs : List α} (hs : Sound s) (h : ∀ x ∈ xs, Tame (f x)) :
    Keeps s (Lower.collect f xs) fun bs _ => bs.length = xs.length := by
  induction xs generalizing s with
  | nil => exact .pure hs rfl
  | cons x xs ih =>
    refine (h x List.mem_cons_self).then hs fun b s₁ h₁ _ => ?_
    refine (ih h₁ fun y hy => h y (List.mem_cons_of_mem _ hy)).bind fun bs s₂ h₂ _ hbs => ?_
    exact .pure h₂ (congrArg Nat.succ hbs)

/-! ## Calls -/

theorem Keeps.construct {cls : SymbolId} (hs : Sound s) :
    Keeps s (Lower.construct cls args site) fun _ _ => True := by
  unfold Lower.construct
  refine .ask (.unless fun _ => ?_)
  split
  · exact .fail
  · next id bindings hchosen =>
    have member := (mem_of_chooseConstructor hchosen).1
    have length := length_of_chooseConstructor hchosen
    refine .ask (.unless fun _ => ?_)
    refine .freshTemp hs fun object s₁ h₁ htable hobject => ?_
    refine Tame.then (Tame.emit rfl) h₁ fun _ s₂ h₂ hg₂ => ?_
    refine (Keeps.collect h₂ fun _ _ => temper.emitBinding).bind fun raws s₃ h₃ hg₃ hraws => ?_
    obtain ⟨head, hhead, hkind, -⟩ := (hs.table.classOk cls).constructors id member
    have hlt := lt_size_of_callHead? hhead
    have hg : Grows s.table s₃.table := by
      rw [← htable]
      exact hg₂.trans hg₃
    have called : InstructionOk s₃.table ⟨.call, (s.table.get id).rid :: object :: raws⟩ := by
      intro _
      refine ⟨id, Nat.lt_of_lt_of_le hlt hg.size, hg.rid id hlt, fun h hh => ?_⟩
      rw [hg.head id hlt, hhead] at hh
      cases hh
      obtain ⟨f, hf, rfl⟩ := Symbol.exists_function_of_callHead? hhead
      rw [show s.session.symbols.get id = s.table.get id from rfl, hf, Option.getD_some] at length
      have construct : f.kind = .construct := hkind
      refine ⟨?_, Or.inr hkind⟩
      simp [FunctionInfo.callHead, construct, hraws, length, Nat.add_comm]
    refine (Keeps.emit h₃ called).bind fun _ s₄ h₄ _ _ => ?_
    exact Tame.push hobject s₄ h₄

/-- A call of a known function by an operand that knows it. -/
theorem Keeps.callFunction {callee : Operand} (hs : Sound s) (hcallee : OperandOk s.table callee)
    (hid : callee.function? s.table = some id) :
    Keeps s (Lower.callFunction id callee args site) fun _ _ => True := by
  obtain ⟨f, hf⟩ := Option.isSome_iff_exists.mp (function?_of_operand hid)
  have meaning : callee.meaning = some id := (Option.filter_eq_some_iff.mp hid).1
  unfold Lower.callFunction
  refine .ask ?_
  dsimp only
  rw [show s.session.symbols.get id = s.table.get id from rfl, hf, Option.getD_some]
  refine .ofExcept fun bindings hplan => ?_
  have length := Binding.length_plan hplan
  -- a method has its object in front of the arguments
  have passed : ∀ receiver : List String, receiver.length = (if f.isMethod then 1 else 0) →
      Keeps s (Lower.callBound callee f bindings site.node receiver) fun _ _ => True := by
    intro receiver hreceiver
    refine (Keeps.collect hs fun _ _ => temper.emitBinding).bind fun bound s₁ h₁ hg₁ hbound => ?_
    have answers : Leads s₁.table callee.raw fun _ h =>
        (receiver ++ bound).length = h.arity ∧ h.returnsValue = f.returnsValue := by
      refine (hcallee.grows hg₁).imp fun j h hj hP => ?_
      obtain ⟨he, hkind⟩ := hP
      rw [meaning] at he
      cases he
      have head := Symbol.callHead?_of_function hf
      rw [hg₁.head id (lt_size_of_callHead? head), head] at hj
      cases hj
      have other : (f.kind == FunctionKind.construct) = false := by
        rw [beq_eq_false_iff_ne]
        exact hkind
      simp [FunctionInfo.callHead, other, hreceiver, hbound, length]
    refine .ite (fun hvalue => ?_) fun hvalue => ?_
    · refine .freshTemp h₁ fun result s₂ h₂ htable hresult => ?_
      have invoked : InstructionOk s₂.table
          ⟨.invoke, callee.raw :: (receiver ++ bound) ++ [result]⟩ := by
        rw [htable]
        refine answers.imp fun j h _ hP => ⟨?_, hP.2.trans hvalue⟩
        change ((receiver ++ bound) ++ [result]).length = h.arity + 1
        rw [List.length_append, hP.1]
        rfl
      exact (Keeps.emit h₂ invoked).bind fun _ s₃ h₃ _ _ => Tame.push hresult s₃ h₃
    · have called : InstructionOk s₁.table ⟨.call, callee.raw :: (receiver ++ bound)⟩ :=
        answers.imp fun j h _ hP => ⟨hP.1, Or.inl (hP.2.trans (Bool.not_eq_true _ ▸ hvalue))⟩
      exact (Keeps.emit h₁ called).bind fun _ s₂ h₂ _ _ => Tame.push not_hasNumber_null s₂ h₂
  refine .ite (fun hmethod => ?_) fun hmethod => ?_
  · split
    · next r _ => exact passed [r.object] (by rw [if_pos hmethod]; rfl)
    · exact .failBind
  · exact passed [] (by rw [if_neg hmethod]; rfl)

/-- A value that is not the raw id of a function may be called with any arguments. -/
theorem Keeps.callIndirect {callee : Operand} {type : Tag} (hs : Sound s) (hcallee : OperandOk s.table callee)
    (hid : callee.function? s.table = none) :
    Keeps s (Lower.callIndirect callee type args site) fun _ _ => True := by
  have nowhere : ∀ P, Leads s.table callee.raw P := by
    refine fun P => .imp hcallee fun j h hj hP => absurd hid ?_
    obtain ⟨f, hf, -⟩ := Symbol.exists_function_of_callHead? hj
    rw [Operand.function?, hP.1, Option.filter_some, hf]
    exact fun e => nomatch e
  have called : Keeps s (Lower.callValueWith callee type (args.map (·.value.raw)) site.node) fun _ _ => True := by
    refine .ite (fun _ => ?_) fun _ => ?_
    · have plain : InstructionOk s.table ⟨.call, callee.raw :: args.map (·.value.raw)⟩ := nowhere _
      exact (Keeps.emit hs plain).bind fun _ s₁ h₁ _ _ => Tame.push not_hasNumber_null s₁ h₁
    · refine .freshTemp hs fun result s₁ h₁ htable hresult => ?_
      have plain : InstructionOk s₁.table
          ⟨.invoke, callee.raw :: args.map (·.value.raw) ++ [result]⟩ := by
        rw [htable]
        exact nowhere _
      exact (Keeps.emit h₁ plain).bind fun _ s₂ h₂ _ _ => Tame.push hresult s₂ h₂
  unfold Lower.callIndirect
  dsimp only
  split
  · exact .failBind
  · exact .ite (fun _ => .ask (.refuse called)) fun _ => called

/-- A standard built-in function becomes one instruction, which is neither a call nor a head. -/
theorem isPlain_of_standard (h : entry ∈ Builtin.standard) (call : BuiltinCall) (supply : Supply) :
    ∃ i, entry.generate call supply = (.ok (.instructions [i]), supply) ∧
      isPlain i.op = true := by
  simp only [Builtin.standard, List.mem_cons, List.not_mem_nil, or_false] at h
  rcases h with rfl | rfl | rfl | rfl | rfl | rfl | rfl | rfl | rfl | rfl | rfl | rfl <;>
    exact ⟨_, rfl, rfl⟩

theorem Keeps.generated {sym : Symbol} {given : List BuiltinArg} {result : String} (hs : Sound s)
    (hentry : entry ∈ Builtin.standard) (hresult : entry.pure = true → ¬ Word.HasNumber result) :
    Keeps s (Lower.generated entry sym given site result) fun _ _ => True := by
  obtain ⟨i, hi, hplain⟩ := isPlain_of_standard hentry ⟨sym.name, given, result, site.pos⟩ s.supply
  have hgen : Lower.generate entry ⟨sym.name, given, result, site.pos⟩ s = (.ok (.ok (.instructions [i])), s) := by
    unfold Lower.generate
    rw [hi]
  refine .step hgen (.refl _) (.unless fun _ => ?_)
  refine (Keeps.append hs fun j hj => ?_).bind fun _ s₁ h₁ _ _ => ?_
  · obtain rfl : j = i := by simpa [Emission.items] using hj
    exact instructionOk_of_isPlain hplain
  · split
    · next hpure => exact Tame.push (hresult hpure) s₁ h₁
    · exact Tame.push not_hasNumber_null s₁ h₁

theorem Keeps.callBuiltin (hs : Sound s) : Keeps s (Lower.callBuiltin id args site) fun _ _ => True := by
  unfold Lower.callBuiltin
  refine .ask (.ask ?_)
  rw [hs.builtins]
  cases hentry : Registry.standard.find? (s.session.symbols.get id).name with
  | none => exact .fail
  | some entry =>
    have member : entry ∈ Builtin.standard := List.mem_of_find?_eq_some hentry
    refine .ofExcept fun given _ => .unless fun _ => .ite (fun _ => ?_) fun hpure => ?_
    · refine .freshTemp hs fun result s₁ h₁ _ hresult => ?_
      exact .generated h₁ member fun _ => hresult
    · exact .generated hs member fun h => absurd h hpure

theorem Tame.call {callee : Node} {args : List Node} (hv : VisitOk visit) :
    Tame (Lower.call visit callee args n) := by
  intro s hs
  unfold Lower.call
  refine (hv.eval hs callee).bind fun o s₁ h₁ _ ho => ?_
  refine (Keeps.collect h₁ fun _ _ => temper.argument hv).bind fun given s₂ h₂ hg₂ _ => Keeps.ask ?_
  dsimp only
  split
  · exact .construct h₂
  · split
    · next id hid =>
      refine .ite (fun _ => .callBuiltin h₂) fun _ => ?_
      exact .callFunction h₂ (ho.grows hg₂) hid
    · next hid =>
      refine .ite (fun _ => ?_) fun _ => .fail
      exact .callIndirect h₂ (ho.grows hg₂) hid

/-! ## Files -/

theorem Sound.agree (h : Sound s) (ha : Agree s s') : Sound s' :=
  ⟨ha.builtins.trans h.builtins, by rw [ha.table, ha.supply]; exact h.table,
    by rw [ha.table, ha.operands]; exact h.operands, by rw [ha.table, ha.out]; exact h.code⟩

/-- In states that agree on the code and on the functions, the same functions are owed. -/
theorem Moves.agree (ha : Agree s s') (hd : s'.declared = s.declared) : Moves s s' :=
  .of_alike (ha.table ▸ .refl _) hd ha.out

theorem declared_of_startFile {file : String} {u : Unit} (h : Lower.startFile file s = (.ok u, s')) :
    s'.declared = s.declared := by
  unfold Lower.startFile at h
  split at h
  · cases h
    rfl
  · split at h
    · cases h
    · cases h
      rfl

/-- An annotation is no instruction. -/
theorem Tame.annotate : Tame (Lower.annotate n) := by
  rintro s hs a s' ⟨⟩
  dsimp only
  split
  · generalize Path.base s.file ++ ":" ++ Text.ofInt n.pos.line ++ " " ++ n.summary = text
    next hannotate =>
    have written : s.out.note text = s.out.append [.note text] := by
      unfold CodeBuffer.note
      rw [if_pos hannotate]
      rfl
    refine ⟨⟨hs.builtins, hs.table, hs.operands, fun i hi => hs.code i ?_⟩, .of_append rfl rfl written, trivial⟩
    rw [written, CodeBuffer.mem_items_append] at hi
    exact hi.resolve_left (by simp)
  · exact ⟨hs, .refl _, trivial⟩

theorem Tame.items {ns : List Node} (hv : VisitOk visit) : Tame (Lower.items visit ns) :=
  temper.forAll fun n _ => Tame.annotate.bind fun _ => hv.exec n

theorem Tame.showingLine {p : Lower α} (h : Tame p) : Tame (Lower.showingLine p) :=
  fun s hs a s' hp => h s hs a s' (Lower.eq_of_showingLine hp)

/-- Which file is at hand does not matter. -/
theorem Tame.unit {p : Program} {src : Source} (hv : VisitOk visit) : Tame (Lower.unit visit p src) := by
  have started : Tame (Lower.startFile p.file) := by
    intro s hs a s' hp
    have ha := agree_of_startFile hp
    exact ⟨hs.agree ha, .agree ha (declared_of_startFile hp), trivial⟩
  have lowered : Tame (do
      Lower.startFile p.file
      Lower.showingLine (Lower.items visit p.body)) :=
    started.bind fun _ => (Tame.items hv).showingLine
  intro s hs a s' hp
  unfold Lower.unit at hp
  obtain ⟨after, hrun, rfl⟩ := Lower.exists_of_ensuring hp
  have beginning : Agree s { s with file := p.file, source := src } := ⟨rfl, rfl, rfl, rfl, rfl⟩
  have entered : Sound { s with file := p.file, source := src } := hs.agree beginning
  obtain ⟨hafter, hm, -⟩ := lowered _ entered a after hrun
  have ending : Agree after { after with
      file := s.file
      source := s.source
      session := { after.session with imports := after.session.imports.popTo s.session.imports.depth } } :=
    ⟨rfl, rfl, rfl, rfl, rfl⟩
  exact ⟨hafter.agree ending, (Moves.agree beginning rfl).trans (hm.trans (.agree ending rfl)), trivial⟩

/-! ## Nodes -/

/-- One level: every construct, given what is inside of it. -/
theorem visitWith_ok (hv : VisitOk visit) : VisitOk (Lower.visitWith visit) := by
  intro n
  have hitems : ∀ ns, Tame (Lower.items visit ns) := fun _ => .items hv
  unfold Lower.visitWith
  cases n with
  | int => exact temper.literal (.int _ _)
  | float => exact temper.literal (.float _ _)
  | str => exact temper.literal (.str _)
  | bool => exact temper.literal (.bool _ _)
  | null => exact temper.literal (.null _)
  | ident => exact .ident
  | this => exact .this
  | unary => exact temper.unary hv
  | binary => exact .pushBinary hv
  | increment => exact .increment hv
  | assign => exact .assign hv
  | parallel => exact temper.forAll fun m _ => hv.exec m
  | group => exact temper.group hv
  | block => exact .inScope (hitems _)
  | list => exact temper.list hv
  | dict => exact temper.dict hv
  | call => exact .call hv
  | index => exact temper.index hv
  | member => exact .member hv
  | varDef => exact .defineVariables hv
  | funDecl => exact .declareFunction
  | funDef => exact .defineFunction hitems
  | lambda => exact .lambda hitems
  | classDecl => exact .declareClass
  | classDef => exact .defineClass hv hitems
  | branch => exact .branch hv
  | whileLoop | forLoop => exact .loop hv
  | pass => exact .pure ()
  | breakOut => exact temper.breakOut
  | continueOn => exact temper.continueOn
  | returnFrom => exact .returnFrom hv
  | importFile => exact temper.importFile fun _ _ => .unit hv
  | pair | arrow | argument | constructor => exact .fail _

theorem visit_ok (levels : Nat) : VisitOk (Lower.visit levels) := by
  induction levels with
  | zero => exact fun _ => .fail _
  | succ levels ih => exact visitWith_ok ih

end Calls

end Frontend
