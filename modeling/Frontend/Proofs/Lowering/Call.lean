import Frontend.Proofs.Lowering.Expression

/-!
# Calls

A call passes on the values of its arguments and nothing else: binding only sorts them. Calls of the
standard built-in functions become single instructions on the same values.
-/

namespace Frontend

open SymbolTable Region

variable {b : Binding} {bs : List Binding} {callee : String} {args : List Argument} {t : SymbolTable}
  {pos : Position} {n : Node} {id : SymbolId} {site : Lower.CallSite} {words : List String}
  {type : Tag} {entry : Builtin}
variable {p : Binding → Bool} {f : Binding → Binding} {params : List Parameter} {op : Opcode} {cls : SymbolId}
  {o : Operand}

/-! ## Binding -/

namespace Binding

/-- A binding of arguments from a list. -/
structure Among (args : List Argument) (b : Binding) : Prop where
  value : ∀ a, b.value = some a → a ∈ args
  rest : ∀ a ∈ b.rest, a ∈ args

theorem Among.mono {few many : List Argument} (h : few ⊆ many) (hb : b.Among few) : b.Among many :=
  ⟨fun a ha => h (hb.value a ha), fun a ha => h (hb.rest a ha)⟩

theorem among_unbound (args : List Argument) (p : Parameter) : Among args { param := p } :=
  ⟨fun _ e => (nomatch e), fun _ h => (nomatch h)⟩

theorem among_positional : ∀ (params : List Parameter) (args : List Argument),
      ∀ b ∈ (positional params args).1, b.Among args := by
  intro params
  induction params with
  | nil => exact fun _ _ h => nomatch h
  | cons p ps ih =>
    intro args b hb
    unfold positional at hb
    split at hb
    · rcases List.mem_cons.mp hb with rfl | hb
      · exact ⟨fun _ e => (nomatch e), fun _ h => h⟩
      · exact (ih [] b hb).mono (List.nil_subset _)
    · rcases List.mem_cons.mp hb with rfl | hb
      · exact among_unbound _ _
      · exact ih _ b hb
    · rcases List.mem_cons.mp hb with rfl | hb
      · exact among_unbound _ _
      · exact ih _ b hb
    · rename_i a args _ _
      rcases List.mem_cons.mp hb with rfl | hb
      · refine ⟨?_, fun _ h => (nomatch h)⟩
        rintro _ ⟨⟩
        exact List.mem_cons_self
      · exact (ih args b hb).mono (List.subset_cons_self _ _)

theorem mem_changeFirst (h : b ∈ changeFirst p f bs) : b ∈ bs ∨ ∃ c ∈ bs, b = f c := by
  induction bs with
  | nil => exact nomatch h
  | cons c bs ih =>
    unfold changeFirst at h
    split at h
    · rcases List.mem_cons.mp h with rfl | h
      · exact .inr ⟨c, List.mem_cons_self, rfl⟩
      · exact .inl (List.mem_cons_of_mem _ h)
    · rcases List.mem_cons.mp h with rfl | h
      · exact .inl List.mem_cons_self
      · rcases ih h with h | ⟨d, hd, rfl⟩
        · exact .inl (List.mem_cons_of_mem _ h)
        · exact .inr ⟨d, List.mem_cons_of_mem _ hd, rfl⟩

theorem mem_changeLast (h : b ∈ changeLast p f bs) : b ∈ bs ∨ ∃ c ∈ bs, b = f c := by
  unfold changeLast at h
  rcases mem_changeFirst (List.mem_reverse.mp h) with h | ⟨c, hc, rfl⟩
  · exact .inl (List.mem_reverse.mp h)
  · exact .inr ⟨c, List.mem_reverse.mp hc, rfl⟩

theorem among_named : ∀ {left : List Argument} {bs bs' : List Binding}, left ⊆ args → (∀ b ∈ bs, b.Among args) →
      named callee bs left = .ok bs' → ∀ b ∈ bs', b.Among args := by
  intro left
  induction left with
  | nil =>
    rintro bs bs' _ hbs ⟨⟩
    exact hbs
  | cons a left ih =>
    intro bs bs' hleft hbs h
    have ha : a ∈ args := hleft List.mem_cons_self
    have hrest : left ⊆ args := fun x hx => hleft (List.mem_cons_of_mem _ hx)
    unfold named at h
    split at h
    · split at h
      · cases h
      · refine ih hrest (fun b hb => ?_) h
        rcases mem_changeFirst hb with hb | ⟨c, hc, rfl⟩
        · exact hbs b hb
        · refine ⟨?_, (hbs c hc).rest⟩
          rintro _ ⟨⟩
          exact ha
    · split at h
      · refine ih hrest (fun b hb => ?_) h
        rcases mem_changeLast hb with hb | ⟨c, hc, rfl⟩
        · exact hbs b hb
        · refine ⟨(hbs c hc).value, fun x hx => ?_⟩
          rcases List.mem_append.mp hx with hx | hx
          · exact (hbs c hc).rest x hx
          · rw [List.mem_singleton.mp hx]
            exact ha
      · cases h

/-- The last check of a plan changes nothing. -/
theorem named_of_plan (h : plan t callee params args pos = .ok bs) :
    named callee (positional params (args.filter (·.name.isEmpty))).1
      (args.filter fun a => !a.name.isEmpty) = .ok bs := by
  unfold plan at h
  simp only [bind, Except.bind] at h
  split at h
  · cases h
  · cases hn : named callee (positional params (args.filter (·.name.isEmpty))).1
        (args.filter fun a => !a.name.isEmpty) with
    | error d =>
      rw [hn] at h
      cases h
    | ok found =>
      rw [hn] at h
      cases hf : found.findSome? (fault? t callee pos) with
      | some d =>
        simp only [hf] at h
        cases h
      | none =>
        simp only [hf] at h
        exact h

/-- A plan binds only arguments of the call. -/
theorem among_plan (h : plan t callee params args pos = .ok bs) : ∀ b ∈ bs, b.Among args :=
  among_named (List.filter_subset_self args)
    (fun b hb => (among_positional _ _ b hb).mono (List.filter_subset_self args)) (named_of_plan h)

end Binding

/-! ## Built-in functions -/

/-- An instruction that computes the value of a call from its arguments, if the function has one. -/
structure Computes (entry : Builtin) (call : BuiltinCall) (i : Instruction) : Prop where
  ordinary : isOrdinary i.op = true
  args : ∀ w ∈ i.args, w ∈ call.raws ∨ Word.Plain w ∨ (entry.pure = true ∧ w = call.result)
  reads : ∀ w ∈ i.reads, w ∈ call.raws ∨ w = ""
  writes : ∀ w ∈ i.writes, entry.pure = true ∧ w = call.result
  result : entry.pure = true → call.result ∈ i.writes

/-- A function without a value that is an instruction on its arguments. -/
theorem computes_onArgs (call : BuiltinCall) (hop : consumes op = true) (hpure : entry.pure = false) :
    Computes entry call ⟨op, call.raws⟩ := by
  have shape : Instruction.reads ⟨op, call.raws⟩ = call.raws ∧
      Instruction.writes ⟨op, call.raws⟩ = [] ∧ isOrdinary op = true := by
    cases op <;> first | exact absurd hop (by decide) | exact ⟨rfl, rfl, rfl⟩
  refine ⟨shape.2.2, fun w hw => .inl hw, ?_, ?_, ?_⟩
  · rw [shape.1]
    exact fun w hw => .inl hw
  · rw [shape.2.1]
    rintro w ⟨⟩
  · rw [hpure]
    intro e
    cases e

theorem firstRaw_cases (call : BuiltinCall) : Builtin.firstRaw call ∈ call.raws ∨ Builtin.firstRaw call = "" := by
  unfold Builtin.firstRaw
  cases call.raws with
  | nil => exact .inr rfl
  | cons w ws => exact .inl List.mem_cons_self

/-- A function with a value that is an instruction on its first argument, perhaps by a word. -/
theorem computes_onFirst (call : BuiltinCall)
    (hop : (gives op = true ∧ words = []) ∨ ∃ w, op = .cast ∧ words = [w] ∧ Word.Plain w) (hpure : entry.pure = true) :
    Computes entry call ⟨op, Builtin.firstRaw call :: (words ++ [call.result])⟩ := by
  have shape :
      Instruction.reads ⟨op, Builtin.firstRaw call :: (words ++ [call.result])⟩ =
        [Builtin.firstRaw call] ∧
      Instruction.writes ⟨op, Builtin.firstRaw call :: (words ++ [call.result])⟩ =
        [call.result] ∧
      isOrdinary op = true ∧ ∀ w ∈ words, Word.Plain w := by
    rcases hop with ⟨hop, rfl⟩ | ⟨w, rfl, rfl, hw⟩
    · cases op <;> first | exact absurd hop (by decide) | exact ⟨rfl, rfl, rfl, by simp⟩
    · exact ⟨rfl, rfl, rfl, by simpa using hw⟩
  have first := firstRaw_cases call
  refine ⟨shape.2.2.1, ?_, ?_, ?_, ?_⟩
  · intro w hw
    rcases List.mem_cons.mp hw with rfl | hw
    · exact first.imp_right fun he => .inl (by rw [he]; decide)
    · rcases List.mem_append.mp hw with hw | hw
      · exact .inr (.inl (shape.2.2.2 w hw))
      · exact .inr (.inr ⟨hpure, List.mem_singleton.mp hw⟩)
  · rw [shape.1]
    intro w hw
    rw [List.mem_singleton.mp hw]
    exact first
  · rw [shape.2.1]
    exact fun w hw => ⟨hpure, List.mem_singleton.mp hw⟩
  · rw [shape.2.1]
    exact fun _ => List.mem_singleton.mpr rfl

/-- A standard built-in function becomes one instruction. -/
theorem computes_of_standard (h : entry ∈ Builtin.standard) (call : BuiltinCall) (supply : Supply) :
    ∃ i, entry.generate call supply = (.ok (.instructions [i]), supply) ∧ Computes entry call i := by
  have gives' : ∀ {op}, gives op = true →
      (gives op = true ∧ ([] : List String) = []) ∨
        ∃ w, op = .cast ∧ ([] : List String) = [w] ∧ Word.Plain w :=
    fun hop => .inl ⟨hop, rfl⟩
  have casts : ∀ type : TypeName, (gives .cast = true ∧ [type.text] = []) ∨
      ∃ w, Opcode.cast = .cast ∧ [type.text] = [w] ∧ Word.Plain w := by
    intro type
    refine .inr ⟨type.text, rfl, rfl, ?_⟩
    cases type <;> decide
  simp only [Builtin.standard, List.mem_cons, List.not_mem_nil, or_false] at h
  rcases h with rfl | rfl | rfl | rfl | rfl | rfl | rfl | rfl | rfl | rfl | rfl | rfl
  · exact ⟨_, rfl, computes_onArgs call rfl rfl⟩
  · refine ⟨_, rfl, rfl, ?_, fun w hw => (nomatch hw), ?_, fun _ => List.mem_singleton.mpr rfl⟩
    · exact fun w hw => .inr (.inr ⟨rfl, List.mem_singleton.mp hw⟩)
    · exact fun w hw => ⟨rfl, List.mem_singleton.mp hw⟩
  · exact ⟨_, rfl, computes_onFirst call (gives' rfl) rfl⟩
  · exact ⟨_, rfl, computes_onArgs call rfl rfl⟩
  · exact ⟨_, rfl, computes_onFirst call (gives' rfl) rfl⟩
  · exact ⟨_, rfl, computes_onFirst call (gives' rfl) rfl⟩
  · exact ⟨_, rfl, computes_onArgs call rfl rfl⟩
  · exact ⟨_, rfl, computes_onFirst call (casts .str) rfl⟩
  · exact ⟨_, rfl, computes_onFirst call (casts .int) rfl⟩
  · exact ⟨_, rfl, computes_onFirst call (casts .flt) rfl⟩
  · exact ⟨_, rfl, computes_onFirst call (casts .bool) rfl⟩
  · exact ⟨_, rfl, computes_onFirst call (gives' rfl) rfl⟩

theorem raw_of_builtinArgs : ∀ {args : List Argument} {done given : List BuiltinArg},
      Lower.builtinArgs entry done args = .ok given → ∀ g ∈ given, g ∈ done ∨ ∃ a ∈ args, g.raw = a.value.raw := by
  intro args
  induction args with
  | nil =>
    rintro done given ⟨⟩ g hg
    exact .inl (List.mem_reverse.mp hg)
  | cons a args ih =>
    intro done given h g hg
    unfold Lower.builtinArgs at h
    simp only at h
    split at h
    · cases h
    · split at h
      · cases h
      · rcases ih h g hg with hdone | ⟨b, hb, he⟩
        · rcases List.mem_cons.mp hdone with rfl | hdone
          · exact .inr ⟨a, List.mem_cons_self, rfl⟩
          · exact .inl hdone
        · exact .inr ⟨b, List.mem_cons_of_mem _ hb, he⟩

/-! ## Arguments -/

variable {Γ : Surroundings} {known : Set String} {s : Lowering} {visit : Visit}

/-- Arguments whose values may be used. -/
def ArgumentsOk (known : Set String) (s : Lowering) (args : List Argument) : Prop :=
  ∀ a ∈ args, OperandOk known s.table a.value

theorem ArgumentsOk.grows {known' : Set String} {s' : Lowering} (h : ArgumentsOk known s args)
    (hg : Grows known s known' s') : ArgumentsOk known' s' args :=
  fun a ha => (h a ha).grows hg

theorem mem_of_chooseConstructor {ids : List SymbolId} (h : Lower.chooseConstructor t args pos ids = .ok (id, bs)) :
    id ∈ ids ∧ ∀ b ∈ bs, b.Among args := by
  induction ids with
  | nil => exact nomatch h
  | cons first rest ih =>
    unfold Lower.chooseConstructor at h
    simp only at h
    split at h
    · rename_i hplan
      cases h
      exact ⟨List.mem_cons_self, Binding.among_plan hplan⟩
    · split at h
      · rename_i found hrest
        cases h
        exact ⟨List.mem_cons_of_mem _ (ih hrest).1, (ih hrest).2⟩
      · cases h

/-- A constructor of a class may be used everywhere. -/
theorem usable_of_constructor {n : Nat} (h : Ordered n t) (hid : id ∈ (t.classInfo cls).constructors) :
    Usable known t (t.get id).rid := by
  refine usable_of_sort_ne h ?_
  unfold classInfo at hid
  cases hc : (t.get cls).class? with
  | none =>
    rw [hc] at hid
    exact nomatch hid
  | some c =>
    rw [hc] at hid
    have hlt : cls < t.symbols.size :=
      lt_size_of_sort_ne (by rw [Symbol.sort_of_class hc]; exact fun e => nomatch e)
    rw [((h.symbols cls hlt).cls c hc).constructors id hid]
    exact fun e => nomatch e

variable [Setting]

theorem Does.argument (hv : VisitOk visit) (hn : n.WellRead) (h : Ready Γ known s) :
    Does Γ known s (Lower.argument visit n) fun known' a s' => OperandOk known' s'.table a.value := by
  have passed : ∀ {m : Node} {f : Operand → Argument}, m.WellRead → (∀ o, (f o).value = o) →
      Does Γ known s (Lower.eval visit m >>= fun o => Pure.pure (f o))
        fun known' a s' => OperandOk known' s'.table a.value := by
    intro m f hm hf
    refine .bind (hv.eval hm h) ?_
    rintro known' o s' - h' ⟨ho, -⟩
    exact .pure h' (by rw [hf]; exact ho)
  unfold Lower.argument
  split
  · exact passed (hn.child List.mem_cons_self) fun _ => rfl
  · exact passed hn fun _ => rfl

theorem Does.arguments {args : List Node} (hv : VisitOk visit) (hn : ∀ n ∈ args, n.WellRead) (h : Ready Γ known s) :
    Does Γ known s (Lower.collect (Lower.argument visit) args) fun known' as s' =>
      ArgumentsOk known' s' as :=
  .collect (P := fun known s (a : Argument) => OperandOk known s.table a.value)
    (fun hg ha => ha.grows hg) h fun n hm _ _ _ h' => .argument hv (hn n hm) h'

section
variable (h : Ready Γ known s)
include h

theorem Does.emitBinding (hb : b.Among args) (hargs : ArgumentsOk known s args) :
    Does Γ known s (Lower.emitBinding b) fun known' w s' => Usable known' s'.table w := by
  unfold Lower.emitBinding
  split
  · refine .filled (f := fun w (a : Argument) => Lower.emit .append [w, a.value.raw]) h
      usable_emptyList ?_ fun w known' s' h' hw => .pure h' hw
    intro w a ha known' s' hg h' hw
    refine (Does.emitOn h' rfl ?_).weaken fun _ _ _ hd => hd.2
    simpa using ⟨hw, (hargs a (hb.rest a ha)).raw.grows hg⟩
  · refine .filled (f := fun w (a : Argument) =>
      Lower.emit .setItem [w, Spelling.ofText a.name, a.value.raw]) h
      usable_emptyDict ?_ fun w known' s' h' hw => .pure h' hw
    intro w a ha known' s' hg h' hw
    refine (Does.emitOn h' rfl ?_).weaken fun _ _ _ hd => hd.2
    simpa using ⟨hw, usable_quote a.name, (hargs a (hb.rest a ha)).raw.grows hg⟩
  · cases hvalue : b.value with
    | some a => exact .pure h (hargs a (hb.value a hvalue)).raw
    | none =>
      refine .pure h ?_
      cases hd : b.param.default.bind Operand.ofLiteral? with
      | none => exact usable_empty
      | some o =>
        obtain ⟨node, -, hlit⟩ := Option.bind_eq_some_iff.mp hd
        exact (operandOk_ofLiteral hlit).raw

theorem Does.emitBindings (hbs : ∀ b ∈ bs, b.Among args) (hargs : ArgumentsOk known s args) :
    Does Γ known s (Lower.collect Lower.emitBinding bs) fun known' ws s' =>
      ∀ w ∈ ws, Usable known' s'.table w :=
  .collect (P := fun known s w => Usable known s.table w) (fun hg hw => hw.grows hg) h
    fun b hb _ _ hg h' => .emitBinding h' (hbs b hb) (hargs.grows hg)

/-! ## Calls -/

theorem Does.construct (hc : (s.table.get cls).class?.isSome = true) (hargs : ArgumentsOk known s args) :
    Does Γ known s (Lower.construct cls args site) Whatever := by
  unfold Lower.construct
  refine .ask (.unless fun _ => ?_)
  cases hchoice : Lower.chooseConstructor s.table args site.pos
      (s.table.classInfo cls).constructors with
  | error lines => exact .fail
  | ok choice =>
    obtain ⟨id, bs⟩ := choice
    obtain ⟨hid, hbs⟩ := mem_of_chooseConstructor hchoice
    have hcls : Usable known s.table (s.table.get cls).rid :=
      usable_of_class h.stable.ordered hc
    have hctor : Usable known s.table (s.table.get id).rid :=
      usable_of_constructor h.stable.ordered hid
    refine .ask (.unless fun _ => .freshTemp h fun object s₁ h₁ hg₁ _ hobject => ?_)
    refine Does.bind (Does.emitTo [(s.table.get cls).rid] h₁ rfl (by simpa using hcls.grows hg₁)
      (.inr hobject)) ?_
    rintro known₂ _ s₂ hg₂ h₂ ⟨-, -, hu⟩
    have hg₂ := hg₁.trans hg₂
    refine .bind (.emitBindings h₂ hbs (hargs.grows hg₂)) ?_
    intro known₃ ws s₃ hg₃ h₃ hws
    refine .bind (.emitOn h₃ rfl ?_) ?_
    · intro w hw
      rcases List.mem_cons.mp hw with rfl | hw
      · exact hctor.grows (hg₂.trans hg₃)
      · rcases List.mem_cons.mp hw with rfl | hw
        · exact hu.grows hg₃
        · exact hws w hw
    · intro known₄ _ s₄ hg₄ h₄ _
      exact (Does.push h₄ (operandOk_temp (hu.grows (hg₃.trans hg₄)))).whatever

/-- A function is called for its result. -/
theorem Does.invoke (hw : ∀ w ∈ o.raw :: words, Usable known s.table w) :
    Does Γ known s (Lower.invokeWith o words type n) Whatever := by
  refine .freshTemp h fun result s₁ h₁ hg₁ _ hresult => ?_
  refine Does.bind (Does.emitTo (o.raw :: words) h₁ rfl (fun w hm => (hw w hm).grows hg₁) (.inr hresult)) ?_
  rintro known₂ _ s₂ - h₂ ⟨-, -, hu⟩
  exact (Does.push h₂ (operandOk_temp hu)).whatever

/-- A function is called for its effect. -/
theorem Does.callOnly (hw : ∀ w ∈ o.raw :: words, Usable known s.table w) :
    Does Γ known s (Lower.callWith o words n) Whatever := by
  refine .bind (.emitOn h rfl hw) ?_
  intro known₁ _ s₁ _ h₁ _
  exact (Does.push h₁ operandOk_null).whatever

theorem Does.callFunction {callee : Operand} (hc : OperandOk known s.table callee) (hargs : ArgumentsOk known s args) :
    Does Γ known s (Lower.callFunction id callee args site) Whatever := by
  unfold Lower.callFunction
  refine .ask (.ofExcept fun bs hplan => ?_)
  have called : ∀ receiver : List String, (∀ w ∈ receiver, Usable known s.table w) →
      Does Γ known s (Lower.callBound callee (((s.table.get id).function?).getD {}) bs site.node receiver) Whatever := by
    intro receiver hr
    refine .bind (.emitBindings h (Binding.among_plan hplan) hargs) ?_
    intro known₁ bound s₁ hg₁ h₁ hbound
    have words : ∀ w ∈ callee.raw :: (receiver ++ bound), Usable known₁ s₁.table w := by
      intro w hw
      rcases List.mem_cons.mp hw with rfl | hw
      · exact hc.raw.grows hg₁
      · rcases List.mem_append.mp hw with hw | hw
        · exact (hr w hw).grows hg₁
        · exact hbound w hw
    exact Run.ite (fun _ => Does.invoke h₁ words) fun _ => Does.callOnly h₁ words
  refine .ite (fun _ => ?_) fun _ => .query h.stable rfl (called [] fun _ hw => nomatch hw)
  cases hr : callee.receiver.filter (!·.static) with
  | none => exact .failBind
  | some r =>
    refine .query h.stable rfl (called [r.object] fun w hw => ?_)
    rw [List.mem_singleton.mp hw]
    exact hc.receiver r (Option.filter_eq_some_iff.mp hr).1

theorem Does.callIndirect {callee : Operand} (hc : OperandOk known s.table callee) (hargs : ArgumentsOk known s args) :
    Does Γ known s (Lower.callIndirect callee type args site) Whatever := by
  have words : ∀ w ∈ callee.raw :: args.map (·.value.raw), Usable known s.table w := by
    intro w hw
    rcases List.mem_cons.mp hw with rfl | hw
    · exact hc.raw
    · obtain ⟨a, ha, rfl⟩ := List.mem_map.mp hw
      exact (hargs a ha).raw
  have called : Does Γ known s (Lower.callValueWith callee type (args.map (·.value.raw)) site.node) Whatever :=
    Run.ite (fun _ => Does.callOnly h words) fun _ => Does.invoke h words
  unfold Lower.callIndirect
  cases args.find? (!·.name.isEmpty) with
  | some a => exact .failBind
  | none => exact .ite (fun _ => .ask (.refuse called)) fun _ => called

/-! ## Calls of built-in functions -/

/-- The instruction of a call, with its value pushed. -/
theorem Does.computed {call : BuiltinCall} {i : Instruction} (hi : Computes entry call i)
    (hraws : ∀ w ∈ call.raws, Usable known s.table w) (hresult : entry.pure = true → Word.IsTemp call.result) :
    Does Γ known s (do
        Lower.change fun s => { s with out := s.out.append (Emission.instructions [i]).items }
        Lower.push (if entry.pure then .temp call.result type n else .null n)) Whatever := by
  have clean : ∀ w ∈ i.args, Word.Clean w := by
    intro w hw
    rcases hi.args w hw with hw | hw | ⟨hpure, rfl⟩
    · exact (hraws w hw).1
    · exact .inl hw
    · exact clean_of_isTemp (hresult hpure)
  have reads : ∀ w ∈ i.reads, Usable known s.table w := by
    intro w hw
    rcases hi.reads w hw with hw | rfl
    · exact hraws w hw
    · exact usable_empty
  have writes : ∀ w ∈ i.writes, Writable known s.table w ∨ (i.op = .allot ∧ w ∈ i.args) := by
    intro w hw
    obtain ⟨hpure, rfl⟩ := hi.writes w hw
    exact .inl (.inr (hresult hpure))
  have emitted : Does Γ known s (Lower.emit i.op i.args) fun known' _ s' =>
      s'.table = s.table ∧ s'.operands = s.operands ∧ ∀ w, i.Defines w → w ∈ known' :=
    .emit h hi.ordinary clean reads writes
  refine .bind (p := Lower.emit i.op i.args) emitted ?_
  rintro known₁ _ s₁ - h₁ ⟨-, -, hdefs⟩
  by_cases hpure : entry.pure = true
  · rw [if_pos hpure]
    refine (Does.push h₁ (operandOk_temp ⟨clean_of_isTemp (hresult hpure), .inl ?_⟩)).whatever
    exact hdefs _ (.inr ⟨hresult hpure, hi.result hpure⟩)
  · rw [if_neg hpure]
    exact (Does.push h₁ operandOk_null).whatever

/-- The generator of a standard built-in function is run for a call. -/
theorem Does.generated {sym : Symbol} {given : List BuiltinArg} {result : String} (hentry : entry ∈ Builtin.standard)
    (hraws : ∀ w ∈ BuiltinCall.raws ⟨sym.name, given, result, site.pos⟩,
      Usable known s.table w) (hresult : entry.pure = true → Word.IsTemp result) :
    Does Γ known s (Lower.generated entry sym given site result) Whatever := by
  obtain ⟨i, hi, hc⟩ := computes_of_standard hentry ⟨sym.name, given, result, site.pos⟩ s.supply
  have hgen : Lower.generate entry ⟨sym.name, given, result, site.pos⟩ s = (.ok (.ok (.instructions [i])), s) := by
    unfold Lower.generate
    rw [hi]
  exact Run.query h.stable hgen (Run.unless fun _ => Does.computed h hc hraws hresult)

theorem Does.callBuiltin (hargs : ArgumentsOk known s args) :
    Does Γ known s (Lower.callBuiltin id args site) Whatever := by
  unfold Lower.callBuiltin
  refine .ask (.ask ?_)
  rw [h.stable.builtins]
  cases hentry : Registry.standard.find? (s.table.get id).name with
  | none => exact .fail
  | some entry =>
    have hmem : entry ∈ Builtin.standard := List.mem_of_find?_eq_some hentry
    refine .ofExcept fun given hgiven => .unless fun _ => ?_
    have hraws : ∀ g ∈ given, ∃ a ∈ args, g.raw = a.value.raw := fun g hg =>
      (raw_of_builtinArgs hgiven g hg).elim (fun hd => nomatch hd) fun he => he
    refine .ite (fun hpure => ?_) fun hpure => ?_
    · refine .freshTemp h fun result s₁ h₁ hg₁ _ hresult => ?_
      refine Does.generated h₁ hmem (fun w hw => ?_) fun _ => hresult
      obtain ⟨g, hg, rfl⟩ := List.mem_map.mp hw
      obtain ⟨a, ha, he⟩ := hraws g (List.mem_of_mem_filter hg)
      rw [he]
      exact (hargs a ha).raw.grows hg₁
    · refine .query h.stable rfl ?_
      refine Does.generated h hmem (fun w hw => ?_) fun he => absurd he hpure
      obtain ⟨g, hg, rfl⟩ := List.mem_map.mp hw
      obtain ⟨a, ha, he⟩ := hraws g (List.mem_of_mem_filter hg)
      rw [he]
      exact (hargs a ha).raw

end

theorem Does.call {callee : Node} {args : List Node} (hv : VisitOk visit) (hc : callee.WellRead)
    (hargs : ∀ a ∈ args, a.WellRead) (h : Ready Γ known s) :
    Does Γ known s (Lower.call visit callee args n) Whatever := by
  unfold Lower.call
  refine .bind (hv.eval hc h) ?_
  rintro known₁ o s₁ - h₁ ⟨ho, -⟩
  refine .bind (.arguments hv hargs h₁) ?_
  intro known₂ given s₂ hg₂ h₂ hgiven
  have ho := ho.grows hg₂
  refine .ask ?_
  cases hcls : (if o.effective.isClass then none else o.class? s₂.table) with
  | some cls =>
    simp only [hcls]
    refine Does.construct h₂ ?_ hgiven
    split at hcls
    · cases hcls
    · exact class?_of_operand hcls
  | none =>
    simp only [hcls]
    cases o.function? s₂.table with
    | some id =>
      exact Run.ite (fun _ => Does.callBuiltin h₂ hgiven) fun _ => Does.callFunction h₂ ho hgiven
    | none => exact Run.ite (fun _ => Does.callIndirect h₂ ho hgiven) fun _ => Run.fail

end Frontend
