import Frontend.Proofs.Course.Once

/-!
# What code is composed of

The code that a course writes is composed of instructions that know what they may write to, of variables with
their first values, of loops and of functions, each with the code of its body. What an instruction may write
to is said of the table at the end; nothing that was so when it was written changes later.
-/

namespace Frontend

open Course SymbolTable

variable {v : VariableInfo} {u : Lowering}

/-- Generators make instructions that neither open nor close a frame, set no field, bring nothing in, and
write to nothing but the value of the call. -/
def Registry.Plain (r : Registry) : Prop :=
  ∀ e ∈ r.entries, ∀ call supply emission, (e.generate call supply).1 = .ok emission →
    ∃ is, emission = .instructions is ∧ ∀ i ∈ is, isPlain i.op = true ∧ ∀ w ∈ i.writes, w = call.result

theorem Registry.plain_standard : Registry.standard.Plain := by
  intro e he call supply emission h
  simp only [Registry.standard, Builtin.standard, List.mem_cons, List.not_mem_nil, or_false] at he
  rcases he with rfl | rfl | rfl | rfl | rfl | rfl | rfl | rfl | rfl | rfl | rfl | rfl <;> cases h <;>
    exact ⟨_, rfl, List.forall_mem_singleton.mpr ⟨rfl, by simp [Instruction.writes, Builtin.firstRaw]⟩⟩

/-- How many instructions come before the next one, if every open buffer comes behind the ones around it and the head
of its function. -/
def CodeBuffer.position (b : CodeBuffer) : Nat :=
  (Code.instructions b.root).length + (b.inner.flatMap Code.instructions).length + b.inner.length

/-- The evaluation writes the code, behind as many instructions. -/
structure Evaluation.Writes (e : Evaluation) (position : Nat) (code : Code) : Prop where
  start : e.start.out.position = position
  finish : e.finish.out = e.start.out.append code

section
variable [Setting]

/-- Code that is composed in a function, behind so many instructions, with the symbols of a table. -/
inductive Composed (t : SymbolTable) : Option Home → Nat → Code → Prop where
  | nil {home k} : Composed t home k []
  | append {home k a b} (ha : Composed t home k a) (hb : Composed t home (k + (Code.instructions a).length) b) :
      Composed t home k (a ++ b)
  | note {home k} (text : String) : Composed t home k [.note text]
  | write {home k} {op : Opcode} {args : List String} (hop : isQuiet op = true)
      (hwrites : ∀ w ∈ Instruction.writes ⟨op, args⟩, Course.Writable t w)
      (hset : op = .setField → ∃ object word raw, args = [object, word, raw] ∧ Settable home t word) :
      Composed t home k [.instr ⟨op, args⟩]
  /-- A field gets its initial value. -/
  | initial {home k} {field : SymbolId} {v : VariableInfo} {object : String} {code : Code} (e : Evaluation)
      (hrun : Setting.evaluates e) (hwrites : e.Writes k code) (hfield : (t.get field).detail = .var v)
      (hinit : v.init = some e.node) (hobject : Receives home t v object) (h : Composed t home k code) :
      Composed t home k (code ++ [CodeItem.instr ⟨.setField, [object, (t.get field).rid, e.value.raw]⟩])
  | bring {home k} {op : Opcode} {args : List String} (hop : brings op = true) :
      Composed t home k [.instr ⟨op, args⟩]
  | define {home k} {id : SymbolId} {v : VariableInfo} {code : Code} (hid : (t.get id).detail = .var v)
      (hcode : v.const = false ∧ code = [] ∨ Initial (t.get id).rid code) :
      Composed t home k (.instr ⟨.allot, [(t.get id).rid]⟩ :: code)
  | loop {home k} {labels : List String} {body : Code} (h : Composed t home (k + 1) body) :
      Composed t home k (.instr ⟨.untilLoop, labels⟩ :: (body ++ [CodeItem.instr ⟨.finish, []⟩]))
  | function {home k} {op : Opcode} {id : SymbolId} {params : List String} {body : Code} (hop : op = .func ∨ op = .funi)
      (hfun : (t.get id).function?.isSome = true) (h : Composed t (some ⟨id, params⟩) (k + 1) body) :
      Composed t home k (.instr ⟨op, (t.get id).rid :: params⟩ :: (body ++ [CodeItem.instr ⟨.finish, []⟩]))

end

/-- A variable that is neither a field nor the object of a method. -/
def Symbol.IsVariable (s : Symbol) : Prop := ∃ v, s.detail = .var v ∧ v.owner = none ∧ s.name ≠ "this"

/-- The code makes room for every variable that was made since there were `n` symbols. -/
def Allotted (n : Nat) (t : SymbolTable) (code : Code) : Prop :=
  ∀ id, n ≤ id → id < t.symbols.size → (t.get id).IsVariable → .instr ⟨.allot, [(t.get id).rid]⟩ ∈ code

namespace Course

variable {home : Option Home} {t t' : SymbolTable} {object w : String}

/-- What a symbol is for good is found again later. -/
theorem exists_later (id : SymbolId) (hl : Later t t') : ∃ id', (t'.get id').core = (t.get id).core := by
  by_cases hid : id < t.symbols.size
  · exact ⟨id, hl.core id hid⟩
  · exact ⟨t'.symbols.size, by rw [get_of_size_le (Nat.le_of_not_lt hid), get_of_size_le (le_refl _)]⟩

theorem Writable.later (h : Writable t w) (hl : Later t t') : Writable t' w := by
  rcases h with h | ⟨id, v, hv, hconst, hrid⟩
  · exact .inl h
  · obtain ⟨id', hcore⟩ := exists_later id hl
    obtain ⟨v', hv', hsame⟩ := Symbol.var?_of_core hcore hv
    have hsame : v'.const = v.const := (congrArg VariableInfo.const hsame :)
    exact .inr ⟨id', v', hv', hsame.trans hconst, (Symbol.rid_of_core hcore).trans hrid⟩

theorem Settable.later (h : Settable home t w) (hl : Later t t') : Settable home t' w := by
  obtain ⟨field, v, hv, hrid, hmay⟩ := h
  obtain ⟨field', hcore⟩ := exists_later field hl
  obtain ⟨v', hv', hsame⟩ := Symbol.var_of_core hcore hv
  refine ⟨field', v', hv', (Symbol.rid_of_core hcore).trans hrid, ?_⟩
  refine hmay.imp (congrArg VariableInfo.const hsame :).trans ?_
  rintro ⟨here, f, hhome, hf, hkind, howner⟩
  obtain ⟨f', hf', hfsame⟩ := Symbol.function?_of_core (hl.core _ (lt_size_of_function? hf)) hf
  refine ⟨here, f', hhome, hf', (congrArg FunctionInfo.kind hfsame).trans hkind, ?_⟩
  exact (congrArg FunctionInfo.owner hfsame).trans (howner.trans (congrArg VariableInfo.owner hsame).symm)

theorem Receives.later {v' : VariableInfo} (h : Receives home t v object) (hl : Later t t') (hsame : v'.core = v.core) :
    Receives home t' v' object := by
  have howner : v'.owner = v.owner := (congrArg VariableInfo.owner hsame :)
  have hstatic : v'.static = v.static := (congrArg VariableInfo.static hsame :)
  obtain ⟨cls, hcls, h⟩ := h
  refine ⟨cls, howner.trans hcls, ?_⟩
  rw [hstatic]
  rcases h with ⟨hs, hobject, hclass⟩ | ⟨hs, here, f, below, hhome, hf, hkind, hbelow, hthis, hchain⟩
  · obtain ⟨c, hc⟩ := Option.isSome_iff_exists.mp hclass
    have hcore := hl.core cls (lt_size_of_class? hc)
    exact .inl ⟨hs, hobject.trans (Symbol.rid_of_core hcore).symm, (Symbol.isSome_class?_of_core hcore).trans hclass⟩
  · obtain ⟨f', hf', hfsame⟩ := Symbol.function?_of_core (hl.core _ (lt_size_of_function? hf)) hf
    exact .inr ⟨hs, here, f', below, hhome, hf', (congrArg FunctionInfo.kind hfsame).trans hkind,
      (congrArg FunctionInfo.owner hfsame).trans hbelow, hthis, mem_chain_later hchain hl⟩

end Course

variable {home : Option Home} {k : Bool} {ws ws' : List String} {s s' : Lowering} {t t' : SymbolTable}
variable {code more : Code} {n m index : Nat}
variable {sym : Symbol} {level : Nat}

theorem Composed.later [Setting] (h : Composed t home index code) (hl : Later t t') : Composed t' home index code := by
  induction h with
  | nil => exact .nil
  | append _ _ iha ihb => exact iha.append ihb
  | note text => exact .note text
  | write hop hwrites hset =>
    refine .write hop (fun w hw => (hwrites w hw).later hl) fun hs => ?_
    obtain ⟨object, word, raw, hargs, h⟩ := hset hs
    exact ⟨object, word, raw, hargs, h.later hl⟩
  | @initial home k field v object code e hrun hwrites hfield hinit hobject _ ih =>
    obtain ⟨field', hcore⟩ := exists_later field hl
    obtain ⟨v', hv', hsame⟩ := Symbol.var_of_core hcore hfield
    rw [← Symbol.rid_of_core hcore]
    exact .initial e hrun hwrites hv' ((congrArg VariableInfo.init hsame :).trans hinit) (hobject.later hl hsame) ih
  | bring hop => exact .bring hop
  | @define home k id v code hid hcode =>
    obtain ⟨id', hcore⟩ := exists_later id hl
    obtain ⟨v', hv', hsame⟩ := Symbol.var_of_core hcore hid
    rw [← Symbol.rid_of_core hcore] at hcode ⊢
    refine .define hv' ?_
    rw [show v'.const = v.const from (congrArg VariableInfo.const hsame :)]
    exact hcode
  | loop _ ih => exact .loop ih
  | @function home k op id params body hop hfun _ ih =>
    obtain ⟨f, hf⟩ := Option.isSome_iff_exists.mp hfun
    have hcore := hl.core id (lt_size_of_function? hf)
    rw [← Symbol.rid_of_core hcore]
    exact .function hop ((Symbol.isSome_function?_of_core hcore).trans hfun) ih

/-- What is known of the symbols alone. -/
theorem Composed.of_symbols [Setting] (h : Composed t home index code) (hs : t'.symbols = t.symbols) :
    Composed t' home index code :=
  h.later (.of_symbols hs)

/-- The code of a plain generator. -/
theorem composed_emission [Setting] {e : Builtin} {call : BuiltinCall} {supply : Supply} {emission : Emission} {r : Registry}
    (hplain : r.Plain) (he : e ∈ r.entries) (h : (e.generate call supply).1 = .ok emission)
    (hresult : ¬ Word.HasNumber call.result) : Composed t home index emission.items := by
  obtain ⟨is, rfl, his⟩ := hplain e he call supply emission h
  clear h
  induction is generalizing index with
  | nil => exact .nil
  | cons i is ih =>
    obtain ⟨hi, hrest⟩ := List.forall_mem_cons.mp his
    obtain ⟨hquiet, hset⟩ := Bool.and_eq_true_iff.mp hi.1
    refine Composed.append (a := [.instr i]) (.write hquiet (fun w hw => .inl ?_) fun hop => ?_) (ih hrest)
    · exact hi.2 w hw ▸ hresult
    · exact absurd hop (bne_iff_ne.mp hset)

/-! ## Room for variables -/

theorem Symbol.isVariable_of_core {a b : Symbol} (h : b.core = a.core) (ha : a.IsVariable) : b.IsVariable := by
  obtain ⟨v, hv, howner, hname⟩ := ha
  obtain ⟨v', hv', hsame⟩ := Symbol.var_of_core h hv
  exact ⟨v', hv', (congrArg VariableInfo.owner hsame :).trans howner, Symbol.name_of_core h ▸ hname⟩

namespace Allotted

theorem of_size_le (h : t.symbols.size ≤ n) : Allotted n t code :=
  fun _ hn hid => absurd (hid.trans_le h) (Nat.not_lt.mpr hn)

/-- The symbols that are made later need room of their own. -/
theorem append (h : Allotted n t code) (hmore : Allotted t.symbols.size t' more) (hl : Later t t') :
    Allotted n t' (code ++ more) := by
  intro id hn hid hvar
  by_cases hold : id < t.symbols.size
  · have hcore := hl.core id hold
    rw [Symbol.rid_of_core hcore]
    exact List.mem_append_left _ (h id hn hold (Symbol.isVariable_of_core hcore.symm hvar))
  · exact List.mem_append_right _ (hmore id (Nat.le_of_not_lt hold) hid hvar)

theorem mono (h : Allotted n t code) (hsub : code ⊆ more) : Allotted n t more :=
  fun id hn hid hvar => hsub (h id hn hid hvar)

theorem of_symbols (h : Allotted n t code) (hs : t'.symbols = t.symbols) : Allotted n t' code := by
  intro id hn hid hvar
  rw [get_of_symbols hs] at hvar ⊢
  exact h id hn (hs ▸ hid) hvar

/-- One symbol is made. -/
theorem of_succ (hsize : t.symbols.size = n + 1)
    (h : (t.get n).IsVariable → .instr ⟨.allot, [(t.get n).rid]⟩ ∈ code) : Allotted n t code := by
  intro id hn hid
  obtain rfl : id = n := by omega
  exact h

end Allotted

/-- A change that makes no symbol, and one that makes a symbol that is no variable. -/
theorem SymbolTable.Change.kept_or_made (h : Change n ws t ws' t') : (t'.symbols.size = t.symbols.size ∧
      ∀ w ∈ ws', w ∈ ws ∨ ∃ id, (t.get id).rid = w ∧ (t.get id).isOpen = true) ∨
    ∃ sym, t' = (t.add sym).2 ∧ (∀ v, sym.detail ≠ .var v) ∧ Word.Below n sym.rid ∧
      (sym.rid ∈ ws ∨ ¬ Word.HasNumber sym.rid) ∧ ws' ⊆ ws := by
  have kept : ∀ {u : SymbolTable}, u.symbols.size = t.symbols.size → u.symbols.size = t.symbols.size ∧
      ∀ w ∈ ws, w ∈ ws ∨ ∃ id, (t.get id).rid = w ∧ (t.get id).isOpen = true :=
    fun hsize => ⟨hsize, fun w hw => .inl hw⟩
  have opened : ∀ {u : SymbolTable} {id : SymbolId}, u.symbols.size = t.symbols.size → (t.get id).isOpen = true →
      u.symbols.size = t.symbols.size ∧
        ∀ w ∈ (t.get id).rid :: ws, w ∈ ws ∨ ∃ id, (t.get id).rid = w ∧ (t.get id).isOpen = true := by
    intro u id hsize hopen
    refine ⟨hsize, fun w hw => ?_⟩
    rcases List.mem_cons.mp hw with rfl | hw
    · exact .inr ⟨id, rfl, hopen⟩
    · exact .inl hw
  cases h with
  | value | returned | permission | collected | constructor => exact .inl (kept (size_modify _ _ _))
  | fulfil id params hopen => exact .inl (opened (size_modify _ _ _) hopen)
  | openClass id hopen => exact .inl (opened (size_modify _ _ _) hopen)
  | base hcls hbase h =>
    refine .inl (kept (setBase_induction (P := fun u => u.symbols.size = t.symbols.size) h (size_modify _ _ _) ?_))
    exact fun u b hu => (size_modify _ _ _).trans hu
  | member hid hcls h =>
    rw [addMember_eq h]
    exact .inl (kept (size_modify _ _ _))
  | enter hlevel h =>
    refine .inl (kept ?_)
    rw [symbols_insertAt h]
    exact size_modify _ _ _
  | make sym hvar hcls hws hdue hwords =>
    exact .inr ⟨sym, rfl, hvar, hwords.rid, hdue, hws ▸ List.subset_append_right _ _⟩

/-- No variable is made without room. -/
theorem SymbolTable.Change.allotted (h : Change n ws t ws' t') : Allotted t.symbols.size t' [] := by
  obtain ⟨hsize, -⟩ | ⟨sym, rfl, hvar, -⟩ := h.kept_or_made
  · exact .of_size_le hsize.le
  · refine .of_succ (size_add t sym) fun hvariable => ?_
    rw [get_add_self] at hvariable
    obtain ⟨v, hv, -⟩ := hvariable
    exact absurd hv (hvar v)

/-! ## What a course appends -/

theorem CodeBuffer.eq_nil_of_append {b : CodeBuffer} (h : b.append code = b) : code = [] := by
  rw [append_eq] at h
  obtain ⟨annotate, root, inner⟩ := b
  cases inner with
  | nil => exact List.reverse_eq_nil_iff.mp (List.append_left_eq_self.mp (CodeBuffer.mk.inj h).2.1)
  | cons top rest =>
    exact List.reverse_eq_nil_iff.mp (List.append_left_eq_self.mp (List.cons.inj (CodeBuffer.mk.inj h).2.2).1)

namespace CodeBuffer

theorem position_append (b : CodeBuffer) (code : Code) :
    (b.append code).position = b.position + (Code.instructions code).length := by
  have both : ∀ top : Code, (Code.instructions (code.reverse ++ top)).length =
      (Code.instructions top).length + (Code.instructions code).length := by
    intro top
    rw [Code.instructions_append, List.length_append, Nat.add_comm]
    congr 1
    exact (((List.reverse_perm code).filterMap _).length_eq)
  rw [append_eq]
  obtain ⟨annotate, root, inner⟩ := b
  cases inner with
  | nil => exact both root
  | cons top rest =>
    simp only [position, List.flatMap_cons, List.length_append, List.length_cons, both]
    omega

theorem position_enter (b : CodeBuffer) : b.enter.position = b.position + 1 := by
  simp only [position, enter, List.flatMap_cons, List.length_append, List.length_cons, Code.instructions,
    List.filterMap_nil, List.length_nil, Nat.zero_add, Nat.add_assoc]

end CodeBuffer

/-- A symbol is made and entered in a scope. -/
theorem Appended.made_of_insertAt (h : (t.add sym).2.insertAt level (t.add sym).1 = .ok t') :
    t'.symbols.size = t.symbols.size + 1 ∧ t'.get t.symbols.size = { sym with level } := by
  have hsymbols : t'.symbols = ((t.add sym).2.modify (t.add sym).1 fun s => { s with level }).symbols :=
    symbols_insertAt h
  refine ⟨(congrArg Array.size hsymbols).trans ((size_modify _ _ _).trans (size_add _ _)), ?_⟩
  rw [get_of_symbols hsymbols, get_modify, if_pos]
  · rw [get_add_self]
  · exact ⟨rfl, by rw [size_add]; exact Nat.lt_succ_self _⟩

section
variable [Setting]

/-- The code that was written between two states: it is composed, and makes room for the variables that were
made in between. -/
structure Appended (home : Option Home) (s s' : Lowering) (code : Code) : Prop where
  out : s'.out = s.out.append code
  composed : Composed s'.table home s.out.position code
  allotted : Allotted s.table.symbols.size s'.table code

namespace Appended

theorem nothing (hout : s'.out = s.out) (hallotted : Allotted s.table.symbols.size s'.table []) :
    Appended home s s' [] :=
  ⟨hout, .nil, hallotted⟩

theorem item {i : CodeItem} (hout : s'.out = s.out.append [i]) (htable : s'.table = s.table)
    (hcomposed : Composed s.table home s.out.position [i]) : Appended home s s' [i] :=
  ⟨hout, htable ▸ hcomposed, .of_size_le (htable ▸ le_refl _)⟩

theorem trans (h : Appended home s u code) (hmore : Appended home u s' more) (hl : Later u.table s'.table) :
    Appended home s s' (code ++ more) where
  out := by rw [hmore.out, h.out, ← CodeBuffer.append_append]
  composed := by
    have hnext := hmore.composed
    rw [h.out, CodeBuffer.position_append] at hnext
    exact (h.composed.later hl).append hnext
  allotted := h.allotted.append hmore.allotted hl

/-- A variable is made, and room for it. -/
theorem define (hsym : sym.detail = .var v) (ht : (s.table.add sym).2.insertAt level (s.table.add sym).1 = .ok t)
    (hcode : v.const = false ∧ code = [] ∨ Initial sym.rid code) :
    Appended home s (((s.made sym).withTable t).withOut (s.out.append (.instr ⟨.allot, [sym.rid]⟩ :: code)))
      (.instr ⟨.allot, [sym.rid]⟩ :: code) := by
  obtain ⟨hsize, hget⟩ := made_of_insertAt ht
  have hword : sym.rid = (t.get s.table.symbols.size).rid := (congrArg Symbol.rid hget).symm
  refine ⟨rfl, ?_, .of_succ hsize fun _ => hword ▸ List.mem_cons_self ..⟩
  rw [hword] at hcode ⊢
  exact .define ((congrArg Symbol.detail hget).trans hsym) hcode

theorem initial {field : SymbolId} {object : String} {e : Evaluation} (h : Appended home e.start e.finish code)
    (hrun : Setting.evaluates e) (hfield : (e.finish.table.get field).detail = .var v) (hinit : v.init = some e.node)
    (hobject : Receives home e.finish.table v object) :
    Appended home e.start
      (e.finish.withOut (e.finish.out.emit .setField [object, (e.finish.table.get field).rid, e.value.raw]))
      (code ++ [CodeItem.instr ⟨.setField, [object, (e.finish.table.get field).rid, e.value.raw]⟩]) where
  out := by
    change e.finish.out.append [_] = _
    rw [h.out, ← CodeBuffer.append_append]
  composed := .initial e hrun ⟨rfl, h.out⟩ hfield hinit hobject h.composed
  allotted := h.allotted.mono (List.subset_append_left _ _)

theorem loop {labels : List String} (h : Appended home (s.withOut (s.out.emit .untilLoop labels)) u code) :
    Appended home s (u.withOut (u.out.emit .finish []))
      (.instr ⟨.untilLoop, labels⟩ :: (code ++ [CodeItem.instr ⟨.finish, []⟩])) where
  out := by
    have hout : u.out = (s.out.append [.instr ⟨.untilLoop, labels⟩]).append code := h.out
    change u.out.append [.instr ⟨.finish, []⟩] = _
    rw [hout, ← CodeBuffer.append_append, ← CodeBuffer.append_append]
    rfl
  composed := .loop (CodeBuffer.position_append s.out [.instr ⟨.untilLoop, labels⟩] ▸ h.composed)
  allotted := h.allotted.mono (List.subset_cons_of_subset _ (List.subset_append_left _ _))

/-- A function is written around the code of its body. -/
theorem function {v : Lowering} {id : SymbolId} {op : Opcode} {params : List String} {out : CodeBuffer} {written : Code}
    (hop : op = .func ∨ op = .funi) (hfun : (s.table.get id).function?.isSome = true)
    (enter : Appended (some ⟨id, []⟩) (s.within id) u []) (hentered : Later (s.within id).table u.table)
    (body : Appended (some ⟨id, params⟩) (u.withOut u.out.enter) v code) (hleft : Later u.table v.table)
    (hleave : v.out.leave? u.out.depth = some (written, out)) :
    Appended home s (s.behind (v.withOut (((out.emit op ((v.table.get id).rid :: params)).append written).emit .finish [])))
      (.instr ⟨op, (v.table.get id).rid :: params⟩ :: (code ++ [CodeItem.instr ⟨.finish, []⟩])) := by
  have hsame : (s.behind (v.withOut (((out.emit op ((v.table.get id).rid :: params)).append written).emit .finish
      []))).table.symbols = v.table.symbols := symbols_leaveTo _ _
  have hfun : (v.table.get id).function?.isSome = true := by
    have hlater : Later (s.within id).table v.table := hentered.trans hleft
    obtain ⟨f, hf⟩ := Option.isSome_iff_exists.mp hfun
    rw [Symbol.isSome_function?_of_core (hlater.core id (lt_size_of_function? hf))]
    exact hfun
  have hout : v.out = u.out.enter.append code := body.out
  rw [hout, CodeBuffer.leave?_enter_append] at hleave
  obtain ⟨rfl, rfl⟩ := Prod.mk.inj (Option.some.inj hleave)
  have hentry : u.out = s.out := enter.out
  have hbody : Composed v.table _ u.out.enter.position code := body.composed
  rw [hentry, CodeBuffer.position_enter] at hbody
  refine ⟨?_, (Composed.function hop hfun hbody).of_symbols hsame, ?_⟩
  · change ((u.out.append [.instr ⟨op, _⟩]).append code).append [.instr ⟨.finish, []⟩] = _
    rw [hentry, ← CodeBuffer.append_append, ← CodeBuffer.append_append]
    rfl
  · refine Allotted.of_symbols (t := v.table) ?_ hsame
    refine (enter.allotted.append body.allotted hleft).mono ?_
    exact List.subset_cons_of_subset _ (List.subset_append_left _ _)

end Appended

theorem Course.appended (h : Course home k ws s ws' s') (hk : k = true) (hplain : s.session.builtins.Plain) :
    ∃ code, Appended home s s' code := by
  induction h with
  | refl => exact ⟨[], .nothing rfl (.of_size_le (le_refl _))⟩
  | trans first next ih₁ ih₂ =>
    obtain ⟨a, ha⟩ := ih₁ rfl hplain
    obtain ⟨b, hb⟩ := ih₂ hk (first.steps.builtins ▸ hplain)
    exact ⟨a ++ b, ha.trans hb next.steps.later⟩
  | stop => cases hk
  | after _ aside ih =>
    obtain ⟨code, h⟩ := ih hk hplain
    exact ⟨code, aside.out.trans h.out, aside.table ▸ h.composed, aside.table ▸ h.allotted⟩
  | @note _ _ s text =>
    unfold Lowering.withOut CodeBuffer.note
    split
    · exact ⟨[.note text], .item rfl rfl (.note text)⟩
    · exact ⟨[], .nothing rfl (.of_size_le (le_refl _))⟩
  | forget | push | temps | label | number => exact ⟨[], .nothing rfl (.of_size_le (le_refl _))⟩
  | change h => exact ⟨[], .nothing rfl h.allotted⟩
  | @fresh _ ws s base v sym hrid hsym hthis =>
    refine ⟨[], .nothing rfl (.of_succ (size_add _ sym) fun hvar => ?_)⟩
    rw [show ((s.made sym).table.get s.table.symbols.size) = sym from get_add_self _ _] at hvar
    obtain ⟨v', hv', howner, hname⟩ := hvar
    cases hsym.symm.trans hv'
    exact absurd (hthis howner) hname
  | define sym hrid hsym howner hlevel hins hcode => exact ⟨_, .define hsym hins hcode⟩
  | @newClass _ ws s ws' base c t sym hrid hsym hnew hins =>
    have hsymbols : (t.registerType (s.table.add sym).1).symbols = t.symbols := (scopes_registerType _ _).2.2.1
    obtain ⟨hsize, hget⟩ := Appended.made_of_insertAt hins
    refine ⟨[], .nothing rfl (Allotted.of_symbols (.of_succ hsize fun hvar => ?_) hsymbols)⟩
    obtain ⟨v, hv, -⟩ := hget ▸ hvar
    cases hsym.symm.trans hv
  | stray => cases hk
  | write hop hwrites hset => exact ⟨_, .item rfl rfl (.write hop hwrites hset)⟩
  | initial e hrun hfield hinit hobject _ ih =>
    obtain ⟨code, h⟩ := ih rfl hplain
    exact ⟨_, h.initial hrun hfield hinit hobject⟩
  | bring hop => exact ⟨_, .item rfl rfl (.bring hop)⟩
  | generated he h hresult =>
    exact ⟨_, rfl, composed_emission hplain he h hresult, .of_size_le (le_refl _)⟩
  | loop _ ih =>
    obtain ⟨code, h⟩ := ih rfl hplain
    exact ⟨_, h.loop⟩
  | endless => cases hk
  | scope kind _ ih =>
    obtain ⟨code, h⟩ := ih hk hplain
    exact ⟨code, h.out, h.composed.of_symbols (symbols_leaveTo _ _), h.allotted.of_symbols (symbols_leaveTo _ _)⟩
  | inside _ _ ih | file _ _ ih =>
    obtain ⟨code, h⟩ := ih hk hplain
    exact ⟨code, h.out, h.composed, h.allotted⟩
  | function hop hfun enter hout body hleave hwords ih₁ ih₂ =>
    obtain ⟨a, ha⟩ := ih₁ rfl hplain
    obtain rfl : a = [] := CodeBuffer.eq_nil_of_append (ha.out.symm.trans hout)
    obtain ⟨code, h⟩ := ih₂ rfl (enter.steps.builtins ▸ hplain)
    exact ⟨_, .function hop hfun ha enter.steps.later h body.steps.later hleave⟩
  | headless => cases hk
  | broken => cases hk

end

end Frontend
