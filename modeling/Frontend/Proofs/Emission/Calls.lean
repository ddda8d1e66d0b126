import Frontend.Proofs.Course.Visit

/-!
# Calls of emitted code

A call passes as many arguments as the function it names has parameters, wherever the two stand. What
is called for its value is a function with a value; what is called without is a function without one,
or a constructor, whose value is the object that it was given.

A function of the source text that an accepted program calls has a body in the code, wherever it was declared. The one
exception are virtual methods that were only declared: nothing asks for them, and a call names them even where a class
below has a method in their place.
-/

namespace Frontend

variable {code : Code} {i : Instruction} {s after : Session} {p : Program} {src : Source} {files : FileTree}
  {annotate : Bool} {w : String}
variable {params args : List String}

namespace Instruction

/-- The word that a call names, and the words that it passes. The last operand of a call for a value is
where the value goes. -/
def callee? (i : Instruction) : Option (String × List String) :=
  match i.op, i.args with
  | .call, w :: args => some (w, args)
  | .invoke, w :: args => some (w, args.dropLast)
  | _, _ => none

/-- The raw id and the parameters of a function that begins here. -/
def header? (i : Instruction) : Option (String × List String) :=
  match i.op, i.args with
  | .func, w :: params | .funi, w :: params => some (w, params)
  | _, _ => none

end Instruction

theorem Code.mem_instructions : i ∈ code.instructions ↔ .instr i ∈ code := by
  refine List.mem_filterMap.trans ⟨?_, fun h => ⟨_, h, rfl⟩⟩
  rintro ⟨item, hmem, hitem⟩
  obtain rfl : item = .instr i := by
    cases item <;> cases hitem
    rfl
  exact hmem

/-- A word that is the raw id of a constructor. -/
def SymbolTable.IsConstructorRid (t : SymbolTable) (w : String) : Prop :=
  ∃ id f, (t.get id).function? = some f ∧ f.kind = .construct ∧ (t.get id).rid = w

namespace Calls

open SymbolTable

variable {n : Nat} {t : SymbolTable}

/-! ## Where lowering starts -/

theorem callable_empty : Callable 0 {} where
  symbols := fun _ h => nomatch h
  own := fun i h hi => absurd (lt_size_of_callHead? hi) (Nat.not_lt_zero i)
  names := by
    intro scope hscope e he
    rw [List.mem_singleton.mp hscope] at he
    exact nomatch he

/-- The built-in functions may be made: their names have no numbers. -/
theorem fitting_builtin (h : Callable n t) {e : Builtin} (he : e ∈ Builtin.standard) :
    Fitting n t (Session.builtinSymbol e) := by
  have unnumbered : ¬ Word.HasNumber e.name :=
    Word.not_hasNumber_of_constant (plain_and_constant_of_standard he).2
  have builtin : ∀ f, (Session.builtinSymbol e).function? = some f →
      f.isBuiltin = true ∧ f.params = [] ∧ f.declared = false := by
    rintro f ⟨⟩
    refine ⟨?_, rfl, rfl⟩
    unfold FunctionInfo.isBuiltin
    cases e.pure <;> rfl
  refine fitting_unnumbered h unnumbered ⟨?_, fun f hf => ?_, fun _ hc => (nomatch hc)⟩ ?_ ?_
  · exact fun m hm => absurd ⟨m, hm⟩ unnumbered
  · obtain ⟨hb, hp, hd⟩ := builtin f hf
    refine ⟨fun p hmem => ?_, fun _ => ⟨unnumbered, hd⟩, fun h => ?_⟩
    · rw [hp] at hmem
      exact nomatch hmem
    · rw [hb] at h
      exact nomatch h
  · intro head hhead
    obtain ⟨f, hf, rfl⟩ := Symbol.exists_function_of_callHead? hhead
    exact (builtin f hf).1
  · intro f hf p hmem
    rw [(builtin f hf).2.1] at hmem
    exact nomatch hmem

theorem callable_enterBuiltins (hb : s.builtins = .standard) (h : Callable 0 s.symbols) :
    Callable 0 s.enterBuiltins.symbols := by
  unfold Session.enterBuiltins
  dsimp only
  generalize s.builtins.names = names
  generalize s.symbols = t at h
  rw [hb]
  induction names generalizing t with
  | nil => exact h
  | cons name names ih =>
    refine ih _ ?_
    dsimp only
    split
    · next e hfind _ =>
      have made := h.add (fitting_builtin h (List.mem_of_find?_eq_some hfind))
      have known : Reachable (t.add (Session.builtinSymbol e)).2 (t.add (Session.builtinSymbol e)).1 := by
        refine ⟨by rw [size_add]; exact Nat.lt_succ_self _, fun head hhead => ?_⟩
        rw [get_add_new] at hhead
        cases hhead
        exact fun e => nomatch e
      cases hi : (t.add (Session.builtinSymbol e)).2.insertGlobal (t.add (Session.builtinSymbol e)).1
        with
      | error d => exact made
      | ok t' => exact (made.insertAt known hi).1
    · exact h

/-! ## Whole programs -/

section
variable (hb : s.builtins = .standard) (hs : s.supply = {}) (ht : s.symbols = {})
  (h : s.compile files annotate p src = (.ok code, after))
include hb hs ht h

/-- A program that compiles is lowered from the state in which only the built-in functions are there to a sound one,
in which nothing that was declared is left to be defined. -/
theorem exists_final_of_compile :
    ∃ final : Lowering, Sound final ∧ Moves { session := s.enterBuiltins, files, out := { annotate } } final ∧
      (∀ id ∈ final.declared, Session.undefined? final.table id = none) ∧ final.session = after ∧
      final.out.code = code := by
  have start : Sound { session := s.enterBuiltins, files, out := { annotate } } := by
    refine ⟨hb, ?_, fun _ ho => (nomatch ho), fun _ hi => (nomatch hi)⟩
    rw [show Lowering.supply _ = s.supply from rfl, hs]
    exact callable_enterBuiltins hb (by rw [ht]; exact callable_empty)
  obtain ⟨final, hlower, hcode, hafter⟩ := Session.compile_eq_ok.mp h
  obtain ⟨hunit, hdefined⟩ := Session.lower_eq_ok.mp hlower
  obtain ⟨hfinal, hmoves, -⟩ := Tame.unit (visit_ok _) _ start _ final hunit
  exact ⟨final, hfinal, hmoves, List.findSome?_eq_none_iff.mp hdefined, hafter, hcode⟩

/-- Every instruction of a compiled program calls or defines a function the way the table knows it. -/
theorem instructionOk_of_compile : Callable after.supply.rids after.symbols ∧
      ∀ i ∈ code.instructions, InstructionOk after.symbols i := by
  obtain ⟨final, hfinal, -, -, rfl, rfl⟩ := exists_final_of_compile hb hs ht h
  refine ⟨hfinal.table, fun i hi => hfinal.code i ?_⟩
  exact List.mem_append_left _ (List.mem_reverse.mp (Code.mem_instructions.mp hi))

end

theorem exists_heads_of_header? (h : InstructionOk t i) (hi : i.header? = some (w, params)) :
    ∃ returnsValue, Heads t w params.length returnsValue ∧ i.op = if returnsValue then .funi else .func := by
  obtain ⟨op, args⟩ := i
  unfold Instruction.header? at hi
  split at hi
  · next hop hargs =>
    cases hi
    obtain ⟨rfl, rfl⟩ : op = .func ∧ args = w :: params := ⟨hop, hargs⟩
    exact ⟨false, h, rfl⟩
  · next hop hargs =>
    cases hi
    obtain ⟨rfl, rfl⟩ : op = .funi ∧ args = w :: params := ⟨hop, hargs⟩
    exact ⟨true, h, rfl⟩
  · cases hi

theorem leads_of_callee? (h : InstructionOk t i) (hi : i.callee? = some (w, args)) :
    Leads t w fun _ head => args.length = head.arity ∧ (i.op = .invoke → head.returnsValue = true) ∧
      (i.op = .call → head.returnsValue = false ∨ head.kind = .construct) := by
  obtain ⟨op, operands⟩ := i
  unfold Instruction.callee? at hi
  split at hi
  · next hop hargs =>
    cases hi
    obtain ⟨rfl, rfl⟩ : op = .call ∧ operands = w :: args := ⟨hop, hargs⟩
    exact .imp h fun _ _ _ ⟨hlen, hvalue⟩ => ⟨hlen, fun e => (nomatch e), fun _ => hvalue⟩
  · next all hop hargs =>
    cases hi
    obtain ⟨rfl, rfl⟩ : op = .invoke ∧ operands = w :: all := ⟨hop, hargs⟩
    refine .imp h fun _ _ _ ⟨hlen, hvalue⟩ => ⟨?_, fun _ => hvalue, fun e => nomatch e⟩
    rw [List.length_dropLast, hlen, Nat.add_sub_cancel]
  · cases hi

/-- A call and the head of the function that it names agree: the raw id that they share belongs to one
function only. -/
theorem agree_of_instructionOk (h : Callable n t) {call header : Instruction} (hcall : InstructionOk t call)
    (hheader : InstructionOk t header) (hc : call.callee? = some (w, args)) (hh : header.header? = some (w, params)) :
    args.length = params.length ∧ (call.op = .invoke → header.op = .funi) ∧
      (call.op = .call → header.op = .func ∨ t.IsConstructorRid w) := by
  obtain ⟨_, ⟨id, head, hid, rfl, hb, harity, rfl⟩, hop⟩ := exists_heads_of_header? hheader hh
  obtain ⟨j, hj, hrid, hP⟩ := leads_of_callee? hcall hc (h.hasNumber hid hb)
  obtain rfl : j = id := h.own id head hid hb j hj hrid
  obtain ⟨hlen, hinvoke, hplain⟩ := hP head hid
  refine ⟨hlen.trans harity, fun e => ?_, fun e => ?_⟩
  · rw [hop, hinvoke e, if_pos rfl]
  · rcases hplain e with hvalue | hkind
    · left
      rw [hop, hvalue]
      exact if_neg Bool.false_ne_true
    · right
      obtain ⟨f, hf, rfl⟩ := Symbol.exists_function_of_callHead? hid
      exact ⟨j, f, hf, hkind, rfl⟩

end Calls

/-- In accepted programs, calls agree with the heads of the functions that they name. -/
theorem calls_agree_of_compileSource {files : FileTree} {annotate : Bool} {imports : Option Imports}
    {src : Source} {file : String} {code : Code}
    (h : compileSource files { annotate, imports } src file = .ok code) :
    ∃ program after, Program.ofSource src file = .ok program ∧
      (Session.ofOptions { annotate, imports }).compile files annotate program src =
        (.ok code, after) ∧
      ∀ call ∈ code.instructions, ∀ header ∈ code.instructions, ∀ w args params,
        call.callee? = some (w, args) → header.header? = some (w, params) →
        args.length = params.length ∧ (call.op = .invoke → header.op = .funi) ∧
          (call.op = .call → header.op = .func ∨ after.symbols.IsConstructorRid w) := by
  obtain ⟨program, hprogram, hcode⟩ := exists_program_of_compileSource h
  obtain ⟨table, ok⟩ := Calls.instructionOk_of_compile rfl rfl rfl (Prod.ext hcode rfl)
  refine ⟨program, _, hprogram, Prod.ext hcode rfl, fun call hcall header hheader w args params hc hh => ?_⟩
  exact Calls.agree_of_instructionOk table (ok call hcall) (ok header hheader) hc hh

/-- A program that calls a declared function before it is defined, a constructor and a method. -/
def callSource : Source :=
  Source.ofString <|
    "fun add(a, *more)\nclass P \x7b\nvar x = 1\nfun init(x) \x7b this.x = x \x7d\n" ++
    "fun get(k): int \x7b return add(this.x, k, 2) \x7d\n\x7d\n" ++
    "fun add(a, *more) \x7b return a \x7d\nvar p = P(3)\nvar q = p.get(4)\n"

/-- Two calls of the program, each with the head that it names. -/
def callSourceInstructions : List Instruction :=
  [⟨.invoke, ["f_add_2", "%t0", "%t1", "%t2"]⟩, ⟨.funi, ["f_add_2", "a_11", "more_12"]⟩,
    ⟨.call, ["f_P_init_6", "%t3", "3"]⟩, ⟨.funi, ["f_P_init_6", "this_9", "x_5"]⟩]

theorem exists_code_callSource : ∃ code, compileSource {} {} callSource "main" = .ok code ∧
      ∀ i ∈ callSourceInstructions, i ∈ code.instructions := by
  have accepted : (compileSource {} {} callSource "main").toOption.any
      (fun code => callSourceInstructions.all (code.instructions.contains ·)) = true := by
    rw [compileSource_named {} Registry.names_standard, callSource, Source.ofString_parts]
    decide +kernel
  obtain ⟨code, hcode, hcalls⟩ := exists_ok_of_any accepted
  exact ⟨code, hcode, fun i hi => List.contains_iff_mem.mp (List.all_eq_true.mp hcalls i hi)⟩

theorem calls_agree_of_callSource :
    ∃ code, compileSource {} {} callSource "main" = .ok code ∧
      (∀ i ∈ callSourceInstructions, i ∈ code.instructions) ∧
      ∃ program after, Program.ofSource callSource "main" = .ok program ∧
        (Session.ofOptions {}).compile {} false program callSource = (.ok code, after) ∧
        ∀ call ∈ code.instructions, ∀ header ∈ code.instructions, ∀ w args params,
          call.callee? = some (w, args) → header.header? = some (w, params) →
          args.length = params.length ∧ (call.op = .invoke → header.op = .funi) ∧
            (call.op = .call → header.op = .func ∨ after.symbols.IsConstructorRid w) := by
  obtain ⟨code, h, present⟩ := exists_code_callSource
  exact ⟨code, h, present, calls_agree_of_compileSource h⟩

/-! ## Called functions are there -/

namespace Calls

open SymbolTable

/-- At the beginning nothing is owed: only built-in functions are there. -/
theorem settled_begin (ht : s.symbols = {}) (declared : List SymbolId) (items : List CodeItem) :
    Settled [] s.enterBuiltins.symbols declared items := by
  intro id deferred virtual hid
  suffices builtin : ∀ id standing, (s.enterBuiltins.symbols.get id).standing? = some standing → standing.1 = true by
    cases builtin id _ hid
  refine Session.enterBuiltins_induction
    (P := fun t => ∀ id standing, (t.get id).standing? = some standing → standing.1 = true) ?_ ?_ ?_
  · rw [ht]
    rintro id standing ⟨⟩
  · intro e _ t hold id standing hid
    by_cases hne : id = t.symbols.size
    · rw [hne, get_add_self] at hid
      cases hid
      unfold FunctionInfo.isBuiltin
      cases e.pure <;> rfl
    · rw [get_add_of_ne t _ hne] at hid
      exact hold id standing hid
  · intro t id t' hold hinsert other standing hother
    rw [(alike_insertAt hinsert).standing] at hother
    exact hold other standing hother

/-- Behind a program that compiles, every function of the source text has a head, except for virtual ones that were
only declared. -/
theorem exists_header_of_compile (hb : s.builtins = .standard) (hs : s.supply = {}) (ht : s.symbols = {})
    (h : s.compile files annotate p src = (.ok code, after)) {id : SymbolId} {f : FunctionInfo}
    (hf : (after.symbols.get id).function? = some f) (hwritten : f.isBuiltin = false) :
    (∃ header ∈ code.instructions, ∃ params, header.header? = some ((after.symbols.get id).rid, params)) ∨
      (f.declared = true ∧ f.virtual = true) := by
  obtain ⟨final, hfinal, hmoves, hasked, rfl, rfl⟩ := exists_final_of_compile hb hs ht h
  have closed : final.out.inner = [] := List.length_eq_zero_iff.mp hmoves.depth
  have standing : (final.table.get id).standing? = some (false, f.declared, f.virtual) := by
    rw [Symbol.standing?, hf, ← hwritten]
    rfl
  obtain howed | ⟨hdeclared, hvirtual | hnoted⟩ | ⟨op, params, hop, hmem⟩ :=
    hmoves.settles [] (settled_begin ht _ _) id _ _ standing
  · exact absurd howed List.not_mem_nil
  · exact .inr ⟨hdeclared, hvirtual⟩
  · right
    refine ⟨hdeclared, ?_⟩
    have hnone := hasked id hnoted
    have hdetail : (final.table.get id).detail = .function f := Symbol.detail_of_function hf
    simp only [Session.undefined?, hdetail, hdeclared, Bool.true_and] at hnone
    by_contra hvirtual
    rw [if_pos (by simpa using hvirtual)] at hnone
    cases hnone
  · left
    refine ⟨⟨op, (final.table.get id).rid :: params⟩, ?_, params, ?_⟩
    · refine Code.mem_instructions.mpr (List.mem_reverse.mpr ?_)
      unfold CodeBuffer.items at hmem
      rwa [closed, List.flatten_nil, List.append_nil] at hmem
    · obtain rfl | rfl := hop
      · rfl
      · rfl

end Calls

/-- In accepted programs, what is called has a head in the code, unless it is a virtual method that was only
declared. -/
theorem callee_defined_of_compileSource {files : FileTree} {annotate : Bool} {imports : Option Imports}
    {src : Source} {file : String} {code : Code}
    (h : compileSource files { annotate, imports } src file = .ok code) :
    ∃ program after, Program.ofSource src file = .ok program ∧
      (Session.ofOptions { annotate, imports }).compile files annotate program src = (.ok code, after) ∧
      ∀ call ∈ code.instructions, ∀ w args, call.callee? = some (w, args) →
        ∀ id f, (after.symbols.get id).function? = some f → f.isBuiltin = false → (after.symbols.get id).rid = w →
          (∃ header ∈ code.instructions, ∃ params, header.header? = some (w, params)) ∨
            (f.declared = true ∧ f.virtual = true) := by
  obtain ⟨program, hprogram, hcode⟩ := exists_program_of_compileSource h
  refine ⟨program, _, hprogram, Prod.ext hcode rfl, fun call _ w args _ id f hf hwritten hrid => ?_⟩
  rw [← hrid]
  exact Calls.exists_header_of_compile rfl rfl rfl (Prod.ext hcode rfl) hf hwritten

theorem callee_defined_of_callSource :
    ∃ code, compileSource {} {} callSource "main" = .ok code ∧ (∀ i ∈ callSourceInstructions, i ∈ code.instructions) ∧
      ∃ program after, Program.ofSource callSource "main" = .ok program ∧
        (Session.ofOptions {}).compile {} false program callSource = (.ok code, after) ∧
        ∀ call ∈ code.instructions, ∀ w args, call.callee? = some (w, args) →
          ∀ id f, (after.symbols.get id).function? = some f → f.isBuiltin = false → (after.symbols.get id).rid = w →
            (∃ header ∈ code.instructions, ∃ params, header.header? = some (w, params)) ∨
              (f.declared = true ∧ f.virtual = true) := by
  obtain ⟨code, h, present⟩ := exists_code_callSource
  exact ⟨code, h, present, callee_defined_of_compileSource h⟩

/-- A program that calls a virtual method by way of a class that only declares it. A class below defines it. -/
def shapeSource : Source :=
  Source.ofString <|
    "class A \x7b\nfun area(): int virtual\n\x7d\n" ++
    "class B: A \x7b\nfun area(): int overwrite \x7b return 1 \x7d\n\x7d\n" ++
    "var a: A = B()\nvar n = a.area()\n"

/-- The call names the method of the class above, which has no head. -/
theorem undefined_callee_of_shapeSource :
    ∃ program code after id f, Program.ofSource shapeSource "main.kite" = .ok program ∧
      (Session.ofOptions {}).compile {} false program shapeSource = (.ok code, after) ∧
      (after.symbols.get id).function? = some f ∧ f.isBuiltin = false ∧
      ⟨.invoke, [(after.symbols.get id).rid, "a_9", "%t1"]⟩ ∈ code.instructions ∧
      ∀ header ∈ code.instructions, ∀ params, header.header? ≠ some ((after.symbols.get id).rid, params) := by
  have refuted : (Program.ofSource shapeSource "main.kite").toOption.any (fun program =>
      let result := (Session.ofOptions {}).compile {} false program shapeSource
      result.1.toOption.any fun code =>
        (result.2.symbols.get 13).function?.map (·.isBuiltin) == some false &&
          code.instructions.contains ⟨.invoke, [(result.2.symbols.get 13).rid, "a_9", "%t1"]⟩ &&
          code.instructions.all fun header => header.header?.all fun h => h.1 != (result.2.symbols.get 13).rid) =
      true := by
    simp only [Session.compile_named (Session.ofOptions {}) Registry.names_standard]
    rw [shapeSource, Source.ofString_parts]
    decide +kernel
  obtain ⟨program, hprogram, hresult⟩ := exists_ok_of_any refuted
  obtain ⟨code, hcode, hchecked⟩ := exists_ok_of_any hresult
  simp only [Bool.and_eq_true] at hchecked
  obtain ⟨⟨hfunction, hcall⟩, hheaders⟩ := hchecked
  obtain ⟨f, hf, hwritten⟩ := Option.map_eq_some_iff.mp (eq_of_beq hfunction)
  refine ⟨program, code, _, 13, f, hprogram, Prod.ext hcode rfl, hf, hwritten, ?_, ?_⟩
  · exact List.contains_iff_mem.mp hcall
  · intro header hheader params hhead
    have hne := List.all_eq_true.mp hheaders header hheader
    rw [hhead] at hne
    simp at hne

end Frontend
