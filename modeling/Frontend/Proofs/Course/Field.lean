import Frontend.Proofs.Code.Place
import Frontend.Proofs.Course.Constant
import Frontend.Proofs.Trace.Basic

/-!
# Where fields are set

A constant field is set in the constructors of its class. Anywhere else it only gets its initial value: a
static field in its class, any other field in the object of a constructor of its class or of a class below.
-/

namespace Frontend

open Course SymbolTable

variable {op : Opcode} {v : VariableInfo}
variable {args ws : List String} {n : Nat} {field cls : SymbolId}

/-- Instructions that close all frames that they open, and no other ones. -/
def Whole (is : List Instruction) : Prop :=
  ∀ index frames rest, placesFrom index frames (is ++ rest) =
    placesFrom index frames is ++ placesFrom (index + is.length) frames rest

namespace Whole

variable {a b body : List Instruction} {head : Instruction} {frames : List Frame} {index : Nat}

theorem nil : Whole [] := fun _ _ _ => rfl

theorem append (ha : Whole a) (hb : Whole b) : Whole (a ++ b) := by
  intro index frames rest
  rw [List.append_assoc, ha, hb, ha, List.append_assoc, List.length_append, Nat.add_assoc]

theorem single (hopen : op.opensFrame = false) (hclose : op ≠ .finish) : Whole [⟨op, args⟩] := by
  intro index frames rest
  have hbehind : Frame.behind index ⟨op, args⟩ frames = frames := by
    rw [Frame.behind, if_neg (by simp [hopen]), if_neg hclose]
  rw [List.singleton_append, placesFrom, hbehind]
  rfl

theorem placesFrom_framed (hbody : Whole body) (hopen : head.op.opensFrame = true) (rest : List Instruction) :
    placesFrom index frames (head :: (body ++ ⟨.finish, []⟩ :: rest)) =
      ⟨index, frames, head⟩ :: (placesFrom (index + 1) ((index, head) :: frames) body ++
        ⟨index + 1 + body.length, (index, head) :: frames, ⟨.finish, []⟩⟩ ::
          placesFrom (index + 1 + body.length + 1) frames rest) := by
  rw [placesFrom, Frame.behind, if_pos hopen, hbody]
  rfl

theorem framed (hbody : Whole body) (hopen : head.op.opensFrame = true) :
    Whole (head :: (body ++ [⟨.finish, []⟩])) := by
  intro index frames rest
  rw [List.cons_append, List.append_assoc, List.singleton_append, placesFrom_framed hbody hopen,
    placesFrom_framed hbody hopen]
  simp [placesFrom, Nat.add_assoc, Nat.add_comm 1]

end Whole

/-- Frames that are open in a function, or outside of every function. -/
def Around (t : SymbolTable) (frames : List Frame) : Option Home → Prop
  | none => True
  | some h => ∃ index op, Frame.function? frames = some (index, ⟨op, (t.get h.function).rid :: h.params⟩)

variable {home : Option Home} {t : SymbolTable} {code a b : Code} {index : Nat} {frames : List Frame} {p : Place}

/-- Operations that neither open a frame nor close one. -/
theorem Course.opensFrame_of_isQuiet (h : isQuiet op = true) : op.opensFrame = false ∧ op ≠ .finish := by
  cases op <;> first | exact ⟨rfl, by decide⟩ | cases h

theorem Course.opensFrame_of_brings (h : brings op = true) : op.opensFrame = false ∧ op ≠ .finish := by
  cases op <;> first | exact ⟨rfl, by decide⟩ | cases h

theorem Course.opensFunction_of_head (h : op = .func ∨ op = .funi) : op.opensFunction = true := by
  rcases h with rfl | rfl <;> rfl

theorem Code.instructions_framed (head : Instruction) (body : Code) :
    Code.instructions (.instr head :: (body ++ [CodeItem.instr ⟨.finish, []⟩])) =
      head :: (Code.instructions body ++ [⟨.finish, []⟩]) := by
  rw [Code.instructions_instr, Code.instructions_append]
  rfl

/-- A field that is set in a frame is set in its body. -/
theorem mem_body_of_mem_framed (hbody : Whole (Code.instructions a)) (hopen : op.opensFrame = true)
    (hother : op ≠ .setField)
    (hp : p ∈ placesFrom index frames (Code.instructions (.instr ⟨op, args⟩ :: (a ++ [CodeItem.instr ⟨.finish, []⟩]))))
    (hop : p.instr.op = .setField) :
    p ∈ placesFrom (index + 1) ((index, ⟨op, args⟩) :: frames) (Code.instructions a) := by
  rw [Code.instructions_framed, hbody.placesFrom_framed hopen] at hp
  rcases List.mem_cons.mp hp with rfl | hp
  · exact absurd hop hother
  · refine (List.mem_append.mp hp).resolve_right fun hfinish => ?_
    cases List.mem_singleton.mp hfinish
    cases hop

/-- Room for a variable, and its first value. -/
theorem Course.instructions_initial {w : String} (h : v.const = false ∧ code = [] ∨ Initial w code) :
    code = [] ∨ ∃ op raw, (op = .put ∨ op = .copy) ∧ code = [.instr ⟨op, [raw, w]⟩] := by
  rcases h with ⟨-, rfl⟩ | ⟨op, raw, hop, -, rfl⟩
  · exact .inl rfl
  · exact .inr ⟨op, raw, hop, rfl⟩

/-- No other field has the word of a constant one. -/
theorem Apart.field_eq (h : Apart n ws t) {other : SymbolId} {w : VariableInfo} (hv : (t.get field).detail = .var v)
    (hconst : v.const = true) (hw : (t.get other).detail = .var w) (hrid : (t.get other).rid = (t.get field).rid) :
    other = field :=
  have hfield := lt_size_of_const hv hconst
  h.fields field hfield other (h.lt_size_of_rid hfield hv hrid) v w hv hw hrid

/-- The innermost function around a place, and the words of its parameters. -/
def Place.InFunction (p : Place) (t : SymbolTable) (f : FunctionInfo) (params : List String) : Prop :=
  ∃ index op id, p.function? = some (index, ⟨op, (t.get id).rid :: params⟩) ∧ (t.get id).function? = some f

theorem Around.inFunction {h : Home} {f : FunctionInfo} (hhome : Around t p.frames (some h))
    (hf : (t.get h.function).function? = some f) : p.InFunction t f h.params := by
  obtain ⟨index, op, hframe⟩ := hhome
  exact ⟨index, op, h.function, hframe, hf⟩

/-- In code that begins behind so many instructions, the evaluation writes what comes right in front of the place. -/
def Evaluation.InFront (e : Evaluation) (index : Nat) (code : Code) (p : Place) : Prop :=
  ∃ pre value post, code = pre ++ value ++ CodeItem.instr p.instr :: post ∧
    e.Writes (index + (Code.instructions pre).length) value ∧ index + (Code.instructions (pre ++ value)).length = p.index

section
variable [Setting]

/-- The evaluation gives a field its initial value. -/
structure GivesInitial (t : SymbolTable) (home : Option Home) (object word raw : String) (e : Evaluation) : Prop where
  run : Setting.evaluates e
  value : e.value.raw = raw
  exists_field : ∃ field v, (t.get field).detail = .var v ∧ (t.get field).rid = word ∧ v.init = some e.node ∧
    Receives home t v object

/-- A place in code that begins at an index, where a field is set that may be set there, or that gets its initial
value there. -/
def Sets (t : SymbolTable) (index : Nat) (code : Code) (p : Place) : Prop :=
  ∃ object word raw home, p.instr = ⟨.setField, [object, word, raw]⟩ ∧ Around t p.frames home ∧
    (Settable home t word ∨ ∃ e : Evaluation, GivesInitial t home object word raw e ∧ e.InFront index code p)

theorem Sets.inFront (h : Sets t index a p) : Sets t index (a ++ b) p := by
  obtain ⟨object, word, raw, home, hp, hhome, hset⟩ := h
  refine ⟨object, word, raw, home, hp, hhome, hset.imp_right ?_⟩
  rintro ⟨e, hinitial, pre, value, post, rfl, hwrites, hindex⟩
  exact ⟨e, hinitial, pre, value, post ++ b, by simp, hwrites, hindex⟩

theorem Sets.behind (h : Sets t (index + (Code.instructions a).length) b p) : Sets t index (a ++ b) p := by
  obtain ⟨object, word, raw, home, hp, hhome, hset⟩ := h
  refine ⟨object, word, raw, home, hp, hhome, hset.imp_right ?_⟩
  have moved : ∀ code, index + (Code.instructions (a ++ code)).length =
      index + (Code.instructions a).length + (Code.instructions code).length := by
    intro code
    rw [Code.instructions_append, List.length_append, Nat.add_assoc]
  rintro ⟨e, hinitial, pre, value, post, rfl, hwrites, hindex⟩
  refine ⟨e, hinitial, a ++ pre, value, post, by simp, (moved pre).symm ▸ hwrites, ?_⟩
  rw [List.append_assoc, moved]
  exact hindex

theorem Sets.framed {head : Instruction} (h : Sets t (index + 1) a p) :
    Sets t index (.instr head :: (a ++ [CodeItem.instr ⟨.finish, []⟩])) p :=
  Sets.behind (a := [.instr head]) h.inFront

theorem Composed.whole (h : Composed t home index code) : Whole (Code.instructions code) := by
  induction h with
  | nil | note => exact .nil
  | append _ _ iha ihb =>
    rw [Code.instructions_append]
    exact iha.append ihb
  | write hop =>
    obtain ⟨hopen, hclose⟩ := opensFrame_of_isQuiet hop
    exact .single hopen hclose
  | bring hop =>
    obtain ⟨hopen, hclose⟩ := opensFrame_of_brings hop
    exact .single hopen hclose
  | initial _ _ _ _ _ _ _ ih =>
    rw [Code.instructions_append]
    exact ih.append (.single rfl (by decide))
  | define _ hcode =>
    obtain rfl | ⟨op, raw, rfl | rfl, rfl⟩ := instructions_initial hcode
    · exact .single rfl (by decide)
    all_goals exact Whole.append (a := [_]) (.single rfl (by decide)) (.single rfl (by decide))
  | loop _ ih =>
    rw [Code.instructions_framed]
    exact ih.framed rfl
  | function hop _ _ ih =>
    rw [Code.instructions_framed]
    exact ih.framed (opensFrame_of_opensFunction (opensFunction_of_head hop))

/-- Every place of composed code where a field is set. -/
theorem Composed.sets (h : Composed t home index code) (hhome : Around t frames home) :
    ∀ p ∈ placesFrom index frames (Code.instructions code), p.instr.op = .setField → Sets t index code p := by
  induction h generalizing frames with
  | nil | note => exact fun p hp => absurd hp List.not_mem_nil
  | append ha _ iha ihb =>
    intro p hp hop
    rw [Code.instructions_append, ha.whole] at hp
    rcases List.mem_append.mp hp with hp | hp
    · exact (iha hhome p hp hop).inFront
    · exact (ihb hhome p hp hop).behind
  | write hop hwrites hset =>
    intro p hp hop
    cases List.mem_singleton.mp hp
    obtain ⟨object, word, raw, rfl, hmay⟩ := hset hop
    exact ⟨object, word, raw, _, congrArg (Instruction.mk · _) hop, hhome, .inl hmay⟩
  | bring hop =>
    intro p hp hset
    cases List.mem_singleton.mp hp
    cases (hset ▸ hop : brings .setField = true)
  | @initial home k field v object code e hrun hwrites hfield hinit hobject h ih =>
    intro p hp hop
    rw [Code.instructions_append, h.whole] at hp
    rcases List.mem_append.mp hp with hp | hp
    · exact (ih hhome p hp hop).inFront
    · cases List.mem_singleton.mp hp
      exact ⟨_, _, _, home, rfl, hhome, .inr ⟨e, ⟨hrun, rfl, field, v, hfield, rfl, hinit, hobject⟩,
        [], code, [], rfl, hwrites, rfl⟩⟩
  | define _ hcode =>
    intro p hp hop
    obtain rfl | ⟨op, raw, rfl | rfl, rfl⟩ := instructions_initial hcode
    · cases List.mem_singleton.mp hp
      cases hop
    all_goals
      rcases List.mem_cons.mp hp with rfl | hp
      · cases hop
      · cases List.mem_singleton.mp hp
        cases hop
  | @loop home k labels body h ih =>
    intro p hp hop
    have hbody := mem_body_of_mem_framed h.whole rfl (by decide) hp hop
    exact (@ih ((k, ⟨.untilLoop, labels⟩) :: frames) hhome p hbody hop).framed
  | @function home k op id params body hopens hfun h ih =>
    intro p hp hop
    have hfunction := opensFunction_of_head hopens
    have hother : op ≠ .setField := by rcases hopens with rfl | rfl <;> decide
    refine (ih ?_ p
      (mem_body_of_mem_framed h.whole (opensFrame_of_opensFunction hfunction) hother hp hop) hop).framed
    exact ⟨k, op, Frame.function?_func hfunction _ _ _⟩

/-- A constant field of a class is set in a constructor of the class, or it gets its initial value, the word to which
its initial expression is evaluated right in front: a static field in its class, any other one in the object of the
constructor around, which belongs to the class or to a class below. -/
def ConstantSet (occurs : Evaluation → Prop) (t : SymbolTable) (code : Code) (p : Place) (object raw : String)
    (v : VariableInfo) (cls : SymbolId) : Prop :=
  (∃ f params, p.InFunction t f params ∧ f.kind = .construct ∧ f.owner = some cls) ∨
    ∃ e : Evaluation, occurs e ∧ v.init = some e.node ∧ e.value.raw = raw ∧ e.InFront 0 code p ∧
      (v.static = true ∧ object = (t.get cls).rid ∨
        v.static = false ∧ ∃ f params below, p.InFunction t f params ∧ f.kind = .construct ∧ f.owner = some below ∧
          params.head? = some object ∧ cls ∈ t.chain (some below))

/-- Constant fields of composed code. -/
theorem Composed.constantSet (h : Composed t none 0 code) (hapart : Apart n ws t)
    (hp : p ∈ places (Code.instructions code)) {object raw : String}
    (hinstr : p.instr = ⟨.setField, [object, (t.get field).rid, raw]⟩) (hv : (t.get field).detail = .var v)
    (hconst : v.const = true) (howner : v.owner = some cls) :
    ConstantSet Setting.evaluates t code p object raw v cls := by
  obtain ⟨object', word, raw', home, hsame, hhome, hset⟩ := h.sets trivial p hp (by rw [hinstr])
  obtain ⟨rfl, rfl, rfl⟩ : object' = object ∧ word = (t.get field).rid ∧ raw' = raw := by
    simpa using hsame.symm.trans hinstr
  rcases hset with ⟨field', v', hv', hrid, hmay⟩ | ⟨e, ⟨hrun, hvalue, field', v', hv', hrid, hinit, hreceives⟩, hfront⟩
  all_goals
    obtain rfl := hapart.field_eq hv hconst hv' hrid
    cases hv.symm.trans hv'
  · rcases hmay with hmay | ⟨here, f, rfl, hf, hkind, hfowner⟩
    · exact absurd (hmay.symm.trans hconst) Bool.false_ne_true
    · exact .inl ⟨f, _, hhome.inFunction hf, hkind, hfowner.trans howner⟩
  · refine .inr ⟨e, hrun, hinit, hvalue, hfront, ?_⟩
    obtain ⟨cls', hcls', hreceives⟩ := hreceives
    cases howner.symm.trans hcls'
    rcases hreceives with ⟨hs, hobject, -⟩ | ⟨hs, here, f, below, rfl, hf, hkind, hbelow, hobject, hchain⟩
    · exact .inl ⟨hs, hobject⟩
    · exact .inr ⟨hs, f, _, below, hhome.inFunction hf, hkind, hbelow, hobject, hchain⟩

end

/-! ## The course of a run -/

section Met

open Lower

variable {files : FileTree} {options : CompileOptions} {src : Source} {file : String} {program : Program}

/-- A visitor is tame where it takes courses from the states in which it may go on. -/
theorem Course.Tame.only [Setting] {may : Turn → Prop} {visit : Visit}
    (h : ∀ n s, may ⟨n, s⟩ → ∀ home ws, Goes home ws s (visit n) (Same ws)) (n : Node) :
    Tame (Lower.only may visit n) := by
  intro home ws s hg r s' hr
  by_cases hmay : may ⟨n, s⟩
  · rw [only_eq hmay] at hr
    exact h n s hmay home ws hg r s' hr
  · rw [Lower.only, if_neg hmay] at hr
    exact Goes.failWith hg r s' hr

/-- The nodes that are lowered on the way of compiling a text take courses of this run. -/
theorem tame_met (levels : Nat) (n : Node) :
    @Tame (.of files options src file) _ (met files options src file levels n) := by
  let _ : Setting := .of files options src file
  induction levels generalizing n with
  | zero =>
    refine .only (fun _ _ h => ?_) n
    obtain ⟨-, s', ⟨⟩⟩ := h
  | succ levels ih =>
    refine .only (fun m s h home ws hg r u hr => ?_) n
    obtain ⟨hx, s', hs⟩ := h
    cases hs.symm.trans hr
    exact Tame.visitWith ih evaluation_of_met m home ws s hg _ _ (visitWith_met hx hs)

theorem course_in_run (hsober : options.builtins.Sober) (hp : Program.ofSource src file = .ok program)
    (h : ((Session.ofOptions options).compile files options.annotate program src).1 = .ok code) :
    @Course (.of files options src file) none true [] ((Session.ofOptions options).begin files options.annotate) []
      ((Session.ofOptions options).ending files options.annotate program src) := by
  let _ : Setting := .of files options src file
  obtain ⟨final, hlower, -⟩ := Session.compile_eq_ok.mp (Prod.ext h rfl)
  have hunit := unit_met hp (Session.lower_eq_ok.mp hlower).1
  obtain ⟨ws, hcourse, rfl⟩ := Tame.unit (tame_met Session.levels) none [] _
    (Session.good_begin (Session.settled_new hsober) files options.annotate) _ final hunit
  rw [show (Session.ofOptions options).ending files options.annotate program src = final from congrArg Prod.snd hlower]
  exact hcourse

end Met

/-- Accepted programs set constant fields only in constructors of their classes and to give them their initial
values. -/
theorem constant_fields_of_compileSource {files : FileTree} {annotate : Bool} {imports : Option Imports}
    {src : Source} {file : String} {code : Code}
    (h : compileSource files { annotate, imports } src file = .ok code) :
    ∃ program after, Program.ofSource src file = .ok program ∧
      (Session.ofOptions { annotate, imports }).compile files annotate program src = (.ok code, after) ∧
      ∀ p ∈ places code.instructions, ∀ object raw field v cls,
        p.instr = ⟨.setField, [object, (after.symbols.get field).rid, raw]⟩ →
        (after.symbols.get field).detail = .var v → v.const = true → v.owner = some cls →
        ConstantSet (·.OccursIn files { annotate, imports } src file) after.symbols code p object raw v cls := by
  obtain ⟨program, hprogram, hcode⟩ := exists_program_of_compileSource h
  refine ⟨program, _, hprogram, Prod.ext hcode rfl, fun p hp object raw field v cls hinstr hv hconst howner => ?_⟩
  let _ : Setting := .of files { annotate, imports } src file
  have happended := Session.appended_of_course Registry.plain_standard (course_in_run Registry.sober_standard hprogram hcode)
  rw [← (Session.course_of_compile (Session.settled_new Registry.sober_standard) hcode).2] at happended
  have hapart := Session.apart_ending Registry.sober_standard hcode
  exact happended.composed.constantSet hapart hp hinstr hv hconst howner

/-- A program whose constructor sets the constant field of another object, with a class below. -/
def fieldSource : Source :=
  Source.ofString <|
    "class C \x7b\nvar n: int const = 1\nvar s: int const static = 2\nfun init(o: C) \x7b o.n = 5 \x7d\n\x7d\n" ++
    "class D:C \x7b\nfun init(m) \x7b pass \x7d\n\x7d\n"

/-- The place of the program where that field is set: `this_5` is the object of the constructor around. -/
def fieldPlace : Place :=
  ⟨6, [(4, ⟨.funi, ["f_C_init_4", "this_5", "o_3"]⟩)], ⟨.setField, ["o_3", "n_1", "5"]⟩⟩

/-- A constant field of the objects of a class. -/
def Symbol.isConstantFieldOf (cls : SymbolId) (s : Symbol) : Bool :=
  match s.detail with
  | .var v => v.const && !v.static && v.owner == some cls
  | _ => false

theorem Symbol.exists_of_isConstantFieldOf {s : Symbol} (h : s.isConstantFieldOf cls = true) :
    ∃ v, s.detail = .var v ∧ v.const = true ∧ v.static = false ∧ v.owner = some cls := by
  unfold Symbol.isConstantFieldOf at h
  split at h
  · next v hv =>
    simp only [Bool.and_eq_true, Bool.not_eq_true', beq_iff_eq] at h
    exact ⟨v, hv, h.1.1, h.1.2, h.2⟩
  · cases h

theorem exists_compiled_fieldSource : ∃ p code, Program.ofSource fieldSource "main" = .ok p ∧
      ((Session.ofOptions {}).compile {} false p fieldSource).1 = .ok code ∧ fieldPlace ∈ places code.instructions ∧
      (((Session.ofOptions {}).compile {} false p fieldSource).2.symbols.get 13).rid = "n_1" ∧
      (((Session.ofOptions {}).compile {} false p fieldSource).2.symbols.get 13).isConstantFieldOf 12 = true := by
  have accepted : (Program.ofSource fieldSource "main").toOption.any (fun p =>
      (((Session.ofOptions {}).compile {} false p fieldSource).1.toOption.any fun code =>
        (places code.instructions).contains fieldPlace) &&
      ((((Session.ofOptions {}).compile {} false p fieldSource).2.symbols.get 13).rid == "n_1" &&
      (((Session.ofOptions {}).compile {} false p fieldSource).2.symbols.get 13).isConstantFieldOf 12)) = true := by
    simp only [Session.compile_named (Session.ofOptions {}) Registry.names_standard]
    rw [fieldSource, Source.ofString_append, Source.ofString_ofList, Source.ofString_ofList]
    decide +kernel
  obtain ⟨p, hp, hchecked⟩ := exists_ok_of_any accepted
  obtain ⟨hcode, hsymbol⟩ := Bool.and_eq_true_iff.mp hchecked
  obtain ⟨code, hc, hplace⟩ := exists_ok_of_any hcode
  obtain ⟨hrid, hfield⟩ := Bool.and_eq_true_iff.mp hsymbol
  exact ⟨p, code, hp, hc, List.contains_iff_mem.mp hplace, beq_iff_eq.mp hrid, hfield⟩

theorem constant_fields_of_fieldSource :
    ∃ code, compileSource {} {} fieldSource "main" = .ok code ∧ fieldPlace ∈ places code.instructions ∧
      ∃ program after, Program.ofSource fieldSource "main" = .ok program ∧
        (Session.ofOptions {}).compile {} false program fieldSource = (.ok code, after) ∧
        ∀ p ∈ places code.instructions, ∀ object raw field v cls,
          p.instr = ⟨.setField, [object, (after.symbols.get field).rid, raw]⟩ →
          (after.symbols.get field).detail = .var v → v.const = true → v.owner = some cls →
          ConstantSet (·.OccursIn {} {} fieldSource "main") after.symbols code p object raw v cls := by
  obtain ⟨p, code, hp, hc, hplace, -⟩ := exists_compiled_fieldSource
  have h : compileSource {} {} fieldSource "main" = .ok code := (compileSource_of_ofSource hp).trans hc
  exact ⟨code, h, hplace, constant_fields_of_compileSource h⟩

/-- The object whose constant field is set need not be the one that is under construction. -/
theorem other_object_of_fieldSource :
    ∃ p code after, Program.ofSource fieldSource "main" = .ok p ∧
      (Session.ofOptions {}).compile {} false p fieldSource = (.ok code, after) ∧
      ∃ place ∈ places code.instructions, ∃ field v cls object raw,
        place.instr = ⟨.setField, [object, (after.symbols.get field).rid, raw]⟩ ∧
        (after.symbols.get field).detail = .var v ∧ v.const = true ∧ v.static = false ∧ v.owner = some cls ∧
        ∀ f params, place.InFunction after.symbols f params → params.head? ≠ some object := by
  obtain ⟨p, code, hp, hc, hplace, hrid, hfield⟩ := exists_compiled_fieldSource
  obtain ⟨v, hv, hconst, hstatic, howner⟩ := Symbol.exists_of_isConstantFieldOf hfield
  refine ⟨p, code, _, hp, Prod.ext hc rfl, fieldPlace, hplace, 13, v, 12, "o_3", "5", ?_, hv, hconst, hstatic, howner, ?_⟩
  · rw [hrid]
    rfl
  · rintro f params ⟨index, op, id, hframe, -⟩
    have hframe : some ((4, ⟨.funi, ["f_C_init_4", "this_5", "o_3"]⟩) : Frame) =
        some (index, ⟨op, (_ : String) :: params⟩) := hframe
    obtain ⟨-, hargs⟩ := Instruction.mk.inj (Prod.mk.inj (Option.some.inj hframe)).2
    obtain ⟨-, rfl⟩ := List.cons.inj hargs
    decide

end Frontend
