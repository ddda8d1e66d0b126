import Frontend.Proofs.Lowering.Unit
import Frontend.Proofs.Meaning.Control

/-!
# Compilation preserves meaning

A program of variables, assignments, branches and loops does in the machine what it means: if it ends
with some values of its variables, so does a run of the emitted text.
-/

namespace Frontend.Meaning

open SymbolTable Machine

variable {visit : Visit} {c c' : Scoping} {round : Option String} {s s' : Lowering} {st : Stmt}
variable {p : Program} {src : Source}

/-! ## Programs -/

/-- At the beginning no name stands for a variable: the built-in functions are none. -/
theorem follows_start (ht : Ordered 0 s.table) (hinner : s.table.inner = [])
    (hrids : s.supply.rids = 0) (hprocessing : s.processing = []) : Follows {} none s where
  inner := by
    rw [hinner]
    exact .nil
  global := by
    refine ⟨fun e he => (ht.globals e he).known, fun _ _ hx => (nomatch hx), ?_⟩
    intro x id hid hsort
    have hlt := (ht.globals _ (mem_of_lookup hid)).known
    rcases (ht.symbols id hlt).numbered with ⟨m, hm, -⟩ | ⟨-, hne⟩
    · exact absurd hm (Nat.not_lt_zero m)
    · exact absurd hsort hne
  kinds := by
    rw [hinner]
    exact fun _ hmem => nomatch hmem
  sorts := by
    rw [hinner]
    exact fun _ hmem => nomatch hmem
  base := fun e he => (ht.globals e he).sort
  numbers := by
    intro names hnames e he
    rw [List.mem_singleton.mp hnames] at he
    exact nomatch he
  next := hrids
  processing := hprocessing
  round := by
    rw [hinner]
    exact fun _ hid => nomatch hid

/-- A file that is started leaves names as they are. -/
theorem emits_startFile {file : String} : Emits s (Lower.startFile file) fun d _ s' => d = [] ∧ Keeps s s' := by
  intro a s' hs
  unfold Lower.startFile at hs
  split at hs
  · cases hs
    exact ⟨[], rfl, rfl, .refl s⟩
  · split at hs
    · cases hs
    · cases hs
      exact ⟨[], rfl, rfl, rfl, rfl, rfl⟩

theorem Emits.showingLine {α : Type} {p : Lower α} {Q : List Instruction → α → Lowering → Prop}
    (h : Emits s p Q) : Emits s (Lower.showingLine p) Q :=
  fun a s' hs => h a s' (Lower.eq_of_showingLine hs)

theorem StmtOk.unit (hv : StmtOk visit) (hn : Stmt.ofItems? c p.body = some (st, c')) (h : Follows c round s) :
    Emits s (Lower.unit visit p src) fun code _ _ => Performs code st round := by
  have hk : Keeps s { s with file := p.file, source := src } := ⟨rfl, rfl, rfl⟩
  have inside : Emits { s with file := p.file, source := src }
      (do
        Lower.startFile p.file
        Lower.showingLine (Lower.items visit p.body)) fun code _ _ => Performs code st round := by
    refine Emits.bind emits_startFile ?_
    rintro _ _ s₁ ⟨rfl, hk₁⟩
    refine Emits.showingLine ((hv.items hn (h.keeps (hk.trans hk₁))).weaken ?_)
    exact fun _ _ _ hd => hd.2.performs
  intro a s' hs
  unfold Lower.unit at hs
  obtain ⟨after, hrun, rfl⟩ := Lower.exists_of_ensuring hs
  exact inside a after hrun

/-- The code of a program does what the program means. -/
theorem performs_of_compile {options : CompileOptions} {files : FileTree} {annotate : Bool} {code : Code}
    {after : Session} (hb : options.builtins = .standard) (hn : Stmt.ofProgram? p = some st)
    (h : (Session.ofOptions options).compile files annotate p src = (.ok code, after)) :
    Performs code.instructions st none := by
  have hstart : Ordered 0 (Session.ofOptions options).enterBuiltins.symbols ∧
      (Session.ofOptions options).enterBuiltins.symbols.inner = [] :=
    ordered_enterBuiltins hb ⟨ordered_empty, rfl⟩
  obtain ⟨final, hlower, rfl, -⟩ := Session.compile_eq_ok.mp h
  have follows : Follows {} none ((Session.ofOptions options).begin files annotate) :=
    follows_start hstart.1 hstart.2 rfl rfl
  obtain ⟨⟨st, c⟩, hitems, rfl⟩ := Option.map_eq_some_iff.mp hn
  obtain ⟨written, hout, hperforms⟩ :=
    (stmtOk_visit Session.levels).unit hitems follows _ final (Session.lower_eq_ok.mp hlower).1
  have whole : final.out.code = written := by
    rw [hout, CodeBuffer.append_eq]
    simp [CodeBuffer.code, Session.begin]
  rw [whole]
  exact hperforms

/-! ## Runs of texts -/

/-- A machine before its first step: no word holds anything, and no loop is open. -/
def start : State := { pc := 0, memory := fun _ => none, loops := [] }

/-- In code that does what a statement does, a machine gets from the start to the end. -/
theorem exists_run_of_performs {is : List Instruction} (h : Performs is st none)
    (hn : (is.flatMap Instruction.sets).Nodup) {σ : Store} (hexec : Exec (fun _ => none) st .normal σ) :
    ∃ s, Steps is start s ∧ s.pc = is.length ∧ Matches σ s.memory := by
  have whole : Occurs is is 0 := by simp [Occurs]
  have empty : Matches (fun _ => none) start.memory := fun _ => rfl
  obtain ⟨pc, m, hsteps, hm, hpc⟩ := h.run whole hn hexec empty []
  rw [Arrives, Nat.zero_add] at hpc
  exact ⟨⟨pc, m, []⟩, hsteps, hpc, hm⟩

/-- An accepted program that ends with some values of its variables does so in the machine: the
emitted text can be read, its run comes to the end of the text and no further, and then the word of
every variable holds the value of the variable. -/
theorem run_of_compileSource {files : FileTree} {annotate : Bool} {imports : Option Imports}
    {src : Source} {file : String} {p : Program} {code : Code} {σ : Store}
    (hp : Program.ofSource src file = .ok p) (hst : Stmt.ofProgram? p = some st)
    (hcode : compileSource files { annotate, imports } src file = .ok code)
    (hexec : Exec (fun _ => none) st .normal σ) :
    ∃ placed s, Code.read code.render = .ok placed ∧ Steps (placed.map (·.instr)) start s ∧
      s.pc = placed.length ∧ step (placed.map (·.instr)) s = none ∧
      ∀ x : Variable, s.memory x.rid = (σ x).map Cell.value := by
  obtain ⟨p', after, r, hp', hcompile, hr⟩ := exists_written_of_compileSource hcode
  cases hp.symm.trans hp'
  have performs := performs_of_compile rfl hst hcompile
  obtain ⟨rfl, fits, once, -⟩ := hr
  obtain ⟨placed, hread, hplaced⟩ := Code.read_render (Region.readable_flatten fits.proper)
  have labels : (r.flatten.instructions.flatMap Instruction.sets).Nodup := by
    rw [Region.flatMap_sets_flatten fits.proper]
    exact once
  obtain ⟨s, hsteps, hpc, hm⟩ := exists_run_of_performs performs labels hexec
  rw [← hplaced] at hsteps hpc
  rw [List.length_map] at hpc
  refine ⟨placed, s, hread, hsteps, hpc, ?_, hm⟩
  unfold step
  rw [hpc, List.getElem?_eq_none (by simp)]

/-- A loop that is left in its second round. -/
def countSource : Source :=
  Source.ofString "var i = 0\nwhile (i < 5) \x7b\ni += 1\nif (i == 2) \x7b break \x7d\n\x7d\n"

def countVariable : Variable := { name := "i", number := 0 }

def countRound : Stmt :=
  .seq (.assign countVariable (.arith .add (.var countVariable) (.lit 1)))
    (.seq (.branch (.relate .eq (.var countVariable) (.lit 2)) (.seq .breakOut .skip) .skip) .skip)

/-- What the program with the loop means. -/
def countStmt : Stmt :=
  .seq (.seq (.assign countVariable (.lit 0)) .skip)
    (.seq (.loop (.relate .lt (.var countVariable) (.lit 5)) countRound .skip) .skip)

theorem exec_countStmt : ∃ σ, Exec (fun _ => none) countStmt .normal σ ∧ σ countVariable = some (.int 2) := by
  have first : ∀ σ : Store, σ countVariable = some (.int 0) →
      Exec σ countRound .normal (σ.set countVariable (.int 1)) := by
    intro σ hσ
    refine .seq (.assign (v := .int 1) ?_) (.seq (.branchNo (v := .bool false) ?_ rfl .skip) .skip)
    · simp [Expr.eval, hσ]
      rfl
    · rfl
  have second : ∀ σ : Store, σ countVariable = some (.int 1) →
      Exec σ countRound .broken (σ.set countVariable (.int 2)) := by
    intro σ hσ
    refine .seq (.assign (v := .int 2) ?_)
      (.seqEarly (.branchYes (v := .bool true) ?_ rfl ?_) (fun e => by cases e))
    · simp [Expr.eval, hσ]
      rfl
    · rfl
    · exact .seqEarly .breakOut (fun e => by cases e)
  have rounds : ∀ σ : Store, σ countVariable = some (.int 0) →
      Exec σ (.loop (.relate .lt (.var countVariable) (.lit 5)) countRound .skip) .normal
        ((σ.set countVariable (.int 1)).set countVariable (.int 2)) := by
    intro σ hσ
    refine .loopRound (v := .bool true) ?_ rfl (first σ hσ) (fun e => by cases e) .skip
      (.loopBroken (v := .bool true) rfl rfl (second _ rfl))
    simp [Expr.eval, hσ]
    rfl
  exact ⟨_, .seq (.seq (.assign rfl) .skip) (.seq (rounds _ rfl) .skip), rfl⟩

theorem run_of_countSource :
    ∃ code placed s, compileSource {} {} countSource "main" = .ok code ∧
      Code.read code.render = .ok placed ∧ Steps (placed.map (·.instr)) start s ∧
      s.pc = placed.length ∧ step (placed.map (·.instr)) s = none ∧
      s.memory countVariable.rid = some (.value (.int 2)) := by
  have means : (Program.ofSource countSource "main").toOption.bind Stmt.ofProgram? =
      some countStmt := by
    rw [countSource, Source.ofString_ofList]
    decide +kernel
  have accepted : (compileSource {} {} countSource "main").toOption.isSome = true := by
    rw [compileSource_named {} Registry.names_standard, countSource, Source.ofString_ofList]
    decide +kernel
  obtain ⟨σ, hexec, hσ⟩ := exec_countStmt
  obtain ⟨p, hp, hmeans⟩ := Option.bind_eq_some_iff.mp means
  obtain ⟨code, hcode⟩ := exists_ok_of_isSome accepted
  obtain ⟨placed, s, hread, hsteps, hpc, hstep, hm⟩ := run_of_compileSource (toOption_eq_some.mp hp) hmeans hcode hexec
  refine ⟨code, placed, s, hcode, hread, hsteps, hpc, hstep, ?_⟩
  rw [hm, hσ]
  rfl

end Frontend.Meaning
