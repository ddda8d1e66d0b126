import Frontend.Proofs.Lowering.Assignment
import Frontend.Proofs.Lowering.Call
import Frontend.Proofs.Lowering.Class
import Frontend.Proofs.Lowering.Control
import Frontend.Proofs.Parse.Names

/-!
# Nodes, files and programs

Every construct writes a region that fits where it stands, provided that what is inside of it does.
So lowering a node does, whatever the number of levels, and with it lowering a file and everything it
imports.
-/

namespace Frontend

open SymbolTable Region

variable {Γ : Surroundings} {known : Set String} {s s' : Lowering} {visit : Visit} {α : Type}
variable {u : Unit} {n : Node} {e : Builtin} {options : CompileOptions} {after : Session}

theorem agree_of_startFile {file : String} (h : Lower.startFile file s = (.ok u, s')) : Agree s s' := by
  unfold Lower.startFile at h
  split at h
  · cases h
    exact ⟨rfl, rfl, rfl, rfl, rfl⟩
  · split at h
    · cases h
    · cases h
      exact ⟨rfl, rfl, rfl, rfl, rfl⟩

section Steps

variable [Setting]

/-! ## Items -/

theorem Does.annotate (h : Ready Γ known s) :
    Does Γ known s (Lower.annotate n) fun _ _ s' => s'.operands = s.operands := by
  rintro a s' ⟨⟩
  dsimp only
  split
  · -- a note is code, but no instruction
    generalize Path.base s.file ++ ":" ++ Text.ofInt n.pos.line ++ " " ++ n.summary = text
    rename_i hannotate
    have written : s.out.note text = s.out.append (Region.note text .nil).flatten := by
      unfold CodeBuffer.note
      rw [if_pos hannotate]
      rfl
    refine ⟨.note text .nil, ?_, h.sees.mono Set.subset_union_left, rfl⟩
    exact {
      out := written
      fits := ⟨trivial, trivial, fun l hl => (nomatch hl), trivial⟩
      labelled := labelled_of_allSets_nil rfl _ _
      functions := trivial
      labels := le_refl _
      rids := le_refl _
      table := .refl _
      same := .of_eq rfl
      operands := ⟨[], rfl, fun _ h => nomatch h⟩
      stable := ⟨h.stable.builtins, h.stable.ordered⟩ }
  · exact ⟨.nil, Effect.refl h.stable, h.sees.mono Set.subset_union_left, rfl⟩

section
variable (hv : VisitOk visit)
include hv

theorem itemsOk_items : ItemsOk (Lower.items visit) := by
  intro Γ known s ns hns h
  refine .forEach h fun n hn known' s' _ h' => ?_
  refine .bind (.annotate h') ?_
  intro known₁ _ s₁ _ h₁ hoperands
  exact (hv.exec (hns n hn) h₁).weaken fun _ _ _ he => he.trans hoperands

theorem Does.block {b : Block} (hb : ∀ m ∈ b.items, m.WellRead) (h : Ready Γ known s) :
    Does Γ known s (Lower.block visit b) Whatever := by
  have other : ScopeKind.block ≠ .function := fun e => nomatch e
  refine (Does.inScope (Q := fun _ => True) h other fun t ht _ _ => ?_).whatever
  exact (itemsOk_items hv hb ht).weaken fun _ _ _ _ => trivial

/-! ## Files -/

/-- Which file is at hand, and which files are on the way, does not matter to the code. -/
theorem Does.unit {p : Program} {src : Source} (hp : ∀ n ∈ p.body, n.WellRead) (h : Ready Γ known s) :
    Does Γ known s (Lower.unit visit p src) Whatever := by
  intro a s' hs
  unfold Lower.unit at hs
  obtain ⟨after, hrun, rfl⟩ := Lower.exists_of_ensuring hs
  obtain ⟨u, started, hstart, hrun⟩ := Lower.bind_eq_ok.mp hrun
  have hstarted : Agree s started := by
    have ha := agree_of_startFile hstart
    exact ⟨ha.table, ha.supply, ha.builtins, ha.out, ha.operands⟩
  obtain ⟨r, hr, hsees, -⟩ := itemsOk_items hv hp (h.agree hstarted) a after (Lower.eq_of_showingLine hrun)
  exact ⟨r, hr.agree hstarted.symm ⟨rfl, rfl, rfl, rfl, rfl⟩, hsees, trivial⟩

theorem Does.importFile {path : Token} (h : Ready Γ known s) :
    Does Γ known s (Lower.importFile (Lower.unit visit) path n) Whatever := by
  unfold Lower.importFile
  refine .ask (.unless fun _ => .ask (.ask (.ask ?_)))
  cases s.session.imports.resolve s.files path.literal s.file with
  | error e => exact .fail
  | ok resolved =>
    refine Run.ite (fun _ => Run.fail) fun _ => Run.ite (fun _ => Does.pure h trivial) fun _ => ?_
    cases Imports.load s.files resolved with
    | error e => exact .fail
    | ok text =>
      dsimp only
      cases hp : Program.ofSource (Source.ofString text) resolved with
      | error e => exact .failWith
      | ok p => exact Does.unit hv (Program.wellRead_of_ofSource hp) h

end

/-! ## Nodes -/

theorem Does.literal {m : Node} (h : Ready Γ known s) : Does Γ known s (match Operand.ofLiteral? m with
      | some o => Lower.push o
      | none => Lower.fail (Complaint.unsupported m)) Whatever := by
  cases hlit : Operand.ofLiteral? m with
  | none => exact .fail
  | some o => exact (Does.push h (operandOk_ofLiteral hlit)).whatever

/-- One level: every construct, given what is inside of it and how the bodies of functions are lowered. -/
theorem visitBodies_ok {levels : Nat} {items : List Node → Lower Unit} (hv : VisitOk visit) (hitems : ItemsOk items)
    (hwithin : Lower.Within levels visit items) : VisitOk (Lower.visitBodies visit items) := by
  intro Γ known s n hn h
  unfold Lower.visitBodies Lower.visitWith
  cases n with
  | int token value => exact .literal (m := .int token value) h
  | float token value => exact .literal (m := .float token value) h
  | str token => exact .literal (m := .str token) h
  | bool token value => exact .literal (m := .bool token value) h
  | null token => exact .literal (m := .null token) h
  | ident name => exact .ident h
  | this token => exact .this h
  | unary op operand => exact .unary hv (hn.child (by simp [Node.children])) h
  | binary left op right =>
    refine .bind (hv.eval (hn.child (by simp [Node.children])) h) ?_
    rintro known₁ l s₁ - h₁ ⟨hl, -⟩
    refine .bind (hv.eval (hn.child (by simp [Node.children])) h₁) ?_
    rintro known₂ r s₂ hg₂ h₂ ⟨hr, -⟩
    refine .bind (.binary h₂ (hl.grows hg₂) hr) ?_
    intro known₃ o s₃ _ h₃ ho
    exact (Does.push h₃ ho).whatever
  | increment operand op => exact .increment hv (hn.child (by simp [Node.children])) h
  | assign target op value =>
    exact .assign hv (hn.child (by simp [Node.children])) (hn.child (by simp [Node.children])) h
  | parallel ns =>
    exact (Does.forEach h fun m hm _ _ _ h' => hv.exec (hn.child hm) h').whatever
  | group opener closer bracket body =>
    exact .group hv (fun m hm => hn.child (by simp [Node.children, hm])) h
  | block b => exact .block hv (fun m hm => hn.child hm) h
  | list opener elements => exact .list hv (fun m hm => hn.child hm) h
  | dict opener pairs => exact .dict hv (fun m hm => hn.child hm) h
  | call callee opener closer args =>
    exact .call hv (hn.child List.mem_cons_self)
      (fun m hm => hn.child (List.mem_cons_of_mem _ hm)) h
  | index left opener subscript =>
    exact .index hv (hn.child (by simp [Node.children])) (hn.child (by simp [Node.children])) h
  | member object dot name => exact .member hv (hn.child (by simp [Node.children])) h
  | varDef token names values =>
    exact .defineVariables hv (fun i hi => hn.name hi)
      (fun m hm => hn.child (List.mem_filterMap.mpr ⟨some m, hm, rfl⟩)) h
  | funDecl token name params labels =>
    exact .declareFunction (hn.name List.mem_cons_self)
      (fun p hp => hn.name (List.mem_cons_of_mem _ (List.mem_map_of_mem hp))) h
  | funDef token name params labels body arrow =>
    exact .defineFunction hwithin hitems (hn.name List.mem_cons_self)
      (fun p hp => hn.name (List.mem_cons_of_mem _ (List.mem_map_of_mem hp)))
      (fun m hm => hn.child hm) h
  | lambda token params labels body =>
    exact .lambda hwithin hitems (fun p hp => hn.name (List.mem_map_of_mem hp))
      (fun m hm => hn.child hm) h
  | classDecl token name => exact .declareClass (hn.name List.mem_cons_self) h
  | classDef token name body =>
    exact .defineClass hv hwithin hitems (hn.name List.mem_cons_self) (fun m hm => hn.child hm) h
  | branch tests otherwise => exact .branch hv hn h
  | whileLoop token test body =>
    exact .loop hv (fun _ e => by cases e) (hn.child List.mem_cons_self) (fun _ e => by cases e)
      (fun m hm => hn.child (List.mem_cons_of_mem _ hm)) h
  | forLoop token init test update body =>
    have child : ∀ m ∈ init :: test :: update :: body.items, m.WellRead := fun m hm => hn.child hm
    refine .loop hv ?_ (child test (by simp)) ?_ (fun m hm => child m (by simp [hm])) h
    · rintro _ ⟨⟩
      exact child init (by simp)
    · rintro _ ⟨⟩
      exact child update (by simp)
  | pass token => exact .pure h trivial
  | breakOut token => exact .breakOut h
  | continueOn token => exact .continueOn h
  | returnFrom token value =>
    exact .returnFrom hv (fun m hm => hn.child (by simp [Node.children, hm])) h
  | importFile token path => exact .importFile hv h
  | pair => exact .fail
  | arrow => exact .fail
  | argument => exact .fail
  | constructor => exact .fail

end Steps

attribute [instance] Setting.any

theorem visit_ok (levels : Nat) : VisitOk (Lower.visit levels) := by
  induction levels with
  | zero => exact fun _ _ => .fail
  | succ levels ih =>
    intro Γ known s n hn h
    rw [Lower.visit, ← Lower.visitBodies_items]
    exact visitBodies_ok ih (itemsOk_items ih) ⟨id, id, fun _ _ _ _ => trivial⟩ hn h

/-! ## Whole programs

Compilation starts with the standard built-in functions in the global scope and nothing else. All code
that it gives is one region, which needs nothing from around it. -/

variable {files : FileTree} {src : Source} {file : String} {p : Program} {code : Code} {names : List String}
  {annotate : Bool}

/-! ## The built-in functions -/

theorem plain_and_constant_of_standard (h : e ∈ Builtin.standard) : Word.Plain e.name ∧ Word.Constant e.name := by
  have bare : ∀ w ∈ Builtin.standard.map (·.name),
      Word.Plain w ∧ '_' ∉ w.toList ∧ '%' ∉ w.toList := by decide
  obtain ⟨hplain, hu, hp⟩ := bare e.name (List.mem_map_of_mem h)
  exact ⟨hplain, Word.constant_of_bare hu hp⟩

theorem fitting_builtin {t : SymbolTable} (ht : Ordered 0 t) (h : e ∈ Builtin.standard) :
    Fitting 0 t (Session.builtinSymbol e) := by
  obtain ⟨hplain, hconstant⟩ := plain_and_constant_of_standard h
  have noVariable : (Session.builtinSymbol e).sort ≠ .variable := fun hs => nomatch hs
  have noParams : ∀ f, (Session.builtinSymbol e).function? = some f → f.params = [] := by
    rintro f ⟨⟩
    rfl
  refine fitting_constant ht ?_ hconstant noVariable noParams
  refine ⟨hplain, hplain, Or.inr ⟨hconstant, noVariable⟩, ?_, ?_, ?_⟩
  · intro f hf p hp
    rw [noParams f hf] at hp
    exact nomatch hp
  · rintro v ⟨⟩
  · rintro c ⟨⟩

/-- A table with the built-in functions in the global scope and no open scopes. -/
theorem ordered_enterBuiltins {s : Session} (hb : s.builtins = .standard)
    (h : Ordered 0 s.symbols ∧ s.symbols.inner = []) :
    Ordered 0 s.enterBuiltins.symbols ∧ s.enterBuiltins.symbols.inner = [] := by
  unfold Session.enterBuiltins
  dsimp only
  generalize s.builtins.names = names
  generalize s.symbols = t at h
  rw [hb]
  induction names generalizing t with
  | nil => exact h
  | cons name names ih =>
    refine ih _ ?_
    dsimp only
    split
    · rename_i e hfind _
      have fitting := fitting_builtin h.1 (List.mem_of_find?_eq_some hfind)
      cases hi : (t.add (Session.builtinSymbol e)).2.insertGlobal (t.add (Session.builtinSymbol e)).1
        with
      | error d => exact ⟨h.1.add fitting, h.2⟩
      | ok t' =>
        have entered := entered_newGlobal h.1 fitting (fun hs => nomatch hs) hi
        refine ⟨entered.ordered, ?_⟩
        have kinds := entered.same.kinds
        rw [show (t.add (Session.builtinSymbol e)).2.inner = [] from h.2] at kinds
        exact List.map_eq_nil_iff.mp kinds
    · exact h

/-- The order in which the standard built-in functions are entered. -/
theorem Registry.names_standard : Registry.standard.names =
    ["append", "del", "keys", "len", "sin", "sout", "tobool", "toflt", "toint", "tostr", "typeof", "values"] := by
  have sorted : Registry.standard.names.Pairwise fun a b => decide (a ≤ b) = true := by
    refine List.pairwise_mergeSort ?_ ?_ _
    · intro a b c hab hbc
      exact decide_eq_true (String.le_trans (of_decide_eq_true hab) (of_decide_eq_true hbc))
    · intro a b
      simpa using String.le_total a b
  have antisymm : ∀ a b : String, decide (a ≤ b) = true → decide (b ≤ a) = true → a = b := by
    intro a b hab hba
    exact String.le_antisymm (of_decide_eq_true hab) (of_decide_eq_true hba)
  exact List.Perm.eq_of_pairwise (fun a b _ _ => antisymm a b) sorted (by decide)
    ((List.mergeSort_perm _ _).trans (by decide))

/-- Enters built-in functions in a given order. -/
def Session.enterNamed (names : List String) (s : Session) : Session :=
  let enter := fun (t : SymbolTable) (name : String) =>
    match s.builtins.find? name, t.find? name (some 0) with
    | some e, none =>
      let (id, t) := t.add (builtinSymbol e)
      ((t.insertGlobal id).toOption).getD t
    | _, _ => t
  { s with symbols := names.foldl enter s.symbols }

/-- Compiles a program, with the built-in functions in a given order. -/
def Session.compileNamed (names : List String) (s : Session) (files : FileTree) (annotate : Bool) (p : Program)
    (src : Source) : Except Failure Code × Session :=
  let (r, after) := lower levels p src { session := s.enterNamed names, files, out := { annotate } }
  (r.map fun _ => after.out.code, after.session)

/-- Compiles a source text, with the built-in functions in a given order. -/
def compileSourceNamed (names : List String) (files : FileTree) (options : CompileOptions) (src : Source)
    (file : String) : Except Failure Code :=
  match Program.ofSource src file with
  | .error e => .error (.ofSourceError e)
  | .ok p => ((Session.ofOptions options).compileNamed names files options.annotate p src).1

theorem compileSource_of_ofSource (hp : Program.ofSource src file = .ok p) :
    compileSource files options src file = ((Session.ofOptions options).compile files options.annotate p src).1 := by
  unfold compileSource
  rw [hp]

theorem exists_program_of_compileSource (h : compileSource files options src file = .ok code) :
    ∃ p, Program.ofSource src file = .ok p ∧
      ((Session.ofOptions options).compile files options.annotate p src).1 = .ok code := by
  cases hp : Program.ofSource src file with
  | error e =>
    unfold compileSource at h
    rw [hp] at h
    cases h
  | ok p => exact ⟨p, rfl, (compileSource_of_ofSource hp).symm.trans h⟩

/-! Two things are in the way when a program is run in a proof. The names of the built-in functions are sorted in a
way that does not compute, and to take the letters from a text that is given as a whole goes over its bytes. The
order of the names and the letters are put in first. -/

theorem Source.ofString_append (a b : String) : ofString (a ++ b) = ofString a ++ ofString b := by
  simp [ofString]

theorem Source.ofString_ofList (letters : List Char) : ofString (String.ofList letters) = letters.map .char := by
  rw [ofString, String.toList_ofList]

/-- A text in three parts. -/
theorem Source.ofString_parts (front middle rear : List Char) :
    ofString (String.ofList front ++ String.ofList middle ++ String.ofList rear) = (front ++ middle ++ rear).map .char := by
  simp only [ofString_append, ofString_ofList, List.map_append]

theorem Session.enterBuiltins_named (s : Session) (h : s.builtins.names = names) :
    s.enterBuiltins = s.enterNamed names := by
  subst h
  rfl

theorem Session.compile_named (s : Session) (h : s.builtins.names = names) :
    s.compile files annotate p src = s.compileNamed names files annotate p src := by
  subst h
  rfl

theorem compileSource_named (options : CompileOptions) (h : options.builtins.names = names) :
    compileSource files options src file = compileSourceNamed names files options src file := by
  subst h
  rfl

theorem ordered_empty : Ordered 0 {} where
  symbols := fun _ h => nomatch h
  sorts := fun _ h => nomatch h
  levelled := trivial
  globals := fun _ h => nomatch h
  rids := fun _ h => nomatch h
  types := fun _ h => nomatch h

/-! ## Programs -/

/-- The state in which lowering begins a unit. -/
def Session.begin (s : Session) (files : FileTree) (annotate : Bool) : Lowering :=
  { session := s.enterBuiltins, files, out := { annotate } }

namespace Session

/-- An entry file is accepted if its items are, and if everything that was declared is defined at the end. -/
theorem lower_eq_ok {levels : Nat} : lower levels p src s = (.ok u, s') ↔
      Lower.unit (Lower.visit levels) p src s = (.ok u, s') ∧
        s'.declared.findSome? (undefined? s'.session.symbols) = none := by
  unfold lower
  simp only [bind, Lower.andThen, Lower.table, Lower.ask]
  cases hunit : Lower.unit (Lower.visit levels) p src s with
  | mk result final =>
    cases result with
    | error e => simp
    | ok u' =>
      dsimp only
      cases hnone : final.declared.findSome? (undefined? final.session.symbols) with
      | none =>
        simp only [Lower.refuse, Lower.succeed]
        constructor
        · rintro ⟨⟩
          exact ⟨rfl, hnone⟩
        · exact fun h => h.1
      | some d =>
        simp only [Lower.refuse, Lower.fail, Lower.failWith]
        constructor
        · rintro ⟨⟩
        · rintro ⟨⟨⟩, hsome⟩
          rw [hnone] at hsome
          cases hsome

/-- An accepted unit is lowered to the state that holds its code and the session behind it. -/
theorem compile_eq_ok {s : Session} :
    s.compile files annotate p src = (.ok code, after) ↔ ∃ final, lower levels p src (s.begin files annotate) =
      (.ok (), final) ∧ final.out.code = code ∧ final.session = after := by
  unfold compile begin
  dsimp only
  cases hrun : lower levels p src { session := s.enterBuiltins, files, out := { annotate } } with
  | mk result final =>
    cases result with
    | error e => simp [Except.map]
    | ok u => simp [Except.map]

end Session

/-- Code that is one region and needs nothing from around it, with the symbols it speaks about. -/
structure Written [Setting] (code : Code) (t : SymbolTable) (r : Region) : Prop where
  flatten : code = r.flatten
  fits : r.Fits .outermost t.free ∅
  once : r.allSets.Nodup
  functions : r.Functions FunctionCode
  ordered : ∃ n, Ordered n t

theorem written_of_unit [Setting] {s : Session} (hb : s.builtins = .standard) (hs : s.supply = {})
    (ht : s.symbols = {}) (hunit : Ready .outermost ∅ (s.begin files annotate) → Does .outermost ∅
      (s.begin files annotate) (Lower.unit (Lower.visit Session.levels) p src) Whatever)
    (h : s.compile files annotate p src = (.ok code, after)) : ∃ r, Written code after.symbols r := by
  have hstart : Ordered 0 s.enterBuiltins.symbols ∧ s.enterBuiltins.symbols.inner = [] :=
    ordered_enterBuiltins hb (by rw [ht]; exact ⟨ordered_empty, rfl⟩)
  obtain ⟨final, hlower, rfl, rfl⟩ := Session.compile_eq_ok.mp h
  have ready : Ready .outermost ∅ (s.begin files annotate) := by
    refine ⟨⟨hb, ?_⟩, ?_, ?_⟩
    · rw [show (s.begin files annotate).supply = s.supply from rfl, hs]
      exact hstart.1
    · intro scope hscope
      rw [show (s.begin files annotate).table.inner = [] from hstart.2] at hscope
      exact nomatch hscope
    · intro hpos
      unfold functionLevel at hpos
      rw [show (s.begin files annotate).table.inner = [] from hstart.2] at hpos
      exact absurd hpos (by decide)
  obtain ⟨r, hr, -⟩ := hunit ready () final (Session.lower_eq_ok.mp hlower).1
  refine ⟨r, ?_, hr.fits, hr.labelled.nodup, hr.functions, _, hr.stable.ordered⟩
  rw [hr.out, CodeBuffer.append_eq]
  simp [CodeBuffer.code, Session.begin]

theorem written_of_compile {s : Session} (hb : s.builtins = .standard) (hs : s.supply = {}) (ht : s.symbols = {})
    (hp : ∀ n ∈ p.body, n.WellRead) (h : s.compile files annotate p src = (.ok code, after)) :
    ∃ r, Written code after.symbols r := written_of_unit hb hs ht (.unit (visit_ok _) hp) h

/-- What is accepted is written as one region. -/
theorem exists_written_of_compileSource {imports : Option Imports}
    (h : compileSource files { annotate, imports } src file = .ok code) :
    ∃ p after r, Program.ofSource src file = .ok p ∧
      (Session.ofOptions { annotate, imports }).compile files annotate p src = (.ok code, after) ∧
      Written code after.symbols r := by
  obtain ⟨p, hp, hcode⟩ := exists_program_of_compileSource h
  obtain ⟨r, hr⟩ := written_of_compile rfl rfl rfl (Program.wellRead_of_ofSource hp) (Prod.ext hcode rfl)
  exact ⟨p, _, r, hp, Prod.ext hcode rfl, hr⟩

/-- A program with a function, a loop that is left, a return and a text with a comma. -/
def sampleSource : Source :=
  Source.ofString "fun f(n) \x7b while (n) \x7b break \x7d\nreturn n \x7d\nvar s = f(\"a, b\")\n"

theorem exists_code_sampleSource :
    ∃ code, compileSource {} { annotate := true } sampleSource "main" = .ok code := by
  have accepted :
      (compileSource {} { annotate := true } sampleSource "main").toOption.isSome = true := by
    rw [compileSource_named { annotate := true } Registry.names_standard, sampleSource, Source.ofString_ofList]
    decide +kernel
  exact exists_ok_of_isSome accepted

end Frontend
