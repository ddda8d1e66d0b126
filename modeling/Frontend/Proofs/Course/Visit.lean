import Frontend.Proofs.Course.Assignment
import Frontend.Proofs.Course.Class
import Frontend.Proofs.Calls.Call

/-!
# Courses of nodes and files

Every node takes a course, and so does every file. From a new session on, sessions stay in order.
-/

namespace Frontend

namespace Course

open SymbolTable

variable {home : Option Home} {ws ws' : List String} {s s' : Lowering} {visit : Visit} {α β : Type}

/-! ## Files -/

theorem Aside.of_note (table : s'.table = s.table) (builtins : s'.session.builtins = s.session.builtins)
    (supply : s'.supply = s.supply) (stack : s'.session.imports.stack = s.session.imports.stack) (out : s'.out = s.out)
    (processing : s'.processing = s.processing) (scopes : s'.scopes = s.scopes) (operands : s'.operands = s.operands) :
    Aside s s' :=
  ⟨table, builtins, supply, stack, out, processing, scopes, by rw [operands]; exact List.Subset.refl _⟩

/-- A file is begun. -/
theorem startFile_eq {file : String} {r : Except Failure Unit} (h : Lower.startFile file s = (r, s')) :
    (∃ e, r = .error e ∧ s' = s) ∨ r = .ok () ∧ (s' = s ∨ ∃ imports : Imports,
      imports.stack = file :: s.session.imports.stack ∧ s' = { s with session := { s.session with imports } }) := by
  unfold Lower.startFile at h
  split at h
  · cases h
    exact .inr ⟨rfl, .inl rfl⟩
  · split at h
    · cases h
      exact .inl ⟨_, rfl, rfl⟩
    · next imports hpush =>
      cases h
      refine .inr ⟨rfl, .inr ⟨_, ?_, rfl⟩⟩
      unfold Imports.push at hpush
      split at hpush
      · cases hpush
      · cases hpush
        unfold Imports.markLoaded
        dsimp only
        split <;> rfl

/-- Going back to the depth at hand. -/
theorem stack_popTo {i j : Imports} (h : i.stack = j.stack) : (i.popTo j.depth).stack = j.stack := by
  unfold Imports.popTo Imports.depth
  rw [h, Nat.sub_self, List.drop_zero]

section
variable [Setting]

/-- An annotation is a note. -/
theorem Tame.annotate {n : Node} : Tame (Lower.annotate n) := by
  intro home ws s
  by_cases h : s.out.annotate = true
  · have hnoted : Lower.annotate n s = (.ok (), s.withOut (s.out.note (Path.base s.file ++ ":" ++
        Text.ofInt n.pos.line ++ " " ++ n.summary))) := by
      change (_, if s.out.annotate = true then _ else s) = _
      rw [if_pos h]
      rfl
    exact .last hnoted (.note _) rfl
  · have hidle : Lower.annotate n s = (.ok (), s) := by
      change (_, if s.out.annotate = true then _ else s) = _
      rw [if_neg h]
    exact .last hidle .refl rfl

theorem Tame.items {ns : List Node} (hv : ∀ n, Tame (visit n)) : Tame (Lower.items visit ns) :=
  temper.forAll fun n _ => Tame.annotate.bind fun _ => temper.exec hv n

theorem Goes.showingLine {p : Lower α} {Q : α → List String → Lowering → Prop} (h : Goes home ws s p Q) :
    Goes home ws s (Lower.showingLine p) Q := by
  intro hg r s' hr
  unfold Lower.showingLine at hr
  split at hr
  · next d u heq =>
    cases hr
    exact h hg _ _ heq
  · exact h hg r s' hr

/-- The items of a file, which is left at the end. -/
theorem Tame.unit {p : Program} {src : Source} (hv : ∀ n, Tame (visit n)) : Tame (Lower.unit visit p src) := by
  intro home ws s hg r s' hr
  -- the state in which the file is begun, and the one that is left behind it
  let s₀ : Lowering := { s with file := p.file, source := src }
  have haside : Aside s s₀ := .of_note rfl rfl rfl rfl rfl rfl rfl rfl
  have hcourse : Course home true ws s ws s₀ := .after .refl haside
  have hg₀ : Good home s₀ := hcourse.good hg
  have hleft : ∀ u, Aside (s₀.finished u) { s.finished u with file := s.file, source := s.source } :=
    fun u => .of_note rfl rfl rfl rfl rfl rfl rfl rfl
  have hsame : ∀ u : Lowering, u.session.imports.stack = s.session.imports.stack →
      Aside u { s.finished u with file := s.file, source := s.source } :=
    fun u h => .of_note rfl rfl rfl ((stack_popTo h).trans h.symm) rfl rfl rfl rfl
  have begun : Course home true ws s ws s₀ := Course.refl.after haside
  obtain ⟨u, hu, rfl⟩ : ∃ u, (do Lower.startFile p.file; Lower.showingLine (Lower.items visit p.body) : Lower Unit) s₀ =
      (r, u) ∧ s' = { s.finished u with file := s.file, source := s.source } := Lower.exists_of_ensuring hr
  have hlowered : ∀ s₁ : Lowering, Goes home ws s₁ (Lower.showingLine (Lower.items visit p.body)) (Same ws) :=
    fun s₁ => Goes.showingLine (Tame.items hv home ws s₁)
  change Lower.andThen (Lower.startFile p.file) _ s₀ = _ at hu
  unfold Lower.andThen at hu
  cases hstart : Lower.startFile p.file s₀ with
  | mk q s₁ =>
    rw [hstart] at hu
    rcases startFile_eq hstart with ⟨e, rfl, rfl⟩ | ⟨rfl, rfl | ⟨imports, hstack, rfl⟩⟩
    · cases hu
      exact (begun.after (hsame s₀ rfl)).stop
    · have hcourse := hlowered s₀ hg₀ r u hu
      cases r with
      | error e => exact (begun.trans hcourse).after (hsame u hcourse.steps.stack)
      | ok _ =>
        obtain ⟨ws', hcourse, rfl⟩ := hcourse
        exact ⟨_, (begun.trans hcourse).after (hsame u hcourse.steps.stack), rfl⟩
    · have hg₁ : Good home { s₀ with session := { s₀.session with imports } } :=
        ⟨hg₀.sober, hg₀.order, hg₀.operands, hg₀.processing, hg₀.home⟩
      have hcourse := hlowered _ hg₁ r u hu
      cases r with
      | error e => exact (begun.trans (.file hstack hcourse)).after (hleft u)
      | ok _ =>
        obtain ⟨ws', hcourse, rfl⟩ := hcourse
        exact ⟨_, (begun.trans (.file hstack hcourse)).after (hleft u), rfl⟩

/-! ## Nodes -/

/-- One level: every construct, given what is inside of it. -/
theorem Tame.visitWith (hv : ∀ n, Tame (visit n)) (hrun : InRun visit) (n : Node) : Tame (Lower.visitWith visit n) := by
  have hitems : ∀ ns, Tame (Lower.items visit ns) := fun _ => .items hv
  unfold Lower.visitWith
  cases n with
  | int => exact temper.literal (.int _ _)
  | float => exact temper.literal (.float _ _)
  | str => exact temper.literal (.str _)
  | bool => exact temper.literal (.bool _ _)
  | null => exact temper.literal (.null _)
  | ident => exact .ident
  | this => exact .this
  | unary => exact temper.unary hv
  | binary => exact .pushBinary hv
  | increment => exact .increment hv
  | assign => exact .assign hv
  | parallel => exact temper.forAll fun m _ => temper.exec hv m
  | group => exact temper.group hv
  | block => exact .inScope (hitems _)
  | list => exact temper.list hv
  | dict => exact temper.dict hv
  | call => exact .call hv
  | index => exact temper.index hv
  | member => exact .member hv
  | varDef => exact .defineVariables hv
  | funDecl => exact .declareFunction
  | funDef => exact .defineFunction hitems
  | lambda => exact .lambda hitems
  | classDecl => exact .declareClass
  | classDef => exact .defineClass hv hrun hitems
  | branch => exact .branch hv
  | whileLoop | forLoop => exact .loop hv
  | pass => exact .pure ()
  | breakOut => exact temper.breakOut
  | continueOn => exact temper.continueOn
  | returnFrom => exact .returnFrom hv
  | importFile => exact temper.importFile fun _ _ => .unit hv
  | pair | arrow | argument | constructor => exact .fail _

end

theorem inRun_visit (levels : Nat) : InRun (Lower.visit levels) :=
  fun h => ⟨⟨levels, _, _, _, _, h⟩, rfl, rfl, rfl, rfl, trivial⟩

/-- Every node takes a course. -/
theorem tame_visit (levels : Nat) (n : Node) : Tame (Lower.visit levels n) := by
  induction levels generalizing n with
  | zero => exact .fail _
  | succ levels ih => exact .visitWith ih (inRun_visit levels) n

end Course

/-! ## Courses of sessions

A unit is lowered from the state at its beginning, in which the built-in functions are entered in the global
scope. Sessions that came out of a new one by any sequence of units are in order, so every unit of them takes
a course. -/

open Course SymbolTable

theorem Registry.sober_standard : Registry.standard.Sober where
  names := fun e he => Word.not_hasNumber_of_constant (plain_and_constant_of_standard he).2
  takes := fun e he call supply => by
    obtain ⟨i, hi, -⟩ := Calls.isPlain_of_standard he call supply
    rw [hi]
    exact ⟨le_refl _, rfl, rfl⟩

/-- What a word is taken for. -/
inductive Supply.Request where
  | rid (name : String)
  | functionRid (owner : Option String) (name : String)
  | classRid (name : String)
  | temp
  | label

/-- The word that is taken. -/
def Supply.grant (s : Supply) : Supply.Request → String × Supply
  | .rid name => s.rid name
  | .functionRid owner name => s.functionRid owner name
  | .classRid name => s.classRid name
  | .temp => s.temp
  | .label => s.label

theorem Supply.before_grant (s : Supply) (r : Supply.Request) : s.Before (s.grant r).2 := by
  cases r with
  | temp => exact ⟨le_refl _, Nat.le_succ _, le_refl _⟩
  | label => exact ⟨le_refl _, le_refl _, Nat.le_succ _⟩
  | functionRid owner name =>
    cases owner <;> exact ⟨Nat.le_succ _, le_refl _, le_refl _⟩
  | _ => exact ⟨Nat.le_succ _, le_refl _, le_refl _⟩

namespace Session

def grant (s : Session) (r : Supply.Request) : String × Session :=
  ((s.supply.grant r).1, { s with supply := (s.supply.grant r).2 })

/-- The state in which lowering ends a unit, whether it is accepted or not. -/
def ending (s : Session) (files : FileTree) (annotate : Bool) (p : Program) (src : Source) : Lowering :=
  (lower levels p src (s.begin files annotate)).2

/-- Sessions that came out of a new session by taking words and by compiling units, which were accepted or
not. -/
inductive Reached (options : CompileOptions) : Session → Prop where
  | new : Reached options (ofOptions options)
  | grant {s : Session} (h : Reached options s) (r : Supply.Request) : Reached options (s.grant r).2
  | compile {s : Session} (h : Reached options s) (files : FileTree) (annotate : Bool) (p : Program) (src : Source) :
      Reached options (s.compile files annotate p src).2

/-- A session between two units: no scope is open, and its table is in order. -/
structure Settled (s : Session) : Prop where
  sober : s.builtins.Sober
  order : InOrder s.supply.rids s.symbols
  level : s.symbols.inner = []

variable {s : Session} {files : FileTree} {annotate : Bool} {p : Program} {src : Source} {options : CompileOptions}

theorem after_compile : (s.compile files annotate p src).2 = (s.ending files annotate p src).session := rfl

/-- The built-in functions are entered one after another, some of them not for the first time. -/
theorem enterBuiltins_induction {P : SymbolTable → Prop} (h : P s.symbols)
    (hadd : ∀ e ∈ s.builtins.entries, ∀ t, P t → P (t.add (builtinSymbol e)).2)
    (hinsert : ∀ t id t', P t → t.insertGlobal id = .ok t' → P t') : P s.enterBuiltins.symbols := by
  unfold enterBuiltins
  dsimp only
  generalize s.builtins.names = names
  generalize s.symbols = t at h
  induction names generalizing t with
  | nil => exact h
  | cons name names ih =>
    refine ih _ ?_
    dsimp only
    split
    · next e hfind _ =>
      have hmade := hadd e (List.mem_of_find?_eq_some hfind) t h
      cases hi : (t.add (builtinSymbol e)).2.insertGlobal (t.add (builtinSymbol e)).1 with
      | error d => exact hmade
      | ok t' => exact hinsert _ _ t' hmade hi
    · exact h

theorem order_enterBuiltins (hs : s.Settled) : InOrder s.supply.rids s.enterBuiltins.symbols := by
  refine enterBuiltins_induction hs.order (fun e he t ht => ht.add _ ⟨?_, ?_⟩ fun c hc => by cases hc) ?_
  · exact Word.below_of_not_hasNumber (hs.sober.names e he)
  · rintro f ⟨⟩ p hp
    exact absurd hp List.not_mem_nil
  · exact fun t id t' ht h => ht.insertAt h

theorem samePlaces_enterBuiltins (s : Session) : SamePlaces s.symbols s.enterBuiltins.symbols := by
  refine enterBuiltins_induction (.refl _) (fun e _ t ht => ht.trans (.of_eq rfl rfl rfl)) fun t id t' ht h => ?_
  exact ht.trans (samePlaces_insertAt (.inr rfl) h)

/-- No scope is open where a unit begins. -/
theorem inner_begin (h : s.symbols.inner = []) : (s.begin files annotate).table.inner = [] := by
  have hkinds := (samePlaces_enterBuiltins s).scopes.kinds
  rw [h] at hkinds
  exact List.map_eq_nil_iff.mp hkinds

theorem later_enterBuiltins (s : Session) : Later s.symbols s.enterBuiltins.symbols :=
  enterBuiltins_induction (.refl _) (fun _ _ t ht => ht.trans (later_add t _)) fun _ _ _ ht h =>
    ht.trans (later_insertAt h)

/-- A unit is begun outside of every function. -/
theorem good_begin (hs : s.Settled) (files : FileTree) (annotate : Bool) : Good none (s.begin files annotate) where
  sober := hs.sober
  order := order_enterBuiltins hs
  operands := fun _ h => absurd h List.not_mem_nil
  processing := fun _ h => absurd h List.not_mem_nil
  home := rfl

/-- Every unit takes a course. -/
theorem tame_lower (levels : Nat) : Tame (lower levels p src) :=
  (Tame.unit (tame_visit levels)).bind fun _ => (Tame.ask _).bind fun _ => (Tame.ask _).bind fun _ => temper.refuse _

theorem exists_course (hs : s.Settled) (files : FileTree) (annotate : Bool) (p : Program) (src : Source) :
    ∃ k ws, Course none k [] (s.begin files annotate) ws (s.ending files annotate p src) :=
  exists_course_of_tame (tame_lower levels) (good_begin hs files annotate)

/-- An accepted unit goes on to its end. -/
theorem course_of_compile {code : Code} (hs : s.Settled) (h : (s.compile files annotate p src).1 = .ok code) :
    Course none true [] (s.begin files annotate) [] (s.ending files annotate p src) ∧
      code = (s.ending files annotate p src).out.code := by
  obtain ⟨final, hlower, hcode, -⟩ := compile_eq_ok.mp (Prod.ext h rfl)
  have hending : s.ending files annotate p src = final := congrArg Prod.snd hlower
  obtain ⟨ws', hcourse, rfl⟩ := tame_lower levels none [] _ (good_begin hs files annotate) _ final hlower
  rw [hending]
  exact ⟨hcourse, hcode.symm⟩

theorem settled_new (h : options.builtins.Sober) : (ofOptions options).Settled where
  sober := h
  order := by
    have hget : ∀ id, ({} : SymbolTable).get id = default := fun id => get_of_size_le (Nat.zero_le id)
    refine ⟨fun id => ?_, fun id c hc => ?_⟩
    · change WordsBelow _ (({} : SymbolTable).get id)
      rw [hget]
      refine ⟨Word.below_of_not_hasNumber (Calls.not_hasNumber_of_bare (by decide)), ?_⟩
      rintro f ⟨⟩
    · change (({} : SymbolTable).get id).class? = some c at hc
      rw [hget] at hc
      cases hc
  level := rfl

theorem Settled.compile (hs : s.Settled) (files : FileTree) (annotate : Bool) (p : Program) (src : Source) :
    (s.compile files annotate p src).2.Settled := by
  obtain ⟨k, ws, hcourse⟩ := exists_course hs files annotate p src
  have hg := hcourse.good (good_begin hs files annotate)
  refine ⟨hg.sober, hg.order, ?_⟩
  have hkinds := hcourse.steps.places.kinds
  rw [inner_begin hs.level] at hkinds
  exact List.map_eq_nil_iff.mp hkinds

theorem Settled.grant (hs : s.Settled) (r : Supply.Request) : (s.grant r).2.Settled :=
  ⟨hs.sober, hs.order.mono (s.supply.before_grant r).rids, hs.level⟩

theorem Reached.settled (h : Reached options s) (hoptions : options.builtins.Sober) : s.Settled := by
  induction h with
  | new => exact settled_new hoptions
  | grant h r ih => exact ih.grant r
  | compile h files annotate p src ih => exact ih.compile files annotate p src

end Session

end Frontend
