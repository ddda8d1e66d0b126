import Frontend.Proofs.Course.Visit
import Frontend.Proofs.Import.Order
import Frontend.Proofs.Repl.Added

/-!
# Imported files are compiled once

Compiling an entry file goes the way that its imports lead: the statements of every file are lowered where the file
is imported for the first time. If the other statements are accepted, it fails exactly when a cycle of imports
can be reached, and otherwise gives the code of all statements of all files, each of them once.
-/

namespace Frontend

open Lower ImportOrder Locality Course

/-! ## Statements -/

/-- The nodes that are lowered one after another in place of a node: what stands side by side or in brackets. -/
def Node.inside? : Node → Option (List Node)
  | .parallel ns => some ns
  | .group _ _ _ (some (.block b)) => if b.items.isEmpty then none else some b.items
  | .group _ _ _ (some n) => some [n]
  | _ => none

/-- The statements that an item stands for. Brackets are looked into down to some depth; with each statement goes
the depth that is left. -/
def Node.statements : (depth : Nat) → Node → List (Nat × Node)
  | 0, n => [(0, n)]
  | depth + 1, n =>
    match n.inside? with
    | some ns => ns.flatMap (statements depth)
    | none => [(depth + 1, n)]

namespace Lower

variable {s s' : Lowering} {visit : Visit} {n : Node} {ns : List Node} {p : Lower Unit}

theorem operands_forEffect (hs : s.operands = []) : (forEffect p s).2.operands = [] := by
  change ((p s).2.operands.drop ((p s).2.operands.length - s.operands.length)) = []
  rw [hs, List.length_nil, Nat.sub_zero, List.drop_length]

theorem forEffect_eq (hp : (p s).2.operands = []) : forEffect p s = p s := by
  refine Prod.ext rfl ?_
  change truncate s.operands.length (p s).2 = (p s).2
  unfold truncate
  rw [hp, List.drop_nil, ← hp]

theorem operands_forAll (hs : s.operands = []) : (forAll (exec visit) ns s).2.operands = [] := by
  induction ns generalizing s with
  | nil => exact hs
  | cons n ns ih =>
    have hfirst := operands_forEffect (p := visit n) hs
    change (andThen (exec visit n) (fun _ => forAll (exec visit) ns) s).2.operands = []
    unfold andThen exec
    cases hrun : forEffect (visit n) s with
    | mk r m =>
      rw [hrun] at hfirst
      cases r with
      | error e => exact hfirst
      | ok a => exact ih hfirst

theorem forAll_singleton {α : Type} (f : α → Lower Unit) (a : α) : forAll f [a] = f a := by
  funext s
  change andThen (f a) (fun _ => succeed ()) s = _
  unfold andThen
  cases hrun : f a s with
  | mk r m => cases r <;> rfl

theorem forEffect_bind {q : Lower Unit} (hs : s.operands = []) (hp : (p s).2.operands = []) :
    forEffect (p >>= fun _ => q) s = (p >>= fun _ => forEffect q) s := by
  change ((andThen p (fun _ => q) s).1, truncate s.operands.length (andThen p (fun _ => q) s).2) =
    andThen p (fun _ => forEffect q) s
  unfold andThen
  cases hrun : p s with
  | mk r m =>
    rw [hrun] at hp
    cases r with
    | error e => exact Prod.ext rfl (congrArg Prod.snd (forEffect_eq (p := fun _ => (.error e, m)) (s := s) hp))
    | ok a =>
      dsimp only
      rw [hs, ← hp]
      rfl

/-- What stands side by side or in brackets is lowered one after another. -/
theorem exec_inside {levels : Nat} (h : n.inside? = some ns) (hs : s.operands = []) :
    exec (Lower.visit (levels + 1)) n s = forAll (exec (Lower.visit levels)) ns s := by
  unfold Node.inside? at h
  split at h
  next items =>
    cases h
    exact forEffect_eq (operands_forAll hs)
  next opener closer bracket b =>
    split at h
    · cases h
    next hne =>
      cases h
      obtain ⟨last, hlast⟩ := Option.ne_none_iff_exists'.mp (mt List.getLast?_eq_none_iff.mp (by simpa using hne))
      have hitems : forAll (exec (Lower.visit levels)) b.items =
          (forAll (exec (Lower.visit levels)) b.items.dropLast >>= fun _ => forAll (exec (Lower.visit levels)) [last]) := by
        rw [← forAll_append, List.dropLast_append_getLast? last hlast]
      have hgroup : exec (Lower.visit (levels + 1)) (.group opener closer bracket (some (.block b))) =
          forEffect (forAll (exec (Lower.visit levels)) b.items.dropLast >>= fun _ => Lower.visit levels last) := by
        change forEffect (group (Lower.visit levels) (some (.block b)) (.group opener closer bracket (some (.block b)))) = _
        unfold group
        dsimp only
        rw [hlast]
      rw [hgroup, hitems, forAll_singleton]
      exact forEffect_bind hs (operands_forAll hs)
  next opener closer bracket inner hno =>
    cases h
    rw [forAll_singleton]
    cases inner with
    | block b => exact absurd rfl (hno b)
    | _ => rfl
  · cases h

/-- An item is lowered statement by statement. -/
theorem exec_statements {levels : Nat} (depth : Nat) (n : Node) (hs : s.operands = []) :
    exec (Lower.visit (depth + levels)) n s =
      forAll (fun m => exec (Lower.visit (m.1 + levels)) m.2) (n.statements depth) s := by
  induction depth generalizing n s with
  | zero => rw [Node.statements, forAll_singleton]
  | succ depth ih =>
    cases hinside : n.inside? with
    | none =>
      rw [Node.statements, hinside]
      dsimp only
      rw [forAll_singleton]
    | some ns =>
      rw [Node.statements, hinside, Nat.succ_add, exec_inside hinside hs]
      clear hinside
      dsimp only
      induction ns generalizing s with
      | nil => rfl
      | cons n ns ihns =>
        rw [List.flatMap_cons, forAll_append]
        change (exec (Lower.visit (depth + levels)) n >>= fun _ => forAll (exec (Lower.visit (depth + levels))) ns) s = _
        have hfirst := operands_forEffect (p := Lower.visit (depth + levels) n) hs
        cases hrun : exec (Lower.visit (depth + levels)) n s with
        | mk r m =>
          have hrun' := (ih n hs).symm.trans hrun
          cases r with
          | error e => rw [bind_of_error hrun, bind_of_error hrun']
          | ok a =>
            rw [bind_of_ok hrun, bind_of_ok hrun']
            refine ihns ?_
            rw [show m = (forEffect (Lower.visit (depth + levels) n) s).2 from (congrArg Prod.snd hrun).symm]
            exact hfirst

end Lower

/-! ## What is done with files -/

/-- What is done with the items of a file: they are announced, and their statements are lowered. -/
inductive FileStep where
  | announce (n : Node)
  | lower (depth : Nat) (n : Node)

namespace FileStep

def ofItems (depth : Nat) (items : List Node) : List FileStep :=
  items.flatMap fun n => .announce n :: (n.statements depth).map fun m => .lower m.1 m.2

/-- Does a step, when below its depth there are still some levels. -/
def run (levels : Nat) : FileStep → Lower Unit
  | announce n => Lower.annotate n
  | lower depth n => Lower.exec (Lower.visit (depth + levels)) n

variable {s s' : Lowering} {depth levels : Nat} {body : List Node}

theorem operands_run (levels : Nat) (step : FileStep) (hs : s.operands = []) : (step.run levels s).2.operands = [] := by
  cases step with
  | announce n =>
    change (Lower.annotate n s).2.operands = []
    unfold Lower.annotate Lower.change
    dsimp only
    split <;> exact hs
  | lower depth n => exact operands_forEffect hs

theorem forAll_map_lower (ms : List (Nat × Node)) :
    forAll (run levels) (ms.map fun m => .lower m.1 m.2) = forAll (fun m => exec (Lower.visit (m.1 + levels)) m.2) ms := by
  induction ms with
  | nil => rfl
  | cons m ms ih =>
    rw [List.map_cons, forAll, forAll, ih]
    rfl

/-- The items of a file are lowered step by step. -/
theorem items_eq (hs : s.operands = []) :
    Lower.items (Lower.visit (depth + levels)) body s = forAll (run levels) (ofItems depth body) s := by
  unfold ofItems Lower.items
  induction body generalizing s with
  | nil => rfl
  | cons n body ih =>
    rw [List.flatMap_cons, forAll_append, forAll, forAll, forAll_map_lower]
    have hnote : (annotate n s).2.operands = [] := operands_run levels (.announce n) hs
    generalize hnoted : (annotate n s).2 = m at hnote
    change (exec (Lower.visit (depth + levels)) n >>= fun _ => _) (annotate n s).2 =
      (forAll (fun m => exec (Lower.visit (m.1 + levels)) m.2) (n.statements depth) >>= fun _ => _) (annotate n s).2
    rw [hnoted]
    have hleft := operands_forEffect (p := Lower.visit (depth + levels) n) hnote
    cases hrun : exec (Lower.visit (depth + levels)) n m with
    | mk r u =>
      have hrun' := (exec_statements depth n hnote).symm.trans hrun
      cases r with
      | error e => rw [bind_of_error hrun, bind_of_error hrun']
      | ok a =>
        rw [bind_of_ok hrun, bind_of_ok hrun']
        refine ih ?_
        rw [show u = (forEffect (Lower.visit (depth + levels) n) m).2 from (congrArg Prod.snd hrun).symm]
        exact hleft

end FileStep

namespace View

def text (v : View) (file : String) : Source := Source.ofString ((v.files.read? file).getD "")

def items (v : View) (file : String) : List Node :=
  ((Program.ofSource (v.text file) file).toOption.map (·.body)).getD []

/-- What a step of a file means: an import means the file that it leads to. -/
def part (v : View) (file : String) : FileStep → ImportOrder.Part FileStep
  | .lower depth (.importFile token path) =>
    match v.resolve path.literal file with
    | .ok g => .link g
    | .error _ => .plain (.lower depth (.importFile token path))
  | step => .plain step

/-- What a file consists of, down to some depth of brackets. -/
def contents (v : View) (depth : Nat) (file : String) : List (ImportOrder.Part FileStep) :=
  (FileStep.ofItems depth (v.items file)).map (v.part file)

/-- A set of files: they can be read, and every import in them leads to one of them. -/
structure Library (v : View) (depth : Nat) (files : List String) : Prop where
  cwd : Path.isAbsolute v.files.cwd = true
  full : ∀ f ∈ files, Path.Full f
  readable : ∀ f ∈ files, ∃ text p, v.files.read? f = some text ∧ Program.ofSource (Source.ofString text) f = .ok p
  resolves : ∀ f ∈ files, ∀ rest token path, .lower rest (.importFile token path) ∈ FileStep.ofItems depth (v.items f) →
    ∃ g ∈ files, v.resolve path.literal f = .ok g

/-- Whether a step is no import, or one that leads to one of some files. -/
def leadsTo (v : View) (files : List String) (file : String) : FileStep → Bool
  | .lower _ (.importFile _ path) => (v.resolve path.literal file).toOption.any files.contains
  | _ => true

/-- Whether files are a set of this kind. -/
def isLibrary (v : View) (depth : Nat) (files : List String) : Bool :=
  Path.isAbsolute v.files.cwd && files.all fun f => Path.absolute v.files.cwd f == f && (v.files.read? f).isSome &&
    (Program.ofSource (v.text f) f).toOption.isSome && (FileStep.ofItems depth (v.items f)).all (v.leadsTo files f)

theorem library_of_isLibrary {v : View} {depth : Nat} {files : List String} (h : v.isLibrary depth files = true) :
    v.Library depth files := by
  rw [isLibrary, Bool.and_eq_true, List.all_eq_true] at h
  obtain ⟨hcwd, hall⟩ := h
  simp only [Bool.and_eq_true, beq_iff_eq, List.all_eq_true] at hall
  refine ⟨hcwd, fun f hf => ?_, fun f hf => ?_, fun f hf rest token path hmem => ?_⟩
  · rw [← (hall f hf).1.1.1]
    exact Path.full_absolute hcwd f
  · obtain ⟨text, htext⟩ := Option.isSome_iff_exists.mp (hall f hf).1.1.2
    obtain ⟨p, hp⟩ := exists_ok_of_isSome (hall f hf).1.2
    rw [View.text, htext, Option.getD_some] at hp
    exact ⟨text, p, htext, hp⟩
  · have hleads := (hall f hf).2 (.lower rest (.importFile token path)) hmem
    rw [leadsTo] at hleads
    obtain ⟨g, hresolve, hg⟩ := exists_ok_of_any hleads
    exact ⟨g, List.contains_iff_mem.mp hg, hresolve⟩

end View

/-! ## What happens -/

/-- What an event does. Statements are lowered with a number of levels. -/
def ImportOrder.Event.run (v : View) (levels : Nat) : Event FileStep → Lower Unit
  | .enter g => fun s => Lower.startFile g { s with file := g, source := v.text g }
  | .plain _ (.announce n) => Lower.annotate n
  | .plain _ (.lower _ n) => Lower.exec (Lower.visit levels) n
  | .leave back => Lower.change fun s => { s with
      file := back
      source := v.text back
      session := { s.session with imports := s.session.imports.popTo (s.session.imports.depth - 1) } }

/-- Events happen one after another, and all of them are accepted. Statements load no files. -/
inductive Happens (v : View) (levels : Nat) : List (Event FileStep) → Lowering → Lowering → Prop where
  | done {s} : Happens v levels [] s s
  | next {e events s m s'} (h : e.run v levels s = (.ok (), m)) (hloaded : ∀ f step, e = .plain f step → m.loaded = s.loaded)
      (rest : Happens v levels events m s') : Happens v levels (e :: events) s s'

/-- Whether an event leaves it to imports to load files. -/
def ImportOrder.Event.loadsNothing (s m : Lowering) : Event FileStep → Bool
  | .plain _ _ => m.loaded == s.loaded
  | _ => true

/-- Lets events happen one after another, if all of them are accepted. -/
def happen? (v : View) (levels : Nat) : List (Event FileStep) → Lowering → Option Lowering
  | [], s => some s
  | e :: events, s =>
    match e.run v levels s with
    | (.ok _, m) => if e.loadsNothing s m then happen? v levels events m else none
    | (.error _, _) => none

theorem happens_of_happen? {v : View} {levels : Nat} {events : List (Event FileStep)} {s s' : Lowering}
    (h : happen? v levels events s = some s') : Happens v levels events s s' := by
  induction events generalizing s with
  | nil =>
    cases h
    exact .done
  | cons e events ih =>
    rw [happen?] at h
    cases hrun : e.run v levels s with
    | mk r m =>
      rw [hrun] at h
      cases r with
      | error f => cases h
      | ok a =>
        obtain ⟨hloaded, hrest⟩ := Option.ite_none_right_eq_some.mp h
        refine .next hrun (fun f step he => ?_) (ih hrest)
        rw [he] at hloaded
        exact eq_of_beq hloaded

/-- A state in which the statements of a file are lowered. -/
structure Stands (v : View) (around begun : List String) (file : String) (s : Lowering) : Prop where
  good : Good none s
  level : s.table.inner = []
  operands : s.operands = []
  view : s.view = v
  place : s.file = file
  source : s.source = v.text file
  stack : s.session.imports.stack = file :: around
  begun : s.loaded = begun

variable {v : View} {around begun files : List String} {file g : String} {s s' m : Lowering} {levels depth : Nat} {n : Node}
variable {src : Source} {d : Diagnostic}
variable {more rest : Nat} {step : FileStep} {steps : List FileStep} {w : World} {o : CompileOptions} {i : Imports}

theorem Happens.append_inv {events events' : List (Event FileStep)} (h : Happens v levels (events ++ events') s s') :
    ∃ m, Happens v levels events s m ∧ Happens v levels events' m s' := by
  induction events generalizing s with
  | nil => exact ⟨s, .done, h⟩
  | cons e events ih =>
    cases h with
    | next hrun hloaded rest =>
      obtain ⟨m, hfirst, hlast⟩ := ih rest
      exact ⟨m, .next hrun hloaded hfirst, hlast⟩

/-- A new file is begun, perhaps as the first one. -/
theorem stands_startFile (hgood : Good none s) (hlevel : s.table.inner = []) (hoperands : s.operands = [])
    (hview : s.view = v) (hstack : s.session.imports.stack = around) (hbegun : s.loaded = begun) (hg : Path.Full g)
    (hnot : s.session.imports.onStack s.files g = false) (hnew : g ∉ begun) :
    ∃ m, startFile g { s with file := g, source := v.text g } = (.ok (), m) ∧ Stands v around (begun ++ [g]) g m := by
  refine ⟨_, (startFile_eq_ok hg.isEmpty_eq).mpr ⟨hnot, rfl⟩, ?_⟩
  have hmarked : Imports.markLoaded { s.session.imports with stack := g :: s.session.imports.stack } s.files g =
      { s.session.imports with stack := g :: s.session.imports.stack, loaded := begun ++ [g] } := by
    unfold Imports.markLoaded
    dsimp only
    rw [hg.absolute_eq, show s.session.imports.loaded = begun from hbegun, if_neg (by simpa using hnew)]
  refine ⟨⟨hgood.sober, hgood.order, hgood.operands, hgood.processing, hgood.home⟩, hlevel, hoperands, ?_, rfl, rfl, ?_, ?_⟩
  · rw [← hview]
    change (⟨s.files, (Imports.markLoaded _ s.files g).root, (Imports.markLoaded _ s.files g).search⟩ : View) = _
    rw [hmarked]
    rfl
  · change (Imports.markLoaded _ s.files g).stack = _
    rw [hmarked, ← hstack]
  · change (Imports.markLoaded _ s.files g).loaded = _
    rw [hmarked]

namespace Stands

/-- A statement that loads no file leads back to its place. -/
theorem lower (h : Stands v around begun file s) (hrun : exec (Lower.visit levels) n s = (.ok (), m))
    (hloaded : m.loaded = s.loaded) : Stands v around begun file m := by
  have htame : Tame (exec (Lower.visit levels) n) := temper.exec (tame_visit levels) n
  obtain ⟨ws, hcourse, -⟩ := htame none [] s h.good _ _ hrun
  obtain ⟨kept, same⟩ := Repeats.exec (repeats_visit (Change.harmless_unchanged s.view) (Nat.le_refl levels)) n s () m hrun
  have hsource : m.source = s.source := by
    have hagain := same rfl trivial (fun _ _ => trivial) s.source
    exact congrArg (fun r => r.2.source) (hrun.symm.trans hagain)
  have hkinds := hcourse.steps.places.kinds
  rw [h.level] at hkinds
  refine ⟨hcourse.good h.good, List.map_eq_nil_iff.mp hkinds, ?_, kept.view.trans h.view, kept.file.trans h.place,
    hsource.trans h.source, hcourse.steps.stack.trans h.stack, hloaded.trans h.begun⟩
  rw [show m = (forEffect (Lower.visit levels n) s).2 from (congrArg Prod.snd hrun).symm]
  exact operands_forEffect h.operands

/-- More levels make no difference to a statement that is accepted. -/
theorem lower_more (hrun : exec (Lower.visit levels) n s = (.ok (), m)) (hle : levels ≤ more) :
    exec (Lower.visit more) n s = (.ok (), m) := by
  obtain ⟨kept, same⟩ := Repeats.exec (repeats_visit (Change.harmless_unchanged s.view) hle) n s () m hrun
  obtain ⟨-, same'⟩ := Repeats.exec (repeats_visit (Change.harmless_unchanged s.view) (Nat.le_refl levels)) n s () m hrun
  have hagain := same rfl trivial (fun _ _ => trivial) s.source
  have hagain' := same' rfl trivial (fun _ _ => trivial) s.source
  exact hagain.trans (hagain'.symm.trans hrun)

section
variable (h : Stands v around begun file s)
include h

theorem announce (n : Node) : Stands v around begun file (annotate n s).2 := by
  have htame : Tame (annotate n) := .annotate
  obtain ⟨ws, hcourse, -⟩ := htame none [] s h.good _ (annotate n s).2 rfl
  have hgood := hcourse.good h.good
  obtain ⟨out, hout⟩ : ∃ out, (annotate n s).2 = { s with out } := by
    change ∃ out, (if s.out.annotate = true then _ else s) = _
    split
    · exact ⟨_, rfl⟩
    · exact ⟨s.out, rfl⟩
  rw [hout] at hgood ⊢
  exact ⟨hgood, h.level, h.operands, h.view, h.place, h.source, h.stack, h.begun⟩

/-- Whether a file is begun and not at its end. -/
theorem onStack_iff (hfull : ∀ f ∈ file :: around, Path.Full f) (hg : Path.Full g) :
    s.session.imports.onStack s.files g = true ↔ g ∈ file :: around := by
  have hsame : s.session.imports.stack.map (Path.absolute s.files.cwd) = file :: around := by
    rw [h.stack]
    exact (List.map_congr_left fun f hf => (hfull f hf).absolute_eq _).trans (List.map_id _)
  unfold Imports.onStack
  rw [hsame, hg.absolute_eq, List.contains_iff_mem]

theorem onStack_eq_false (hfull : ∀ f ∈ file :: around, Path.Full f) (hg : Path.Full g) (hstack : g ∉ file :: around) :
    s.session.imports.onStack s.files g = false := by
  rw [← Bool.not_eq_true, h.onStack_iff hfull hg]
  exact hstack

theorem isLoaded_iff (hg : Path.Full g) : s.session.imports.isLoaded s.files g = true ↔ g ∈ begun := by
  rw [isLoaded_eq_of_full hg, List.contains_iff_mem, ← h.begun]
  rfl

/-- A new file is begun. -/
theorem enter (hfull : ∀ f ∈ file :: around, Path.Full f) (hg : Path.Full g) (hstack : g ∉ file :: around)
    (hbegun : g ∉ begun) :
    ∃ m, startFile g { s with file := g, source := v.text g } = (.ok (), m) ∧
      Stands v (file :: around) (begun ++ [g]) g m :=
  stands_startFile h.good h.level h.operands h.view h.stack h.begun hg (h.onStack_eq_false hfull hg hstack) hbegun

end

/-- A file ends. -/
theorem leave {back : String} (h : Stands v (back :: around) begun file s) : Stands v around begun back { s with
      file := back
      source := v.text back
      session := { s.session with imports := s.session.imports.popTo (s.session.imports.depth - 1) } } := by
  refine ⟨⟨h.good.sober, h.good.order, h.good.operands, h.good.processing, h.good.home⟩, h.level, h.operands, h.view, rfl, rfl, ?_,
    h.begun⟩
  change (s.session.imports.popTo _).stack = _
  unfold Imports.popTo Imports.depth
  rw [h.stack]
  simp

/-- Where an import leads. -/
theorem resolve_eq_ok (h : Stands v around begun file s) {path : String} (hresolve : v.resolve path file = .ok g) :
    s.session.imports.resolve s.files path s.file = .ok g := by
  have hview : s.view.resolve path s.file = .ok g := by rw [h.view, h.place, hresolve]
  exact (Locality.resolve_eq ..).trans hview

section Import
variable {path : Token} {enter : Program → Source → Lower Unit} (h : Stands v around begun file s)
  (hresolve : v.resolve path.literal file = .ok g)
include h hresolve

theorem importFile_cycle (hstack : s.session.imports.onStack s.files g = true) :
    ∃ d, importFile enter path n s = (.error (.diagnostic d), s) ∧ d.category = .recursiveImport := by
  have hlevel : ¬ 0 < s.session.symbols.level := by
    rw [SymbolTable.level, show s.session.symbols.inner = [] from h.level]
    exact Nat.lt_irrefl _
  have hfound := h.resolve_eq_ok hresolve
  unfold importFile
  simp only [bind, andThen, table, ask, hlevel, if_false, hfound, hstack, if_true, fail, failWith]
  refine ⟨_, rfl, ?_⟩
  unfold Diagnostic.withHint Diagnostic.withInfo Diagnostic.withSpan
  split <;> rfl

theorem importFile_again {visit : Visit} (hstack : s.session.imports.onStack s.files g = false)
    (hloaded : s.session.imports.isLoaded s.files g = true) : importFile (Lower.unit visit) path n s = (.ok (), s) := by
  refine importFile_eq_ok.mpr ⟨?_, g, h.resolve_eq_ok hresolve, hstack, .inl ⟨hloaded, rfl⟩⟩
  rw [SymbolTable.level, show s.session.symbols.inner = [] from h.level]
  exact Nat.lt_irrefl _

theorem importFile_first {text : String} {p : Program} (hstack : s.session.imports.onStack s.files g = false)
    (hloaded : s.session.imports.isLoaded s.files g = false) (hread : v.files.read? g = some text)
    (hp : Program.ofSource (Source.ofString text) g = .ok p) :
    importFile enter path n s = enter p (Source.ofString text) s := by
  have hlevel : ¬ 0 < s.session.symbols.level := by
    rw [SymbolTable.level, show s.session.symbols.inner = [] from h.level]
    exact Nat.lt_irrefl _
  have hfound := h.resolve_eq_ok hresolve
  have hload : Imports.load s.files g = .ok text := by
    rw [load_eq_ok, show s.files = v.files from congrArg View.files h.view, hread]
  unfold importFile
  simp only [bind, andThen, table, ask, hlevel, if_false, hfound, hstack, hloaded, Bool.false_eq_true, hload, hp]

end Import

end Stands

theorem category_complete (file : String) (src : Source) (d : Diagnostic) :
    (Failure.complete file src d).category = d.category := by
  unfold Failure.complete
  split <;> rfl

/-- A file whose items are refused is refused. -/
theorem unit_of_error {visit : Visit} {p : Program} {u : Lowering}
    (hstart : startFile p.file { s with file := p.file, source := src } = (.ok (), m))
    (hitems : Lower.items visit p.body m = (.error (.diagnostic d), u)) :
    ∃ d' u', Lower.unit visit p src s = (.error (.diagnostic d'), u') ∧ d'.category = d.category := by
  refine ⟨Failure.complete u.file u.source d, _, Prod.ext ?_ rfl, category_complete _ _ _⟩
  change (andThen (startFile p.file) (fun _ => showingLine (Lower.items visit p.body)) { s with file := p.file, source := src }).1 = _
  unfold andThen showingLine
  rw [hstart]
  dsimp only
  rw [hitems]

/-- What is refused as a statement is refused. -/
theorem exec_of_error {visit : Visit} (h : visit n s = (.error (.diagnostic d), m)) :
    ∃ m', exec visit n s = (.error (.diagnostic d), m') := by
  refine ⟨_, Prod.ext ?_ rfl⟩
  change (visit n s).1 = _
  rw [h]

/-! ## The way of lowering -/

section Way
variable {parts : List (ImportOrder.Part FileStep)} {events : List (Event FileStep)} {result : Option (List String)} {needed : Nat}

theorem View.Library.items_eq (hlib : v.Library depth files) (hg : g ∈ files) : ∃ text p,
    v.files.read? g = some text ∧ v.text g = Source.ofString text ∧ Program.ofSource (Source.ofString text) g = .ok p ∧
      p.file = g ∧ v.items g = p.body := by
  obtain ⟨text, p, hread, hp⟩ := hlib.readable g hg
  have htext : v.text g = Source.ofString text := by
    unfold View.text
    rw [hread, Option.getD_some]
  refine ⟨text, p, hread, htext, hp, Program.file_of_ofSource hp, ?_⟩
  unfold View.items
  rw [htext, hp]
  rfl

theorem View.Library.mem_of_resolve (hlib : v.Library depth files) (hfile : file ∈ files) {token path : Token}
    (hmem : .lower rest (.importFile token path) ∈ FileStep.ofItems depth (v.items file))
    (hresolve : v.resolve path.literal file = .ok g) : g ∈ files := by
  obtain ⟨g', hg', hfound⟩ := hlib.resolves file hfile rest token path hmem
  cases hresolve.symm.trans hfound
  exact hg'

/-- The steps that mean imports. -/
theorem View.part_eq_link (h : v.part file step = .link g) :
    ∃ rest token path, step = .lower rest (.importFile token path) ∧ v.resolve path.literal file = .ok g := by
  unfold View.part at h
  split at h
  next rest token path =>
    split at h
    next g' hg' =>
      cases h
      exact ⟨rest, token, path, rfl, hg'⟩
    · cases h
  · cases h

theorem View.part_eq_plain {step' : FileStep} (h : v.part file step = .plain step') : step' = step := by
  unfold View.part at h
  split at h
  · split at h
    · cases h
    · cases h
      rfl
  · cases h
    rfl

/-- How many levels are enough inside of some files. -/
def room (files around : List String) (depth levels : Nat) : Nat :=
  levels + 1 + (files.length - (around.length + 1)) * (depth + 1)

theorem pos_of_room (h : room files around depth levels ≤ more) : levels < more := by
  unfold room at h
  omega

/-- Inside of one more file one more file less can follow. -/
theorem room_enter {j : Nat} (hnodup : (g :: file :: around).Nodup) (hfiles : g :: file :: around ⊆ files)
    (hroom : room files around depth needed ≤ levels) (hj : rest + levels = j + 1) :
    ∃ levels', j = depth + levels' ∧ room files (file :: around) depth needed ≤ levels' := by
  have hlength := (hnodup.subperm hfiles).length_le
  rw [List.length_cons, List.length_cons] at hlength
  obtain ⟨k, hk⟩ : ∃ k, files.length - (around.length + 1) = k + 1 := ⟨files.length - (around.length + 2), by omega⟩
  unfold room at hroom ⊢
  rw [hk, Nat.succ_mul] at hroom
  rw [List.length_cons, show files.length - (around.length + 1 + 1) = k by omega]
  exact ⟨j - depth, by omega, by omega⟩

theorem exec_import (rest : Nat) (token path : Token) (hpos : 0 < levels) : ∃ j, rest + levels = j + 1 ∧
    Lower.visit (rest + levels) (.importFile token path) =
      importFile (Lower.unit (Lower.visit j)) path (.importFile token path) := by
  obtain ⟨j, hj⟩ : ∃ j, rest + levels = j + 1 := ⟨rest + levels - 1, by omega⟩
  exact ⟨j, hj, by rw [hj]; rfl⟩

/-- An import of a new file begins it. -/
theorem Stands.begins (hs : Stands v around begun file s) (hlib : v.Library depth files) (hg : g ∈ files)
    (hfull : ∀ f ∈ file :: around, Path.Full f) {path : Token} (hresolve : v.resolve path.literal file = .ok g)
    (hstack : g ∉ file :: around) (hbegun : g ∉ begun) (hhappens : Happens v needed (.enter g :: events) s s') :
    ∃ p src m, (∀ enter : Program → Source → Lower Unit, importFile enter path n s = enter p src s) ∧
      startFile p.file { s with file := p.file, source := src } = (.ok (), m) ∧
      Stands v (file :: around) (begun ++ [g]) g m ∧ Happens v needed events m s' ∧ v.items g = p.body := by
  obtain ⟨text, p, hread, htext, hp, rfl, hitems⟩ := hlib.items_eq hg
  obtain ⟨m, hstart, hm⟩ := hs.enter hfull (hlib.full _ hg) hstack hbegun
  have hloaded : s.session.imports.isLoaded s.files p.file = false := by
    rw [← Bool.not_eq_true, hs.isLoaded_iff (hlib.full _ hg)]
    exact hbegun
  refine ⟨p, Source.ofString text, m, fun enter => ?_, htext ▸ hstart, hm, ?_, hitems⟩
  · exact hs.importFile_first hresolve (hs.onStack_eq_false hfull (hlib.full _ hg) hstack) hloaded hread hp
  · cases hhappens with
    | next hrun _ hrest =>
      cases hstart.symm.trans hrun
      exact hrest

/-- The part that leads to a file is the statement that imports it. -/
theorem View.Library.first_import (hlib : v.Library depth files) (hparts : .link g :: parts = steps.map (v.part file))
    (hsteps : steps ⊆ FileStep.ofItems depth (v.items file)) (hfiles : file :: around ⊆ files) :
    ∃ offset token path rest,
      steps = .lower offset (.importFile token path) :: rest ∧ parts = rest.map (v.part file) ∧
      rest ⊆ FileStep.ofItems depth (v.items file) ∧ v.resolve path.literal file = .ok g ∧ g ∈ files ∧
      ∀ f ∈ file :: around, Path.Full f := by
  obtain ⟨step, rest, rfl, hstep, hrest⟩ := List.map_eq_cons_iff.mp hparts.symm
  obtain ⟨offset, token, path, rfl, hresolve⟩ := View.part_eq_link hstep
  obtain ⟨hmem, hsteps⟩ := List.cons_subset.mp hsteps
  exact ⟨offset, token, path, rest, rfl, hrest.symm, hsteps, hresolve,
    hlib.mem_of_resolve (hfiles List.mem_cons_self) hmem hresolve, fun f hf => hlib.full f (hfiles hf)⟩

/-- How the steps of a file end: in the given state, or with the complaint about an import of a file around. -/
def Ends (v : View) (around : List String) (file : String) (s' : Lowering) :
    Option (List String) → Except Failure Unit × Lowering → Prop
  | some begun, r => r = (.ok (), s') ∧ Stands v around begun file s'
  | none, r => ∃ d m, r = (.error (.diagnostic d), m) ∧ d.category = .recursiveImport

/-- The steps of a file go the way that its imports lead. -/
theorem run_way (hlib : v.Library depth files) (h : Way (v.contents depth) around begun file parts events result)
    (hparts : parts = steps.map (v.part file)) (hsteps : steps ⊆ FileStep.ofItems depth (v.items file))
    (hnodup : (file :: around).Nodup) (hfiles : file :: around ⊆ files) (hs : Stands v around begun file s)
    (hhappens : Happens v needed events s s') (hroom : room files around depth needed ≤ levels) :
    Ends v around file s' result (forAll (FileStep.run levels) steps s) := by
  induction h generalizing s s' steps levels with
  | done =>
    cases hhappens
    obtain rfl : steps = [] := List.map_eq_nil_iff.mp hparts.symm
    exact ⟨rfl, hs⟩
  | @plain around begun file a parts events result rest ih =>
    obtain ⟨step, steps, rfl, hstep, hrest⟩ := List.map_eq_cons_iff.mp hparts.symm
    obtain rfl := View.part_eq_plain hstep
    obtain ⟨hmem, hsteps⟩ := List.cons_subset.mp hsteps
    cases hhappens with
    | @next _ _ _ m _ hrun hloaded hhappens =>
      have hrun' : a.run levels s = (.ok (), m) ∧ Stands v around begun file m := by
        cases a with
        | announce n =>
          have hm : (annotate n s).2 = m := congrArg Prod.snd hrun
          exact ⟨hrun, hm ▸ hs.announce n⟩
        | lower rest n =>
          have hneeded : needed ≤ rest + levels := (Nat.le_of_lt (pos_of_room hroom)).trans (Nat.le_add_left _ _)
          exact ⟨Stands.lower_more hrun hneeded, hs.lower hrun (hloaded _ _ rfl)⟩
      have hfirst : forAll (FileStep.run levels) (a :: steps) s = forAll (FileStep.run levels) steps m :=
        bind_of_ok hrun'.1 _
      rw [hfirst]
      exact ih hrest.symm hsteps hnodup hfiles hrun'.2 hhappens hroom
  | @again around begun file g parts events result hstack hbegun rest ih =>
    obtain ⟨offset, token, path, steps, rfl, hrest, hsteps, hresolve, hg, hfull⟩ := hlib.first_import hparts hsteps hfiles
    obtain ⟨j, -, hvisit⟩ := exec_import offset token path (Nat.zero_lt_of_lt (pos_of_room hroom))
    have himport : Lower.visit (offset + levels) (.importFile token path) s = (.ok (), s) := by
      rw [hvisit]
      exact hs.importFile_again hresolve (hs.onStack_eq_false hfull (hlib.full g hg) hstack)
        ((hs.isLoaded_iff (hlib.full g hg)).mpr hbegun)
    have hfirst : forAll (FileStep.run levels) (.lower offset (.importFile token path) :: steps) s =
        forAll (FileStep.run levels) steps s :=
      bind_of_ok ((forEffect_eq (by rw [himport]; exact hs.operands)).trans himport) _
    rw [hfirst]
    exact ih hrest hsteps hnodup hfiles hs hhappens hroom
  | @first around begun file g parts events events' begun' result hstack hbegun inner rest ih ih' =>
    obtain ⟨offset, token, path, steps, rfl, hrest, hsteps, hresolve, hg, hfull⟩ := hlib.first_import hparts hsteps hfiles
    have hnodup' : (g :: file :: around).Nodup := List.nodup_cons.mpr ⟨hstack, hnodup⟩
    have hfiles' : g :: file :: around ⊆ files := List.cons_subset.mpr ⟨hg, hfiles⟩
    obtain ⟨j, hj, hvisit⟩ := exec_import offset token path (Nat.zero_lt_of_lt (pos_of_room hroom))
    obtain ⟨levels', rfl, hroom'⟩ := room_enter hnodup' hfiles' hroom hj
    -- the new file goes its way, and the file at hand goes on behind it
    obtain ⟨m₂, hbefore, hbehind⟩ := hhappens.append_inv
    obtain ⟨p, src, m₁, himport, hstart, hm₁, hinner, hitems⟩ := hs.begins (n := .importFile token path) hlib hg hfull
      hresolve hstack hbegun hbefore
    obtain ⟨hsteps', hm₂⟩ := ih rfl (List.Subset.refl _) hnodup' hfiles' hm₁ hinner hroom'
    cases hbehind with
    | @next _ _ _ m₃ _ hleave _ hhappens' =>
      have hm₃ : Stands v around begun' file m₃ := by
        cases hleave
        exact hm₂.leave
      have hvisited : Lower.visit (offset + levels) (.importFile token path) s = (.ok (), m₃) := by
        rw [hvisit, himport]
        refine unit_eq_ok.mpr ⟨m₁, m₂, hstart, ?_, ?_⟩
        · rw [FileStep.items_eq hm₁.operands, ← hitems]
          exact hsteps'
        · have hdepth : m₂.session.imports.depth - 1 = s.session.imports.depth := by
            rw [Imports.depth, Imports.depth, hm₂.stack, hs.stack]
            rfl
          rw [← hdepth, hs.place, hs.source]
          exact (congrArg Prod.snd hleave).symm
      have hfirst : forAll (FileStep.run levels) (.lower offset (.importFile token path) :: steps) s =
          forAll (FileStep.run levels) steps m₃ :=
        bind_of_ok ((forEffect_eq (by rw [hvisited]; exact hm₃.operands)).trans hvisited) _
      rw [hfirst]
      exact ih' hrest hsteps hnodup hfiles hm₃ hhappens' hroom
  | @within around begun file g parts events hstack hbegun inner ih =>
    obtain ⟨offset, token, path, steps, rfl, hrest, hsteps, hresolve, hg, hfull⟩ := hlib.first_import hparts hsteps hfiles
    have hnodup' : (g :: file :: around).Nodup := List.nodup_cons.mpr ⟨hstack, hnodup⟩
    have hfiles' : g :: file :: around ⊆ files := List.cons_subset.mpr ⟨hg, hfiles⟩
    obtain ⟨j, hj, hvisit⟩ := exec_import offset token path (Nat.zero_lt_of_lt (pos_of_room hroom))
    obtain ⟨levels', rfl, hroom'⟩ := room_enter hnodup' hfiles' hroom hj
    obtain ⟨p, src, m₁, himport, hstart, hm₁, hinner, hitems⟩ := hs.begins (n := .importFile token path) hlib hg hfull
      hresolve hstack hbegun hhappens
    obtain ⟨d, u, hrefused, hcategory⟩ := ih rfl (List.Subset.refl _) hnodup' hfiles' hm₁ hinner hroom'
    rw [hitems, ← FileStep.items_eq hm₁.operands] at hrefused
    obtain ⟨d', u', hunit, hcategory'⟩ := unit_of_error hstart hrefused
    obtain ⟨m, hexec⟩ := exec_of_error ((congrFun hvisit s).trans ((himport _).trans hunit))
    exact ⟨d', m, bind_of_error hexec _, hcategory'.trans hcategory⟩
  | @cycle around begun file g parts hstack =>
    obtain ⟨offset, token, path, steps, rfl, hrest, hsteps, hresolve, hg, hfull⟩ := hlib.first_import hparts hsteps hfiles
    obtain ⟨j, -, hvisit⟩ := exec_import offset token path (Nat.zero_lt_of_lt (pos_of_room hroom))
    obtain ⟨d, hrefused, hcategory⟩ : ∃ d, importFile (Lower.unit (Lower.visit j)) path (.importFile token path) s =
        (.error (.diagnostic d), s) ∧ d.category = .recursiveImport :=
      hs.importFile_cycle hresolve ((hs.onStack_iff hfull (hlib.full g hg)).mpr hstack)
    obtain ⟨m, hexec⟩ := exec_of_error ((congrFun hvisit s).trans hrefused)
    exact ⟨d, m, bind_of_error hexec _, hcategory⟩

end Way

/-! ## Entry files -/

theorem View.Library.closed (hlib : v.Library depth files) (hfile : file ∈ files) (h : Links (v.contents depth) file g) :
    g ∈ files := by
  obtain ⟨step, hmem, hstep⟩ := List.mem_map.mp h
  obtain ⟨rest, token, path, rfl, hresolve⟩ := View.part_eq_link hstep
  exact hlib.mem_of_resolve hfile hmem hresolve

theorem category_undefined? {t : SymbolTable} {id : SymbolId} (h : Session.undefined? t id = some d) :
    d.category = .semantic := by
  unfold Session.undefined? at h
  obtain ⟨-, ⟨⟩⟩ := Option.ite_none_right_eq_some.mp h
  unfold Complaint.marking Diagnostic.withSpan
  split <;> rfl

theorem compileEntry_eq {path text : String} {p : Program} (hi : o.importsFor w (Path.absolute w.tree.cwd path) = .ok i)
    (hread : w.tree.read? (Path.absolute w.tree.cwd path) = some text)
    (hp : Program.ofSource (Source.ofString text) (Path.absolute w.tree.cwd path) = .ok p) : compileEntry w o path =
      match (Session.ofOptions { o with imports := some i }).compile w.tree o.annotate p (Source.ofString text) with
      | (.error f, _) => .error f
      | (.ok code, session) => .ok (code.render, session.imports.loadedFiles) := by
  unfold compileEntry
  dsimp only
  rw [hi, load_eq_ok.mpr hread]
  cases hcompile : (Session.ofOptions { o with imports := some i }).compile w.tree o.annotate p (Source.ofString text) with
  | mk r session => cases r <;> simp only [bind, Except.bind, hp, hcompile]

/-- The state in which an entry file is begun. -/
def entryState (w : World) (o : CompileOptions) (i : Imports) : Lowering :=
  (Session.ofOptions { o with imports := some i }).begin w.tree o.annotate

/-- An entry file whose items are accepted is asked for what was declared. -/
theorem lower_of_unit {p : Program} (h : Lower.unit (Lower.visit levels) p src s = (.ok (), m)) :
    Session.lower levels p src s = Lower.refuse (m.declared.findSome? (Session.undefined? m.table)) m :=
  bind_of_ok h _

theorem compile_of_lower {p : Program} {r : Except Failure Unit}
    (h : Session.lower Session.levels p src (entryState w o i) = (r, m)) :
    (Session.ofOptions { o with imports := some i }).compile w.tree o.annotate p src =
      (r.map fun _ => m.out.code, m.session) := by
  change ((Session.lower Session.levels p src (entryState w o i)).1.map
    (fun _ => (Session.lower Session.levels p src (entryState w o i)).2.out.code),
    (Session.lower Session.levels p src (entryState w o i)).2.session) = _
  rw [h]

/-- Compiling an entry file of a set of files goes one way. If the other statements are accepted on this way, it
fails because of a recursive import exactly when a cycle of imports can be reached, and otherwise the code is that
of all files that can be reached: each of them is loaded once, and each of its statements is lowered once. -/
theorem compileEntry_once {w : World} {o : CompileOptions} {path : String} {i : Imports}
    (hi : o.importsFor w (Path.absolute w.tree.cwd path) = .ok i) (hstack : i.stack = []) (hloaded : i.loaded = [])
    (hsober : o.builtins.Sober) {depth needed : Nat} {files : List String}
    (hlib : View.Library ⟨w.tree, i.root, i.search⟩ depth files) (hentry : Path.absolute w.tree.cwd path ∈ files)
    (hroom : needed + files.length * (depth + 1) ≤ Session.levels) :
    let entry := Path.absolute w.tree.cwd path
    let contents := View.contents ⟨w.tree, i.root, i.search⟩ depth
    (∃ events result, Way contents [] [entry] entry (contents entry) events result) ∧
      ∀ events result final, Way contents [] [entry] entry (contents entry) events result →
        Happens ⟨w.tree, i.root, i.search⟩ needed (.enter entry :: events) (entryState w o i) final →
        ((∃ d, compileEntry w o path = .error (.diagnostic d) ∧ d.category = .recursiveImport) ↔
          ∃ g, Reaches contents entry g ∧ OnCycle contents g) ∧
        ((¬ ∃ g, Reaches contents entry g ∧ OnCycle contents g) →
          final.declared.findSome? (Session.undefined? final.table) = none →
          ∃ loaded, compileEntry w o path = .ok (final.out.code.render, loaded) ∧ loaded.Nodup ∧
            (∀ f, f ∈ loaded ↔ Reaches contents entry f) ∧
            ∀ f, within f events = if f ∈ loaded then plains (contents f) else []) := by
  intro entry contents
  refine ⟨exists_way (fun f hf g => hlib.closed hf) (fun g => hlib.closed hentry) _ _ _, ?_⟩
  intro events result final hway hhappens
  obtain ⟨text, p, hread, htext, hp, hfile, hitems⟩ := hlib.items_eq hentry
  have hsettled : (Session.ofOptions { o with imports := some i }).Settled := Session.settled_new hsober
  obtain ⟨m, hstart, hm⟩ := stands_startFile (s := entryState w o i) (v := ⟨w.tree, i.root, i.search⟩)
    (Session.good_begin hsettled w.tree o.annotate) (Session.inner_begin hsettled.level) rfl rfl hstack hloaded
    (hlib.full _ hentry) (by
      unfold Imports.onStack
      rw [show (entryState w o i).session.imports.stack = [] from hstack]
      rfl) List.not_mem_nil
  have hstart' : startFile p.file { entryState w o i with file := p.file, source := Source.ofString text } = (.ok (), m) := by
    rw [hfile, ← htext]
    exact hstart
  have hway' : Happens ⟨w.tree, i.root, i.search⟩ needed events m final := by
    cases hhappens with
    | next hrun _ hrest =>
      cases hstart.symm.trans hrun
      exact hrest
  obtain ⟨levels, hlevels, hroom'⟩ : ∃ levels, Session.levels = depth + levels ∧ room files [] depth needed ≤ levels := by
    obtain ⟨k, hk⟩ : ∃ k, files.length = k + 1 := ⟨files.length - 1, by have := List.length_pos_of_mem hentry; omega⟩
    rw [hk, Nat.succ_mul] at hroom
    refine ⟨Session.levels - depth, by omega, ?_⟩
    unfold room
    rw [hk, List.length_nil, Nat.zero_add, Nat.add_sub_cancel]
    omega
  have hrun := run_way hlib hway rfl (List.Subset.refl _) (List.nodup_cons.mpr ⟨List.not_mem_nil, List.nodup_nil⟩) (by simpa using hentry) hm hway' hroom'
  rw [← FileStep.items_eq hm.operands, hitems, ← hlevels] at hrun
  have hcycle := eq_none_iff hway
  have hcompile := compileEntry_eq hi hread hp
  cases result with
  | none =>
    obtain ⟨d, u, hrefused, hcategory⟩ := hrun
    obtain ⟨d', u', hunit, hcategory'⟩ := unit_of_error hstart' hrefused
    rw [compile_of_lower (bind_of_error hunit _)] at hcompile
    exact ⟨⟨fun _ => hcycle.mp rfl, fun _ => ⟨d', hcompile, hcategory'.trans hcategory⟩⟩,
      fun hnone => absurd (hcycle.mp rfl) hnone⟩
  | some begun =>
    obtain ⟨haccepted, hfinal⟩ := hrun
    have hnone : ¬ ∃ g, Reaches contents entry g ∧ OnCycle contents g := fun h => absurd (hcycle.mpr h) (Option.some_ne_none _)
    have hlower := lower_of_unit (unit_eq_ok.mpr ⟨m, final, hstart', haccepted, rfl⟩)
    have hdeclared : ∀ u : Lowering, u.declared = final.declared → u.table = final.table →
        u.declared.findSome? (Session.undefined? u.table) = final.declared.findSome? (Session.undefined? final.table) := by
      intro u hd ht
      rw [hd, ht]
    rw [hdeclared _ rfl rfl] at hlower
    refine ⟨⟨fun ⟨d, herror, hcategory⟩ => ?_, fun h => absurd h hnone⟩, fun _ hdefined => ?_⟩
    · cases hundefined : final.declared.findSome? (Session.undefined? final.table) with
      | none =>
        rw [hundefined] at hlower
        rw [compile_of_lower hlower] at hcompile
        cases herror.symm.trans hcompile
      | some d' =>
        rw [hundefined] at hlower
        rw [compile_of_lower hlower] at hcompile
        cases herror.symm.trans hcompile
        obtain ⟨id, -, hid⟩ := List.exists_of_findSome?_eq_some hundefined
        cases hcategory.symm.trans (category_undefined? hid)
    · rw [hdefined] at hlower
      rw [compile_of_lower hlower] at hcompile
      obtain ⟨hnodup, hreach, hwhole⟩ := whole_of_some hway
      have hmem : ∀ f, f ∈ final.session.imports.loadedFiles ↔ f ∈ begun := fun f => by
        rw [mem_loadedFiles, show final.session.imports.loaded = begun from hfinal.begun]
      refine ⟨final.session.imports.loadedFiles, hcompile, ?_, fun f => (hmem f).trans (hreach f), fun f => ?_⟩
      · rw [Imports.loadedFiles, show final.session.imports.loaded = begun from hfinal.begun]
        exact (List.mergeSort_perm _ _).nodup_iff.mpr hnodup
      · rw [hwhole f]
        exact if_congr (hmem f).symm rfl rfl

/-- Four files, two of which import the same one. -/
def diamondWorld : World where
  tree := { files := [("/main.kite", "import \"a\"\nimport \"b\"\n"), ("/a.kite", "import \"c\"\n"),
    ("/b.kite", "import \"c\"\nvar y = x\n"), ("/c.kite", "var x = 1\n")] }

/-- Imports are looked for beside the importing file. -/
def besideOptions : CompileOptions := { imports := some {} }

def diamondFiles : List String := ["/main.kite", "/a.kite", "/b.kite", "/c.kite"]

def diamondView : View := ⟨diamondWorld.tree, "", []⟩

/-- What happens when the diamond is compiled. -/
def diamondEvents : List (Event FileStep) :=
  ((way? (diamondView.contents 0) 4 [] ["/main.kite"] "/main.kite").map Prod.fst).getD []

theorem way_diamondEvents : Way (diamondView.contents 0) [] ["/main.kite"] "/main.kite" (diamondView.contents 0 "/main.kite")
    diamondEvents (some ["/main.kite", "/a.kite", "/c.kite", "/b.kite"]) := by
  have hresult : (way? (diamondView.contents 0) 4 [] ["/main.kite"] "/main.kite").map Prod.snd =
      some (some ["/main.kite", "/a.kite", "/c.kite", "/b.kite"]) := by decide +kernel
  obtain ⟨⟨events, result⟩, hway, rfl⟩ := Option.map_eq_some_iff.mp hresult
  unfold diamondEvents
  rw [hway]
  exact way_of_way? hway

theorem happens_diamondEvents : ∃ final, final.declared = [] ∧
    Happens diamondView 20 (.enter "/main.kite" :: diamondEvents) (entryState diamondWorld besideOptions {}) final := by
  have hsome : (happen? diamondView 20 (.enter "/main.kite" :: diamondEvents) (entryState diamondWorld besideOptions {})).any
      (·.declared.isEmpty) = true := by
    unfold entryState Session.begin
    rw [Session.enterBuiltins_named (Session.ofOptions { besideOptions with imports := some {} }) Registry.names_standard]
    decide +kernel
  obtain ⟨final, hfinal, hempty⟩ := (Option.any_eq_true _ _).mp hsome
  exact ⟨final, List.isEmpty_iff.mp hempty, happens_of_happen? hfinal⟩

theorem compileEntry_diamond : ∃ final loaded,
    Happens diamondView 20 (.enter "/main.kite" :: diamondEvents) (entryState diamondWorld besideOptions {}) final ∧
    compileEntry diamondWorld besideOptions "/main.kite" = .ok (final.out.code.render, loaded) ∧ loaded.Nodup ∧
    "/c.kite" ∈ loaded := by
  have hlib : diamondView.Library 0 diamondFiles := View.library_of_isLibrary (by decide +kernel)
  obtain ⟨final, hdeclared, hhappens⟩ := happens_diamondEvents
  have hentry : Path.absolute diamondWorld.tree.cwd "/main.kite" = "/main.kite" := by decide +kernel
  have hroom : 20 + diamondFiles.length * (0 + 1) ≤ Session.levels := by decide +kernel
  have hmem : Path.absolute diamondWorld.tree.cwd "/main.kite" ∈ diamondFiles := by
    rw [hentry]
    exact List.mem_cons_self
  obtain ⟨-, hall⟩ := @compileEntry_once diamondWorld besideOptions "/main.kite" {} rfl rfl rfl
    Registry.sober_standard 0 20 diamondFiles hlib hmem hroom
  rw [hentry] at hall
  have hcycle : ¬ ∃ g, ImportOrder.Reaches (diamondView.contents 0) "/main.kite" g ∧
      ImportOrder.OnCycle (diamondView.contents 0) g :=
    fun h => Option.some_ne_none _ ((eq_none_iff way_diamondEvents).mpr h)
  have hdefined : final.declared.findSome? (Session.undefined? final.table) = none := by
    rw [hdeclared]
    rfl
  obtain ⟨-, hcode⟩ := hall diamondEvents _ final way_diamondEvents hhappens
  obtain ⟨loaded, hcompile, hnodup, hreach, -⟩ := hcode hcycle hdefined
  refine ⟨final, loaded, hhappens, hcompile, hnodup, (hreach _).mpr ?_⟩
  obtain ⟨-, hbegun, -⟩ := whole_of_some way_diamondEvents
  exact (hbegun _).mp (by decide)

end Frontend
