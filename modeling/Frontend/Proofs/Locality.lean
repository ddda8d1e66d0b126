import Frontend.Project.Basic
import Frontend.Proofs.File.Full
import Frontend.Proofs.Judgement.Visit
import Frontend.Proofs.Lowering.Unit
import Frontend.Proofs.Token.Place

/-!
# Steps that depend on few files

Lowering looks at files only to follow imports, and at the text at hand only to tell failures. `Repeats`
is the judgement that whenever one step succeeds, another one goes the same way when it sees other files
and another text, as long as the files that are loaded are there as before and imports lead to them.
Two steps differ in how many levels of nesting they allow.
The judgement is closed under everything that steps are built from; only following an import needs an
argument of its own: an import leads to the same loaded file after a harmless change, and the items in it
are lowered the same way. So an entry file that was compiled is compiled to the same code, with the same
files loaded.
-/

namespace Frontend

namespace View

/-- The file that an import means. -/
def resolve (v : View) (path importer : String) : Except ImportError String :=
  Imports.resolve { root := v.root, search := v.search } v.files path importer

end View

namespace Locality

/-- A change of what lowering sees while certain files are loaded. -/
structure Change where
  before : View
  after : View
  loaded : Set String

/-- Nothing that belongs to the loaded files has changed: they are there with the same texts, and the
imports in them that meant loaded files mean the same ones. Unless all files count as loaded, the loaded
ones are known by absolute paths. -/
structure Change.Harmless (c : Change) : Prop where
  cwd : c.after.files.cwd = c.before.files.cwd
  absolute : c.loaded = Set.univ ∨ Path.isAbsolute c.before.files.cwd = true
  text : ∀ f ∈ c.loaded, c.after.files.read? f = c.before.files.read? f
  found : ∀ importer ∈ c.loaded, ∀ path, ∀ f ∈ c.loaded,
    c.before.resolve path importer = .ok f → c.after.resolve path importer = .ok f

def Change.unchanged (v : View) : Change := ⟨v, v, Set.univ⟩

theorem Change.harmless_unchanged (v : View) : (unchanged v).Harmless :=
  ⟨rfl, .inl rfl, fun _ _ => rfl, fun _ _ _ _ _ hf => hf⟩

/-- Whenever the first step succeeds, the second one goes the same way after the change. -/
def Repeats (c : Change) {α : Type} (p q : Lower α) : Prop :=
  ∀ s a s', p s = (.ok a, s') → Kept s s' ∧
    (s.view = c.before → s.file ∈ c.loaded → (∀ f ∈ s'.loaded, f ∈ c.loaded) →
      ∀ src, q (s.seeing c.after src) = (.ok a, s'.seeing c.after src))

/-- A family of two steps, of which the second one repeats the first one. -/
def repeats (c : Change) : Lower.Judgement false where
  At _ s _ p := ∀ a s', p false s = (.ok a, s') → Kept s s' ∧
    (s.view = c.before → s.file ∈ c.loaded → (∀ f ∈ s'.loaded, f ∈ c.loaded) →
      ∀ src, p true (s.seeing c.after src) = (.ok a, s'.seeing c.after src))
  plain {_ s _ p} h a s' hp := by
    have hkept := h.kept
    change p s = (.ok a, s') at hp
    rw [hp] at hkept
    refine ⟨hkept, fun _ _ _ src => ?_⟩
    change p (s.seeing c.after src) = _
    rw [h.same, hp]
  weaken h := h
  bind {_ s _ _ p f} hp hf b s'' h := by
    change Lower.andThen (p false) (f false) s = (.ok b, s'') at h
    unfold Lower.andThen at h
    split at h
    · next a s' heq =>
      obtain ⟨kept, same⟩ := hp a s' heq
      obtain ⟨kept', same'⟩ := hf a s' heq b s'' h
      refine ⟨kept.trans kept', fun hview hfile hloaded src => ?_⟩
      have first := same hview hfile (fun f hf => hloaded f (kept'.loaded hf)) src
      have second := same' (kept.view.trans hview) (kept.file ▸ hfile) hloaded src
      change Lower.andThen (p true) (f true) _ = _
      rw [Lower.andThen, first]
      exact second
    · cases h
  within {_ _ s _ _ f p} hf hp b s' h := by
    change f.leave s (p false (f.enter s)) = (.ok b, s') at h
    cases hrun : p false (f.enter s) with
    | mk r t =>
      rw [hrun] at h
      cases r with
      | error e => exact absurd (congrArg Prod.fst h) (hf.fails s e t b)
      | ok a =>
        obtain ⟨kept, same⟩ := hp a t hrun
        have around := hf.kept s (.ok a) t kept
        rw [h] at around
        refine ⟨around, fun hview hfile hloaded src => ?_⟩
        have left : s'.loaded = t.loaded := by rw [← hf.left s (.ok a, t), h]
        have inner := same ((hf.entered s).1.trans hview) ((hf.entered s).2 ▸ hfile)
          (fun f hf => hloaded f (left ▸ hf)) src
        change f.leave (s.seeing c.after src) (p true (f.enter (s.seeing c.after src))) = _
        rw [hf.enter_seeing, inner, hf.leave_seeing, h]

variable {c : Change} {visit visit' : Visit}

/-- The visitors of two steps. -/
def visitors (visit visit' : Visit) : Bool → Visit
  | false => visit
  | true => visit'

theorem holds_visitors (hv : ∀ n, Repeats c (visit n) (visit' n)) (n : Node) :
    (repeats c).Holds n.leaves fun i => visitors visit visit' i n := hv n

end Locality

/-! ## Imports -/

variable {i : Imports} {t : FileTree} {f file : String} {u : Unit} {p : Program} {src : Source}
variable {t' : FileTree} {entry : String}

namespace Lower

variable {visit : Visit} {s s' : Lowering}

/-- Which files are being compiled depends on the working directory only. -/
theorem onStack_eq (h : t'.cwd = t.cwd) (f : String) : i.onStack t' f = i.onStack t f := by
  unfold Imports.onStack
  rw [h]

theorem isLoaded_eq (h : t'.cwd = t.cwd) (f : String) : i.isLoaded t' f = i.isLoaded t f := by
  unfold Imports.isLoaded
  rw [h]

theorem isLoaded_eq_of_full (h : Path.Full f) : i.isLoaded t f = i.loaded.contains f := by
  unfold Imports.isLoaded
  rw [h.absolute_eq]

/-- What starting on a file does when it succeeds. -/
theorem startFile_eq_ok (hfile : file.isEmpty = false) :
    Lower.startFile file s = (.ok u, s') ↔ s.session.imports.onStack s.files file = false ∧
      s' = { s with session := { s.session with
        imports := Imports.markLoaded
          { s.session.imports with stack := file :: s.session.imports.stack } s.files file } } := by
  unfold Lower.startFile Imports.push
  rw [hfile]
  cases hstack : s.session.imports.onStack s.files file with
  | true => simp
  | false => simpa using eq_comm

/-- What an import does when it succeeds. -/
theorem importFile_eq_ok {path : Token} {n : Node} :
    Lower.importFile (Lower.unit visit) path n s = (.ok u, s') ↔ ¬ 0 < s.session.symbols.level ∧
      ∃ f, s.session.imports.resolve s.files path.literal s.file = .ok f ∧
        s.session.imports.onStack s.files f = false ∧ (s.session.imports.isLoaded s.files f = true ∧ s' = s ∨
          s.session.imports.isLoaded s.files f = false ∧ ∃ text p, Imports.load s.files f = .ok text ∧
            Program.ofSource (Source.ofString text) f = .ok p ∧
            Lower.unit visit p (Source.ofString text) s = (.ok u, s')) := by
  unfold Lower.importFile
  simp only [bind, Lower.andThen, Lower.table, Lower.ask]
  split
  next hlevel => exact ⟨fun h => (by cases h), fun h => absurd hlevel h.1⟩
  next hlevel =>
    simp only [Lower.andThen, Lower.ask, hlevel, not_false_eq_true, true_and]
    cases s.session.imports.resolve s.files path.literal s.file with
    | error e => simp [Lower.fail, Lower.failWith]
    | ok f =>
      cases hstack : s.session.imports.onStack s.files f with
      | true => simp [hstack, Lower.fail, Lower.failWith]
      | false =>
        cases hloaded : s.session.imports.isLoaded s.files f with
        | true => simpa [hstack, hloaded, pure, Lower.succeed] using eq_comm
        | false =>
          cases hload : Imports.load s.files f with
          | error e => simp [hstack, hloaded, hload, Lower.fail, Lower.failWith]
          | ok text =>
            cases hp : Program.ofSource (Source.ofString text) f with
            | error e => simp [hstack, hloaded, hload, hp, Lower.failWith]
            | ok p => simp [hstack, hloaded, hload, hp]

end Lower

namespace Locality

variable {c : Change} {visit visit' : Visit} {s s' : Lowering}

theorem Repeats.exec (hv : ∀ n, Repeats c (visit n) (visit' n)) (n : Node) :
    Repeats c (Lower.exec visit n) (Lower.exec visit' n) :=
  (Lower.Judgement.exec (holds_visitors hv) n : (repeats c).Holds true _)

theorem Repeats.items (hv : ∀ n, Repeats c (visit n) (visit' n)) (ns : List Node) :
    Repeats c (Lower.items visit ns) (Lower.items visit' ns) :=
  (Lower.Judgement.items (holds_visitors hv) ns : (repeats c).Holds true _)

/-- Failures are told with their line, successes are not touched. -/
theorem showingLine_eq_ok {α : Type} {p : Lower α} {a : α} :
    Lower.showingLine p s = (.ok a, s') ↔ p s = (.ok a, s') := by
  unfold Lower.showingLine
  split
  next d final h => simp [h]
  next => rfl

/-! ## Files -/

/-- What lowering the items of a file does when it succeeds. -/
theorem unit_eq_ok : Lower.unit visit p src s = (.ok u, s') ↔ ∃ s₁ s₂,
      Lower.startFile p.file { s with file := p.file, source := src } = (.ok (), s₁) ∧
      Lower.items visit p.body s₁ = (.ok u, s₂) ∧ s' = { s₂ with
        file := s.file
        source := s.source
        session := { s₂.session with
          imports := s₂.session.imports.popTo s.session.imports.depth } } := by
  unfold Lower.unit Lower.ensuring
  simp only [bind, Lower.andThen]
  cases hstart : Lower.startFile p.file { s with file := p.file, source := src } with
  | mk started s₁ =>
    cases started with
    | error e => simp
    | ok u₁ =>
      cases hrun : Lower.showingLine (Lower.items visit p.body) s₁ with
      | mk result s₂ =>
        simp only [hrun, Prod.mk.injEq]
        constructor
        · rintro ⟨rfl, rfl⟩
          exact ⟨s₁, s₂, ⟨trivial, rfl⟩, showingLine_eq_ok.mp hrun, rfl⟩
        · rintro ⟨s₁', s₂', ⟨-, rfl⟩, hitems, rfl⟩
          obtain ⟨rfl, rfl⟩ := Prod.mk.inj (hrun.symm.trans (showingLine_eq_ok.mpr hitems))
          exact ⟨rfl, rfl⟩

theorem subset_markLoaded (i : Imports) (t : FileTree) (f : String) : i.loaded ⊆ (i.markLoaded t f).loaded := by
  unfold Imports.markLoaded
  dsimp only
  split
  · exact List.Subset.refl _
  · exact List.subset_append_left _ _

theorem mem_markLoaded (hf : Path.Full f) (i : Imports) (t : FileTree) : f ∈ (i.markLoaded t f).loaded := by
  unfold Imports.markLoaded
  rw [hf.absolute_eq]
  dsimp only
  split
  next hmem => exact List.contains_iff_mem.mp hmem
  next => exact List.mem_append_right _ List.mem_cons_self

theorem markLoaded_root (i : Imports) (t : FileTree) (f : String) :
    (i.markLoaded t f).root = i.root ∧ (i.markLoaded t f).search = i.search := by
  unfold Imports.markLoaded
  dsimp only
  split <;> exact ⟨rfl, rfl⟩

theorem kept_startFile (h : Lower.startFile file s = (.ok u, s')) : Kept s s' := by
  unfold Lower.startFile at h
  split at h
  · cases h
    exact Kept.refl s
  · split at h
    · cases h
    next i hpush =>
      unfold Imports.push at hpush
      split at hpush
      · cases hpush
      · cases hpush
        cases h
        refine ⟨?_, rfl, subset_markLoaded
          { s.session.imports with stack := file :: s.session.imports.stack } s.files file, [], rfl⟩
        unfold Lowering.view
        simp only [markLoaded_root]

/-- Starting on a file depends on the working directory only. -/
theorem startFile_seeing {v : View} (hcwd : v.files.cwd = s.files.cwd)
    (h : Lower.startFile file s = (.ok u, s')) (src : Source) :
    Lower.startFile file (s.seeing v src) = (.ok u, s'.seeing v src) := by
  cases hfile : file.isEmpty with
  | true =>
    unfold Lower.startFile at h ⊢
    rw [if_pos hfile] at h ⊢
    cases h
    rfl
  | false =>
    obtain ⟨hstack, rfl⟩ := (Lower.startFile_eq_ok hfile).mp h
    refine (Lower.startFile_eq_ok hfile).mpr ⟨(Lower.onStack_eq hcwd file).trans hstack, ?_⟩
    unfold Lowering.seeing Imports.markLoaded
    simp only [hcwd]
    split <;> rfl

theorem mem_loaded_of_unit (hv : ∀ n, Repeats c (visit n) (visit' n)) (hp : Path.Full p.file)
    (h : Lower.unit visit p src s = (.ok u, s')) : p.file ∈ s'.loaded := by
  obtain ⟨s₁, s₂, hstart, hitems, rfl⟩ := unit_eq_ok.mp h
  obtain ⟨-, rfl⟩ := (Lower.startFile_eq_ok hp.isEmpty_eq).mp hstart
  exact (Repeats.items hv p.body _ u s₂ hitems).1.loaded (mem_markLoaded hp _ _)

/-- The items of a file are lowered the same way after a harmless change. Which file was at hand before
does not matter. -/
theorem unit_seeing (hc : c.Harmless) (hv : ∀ n, Repeats c (visit n) (visit' n))
    (h : Lower.unit visit p src s = (.ok u, s')) :
    Kept s s' ∧ (s.view = c.before → p.file ∈ c.loaded → (∀ f ∈ s'.loaded, f ∈ c.loaded) →
      ∀ text, Lower.unit visit' p src (s.seeing c.after text) = (.ok u, s'.seeing c.after text)) := by
  obtain ⟨s₁, s₂, hstart, hitems, rfl⟩ := unit_eq_ok.mp h
  have started := kept_startFile hstart
  obtain ⟨kept, same⟩ := Repeats.items hv p.body s₁ u s₂ hitems
  have around := started.trans kept
  refine ⟨⟨around.view, rfl, around.loaded, around.out⟩, fun hview hfile hloaded text => ?_⟩
  have hcwd : c.after.files.cwd = s.files.cwd := by
    rw [hc.cwd, ← hview]
    rfl
  have first := startFile_seeing (s := { s with file := p.file, source := src }) hcwd hstart src
  have second := same (started.view.trans hview) (started.file ▸ hfile) hloaded src
  exact unit_eq_ok.mpr ⟨s₁.seeing c.after src, s₂.seeing c.after src, first, second, rfl⟩

theorem load_eq_ok {text : String} : Imports.load t f = .ok text ↔ t.read? f = some text := by
  unfold Imports.load FileTree.read?
  split
  next h => simp [h, Except.toOption]
  next h => simp [h, Except.toOption]
  next h => simp [h, Except.toOption]

/-- Where an import leads depends on what is seen only. -/
theorem resolve_eq (i : Imports) (t : FileTree) (path importer : String) :
    i.resolve t path importer = View.resolve ⟨t, i.root, i.search⟩ path importer := by
  have same : i.candidates = Imports.candidates { root := i.root, search := i.search } := rfl
  unfold View.resolve Imports.resolve
  rw [same]

theorem full_of_resolve {path importer : String} (hcwd : Path.isAbsolute t.cwd = true)
    (h : i.resolve t path importer = .ok f) : Path.Full f := by
  unfold Imports.resolve at h
  dsimp only at h
  split at h
  · obtain rfl := Except.ok.inj h
    exact Path.full_absolute hcwd _
  · cases h

/-- An import that leads to a loaded file leads there after a harmless change, too. -/
theorem Repeats.importFile (hc : c.Harmless) (hv : ∀ n, Repeats c (visit n) (visit' n)) (path : Token) (n : Node) :
    Repeats c (Lower.importFile (Lower.unit visit) path n) (Lower.importFile (Lower.unit visit') path n) := by
  intro s u s' h
  obtain ⟨hlevel, f, hfound, hstack, hrest⟩ := Lower.importFile_eq_ok.mp h
  refine ⟨?_, fun hview hfile hloaded src => ?_⟩
  · rcases hrest with ⟨-, rfl⟩ | ⟨-, text, p, -, -, hunit⟩
    · exact Kept.refl _
    · exact (unit_seeing hc hv hunit).1
  have hfiles : s.files = c.before.files := congrArg View.files hview
  have hcwd : c.after.files.cwd = s.files.cwd := by rw [hc.cwd, hfiles]
  -- the file that the import leads to is loaded in the end, whether or not it was before
  have hmem : f ∈ c.loaded := by
    rcases hc.absolute with hall | habsolute
    · rw [hall]
      trivial
    · have full : Path.Full f := full_of_resolve (hfiles ▸ habsolute) hfound
      rcases hrest with ⟨hbefore, rfl⟩ | ⟨-, text, p, -, hp, hunit⟩
      · rw [Lower.isLoaded_eq_of_full full] at hbefore
        exact hloaded f (List.contains_iff_mem.mp hbefore)
      · obtain rfl : p.file = f := Program.file_of_ofSource hp
        exact hloaded _ (mem_loaded_of_unit hv full hunit)
  have leads : (s.seeing c.after src).session.imports.resolve (s.seeing c.after src).files
      path.literal (s.seeing c.after src).file = .ok f := by
    have sought : s.view.resolve path.literal s.file = .ok f := (resolve_eq ..).symm.trans hfound
    rw [hview] at sought
    exact (resolve_eq ..).trans (hc.found s.file hfile path.literal f hmem sought)
  refine Lower.importFile_eq_ok.mpr ⟨hlevel, f, leads, (Lower.onStack_eq hcwd f).trans hstack, ?_⟩
  rcases hrest with ⟨hbefore, rfl⟩ | ⟨hbefore, text, p, hload, hp, hunit⟩
  · exact .inl ⟨(Lower.isLoaded_eq hcwd f).trans hbefore, rfl⟩
  · refine .inr ⟨(Lower.isLoaded_eq hcwd f).trans hbefore, text, p, ?_, hp, ?_⟩
    · rw [load_eq_ok] at hload ⊢
      rw [← hload, hfiles]
      exact hc.text f hmem
    · exact (unit_seeing hc hv hunit).2 hview (Program.file_of_ofSource hp ▸ hmem) hloaded src

/-! ## Nodes -/

/-- One level: every construct, given what is inside of it. -/
theorem repeats_visitWith (hc : c.Harmless) (hv : ∀ n, Repeats c (visit n) (visit' n)) (n : Node) :
    Repeats c (Lower.visitWith visit n) (Lower.visitWith visit' n) :=
  (Lower.Judgement.visitWith (holds_visitors hv) (Repeats.importFile hc hv) n : (repeats c).Holds n.leaves _)

/-- Levels of nesting that are not needed do not matter. -/
theorem repeats_visit (hc : c.Harmless) {levels more : Nat} (hle : levels ≤ more) (n : Node) :
    Repeats c (Lower.visit levels n) (Lower.visit more n) := by
  induction levels generalizing more n with
  | zero => rintro s a s' ⟨⟩
  | succ levels ih =>
    cases more with
    | zero => exact absurd hle (Nat.not_succ_le_zero levels)
    | succ more => exact repeats_visitWith hc (ih (Nat.le_of_succ_le_succ hle)) n

/-! ## Entry files -/

/-- A program is compiled the same way after a harmless change. -/
theorem compile_seeing (hc : c.Harmless) {o : CompileOptions} {code : Code} {after : Session}
    (hp : Path.Full p.file) (hbefore : c.before = ⟨c.before.files, i.root, i.search⟩)
    (h : (Session.ofOptions { o with imports := some i }).compile c.before.files o.annotate p src =
      (.ok code, after)) (hloaded : ∀ f ∈ after.imports.loaded, f ∈ c.loaded) :
    ∃ after', (Session.ofOptions { o with
        imports := some { i with root := c.after.root, search := c.after.search } }).compile
          c.after.files o.annotate p src = (.ok code, after') ∧ after'.imports.loaded = after.imports.loaded := by
  obtain ⟨final, hlower, rfl, rfl⟩ := Session.compile_eq_ok.mp h
  obtain ⟨hunit, hdeclared⟩ := Session.lower_eq_ok.mp hlower
  have hvisit := repeats_visit hc (Nat.le_refl Session.levels)
  have hmem := hloaded _ (mem_loaded_of_unit hvisit hp hunit)
  have same := (unit_seeing hc hvisit hunit).2 hbefore.symm hmem hloaded []
  refine ⟨_, Session.compile_eq_ok.mpr ⟨final.seeing c.after [], ?_, rfl, rfl⟩, rfl⟩
  exact Session.lower_eq_ok.mpr ⟨same, hdeclared⟩

/-- What compiling an entry file does when it succeeds. -/
theorem compileEntry_eq_ok {w : World} {o : CompileOptions} {path code : String} {loaded : List String} :
    compileEntry w o path = .ok (code, loaded) ↔ ∃ i text p lines after,
      o.importsFor w (Path.absolute w.tree.cwd path) = .ok i ∧
      w.tree.read? (Path.absolute w.tree.cwd path) = some text ∧
      Program.ofSource (Source.ofString text) (Path.absolute w.tree.cwd path) = .ok p ∧
      (Session.ofOptions { o with imports := some i }).compile w.tree o.annotate p
        (Source.ofString text) = (.ok lines, after) ∧
      Code.render lines = code ∧ after.imports.loadedFiles = loaded := by
  unfold compileEntry
  dsimp only
  generalize Path.absolute w.tree.cwd path = file
  cases o.importsFor w file with
  | error e => simp [bind, Except.bind]
  | ok i =>
    simp only [bind, Except.bind, ← load_eq_ok]
    cases Imports.load w.tree file with
    | error e => simp
    | ok text =>
      dsimp only
      cases hp : Program.ofSource (Source.ofString text) file with
      | error e => simp [hp]
      | ok p =>
        dsimp only
        cases hrun : (Session.ofOptions { o with imports := some i }).compile w.tree o.annotate p
            (Source.ofString text) with
        | mk result after => cases result <;> simp [hp, hrun]

theorem mem_loadedFiles : f ∈ i.loadedFiles ↔ f ∈ i.loaded :=
  (List.mergeSort_perm _ _).mem_iff

/-- Imports begin with no file loaded. -/
theorem empty_of_forFile {w : World} (h : (match Imports.forFile w entry with
      | .ok i => .ok i
      | .error e => .error (.other (.text e.text)) : Except Failure Imports) = .ok i) :
    i.loaded = [] ∧ i.stack = [] := by
  unfold Imports.forFile at h
  cases hd : Config.discover w.tree entry <;> rw [hd] at h <;> cases h
  exact ⟨rfl, rfl⟩

/-- The imports of an entry file start out the same way at any time, except for where they look. -/
theorem importsFor_eq {o : CompileOptions} {w w' : World} {i' : Imports} (h : o.importsFor w entry = .ok i)
    (h' : o.importsFor w' entry = .ok i') : i' = { i with root := i'.root, search := i'.search } := by
  unfold CompileOptions.importsFor at h h'
  cases ho : o.imports with
  | some given =>
    rw [ho] at h h'
    cases h
    cases h'
    rfl
  | none =>
    rw [ho] at h h'
    obtain ⟨hl, hs⟩ := empty_of_forFile h
    obtain ⟨hl', hs'⟩ := empty_of_forFile h'
    obtain ⟨root, search, loaded, stack⟩ := i'
    simp_all

end Locality

/-- Where an import in a file leads when an entry file is compiled. -/
def CompileOptions.Means (o : CompileOptions) (w : World) (entry path importer f : String) : Prop :=
  ∃ i, o.importsFor w entry = .ok i ∧ i.resolve w.tree path importer = .ok f

/-- In another world, the imports of an entry file that lead from one loaded file to another still
lead there. -/
structure SameImports (o : CompileOptions) (entry : String) (loaded : List String) (w w' : World) :
    Prop where
  settled : ∃ i, o.importsFor w' entry = .ok i
  means : ∀ importer ∈ loaded, ∀ path, ∀ f ∈ loaded,
    o.Means w entry path importer f → o.Means w' entry path importer f

variable {w w' : World} {o : CompileOptions} {path code : String} {loaded : List String}

/-- The entry file is among the loaded files. -/
theorem mem_of_compileEntry (hcwd : Path.isAbsolute w.tree.cwd = true)
    (h : compileEntry w o path = .ok (code, loaded)) : Path.absolute w.tree.cwd path ∈ loaded := by
  obtain ⟨i, text, p, lines, after, hi, hread, hp, hcompile, rfl, rfl⟩ :=
    Locality.compileEntry_eq_ok.mp h
  have hfile := Program.file_of_ofSource hp
  obtain ⟨final, hlower, rfl, rfl⟩ := Session.compile_eq_ok.mp hcompile
  have hvisit := Locality.repeats_visit
    (Locality.Change.harmless_unchanged ⟨w.tree, i.root, i.search⟩)
    (Nat.le_refl Session.levels)
  have hmem := Locality.mem_loaded_of_unit hvisit (hfile ▸ Path.full_absolute hcwd path)
    (Session.lower_eq_ok.mp hlower).1
  exact Locality.mem_loadedFiles.mpr (hfile ▸ hmem)

/-- **Compilation depends on the loaded files only.** An entry file that was compiled is compiled to
the same code in a world in which the loaded files have the same texts, and imports between them lead
where they did. -/
theorem compileEntry_of_sameImports (hcwd : w'.tree.cwd = w.tree.cwd)
    (habsolute : Path.isAbsolute w.tree.cwd = true) (h : compileEntry w o path = .ok (code, loaded))
    (htext : ∀ f ∈ loaded, w'.tree.read? f = w.tree.read? f)
    (hsame : SameImports o (Path.absolute w.tree.cwd path) loaded w w') :
    compileEntry w' o path = .ok (code, loaded) := by
  have entry := mem_of_compileEntry habsolute h
  obtain ⟨i, text, p, lines, after, hi, hread, hp, hcompile, rfl, rfl⟩ :=
    Locality.compileEntry_eq_ok.mp h
  obtain ⟨i', hi'⟩ := hsame.settled
  have full : Path.Full p.file := Program.file_of_ofSource hp ▸ Path.full_absolute habsolute path
  have harmless : Locality.Change.Harmless {
      before := ⟨w.tree, i.root, i.search⟩
      after := ⟨w'.tree, i'.root, i'.search⟩
      loaded := { f | f ∈ after.imports.loadedFiles } } := by
    refine ⟨hcwd, .inr habsolute, htext, fun importer himporter path f hf hfound => ?_⟩
    rw [← Locality.resolve_eq] at hfound ⊢
    obtain ⟨j, hj, hresolve⟩ := hsame.means importer himporter path f hf ⟨i, hi, hfound⟩
    rw [hi'] at hj
    rw [Except.ok.inj hj]
    exact hresolve
  obtain ⟨after', hcompile', hloaded⟩ := Locality.compile_seeing harmless full rfl hcompile
    fun f hf => Locality.mem_loadedFiles.mpr hf
  rw [← Locality.importsFor_eq hi hi'] at hcompile'
  refine Locality.compileEntry_eq_ok.mpr ⟨i', text, p, lines, after', ?_, ?_, ?_, hcompile', rfl, ?_⟩
  · rw [hcwd]
    exact hi'
  · rw [hcwd, htext _ entry]
    exact hread
  · rw [hcwd]
    exact hp
  · unfold Imports.loadedFiles
    rw [hloaded]

/-- The code of an entry file is what compiling it gives. -/
theorem compileFile_eq_ok :
    compileFile w o path = .ok code ↔ ∃ loaded, compileEntry w o path = .ok (code, loaded) := by
  unfold compileFile
  cases compileEntry w o path with
  | error e => simp [Except.map]
  | ok result => obtain ⟨code', loaded⟩ := result; simp [Except.map]

/-- An entry file is compiled under its absolute path as under any other. -/
theorem compileEntry_absolute (hcwd : Path.isAbsolute w.tree.cwd = true) :
    compileEntry w o (Path.absolute w.tree.cwd path) = .ok (code, loaded) ↔
      compileEntry w o path = .ok (code, loaded) := by
  rw [Locality.compileEntry_eq_ok, Locality.compileEntry_eq_ok, (Path.full_absolute hcwd path).absolute_eq]

end Frontend
