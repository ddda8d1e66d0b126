import Frontend.Proofs.Cache.Project

/-!
# Code from a cache is fresh

While files of a project are written and removed, its entry file is compiled again and again with a
cache. The main theorem says that every call gives what compiling without a cache would give at that
moment.

A cache looks at the texts of the files that were loaded, and not at the places where imports were
looked for. A new file in front of a loaded one, or new settings of the project, make an import mean
something else while all loaded files stay as they are, and then the cache gives old code. `Orderly`
leaves that out, and the last section shows what happens otherwise.
-/

namespace Frontend

open FileTree

variable {text code key : String} {loaded : List String} {digests : List (String × String)}
variable {c : Cache} {t : FileTree} {targets : List (String × String)} {value : String}

/-- Hashes tell apart the texts that a file has in two worlds. -/
structure TellsApart (o : CompileOptions) (path : String) (w w' : World) : Prop where
  text : ∀ f a b, w.tree.read? f = some a → w'.tree.read? f = some b →
    Digest.ofText a = Digest.ofText b → a = b
  key : ∀ a b, w.tree.read? (Path.absolute w.tree.cwd path) = some a →
    w'.tree.read? (Path.absolute w'.tree.cwd path) = some b → o.cacheKey a = o.cacheKey b → a = b

/-- As long as the loaded files have the same texts, imports between them lead where they did. -/
def Steady (o : CompileOptions) (path : String) (w w' : World) : Prop :=
  ∀ code loaded, compileEntry w o path = .ok (code, loaded) →
    (∀ f ∈ loaded, w'.tree.read? f = w.tree.read? f) →
    SameImports o (Path.absolute w.tree.cwd path) loaded w w'

namespace CachedProject

section Orderly

variable (o : CompileOptions) (path : String)

/-- No file with code in the cache is loaded as if it were source text. -/
def LoadsNoCode (c : Cache) (w : World) : Prop :=
  ∀ code loaded, compileEntry w o path = .ok (code, loaded) → ∀ f ∈ loaded, ∀ key place,
    w.tree.place? f = some place → w.tree.place? (c.codeFile key) ≠ some place

/-- The code in the cache has nothing to do with the project: only the cache touches it, and it is not
loaded. -/
def CodeApart : CachedProject → List ProjectEvent → Prop
  | _, [] => True
  | s, e :: events =>
    (if e = .compile then
      ∀ w ∈ [s.world, looked o path s], LoadsNoCode o path s.cache w
    else
      ∀ key, (after o path s e).world.tree.read? (s.cache.codeFile key) =
        s.world.tree.read? (s.cache.codeFile key)) ∧
    CodeApart (after o path s e) events

/-- A course of events in which a cache can be trusted: its code is left alone, hashes tell texts
apart, and imports lead where they did while the loaded files stay as they are. -/
structure Orderly (s : CachedProject) (events : List ProjectEvent) : Prop where
  apart : CodeApart o path s events
  hash : ∀ w ∈ moments o path s events, ∀ w' ∈ moments o path s events, TellsApart o path w w'
  steady : ∀ w ∈ moments o path s events, ∀ w' ∈ moments o path s events, Steady o path w w'

end Orderly

end CachedProject

/-! ## What a cache holds -/

/-- Stored code is that of the project as it was in some world, with the key and the digests that the
files had there. -/
structure CodeOf (o : CompileOptions) (path : String) (w : World) (code : StoredCode) : Prop where
  key : ∃ text, w.tree.read? (Path.absolute w.tree.cwd path) = some text ∧ code.key = o.cacheKey text
  compiled : ∃ loaded, compileEntry w o path = .ok (code.text, loaded) ∧
    ∀ f ∈ loaded, f ≠ Path.absolute w.tree.cwd path →
      ∃ digest, (f, digest) ∈ code.digests ∧ (w.tree.read? f).map Digest.ofText = some digest

namespace CachedProject

variable {o : CompileOptions} {path : String} {past : List World} {s : CachedProject}

/-- What holds of a project with a cache throughout: all code in the cache is that of the project as it
was at some moment of the past. -/
structure Faithful (o : CompileOptions) (path : String) (past : List World) (s : CachedProject) :
    Prop where
  absolute : Path.isAbsolute s.world.tree.cwd = true
  held : ∃ targets last, (∀ target ∈ targets, target.1 = s.entry path) ∧
    Cache.Sound s.cache s.world.tree targets last (s.cache, s.world.tree) ∧
    ∀ code, last (s.entry path) = some code →
      ∃ w ∈ past, w.tree.cwd = s.world.tree.cwd ∧ CodeOf o path w code

/-- A cache with one entry file keeps its code apart. -/
theorem apart_of_targets {file : String} (h : ∀ target ∈ targets, target.1 = file) : Cache.Apart c t targets :=
  fun p k q k' hp hq hne => absurd ((h (p, k) hp).trans (h (q, k') hq).symm) hne

/-- Code that still counts is what compiling gives now. -/
theorem compileEntry_of_codeOf {w w' : World} {code : StoredCode} (hcwd : w'.tree.cwd = w.tree.cwd)
    (habsolute : Path.isAbsolute w.tree.cwd = true) (h : CodeOf o path w code)
    (htext : w'.tree.read? (Path.absolute w'.tree.cwd path) = some text)
    (hkey : code.key = o.cacheKey text) (hdigests : ∀ f digest, (f, digest) ∈ code.digests →
      (w'.tree.read? f).map Digest.ofText = some digest) (hhash : TellsApart o path w w')
    (hsteady : Steady o path w w') : ∃ loaded, compileEntry w' o path = .ok (code.text, loaded) := by
  obtain ⟨old, hold, hkey'⟩ := h.key
  obtain ⟨loaded, hcompile, hloaded⟩ := h.compiled
  obtain rfl := hhash.key old text hold htext (hkey'.symm.trans hkey)
  have same : ∀ f ∈ loaded, w'.tree.read? f = w.tree.read? f := by
    intro f hf
    by_cases he : f = Path.absolute w.tree.cwd path
    · rw [he, hold, ← hcwd, htext]
    · obtain ⟨digest, hmem, hread⟩ := hloaded f hf he
      obtain ⟨a, ha, hda⟩ := Option.map_eq_some_iff.mp hread
      obtain ⟨b, hb, hdb⟩ := Option.map_eq_some_iff.mp (hdigests f digest hmem)
      rw [ha, hb, hhash.text f a b ha hb (hda.trans hdb.symm)]
  exact ⟨loaded, compileEntry_of_sameImports hcwd habsolute hcompile same (hsteady code.text loaded hcompile same)⟩

/-! ## One compilation -/

section
variable (h : Faithful o path past s)
include h

/-- Asking the cache for code leaves all files as they were, except for those with code. -/
theorem Faithful.read?_looked : SameDirs s.world.tree (looked o path s).tree ∧
    ∀ f, (∀ key q, s.world.tree.place? f = some q → s.world.tree.place? (s.cache.codeFile key) ≠ some q) →
      (looked o path s).tree.read? f = s.world.tree.read? f := by
  obtain ⟨targets, last, htargets, hsound, -⟩ := h.held
  unfold looked
  dsimp only
  split
  · exact ⟨.refl _, fun _ _ => rfl⟩
  next text _ =>
    refine ⟨(hsound.get (apart_of_targets htargets) _ _).dirs, fun f hf => ?_⟩
    obtain ⟨_, _, _, _, _, _, _, hfiles⟩ | ⟨-, hfiles⟩ :=
      s.cache.get_cases s.world.tree (s.entry path) (o.cacheKey text)
    · rw [hfiles]
    · rw [hfiles]
      exact hsound.read?_removeEntry _ hf

/-- Files that are loaded after the cache was asked are as they were before. -/
theorem Faithful.read?_loaded (hcode : LoadsNoCode o path s.cache (looked o path s))
    (hcompile : compileEntry (looked o path s) o path = .ok (code, loaded)) {f : String}
    (hf : f ∈ loaded) : (looked o path s).tree.read? f = s.world.tree.read? f := by
  obtain ⟨hdirs, hfiles⟩ := h.read?_looked
  refine hfiles f fun key q hq => ?_
  rw [← place?_eq hdirs] at hq ⊢
  exact hcode code loaded hcompile f hf key q hq

/-- Compiling after the cache was asked gives what compiling before gives. -/
theorem Faithful.compileEntry_looked (hcode : ∀ w ∈ [s.world, looked o path s], LoadsNoCode o path s.cache w)
    (hsteady : Steady o path s.world (looked o path s))
    (hsteady' : Steady o path (looked o path s) s.world) (code : String) (loaded : List String) :
    compileEntry (looked o path s) o path = .ok (code, loaded) ↔
      compileEntry s.world o path = .ok (code, loaded) := by
  obtain ⟨hdirs, hfiles⟩ := h.read?_looked
  constructor
  · intro hcompile
    have same : ∀ f ∈ loaded, s.world.tree.read? f = (looked o path s).tree.read? f := fun f hf =>
      (h.read?_loaded (hcode _ (by simp)) hcompile hf).symm
    exact compileEntry_of_sameImports hdirs.cwd.symm (hdirs.cwd ▸ h.absolute) hcompile same
      (hsteady' code loaded hcompile same)
  · intro hcompile
    have same : ∀ f ∈ loaded, (looked o path s).tree.read? f = s.world.tree.read? f := fun f hf =>
      hfiles f (hcode _ (by simp) code loaded hcompile f hf)
    exact compileEntry_of_sameImports hdirs.cwd h.absolute hcompile same
      (hsteady code loaded hcompile same)

/-- Code that the cache gives back is what compiling gives. -/
theorem Faithful.compileEntry_of_hit
    (hhash : ∀ w ∈ past, TellsApart o path w s.world) (hsteady : ∀ w ∈ past, Steady o path w s.world)
    (htext : s.world.tree.read? (s.entry path) = some text)
    (hgot : (s.cache.get s.world.tree (s.entry path) (o.cacheKey text)).1 = some code) :
    ∃ loaded, compileEntry s.world o path = .ok (code, loaded) := by
  obtain ⟨targets, last, -, hsound, hlast⟩ := h.held
  obtain ⟨e, code', hfind, hkey, hstale, hread, hgot', -⟩ | ⟨hnone, -⟩ :=
    s.cache.get_cases s.world.tree (s.entry path) (o.cacheKey text)
  · obtain rfl := Option.some.inj (hgot'.symm.trans hgot)
    obtain ⟨stored, hstored, hkey', hdigests, htext'⟩ :=
      (hsound.backed _ e (Cache.mem_of_find? hfind)).stored
    obtain rfl := Option.some.inj (htext'.symm.trans hread)
    obtain ⟨w, hw, hcwd, hcode⟩ := hlast stored hstored
    refine compileEntry_of_codeOf hcwd.symm (hcwd ▸ h.absolute) hcode htext (hkey'.trans hkey)
      (fun f digest hmem => ?_) (hhash w hw) (hsteady w hw)
    rw [Cache.isStale, List.any_eq_false] at hstale
    simpa using hstale (f, digest) (hdigests ▸ hmem)
  · cases hnone.symm.trans hgot

/-- **One compilation.** It gives what compiling without a cache gives. -/
theorem Faithful.result (hcode : ∀ w ∈ [s.world, looked o path s], LoadsNoCode o path s.cache w)
    (hhash : ∀ w ∈ past, TellsApart o path w s.world)
    (hsteady : ∀ w ∈ past, Steady o path w s.world) (hpast : looked o path s ∈ past)
    (hlooked : Steady o path s.world (looked o path s)) (code : String) :
    (s.compile o path).1 = .ok code ↔ compileFile s.world o path = .ok code := by
  obtain ⟨hdirs, -⟩ := h.read?_looked
  have again := h.compileEntry_looked hcode hlooked (hsteady _ hpast)
  have hentry : s.entry path = Path.absolute (looked o path s).tree.cwd path := by
    rw [hdirs.cwd]
    rfl
  obtain ⟨-, hrun⟩ | ⟨text, htext, -, ⟨code', hgot, hrun⟩ | ⟨-, ⟨f, hfails, hrun⟩ |
    ⟨code', loaded, hcompiles, hrun⟩⟩⟩ := compile_cases o path s
  · rw [hrun, compileFile_eq_ok, compileFile_eq_ok]
    exact exists_congr fun loaded => compileEntry_absolute h.absolute
  · obtain ⟨loaded, hcompile⟩ := h.compileEntry_of_hit hhash hsteady htext hgot
    rw [hrun, compileFile_eq_ok.mpr ⟨loaded, hcompile⟩]
  · -- what fails now fails with the code still there
    rw [hrun, compileFile_eq_ok]
    refine ⟨fun he => (nomatch he), fun ⟨loaded, hcompile⟩ => ?_⟩
    rw [← again, ← compileEntry_absolute (hdirs.cwd ▸ h.absolute), ← hentry, hfails] at hcompile
    cases hcompile
  · rw [hentry, compileEntry_absolute (hdirs.cwd ▸ h.absolute), again] at hcompiles
    rw [hrun, compileFile_eq_ok.mpr ⟨loaded, hcompiles⟩]

/-! ## A course of events -/

/-- A project stays faithful while its cache is sound and the code in it comes from the past. -/
theorem Faithful.of_sound {s' : CachedProject} {last : String → Option StoredCode}
    (hcwd : s'.world.tree.cwd = s.world.tree.cwd) (htargets : ∀ target ∈ targets, target.1 = s.entry path)
    (hsound : Cache.Sound c t targets last (s'.cache, s'.world.tree)) (hlast : ∀ code, last (s.entry path) = some code →
      ∃ w ∈ past, w.tree.cwd = s.world.tree.cwd ∧ CodeOf o path w code) : Faithful o path past s' := by
  have hentry : s'.entry path = s.entry path := by
    unfold entry
    rw [hcwd]
  exact ⟨hcwd ▸ h.absolute, targets, last, hentry ▸ htargets, hsound.rebase, hentry ▸ hcwd ▸ hlast⟩

/-- What was compiled after the cache was asked is code of that moment. -/
theorem Faithful.codeOf (hcode : LoadsNoCode o path s.cache (looked o path s))
    (htext : s.world.tree.read? (s.entry path) = some text)
    (hcompile : compileEntry (looked o path s) o path = .ok (code, loaded))
    (hdigests : Cache.digests (looked o path s).tree (s.entry path) loaded = .ok digests) :
    CodeOf o path (looked o path s) ⟨o.cacheKey text, code, digests⟩ := by
  obtain ⟨hdirs, -⟩ := h.read?_looked
  have hentry : Path.absolute (looked o path s).tree.cwd path = s.entry path := by
    rw [hdirs.cwd]
    rfl
  have hmem := mem_of_compileEntry (hdirs.cwd ▸ h.absolute) hcompile
  rw [hentry] at hmem
  refine ⟨⟨text, ?_, rfl⟩, loaded, hcompile, fun f hf hne => ?_⟩
  · rw [hentry, h.read?_loaded hcode hcompile hmem, htext]
  · exact Cache.exists_mem_digests hdigests hf (hentry ▸ hne)

/-- Compiling leaves code of some moment in the cache. -/
theorem Faithful.after_compile
    (hcode : LoadsNoCode o path s.cache (looked o path s)) (hpast : looked o path s ∈ past) :
    Faithful o path past (s.compile o path).2 := by
  obtain ⟨targets, last, htargets, hsound, hlast⟩ := h.held
  obtain ⟨hdirs, -⟩ := h.read?_looked
  have asked := fun key => hsound.get (apart_of_targets htargets) (s.entry path) key
  have kept : ∀ {text : String}, (looked o path s).tree =
      (s.cache.get s.world.tree (s.entry path) (o.cacheKey text)).2.2 →
      Faithful o path past ⟨(s.cache.get s.world.tree (s.entry path) (o.cacheKey text)).2.1, looked o path s⟩ := by
    intro text hfiles
    refine h.of_sound (c := s.cache) (t := s.world.tree) hdirs.cwd htargets ?_ hlast
    dsimp only
    rw [hfiles]
    exact asked _
  obtain ⟨-, hrun⟩ | ⟨text, htext, hfiles, ⟨code, -, hrun⟩ | ⟨-, ⟨f, -, hrun⟩ |
    ⟨code, loaded, hcompile, hrun⟩⟩⟩ := compile_cases o path s
  · rw [hrun]
    exact h
  · rw [hrun]
    exact kept hfiles
  · rw [hrun]
    exact kept hfiles
  · have htargets' : ∀ target ∈ (s.entry path, o.cacheKey text) :: targets,
        target.1 = s.entry path := by
      rintro target (_ | ⟨_, hmem⟩)
      · rfl
      · exact htargets target hmem
    have hentry : s.entry path = Path.absolute (looked o path s).tree.cwd path := by
      rw [hdirs.cwd]
      rfl
    rw [hentry, compileEntry_absolute (hdirs.cwd ▸ h.absolute)] at hcompile
    obtain kept | ⟨digests, hdigests, stored⟩ := ((asked (o.cacheKey text)).mono
      (List.subset_cons_self (s.entry path, o.cacheKey text) targets)).put_or
        (apart_of_targets htargets') List.mem_cons_self code loaded
    · rw [hrun]
      exact h.of_sound kept.dirs.cwd htargets' kept hlast
    · rw [hrun]
      refine h.of_sound stored.dirs.cwd htargets' stored fun code' hcode' => ?_
      obtain rfl := Option.some.inj ((if_pos rfl).symm.trans hcode')
      exact ⟨_, hpast, hdirs.cwd, h.codeOf hcode htext hcompile (hfiles ▸ hdigests)⟩

/-- A change of files that may fail keeps the project faithful while it leaves the code alone. -/
theorem Faithful.withTree {x : Except FileError FileTree} (hcwd : ∀ t, x = .ok t → t.cwd = s.world.tree.cwd)
    (hread : ∀ key, (x.toOption.getD s.world.tree).read? (s.cache.codeFile key) =
      s.world.tree.read? (s.cache.codeFile key)) :
    Faithful o path past (s.withTree (x.toOption.getD s.world.tree)) := by
  obtain ⟨targets, last, htargets, hsound, hlast⟩ := h.held
  cases x with
  | error e => exact h
  | ok t =>
    have sound : Cache.Sound s.cache t targets last (s.cache, t) := hsound.of_codeFile hread
    change Faithful o path past (s.withTree t)
    exact h.of_sound (hcwd t rfl) htargets sound hlast

/-- **One event.** It leaves the project faithful to its past. -/
theorem Faithful.after {e : ProjectEvent} {events : List ProjectEvent}
    (hapart : CodeApart o path s (e :: events)) (hpast : moments o path s (e :: events) ⊆ past) :
    Faithful o path past (s.after o path e) := by
  obtain ⟨hkeeps, -⟩ := hapart
  cases e with
  | write p text =>
    simp only [reduceCtorEq, if_false, CachedProject.after, CachedProject.withTree] at hkeeps
    exact h.withTree (fun _ => cwd_place) hkeeps
  | remove p =>
    simp only [reduceCtorEq, if_false, CachedProject.after, CachedProject.withTree] at hkeeps
    exact h.withTree (fun _ => cwd_remove) hkeeps
  | compile =>
    rw [if_pos rfl] at hkeeps
    exact h.after_compile (hkeeps _ (by simp)) (hpast (by simp [moments]))

/-- **All events.** A project that is faithful to its past stays so. -/
theorem Faithful.afterAll {before rest : List ProjectEvent} (hapart : CodeApart o path s (before ++ rest))
    (hpast : moments o path s (before ++ rest) ⊆ past) : Faithful o path past (s.afterAll o path before) ∧
      CodeApart o path (s.afterAll o path before) rest ∧ moments o path (s.afterAll o path before) rest ⊆ past := by
  induction before generalizing s with
  | nil => exact ⟨h, hapart, hpast⟩
  | cons e before ih =>
    exact ih (h.after hapart hpast) hapart.2 fun w hw => hpast (List.mem_append_right _ hw)

end

/-- **Cached code is fresh.** In an orderly course of events that starts with an empty cache, compiling
with the cache gives at every moment what compiling without it gives: the same code, and a failure
exactly when there is one. -/
theorem compileFileCached_of_orderly {events before rest : List ProjectEvent}
    (h : Orderly o path s events) (habsolute : Path.isAbsolute s.world.tree.cwd = true)
    (hempty : s.cache.entries = []) (hevents : events = before ++ .compile :: rest) (code : String) :
    let now := s.afterAll o path before
    (compileFileCached now.world o now.cache path).1 = .ok code ↔
      compileFile now.world o path = .ok code := by
  have start : Faithful o path (moments o path s events) s := by
    refine ⟨habsolute, [], fun _ => none, fun _ ht => (nomatch ht), ⟨rfl, .refl _, ?_⟩,
      fun _ hcode => (nomatch hcode)⟩
    intro p e he
    rw [hempty] at he
    exact nomatch he
  obtain ⟨faithful, hapart, hpast⟩ := start.afterAll (hevents ▸ h.apart)
    (hevents ▸ List.Subset.refl (moments o path s events))
  have here : (s.afterAll o path before).world ∈ moments o path s events :=
    hpast (by simp [moments])
  have asked : looked o path (s.afterAll o path before) ∈ moments o path s events :=
    hpast (by simp [moments])
  exact faithful.result hapart.1 (fun w hw => h.hash w hw _ here) (fun w hw => h.steady w hw _ here)
    asked (h.steady _ here _ asked) code

end CachedProject

/-! ## Worlds with the same directories -/

section SameDirs

variable {o : CompileOptions} {w w' : World}

/-- Hashes tell texts apart where they do so for each file. -/
theorem tellsApart_of_files {path : String} (hdirs : SameDirs w.tree w'.tree)
    (hfiles : ∀ x ∈ w.tree.files, ∀ y ∈ w'.tree.files, x.1 = y.1 → Digest.ofText x.2 = Digest.ofText y.2 → x.2 = y.2)
    (hentry : w'.tree.read? (Path.absolute w'.tree.cwd path) = w.tree.read? (Path.absolute w.tree.cwd path)) :
    TellsApart o path w w' := by
  refine ⟨fun f a b ha hb hdigest => ?_, fun a b ha hb _ => Option.some.inj (ha.symm.trans (hentry.symm.trans hb))⟩
  obtain ⟨q, hq, -, hfile⟩ := read?_eq_some.mp ha
  obtain ⟨q', hq', -, hfile'⟩ := read?_eq_some.mp hb
  rw [place?_eq hdirs, hq] at hq'
  exact hfiles _ (mem_of_lookup hfile) _ (mem_of_lookup hfile') (Option.some.inj hq') hdigest

/-- Imports that are looked for beside the importing file only lead where they did as long as the
file is there. -/
theorem sameImports_beside {i : Imports} {entry : String} (ho : o.imports = some i) (hroot : i.root = "")
    (hsearch : i.search = []) (hcwd : Path.Full w.tree.cwd) (hdirs : SameDirs w.tree w'.tree)
    (hfiles : ∀ f ∈ loaded, (w'.tree.files.lookup f).isSome) : SameImports o entry loaded w w' := by
  have settled : ∀ w, o.importsFor w entry = .ok i := by
    intro w
    rw [CompileOptions.importsFor, ho]
  refine ⟨⟨i, settled w'⟩, fun importer _ p f hf ⟨j, hj, hresolve⟩ => ⟨i, settled w', ?_⟩⟩
  obtain rfl := Except.ok.inj ((settled w).symm.trans hj)
  unfold Imports.resolve at hresolve ⊢
  dsimp only at hresolve ⊢
  generalize hp : Imports.withExtension p = q at hresolve ⊢
  have one : i.candidates q importer = [] ∨ ∃ c, i.candidates q importer = [c] := by
    unfold Imports.candidates
    simp only [hroot, hsearch]
    split
    · exact .inr ⟨q, rfl⟩
    · split
      · exact .inl rfl
      · exact .inr ⟨_, rfl⟩
  obtain hc | ⟨c, hc⟩ := one
  · rw [hc] at hresolve
    cases hresolve
  · rw [hc] at hresolve ⊢
    rw [List.find?_singleton] at hresolve ⊢
    rw [isFile_eq_isSome] at hresolve ⊢
    cases hread : w.tree.read? c with
    | none => simp [hread] at hresolve
    | some text =>
      obtain ⟨place, hplace, hd, -⟩ := read?_eq_some.mp hread
      rw [hread, Option.isSome_some, if_pos rfl] at hresolve
      obtain rfl := Except.ok.inj hresolve
      obtain ⟨text', hfile⟩ := Option.isSome_iff_exists.mp (hfiles _ hf)
      have there : w'.tree.read? c = some text' := by
        refine read?_eq_some.mpr ⟨place, (place?_eq hdirs c).trans hplace, hdirs.dirs ▸ hd, ?_⟩
        rw [place?_eq_absolute hcwd hplace]
        exact hfile
      rw [there, Option.isSome_some, if_pos rfl]
      exact congrArg (fun cwd => Except.ok (Path.absolute cwd c)) hdirs.cwd

end SameDirs

namespace CachedProject

variable {o : CompileOptions} {path : String} {s : CachedProject}

/-- The project once code was stored for an entry file in an empty cache. -/
def storing (s : CachedProject) (entry key code : String) (digests : List (String × String)) : CachedProject :=
  let c := { s.cache with misses := s.cache.misses + 1 }
  let files := (s.world.tree.write (c.codeFile key) code).toOption.getD s.world.tree
  let stored := (c.withEntry entry key code digests).flush files
  ⟨stored.2.1, { s.world with tree := stored.2.2 }⟩

/-- Compiling with an empty cache stores the code. -/
theorem compile_of_empty (hempty : s.cache.entries = []) (hread : s.world.tree.read? (s.entry path) = some text)
    (hcompile : compileEntry s.world o (s.entry path) = .ok (code, loaded)) (hkey : o.cacheKey text = key)
    (hdigests : (Cache.digests s.world.tree (s.entry path) loaded).toOption = some digests)
    (hwrite : (s.world.tree.write (s.cache.codeFile key) code).toOption.isSome)
    (hfits : (s.cache.withEntry (s.entry path) key code digests).fits) :
    s.after o path .compile = s.storing (s.entry path) key code digests := by
  have hfind : s.cache.find? (s.entry path) = none := by
    rw [Cache.find?, hempty]
    rfl
  obtain ⟨files, hfiles⟩ := Option.isSome_iff_exists.mp hwrite
  let c := { s.cache with misses := s.cache.misses + 1 }
  have hremove : c.removeEntry s.world.tree (s.entry path) = (c, s.world.tree) := by
    rw [Cache.removeEntry, show c.find? _ = none from hfind]
  have hput : c.put s.world.tree (s.entry path) key code loaded = (c.withEntry (s.entry path) key code digests).flush files := by
    rw [Cache.put_of_fits (toOption_eq_some.mp hdigests), hremove]
    · rw [hremove]
      exact toOption_eq_some.mp hfiles
    · rw [hremove]
      exact hfits
  have hread' : s.world.tree.read (Path.absolute s.world.tree.cwd path) = .ok text := toOption_eq_some.mp hread
  unfold entry at hcompile hfind hput
  unfold after compile compileFileCached Cache.get storing entry
  simp only [hread', hfind, hcompile, hkey]
  rw [hput, show (s.world.tree.write (c.codeFile key) code).toOption = _ from hfiles]
  rfl

/-- Code that the cache has is not compiled again. -/
theorem compileFileCached_of_get (hread : s.world.tree.read? (s.entry path) = some text)
    (hkey : o.cacheKey text = key) (hget : (s.cache.get s.world.tree (s.entry path) key).1 = some code) :
    (compileFileCached s.world o s.cache path).1.toOption = some code := by
  have hread' : s.world.tree.read (Path.absolute s.world.tree.cwd path) = .ok text := toOption_eq_some.mp hread
  unfold entry at hget
  unfold compileFileCached
  simp only [hread', hkey]
  split
  next hgot => rw [hgot] at hget; exact hget
  next hgot => rw [hgot] at hget; cases hget

/-- Asking for code removes nothing where there is no entry, or one that counts. -/
theorem looked_eq_world (h : s.cache.find? (s.entry path) = none ∨ ∃ text,
      s.world.tree.read? (s.entry path) = some text ∧
        (s.cache.get s.world.tree (s.entry path) (o.cacheKey text)).1.isSome) : looked o path s = s.world := by
  unfold looked
  cases hread : s.world.tree.read? (s.entry path) with
  | none => rfl
  | some text =>
    dsimp only
    obtain ⟨_, _, -, -, -, -, -, htree⟩ | ⟨hnone, htree⟩ :=
      Cache.get_cases s.cache s.world.tree (s.entry path) (o.cacheKey text)
    · rw [htree]
    · obtain hfind | ⟨text', hread', hsome⟩ := h
      · rw [htree, Cache.removeEntry, hfind]
      · obtain rfl := Option.some.inj (hread.symm.trans hread')
        rw [hnone] at hsome
        cases hsome

/-- The files that compiling an entry file loads, in the order in which they are loaded. -/
def loadOrder? (w : World) (o : CompileOptions) (path : String) : Option (List String) := do
  let file := Path.absolute w.tree.cwd path
  let i ← (o.importsFor w file).toOption
  let text ← w.tree.read? file
  let p ← (Program.ofSource (Source.ofString text) file).toOption
  return ((Session.ofOptions { o with imports := some i }).compile w.tree o.annotate p
    (Source.ofString text)).2.imports.loaded

theorem compileEntry_of_loadOrder? {w : World} {order : List String}
    (hcode : (compileFile w o path).toOption = some code) (horder : loadOrder? w o path = some order)
    (hsorted : order.Pairwise fun a b => decide (a ≤ b) = true) : compileEntry w o path = .ok (code, order) := by
  obtain ⟨loaded, hcompile⟩ := compileFile_eq_ok.mp (toOption_eq_some.mp hcode)
  obtain ⟨i, text, p, lines, after, hi, hread, hp, hrun, -, hloaded⟩ :=
    Locality.compileEntry_eq_ok.mp hcompile
  have known : after.imports.loaded = order := by
    unfold loadOrder? at horder
    simpa [hi, hread, hp, hrun, Except.toOption] using horder
  rw [hcompile, ← hloaded, Imports.loadedFiles, known, List.mergeSort_of_pairwise hsorted]

/-- Asking for code removes files at most. -/
theorem files_looked_subset (o : CompileOptions) (path : String) (s : CachedProject) :
    (looked o path s).tree.files ⊆ s.world.tree.files := by
  unfold looked
  split
  · exact List.Subset.refl _
  · obtain ⟨_, _, -, -, -, -, -, htree⟩ | ⟨-, htree⟩ := Cache.get_cases s.cache s.world.tree (s.entry path) (o.cacheKey _)
    · rw [htree]
      exact List.Subset.refl _
    · rw [htree, Cache.removeEntry]
      split
      · exact List.Subset.refl _
      · exact files_drop_subset _ _

/-- Imports are looked for beside the importing file only. -/
def sampleOptions : CompileOptions := { builtins := {}, imports := some {} }

/-- A project with a file that imports another one, with an empty cache. -/
def sampleProject : CachedProject where
  cache := { dir := "/c", clock := Cache.firstDay }
  world := { tree := {
    files := [("/main.kite", "import \"util\"\n"), ("/util.kite", "var x = 1\n")]
    dirs := ["/", "/c"] } }

/-- The file is compiled, the imported one is written anew, and the file is compiled again. -/
def sampleEvents : List ProjectEvent := [.compile, .write "/util.kite" "var x = 2\n", .compile]

/-- The code for a value of the variable. -/
def sampleCode (value : String) : String := "ALLOT: x_0\nPUT: " ++ value ++ ", x_0\n"

/-- The key of the file. -/
def sampleKey : String := "6fd75a902cdf5db65c661bbc33ee300c89a5257acee489ad6d38fa0b4f74fb1d"

def sampleDigests : List (String × String) :=
  [("/util.kite", "0f7ae73a9b6a9f4aba5e9cb61468653384aa217507876782d27a2ba8672ceb1b")]

/-- The project once the file was compiled. -/
def sampleCompiled : CachedProject := sampleProject.storing "/main.kite" sampleKey (sampleCode "1") sampleDigests

/-- The project once the imported file was written anew. -/
def sampleRewritten : CachedProject :=
  sampleCompiled.after sampleOptions "main.kite" (.write "/util.kite" "var x = 2\n")

/-- What is known of a world in which the file is compiled. -/
structure SampleWorld (w : World) (value : String) : Prop where
  cwd : w.tree.cwd = "/"
  dirs : w.tree.dirs = ["/", "/c"]
  read : w.tree.read? "/main.kite" = some "import \"util\"\n"
  files : ∀ f ∈ ["/main.kite", "/util.kite"], (w.tree.files.lookup f).isSome
  code : ∀ path ∈ ["/main.kite", "main.kite"], (compileFile w sampleOptions path).toOption = some (sampleCode value)
  order : ∀ path ∈ ["/main.kite", "main.kite"], loadOrder? w sampleOptions path = some ["/main.kite", "/util.kite"]

theorem sampleWorld_iff {w : World} : SampleWorld w value ↔
    w.tree.cwd = "/" ∧ w.tree.dirs = ["/", "/c"] ∧ w.tree.read? "/main.kite" = some "import \"util\"\n" ∧
      (∀ f ∈ ["/main.kite", "/util.kite"], (w.tree.files.lookup f).isSome) ∧
      (∀ path ∈ ["/main.kite", "main.kite"], (compileFile w sampleOptions path).toOption = some (sampleCode value)) ∧
      ∀ path ∈ ["/main.kite", "main.kite"], loadOrder? w sampleOptions path = some ["/main.kite", "/util.kite"] := by
  constructor
  · exact fun h => ⟨h.cwd, h.dirs, h.read, h.files, h.code, h.order⟩
  · rintro ⟨hcwd, hdirs, hread, hfiles, hcode, horder⟩
    exact ⟨hcwd, hdirs, hread, hfiles, hcode, horder⟩

instance (w : World) (value : String) : Decidable (SampleWorld w value) := decidable_of_iff' _ sampleWorld_iff

theorem computed_sampleProject :
    SampleWorld sampleProject.world "1" ∧ sampleOptions.cacheKey "import \"util\"\n" = sampleKey ∧
      sampleProject.entry "main.kite" = "/main.kite" ∧
      (Cache.digests sampleProject.world.tree "/main.kite" ["/main.kite", "/util.kite"]).toOption = some sampleDigests ∧
      (sampleProject.world.tree.write (sampleProject.cache.codeFile sampleKey) (sampleCode "1")).toOption.isSome ∧
      (sampleProject.cache.withEntry "/main.kite" sampleKey (sampleCode "1") sampleDigests).fits := by
  decide +kernel

theorem computed_sampleRewritten :
    SampleWorld sampleRewritten.world "2" ∧ SampleWorld (looked sampleOptions "main.kite" sampleRewritten) "2" ∧
      (sampleRewritten.world.tree.files.map Prod.fst).Nodup ∧
      sampleRewritten.world.tree.files.lookup "/main.kite" = some "import \"util\"\n" ∧
      sampleRewritten.world.tree.files.lookup "/util.kite" = some "var x = 2\n" ∧
      sampleCompiled.world.tree.dirs = ["/", "/c"] ∧ sampleCompiled.world.tree.place? "/util.kite" = some "/util.kite" ∧
      (sampleCompiled.world.tree.place "/util.kite" "var x = 2\n").toOption.isSome ∧
      Digest.ofText "var x = 1\n" ≠ Digest.ofText "var x = 2\n" := by
  decide +kernel

theorem SampleWorld.compileEntry {w : World} (h : SampleWorld w value) (hpath : path ∈ ["/main.kite", "main.kite"]) :
    compileEntry w sampleOptions path = .ok (sampleCode value, ["/main.kite", "/util.kite"]) :=
  compileEntry_of_loadOrder? (h.code path hpath) (h.order path hpath) (by decide)

theorem after_sampleProject : sampleProject.after sampleOptions "main.kite" .compile = sampleCompiled := by
  obtain ⟨hworld, hkey, hentry, hdigests, hwrite, hfits⟩ := computed_sampleProject
  have hpath : "/main.kite" ∈ ["/main.kite", "main.kite"] := by decide
  have hcompile := hworld.compileEntry hpath
  rw [sampleCompiled, ← hentry]
  exact compile_of_empty rfl (hentry ▸ hworld.read) (hentry ▸ hcompile) hkey (hentry ▸ hdigests) hwrite (hentry ▸ hfits)

theorem moments_sampleEvents {w : World}
    (hw : w ∈ moments sampleOptions "main.kite" sampleProject sampleEvents) :
    w = sampleProject.world ∨ w = sampleRewritten.world ∨ w = looked sampleOptions "main.kite" sampleRewritten := by
  have hlooked : looked sampleOptions "main.kite" sampleProject = sampleProject.world := looked_eq_world (.inl rfl)
  simp only [moments, sampleEvents, if_true, reduceCtorEq, if_false, List.nil_append, List.append_nil,
    List.cons_append] at hw
  rw [after_sampleProject, hlooked] at hw
  change w ∈ [sampleProject.world, sampleProject.world, sampleRewritten.world,
    looked sampleOptions "main.kite" sampleRewritten] at hw
  simpa using hw

/-- In all of these worlds a file has one text, but for the one that is written anew. -/
theorem world_sampleEvents {w : World} (hw : w ∈ moments sampleOptions "main.kite" sampleProject sampleEvents) :
    (∃ value, SampleWorld w value) ∧
      w.tree.files ⊆ ("/util.kite", "var x = 1\n") :: sampleRewritten.world.tree.files := by
  obtain ⟨hworld, hlooked, -, hmain, -⟩ := computed_sampleRewritten
  obtain rfl | rfl | rfl := moments_sampleEvents hw
  · refine ⟨⟨_, computed_sampleProject.1⟩, ?_⟩
    exact List.cons_subset.mpr ⟨List.mem_cons_of_mem _ (mem_of_lookup hmain), List.cons_subset.mpr
      ⟨List.mem_cons_self, List.nil_subset _⟩⟩
  · exact ⟨⟨_, hworld⟩, List.subset_cons_self _ _⟩
  · exact ⟨⟨_, hlooked⟩, List.subset_cons_of_subset _ (files_looked_subset _ _ _)⟩

/-- Hashes tell the texts of each file apart. -/
theorem digests_sampleEvents {x y : String × String}
    (hx : x ∈ ("/util.kite", "var x = 1\n") :: sampleRewritten.world.tree.files)
    (hy : y ∈ ("/util.kite", "var x = 1\n") :: sampleRewritten.world.tree.files) (hxy : x.1 = y.1)
    (hdigest : Digest.ofText x.2 = Digest.ofText y.2) : x.2 = y.2 := by
  obtain ⟨-, -, hnodup, -, hutil, -, -, -, hne⟩ := computed_sampleRewritten
  have hnew : ∀ z ∈ sampleRewritten.world.tree.files, z.1 = "/util.kite" → z.2 = "var x = 2\n" := fun z hz hname =>
    congrArg Prod.snd (List.inj_on_of_nodup_map hnodup hz (mem_of_lookup hutil) hname)
  rcases List.mem_cons.mp hx with rfl | hx <;> rcases List.mem_cons.mp hy with rfl | hy
  · rfl
  · exact absurd (hdigest.trans (congrArg Digest.ofText (hnew y hy hxy.symm))) hne
  · exact absurd (hdigest.symm.trans (congrArg Digest.ofText (hnew x hx hxy))) hne
  · exact congrArg Prod.snd (List.inj_on_of_nodup_map hnodup hx hy hxy)

theorem loadsNoCode_sampleEvents {w : World} (c : Cache)
    (hw : w ∈ moments sampleOptions "main.kite" sampleProject sampleEvents) :
    LoadsNoCode sampleOptions "main.kite" c w := by
  intro code loaded hcompile f hf key place hplace hcode
  obtain ⟨⟨value, hworld⟩, -⟩ := world_sampleEvents hw
  obtain ⟨-, rfl⟩ := Prod.mk.inj (Except.ok.inj ((hworld.compileEntry (by decide)).symm.trans hcompile))
  have hname : ∃ name, Path.EndsIn name f ∧ (name = "main.kite".toList ∨ name = "util.kite".toList) := by
    rcases List.mem_cons.mp hf with rfl | hf
    · exact ⟨_, ⟨by decide, .inr ⟨[], rfl⟩⟩, .inl rfl⟩
    · obtain rfl := List.mem_singleton.mp hf
      exact ⟨_, ⟨by decide, .inr ⟨[], rfl⟩⟩, .inr rfl⟩
  obtain ⟨name, hends, rfl | rfl⟩ := hname
  all_goals exact Cache.place?_ne_codeFile hends ⟨by decide, by decide, by decide⟩ (by decide) hcode hplace

/-- The file that is written anew is none of those with code. -/
theorem read?_sampleRewritten (key : String) :
    sampleRewritten.world.tree.read? (sampleCompiled.cache.codeFile key) =
      sampleCompiled.world.tree.read? (sampleCompiled.cache.codeFile key) := by
  obtain ⟨hworld, -, -, -, -, hdirs', hplace, hsome, -⟩ := computed_sampleRewritten
  have hdirs := hworld.dirs
  have hname : Path.EndsIn "util.kite".toList "/util.kite" := ⟨by decide, .inr ⟨[], rfl⟩⟩
  have hne : sampleCompiled.world.tree.place? (sampleCompiled.cache.codeFile key) ≠
      sampleCompiled.world.tree.place? "/util.kite" := fun hcode =>
    Cache.place?_ne_codeFile hname ⟨by decide, by decide, by decide⟩ (by decide) (hcode.trans hplace) hplace
  have hrewritten : sampleRewritten.world.tree =
      (sampleCompiled.world.tree.place "/util.kite" "var x = 2\n").toOption.getD sampleCompiled.world.tree := rfl
  rw [hrewritten] at hdirs ⊢
  exact read?_placed hsome (hdirs.trans hdirs'.symm) hne

theorem orderly_sampleEvents : Orderly sampleOptions "main.kite" sampleProject sampleEvents := by
  have same : ∀ {w w' : World} {value value' : String}, SampleWorld w value → SampleWorld w' value' →
      SameDirs w.tree w'.tree := fun h h' => ⟨h'.cwd.trans h.cwd.symm, h'.dirs.trans h.dirs.symm⟩
  refine ⟨⟨?_, ?_, ?_, trivial⟩, fun w hw w' hw' => ?_, fun w hw w' hw' => ?_⟩
  · rw [if_pos rfl]
    exact fun w hw => loadsNoCode_sampleEvents _ (List.mem_append_left _ hw)
  · rw [if_neg ProjectEvent.noConfusion, after_sampleProject]
    exact read?_sampleRewritten
  · rw [if_pos rfl]
    exact fun w hw => loadsNoCode_sampleEvents _ (List.mem_append_right _
      (List.mem_append_right _ (List.mem_append_left _ hw)))
  · obtain ⟨⟨value, hworld⟩, hfiles⟩ := world_sampleEvents hw
    obtain ⟨⟨value', hworld'⟩, hfiles'⟩ := world_sampleEvents hw'
    refine tellsApart_of_files (same hworld hworld') (fun x hx y hy => digests_sampleEvents (hfiles hx) (hfiles' hy)) ?_
    rw [hworld.cwd, hworld'.cwd]
    exact hworld'.read.trans hworld.read.symm
  · intro code loaded hcompile _
    obtain ⟨⟨value, hworld⟩, -⟩ := world_sampleEvents hw
    obtain ⟨⟨value', hworld'⟩, -⟩ := world_sampleEvents hw'
    obtain ⟨-, rfl⟩ := Prod.mk.inj (Except.ok.inj ((hworld.compileEntry (by decide)).symm.trans hcompile))
    refine sameImports_beside rfl rfl rfl ?_ (same hworld hworld') hworld'.files
    rw [hworld.cwd]
    exact ⟨rfl, by decide⟩

theorem compileFileCached_of_sampleEvents :
    let now := sampleProject.afterAll sampleOptions "main.kite" [.compile, .write "/util.kite" "var x = 2\n"]
    (compileFileCached now.world sampleOptions now.cache "main.kite").1 = .ok (sampleCode "2") := by
  have hevents : sampleEvents =
    [ProjectEvent.compile, .write "/util.kite" "var x = 2\n"] ++ ProjectEvent.compile :: [] := rfl
  refine (compileFileCached_of_orderly orderly_sampleEvents rfl rfl hevents (sampleCode "2")).mpr ?_
  have hafter : sampleProject.afterAll sampleOptions "main.kite" [.compile, .write "/util.kite" "var x = 2\n"] =
      sampleRewritten :=
    congrArg (after sampleOptions "main.kite" · (.write "/util.kite" "var x = 2\n")) after_sampleProject
  rw [hafter]
  exact compileFile_eq_ok.mpr ⟨_, computed_sampleRewritten.1.compileEntry (by decide)⟩

end CachedProject

/-! ## A file in front of a loaded one -/

namespace CachedProject

/-- Imports are looked for in the project. -/
def shadowOptions : CompileOptions := { builtins := {} }

/-- A project whose entry file imports a file from the project directory. -/
def shadowProject : CachedProject where
  cache := { dir := "/c", clock := Cache.firstDay }
  world := { tree := {
    files := [("/kite.toml", ""), ("/src/main.kite", "import \"util\"\n"), ("/util.kite", "var x = 1\n")]
    dirs := ["/", "/c", "/src"] } }

/-- The project once the entry file was compiled. -/
def shadowCompiled : CachedProject :=
  shadowProject.storing "/src/main.kite" sampleKey (sampleCode "1") sampleDigests

theorem computed_shadowProject :
    shadowOptions.cacheKey "import \"util\"\n" = sampleKey ∧ shadowProject.entry "src/main.kite" = "/src/main.kite" ∧
      shadowProject.world.tree.read? "/src/main.kite" = some "import \"util\"\n" ∧
      (compileFile shadowProject.world shadowOptions "/src/main.kite").toOption = some (sampleCode "1") ∧
      loadOrder? shadowProject.world shadowOptions "/src/main.kite" = some ["/src/main.kite", "/util.kite"] ∧
      (Cache.digests shadowProject.world.tree "/src/main.kite" ["/src/main.kite", "/util.kite"]).toOption =
        some sampleDigests ∧
      (shadowProject.world.tree.write (shadowProject.cache.codeFile sampleKey) (sampleCode "1")).toOption.isSome ∧
      (shadowProject.cache.withEntry "/src/main.kite" sampleKey (sampleCode "1") sampleDigests).fits := by
  decide +kernel

theorem after_shadowProject : shadowProject.after shadowOptions "src/main.kite" .compile = shadowCompiled := by
  obtain ⟨hkey, hentry, hread, hcode, horder, hdigests, hwrite, hfits⟩ := computed_shadowProject
  have hcompile := compileEntry_of_loadOrder? hcode horder (by decide)
  rw [shadowCompiled, ← hentry]
  exact compile_of_empty rfl (hentry ▸ hread) (hentry ▸ hcompile) hkey (hentry ▸ hdigests) hwrite (hentry ▸ hfits)

/-- The project once a file was written beside the importing one. -/
def shadowWritten : CachedProject :=
  shadowCompiled.after shadowOptions "src/main.kite" (.write "/src/util.kite" "var x = 2\n")

theorem computed_shadowWritten :
    shadowWritten.entry "src/main.kite" = "/src/main.kite" ∧
      shadowWritten.world.tree.read? "/src/main.kite" = some "import \"util\"\n" ∧
      (shadowWritten.cache.get shadowWritten.world.tree "/src/main.kite" sampleKey).1 =
        some (sampleCode "1") ∧
      (compileFile shadowWritten.world shadowOptions "src/main.kite").toOption = some (sampleCode "2") := by
  decide +kernel

/-- An import is found in the project directory; then a file is written beside the importing one, where
it is looked for first. The cache still gives the code with the old file. -/
theorem compileFileCached_of_shadow :
    let now := shadowProject.afterAll shadowOptions "src/main.kite"
      [.compile, .write "/src/util.kite" "var x = 2\n"]
    (compileFileCached now.world shadowOptions now.cache "src/main.kite").1.toOption =
        some (sampleCode "1") ∧
      (compileFile now.world shadowOptions "src/main.kite").toOption =
        some (sampleCode "2") := by
  have hafter : shadowProject.afterAll shadowOptions "src/main.kite"
      [.compile, .write "/src/util.kite" "var x = 2\n"] = shadowWritten :=
    congrArg (after shadowOptions "src/main.kite" · (.write "/src/util.kite" "var x = 2\n")) after_shadowProject
  obtain ⟨hentry, hread, hget, hcode⟩ := computed_shadowWritten
  obtain ⟨hkey, -⟩ := computed_shadowProject
  rw [hafter]
  exact ⟨compileFileCached_of_get (hentry ▸ hread) hkey (hentry ▸ hget), hcode⟩

end CachedProject

end Frontend
