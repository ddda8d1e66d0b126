import Frontend.Cache.Compile
import Frontend.Proofs.Cache.History
import Frontend.Proofs.Locality

/-!
# Projects with a cache

A project whose files are written and removed while its entry file is compiled again and again with a
cache: what one compilation does, which worlds the compilations see, and what the cache keeps while the
files around it change.
-/

namespace Frontend

open FileTree

variable {c : Cache} {targets : List (String × String)} {last : String → Option StoredCode}
  {s : CacheState}

/-- Something that happens to a project. -/
inductive ProjectEvent where
  /-- A file is written, and the directories above it are made. -/
  | write (path text : String)
  /-- A file or an empty directory is removed. -/
  | remove (path : String)
  /-- The entry file is compiled with the cache. -/
  | compile
  deriving DecidableEq

/-- A project with an open cache. -/
structure CachedProject where
  cache : Cache
  world : World

namespace CachedProject

variable (o : CompileOptions) (path : String)

/-- The absolute path of the entry file. -/
def entry (s : CachedProject) : String := Path.absolute s.world.tree.cwd path

/-- The same project with other files. -/
def withTree (s : CachedProject) (t : FileTree) : CachedProject :=
  { s with world := { s.world with tree := t } }

/-- What happens when a project is compiled: the outcome, and the project afterwards. -/
def compile (s : CachedProject) : Except Failure String × CachedProject :=
  let (result, cache, tree) := compileFileCached s.world o s.cache path
  (result, { cache, world := { s.world with tree } })

/-- What an event leaves behind. A file that cannot be written or removed stays as it is. -/
def after (s : CachedProject) : ProjectEvent → CachedProject
  | .write p text => s.withTree ((s.world.tree.place p text).toOption.getD s.world.tree)
  | .remove p => s.withTree ((s.world.tree.remove p).toOption.getD s.world.tree)
  | .compile => (s.compile o path).2

/-- A series of events, one after another. -/
def afterAll (s : CachedProject) (events : List ProjectEvent) : CachedProject :=
  events.foldl (after o path) s

/-- The world once the cache was asked for the code: the code may have been removed. -/
def looked (s : CachedProject) : World :=
  { s.world with tree := match s.world.tree.read? (s.entry path) with
    | none => s.world.tree
    | some text => (s.cache.get s.world.tree (s.entry path) (o.cacheKey text)).2.2 }

/-- The worlds that compilations see, before and after asking the cache. -/
def moments : CachedProject → List ProjectEvent → List World
  | _, [] => []
  | s, e :: events =>
    (if e = .compile then [s.world, looked o path s] else []) ++ moments (after o path s e) events

variable {o path}

/-- What compiling with a cache does. -/
theorem compile_cases (o : CompileOptions) (path : String) (s : CachedProject) :
    (s.world.tree.read? (s.entry path) = none ∧ s.compile o path = (compileFile s.world o (s.entry path), s)) ∨
    ∃ text, s.world.tree.read? (s.entry path) = some text ∧
      (looked o path s).tree = (s.cache.get s.world.tree (s.entry path) (o.cacheKey text)).2.2 ∧
      let got := s.cache.get s.world.tree (s.entry path) (o.cacheKey text)
      ((∃ code, got.1 = some code ∧ s.compile o path = (.ok code, ⟨got.2.1, looked o path s⟩)) ∨ got.1 = none ∧
          ((∃ f, compileEntry (looked o path s) o (s.entry path) = .error f ∧
            s.compile o path = (.error f, ⟨got.2.1, looked o path s⟩)) ∨
          ∃ code loaded, compileEntry (looked o path s) o (s.entry path) = .ok (code, loaded) ∧
            let stored := got.2.1.put got.2.2 (s.entry path) (o.cacheKey text) code loaded
            s.compile o path =
              (.ok code, ⟨stored.2.1, { s.world with tree := stored.2.2 }⟩))) := by
  unfold compile compileFileCached looked
  dsimp only
  rw [show Path.absolute s.world.tree.cwd path = s.entry path from rfl]
  unfold FileTree.read?
  cases hread : s.world.tree.read (s.entry path) with
  | error e => exact .inl ⟨rfl, rfl⟩
  | ok text =>
    refine .inr ⟨text, rfl, rfl, ?_⟩
    simp only [Except.toOption]
    generalize s.cache.get s.world.tree (s.entry path) (o.cacheKey text) = got
    obtain ⟨code | code, cache, files⟩ := got
    · refine .inr ⟨rfl, ?_⟩
      dsimp only
      cases hentry : compileEntry { s.world with tree := files } o (s.entry path) with
      | error f => exact .inl ⟨f, rfl, rfl⟩
      | ok result => exact .inr ⟨result.1, result.2, rfl, rfl⟩
    · exact .inl ⟨code, rfl, rfl⟩

end CachedProject

/-! ## The cache of a project -/

namespace Cache

variable {t : FileTree}

/-- No file falls out of a table of digests. -/
theorem mem_fst_foldl_digests {p : String} {known found : List (String × String)}
    (h : p ∈ known.map Prod.fst ∨ p ∈ found.map Prod.fst) :
    p ∈ (found.foldl (fun known d => known.filter (·.1 != d.1) ++ [d]) known).map Prod.fst := by
  induction found generalizing known with
  | nil => simpa using h
  | cons d found ih =>
    refine ih ?_
    by_cases hd : p = d.1
    · exact .inl (by simp [hd])
    · refine h.imp (fun h => ?_) fun h => ?_
      · obtain ⟨x, hx, rfl⟩ := List.mem_map.mp h
        have kept : x ∈ known.filter (·.1 != d.1) := List.mem_filter.mpr ⟨hx, by simpa using hd⟩
        exact List.mem_map_of_mem (List.mem_append_left _ kept)
      · simpa [hd] using h

/-- Every file that code depends on has its digest in the table. -/
theorem exists_mem_digests {path p : String} {dependencies : List String}
    {digests : List (String × String)} (hd : Cache.digests t path dependencies = .ok digests)
    (hdep : p ∈ dependencies) (hne : p ≠ path) :
    ∃ digest, (p, digest) ∈ digests ∧ (t.read? p).map Digest.ofText = some digest := by
  have listed : p ∈ digests.map Prod.fst := by
    unfold Cache.digests at hd
    obtain ⟨found, hfound, hd⟩ := bind_ok hd
    obtain rfl := Except.ok.inj hd
    refine mem_fst_foldl_digests (.inr ?_)
    obtain ⟨y, hy, hread⟩ := exists_mem_of_mapM hfound (List.mem_filter.mpr ⟨hdep, by simpa using hne⟩)
    obtain ⟨text, -, hread⟩ := bind_ok hread
    obtain rfl := Except.ok.inj hread
    exact List.mem_map_of_mem hy
  obtain ⟨⟨_, digest⟩, hmem, rfl⟩ := List.mem_map.mp listed
  exact ⟨digest, hmem, (mem_digests hd hmem).2.2⟩

/-- What asking for code does: it is given when the entry still counts, and the entry is forgotten
otherwise. -/
theorem get_cases (c : Cache) (t : FileTree) (path key : String) :
    (∃ e text, c.find? path = some e ∧ e.key = key ∧ isStale t e = false ∧
      t.read? e.file = some text ∧ (c.get t path key).1 = some text ∧ (c.get t path key).2.2 = t) ∨
    (c.get t path key).1 = none ∧ (c.get t path key).2.2 = (c.removeEntry t path).2 := by
  unfold get
  cases hf : c.find? path with
  | none => exact .inr ⟨rfl, by rw [removeEntry, hf]⟩
  | some e =>
    dsimp only
    cases hc : current? t e key with
    | none => exact .inr ⟨rfl, rfl⟩
    | some text =>
      unfold current? at hc
      split at hc
      · cases hc
      next hcounts =>
        obtain ⟨hkey, hstale⟩ : e.key = key ∧ isStale t e = false := by simpa using hcounts
        exact .inl ⟨e, text, rfl, hkey, hstale, hc, rfl, rfl⟩

/-- Forgetting an entry touches no file but those for code. -/
theorem Sound.read?_removeEntry (h : Sound c t targets last s) (path : String) {f : String}
    (hf : ∀ key q, s.2.place? f = some q → s.2.place? (s.1.codeFile key) ≠ some q) :
    (s.1.removeEntry s.2 path).2.read? f = s.2.read? f := by
  cases hfind : s.1.find? path with
  | none => rw [Cache.removeEntry, hfind]
  | some e =>
    have hb := h.backed path e (mem_of_find? hfind)
    obtain ⟨q, hq, hd⟩ := hb.place
    rw [Cache.removeEntry, hfind]
    refine read?_drop hq hd fun hplace => hf e.key q hplace ?_
    rw [← hb.file, hq]

/-- Storing code keeps a cache sound, whether or not the index can be written: the code counts as
stored last, or things are as they were. -/
theorem Sound.put_or {path key : String} (ha : Apart c t targets) (h : Sound c t targets last s)
    (hkey : (path, key) ∈ targets) (text : String) (dependencies : List String) :
    Sound c t targets last (s.1.put s.2 path key text dependencies).2 ∨
    ∃ digests, Cache.digests s.2 path dependencies = .ok digests ∧
      Sound c t targets (fun p => if p = path then some ⟨key, text, digests⟩ else last p)
        (s.1.put s.2 path key text dependencies).2 := by
  obtain ⟨e, hput⟩ | ⟨e, hput⟩ | ⟨digests, t', hdigests, hw, hput⟩ :=
    put_cases s.1 s.2 path key text dependencies
  · rw [hput]
    exact .inl h
  · rw [hput]
    exact .inl (h.removeEntry ha path)
  · refine .inr ⟨digests, hdigests, ?_⟩
    dsimp only at hput
    rw [hput]
    exact (((h.removeEntry ha path).withEntry ha hkey
      (fun p e he => (mem_entries_removeEntry he).2) hw).evict ha _).flush

/-- More files for code may be thought of. -/
theorem Sound.mono {targets' : List (String × String)} (h : Sound c t targets last s)
    (hsub : targets ⊆ targets') : Sound c t targets' last s where
  dir := h.dir
  dirs := h.dirs
  backed path e he :=
    let hb := h.backed path e he
    ⟨hb.source, hsub hb.target, hb.file, hb.place, hb.stored⟩

/-- Where a cache started does not matter for its entries. -/
theorem Sound.rebase (h : Sound c t targets last s) : Sound s.1 s.2 targets last s :=
  ⟨rfl, .refl _, h.backed⟩

/-- Other files may change. -/
theorem Sound.of_codeFile {t' : FileTree} (h : Sound c t targets last (c, t))
    (hread : ∀ key, t'.read? (c.codeFile key) = t.read? (c.codeFile key)) : Sound c t' targets last (c, t') := by
  refine ⟨rfl, .refl _, fun path e he => ?_⟩
  have hb := h.backed path e he
  obtain ⟨code, hlast, hkey, hdigests, htext⟩ := hb.stored
  have htext' : t'.read? e.file = some code.text := by
    have same := hread e.key
    rw [← show e.file = c.codeFile e.key from hb.file] at same
    exact same.trans htext
  obtain ⟨q, hq, hd, -⟩ := read?_eq_some.mp htext'
  exact ⟨hb.source, hb.target, hb.file, ⟨q, hq, hd⟩, code, hlast, hkey, hdigests, htext'⟩

end Cache

end Frontend
