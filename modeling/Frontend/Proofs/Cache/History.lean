import Mathlib.Data.List.Infix
import Frontend.Proofs.File.Tree

/-!
# The history of a cache

What a cache gives back after a series of operations. `latest` computes from the operations alone what
was stored last for an entry file; the main theorem says that a cache gives back exactly that, and that
it does so unless the entry was touched or made room for another.

Code is kept in files that only a part of the key names, and not the entry file. Two entry files whose
keys start the same way share one file of code, and each takes the code of the other; `Apart` leaves
that out, and the last section shows what happens otherwise.
-/

namespace Frontend

open FileTree

variable {q key path text : String} {s' : CacheState} {e : CacheEntry} {t' : FileTree}
  {digests : List (String × String)} {dependencies : List String}
variable {p : String} {ops : List CacheOperation} {op : CacheOperation}

/-- An operation on an open cache. -/
inductive CacheOperation where
  | put (path key text : String) (dependencies : List String)
  | get (path key : String)
  | invalidate (path : String)
  | clear

/-- An open cache and the files around it. -/
abbrev CacheState := Cache × FileTree

/-- What was stored for an entry file: the key, the code, and the digests of the files it depends on. -/
structure StoredCode where
  key : String
  text : String
  digests : List (String × String)

namespace CacheOperation

/-- What an operation leaves behind. -/
def run (s : CacheState) : CacheOperation → CacheState
  | put path key text dependencies => (s.1.put s.2 path key text dependencies).2
  | get path key => (s.1.get s.2 path key).2
  | invalidate path => (s.1.invalidate s.2 path).2
  | clear => (s.1.clear s.2).2

/-- The states of a series of operations, one after another. -/
def runAll (s : CacheState) (ops : List CacheOperation) : CacheState := ops.foldl run s

/-- Whether an operation is about an entry file. -/
def concerns (path : String) : CacheOperation → Bool
  | put q _ _ _ | get q _ | invalidate q => q == path
  | clear => true

/-- What an operation stores for an entry file, if it succeeds. -/
def stores? (s : CacheState) (path : String) : CacheOperation → Option StoredCode
  | put q key text dependencies =>
    match s.1.put s.2 q key text dependencies, Cache.digests s.2 q dependencies with
    | (.ok _, _), .ok digests => if q = path then some { key, text, digests } else none
    | _, _ => none
  | _ => none

/-- What a series of operations stored last for an entry file. -/
def latest (path : String) : CacheState → List CacheOperation → Option StoredCode → Option StoredCode
  | _, [], last => last
  | s, op :: ops, last => latest path (op.run s) ops ((op.stores? s path).or last)

/-- The entry files and keys that operations store code for. -/
def targets : List CacheOperation → List (String × String) :=
  List.filterMap fun
    | put path key _ _ => some (path, key)
    | _ => none

/-- An entry file has an entry after every operation that may make room by dropping entries. -/
def NeverEvicted (path : String) : CacheState → List CacheOperation → Prop
  | _, [] => True
  | s, op :: ops =>
    (∀ q key text dependencies, op = put q key text dependencies →
      ((op.run s).1.find? path).isSome) ∧ NeverEvicted path (op.run s) ops

end CacheOperation

namespace Cache

variable {c : Cache} {t : FileTree} {s : CacheState} {targets : List (String × String)}
  {last : String → Option StoredCode}

/-- The index of a cache can be written. -/
def CanSave (s : CacheState) : Prop := (s.1.save s.2).isOk

instance (s : CacheState) : Decidable (CanSave s) := inferInstanceAs (Decidable (_ = true))

/-- Different entry files have their code in different files. -/
def Apart (c : Cache) (t : FileTree) (targets : List (String × String)) : Prop :=
  ∀ p k q k', (p, k) ∈ targets → (q, k') ∈ targets → p ≠ q →
    ∀ place, t.place? (c.codeFile k) = some place → t.place? (c.codeFile k') ≠ some place

/-- What has to hold of an entry: its code is in the file for its key, and is the code that was stored
last. -/
structure Backed (targets : List (String × String)) (last : Option StoredCode) (s : CacheState)
    (path : String) (e : CacheEntry) : Prop where
  source : e.source = path
  target : (path, e.key) ∈ targets
  file : e.file = s.1.codeFile e.key
  place : ∃ q, s.2.place? e.file = some q ∧ s.2.dirs.contains q = false
  stored : ∃ code, last = some code ∧ code.key = e.key ∧ code.digests = e.dependencies ∧
    s.2.read? e.file = some code.text

/-- What holds of a cache throughout, as compared to where it started. -/
structure Sound (c : Cache) (t : FileTree) (targets : List (String × String))
    (last : String → Option StoredCode) (s : CacheState) : Prop where
  dir : s.1.dir = c.dir
  dirs : SameDirs t s.2
  backed : ∀ path e, (path, e) ∈ s.1.entries → Backed targets (last path) s path e

theorem codeFile_eq {c' : Cache} (h : c'.dir = c.dir) (key : String) : c'.codeFile key = c.codeFile key := by
  unfold codeFile
  rw [h]

/-- What a file of code is called. -/
theorem endsIn_codeFile (c : Cache) (key : String) : ∃ name,
    Path.EndsIn name (c.codeFile key) ∧ Path.Proper name ∧ name.getLast? = some 'a' := by
  unfold codeFile
  generalize (Source.ofBytes (key.toUTF8.toList.take 32)).shown = stem
  obtain ⟨name, hname⟩ := Path.exists_endsIn stem
  have hcode : Path.EndsIn (name ++ ".ra".toList) (stem ++ codeExtension) := by
    refine ⟨by simpa using hname.1, ?_⟩
    obtain h | ⟨front, h⟩ := hname.2
    · exact .inl (by simp [h, codeExtension])
    · exact .inr ⟨front, by simp [h, codeExtension]⟩
  have hproper : Path.Proper (name ++ ".ra".toList) := by
    refine ⟨by simp, ?_, ?_⟩ <;> intro h <;> simpa using congrArg List.getLast? h
  exact ⟨_, Path.endsIn_join c.dir hcode hproper, hproper, by simp⟩

/-- A file that is called otherwise is no file of code. -/
theorem place?_ne_codeFile {name : List Char} (hp : Path.EndsIn name p) (hname : Path.Proper name)
    (hlast : name.getLast? ≠ some 'a') (hq : t.place? (c.codeFile key) = some q) : t.place? p ≠ some q := by
  obtain ⟨name', hcode, hproper, ha⟩ := c.endsIn_codeFile key
  exact place?_ne_of_endsIn hcode hp hproper hname (ha ▸ hlast.symm) hq

/-- The file of the index is no file of code. -/
theorem place?_indexPath_ne (hq : t.place? (c.codeFile key) = some q) : t.place? c.indexPath ≠ some q := by
  have hindex : Path.EndsIn "index.json".toList "index.json" := ⟨by decide, .inl rfl⟩
  have hproper : Path.Proper "index.json".toList := ⟨by decide, by decide, by decide⟩
  exact place?_ne_codeFile (Path.endsIn_join c.dir hindex hproper) hproper (by decide) hq

/-! ## What the pieces of the operations keep -/

/-- An entry stays backed while its code is where it was. -/
theorem Backed.of_read? {last : Option StoredCode} {e' : CacheEntry} (h : Backed targets last s path e)
    (hsource : e'.source = e.source) (hkey : e'.key = e.key) (hfile : e'.file = e.file)
    (hdeps : e'.dependencies = e.dependencies) (hdir : s'.1.dir = s.1.dir) (hdirs : SameDirs s.2 s'.2)
    (hread : s'.2.read? e.file = s.2.read? e.file) : Backed targets last s' path e' where
  source := hsource.trans h.source
  target := hkey ▸ h.target
  file := by rw [hfile, hkey, codeFile_eq hdir, h.file]
  place := by
    obtain ⟨q, hq, hd⟩ := h.place
    exact ⟨q, by rw [hfile, place?_eq hdirs, hq], by rw [hdirs.dirs, hd]⟩
  stored := by
    obtain ⟨code, hlast, hcode, hdigests, htext⟩ := h.stored
    exact ⟨code, hlast, hcode.trans hkey.symm, hdigests.trans hdeps.symm, by
      rw [hfile, hread, htext]⟩

/-- A cache stays sound when it keeps some of its entries and the code of these. -/
theorem Sound.of_read? (h : Sound c t targets last s) (hdir : s'.1.dir = s.1.dir) (hdirs : SameDirs s.2 s'.2)
    (hentries : ∀ path e', (path, e') ∈ s'.1.entries → ∃ e, (path, e) ∈ s.1.entries ∧
      e'.source = e.source ∧ e'.key = e.key ∧ e'.file = e.file ∧ e'.dependencies = e.dependencies ∧
      s'.2.read? e.file = s.2.read? e.file) : Sound c t targets last s' where
  dir := hdir.trans h.dir
  dirs := h.dirs.trans hdirs
  backed path e' he' := by
    obtain ⟨e, he, hsource, hkey, hfile, hdeps, hread⟩ := hentries path e' he'
    exact (h.backed path e he).of_read? hsource hkey hfile hdeps hdir hdirs hread

theorem mem_of_find? (h : c.find? path = some e) : (path, e) ∈ c.entries := mem_of_lookup h

/-- Forgetting an entry forgets no other. -/
theorem find?_removeEntry (c : Cache) (t : FileTree) (path q : String) :
    (c.removeEntry t path).1.find? q = if q = path then none else c.find? q := by
  unfold removeEntry
  cases hf : c.find? path with
  | none =>
    by_cases hq : q = path
    · rw [if_pos hq, hq]
      exact hf
    · rw [if_neg hq]
  | some e =>
    refine (lookup_filter (fun name => name != path) q c.entries).trans ?_
    by_cases hq : q = path <;> simp [hq, find?]

/-- The entries that are left when one is forgotten. -/
theorem mem_entries_removeEntry (h : (q, e) ∈ (c.removeEntry t path).1.entries) :
    (q, e) ∈ c.entries ∧ q ≠ path := by
  unfold removeEntry at h
  cases hf : c.find? path with
  | none =>
    rw [hf] at h
    refine ⟨h, ?_⟩
    rintro rfl
    exact absurd (List.lookup_eq_none_iff.mp hf _ h) (by simp)
  | some e' =>
    rw [hf] at h
    simpa using h

theorem dir_removeEntry (c : Cache) (t : FileTree) (path : String) : (c.removeEntry t path).1.dir = c.dir := by
  unfold removeEntry
  split <;> rfl

/-- Forgetting an entry removes its code and nothing else. -/
theorem Sound.removeEntry (ha : Apart c t targets) (h : Sound c t targets last s) (path : String) :
    Sound c t targets last (s.1.removeEntry s.2 path) := by
  cases hf : s.1.find? path with
  | none =>
    rw [Cache.removeEntry, hf]
    exact h
  | some e =>
    have hb := h.backed path e (mem_of_find? hf)
    obtain ⟨q, hq, hd⟩ := hb.place
    have hfiles : (s.1.removeEntry s.2 path).2 = drop s.2 e.file := by rw [Cache.removeEntry, hf]
    refine h.of_read? (dir_removeEntry ..) (hfiles ▸ sameDirs_drop hq hd) fun p e' he' => ?_
    obtain ⟨hmem, hne⟩ := mem_entries_removeEntry he'
    have hb' := h.backed p e' hmem
    refine ⟨e', hmem, rfl, rfl, rfl, rfl, ?_⟩
    rw [hfiles]
    refine read?_drop hq hd fun hq' => ?_
    -- Both entries have their code at one place, so they belong to one entry file.
    rw [hb.file, codeFile_eq h.dir, place?_eq h.dirs] at hq
    rw [hb'.file, codeFile_eq h.dir, place?_eq h.dirs] at hq'
    exact ha p e'.key path e.key hb'.target hb.target hne q hq' hq

/-- Dropping entries until the rest fits keeps the rest. -/
theorem Sound.evict (ha : Apart c t targets) (h : Sound c t targets last s) (paths : List String) :
    Sound c t targets last (Cache.evict paths s.1 s.2) := by
  induction paths generalizing s with
  | nil => exact h
  | cons path paths ih =>
    rw [Cache.evict]
    split
    · exact h
    · exact ih (h.removeEntry ha path)

/-- Writing the index touches no code. -/
theorem Sound.save (h : Sound c t targets last s) (hsave : s.1.save s.2 = .ok t') :
    Sound c t targets last (s.1, t') := by
  have hw : ∃ text, s.2.write s.1.indexPath text = .ok t' := by
    unfold Cache.save at hsave
    split at hsave
    · exact nomatch hsave
    next text _ =>
      cases hw : s.2.write s.1.indexPath text with
      | error e => rw [hw] at hsave; exact nomatch hsave
      | ok t'' => rw [hw] at hsave; exact ⟨text, by rw [hw]; exact congrArg _ (Except.ok.inj hsave)⟩
  obtain ⟨text, hw⟩ := hw
  refine h.of_read? rfl (sameDirs_write hw) fun path e he => ⟨e, he, rfl, rfl, rfl, rfl, ?_⟩
  have hb := h.backed path e he
  obtain ⟨q, hq, -⟩ := hb.place
  rw [read?_write hw, if_neg]
  rw [hq, eq_comm]
  exact place?_indexPath_ne (hb.file ▸ hq)

/-- Flushing a cache keeps everything, however it goes. -/
theorem Sound.flush (h : Sound c t targets last s) : Sound c t targets last (s.1.flush s.2).2 := by
  unfold Cache.flush
  split
  · exact h
  next t' hs => exact h.save hs

/-! ## What one operation keeps -/

/-- The cache with a new entry, before others make room for it. -/
def withEntry (c : Cache) (path key text : String) (digests : List (String × String)) : Cache :=
  { c with
    entries := c.entries ++ [(path, {
      source := path, key, file := c.codeFile key, size := text.utf8ByteSize, dependencies := digests
      compiled := c.clock, accessed := c.clock })]
    totalSize := Decimal.wrapWord (c.totalSize + text.utf8ByteSize)
    updated := c.clock
    clock := c.clock.next }

/-- What storing code does: it is refused before anything is stored, or the entry is there and only the
index may not be written. -/
theorem put_cases (c : Cache) (t : FileTree) (path key text : String) (dependencies : List String) :
    (∃ e, c.put t path key text dependencies = (.error e, c, t)) ∨
    (∃ e, c.put t path key text dependencies = (.error e, c.removeEntry t path)) ∨
    ∃ digests t', Cache.digests t path dependencies = .ok digests ∧
      (c.removeEntry t path).2.write ((c.removeEntry t path).1.codeFile key) text = .ok t' ∧
      let d := (c.removeEntry t path).1.withEntry path key text digests
      c.put t path key text dependencies = (Cache.evict d.byAge d t').1.flush (Cache.evict d.byAge d t').2 := by
  unfold put
  cases hd : Cache.digests t path dependencies with
  | error e => exact .inl ⟨_, rfl⟩
  | ok digests =>
    dsimp only
    cases hw : (c.removeEntry t path).2.write ((c.removeEntry t path).1.codeFile key) text with
    | error e => exact .inr (.inl ⟨_, rfl⟩)
    | ok t' => exact .inr (.inr ⟨digests, t', rfl, rfl, rfl⟩)

/-- Where the index can be written, flushing succeeds. -/
theorem flush_of_canSave (h : CanSave (s.1.flush s.2).2) : (s.1.flush s.2).1 = .ok () := by
  unfold flush at h ⊢
  cases hs : s.1.save s.2 with
  | error e =>
    rw [hs] at h
    rw [CanSave, hs] at h
    exact nomatch h
  | ok t' => rfl

/-- An entry file that code is stored for gets the code, and every other keeps its own. -/
theorem Sound.withEntry (ha : Apart c t targets) (h : Sound c t targets last s) (hkey : (path, key) ∈ targets)
    (hgone : ∀ p e, (p, e) ∈ s.1.entries → p ≠ path) (hw : s.2.write (s.1.codeFile key) text = .ok t') :
    Sound c t targets (fun p => if p = path then some ⟨key, text, digests⟩ else last p)
      (s.1.withEntry path key text digests, t') where
  dir := h.dir
  dirs := h.dirs.trans (sameDirs_write hw)
  backed p e he := by
    obtain ⟨q, hq, hd, -⟩ := write_eq_ok hw
    have hs := sameDirs_write hw
    rcases List.mem_append.mp he with he | he
    · -- An entry that was there is that of another entry file, with its code at another place.
      have hne := hgone p e he
      have hb := h.backed p e he
      rw [if_neg hne]
      refine hb.of_read? rfl rfl rfl rfl rfl hs ?_
      rw [read?_write hw, if_neg]
      intro hplace
      rw [hq, hb.file, codeFile_eq h.dir, place?_eq h.dirs] at hplace
      rw [codeFile_eq h.dir, place?_eq h.dirs] at hq
      exact ha p e.key path key hb.target hkey hne q hplace hq
    · obtain ⟨rfl, rfl⟩ : p = path ∧ e = _ := by simpa using he
      rw [if_pos rfl]
      exact {
        source := rfl
        target := hkey
        file := rfl
        place := ⟨q, (place?_eq hs _).trans hq, by rw [hs.dirs, hd]⟩
        stored := ⟨_, rfl, rfl, rfl, by rw [read?_write hw, if_pos rfl]⟩ }

/-- An operation that is refused stores nothing. -/
theorem stores?_put_of_error {e : CacheError} (h : s.1.put s.2 path key text dependencies = (.error e, s'))
    (p : String) : (CacheOperation.put path key text dependencies).stores? s p = none := by
  simp only [CacheOperation.stores?, h]

/-- An operation that succeeds stores its code for its own entry file. -/
theorem stores?_put_of_ok (h : (s.1.put s.2 path key text dependencies).1 = .ok ())
    (hd : Cache.digests s.2 path dependencies = .ok digests) (p : String) :
    (CacheOperation.put path key text dependencies).stores? s p =
      if path = p then some ⟨key, text, digests⟩ else none := by
  have hput : s.1.put s.2 path key text dependencies =
      (.ok (), (s.1.put s.2 path key text dependencies).2) := Prod.ext h rfl
  rw [CacheOperation.stores?, hput, hd]

/-- Storing code keeps a cache sound, and what is stored is the code that was stored last. -/
theorem Sound.put (ha : Apart c t targets) (h : Sound c t targets last s) (hkey : (path, key) ∈ targets)
    (hsave : CanSave (s.1.put s.2 path key text dependencies).2) : Sound c t targets
      (fun p => ((CacheOperation.put path key text dependencies).stores? s p).or (last p))
      (s.1.put s.2 path key text dependencies).2 := by
  obtain ⟨e, hput⟩ | ⟨e, hput⟩ | ⟨digests, t', hdigests, hw, hput⟩ :=
    put_cases s.1 s.2 path key text dependencies
  · simp only [stores?_put_of_error hput, Option.none_or, hput]
    exact h
  · simp only [stores?_put_of_error hput, Option.none_or, hput]
    exact h.removeEntry ha path
  · dsimp only at hput
    rw [hput] at hsave
    have hok := flush_of_canSave hsave
    rw [← hput] at hok
    have hlast : (fun p => ((CacheOperation.put path key text dependencies).stores? s p).or (last p)) =
        fun p => if p = path then some ⟨key, text, digests⟩ else last p := by
      funext p
      rw [stores?_put_of_ok hok hdigests]
      by_cases hp : p = path
      · simp [hp]
      · simp [hp, Ne.symm hp]
    rw [hlast, hput]
    exact (((h.removeEntry ha path).withEntry ha hkey
      (fun p e he => (mem_entries_removeEntry he).2) hw).evict ha _).flush

/-- Looking for code keeps a cache sound. -/
theorem Sound.get (ha : Apart c t targets) (h : Sound c t targets last s) (path key : String) :
    Sound c t targets last (s.1.get s.2 path key).2 := by
  unfold Cache.get
  split
  · exact h.of_read? rfl (.refl _) fun p e he => ⟨e, he, rfl, rfl, rfl, rfl, rfl⟩
  · split
    · exact (h.removeEntry ha path).of_read? rfl (.refl _) fun p e he =>
        ⟨e, he, rfl, rfl, rfl, rfl, rfl⟩
    · -- A hit notes when the entry was used, and how often.
      refine h.of_read? rfl (.refl _) fun p e' he' => ?_
      obtain ⟨⟨q, e⟩, he, heq⟩ := List.mem_map.mp he'
      dsimp only at heq
      split at heq
      · obtain ⟨rfl, rfl⟩ := Prod.mk.inj heq
        exact ⟨e, he, rfl, rfl, rfl, rfl, rfl⟩
      · obtain ⟨rfl, rfl⟩ := Prod.mk.inj heq
        exact ⟨e, he, rfl, rfl, rfl, rfl, rfl⟩

theorem Sound.clear (h : Sound c t targets last s) : Sound c t targets last (s.1.clear s.2).2 := by
  refine Sound.flush (s := ({ s.1 with entries := [], blanks := [], totalSize := 0, updated := {} },
    dropCode s.2 s.1.dir)) ?_
  exact h.of_read? rfl (sameDirs_dropCode s.2 s.1.dir) fun p e he => nomatch he

/-- **One operation.** It keeps a cache sound, where what it stores counts as stored last. -/
theorem Sound.run (ha : Apart c t targets) (h : Sound c t targets last s) (op : CacheOperation)
    (htarget : ∀ path key text dependencies, op = .put path key text dependencies →
      (path, key) ∈ targets) (hsave : CanSave (op.run s)) :
    Sound c t targets (fun p => (op.stores? s p).or (last p)) (op.run s) := by
  cases op with
  | put path key text dependencies => exact h.put ha (htarget path key text dependencies rfl) hsave
  | get path key => exact h.get ha path key
  | invalidate path => exact (h.removeEntry ha path).flush
  | clear => exact h.clear

/-- **All operations.** A sound cache stays sound, with what the operations stored last. -/
theorem Sound.runAll (ha : Apart c t targets) (h : Sound c t targets last s)
    (htargets : CacheOperation.targets ops ⊆ targets)
    (hsave : ∀ before, before <+: ops → CanSave (CacheOperation.runAll s before)) :
    Sound c t targets (fun p => CacheOperation.latest p s ops (last p)) (CacheOperation.runAll s ops) := by
  induction ops generalizing s last with
  | nil => exact h
  | cons op ops ih =>
    have htarget : ∀ path key text dependencies, op = .put path key text dependencies →
        (path, key) ∈ targets := by
      rintro path key text dependencies rfl
      exact htargets List.mem_cons_self
    have hfirst : CanSave (op.run s) := hsave [op] ⟨ops, rfl⟩
    refine ih (h.run ha op htarget hfirst) ?_ fun before hbefore => ?_
    · refine fun x hx => htargets ?_
      unfold CacheOperation.targets at hx ⊢
      rw [List.filterMap_cons]
      split
      · exact hx
      · exact List.mem_cons_of_mem _ hx
    · exact hsave (op :: before) (List.cons_prefix_cons.mpr ⟨rfl, hbefore⟩)

/-! ## What a cache gives back -/

/-- A cache gives back the code in the file of the entry. -/
theorem get_eq_some (h : (s.1.get s.2 path key).1 = some text) :
    ∃ e, s.1.find? path = some e ∧ s.2.read? e.file = some text := by
  unfold Cache.get at h
  cases hf : s.1.find? path with
  | none => rw [hf] at h; exact nomatch h
  | some e =>
    rw [hf] at h
    dsimp only at h
    refine ⟨e, rfl, ?_⟩
    cases hc : current? s.2 e key with
    | none => rw [hc] at h; exact nomatch h
    | some text' =>
      rw [hc] at h
      obtain rfl : text' = text := Option.some.inj h
      unfold current? at hc
      split at hc
      · exact nomatch hc
      · exact hc

/-- What a sound cache gives back is what was stored last. -/
theorem Sound.get_eq_some (h : Sound c t targets last s) (hget : (s.1.get s.2 path key).1 = some text) :
    ∃ code, last path = some code ∧ code.text = text := by
  obtain ⟨e, hf, hread⟩ := Cache.get_eq_some hget
  obtain ⟨code, hlast, -, -, htext⟩ := (h.backed path e (mem_of_find? hf)).stored
  exact ⟨code, hlast, Option.some.inj (htext.symm.trans hread)⟩

/-- Whatever a table of digests holds was put there. -/
theorem mem_foldl_digests {known found : List (String × String)} {d : String × String}
    (h : d ∈ found.foldl (fun known d => known.filter (·.1 != d.1) ++ [d]) known) : d ∈ known ∨ d ∈ found := by
  induction found generalizing known with
  | nil => exact .inl h
  | cons e found ih =>
    obtain h | h := ih h
    · obtain h | h := List.mem_append.mp h
      · exact .inl (List.mem_filter.mp h).1
      · exact .inr (List.mem_cons.mpr (.inl (List.mem_singleton.mp h)))
    · exact .inr (List.mem_cons_of_mem e h)

/-- The digests of code are those of the files it depends on. -/
theorem mem_digests {digest : String} (hd : Cache.digests t path dependencies = .ok digests)
    (hmem : (p, digest) ∈ digests) : p ∈ dependencies ∧ p ≠ path ∧ (t.read? p).map Digest.ofText = some digest := by
  unfold Cache.digests at hd
  obtain ⟨found, hfound, hd⟩ := bind_ok hd
  obtain rfl := Except.ok.inj hd
  obtain hnil | hmem := mem_foldl_digests hmem
  · exact nomatch hnil
  · obtain ⟨q, hq, hread⟩ := exists_of_mem_mapM hfound hmem
    obtain ⟨hdep, hne⟩ : q ∈ dependencies ∧ q ≠ path := by simpa using hq
    obtain ⟨text, hr, hread⟩ := bind_ok hread
    obtain ⟨rfl, rfl⟩ := Prod.mk.inj (Except.ok.inj hread)
    exact ⟨hdep, hne, by rw [FileTree.read?, hr]; rfl⟩

/-- An entry that still counts is given back. -/
theorem get_of_current (hf : s.1.find? path = some e) (hkey : e.key = key) (hfresh : isStale s.2 e = false)
    (hread : s.2.read? e.file = some text) : (s.1.get s.2 path key).1 = some text := by
  have hc : current? s.2 e key = some text := by simp [current?, hkey, hfresh, hread]
  simp only [Cache.get, hf, hc]

/-- Changing an entry changes no other. -/
theorem find?_changeEntry (c : Cache) (path q : String) (f : CacheEntry → CacheEntry) :
    (c.changeEntry path f).find? q = (c.find? q).map fun e => if q = path then f e else e := by
  unfold changeEntry find?
  induction c.entries with
  | nil => rfl
  | cons x entries ih =>
    obtain ⟨p, e⟩ := x
    by_cases hp : p = path
    · simp only [List.map_cons, hp, beq_self_eq_true, if_true, lookup_cons_eq, ih]
      split <;> simp [*]
    · simp only [List.map_cons, beq_eq_false_iff_ne.mpr hp, Bool.false_eq_true, if_false, lookup_cons_eq, ih]
      split
      next hq => simp [hq, hp]
      next => rfl

/-- Looking for the code of another entry file leaves an entry there. -/
theorem isSome_find?_get (h : (s.1.find? path).isSome) (hne : path ≠ q) (key : String) :
    ((s.1.get s.2 q key).2.1.find? path).isSome := by
  unfold Cache.get
  split
  · exact h
  · split
    · exact (find?_removeEntry s.1 s.2 q path).trans (if_neg hne) ▸ h
    · have hchanged := find?_changeEntry s.1 q path fun e =>
        { e with accessed := s.1.clock, count := Decimal.wrapWord (e.count + 1) }
      exact (congrArg Option.isSome hchanged).trans (Option.isSome_map.trans h)

theorem flush_cache (c : Cache) (t : FileTree) : (c.flush t).2.1 = c := by
  unfold flush
  split <;> rfl

/-- An entry file that an operation is not about keeps its entry, unless room is made. -/
theorem isSome_find?_run (h : (s.1.find? path).isSome) (hop : op.concerns path = false)
    (hput : ∀ q key text dependencies, op = .put q key text dependencies →
      ((op.run s).1.find? path).isSome) : ((op.run s).1.find? path).isSome := by
  cases op with
  | put q key text dependencies => exact hput q key text dependencies rfl
  | get q key =>
    have hne : path ≠ q := fun he => by simp [CacheOperation.concerns, he] at hop
    exact isSome_find?_get h hne key
  | invalidate q =>
    have hne : path ≠ q := fun he => by simp [CacheOperation.concerns, he] at hop
    have hcache : ((CacheOperation.invalidate q).run s).1 = (s.1.removeEntry s.2 q).1 :=
      flush_cache ..
    rw [hcache, find?_removeEntry, if_neg hne]
    exact h
  | clear => exact nomatch hop

/-- An operation stores nothing for an entry file that it is not about. -/
theorem stores?_of_not_concerns (h : op.concerns path = false) : op.stores? s path = none := by
  cases op with
  | put q key text dependencies =>
    have hne : q ≠ path := by simpa [CacheOperation.concerns] using h
    simp only [CacheOperation.stores?, if_neg hne]
    split <;> rfl
  | _ => rfl

/-- An entry file that operations are not about keeps its entry and what was stored last for it. -/
theorem isSome_find?_runAll (last : Option StoredCode) (h : (s.1.find? path).isSome)
    (hops : ∀ op ∈ ops, op.concerns path = false) (hevict : CacheOperation.NeverEvicted path s ops) :
    ((CacheOperation.runAll s ops).1.find? path).isSome ∧ CacheOperation.latest path s ops last = last := by
  induction ops generalizing s with
  | nil => exact ⟨h, rfl⟩
  | cons op ops ih =>
    have hop := hops op List.mem_cons_self
    have hfind := isSome_find?_run h hop hevict.1
    obtain ⟨hsome, hlast⟩ := ih hfind (fun op' hop' => hops op' (List.mem_cons_of_mem op hop'))
      hevict.2
    refine ⟨hsome, ?_⟩
    rw [CacheOperation.latest, stores?_of_not_concerns hop, Option.none_or, hlast]

theorem latest_append (path : String) (s : CacheState) (ops ops' : List CacheOperation) (last : Option StoredCode) :
    CacheOperation.latest path s (ops ++ ops') last = CacheOperation.latest path (CacheOperation.runAll s ops) ops'
        (CacheOperation.latest path s ops last) := by
  induction ops generalizing s last with
  | nil => rfl
  | cons op ops ih => exact ih _ _

/-- Code that is stored has digests. -/
theorem exists_digests_of_put (h : (s.1.put s.2 path key text dependencies).1 = .ok ()) :
    ∃ digests, Cache.digests s.2 path dependencies = .ok digests := by
  obtain ⟨e, hput⟩ | ⟨e, hput⟩ | ⟨digests, -, hdigests, -⟩ :=
    put_cases s.1 s.2 path key text dependencies
  · rw [hput] at h; exact nomatch h
  · rw [hput] at h; exact nomatch h
  · exact ⟨digests, hdigests⟩

/-- An entry whose files are as they were is not stale. -/
theorem isStale_eq_false (hd : Cache.digests t path dependencies = .ok digests) (he : e.dependencies = digests)
    (hsame : ∀ d ∈ dependencies, d ≠ path → t'.read? d = t.read? d) : isStale t' e = false := by
  rw [isStale, List.any_eq_false, he]
  rintro ⟨p, digest⟩ hmem
  obtain ⟨hdep, hne, hread⟩ := mem_digests hd hmem
  simp [hsame p hdep hne, hread]

/-- **A cache does not mix up its entries.** Whatever it gives back for an entry file is the code that
was stored last for it; and code that was stored for an entry file is given back as long as no other
operation is about that file, its entry does not have to make room, and the files it depends on stay as
they were. -/
theorem get_of_runAll {ops : List CacheOperation} (hempty : c.entries = [])
    (happart : Apart c t (CacheOperation.targets ops))
    (hsave : ∀ before, before <+: ops → CanSave (CacheOperation.runAll (c, t) before))
    (path key : String) :
    (∀ text, ((CacheOperation.runAll (c, t) ops).1.get (CacheOperation.runAll (c, t) ops).2
        path key).1 = some text →
      ∃ code, CacheOperation.latest path (c, t) ops none = some code ∧ code.text = text) ∧
    ∀ before text dependencies later,
      ops = before ++ .put path key text dependencies :: later →
      let s := CacheOperation.runAll (c, t) before
      (s.1.put s.2 path key text dependencies).1 = .ok () →
      (∀ op ∈ later, op.concerns path = false) →
      CacheOperation.NeverEvicted path s (.put path key text dependencies :: later) →
      (∀ d ∈ dependencies, d ≠ path →
        (CacheOperation.runAll (c, t) ops).2.read? d = s.2.read? d) →
      ((CacheOperation.runAll (c, t) ops).1.get (CacheOperation.runAll (c, t) ops).2
        path key).1 = some text := by
  have hstart : Sound c t (CacheOperation.targets ops) (fun _ => none) (c, t) :=
    ⟨rfl, .refl t, fun p e he => by rw [hempty] at he; exact nomatch he⟩
  have hsound := hstart.runAll happart (List.Subset.refl _) hsave
  refine ⟨fun text hget => hsound.get_eq_some hget, ?_⟩
  intro before text dependencies later hops s hput hlater hevict hdeps
  obtain ⟨digests, hdigests⟩ := exists_digests_of_put hput
  obtain ⟨hsome, hlast⟩ := isSome_find?_runAll (some ⟨key, text, digests⟩)
    (hevict.1 path key text dependencies rfl) hlater hevict.2
  have hrun : CacheOperation.runAll (c, t) ops = CacheOperation.runAll
      ((CacheOperation.put path key text dependencies).run s) later := by
    rw [hops, CacheOperation.runAll, List.foldl_append]
    rfl
  have hlatest : CacheOperation.latest path (c, t) ops none = some ⟨key, text, digests⟩ := by
    rw [hops, latest_append, CacheOperation.latest, stores?_put_of_ok hput hdigests, if_pos rfl,
      Option.some_or]
    exact hlast
  rw [← hrun] at hsome
  obtain ⟨e, he⟩ := Option.isSome_iff_exists.mp hsome
  obtain ⟨code, hcode, hkey, hdeps', hread⟩ := (hsound.backed path e (mem_of_find? he)).stored
  obtain rfl := Option.some.inj (hlatest.symm.trans hcode)
  exact get_of_current he hkey.symm (isStale_eq_false hdigests hdeps'.symm hdeps) hread

/-- A cache that was just opened. -/
def sampleCache : Cache := { dir := "/c", clock := firstDay }

def sampleTree : FileTree := { dirs := ["/", "/c"] }

/-- A key. -/
def sharedKey : String := "0123456789abcdef0123456789abcdef"

/-- A key that begins in another way. -/
def otherKey : String := "fedcba9876543210fedcba9876543210"

/-- The cache after code was stored for one entry file. -/
def firstStored : CacheState := (CacheOperation.put "/p" sharedKey "A" []).run (sampleCache, sampleTree)

/-- The files after code was written for another one. -/
def secondWritten (key : String) : Except FileError FileTree :=
  (firstStored.1.removeEntry firstStored.2 "/q").2.write
    ((firstStored.1.removeEntry firstStored.2 "/q").1.codeFile key) "B"

/-- The entry for this code. -/
def secondEntered (key : String) : Cache := (firstStored.1.removeEntry firstStored.2 "/q").1.withEntry "/q" key "B" []

/-- The cache after this code was stored, too. -/
def secondStored (key : String) : Except CacheError Unit × CacheState :=
  (secondEntered key).flush ((secondWritten key).toOption.getD {})

theorem evict_of_fits (h : c.fits) (paths : List String) : evict paths c t = (c, t) := by
  cases paths with
  | nil => rfl
  | cons path paths => rw [evict, if_pos h]

/-- Storing code where no room has to be made. -/
theorem put_of_fits (hd : Cache.digests t path dependencies = .ok digests)
    (hw : (c.removeEntry t path).2.write ((c.removeEntry t path).1.codeFile key) text = .ok t')
    (hfits : ((c.removeEntry t path).1.withEntry path key text digests).fits) : c.put t path key text dependencies =
      ((c.removeEntry t path).1.withEntry path key text digests).flush t' := by
  unfold put
  rw [hd]
  dsimp only
  rw [hw]
  exact congrArg (fun s : CacheState => s.1.flush s.2) (evict_of_fits hfits _)

theorem put_second (hwritten : (secondWritten key).toOption.isSome) (hfits : (secondEntered key).fits) :
    firstStored.1.put firstStored.2 "/q" key "B" [] = secondStored key := by
  obtain ⟨t', hwrite⟩ := Option.isSome_iff_exists.mp hwritten
  rw [put_of_fits rfl (toOption_eq_some.mp hwrite) hfits, secondStored, hwrite, Option.getD_some]
  rfl

/-- Code is stored for two entry files, and looked for under one of them. -/
def sampleOperations : List CacheOperation :=
  [.put "/p" sharedKey "A" [], .put "/q" otherKey "B" [], .get "/q" sharedKey]

theorem computed_sampleOperations :
    (secondWritten otherKey).toOption.isSome ∧ (secondEntered otherKey).fits ∧
      (∀ s ∈ [(sampleCache, sampleTree), firstStored, (secondStored otherKey).2,
        (CacheOperation.get "/q" sharedKey).run (secondStored otherKey).2], CanSave s) ∧
      (firstStored.1.find? "/p").isSome ∧ ((secondStored otherKey).2.1.find? "/p").isSome ∧
      (sampleCache.put sampleTree "/p" sharedKey "A" []).1 = .ok () ∧
      ∀ x ∈ CacheOperation.targets sampleOperations, ∀ y ∈ CacheOperation.targets sampleOperations, x.1 ≠ y.1 →
        sampleTree.place? (sampleCache.codeFile x.2) ≠ sampleTree.place? (sampleCache.codeFile y.2) := by
  decide +kernel

theorem get_of_sampleOperations :
    ((CacheOperation.runAll (sampleCache, sampleTree) sampleOperations).1.get
      (CacheOperation.runAll (sampleCache, sampleTree) sampleOperations).2 "/p" sharedKey).1 = some "A" := by
  obtain ⟨hwritten, hfits, hsaves, hfirst, hsecond, hput, hfiles⟩ := computed_sampleOperations
  have happart : Apart sampleCache sampleTree (CacheOperation.targets sampleOperations) := by
    intro p k q k' hp hq hne place hplace hplace'
    exact hfiles _ hp _ hq hne (hplace.trans hplace'.symm)
  have hrun : (CacheOperation.put "/q" otherKey "B" []).run firstStored = (secondStored otherKey).2 :=
    congrArg Prod.snd (put_second hwritten hfits)
  have hsave : ∀ before, before <+: sampleOperations →
      CanSave (CacheOperation.runAll (sampleCache, sampleTree) before) := by
    intro before hbefore
    have hinits : before ∈ sampleOperations.inits := (List.mem_inits before sampleOperations).mpr hbefore
    refine hsaves _ ?_
    rw [← hrun]
    exact List.mem_map_of_mem (f := CacheOperation.runAll (sampleCache, sampleTree)) hinits
  refine (get_of_runAll rfl happart hsave "/p" sharedKey).2
    [] "A" [] (sampleOperations.drop 1) rfl hput (by decide) ⟨fun _ _ _ _ _ => hfirst, ?_, ?_, trivial⟩
    (fun d hd => nomatch hd)
  · intro _ _ _ _ _
    exact hrun.symm ▸ hsecond
  · rintro _ _ _ _ ⟨⟩

/-! ## Entry files that share a file of code -/

theorem computed_sharedKey : (secondWritten sharedKey).toOption.isSome ∧ (secondEntered sharedKey).fits ∧
    (sampleCache.put sampleTree "/p" sharedKey "A" []).1 = .ok () ∧ (secondStored sharedKey).1 = .ok () ∧
      ((secondStored sharedKey).2.1.get (secondStored sharedKey).2.2 "/p" sharedKey).1 = some "B" := by
  decide +kernel

/-- Two entry files with one key: what is stored for the second is given back for the first. -/
theorem get_of_shared_file :
    (sampleCache.put sampleTree "/p" sharedKey "A" []).1 = .ok () ∧
      (firstStored.1.put firstStored.2 "/q" sharedKey "B" []).1 = .ok () ∧
      ((firstStored.1.put firstStored.2 "/q" sharedKey "B" []).2.1.get
        (firstStored.1.put firstStored.2 "/q" sharedKey "B" []).2.2 "/p" sharedKey).1 = some "B" := by
  obtain ⟨hwritten, hfits, hfirst, hsecond⟩ := computed_sharedKey
  rw [put_second hwritten hfits]
  exact ⟨hfirst, hsecond⟩

end Cache

end Frontend
