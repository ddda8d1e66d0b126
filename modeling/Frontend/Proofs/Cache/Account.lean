import Frontend.Proofs.Cache.History
import Frontend.Proofs.Word.Spelling

/-!
# The books of a cache

A cache counts how much room its code takes while entries come and go. The count is right after every series of
operations, whether they succeed or stop half way, and whatever happens to files in between. When code is stored, the
entries that were not used for the longest time make room, and no more of them than need be.
-/

namespace Frontend

open FileTree

variable {entries' : Entries} {key text : String} {digests : List (String × String)}

/-- What happens around an open cache. -/
inductive CacheEvent where
  | operation (op : CacheOperation)
  | flush
  /-- Files are changed by others. -/
  | elsewhere (files : FileTree)

namespace CacheEvent

/-- What an event leaves behind. -/
def run (s : CacheState) : CacheEvent → CacheState
  | operation op => op.run s
  | flush => (s.1.flush s.2).2
  | elsewhere files => (s.1, files)

/-- The states of a series of events, one after another. -/
def runAll (s : CacheState) (events : List CacheEvent) : CacheState := events.foldl run s

/-- Code whose size can be counted on top of a full cache. Longer texts have no place in memory. -/
def IsCountable (text : String) : Prop := text.utf8ByteSize + Cache.maxSize < Number.twoTo 63

instance (text : String) : Decidable (IsCountable text) := inferInstanceAs (Decidable (_ < _))

/-- An event that stores no code that is too long to be counted. -/
def Counts : CacheEvent → Prop
  | operation (.put _ _ text _) => IsCountable text
  | _ => True

end CacheEvent

namespace Cache

/-- Entries with their entry files. -/
abbrev Entries := List (String × CacheEntry)

/-- How much room entries take. -/
def room (entries : Entries) : Int := entries.foldr (fun entry rest => entry.2.size + rest) 0

/-- The limits of a cache. -/
structure Within (entries : Entries) : Prop where
  number : entries.length ≤ maxEntries
  room : room entries ≤ maxSize

/-- The first entry was not used after the second one. -/
def Before (a b : String × CacheEntry) : Prop := a.2.accessed.instant < b.2.accessed.instant

/-- Different entries belong to different entry files, and were used at different times. -/
def Distinct (a b : String × CacheEntry) : Prop := a.1 ≠ b.1 ∧ a.2.accessed.instant ≠ b.2.accessed.instant

/-- A cache whose books are right. -/
structure Accounted (c : Cache) : Prop where
  total : c.totalSize = room c.entries
  bounded : c.totalSize < Number.twoTo 63
  size : ∀ entry ∈ c.entries, 0 ≤ entry.2.size
  source : ∀ entry ∈ c.entries, entry.2.source = entry.1
  distinct : c.entries.Pairwise Distinct
  past : ∀ entry ∈ c.entries, entry.2.accessed.instant < c.clock.instant
  blanks : c.blanks = []

variable {c c' : Cache} {t : FileTree} {s : CacheState} {path : String} {e : CacheEntry} {entries rest : Entries}

theorem wrapWord_eq {n : Int} (h : 0 ≤ n) (h' : n < Number.twoTo 63) : Decimal.wrapWord n = n :=
  Word.wrapWord_of_inWord (by simp only [Decimal.inWord, Bool.and_eq_true, decide_eq_true_eq]; omega)

theorem Distinct.symm {a b : String × CacheEntry} (h : Distinct a b) : Distinct b a := ⟨h.1.symm, h.2.symm⟩

theorem room_cons (entry : String × CacheEntry) (entries : Entries) :
    room (entry :: entries) = entry.2.size + room entries := rfl

theorem room_append (entries entries' : Entries) : room (entries ++ entries') = room entries + room entries' := by
  induction entries with
  | nil => exact (Int.zero_add _).symm
  | cons entry entries ih => rw [List.cons_append, room_cons, room_cons, ih, Int.add_assoc]

theorem room_nonneg (h : ∀ entry ∈ entries, 0 ≤ entry.2.size) : 0 ≤ room entries := by
  induction entries with
  | nil => exact Int.le_refl 0
  | cons entry entries ih =>
    have hrest := ih fun entry' he => h entry' (List.mem_cons_of_mem _ he)
    have hfirst := h entry List.mem_cons_self
    rw [room_cons]
    omega

theorem room_perm (h : entries.Perm entries') : room entries = room entries' := by
  induction h with
  | nil => rfl
  | cons entry _ ih => rw [room_cons, room_cons, ih]
  | swap entry entry' entries => rw [room_cons, room_cons, room_cons, room_cons, Int.add_left_comm]
  | trans _ _ ih₁ ih₂ => exact ih₁.trans ih₂

theorem Within.perm (h : Within entries) (hp : entries.Perm entries') : Within entries' :=
  ⟨hp.length_eq ▸ h.number, room_perm hp ▸ h.room⟩

/-! ## Entries come and go -/

/-- The entry of an entry file, and the entries of all others. -/
theorem perm_filter (h : entries.Pairwise Distinct) (he : (path, e) ∈ entries) :
    entries.Perm ((path, e) :: entries.filter (·.1 != path)) := by
  obtain ⟨before, after, rfl⟩ := List.append_of_mem he
  have hcross := List.pairwise_append.mp h
  have hbefore : ∀ entry ∈ before, (entry.1 != path) = true := fun entry hentry =>
    bne_iff_ne.mpr (hcross.2.2 entry hentry _ List.mem_cons_self).1
  have hafter : ∀ entry ∈ after, (entry.1 != path) = true := fun entry hentry =>
    bne_iff_ne.mpr ((List.pairwise_cons.mp hcross.2.1).1 entry hentry).1.symm
  rw [List.filter_append, List.filter_cons_of_neg (by simp), List.filter_eq_self.mpr hbefore,
    List.filter_eq_self.mpr hafter]
  exact List.perm_middle

theorem Accounted.removeEntry (h : Accounted c) (t : FileTree) (path : String) :
    Accounted (c.removeEntry t path).1 := by
  cases hf : c.find? path with
  | none =>
    rw [Cache.removeEntry, hf]
    exact h
  | some e =>
    have hmem := mem_of_find? hf
    have hroom := room_perm (perm_filter h.distinct hmem)
    have hsize := h.size _ hmem
    have hkept : ∀ entry ∈ c.entries.filter (·.1 != path), entry ∈ c.entries := fun entry he =>
      List.mem_of_mem_filter he
    have hrest := room_nonneg fun entry he => h.size entry (hkept entry he)
    rw [room_cons, ← h.total] at hroom
    have htotal : Decimal.wrapWord (c.totalSize - e.size) = room (c.entries.filter (·.1 != path)) := by
      have hbounded := h.bounded
      dsimp only at hroom hsize
      rw [show c.totalSize - e.size = room (c.entries.filter (·.1 != path)) by omega]
      exact wrapWord_eq hrest (by omega)
    have hcache : (c.removeEntry t path).1 = { c with
        entries := c.entries.filter (·.1 != path)
        totalSize := room (c.entries.filter (·.1 != path)) } := by
      rw [Cache.removeEntry, hf, ← htotal]
    rw [hcache]
    refine ⟨rfl, ?_, fun entry he => h.size entry (hkept entry he), fun entry he => h.source entry (hkept entry he),
      h.distinct.sublist List.filter_sublist, fun entry he => h.past entry (hkept entry he), h.blanks⟩
    have hbounded := h.bounded
    dsimp only at hroom hsize ⊢
    omega

theorem entries_removeEntry (h : Accounted c) (t : FileTree) (he : (path, e) ∈ c.entries) :
    c.entries.Perm ((path, e) :: (c.removeEntry t path).1.entries) := by
  cases hf : c.find? path with
  | none => exact absurd (List.lookup_eq_none_iff.mp hf _ he) (by simp)
  | some e' =>
    rw [Cache.removeEntry, hf]
    exact perm_filter h.distinct he

/-- The limits of a cache are those of its entries. -/
theorem Accounted.fits_iff (h : Accounted c) : c.fits = true ↔ Within c.entries := by
  unfold fits count
  rw [h.blanks, List.length_nil, Nat.add_zero, Bool.and_eq_true, decide_eq_true_iff, decide_eq_true_iff, h.total]
  exact ⟨fun hw => ⟨hw.1, hw.2⟩, fun hw => ⟨hw.number, hw.room⟩⟩

/-! ## Room is made -/

/-- The first of some entries make room, and no more of them than need be. -/
structure MakesRoom (evicted kept : Entries) : Prop where
  within : Within kept
  shortest : ∀ n < evicted.length, ¬ Within ((evicted ++ kept).drop n)

theorem makesRoom_nil {kept : Entries} (h : Within kept) : MakesRoom [] kept :=
  ⟨h, fun n hn => absurd hn (Nat.not_lt_zero n)⟩

theorem within_nil : Within [] := ⟨Nat.zero_le _, by decide⟩

/-- Entries in any order make room in that order. -/
theorem Accounted.evict (h : Accounted c) (t : FileTree) (hp : c.entries.Perm entries) :
    Accounted (Cache.evict (entries.map (·.1)) c t).1 ∧ ∃ evicted kept, entries = evicted ++ kept ∧
      MakesRoom evicted kept ∧ (Cache.evict (entries.map (·.1)) c t).1.entries.Perm kept := by
  induction entries generalizing c t with
  | nil => exact ⟨h, [], [], rfl, makesRoom_nil within_nil, hp⟩
  | cons entry entries ih =>
    obtain ⟨path, e⟩ := entry
    rw [List.map_cons, Cache.evict]
    by_cases hfits : c.fits = true
    · rw [if_pos hfits]
      exact ⟨h, [], _, rfl, makesRoom_nil ((h.fits_iff.mp hfits).perm hp), hp⟩
    · rw [if_neg hfits]
      have hmem : (path, e) ∈ c.entries := hp.mem_iff.mpr List.mem_cons_self
      have hrest : (c.removeEntry t path).1.entries.Perm entries :=
        ((entries_removeEntry h t hmem).symm.trans hp).cons_inv
      obtain ⟨haccounted, evicted, kept, hsplit, hmakes, hkept⟩ :=
        ih (h.removeEntry t path) (c.removeEntry t path).2 hrest
      refine ⟨haccounted, (path, e) :: evicted, kept, congrArg (_ :: ·) hsplit,
        ⟨hmakes.within, fun n hn => ?_⟩, hkept⟩
      cases n with
      | zero =>
        rw [List.drop_zero, List.cons_append, ← hsplit]
        exact fun hw => hfits (h.fits_iff.mpr (hw.perm hp.symm))
      | succ n => exact hmakes.shortest n (Nat.lt_of_succ_lt_succ hn)

/-- The entries from the one that was not used for the longest time to the one used last. -/
theorem Accounted.byAge (h : Accounted c) : ∃ entries, c.entries.Perm entries ∧ entries.Pairwise Before ∧
    c.byAge = entries.map (·.1) := by
  refine ⟨c.entries.mergeSort fun a b => decide (a.2.accessed.instant ≤ b.2.accessed.instant),
    (List.mergeSort_perm _ _).symm, ?_, ?_⟩
  · have hsorted : (c.entries.mergeSort fun a b => decide (a.2.accessed.instant ≤ b.2.accessed.instant)).Pairwise
        fun a b => decide (a.2.accessed.instant ≤ b.2.accessed.instant) = true := by
      refine List.pairwise_mergeSort (fun a b c hab hbc => ?_) (fun a b => ?_) _
      · exact decide_eq_true (Int.le_trans (of_decide_eq_true hab) (of_decide_eq_true hbc))
      · rw [Bool.or_eq_true, decide_eq_true_iff, decide_eq_true_iff]
        exact Int.le_total _ _
    have hdistinct := h.distinct.perm (List.mergeSort_perm c.entries
      fun a b => decide (a.2.accessed.instant ≤ b.2.accessed.instant)).symm Distinct.symm
    refine (hsorted.and hdistinct).imp fun hab => ?_
    exact Int.lt_iff_le_and_ne.mpr ⟨of_decide_eq_true hab.1, hab.2.2⟩
  · unfold Cache.byAge
    refine List.map_congr_left fun entry hentry => h.source entry ?_
    exact (List.mergeSort_perm _ _).mem_iff.mp hentry

/-! ## What one event keeps -/

theorem instant_next (m : Moment) : m.next.instant = m.instant + 1 := rfl

/-- A new entry is counted. -/
theorem Accounted.withEntry (h : Accounted c) (hnew : ∀ entry ∈ c.entries, entry.1 ≠ path)
    (hroom : c.totalSize + text.utf8ByteSize < Number.twoTo 63) : Accounted (c.withEntry path key text digests) := by
  have hnonneg := room_nonneg h.size
  rw [← h.total] at hnonneg
  have htotal : Decimal.wrapWord (c.totalSize + text.utf8ByteSize) = c.totalSize + text.utf8ByteSize :=
    wrapWord_eq (by omega) hroom
  unfold Cache.withEntry
  rw [htotal]
  refine ⟨?_, hroom, ?_, ?_, ?_, ?_, h.blanks⟩
  · rw [room_append, ← h.total]
    exact congrArg (c.totalSize + ·) (Int.add_zero _).symm
  · intro entry hentry
    rcases List.mem_append.mp hentry with hentry | hentry
    · exact h.size entry hentry
    · rw [List.mem_singleton.mp hentry]
      exact Int.natCast_nonneg _
  · intro entry hentry
    rcases List.mem_append.mp hentry with hentry | hentry
    · exact h.source entry hentry
    · rw [List.mem_singleton.mp hentry]
  · refine List.pairwise_append.mpr ⟨h.distinct, List.pairwise_singleton _ _, fun a ha b hb => ?_⟩
    rw [List.mem_singleton.mp hb]
    exact ⟨hnew a ha, Int.ne_of_lt (h.past a ha)⟩
  · intro entry hentry
    dsimp only
    rw [instant_next]
    rcases List.mem_append.mp hentry with hentry | hentry
    · exact Int.lt_add_one_of_le (Int.le_of_lt (h.past entry hentry))
    · rw [List.mem_singleton.mp hentry]
      exact Int.lt_succ _

/-- The books are right, and the limits are kept. -/
structure InOrder (c : Cache) : Prop where
  accounted : Accounted c
  within : Within c.entries

theorem inOrder_empty (hentries : c.entries = []) (hblanks : c.blanks = []) (htotal : c.totalSize = 0) : InOrder c := by
  refine ⟨⟨?_, ?_, ?_, ?_, ?_, ?_, hblanks⟩, ?_⟩ <;> try rw [hentries]
  · exact htotal
  · rw [htotal]
    decide
  · exact fun entry hentry => absurd hentry List.not_mem_nil
  · exact fun entry hentry => absurd hentry List.not_mem_nil
  · exact .nil
  · exact fun entry hentry => absurd hentry List.not_mem_nil
  · exact within_nil

theorem InOrder.removeEntry (h : InOrder c) (t : FileTree) (path : String) : InOrder (c.removeEntry t path).1 := by
  refine ⟨h.accounted.removeEntry t path, ?_⟩
  cases hf : c.find? path with
  | none =>
    rw [Cache.removeEntry, hf]
    exact h.within
  | some e =>
    have hmem := mem_of_find? hf
    have hp := entries_removeEntry h.accounted t hmem
    have hnumber := hp.length_eq
    have hroom := room_perm hp
    have hsize := h.accounted.size _ hmem
    have hwithin := h.within
    rw [List.length_cons] at hnumber
    rw [room_cons] at hroom
    dsimp only at hroom hsize
    exact ⟨by have := hwithin.number; omega, by have := hwithin.room; omega⟩

theorem entries_changeEntry (c : Cache) (path : String) (f : CacheEntry → CacheEntry) :
    (c.changeEntry path f).entries = c.entries.map fun entry =>
      (entry.1, if entry.1 = path then f entry.2 else entry.2) := by
  refine List.map_congr_left fun entry _ => ?_
  obtain ⟨p, e⟩ := entry
  by_cases hp : p = path <;> simp [hp]

theorem room_map {f : String × CacheEntry → CacheEntry} (h : ∀ entry, (f entry).size = entry.2.size) :
    room (entries.map fun entry => (entry.1, f entry)) = room entries := by
  induction entries with
  | nil => rfl
  | cons entry entries ih =>
    rw [List.map_cons, room_cons, room_cons, ih]
    exact congrArg (· + room entries) (h entry)

/-- Code that is used is used last. -/
theorem InOrder.use (h : InOrder c) (path : String) (hits : Nat) : InOrder { c.changeEntry path (fun e =>
    { e with accessed := c.clock, count := Decimal.wrapWord (e.count + 1) }) with
      hits, clock := c.clock.next } := by
  have ha := h.accounted
  have hroom : ∀ entries : Entries, room (entries.map fun entry => (entry.1, if entry.1 = path then
      { entry.2 with accessed := c.clock, count := Decimal.wrapWord (entry.2.count + 1) } else entry.2)) =
      room entries := fun entries => room_map fun entry => by split <;> rfl
  refine ⟨⟨?_, ha.bounded, ?_, ?_, ?_, ?_, ha.blanks⟩, ⟨?_, ?_⟩⟩ <;> dsimp only <;> rw [entries_changeEntry]
  · rw [hroom]
    exact ha.total
  · refine List.forall_mem_map.mpr fun entry hentry => ?_
    have hsize := ha.size entry hentry
    dsimp only
    split <;> exact hsize
  · refine List.forall_mem_map.mpr fun entry hentry => ?_
    have hsource := ha.source entry hentry
    dsimp only
    split <;> exact hsource
  · refine List.pairwise_map.mpr (ha.distinct.imp_of_mem fun {a b} hmem hmem' hab => ⟨hab.1, ?_⟩)
    have hpast := ha.past a hmem
    have hpast' := ha.past b hmem'
    dsimp only
    -- only one of two entries belongs to the entry file
    by_cases hpath : a.1 = path
    · rw [if_pos hpath, if_neg fun hb => hab.1 (hpath.trans hb.symm)]
      exact Int.ne_of_gt hpast'
    · rw [if_neg hpath]
      split
      · exact Int.ne_of_lt hpast
      · exact hab.2
  · refine List.forall_mem_map.mpr fun entry hentry => ?_
    have hpast := ha.past entry hentry
    dsimp only
    rw [instant_next]
    split
    · exact Int.lt_succ _
    · exact Int.lt_add_one_of_le (Int.le_of_lt hpast)
  · rw [List.length_map]
    exact h.within.number
  · rw [hroom]
    exact h.within.room

theorem InOrder.get (h : InOrder c) (t : FileTree) (path key : String) : InOrder (c.get t path key).2.1 := by
  have hmissed : ∀ {c : Cache}, InOrder c → InOrder { c with misses := c.misses + 1 } := fun h =>
    ⟨⟨h.accounted.total, h.accounted.bounded, h.accounted.size, h.accounted.source, h.accounted.distinct,
      h.accounted.past, h.accounted.blanks⟩, h.within⟩
  unfold Cache.get
  cases c.find? path with
  | none => exact hmissed h
  | some e =>
    dsimp only
    cases current? t e key with
    | none => exact hmissed (h.removeEntry t path)
    | some text => exact h.use path _

/-- What happens to the entries of a cache when code is stored: the first of them in the order of their last use make
room. -/
def Replaces (before after : Entries) : Prop :=
  ∃ evicted kept, before.Perm (evicted ++ kept) ∧ (evicted ++ kept).Pairwise Before ∧ MakesRoom evicted kept ∧
    after.Perm kept

/-- Room is made in a cache whose books are right. -/
theorem Accounted.makeRoom (h : Accounted c) (t : FileTree) :
    InOrder (Cache.evict c.byAge c t).1 ∧ Replaces c.entries (Cache.evict c.byAge c t).1.entries := by
  obtain ⟨entries, hp, hsorted, hage⟩ := h.byAge
  obtain ⟨haccounted, evicted, kept, rfl, hmakes, hkept⟩ := h.evict t hp
  rw [hage]
  exact ⟨⟨haccounted, hmakes.within.perm hkept.symm⟩, evicted, kept, hp, hsorted, hmakes, hkept⟩

/-- A cache that is in order has room to count one more text. -/
theorem InOrder.withEntry (h : InOrder c) (htext : CacheEvent.IsCountable text) (t : FileTree) (path : String) :
    Accounted ((c.removeEntry t path).1.withEntry path key text digests) := by
  have hremoved := h.removeEntry t path
  have hroom := hremoved.within.room
  rw [← hremoved.accounted.total] at hroom
  refine hremoved.accounted.withEntry (fun entry hentry => (mem_entries_removeEntry hentry).2) ?_
  unfold CacheEvent.IsCountable at htext
  omega

theorem InOrder.put (h : InOrder c) (t : FileTree) (path key : String) (htext : CacheEvent.IsCountable text)
    (dependencies : List String) : InOrder (c.put t path key text dependencies).2.1 := by
  rcases put_cases c t path key text dependencies with ⟨e, hput⟩ | ⟨e, hput⟩ | ⟨digests, t', -, -, hput⟩
  · rw [hput]
    exact h
  · rw [hput]
    exact h.removeEntry t path
  · rw [hput, flush_cache]
    exact ((h.withEntry htext t path).makeRoom t').1

theorem InOrder.run (h : InOrder s.1) {event : CacheEvent} (hevent : event.Counts) : InOrder (event.run s).1 := by
  cases event with
  | flush =>
    unfold CacheEvent.run
    dsimp only
    rw [flush_cache]
    exact h
  | elsewhere files => exact h
  | operation op =>
    cases op with
    | put path key text dependencies => exact h.put s.2 path key hevent dependencies
    | get path key => exact h.get s.2 path key
    | invalidate path =>
      dsimp only [CacheEvent.run, CacheOperation.run]
      unfold Cache.invalidate
      dsimp only
      rw [flush_cache]
      exact h.removeEntry s.2 path
    | clear =>
      dsimp only [CacheEvent.run, CacheOperation.run]
      unfold Cache.clear
      dsimp only
      rw [flush_cache]
      exact inOrder_empty rfl rfl rfl

theorem InOrder.runAll (h : InOrder s.1) {events : List CacheEvent} (hevents : ∀ event ∈ events, event.Counts) :
    InOrder (CacheEvent.runAll s events).1 := by
  induction events generalizing s with
  | nil => exact h
  | cons event events ih =>
    have hfirst := h.run (hevents event List.mem_cons_self)
    exact ih hfirst fun event' he => hevents event' (List.mem_cons_of_mem _ he)

/-- The books of a cache that was empty once are right, whatever has happened to it and to files since: the total is
that of the entries, and every entry file has one entry at most. When code is stored, the cache is within its limits
afterwards, and as few entries as possible have made room, those that were not used for the longest time. -/
theorem accounted_runAll (hentries : s.1.entries = []) (hblanks : s.1.blanks = []) (htotal : s.1.totalSize = 0)
    {events : List CacheEvent} (hevents : ∀ event ∈ events, event.Counts) :
    let now := CacheEvent.runAll s events
    (now.1.totalSize = room now.1.entries ∧ 0 ≤ now.1.totalSize ∧ (now.1.entries.map (·.1)).Nodup ∧
      ∀ entry ∈ now.1.entries, entry.2.source = entry.1) ∧
    ∀ path key text dependencies, CacheEvent.IsCountable text →
      let stored := now.1.put now.2 path key text dependencies
      (stored.1 = .ok () → stored.2.1.count ≤ maxEntries ∧ stored.2.1.totalSize ≤ maxSize) ∧
      ((∃ e, stored = (.error e, now)) ∨ (∃ e, stored = (.error e, now.1.removeEntry now.2 path)) ∨
        ∃ digests, Replaces ((now.1.removeEntry now.2 path).1.withEntry path key text digests).entries
          stored.2.1.entries) := by
  intro now
  have hnow : InOrder now.1 := (inOrder_empty hentries hblanks htotal).runAll hevents
  have hbooks := hnow.accounted
  refine ⟨⟨hbooks.total, ?_, ?_, hbooks.source⟩, fun path key text dependencies htext => ⟨fun _ => ?_, ?_⟩⟩
  · rw [hbooks.total]
    exact room_nonneg hbooks.size
  · exact List.pairwise_map.mpr (hbooks.distinct.imp fun hab => hab.1)
  · have hstored := hnow.put now.2 path key htext dependencies
    have hfits := hstored.accounted.fits_iff.mpr hstored.within
    unfold fits at hfits
    simpa using hfits
  · rcases put_cases now.1 now.2 path key text dependencies with hput | hput | ⟨digests, t', -, -, hput⟩
    · exact .inl hput
    · exact .inr (.inl hput)
    · refine .inr (.inr ⟨digests, ?_⟩)
      rw [hput, flush_cache]
      exact ((hnow.withEntry htext now.2 path).makeRoom t').2

/-- Code is stored, looked for when its file is gone, and stored again. -/
def sampleCacheEvents : List CacheEvent :=
  [.operation (.put "/p" sharedKey "AB" []), .elsewhere sampleTree, .operation (.get "/p" sharedKey), .flush,
    .operation (.put "/p" sharedKey "ABC" [])]

theorem accounted_sampleCacheEvents :
    let now := CacheEvent.runAll (sampleCache, sampleTree) sampleCacheEvents
    now.1.totalSize = 3 ∧ room now.1.entries = 3 ∧
      (now.1.put now.2 "/p" sharedKey "D" []).1 = .ok () ∧
      (now.1.put now.2 "/p" sharedKey "D" []).2.1.totalSize ≤ maxSize := by
  intro now
  have hevents : ∀ event ∈ sampleCacheEvents, event.Counts := by
    intro event hevent
    simp only [sampleCacheEvents, List.mem_cons, List.not_mem_nil, or_false] at hevent
    rcases hevent with rfl | rfl | rfl | rfl | rfl
    · exact show CacheEvent.IsCountable "AB" by decide
    · trivial
    · trivial
    · trivial
    · exact show CacheEvent.IsCountable "ABC" by decide
  obtain ⟨⟨htotal, -⟩, hput⟩ := accounted_runAll (s := (sampleCache, sampleTree)) rfl rfl rfl hevents
  have hcomputed : now.1.totalSize = 3 ∧ (now.1.put now.2 "/p" sharedKey "D" []).1 = .ok () := by decide +kernel
  obtain ⟨hsize, hstored⟩ := hcomputed
  exact ⟨hsize, htotal ▸ hsize, hstored, ((hput "/p" sharedKey "D" [] (by decide)).1 hstored).2⟩

end Cache

end Frontend
