import Frontend.Extension.Basic
import Mathlib.Data.List.Forall2

/-!
# Extensions are released once

From its opening to its closing a library goes through one course of events, whatever goes wrong on the way: its own
loading, its table of functions, names that are taken, or the opening of a later library. A failed loading closes what
it opened, and closing a set again does nothing.
-/

namespace Frontend

variable {causes : List Refusal}

/-- What happens to a library that was opened. One that does not agree to be loaded is not unloaded. -/
def Library.course (l : Library) : List LibraryEvent :=
  if l.accepts then [.load, .functions, .unload, .close] else [.load, .close]

/-- What happens to the library of one opening. -/
def eventsOf (handle : Nat) (trace : LibraryTrace) : List LibraryEvent :=
  (trace.filter (·.1 == handle)).map (·.2)

/-- The openings whose libraries an event happens to, in the order in which it happens. -/
def handlesOf (event : LibraryEvent) (trace : LibraryTrace) : List Nat :=
  (trace.filter (·.2 == event)).map (·.1)

namespace ExtensionSet

/-- What happens to libraries while a set is closed a number of times. -/
def closings : Nat → ExtensionSet → LibraryTrace
  | 0, _ => []
  | n + 1, s => s.close.2.2 ++ closings n s.close.1

/-- What happens to libraries in all, when a set that could be loaded is closed a number of times. -/
def traceOf (times : Nat) : Except (List Refusal) ExtensionSet × LibraryTrace → LibraryTrace
  | (.error _, trace) => trace
  | (.ok s, trace) => trace ++ closings times s

/-- The libraries that are opened for a list of paths. They are those of the first paths; the next path cannot be
opened, or what the openings of other paths would give makes no difference. -/
structure Opened (opening : String → Except String Library) (base : Registry) (paths : List String)
    (libraries : List Library) : Prop where
  each : List.Forall₂ (fun path l => opening path = .ok l) (paths.take libraries.length) libraries
  last : (∃ path cause, paths[libraries.length]? = some path ∧ opening path = .error cause) ∨
    ∀ opening', (∀ path ∈ paths.take libraries.length, opening' path = opening path) →
      load opening' base paths = load opening base paths

/-! ## Closing -/

/-- The first libraries are unloaded and closed, the last one first. -/
def ending : Nat → LibraryTrace
  | 0 => []
  | n + 1 => (n, .unload) :: (n, .close) :: ending n

/-- A set whose extensions are numbered in the order of their loading and are all open. -/
structure Running (s : ExtensionSet) : Prop where
  handles : s.extensions.map (·.handle) = List.range s.extensions.length
  isOpen : ∀ e ∈ s.extensions, e.isOpen = true

variable {s s' : ExtensionSet} {e : Extension} {n : Nat}

theorem running_empty (base : Registry) : Running { registry := base } := ⟨rfl, fun _ h => absurd h List.not_mem_nil⟩

theorem Running.append (h : Running s) (hhandle : e.handle = s.extensions.length) (hopen : e.isOpen = true)
    (registry : Registry) : Running { extensions := s.extensions ++ [e], registry } := by
  refine ⟨?_, fun e' he' => ?_⟩
  · rw [List.map_append, h.handles, List.length_append, List.map_singleton, hhandle, List.length_singleton,
      List.range_succ]
  · rcases List.mem_append.mp he' with he' | he'
    · exact h.isOpen e' he'
    · rw [List.mem_singleton.mp he']
      exact hopen

theorem closeAll_trace {es : List Extension} (h : ∀ e ∈ es, e.isOpen = true) :
    (closeAll es).2 = (es.map (·.handle)).flatMap fun handle => [(handle, .unload), (handle, .close)] := by
  induction es with
  | nil => rfl
  | cons e es ih =>
    have hopen := h e List.mem_cons_self
    have hrest := ih fun e' he' => h e' (List.mem_cons_of_mem _ he')
    unfold closeAll Extension.close
    rw [if_pos hopen]
    dsimp only
    rw [hrest, List.map_cons, List.flatMap_cons]

theorem ending_eq (n : Nat) :
    ending n = (List.range n).reverse.flatMap fun handle => [(handle, LibraryEvent.unload), (handle, .close)] := by
  induction n with
  | zero => rfl
  | succ n ih =>
    rw [List.range_succ, List.reverse_concat, List.flatMap_cons, ← ih]
    rfl

theorem Running.close (h : Running s) : s.close.2.2 = ending s.extensions.length := by
  have hopen : ∀ e ∈ s.extensions.reverse, e.isOpen = true := fun e he => h.isOpen e (List.mem_reverse.mp he)
  have htrace := closeAll_trace hopen
  rw [List.map_reverse, h.handles, ← ending_eq] at htrace
  exact htrace

/-- Closing a set again does nothing. -/
theorem closings_succ (times : Nat) (s : ExtensionSet) : closings (times + 1) s = s.close.2.2 := by
  have hnone : ∀ (times : Nat) (s : ExtensionSet), s.extensions = [] → closings times s = [] := by
    intro times
    induction times with
    | zero => exact fun _ _ => rfl
    | succ times ih =>
      intro s hs
      unfold closings
      rw [ih _ rfl, List.append_nil]
      unfold ExtensionSet.close
      rw [hs]
      rfl
  unfold closings
  rw [hnone times s.close.1 rfl, List.append_nil]

/-! ## Loading -/

/-- What happens from the loading of a library on, when some libraries are in use: a number of libraries is put to
use, then there may be one that cannot be used, and then all are released. -/
inductive Course : Nat → List Library → LibraryTrace → Prop
  | released (n : Nat) : Course n [] (ending n)
  | unfit (n : Nat) (l : Library) : Course n [l] (l.course.map ((n, ·)) ++ ending n)
  | used {n : Nat} {l : Library} {libraries : List Library} {trace : LibraryTrace} :
    l.accepts = true → Course (n + 1) libraries trace →
    Course n (l :: libraries) ((n, .load) :: (n, .functions) :: trace)

variable {l : Library} {libraries : List Library} {trace : LibraryTrace}

theorem eventsOf_append (handle : Nat) (trace trace' : LibraryTrace) :
    eventsOf handle (trace ++ trace') = eventsOf handle trace ++ eventsOf handle trace' := by
  unfold eventsOf
  rw [List.filter_append, List.map_append]

theorem handlesOf_append (event : LibraryEvent) (trace trace' : LibraryTrace) :
    handlesOf event (trace ++ trace') = handlesOf event trace ++ handlesOf event trace' := by
  unfold handlesOf
  rw [List.filter_append, List.map_append]

theorem eventsOf_self (n : Nat) (events : List LibraryEvent) : eventsOf n (events.map ((n, ·))) = events := by
  unfold eventsOf
  induction events with
  | nil => rfl
  | cons event events ih =>
    rw [List.map_cons, List.filter_cons_of_pos (by simp), List.map_cons, ih]

theorem eventsOf_of_ne {handle : Nat} (h : n ≠ handle) (events : List LibraryEvent) :
    eventsOf handle (events.map ((n, ·))) = [] := by
  unfold eventsOf
  induction events with
  | nil => rfl
  | cons event events ih => rw [List.map_cons, List.filter_cons_of_neg (by simpa using h), ih]

theorem eventsOf_ending (handle n : Nat) : eventsOf handle (ending n) = if handle < n then [.unload, .close] else [] := by
  induction n with
  | zero => rfl
  | succ n ih =>
    have hsplit : ending (n + 1) = [LibraryEvent.unload, .close].map ((n, ·)) ++ ending n := rfl
    rw [hsplit, eventsOf_append, ih]
    rcases Nat.lt_trichotomy handle n with hlt | rfl | hgt
    · rw [eventsOf_of_ne (Nat.ne_of_gt hlt), if_pos hlt, if_pos (Nat.lt_succ_of_lt hlt)]
      rfl
    · rw [eventsOf_self, if_neg (Nat.lt_irrefl _), if_pos (Nat.lt_succ_self _)]
      rfl
    · rw [eventsOf_of_ne (Nat.ne_of_lt hgt), if_neg (Nat.lt_asymm hgt), if_neg (by omega)]
      rfl

/-- Libraries in use are released, and all others go through their whole course. -/
theorem Course.eventsOf (h : Course n libraries trace) (handle : Nat) : Frontend.eventsOf handle trace =
    if handle < n then [.unload, .close] else (libraries[handle - n]?).elim [] Library.course := by
  induction h with
  | released n =>
    rw [eventsOf_ending]
    rfl
  | unfit n l =>
    rw [eventsOf_append, eventsOf_ending]
    rcases Nat.lt_trichotomy handle n with hlt | rfl | hgt
    · rw [eventsOf_of_ne (Nat.ne_of_gt hlt), if_pos hlt, if_pos hlt, List.nil_append]
    · rw [eventsOf_self, if_neg (Nat.lt_irrefl _), if_neg (Nat.lt_irrefl _), List.append_nil, Nat.sub_self]
      rfl
    · rw [eventsOf_of_ne (Nat.ne_of_lt hgt), if_neg (Nat.lt_asymm hgt), if_neg (Nat.lt_asymm hgt),
        List.getElem?_eq_none (by simp only [List.length_singleton]; omega)]
      rfl
  | @used n l libraries trace haccepts _ ih =>
    have hsplit : (n, LibraryEvent.load) :: (n, .functions) :: trace =
        [LibraryEvent.load, .functions].map ((n, ·)) ++ trace := rfl
    rw [hsplit, eventsOf_append, ih]
    rcases Nat.lt_trichotomy handle n with hlt | rfl | hgt
    · rw [eventsOf_of_ne (Nat.ne_of_gt hlt), if_pos hlt, if_pos (Nat.lt_succ_of_lt hlt), List.nil_append]
    · rw [eventsOf_self, if_neg (Nat.lt_irrefl _), if_pos (Nat.lt_succ_self _), Nat.sub_self, List.getElem?_cons_zero,
        Option.elim_some, Library.course, if_pos haccepts]
      rfl
    · rw [eventsOf_of_ne (Nat.ne_of_lt hgt), if_neg (Nat.lt_asymm hgt), if_neg (by omega), List.nil_append,
        show handle - n = handle - (n + 1) + 1 by omega, List.getElem?_cons_succ]

theorem handlesOf_ending {event : LibraryEvent} (h : event = .unload ∨ event = .close) (n : Nat) :
    handlesOf event (ending n) = (List.range n).reverse := by
  induction n with
  | zero => rfl
  | succ n ih =>
    have hsplit : ending (n + 1) = [(n, LibraryEvent.unload), (n, .close)] ++ ending n := rfl
    rw [hsplit, handlesOf_append, ih, List.range_succ, List.reverse_concat]
    rcases h with rfl | rfl <;> rfl

/-- Libraries are closed in the reverse order of their opening. -/
theorem Course.closes (h : Course n libraries trace) :
    handlesOf .close trace = (List.range (n + libraries.length)).reverse := by
  induction h with
  | released n => exact handlesOf_ending (.inr rfl) n
  | unfit n l =>
    have hown : handlesOf .close (l.course.map ((n, ·))) = [n] := by
      unfold Library.course
      split <;> rfl
    rw [handlesOf_append, handlesOf_ending (.inr rfl), hown, List.length_singleton, List.range_succ, List.reverse_concat]
    rfl
  | @used n l libraries trace haccepts _ ih =>
    rw [List.length_cons, show n + (libraries.length + 1) = n + 1 + libraries.length by omega, ← ih]
    rfl

/-- Libraries that agreed to be loaded are unloaded in the reverse order of their loading. -/
theorem Course.unloads (h : Course n libraries trace) : handlesOf .unload trace =
    (((libraries.zipIdx n).filter (·.1.accepts)).map (·.2)).reverse ++ (List.range n).reverse := by
  induction h with
  | released n => exact handlesOf_ending (.inl rfl) n
  | unfit n l =>
    rw [handlesOf_append, handlesOf_ending (.inl rfl), List.zipIdx_singleton]
    unfold Library.course
    cases haccepts : l.accepts with
    | true => simp [haccepts, handlesOf]
    | false => simp [haccepts, handlesOf]
  | @used n l libraries trace haccepts _ ih =>
    rw [List.zipIdx_cons, List.filter_cons_of_pos (by exact haccepts), List.map_cons, List.reverse_cons,
      List.append_assoc, List.singleton_append, ← List.reverse_concat, ← List.range_succ, ← ih]
    rfl

/-! ## Registries -/

/-- Registering functions takes no name away and changes none. -/
theorem entries_register (e : Extension) (r : Registry) : r.entries <+: (e.register r).2.entries := by
  unfold Extension.register
  refine List.foldlRecOn (motive := fun found : List Refusal × Registry => r.entries <+: found.2.entries) _ _
    (List.prefix_refl _) ?_
  rintro ⟨faults, r'⟩ hr' entry -
  dsimp only
  cases hentry : r'.register entry with
  | error cause => exact hr'
  | ok r'' =>
    refine hr'.trans ?_
    unfold Registry.register at hentry
    split at hentry
    · cases hentry
    · split at hentry
      · cases hentry
      · cases hentry
        exact List.prefix_append _ _

theorem find?_of_entries {r r' : Registry} (h : r.entries <+: r'.entries) {name : String} {b : Builtin}
    (hb : r.find? name = some b) : r'.find? name = some b := by
  obtain ⟨more, hmore⟩ := h
  unfold Registry.find? at hb ⊢
  rw [← hmore, List.find?_append, hb]
  rfl

/-! ## Runs -/

theorem attach_eq_error {path : String} (h : Extension.attach n path l = (.error causes, trace)) :
    trace = l.course.map ((n, ·)) := by
  unfold Extension.attach at h
  unfold Library.course
  cases haccepts : l.accepts with
  | false =>
    rw [haccepts] at h
    exact (congrArg Prod.snd h).symm
  | true =>
    rw [haccepts] at h
    cases htable : ExportedFunction.builtins 0 [] l.functions with
    | error f =>
      rw [htable] at h
      exact (congrArg Prod.snd h).symm
    | ok entries =>
      rw [htable] at h
      cases h

theorem attach_eq_ok {path : String} (h : Extension.attach n path l = (.ok e, trace)) :
    trace = [(n, .load), (n, .functions)] ∧ l.accepts = true ∧ e.handle = n ∧ e.isOpen = true := by
  unfold Extension.attach at h
  cases haccepts : l.accepts with
  | false =>
    rw [haccepts] at h
    cases h
  | true =>
    rw [haccepts] at h
    cases htable : ExportedFunction.builtins 0 [] l.functions with
    | error f =>
      rw [htable] at h
      cases h
    | ok entries =>
      rw [htable] at h
      cases h
      exact ⟨rfl, rfl, rfl, rfl⟩

section Loading

variable {opening : String → Except String Library} {path : String} {paths : List String}

def adding (s : ExtensionSet) (e : Extension) : ExtensionSet where
  extensions := s.extensions ++ [e]
  registry := (e.register s.registry).2

theorem loadMore_unopened {cause : String} (h : opening path = .error cause) :
    loadMore opening n s (path :: paths) = (.error
      (.diagnostic ((LibraryFault.notOpened cause).diagnostic path) :: s.close.2.1), s.close.2.2) := by
  unfold loadMore
  rw [h]
  rfl

theorem loadMore_unfit (h : opening path = .ok l) (hattach : Extension.attach n path l = (.error causes, trace)) :
    loadMore opening n s (path :: paths) = (.error (causes ++ s.close.2.1), trace ++ s.close.2.2) := by
  unfold loadMore
  rw [h]
  dsimp only
  rw [hattach]

section
variable (h : opening path = .ok l) (hattach : Extension.attach n path l = (.ok e, trace))
include h hattach

theorem loadMore_clash (hfaults : (e.register s.registry).1 ≠ []) : loadMore opening n s (path :: paths) =
      (.error ((e.register s.registry).1 ++ (s.adding e).close.2.1), trace ++ (s.adding e).close.2.2) := by
  have hsome : (!(e.register s.registry).1.isEmpty) = true := by simpa using hfaults
  unfold loadMore
  rw [h]
  dsimp only
  rw [hattach]
  dsimp only
  rw [if_pos hsome]
  rfl

theorem loadMore_used (hfaults : (e.register s.registry).1 = []) : loadMore opening n s (path :: paths) =
      ((loadMore opening (n + 1) (s.adding e) paths).1, trace ++ (loadMore opening (n + 1) (s.adding e) paths).2) := by
  have hnone : ¬(!(e.register s.registry).1.isEmpty) = true := by simpa using hfaults
  rw [loadMore, h]
  dsimp only
  rw [hattach]
  dsimp only
  rw [if_neg hnone]
  rfl

end

/-- What happens to libraries until a set that could be loaded is closed. -/
def released : Except (List Refusal) ExtensionSet × LibraryTrace → LibraryTrace
  | (.error _, trace) => trace
  | (.ok s, trace) => trace ++ s.close.2.2

theorem released_append (trace : LibraryTrace) (r : Except (List Refusal) ExtensionSet × LibraryTrace) :
    released (r.1, trace ++ r.2) = trace ++ released r := by
  obtain ⟨result, later⟩ := r
  cases result with
  | error causes => rfl
  | ok s => exact List.append_assoc _ _ _

/-- From any set on, loading opens some of the libraries, and then they and those of the set are released. -/
theorem loadMore_course (opening : String → Except String Library) (hs : Running s) (paths : List String) :
    ∃ libraries, List.Forall₂ (fun path l => opening path = .ok l) (paths.take libraries.length) libraries ∧
      ((∃ path cause, paths[libraries.length]? = some path ∧ opening path = .error cause) ∨
        ∀ opening', (∀ path ∈ paths.take libraries.length, opening' path = opening path) →
          loadMore opening' s.extensions.length s paths = loadMore opening s.extensions.length s paths) ∧
      Course s.extensions.length libraries (released (loadMore opening s.extensions.length s paths)) ∧
      ∀ s', (loadMore opening s.extensions.length s paths).1 = .ok s' →
        libraries.length = paths.length ∧ s.registry.entries <+: s'.registry.entries := by
  induction paths generalizing s with
  | nil =>
    refine ⟨[], .nil, .inr fun _ _ => rfl, ?_, fun s' h => ?_⟩
    · change Course _ [] ([] ++ s.close.2.2)
      rw [hs.close]
      exact .released _
    · obtain rfl := Except.ok.inj h
      exact ⟨rfl, List.prefix_refl _⟩
  | cons path paths ih =>
    cases hopening : opening path with
    | error cause =>
      rw [loadMore_unopened hopening]
      refine ⟨[], .nil, .inl ⟨path, cause, rfl, hopening⟩, ?_, fun s' h => by cases h⟩
      rw [released, hs.close]
      exact .released _
    | ok l =>
      have hfirst : ∀ {opening' : String → Except String Library} {k : Nat},
          (∀ p ∈ (path :: paths).take (k + 1), opening' p = opening p) → opening' path = .ok l :=
        fun h => (h path List.mem_cons_self).trans hopening
      have hhead : List.Forall₂ (fun path l => opening path = .ok l) [path] [l] := .cons hopening .nil
      cases hattach : Extension.attach s.extensions.length path l with
      | mk result trace =>
        cases result with
        | error causes =>
          rw [loadMore_unfit hopening hattach]
          refine ⟨[l], hhead, .inr fun opening' h => loadMore_unfit (hfirst h) hattach, ?_, fun s' h => by cases h⟩
          rw [released, attach_eq_error hattach, hs.close]
          exact .unfit _ l
        | ok e =>
          obtain ⟨htrace, haccepts, hhandle, hopen⟩ := attach_eq_ok hattach
          have hs' : Running (s.adding e) := hs.append hhandle hopen _
          have hlength : (s.adding e).extensions.length = s.extensions.length + 1 := List.length_append
          by_cases hfaults : (e.register s.registry).1 = []
          · obtain ⟨libraries, hopened, hlast, hcourse, hok⟩ := ih hs'
            rw [hlength] at hlast hcourse hok
            rw [loadMore_used hopening hattach hfaults, released_append, htrace]
            refine ⟨l :: libraries, .cons hopening hopened, hlast.imp id fun hrest opening' h => ?_,
              .used haccepts hcourse, fun s' h => ?_⟩
            · rw [loadMore_used (hfirst h) hattach hfaults, htrace,
                hrest opening' fun p hp => h p (List.mem_cons_of_mem _ hp)]
            · obtain ⟨hall, hentries⟩ := hok s' h
              exact ⟨congrArg (· + 1) hall, (entries_register e s.registry).trans hentries⟩
          · rw [loadMore_clash hopening hattach hfaults]
            refine ⟨[l], hhead, .inr fun opening' h => loadMore_clash (hfirst h) hattach hfaults, ?_,
              fun s' h => by cases h⟩
            rw [released, htrace, hs'.close, hlength]
            exact .used haccepts (.released _)

end Loading

/-- However loading ends, and however often a set that was loaded is closed, every library that was opened has gone
through its course once: it was closed once, and unloaded once before that if and only if it had agreed to be loaded.
Libraries are released in the reverse order of their loading. A set that was loaded knows all functions of the
registry it was loaded on as that registry does. -/
theorem released_once (opening : String → Except String Library) (base : Registry) (paths : List String) :
    ∃ libraries, Opened opening base paths libraries ∧
      (∀ times, let trace := traceOf (times + 1) (load opening base paths)
        (∀ handle, eventsOf handle trace = (libraries[handle]?).elim [] Library.course) ∧
        handlesOf .close trace = (List.range libraries.length).reverse ∧
        handlesOf .unload trace = ((libraries.zipIdx.filter (·.1.accepts)).map (·.2)).reverse) ∧
      ∀ s, (load opening base paths).1 = .ok s → libraries.length = paths.length ∧
        ∀ name b, base.find? name = some b → s.registry.find? name = some b := by
  obtain ⟨libraries, heach, hlast, hcourse, hok⟩ := loadMore_course opening (running_empty base) paths
  have htrace : ∀ times, traceOf (times + 1) (load opening base paths) = released (load opening base paths) := by
    intro times
    cases hload : load opening base paths with
    | mk result trace =>
      cases result with
      | error causes => rfl
      | ok s => rw [traceOf, released, closings_succ]
  refine ⟨libraries, ⟨heach, hlast⟩, fun times => ?_, fun s hs => ?_⟩
  · have hstart : Course 0 libraries (released (load opening base paths)) := hcourse
    rw [htrace]
    refine ⟨fun handle => ?_, ?_, ?_⟩
    · rw [hstart.eventsOf, if_neg (Nat.not_lt_zero _), Nat.sub_zero]
    · rw [hstart.closes, Nat.zero_add]
    · rw [hstart.unloads, List.range_zero, List.reverse_nil, List.append_nil]
  · obtain ⟨hall, hentries⟩ := hok s hs
    exact ⟨hall, fun name b => find?_of_entries hentries⟩

end ExtensionSet

end Frontend
