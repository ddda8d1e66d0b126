import Frontend.Proofs.Course.Visit

/-!
# Places that are left

Lowering goes into functions, classes, blocks, loops and files, and every way out of them, also that of a
failure, leads back to the places around. The registry of classes goes along with the scopes: it knows the
classes of the open scopes and no others.
-/

namespace Frontend

open Course SymbolTable

variable {rid key : String} {files : FileTree} {annotate : Bool}

namespace SymbolTable

/-- The registry knows the classes of the open scopes and no others; their raw ids were given out. -/
structure Registered (n : Nat) (t : SymbolTable) : Prop where
  keys : ∀ rid, rid ∈ t.types.map Prod.fst ↔ rid ∈ t.registered
  classes : ∀ e ∈ t.types, (t.get e.2).class?.isSome = true ∧ (t.get e.2).rid = e.1
  nodup : t.registered.Nodup
  numbered : ∀ rid ∈ t.registered, ∃ k < n, Word.IsNumbered rid k

variable {n n' : Nat} {t t' : SymbolTable} {id : SymbolId}

theorem Registered.mono (h : Registered n t) (hn : n ≤ n') : Registered n' t :=
  ⟨h.keys, h.classes, h.nodup, fun rid hrid => by
    obtain ⟨k, hk, hw⟩ := h.numbered rid hrid
    exact ⟨k, hk.trans_le hn, hw⟩⟩

/-- A class stays one, with its raw id. -/
theorem isClass_later (hl : Later t t') (h : (t.get id).class?.isSome = true ∧ (t.get id).rid = rid) :
    (t'.get id).class?.isSome = true ∧ (t'.get id).rid = rid := by
  obtain ⟨c, hc⟩ := Option.isSome_iff_exists.mp h.1
  have hcore := hl.core id (lt_size_of_class? hc)
  exact ⟨(Symbol.isSome_class?_of_core hcore).trans h.1, (Symbol.rid_of_core hcore).trans h.2⟩

/-- The same classes are registered in the same scopes. -/
theorem Registered.samePlaces (h : Registered n t) (hs : SamePlaces t t') (hl : Later t t') : Registered n t' := by
  have hreg : t'.registered = t.registered := by
    rw [registered, registered, List.flatMap_def, List.flatMap_def, hs.types]
  exact ⟨fun rid => by rw [hs.registry, hreg, h.keys],
    fun e he => isClass_later hl (h.classes e (hs.registry ▸ he)), hreg ▸ h.nodup, hreg ▸ h.numbered⟩

theorem Registered.enter (h : Registered n t) (kind : ScopeKind) : Registered n (t.enter kind) :=
  ⟨h.keys, h.classes, h.nodup, h.numbered⟩

/-- The classes of the innermost scope stand first. -/
theorem registered_eq (t : SymbolTable) : t.registered = t.top.types ++ (t.scopes.map (·.types)).tail.flatten := by
  rw [registered, List.flatMap_def]
  unfold SymbolTable.top SymbolTable.scopes
  cases t.inner <;> rfl

theorem mem_keys_putEntry {α : Type} {value : α} {entries : List (String × α)} :
    rid ∈ (putEntry key value entries).map Prod.fst ↔ rid = key ∨ rid ∈ entries.map Prod.fst := by
  constructor
  · intro h
    obtain ⟨e, he, rfl⟩ := List.mem_map.mp h
    rcases mem_putEntry he with rfl | he
    · exact .inl rfl
    · exact .inr (List.mem_map_of_mem he)
  · rintro (rfl | h)
    · exact key_mem_putEntry _ _ _
    · exact keys_subset_putEntry _ _ _ h

/-- A class with a new raw id is registered. -/
theorem Registered.registerType (h : Registered n t) (hcls : (t.get id).class?.isSome = true)
    (hrid : Word.IsNumbered (t.get id).rid n) : Registered (n + 1) (t.registerType id) := by
  obtain ⟨-, -, hsymbols, houter, htop⟩ := scopes_registerType t id
  have hreg : (t.registerType id).registered.Perm ((t.get id).rid :: t.registered) := by
    rw [registered_eq, registered_eq, houter, htop, List.append_assoc]
    exact List.perm_middle
  have hnew : (t.get id).rid ∉ t.registered := by
    intro hold
    obtain ⟨k, hk, hw⟩ := h.numbered _ hold
    exact absurd (hw.unique hrid) hk.ne
  refine ⟨fun rid => ?_, fun e he => ?_, ?_, fun rid hmem => ?_⟩
  · rw [hreg.mem_iff, List.mem_cons, ← h.keys]
    exact mem_keys_putEntry
  · rw [get_of_symbols hsymbols]
    rcases mem_putEntry he with rfl | he
    · exact ⟨hcls, rfl⟩
    · exact h.classes e he
  · exact hreg.nodup_iff.mpr (List.nodup_cons.mpr ⟨hnew, h.nodup⟩)
  · rcases List.mem_cons.mp (hreg.mem_iff.mp hmem) with rfl | hold
    · exact ⟨n, Nat.lt_succ_self n, hrid⟩
    · obtain ⟨k, hk, hw⟩ := h.numbered rid hold
      exact ⟨k, Nat.lt_succ_of_lt hk, hw⟩

/-- The classes of a scope that is left are forgotten. -/
theorem Registered.exit (h : Registered n t) : Registered n t.exit := by
  unfold SymbolTable.exit
  cases hinner : t.inner with
  | nil => exact h
  | cons scope rest =>
    have hold : t.registered = scope.types ++ (rest ++ [t.global]).flatMap (·.types) := by
      rw [registered, SymbolTable.scopes, hinner, List.cons_append, List.flatMap_cons]
    have hnodup := hold ▸ h.nodup
    refine ⟨fun rid => ?_, fun e he => h.classes e (List.mem_of_mem_filter he), (List.nodup_append.mp hnodup).2.1,
      fun rid hmem => h.numbered rid (hold ▸ List.mem_append_right _ hmem)⟩
    change rid ∈ (t.types.filter fun entry => !scope.types.contains entry.1).map Prod.fst ↔
      rid ∈ (rest ++ [t.global]).flatMap (·.types)
    have hfilter : (t.types.filter fun entry => !scope.types.contains entry.1).map Prod.fst =
        (t.types.map Prod.fst).filter fun rid => !scope.types.contains rid := by
      rw [List.filter_map]
      rfl
    rw [hfilter, List.mem_filter, h.keys, hold, List.mem_append, Bool.not_eq_true', List.contains_eq_mem,
      decide_eq_false_iff_not]
    constructor
    · rintro ⟨hmem | hmem, hnot⟩
      · exact absurd hmem hnot
      · exact hmem
    · exact fun hmem => ⟨.inr hmem, fun hin => (List.nodup_append.mp hnodup).2.2 rid hin rid hmem rfl⟩

theorem Registered.leaveTo (h : Registered n t) (level : Nat) : Registered n (t.leaveTo level) := by
  have many : ∀ (m : Nat) (t : SymbolTable), Registered n t → Registered n (exitMany m t) := by
    intro m
    induction m with
    | zero => exact fun _ h => h
    | succ m ih => exact fun t h => ih _ h.exit
  exact many _ t h

end SymbolTable

variable {home : Option Home} {k : Bool} {ws ws' : List String} {s s' : Lowering}

/-- Whatever a course does, the registry goes along with the scopes. -/
theorem Course.registered (h : Course home k ws s ws' s') (hr : Registered s.supply.rids s.table) :
    Registered s'.supply.rids s'.table := by
  have added : ∀ (s : Lowering) (sym : Symbol), Registered s.supply.rids s.table →
      Registered s.supply.rids (s.table.add sym).2 := fun s sym h =>
    h.samePlaces (.of_eq rfl rfl rfl) (later_add s.table sym)
  induction h with
  | refl => exact hr
  | trans _ _ ih₁ ih₂ => exact ih₂ (ih₁ hr)
  | stop _ ih => exact ih hr
  | after _ aside ih =>
    rw [aside.supply, aside.table]
    exact ih hr
  | forget => exact hr
  | push => exact hr
  | note => exact hr
  | temps => exact hr
  | label => exact hr
  | number => exact hr.mono (Nat.le_succ _)
  | change h => exact hr.samePlaces h.samePlaces h.later
  | fresh sym => exact (added _ sym hr).mono (Nat.le_succ _)
  | define sym hrid hsym howner hlevel ht =>
    exact ((added _ sym hr).samePlaces (samePlaces_insertAt hlevel ht) (later_insertAt ht)).mono (Nat.le_succ _)
  | @newClass _ _ s _ base c t sym hrid hsym hnew ht hws =>
    have hget : t.get (s.table.add sym).1 = { sym with level := (s.table.add sym).2.level } := by
      rw [get_of_symbols (symbols_insertAt ht), get_modify, if_pos]
      · rw [get_add_new]
      · exact ⟨rfl, by rw [size_add]; exact Nat.lt_succ_self _⟩
    refine ((added s sym hr).samePlaces (samePlaces_insertAt (.inl rfl) ht) (later_insertAt ht)).registerType ?_ ?_
    · rw [hget, Symbol.class?, hsym]
      rfl
    · rw [hget, hrid]
      exact Word.isNumbered_numbered base _
  | stray sym => exact (added _ sym hr).mono (Nat.le_succ _)
  | write => exact hr
  | bring => exact hr
  | generated => exact hr
  | initial _ _ _ _ _ _ ih => exact ih hr
  | loop _ ih => exact ih hr
  | endless _ ih => exact ih hr
  | scope kind _ ih => exact (ih (hr.enter kind)).leaveTo _
  | inside _ _ ih => exact ih hr
  | function _ _ _ _ _ _ _ ih₁ ih₂ => exact (ih₂ (ih₁ (hr.enter _))).leaveTo _
  | headless _ _ ih => exact (ih (hr.enter _)).leaveTo _
  | broken _ _ _ _ ih₁ ih₂ => exact (ih₂ (ih₁ (hr.enter _))).leaveTo _
  | file _ _ ih => exact ih hr

/-! ## Sessions and nodes -/

namespace SymbolTable

variable {n : Nat} {t : SymbolTable}

theorem isSome_lookup {β : Type} {entries : List (String × β)} :
    (entries.lookup key).isSome = true ↔ key ∈ entries.map Prod.fst := by
  constructor
  · intro h
    obtain ⟨value, hvalue⟩ := Option.isSome_iff_exists.mp h
    exact List.mem_map_of_mem (mem_of_lookup hvalue)
  · intro h
    rw [← Option.not_isNone, Bool.not_eq_true', ← Bool.not_eq_true, Option.isNone_iff_eq_none, List.lookup_eq_none_iff]
    intro hnone
    obtain ⟨e, he, rfl⟩ := List.mem_map.mp h
    have := hnone e he
    simp at this

/-- A class can be found by its raw id as long as the scope is open in which it was registered. -/
theorem Registered.isSome_type? (h : Registered n t) (rid : String) :
    (t.type? rid).isSome = true ↔ ∃ scope ∈ t.scopes, rid ∈ scope.types := by
  rw [type?, isSome_lookup, h.keys, registered, List.mem_flatMap]

theorem Registered.of_type? (h : Registered n t) {id : SymbolId} (hid : t.type? rid = some id) :
    (t.get id).class?.isSome = true ∧ (t.get id).rid = rid := h.classes (rid, id) (mem_of_lookup hid)

end SymbolTable

/-- The state between two units, after a session in which some files were being compiled and some classes were
registered. -/
structure Lowering.AtRest (before : Session) (s : Lowering) : Prop where
  level : s.table.level = 0
  kind : s.table.kind = .global
  scopes : s.scopes = s.table.scopes.map (·.kind)
  processing : s.processing = []
  depth : s.out.depth = 0
  stack : s.session.imports.stack = before.imports.stack
  registry : ∀ rid, (s.table.type? rid).isSome = true ↔ rid ∈ s.table.global.types
  classes : ∀ rid id, s.table.type? rid = some id → (s.table.get id).class?.isSome = true ∧ (s.table.get id).rid = rid
  more : before.symbols.global.types <+: s.table.global.types

/-- The state behind something is as deep in all places as the state before it. Classes may be new in the
innermost scope. -/
structure Lowering.Restored (s s' : Lowering) : Prop where
  kinds : s'.table.scopes.map (·.kind) = s.table.scopes.map (·.kind)
  scopes : s'.scopes = s.scopes
  processing : s'.processing = s.processing
  depth : s'.out.depth = s.out.depth
  stack : s'.session.imports.stack = s.session.imports.stack
  registry : ∀ rid, (s'.table.type? rid).isSome = true ↔ ∃ scope ∈ s'.table.scopes, rid ∈ scope.types
  outer : (s'.table.scopes.map (·.types)).tail = (s.table.scopes.map (·.types)).tail
  inner : s.table.top.types <+: s'.table.top.types

/-- A state in the middle of lowering. -/
structure Lowering.Midway (s : Lowering) : Prop where
  sober : s.session.builtins.Sober
  order : InOrder s.supply.rids s.table
  operands : ∀ o ∈ s.operands, Word.Below s.supply.rids o.raw
  processing : ∀ id ∈ s.processing, id < s.table.symbols.size
  registered : Registered s.supply.rids s.table

theorem Lowering.Midway.good (h : s.Midway) : Good (s.innermost.map fun id => ⟨id, []⟩) s :=
  ⟨h.sober, h.order, h.operands, h.processing, by rw [Option.map_map]; exact congrFun Option.map_id _⟩

namespace Session

variable {options : CompileOptions} {session : Session}

theorem registered_begin (h : Registered session.supply.rids session.symbols) :
    Registered (session.begin files annotate).supply.rids (session.begin files annotate).table :=
  h.samePlaces (samePlaces_enterBuiltins session) (later_enterBuiltins session)

/-- The registry of a session knows the classes of the global scope. -/
theorem Reached.registered (h : Reached options session) (hoptions : options.builtins.Sober) :
    Registered session.supply.rids session.symbols ∧ session.symbols.global.kind = .global := by
  induction h with
  | new =>
    refine ⟨⟨fun rid => ?_, fun e he => absurd he List.not_mem_nil, List.nodup_nil, fun rid h => absurd h List.not_mem_nil⟩, rfl⟩
    exact ⟨fun h => absurd h List.not_mem_nil, fun h => absurd h List.not_mem_nil⟩
  | grant h r ih => exact ⟨ih.1.mono (Supply.before_grant _ r).rids, ih.2⟩
  | @compile s h files annotate p src ih =>
    obtain ⟨k, ws, hcourse⟩ := exists_course (h.settled hoptions) files annotate p src
    refine ⟨hcourse.registered (registered_begin ih.1), ?_⟩
    exact hcourse.steps.outermost.trans ((samePlaces_enterBuiltins s).outermost.trans ih.2)

theorem midway_begin (hs : session.Settled) (hr : Registered session.supply.rids session.symbols) (files : FileTree)
    (annotate : Bool) : (session.begin files annotate).Midway where
  sober := hs.sober
  order := order_enterBuiltins hs
  operands := (good_begin hs files annotate).operands
  processing := (good_begin hs files annotate).processing
  registered := registered_begin hr

end Session

/-- Steps that put everything back. -/
theorem Lowering.restored_of_steps (hs : Steps s s') (hr : Registered s'.supply.rids s'.table) : s.Restored s' where
  kinds := by
    rw [SymbolTable.scopes, SymbolTable.scopes, List.map_append, List.map_append, hs.places.kinds, List.map_singleton,
      List.map_singleton, hs.outermost]
  scopes := hs.scopes
  processing := hs.processing
  depth := hs.depth
  stack := hs.stack
  registry := hr.isSome_type?
  outer := hs.outer
  inner := hs.top

/-- Steps of a unit lead back to rest. -/
theorem Lowering.atRest_of_steps {session : Session} (hlevel : session.symbols.inner = [])
    (hkind : session.symbols.global.kind = .global) (hs : Steps (session.begin files annotate) s)
    (hr : Registered s.supply.rids s.table) : s.AtRest session := by
  have hplaces := Session.samePlaces_enterBuiltins session
  have hbegin : (session.begin files annotate).table.inner = [] := Session.inner_begin hlevel
  have hinner : s.table.inner = [] := by
    have hkinds := hs.places.kinds
    rw [hbegin] at hkinds
    exact List.map_eq_nil_iff.mp hkinds
  have htop : ∀ t : SymbolTable, t.inner = [] → t.top = t.global := by
    intro t ht
    rw [SymbolTable.top, ht]
    rfl
  have hglobal : s.table.global.kind = .global := hs.outermost.trans (hplaces.outermost.trans hkind)
  refine ⟨by rw [SymbolTable.level, hinner]; rfl, by rw [SymbolTable.kind, htop _ hinner, hglobal], ?_, hs.processing,
    hs.depth, hs.stack, fun rid => ?_, fun rid id => hr.of_type?, ?_⟩
  · rw [hs.scopes, SymbolTable.scopes, hinner, List.nil_append, List.map_singleton, hglobal]
    rfl
  · rw [hr.isSome_type?, SymbolTable.scopes, hinner]
    simp
  · have hprefix := hs.top
    rw [htop _ hinner, htop _ hbegin] at hprefix
    have hsame : (session.begin files annotate).table.global.types = session.symbols.global.types := by
      have htypes := hplaces.types
      rw [SymbolTable.scopes, SymbolTable.scopes, hlevel, show session.enterBuiltins.symbols.inner = [] from hbegin]
        at htypes
      exact (List.cons.inj htypes).1
    exact hsame ▸ hprefix

/-- Whether a unit is accepted or refused, everything is at rest behind it, and behind every node lowering is
where it was before. -/
theorem Session.atRest_of_compile {options : CompileOptions} (hoptions : options.builtins.Sober) :
    (∀ session, Session.Reached options session → ∀ files annotate p src,
      (session.ending files annotate p src).AtRest session ∧
      (session.compile files annotate p src).2 = (session.ending files annotate p src).session) ∧
    ∀ s : Lowering, s.Midway → ∀ levels n, s.Restored (Lower.visit levels n s).2 ∧ (Lower.visit levels n s).2.Midway := by
  refine ⟨fun session h files annotate p src => ⟨?_, rfl⟩, fun s h levels n => ?_⟩
  · obtain ⟨hregistered, hkind⟩ := h.registered hoptions
    have hsettled := h.settled hoptions
    obtain ⟨k, ws, hcourse⟩ := exists_course hsettled files annotate p src
    exact Lowering.atRest_of_steps hsettled.level hkind hcourse.steps
      (hcourse.registered (Session.registered_begin hregistered))
  · obtain ⟨k, ws, hcourse⟩ := exists_course_of_tame (tame_visit levels n) h.good
    have hregistered := hcourse.registered h.registered
    have hg := hcourse.good h.good
    exact ⟨Lowering.restored_of_steps hcourse.steps hregistered,
      ⟨hg.sober, hg.order, hg.operands, hg.processing, hregistered⟩⟩

/-- A method with a wrong value in a loop. -/
def refusedSource : Source :=
  Source.ofString "class A \x7b\nfun f() \x7b\nwhile (true) \x7b\nvar x: int = \"a\"\n\x7d\n\x7d\n\x7d\n"

theorem exists_program_refusedSource : ∃ p, Program.ofSource refusedSource "main" = .ok p ∧
      ((Session.ofOptions {}).compile {} false p refusedSource).1.toOption = none ∧
      ∃ n ∈ p.body, (Lower.visit Session.levels n ((Session.ofOptions {}).begin {} false)).1.toOption = none := by
  have refused : (Program.ofSource refusedSource "main").toOption.any (fun p =>
      ((Session.ofOptions {}).compile {} false p refusedSource).1.toOption.isNone &&
      p.body.any fun n =>
        (Lower.visit Session.levels n ((Session.ofOptions {}).begin {} false)).1.toOption.isNone) = true := by
    simp only [Session.compile_named (Session.ofOptions {}) Registry.names_standard, Session.begin,
      Session.enterBuiltins_named (Session.ofOptions {}) Registry.names_standard]
    rw [refusedSource, Source.ofString_ofList]
    decide +kernel
  obtain ⟨p, hp, hchecked⟩ := exists_ok_of_any refused
  obtain ⟨hcompile, hbody⟩ := Bool.and_eq_true_iff.mp hchecked
  obtain ⟨n, hn, hnode⟩ := List.any_eq_true.mp hbody
  exact ⟨p, hp, Option.isNone_iff_eq_none.mp hcompile, n, hn, Option.isNone_iff_eq_none.mp hnode⟩

theorem Session.atRest_of_refusedSource :
    ∃ p, Program.ofSource refusedSource "main" = .ok p ∧
      ((Session.ofOptions {}).compile {} false p refusedSource).1.toOption = none ∧
      ((Session.ofOptions {}).ending {} false p refusedSource).AtRest (Session.ofOptions {}) ∧
      ∃ n ∈ p.body, (Lower.visit levels n ((Session.ofOptions {}).begin {} false)).1.toOption = none ∧
        ((Session.ofOptions {}).begin {} false).Restored
          (Lower.visit levels n ((Session.ofOptions {}).begin {} false)).2 := by
  obtain ⟨p, hp, hrefused, n, hn, hnode⟩ := exists_program_refusedSource
  have hsober : ({} : CompileOptions).builtins.Sober := Registry.sober_standard
  have hnew : Session.Reached {} (Session.ofOptions {}) := .new
  have hrest := Session.atRest_of_compile hsober
  exact ⟨p, hp, hrefused, (hrest.1 _ hnew {} false p refusedSource).1, n, hn, hnode,
    (hrest.2 _ (Session.midway_begin (hnew.settled hsober) (hnew.registered hsober).1 _ _) _ _).1⟩

end Frontend
