import Frontend.Proofs.Code.Region
import Frontend.Proofs.Lowering.Table

/-!
# Scopes and what can be seen from them

The scopes of the innermost function show only variables that are known there, and only targets of
loops around the present place. So whatever a name leads to, its raw id may be used: the variables of
outer functions, which may not, are refused.
-/

namespace Frontend.SymbolTable

/-- The scopes of the innermost function among open scopes. -/
def functionScopes : List Scope → List Scope
  | [] => []
  | scope :: rest =>
    if scope.kind = .function then [scope] else scope :: functionScopes rest

/-- A symbol that may be seen: a variable is known, and a target belongs to a loop around. -/
structure EntryOk (Γ : Region.Surroundings) (known : Set String) (s : Symbol) : Prop where
  var : s.sort = .variable → s.rid ∈ known
  target : s.sort = .target → Γ.inLoop ∧ s.rid ∈ Γ.targets

/-- A table whose innermost function sees only what it may see. -/
structure Scoped (Γ : Region.Surroundings) (known : Set String) (t : SymbolTable) : Prop where
  entries : ∀ scope ∈ functionScopes t.inner, ∀ e ∈ scope.names, EntryOk Γ known (t.get e.2)
  inFunction : 0 < t.functionLevel → Γ.inFunction

/-- A word that may be read: it survives printing, and it is known or free. -/
def Usable (known : Set String) (t : SymbolTable) (w : String) : Prop :=
  Word.Clean w ∧ (w ∈ known ∨ w ∈ t.free)

variable {n : Nat} {t t' : SymbolTable} {Γ : Region.Surroundings} {known known' : Set String}
variable {id : SymbolId} {scopes : List Scope} {scope : Scope} {e : String × SymbolId}
  {name : String} {kind : ScopeKind}
variable {w : String} {pos : Position} {level : Nat} {j : SymbolId}

theorem EntryOk.mono {s : Symbol} (hk : known ⊆ known') (h : EntryOk Γ known s) : EntryOk Γ known' s :=
  ⟨fun hs => hk (h.var hs), h.target⟩

theorem Scoped.mono (hk : known ⊆ known') (h : Scoped Γ known t) : Scoped Γ known' t :=
  ⟨fun scope hs e he => (h.entries scope hs e he).mono hk, h.inFunction⟩

theorem Usable.mono (hk : known ⊆ known') (ht : Extends t t') (h : Usable known t w) : Usable known' t' w :=
  ⟨h.1, h.2.imp (fun hw => hk hw) fun hw => ht.free_subset hw⟩

theorem usable_of_constant (hc : Word.Clean w) (h : Word.Constant w) : Usable known t w :=
  ⟨hc, .inr (.inl h)⟩

/-- The raw id of a function, a class or a target may be used everywhere. -/
theorem usable_of_sort_ne (h : Ordered n t) (hs : (t.get id).sort ≠ .variable) : Usable known t (t.get id).rid :=
  ⟨.inl (h.rid_plain id), .inr (.inr (.inr ⟨id, hs, rfl⟩))⟩

/-! ## Looking names up -/

section
variable (h : t.Levelled scopes) (hs : scope ∈ scopes) (he : e ∈ scope.names)
include h hs he

theorem level_le_of_levelled : (t.get e.2).level ≤ scopes.length := by
  induction scopes with
  | nil => exact nomatch hs
  | cons first rest ih =>
    rcases List.mem_cons.mp hs with rfl | hs
    · exact (h.1 e he).2.le
    · exact (ih h.2 hs).trans (Nat.le_succ _)

theorem level_pos_of_levelled : 0 < (t.get e.2).level := by
  induction scopes with
  | nil => exact nomatch hs
  | cons first rest ih =>
    rcases List.mem_cons.mp hs with rfl | hs
    · rw [(h.1 e he).2]
      exact Nat.succ_pos _
    · exact ih h.2 hs

/-- What has at least the level of the innermost function stands in one of its scopes. -/
theorem mem_functionScopes_of_level (hl : (scopes.dropWhile (·.kind != .function)).length ≤ (t.get e.2).level) :
    scope ∈ functionScopes scopes := by
  induction scopes with
  | nil => exact nomatch hs
  | cons first rest ih =>
    unfold functionScopes
    by_cases hk : first.kind = .function
    · rw [if_pos hk]
      rw [List.dropWhile_cons_of_neg (by simp [hk])] at hl
      rcases List.mem_cons.mp hs with rfl | hs
      · exact List.mem_singleton.mpr rfl
      · have := level_le_of_levelled h.2 hs he
        simp only [List.length_cons] at hl
        omega
    · rw [if_neg hk]
      rw [List.dropWhile_cons_of_pos (by simp [hk])] at hl
      rcases List.mem_cons.mp hs with rfl | hs
      · exact List.mem_cons_self
      · exact List.mem_cons_of_mem _ (ih h.2 hs hl)

end

/-- The scopes that are searched within the innermost function. -/
theorem take_scopes (t : SymbolTable) : t.scopes.take (t.level + 1 - t.functionLevel) =
      functionScopes t.inner ++ (if t.functionLevel = 0 then [t.global] else []) := by
  unfold scopes level functionLevel
  induction t.inner with
  | nil => rfl
  | cons scope rest ih =>
    unfold functionScopes
    by_cases hk : scope.kind = .function
    · rw [List.dropWhile_cons_of_neg (by simp [hk]), if_pos hk]
      simp
    · rw [List.dropWhile_cons_of_pos (by simp [hk]), if_neg hk]
      have hle := (List.dropWhile_suffix (l := rest) fun s : Scope => s.kind != .function).length_le
      rw [List.length_cons, show rest.length + 1 + 1 -
        (rest.dropWhile fun s : Scope => s.kind != .function).length = (rest.length + 1 -
        (rest.dropWhile fun s : Scope => s.kind != .function).length) + 1 by omega]
      rw [List.cons_append, List.take_succ_cons, ih, List.cons_append]

theorem mem_of_findInFunction (h : t.findInFunction? name = some id) :
    (∃ scope ∈ functionScopes t.inner, (name, id) ∈ scope.names) ∨ (name, id) ∈ t.global.names := by
  unfold findInFunction? at h
  rw [take_scopes] at h
  obtain ⟨scope, hs, hl⟩ := List.exists_of_findSome?_eq_some h
  have hmem := mem_of_lookup hl
  rcases List.mem_append.mp hs with hs | hs
  · exact .inl ⟨scope, hs, hmem⟩
  · split at hs
    · rw [List.mem_singleton.mp hs] at hmem
      exact .inr hmem
    · exact nomatch hs

section
variable (h : Ordered n t) (hs : Scoped Γ known t) (hf : t.findInFunction? name = some id)
include h hs hf

/-- What is found within the innermost function may be used. -/
theorem usable_of_findInFunction : Usable known t (t.get id).rid := by
  by_cases hsort : (t.get id).sort = .variable
  · refine ⟨.inl (h.rid_plain id), ?_⟩
    rcases mem_of_findInFunction hf with ⟨scope, hscope, hmem⟩ | hmem
    · exact .inl ((hs.entries scope hscope _ hmem).var hsort)
    · exact .inr (.inr (.inl (h.globals _ hmem).rid))
  · exact usable_of_sort_ne h hsort

/-- A target that is found within the innermost function belongs to a loop around. -/
theorem target_of_findInFunction (hsort : (t.get id).sort = .target) : Γ.inLoop ∧ (t.get id).rid ∈ Γ.targets := by
  rcases mem_of_findInFunction hf with ⟨scope, hscope, hmem⟩ | hmem
  · exact (hs.entries scope hscope _ hmem).target hsort
  · exact absurd hsort (h.globals _ hmem).sort

end

/-- A name is in reach unless it stands for a variable of a function around. -/
theorem lookup_eq_ok {x : String} : t.lookup x pos = .ok id ↔ t.find? x = some id ∧
    ¬ ((t.get id).var?.isSome = true ∧ 0 < (t.get id).level ∧ (t.get id).level < t.functionLevel) := by
  unfold lookup
  cases hfind : t.find? x with
  | none => simp
  | some found =>
    dsimp only
    split
    next hcapture =>
      simp only [reduceCtorEq, Option.some.injEq, false_iff, not_and]
      rintro rfl
      simpa [and_assoc] using hcapture
    next hreach =>
      simp only [Except.ok.injEq, Option.some.injEq]
      constructor
      · rintro rfl
        exact ⟨rfl, by simpa [and_assoc] using hreach⟩
      · exact fun h => h.1

/-- A name leads to a symbol that was made. -/
theorem lt_size_of_lookup (h : Ordered n t) (hl : t.lookup name pos = .ok id) : id < t.symbols.size := by
  obtain ⟨scope, hscope, hlook⟩ := List.exists_of_findSome?_eq_some (lookup_eq_ok.mp hl).1
  have hmem := mem_of_lookup hlook
  rcases List.mem_append.mp hscope with hscope | hscope
  · exact h.levelled.lt_size hscope hmem
  · rw [List.mem_singleton.mp hscope] at hmem
    exact (h.globals _ hmem).known

/-- What a name leads to may be used: a variable is known here or global. -/
theorem usable_of_lookup (h : Ordered n t) (hs : Scoped Γ known t) (hl : t.lookup name pos = .ok id) :
    Usable known t (t.get id).rid := by
  by_cases hsort : (t.get id).sort = .variable
  · refine ⟨.inl (h.rid_plain id), ?_⟩
    obtain ⟨hfound, hreach⟩ := lookup_eq_ok.mp hl
    obtain ⟨scope, hscope, hlook⟩ := List.exists_of_findSome?_eq_some hfound
    have hmem := mem_of_lookup hlook
    rcases List.mem_append.mp hscope with hscope | hscope
    · -- an inner scope has a positive level, so it belongs to the innermost function
      have hpos := level_pos_of_levelled h.levelled hscope hmem
      have hlevel : t.functionLevel ≤ (t.get id).level :=
        Nat.le_of_not_lt fun hlt => hreach ⟨Symbol.var?_of_sort hsort, hpos, hlt⟩
      have hin := mem_functionScopes_of_level h.levelled hscope hmem hlevel
      exact .inl ((hs.entries scope hin _ hmem).var hsort)
    · rw [List.mem_singleton.mp hscope] at hmem
      exact .inr (.inr (.inl (h.globals _ hmem).rid))
  · exact usable_of_sort_ne h hsort

/-! ## Scopes that stay the same -/

/-- The same scopes are open, and only the innermost one may have changed. -/
structure SameScopes (t t' : SymbolTable) : Prop where
  kinds : t'.inner.map (·.kind) = t.inner.map (·.kind)
  outer : t'.inner.tail = t.inner.tail

theorem SameScopes.of_eq (h : t'.inner = t.inner) : SameScopes t t' :=
  ⟨by rw [h], by rw [h]⟩

theorem SameScopes.trans {t'' : SymbolTable} (h : SameScopes t t') (h' : SameScopes t' t'') : SameScopes t t'' :=
  ⟨h'.kinds.trans h.kinds, h'.outer.trans h.outer⟩

theorem SameScopes.inner_ne_nil (h : SameScopes t t') (hne : t.inner ≠ []) : t'.inner ≠ [] := by
  intro hnil
  have kinds := h.kinds
  rw [hnil] at kinds
  exact hne (List.map_eq_nil_iff.mp kinds.symm)

theorem functionLevel_of_kinds (h : t'.inner.map (·.kind) = t.inner.map (·.kind)) :
    t'.functionLevel = t.functionLevel := by
  have spelled : ∀ scopes : List Scope, (scopes.dropWhile (·.kind != .function)).length =
      ((scopes.map (·.kind)).dropWhile (· != .function)).length := by
    intro scopes
    rw [List.dropWhile_map, List.length_map]
    rfl
  unfold functionLevel
  rw [spelled, spelled, h]

theorem functionScopes_subset (scopes : List Scope) : functionScopes scopes ⊆ scopes := by
  induction scopes with
  | nil => exact List.Subset.refl _
  | cons first rest ih =>
    unfold functionScopes
    split
    · exact List.cons_subset_cons _ (List.nil_subset _)
    · exact List.cons_subset_cons _ ih

/-- Scopes that are open again show what they showed before. -/
theorem Scoped.restore (h : Scoped Γ known t) (ho : Ordered n t) (hi : t'.inner = t.inner)
    (he : Extends t t') : Scoped Γ known t' := by
  refine ⟨?_, fun hl => h.inFunction (by rwa [← functionLevel_of_kinds (by rw [hi])])⟩
  rw [hi]
  intro scope hs e hmem
  have hin := functionScopes_subset _ hs
  have hlt := ho.levelled.lt_size hin hmem
  have hold := h.entries scope hs e hmem
  constructor
  · rw [he.sort _ hlt, he.rid _ hlt]
    exact hold.var
  · rw [he.sort _ hlt, he.rid _ hlt]
    exact hold.target

/-! ## Opening and closing scopes -/

theorem scoped_enter (h : Scoped Γ known t) (hk : kind ≠ .function) : Scoped Γ known (t.enter kind) := by
  constructor
  · intro scope hs e he
    have hscopes : functionScopes (t.enter kind).inner = { kind } :: functionScopes t.inner := by
      unfold enter
      rw [functionScopes, if_neg hk]
    rw [hscopes] at hs
    rcases List.mem_cons.mp hs with rfl | hs
    · exact nomatch he
    · exact h.entries scope hs e he
  · intro hl
    refine h.inFunction ?_
    unfold functionLevel enter at hl
    rw [List.dropWhile_cons_of_pos (by simp [hk])] at hl
    exact hl

theorem scoped_enter_function (t : SymbolTable) :
    Scoped Region.Surroundings.function known (t.enter .function) := by
  refine ⟨?_, fun _ => trivial⟩
  intro scope hs e he
  have hscopes : functionScopes (t.enter .function).inner = [{ kind := .function }] := by
    unfold enter
    rw [functionScopes, if_pos rfl]
  rw [hscopes] at hs
  rw [List.mem_singleton.mp hs] at he
  exact nomatch he

/-- Good order depends on symbols and scopes only. -/
theorem Ordered.of_eq (h : Ordered n t) (hs : t'.symbols = t.symbols)
    (hnames : t'.global.names = t.global.names) (hrids : t'.global.rids = t.global.rids)
    (hl : t.Levelled t'.inner) (ht : ∀ e ∈ t'.types, (t.get e.2).sort = .cls) : Ordered n t' := by
  have hget : ∀ id, t'.get id = t.get id := fun id => by unfold get; rw [hs]
  have ha : Alike t t' := ⟨by rw [hs], fun id => by rw [hget], fun id => by rw [hget]⟩
  refine ⟨?_, ?_, ?_, ?_, ?_, fun e he => by rw [hget]; exact ht e he⟩
  · intro id hid
    rw [hs] at hid
    rw [hget]
    exact (h.symbols id hid).alike ha
  · intro i hi j hj hrid
    rw [hs] at hi hj
    rw [hget, hget] at hrid ⊢
    exact h.sorts i hi j hj hrid
  · exact hl.of_get ha.size.ge fun _ _ e _ => by rw [hget]
  · intro e he
    rw [hnames] at he
    have hg' := h.globals e he
    exact ⟨by rw [hs]; exact hg'.known, by rw [hget]; exact hg'.level,
      by rw [hget]; exact hg'.sort, by rw [hget, hrids]; exact hg'.rid⟩
  · intro e he
    rw [hrids] at he
    have hr := h.rids e he
    exact ⟨by rw [hs]; exact hr.known, by rw [hget]; exact hr.rid, by rw [hget]; exact hr.level⟩

theorem Extends.of_eq (hs : t'.symbols = t.symbols) (hg : t'.global.rids = t.global.rids) : Extends t t' := by
  have hget : ∀ id, t'.get id = t.get id := fun id => by unfold get; rw [hs]
  exact ⟨by rw [hs], fun id _ => by rw [hget], fun id _ => by rw [hget],
    by rw [hg]; exact List.Subset.refl _⟩

theorem ordered_enter (h : Ordered n t) (kind : ScopeKind) : Ordered n (t.enter kind) :=
  h.of_eq rfl rfl rfl ⟨fun _ he => (nomatch he), h.levelled⟩ h.types

/-- Closing the innermost scope brings back the scopes from before it was opened. -/
theorem leaveTo_of_sameScopes (h : SameScopes (t.enter kind) t') :
    (t'.leaveTo t.level).inner = t.inner ∧ (t'.leaveTo t.level).symbols = t'.symbols ∧
      (t'.leaveTo t.level).global = t'.global ∧ (t'.leaveTo t.level).types ⊆ t'.types := by
  obtain ⟨top, hinner⟩ : ∃ top, t'.inner = top :: t.inner := by
    cases hi : t'.inner with
    | nil =>
      have hk := h.kinds
      rw [hi] at hk
      exact nomatch hk
    | cons top rest =>
      have ho := h.outer
      rw [hi] at ho
      exact ⟨top, by rw [show rest = t.inner from ho]⟩
  have hlevel : t'.level - t.level = 1 := by
    unfold level
    rw [hinner, List.length_cons]
    omega
  unfold leaveTo
  rw [hlevel]
  refine ⟨?_, ?_, ?_, ?_⟩
  · simp [exitMany, exit, hinner]
  · simp [exitMany, exit, hinner]
  · simp [exitMany, exit, hinner]
  · simp only [exitMany, exit, hinner]
    exact List.filter_subset_self _

theorem ordered_leaveTo (h : SameScopes (t.enter kind) t') (ho : Ordered n t') :
    Ordered n (t'.leaveTo t.level) := by
  obtain ⟨hinner, hsymbols, hglobal, htypes⟩ := leaveTo_of_sameScopes h
  refine ho.of_eq hsymbols (by rw [hglobal]) (by rw [hglobal]) ?_
    fun e he => ho.types e (htypes he)
  rw [hinner]
  have hl := ho.levelled
  cases hi : t'.inner with
  | nil =>
    have hk := h.kinds
    rw [hi] at hk
    exact nomatch hk
  | cons top rest =>
    have hout := h.outer
    rw [hi] at hl hout
    rw [← show rest = t.inner from hout]
    exact hl.2

/-! ## Entering symbols in scopes -/

/-- A symbol that no scope knows yet. -/
structure Loose (t : SymbolTable) (id : SymbolId) : Prop where
  known : id < t.symbols.size
  inner : ∀ scope ∈ t.inner, ∀ e ∈ scope.names, e.2 ≠ id
  global : ∀ e ∈ t.global.names, e.2 ≠ id
  rids : ∀ e ∈ t.global.rids, e.2 ≠ id

theorem loose_add (h : Ordered n t) (s : Symbol) : Loose (t.add s).2 (t.add s).1 := by
  refine ⟨by rw [size_add]; exact Nat.lt_succ_self _, ?_, ?_, ?_⟩
  · intro scope hs e he
    exact Nat.ne_of_lt (h.levelled.lt_size hs he)
  · intro e he
    exact Nat.ne_of_lt (h.globals e he).known
  · intro e he
    exact Nat.ne_of_lt (h.rids e he).known

/-- A scope with one more entry. -/
def entered (s : Symbol) (id : SymbolId) (scope : Scope) : Scope :=
  { scope with names := putEntry s.name id scope.names, rids := putEntry s.rid id scope.rids }

theorem insertAt_eq (h : t.insertAt level id = .ok t') :
    t' = (t.modify id fun s => { s with level }).mapScope level (entered (t.get id) id) := by
  unfold insertAt at h
  simp only at h
  split at h
  · cases h
  · cases h
    rfl

/-- What entering a symbol in a scope keeps and what it changes. -/
structure Entered (n : Nat) (t t' : SymbolTable) (id : SymbolId) : Prop where
  ordered : Ordered n t'
  alike : Alike t t'
  grows : t.global.rids.map Prod.fst ⊆ t'.global.rids.map Prod.fst
  same : SameScopes t t'
  sees : ∀ {Γ known}, Scoped Γ known t → EntryOk Γ known (t.get id) → Scoped Γ known t'

theorem Entered.extends (h : Entered n t t' id) : Extends t t' :=
  .of_alike h.alike h.grows

/-- The level of one symbol is set; all else about symbols stays. -/
theorem get_setLevel (t : SymbolTable) (id j : SymbolId) (level : Nat) :
    (t.modify id fun s => { s with level }).get j =
      if j = id ∧ j < t.symbols.size then { t.get j with level } else t.get j :=
  get_modify t id j _

theorem alike_setLevel (t : SymbolTable) (id : SymbolId) (level : Nat) :
    Alike t (t.modify id fun s => { s with level }) :=
  alike_modify (fun _ => rfl) fun _ => rfl

theorem level_setLevel (hj : j ≠ id) (level : Nat) :
    ((t.modify id fun s => { s with level }).get j).level = (t.get j).level := by
  rw [get_setLevel, if_neg fun h => hj h.1]

theorem symbolOk_setLevel (h : Ordered n t) (id : SymbolId) (level : Nat) (hj : j < t.symbols.size) :
    SymbolOk n (t.modify id fun s => { s with level }) ((t.modify id fun s => { s with level }).get j) := by
  have hok := (h.symbols j hj).alike (alike_setLevel t id level)
  rw [get_setLevel]
  split
  · exact ⟨hok.rid_plain, hok.name_plain, hok.numbered, hok.params, hok.init, hok.cls⟩
  · exact hok

/-- Wherever a symbol is entered, all symbols stay in good order. -/
theorem ordered_setLevel (h : Ordered n t) (hget : ∀ j, t'.get j = (t.modify id fun s => { s with level }).get j)
    (hsize : t'.symbols.size = t.symbols.size) (htypes : t'.types = t.types) (hlevelled : t'.Levelled t'.inner)
    (hglobals : ∀ e ∈ t'.global.names, t'.GlobalOk e.2) (hrids : ∀ e ∈ t'.global.rids, t'.RidOk e.1 e.2) :
    Alike t t' ∧ Ordered n t' := by
  have ha := alike_setLevel t id level
  have ha' : Alike t t' :=
    ⟨hsize, fun j => by rw [hget]; exact ha.rid j, fun j => by rw [hget]; exact ha.sort j⟩
  refine ⟨ha', ?_, ?_, hlevelled, hglobals, hrids, fun e he => ?_⟩
  · intro j hj
    rw [hget]
    refine (symbolOk_setLevel h id level (by rw [← hsize]; exact hj)).alike ?_
    exact ⟨hsize.trans ha.size.symm, fun j => by rw [hget], fun j => by rw [hget]⟩
  · intro i hi j hj hrid
    rw [hsize] at hi hj
    rw [ha'.rid, ha'.rid] at hrid
    rw [ha'.sort, ha'.sort]
    exact h.sorts i hi j hj hrid
  · rw [ha'.sort]
    exact h.types e (htypes ▸ he)

section
variable (h : Ordered n t) (hl : Loose t id)
include h hl

/-- What stands in the global scope stays in good order. -/
theorem globals_setLevel (hget : ∀ j, t'.get j = (t.modify id fun s => { s with level }).get j)
    (hsize : t'.symbols.size = t.symbols.size) (hgrows : t.global.rids.map Prod.fst ⊆ t'.global.rids.map Prod.fst) :
    (∀ e ∈ t.global.names, t'.GlobalOk e.2) ∧ ∀ e ∈ t.global.rids, t'.RidOk e.1 e.2 := by
  have ha := alike_setLevel t id level
  refine ⟨fun e he => ?_, fun e he => ?_⟩
  · have hg := h.globals e he
    refine ⟨by rw [hsize]; exact hg.known, ?_, by rw [hget, ha.sort]; exact hg.sort, ?_⟩
    · rw [hget, level_setLevel (hl.global e he)]
      exact hg.level
    · rw [hget, ha.rid]
      exact hgrows hg.rid
  · have hr := h.rids e he
    refine ⟨by rw [hsize]; exact hr.known, by rw [hget, ha.rid]; exact hr.rid, ?_⟩
    rw [hget, level_setLevel (hl.rids e he)]
    exact hr.level

/-- A symbol is entered in the global scope. -/
theorem entered_insertGlobal (hs : (t.get id).sort ≠ .target) (hi : t.insertGlobal id = .ok t') :
    Entered n t t' id ∧ t'.inner = t.inner := by
  have heq := insertAt_eq hi
  unfold mapScope at heq
  rw [if_pos rfl] at heq
  have hget : ∀ j, t'.get j = (t.modify id fun s => { s with level := 0 }).get j :=
    fun j => by rw [heq]; rfl
  have hsize : t'.symbols.size = t.symbols.size := by
    rw [heq]
    exact size_modify _ _ _
  have hinner : t'.inner = t.inner := by rw [heq]; rfl
  have hnames : t'.global.names = putEntry (t.get id).name id t.global.names := by rw [heq]; rfl
  have hrids : t'.global.rids = putEntry (t.get id).rid id t.global.rids := by rw [heq]; rfl
  have grows : t.global.rids.map Prod.fst ⊆ t'.global.rids.map Prod.fst := by
    rw [hrids]
    exact keys_subset_putEntry _ _ _
  have ha := alike_setLevel t id 0
  have levelled : t'.Levelled t'.inner := by
    rw [hinner]
    refine h.levelled.of_get hsize.ge fun scope hscope e he => ?_
    rw [hget]
    exact level_setLevel (hl.inner scope hscope e he) 0
  have globals : ∀ e ∈ t'.global.names, t'.GlobalOk e.2 := by
    intro e he
    rw [hnames] at he
    rcases mem_putEntry he with rfl | he
    · refine ⟨by rw [hsize]; exact hl.known, ?_, by rw [hget, ha.sort]; exact hs, ?_⟩
      · rw [hget, get_setLevel, if_pos ⟨rfl, hl.known⟩]
      · rw [hget, ha.rid, hrids]
        exact key_mem_putEntry _ _ _
    · exact (globals_setLevel h hl hget hsize grows).1 e he
  have rids : ∀ e ∈ t'.global.rids, t'.RidOk e.1 e.2 := by
    intro e he
    rw [hrids] at he
    rcases mem_putEntry he with rfl | he
    · refine ⟨by rw [hsize]; exact hl.known, by rw [hget, ha.rid], ?_⟩
      rw [hget, get_setLevel, if_pos ⟨rfl, hl.known⟩]
    · exact (globals_setLevel h hl hget hsize grows).2 e he
  obtain ⟨ha', ordered⟩ := ordered_setLevel h hget hsize (by rw [heq]; rfl) levelled globals rids
  exact ⟨⟨ordered, ha', grows, .of_eq hinner, fun hsc _ =>
    hsc.restore h hinner (.of_alike ha' grows)⟩, hinner⟩

/-- A symbol is entered in an innermost scope that is not the global one. -/
theorem entered_insertTop {top : Scope} {rest : List Scope} (hinner : t.inner = top :: rest)
    (hi : t.insert id = .ok t') : Entered n t t' id := by
  have heq := insertAt_eq hi
  have hlevel : t.level = rest.length + 1 := by
    unfold level
    rw [hinner, List.length_cons]
  have hmodify : (t.modify id fun s => { s with level := t.level }).inner = top :: rest := hinner
  unfold mapScope at heq
  rw [if_neg (by omega), show (t.modify id fun s => { s with level := t.level }).level - t.level = 0
    from Nat.sub_self _, hmodify, List.modify_zero_cons] at heq
  have hinner' : t'.inner = entered (t.get id) id top :: rest := by rw [heq]
  have hget : ∀ j, t'.get j = (t.modify id fun s => { s with level := t.level }).get j :=
    fun j => by rw [heq]; rfl
  have hsize : t'.symbols.size = t.symbols.size := by
    rw [heq]
    exact size_modify _ _ _
  have hglobal : t'.global = t.global := by rw [heq]; rfl
  have same : SameScopes t t' := by
    constructor
    · rw [hinner', hinner]
      rfl
    · rw [hinner', hinner]
      rfl
  have hold := h.levelled
  rw [hinner] at hold
  have levelled : t'.Levelled t'.inner := by
    rw [hinner']
    have others : ∀ scope ∈ top :: rest, ∀ e ∈ scope.names,
        (t'.get e.2).level = (t.get e.2).level := by
      intro scope hscope e he
      rw [hget]
      exact level_setLevel (hl.inner scope (hinner ▸ hscope) e he) _
    refine ⟨?_, hold.2.of_get hsize.ge fun scope hs => others scope (List.mem_cons_of_mem _ hs)⟩
    intro e he
    rcases mem_putEntry he with rfl | he
    · rw [hget, get_setLevel, if_pos ⟨rfl, hl.known⟩, hsize]
      exact ⟨hl.known, hlevel⟩
    · rw [others top List.mem_cons_self e he, hsize]
      exact hold.1 e he
  obtain ⟨globals, rids⟩ := globals_setLevel h hl hget hsize (by rw [hglobal]; exact List.Subset.refl _)
  rw [← hglobal] at globals rids
  obtain ⟨ha', ordered⟩ := ordered_setLevel h hget hsize (by rw [heq]; rfl) levelled globals rids
  refine ⟨ordered, ha', by rw [hglobal]; exact List.Subset.refl _, same, ?_⟩
  · intro Γ known hsc hentry
    refine ⟨?_, fun hpos => hsc.inFunction (by rwa [functionLevel_of_kinds same.kinds] at hpos)⟩
    have seen : ∀ j, EntryOk Γ known (t.get j) → EntryOk Γ known (t'.get j) := by
      intro j hj
      exact ⟨by rw [ha'.sort, ha'.rid]; exact hj.var, by rw [ha'.sort, ha'.rid]; exact hj.target⟩
    have first : ∀ e ∈ (entered (t.get id) id top).names,
        (∀ d ∈ top.names, EntryOk Γ known (t.get d.2)) → EntryOk Γ known (t'.get e.2) := by
      intro e he hd
      rcases mem_putEntry he with rfl | he
      · exact seen id hentry
      · exact seen e.2 (hd e he)
    intro scope hscope e he
    have hentries := hsc.entries
    rw [hinner', functionScopes, show (entered (t.get id) id top).kind = top.kind from rfl] at hscope
    rw [hinner, functionScopes] at hentries
    split at hscope
    · rename_i hk
      rw [if_pos hk] at hentries
      rw [List.mem_singleton.mp hscope] at he
      exact first e he (hentries top (List.mem_singleton.mpr rfl))
    · rename_i hk
      rw [if_neg hk] at hentries
      rcases List.mem_cons.mp hscope with rfl | hscope
      · exact first e he (hentries top List.mem_cons_self)
      · exact seen e.2 (hentries scope (List.mem_cons_of_mem _ hscope) e he)

/-- A symbol is entered in the innermost scope; a target only where a scope was opened. -/
theorem entered_insert (hs : (t.get id).sort = .target → t.inner ≠ []) (hi : t.insert id = .ok t') :
    Entered n t t' id := by
  cases hinner : t.inner with
  | nil =>
    have hlevel : t.level = 0 := by
      unfold level
      rw [hinner]
      rfl
    unfold insert at hi
    rw [hlevel] at hi
    exact (entered_insertGlobal h hl (fun he => hs he hinner) hi).1
  | cons top rest => exact entered_insertTop h hl hinner hi

end

end Frontend.SymbolTable
