import Frontend.Proofs.Lowering.Control
import Frontend.Proofs.Meaning.Source
import Mathlib.Data.List.Forall2

/-!
# Names while code is written

Where a name has a meaning in the text, the symbol table has it under the raw id of the same variable,
scope for scope.
-/

namespace Frontend.Meaning

open SymbolTable

/-- A scope of the table knows the names of a scope of the text, and no other variables. -/
structure ScopeOk (t : SymbolTable) (names : Names) (scope : Scope) : Prop where
  known : ∀ e ∈ scope.names, e.2 < t.symbols.size
  found : ∀ x i, names.lookup x = some i → ∃ id, scope.names.lookup x = some id ∧
    (t.get id).sort = .variable ∧ (t.get id).rid = Word.numbered x i
  only : ∀ x id, scope.names.lookup x = some id → (t.get id).sort = .variable →
    (names.lookup x).isSome = true

/-- The state of lowering at a place where names have a given meaning. Outside of functions the scopes
above the global one hold variables and the labels of loops; the innermost loop has the label `round`
for its next round. -/
structure Follows (c : Scoping) (round : Option String) (s : Lowering) : Prop where
  inner : List.Forall₂ (ScopeOk s.table) c.inner s.table.inner
  global : ScopeOk s.table c.global s.table.global
  kinds : ∀ scope ∈ s.table.inner, scope.kind ≠ .function
  sorts : ∀ scope ∈ s.table.inner, ∀ e ∈ scope.names,
    (s.table.get e.2).sort = .variable ∨ (s.table.get e.2).sort = .target
  base : ∀ e ∈ s.table.global.names, (s.table.get e.2).sort ≠ .target
  numbers : ∀ names ∈ c.inner ++ [c.global], ∀ e ∈ names, e.2 < c.next
  next : s.supply.rids = c.next
  processing : s.processing = []
  round : ∀ id, s.table.inner.findSome? (·.names.lookup Lower.continueWord) = some id →
    (s.table.get id).sort = .target → round = some (s.table.get id).rid

/-! ## Entries -/

variable {t t' : SymbolTable} {names : Names} {scope : Scope} {c : Scoping} {round : Option String}
  {s s' : Lowering}
variable {x : String} {id : SymbolId} {inner : List Names} {scopes : List Scope} {sym : Symbol}
variable {more top : Scope} {name : String} {kind : ScopeKind} {round' : Option String} {rest : List Scope}

theorem ScopeOk.lt_size (h : ScopeOk t names scope) (hx : scope.names.lookup x = some id) : id < t.symbols.size :=
  h.known _ (mem_of_lookup hx)

theorem ScopeOk.extends (h : ScopeOk t names scope) (he : Extends t t') : ScopeOk t' names scope := by
  refine ⟨fun e hmem => (h.known e hmem).trans_le he.size, ?_, ?_⟩
  · intro x i hx
    obtain ⟨id, hid, hsort, hrid⟩ := h.found x i hx
    have hlt := h.lt_size hid
    exact ⟨id, hid, by rw [he.sort id hlt, hsort], by rw [he.rid id hlt, hrid]⟩
  · intro x id hid hsort
    rw [he.sort id (h.lt_size hid)] at hsort
    exact h.only x id hid hsort

/-- A scope with one more variable. -/
theorem ScopeOk.define {n : Nat} (h : ScopeOk t names scope) (hid : id < t.symbols.size)
    (hsort : (t.get id).sort = .variable) (hrid : (t.get id).rid = Word.numbered x n)
    (hmore : more.names = putEntry x id scope.names) : ScopeOk t ((x, n) :: names) more := by
  refine ⟨?_, ?_, ?_⟩
  · intro e he
    rw [hmore] at he
    rcases mem_putEntry he with rfl | he
    · exact hid
    · exact h.known e he
  · intro y i hy
    rw [hmore, lookup_putEntry]
    by_cases hyx : y = x
    · subst hyx
      simp only [List.lookup_cons, beq_self_eq_true, Option.some.injEq] at hy
      exact ⟨id, if_pos rfl, hsort, by rw [hrid, hy]⟩
    · simp only [List.lookup_cons, beq_eq_false_iff_ne.mpr hyx] at hy
      rw [if_neg hyx]
      exact h.found y i hy
  · intro y j hj hvar
    rw [hmore, lookup_putEntry] at hj
    by_cases hyx : y = x
    · simp [hyx]
    · rw [if_neg hyx] at hj
      simp only [List.lookup_cons, beq_eq_false_iff_ne.mpr hyx]
      exact h.only y j hj hvar

/-- A scope with one more label. -/
theorem ScopeOk.target (h : ScopeOk t names scope) (hid : id < t.symbols.size) (hsort : (t.get id).sort = .target)
    (hnew : scope.names.lookup x = none) (hmore : more.names = putEntry x id scope.names) : ScopeOk t names more := by
  refine ⟨?_, ?_, ?_⟩
  · intro e he
    rw [hmore] at he
    rcases mem_putEntry he with rfl | he
    · exact hid
    · exact h.known e he
  · intro y i hy
    obtain ⟨j, hj, hrest⟩ := h.found y i hy
    have hyx : y ≠ x := by
      rintro rfl
      rw [hnew] at hj
      exact nomatch hj
    rw [hmore, lookup_putEntry, if_neg hyx]
    exact ⟨j, hj, hrest⟩
  · intro y j hj hvar
    rw [hmore, lookup_putEntry] at hj
    by_cases hyx : y = x
    · rw [if_pos hyx, Option.some.injEq] at hj
      rw [← hj, hsort] at hvar
      exact nomatch hvar
    · rw [if_neg hyx] at hj
      exact h.only y j hj hvar

/-! ## Looking names up -/

theorem functionLevel_eq_zero (h : ∀ scope ∈ t.inner, scope.kind ≠ .function) : t.functionLevel = 0 := by
  have none : t.inner.dropWhile (·.kind != .function) = [] := by
    rw [List.dropWhile_eq_nil_iff]
    intro scope hscope
    simpa using h scope hscope
  unfold functionLevel
  rw [none]
  rfl

/-- What is found under a name with a meaning is its variable, unless it is a label. -/
theorem rid_of_findSome (h : List.Forall₂ (ScopeOk t) inner scopes) {base : Names} {ground : Scope}
    (hg : ScopeOk t base ground) (hsorts : ∀ scope ∈ scopes, ∀ e ∈ scope.names,
      (t.get e.2).sort = .variable ∨ (t.get e.2).sort = .target) {i : Nat}
    (hx : (inner ++ [base]).findSome? (·.lookup x) = some i)
    (hid : (scopes ++ [ground]).findSome? (·.names.lookup x) = some id) (hne : (t.get id).sort ≠ .target) :
    (t.get id).sort = .variable ∧ (t.get id).rid = Word.numbered x i := by
  induction h with
  | nil =>
    simp only [List.nil_append, List.findSome?_cons, List.findSome?_nil] at hx hid
    cases hb : base.lookup x with
    | none =>
      rw [hb] at hx
      exact nomatch hx
    | some j =>
      rw [hb] at hx
      cases hx
      obtain ⟨j, hj, hsort, hrid⟩ := hg.found x i hb
      rw [hj] at hid
      cases hid
      exact ⟨hsort, hrid⟩
  | @cons names scope inner scopes hscope _ ih =>
    simp only [List.cons_append, List.findSome?_cons] at hx hid
    cases hn : names.lookup x with
    | some j =>
      rw [hn] at hx
      cases hx
      obtain ⟨j, hj, hsort, hrid⟩ := hscope.found x i hn
      rw [hj] at hid
      cases hid
      exact ⟨hsort, hrid⟩
    | none =>
      rw [hn] at hx
      cases hs : scope.names.lookup x with
      | none =>
        rw [hs] at hid
        exact ih (fun scope hmem => hsorts scope (List.mem_cons_of_mem _ hmem)) hx hid
      | some j =>
        rw [hs] at hid
        cases hid
        -- the scope has the name, but not for a variable
        have hvar := (hsorts scope List.mem_cons_self _ (mem_of_lookup hs)).resolve_right hne
        have hsome := hscope.only x id hs hvar
        rw [hn] at hsome
        exact nomatch hsome

section
variable (h : Follows c round s)
include h

theorem Follows.lookup {x : Variable} {pos : Position} (hx : c.find? name = some x)
    (hid : s.table.lookup name pos = .ok id) (hne : (s.table.get id).sort ≠ .target) :
    (s.table.get id).sort = .variable ∧ (s.table.get id).rid = x.rid := by
  have hfind : s.table.find? name = some id := (lookup_eq_ok.mp hid).1
  unfold Scoping.find? at hx
  obtain ⟨i, hi, rfl⟩ := Option.map_eq_some_iff.mp hx
  exact rid_of_findSome h.inner h.global h.sorts hi hfind hne

theorem Follows.number_lt {x : Variable} (hx : c.find? name = some x) : x.number < c.next := by
  unfold Scoping.find? at hx
  obtain ⟨i, hi, rfl⟩ := Option.map_eq_some_iff.mp hx
  obtain ⟨names, hnames, hlookup⟩ := List.exists_of_findSome?_eq_some hi
  exact h.numbers names hnames _ (mem_of_lookup hlookup)

/-- A label for the next round that is found belongs to the innermost loop. -/
theorem Follows.round_of_findInFunction (hid : s.table.findInFunction? Lower.continueWord = some id)
    (hsort : (s.table.get id).sort = .target) : round = some (s.table.get id).rid := by
  have whole : s.table.scopes.take (s.table.level + 1 - s.table.functionLevel) =
      s.table.inner ++ [s.table.global] := by
    rw [functionLevel_eq_zero h.kinds]
    exact List.take_of_length_le (by simp [scopes, level])
  unfold findInFunction? at hid
  rw [whole, List.findSome?_append] at hid
  rcases Option.or_eq_some_iff.mp hid with hid | ⟨-, hid⟩
  · exact h.round id hid hsort
  · obtain ⟨scope, hscope, hlook⟩ := List.exists_of_findSome?_eq_some hid
    rw [List.mem_singleton.mp hscope] at hlook
    exact absurd hsort (h.base _ (mem_of_lookup hlook))

omit h

/-! ## Tables that grow -/

theorem known_of_forall₂ (h : List.Forall₂ (ScopeOk t) inner scopes) :
    ∀ scope ∈ scopes, ∀ e ∈ scope.names, e.2 < t.symbols.size := by
  induction h with
  | nil => exact fun _ hmem => nomatch hmem
  | cons hscope _ ih => exact List.forall_mem_cons.mpr ⟨hscope.known, ih⟩

theorem forall₂_tail (h : List.Forall₂ (ScopeOk t) inner scopes) :
    List.Forall₂ (ScopeOk t) inner.tail scopes.tail := by
  cases h with
  | nil => exact .nil
  | cons _ hrest => exact hrest

theorem forall₂_extends (h : List.Forall₂ (ScopeOk t) inner scopes) (he : Extends t t') :
    List.Forall₂ (ScopeOk t') inner scopes :=
  h.imp fun _ _ hscope => hscope.extends he

include h

/-- The sorts of what the scopes above the global one know stay. -/
theorem Follows.sorts_extends (he : Extends s.table t') : ∀ scope ∈ s.table.inner, ∀ e ∈ scope.names,
      (t'.get e.2).sort = .variable ∨ (t'.get e.2).sort = .target := by
  intro scope hscope e hmem
  rw [he.sort e.2 (known_of_forall₂ h.inner scope hscope e hmem)]
  exact h.sorts scope hscope e hmem

theorem Follows.base_extends (he : Extends s.table t') :
    ∀ e ∈ s.table.global.names, (t'.get e.2).sort ≠ .target := by
  intro e hmem
  rw [he.sort e.2 (h.global.known e hmem)]
  exact h.base e hmem

/-- The innermost loop stays. -/
theorem Follows.round_extends (he : Extends s.table t') :
    ∀ id, s.table.inner.findSome? (·.names.lookup Lower.continueWord) = some id →
      (t'.get id).sort = .target → round = some (t'.get id).rid := by
  intro id hid hsort
  obtain ⟨scope, hscope, hlook⟩ := List.exists_of_findSome?_eq_some hid
  have hlt := known_of_forall₂ h.inner scope hscope _ (mem_of_lookup hlook)
  rw [he.sort id hlt] at hsort
  rw [he.rid id hlt]
  exact h.round id hid hsort

/-- Names mean the same while scopes stay as they are. -/
theorem Follows.of_extends (he : Extends s.table s'.table) (hinner : s'.table.inner = s.table.inner)
    (hglobal : s'.table.global.names = s.table.global.names)
    (hrids : s'.supply.rids = s.supply.rids) (hprocessing : s'.processing = s.processing) : Follows c round s' where
  inner := by
    rw [hinner]
    exact forall₂_extends h.inner he
  global := by
    have hg := h.global.extends he
    exact ⟨by rw [hglobal]; exact hg.known, by rw [hglobal]; exact hg.found,
      by rw [hglobal]; exact hg.only⟩
  kinds := by
    rw [hinner]
    exact h.kinds
  sorts := by
    rw [hinner]
    exact h.sorts_extends he
  base := by
    rw [hglobal]
    exact h.base_extends he
  numbers := h.numbers
  next := hrids.trans h.next
  processing := hprocessing.trans h.processing
  round := by
    rw [hinner]
    exact h.round_extends he

/-! ## Opening and closing scopes -/

theorem Follows.enter (hk : kind ≠ .function) (ht : s'.table = s.table.enter kind)
    (hsupply : s'.supply.rids = s.supply.rids) (hprocessing : s'.processing = s.processing) :
    Follows c.enter round s' := by
  have he : Extends s.table s'.table := by
    rw [ht]
    exact .of_eq rfl rfl
  have hinner : s'.table.inner = { kind } :: s.table.inner := by rw [ht]; rfl
  have hglobal : s'.table.global = s.table.global := by rw [ht]; rfl
  have empty : ScopeOk s'.table [] { kind } :=
    ⟨fun _ hmem => (nomatch hmem), fun _ _ hx => (nomatch hx), fun _ _ hx => (nomatch hx)⟩
  refine ⟨?_, ?_, ?_, ?_, ?_, ?_, hsupply.trans h.next, hprocessing.trans h.processing, ?_⟩
  · rw [hinner]
    exact .cons empty (forall₂_extends h.inner he)
  · rw [hglobal]
    exact h.global.extends he
  · rw [hinner]
    exact List.forall_mem_cons.mpr ⟨hk, h.kinds⟩
  · rw [hinner]
    exact List.forall_mem_cons.mpr ⟨fun _ hmem => (nomatch hmem), h.sorts_extends he⟩
  · rw [hglobal]
    exact h.base_extends he
  · intro names hnames
    rcases List.mem_cons.mp hnames with rfl | hnames
    · exact fun _ hmem => nomatch hmem
    · exact h.numbers names hnames
  · rw [hinner]
    exact h.round_extends he

/-- When a scope is closed, names mean what they meant around it. -/
theorem Follows.leave {c' : Scoping} {s'' : Lowering} (h' : Follows c' round' s')
    (hsame : SameScopes (s.table.enter kind) s'.table) (he : Extends s.table s'.table)
    (ht : s''.table = s'.table.leaveTo s.table.level) (hrids : s''.supply.rids = s'.supply.rids)
    (hprocessing : s''.processing = s.processing) : Follows c'.leave round s'' := by
  obtain ⟨hinner, hsymbols, hglobal, -⟩ := leaveTo_of_sameScopes hsame
  rw [← ht] at hinner hsymbols hglobal
  have hclose : Extends s'.table s''.table := .of_eq hsymbols (by rw [hglobal])
  have hwhole : Extends s.table s''.table := he.trans hclose
  have htail : s'.table.inner.tail = s.table.inner := hsame.outer
  refine ⟨?_, ?_, ?_, ?_, ?_, ?_, hrids.trans h'.next, hprocessing.trans h.processing, ?_⟩
  · rw [hinner, ← htail]
    exact forall₂_extends (forall₂_tail h'.inner) hclose
  · rw [hglobal]
    exact h'.global.extends hclose
  · rw [hinner]
    exact h.kinds
  · rw [hinner]
    exact h.sorts_extends hwhole
  · rw [hglobal]
    exact h'.base_extends hclose
  · intro names hnames
    refine h'.numbers names ?_
    rcases List.mem_append.mp hnames with hnames | hnames
    · exact List.mem_append_left _ (List.mem_of_mem_tail hnames)
    · exact List.mem_append_right _ hnames
  · rw [hinner]
    exact h.round_extends hwhole

omit h

/-! ## New entries -/

/-- A table with one more symbol, which some scope knows. -/
structure Adds (t : SymbolTable) (sym : Symbol) (t' : SymbolTable) : Prop where
  grows : Extends t t'
  known : t.symbols.size < t'.symbols.size
  sort : (t'.get t.symbols.size).sort = sym.sort
  rid : (t'.get t.symbols.size).rid = sym.rid

theorem adds_insertAt {level : Nat} (h : (t.add sym).2.insertAt level (t.add sym).1 = .ok t') : Adds t sym t' := by
  have heq := insertAt_eq h
  have hsymbols : t'.symbols =
      ((t.add sym).2.modify (t.add sym).1 fun s => { s with level }).symbols := by
    rw [heq]
    unfold mapScope
    split <;> rfl
  have hget : ∀ j, t'.get j = ((t.add sym).2.modify (t.add sym).1 fun s => { s with level }).get j :=
    fun j => by unfold SymbolTable.get; rw [hsymbols]
  have set := alike_setLevel (t.add sym).2 (t.add sym).1 level
  have alike : Alike (t.add sym).2 t' :=
    ⟨by rw [hsymbols]; exact set.size, fun j => by rw [hget]; exact set.rid j,
      fun j => by rw [hget]; exact set.sort j⟩
  have globals : (t.add sym).2.global.rids.map Prod.fst ⊆ t'.global.rids.map Prod.fst := by
    rw [heq]
    unfold mapScope
    split
    · exact keys_subset_putEntry _ _ _
    · exact List.Subset.refl _
  refine ⟨(extends_add t sym).trans (.of_alike alike globals), ?_, ?_, ?_⟩
  · rw [alike.size, size_add]
    exact Nat.lt_succ_self _
  · rw [alike.sort, get_add_self]
  · rw [alike.rid, get_add_self]

/-- A new entry of the global scope. -/
theorem scopes_of_insertGlobal (h : (t.add sym).2.insertGlobal (t.add sym).1 = .ok t') :
    t'.inner = t.inner ∧ t'.global.names = putEntry sym.name t.symbols.size t.global.names := by
  have heq := insertAt_eq h
  rw [get_add_new] at heq
  unfold mapScope at heq
  rw [if_pos rfl] at heq
  rw [heq]
  exact ⟨rfl, rfl⟩

/-- A new entry of the innermost scope. -/
theorem scopes_of_insert (hinner : t.inner = top :: rest) (h : (t.add sym).2.insert (t.add sym).1 = .ok t') :
    t'.inner = entered sym t.symbols.size top :: rest ∧ t'.global = t.global ∧
      (sym.name ≠ discardName → top.names.lookup sym.name = none) := by
  have heq := insertAt_eq h
  have hlevel : (t.add sym).2.level = rest.length + 1 := by
    unfold level
    rw [show (t.add sym).2.inner = top :: rest from hinner, List.length_cons]
  have hmodify : ((t.add sym).2.modify (t.add sym).1
      fun s => { s with level := (t.add sym).2.level }).inner = top :: rest := hinner
  rw [get_add_new] at heq
  unfold mapScope at heq
  rw [if_neg (by omega), show ((t.add sym).2.modify (t.add sym).1
    fun s => { s with level := (t.add sym).2.level }).level - (t.add sym).2.level = 0
    from Nat.sub_self _, hmodify, List.modify_zero_cons] at heq
  refine ⟨by rw [heq]; rfl, by rw [heq]; rfl, fun hname => ?_⟩
  have hscope : (t.add sym).2.scopeAt (t.add sym).2.level = top := by
    unfold scopeAt
    rw [Nat.sub_self, List.drop_zero, show (t.add sym).2.inner = top :: rest from hinner]
    rfl
  unfold SymbolTable.insert insertAt at h
  simp only [get_add_new, hscope, beq_iff_eq, hname, if_false] at h
  split at h
  · cases h
  · assumption

include h

/-- A new variable of the global scope. -/
theorem Follows.defineGlobal (hsort : sym.sort = .variable) (hrid : sym.rid = (c.fresh sym.name).rid)
    (hi : (s.table.add sym).2.insertGlobal (s.table.add sym).1 = .ok s'.table)
    (hrids : s'.supply.rids = s.supply.rids + 1) (hprocessing : s'.processing = s.processing) :
    Follows { c with global := (sym.name, c.next) :: c.global, next := c.next + 1 } round s' ∧
      SameScopes s.table s'.table := by
  have adds := adds_insertAt hi
  obtain ⟨hinner, hnames⟩ := scopes_of_insertGlobal hi
  have numbers : ∀ names ∈ c.inner ++ [c.global], ∀ e ∈ names, e.2 < c.next + 1 :=
    fun names hnames e hmem => (h.numbers names hnames e hmem).trans (Nat.lt_succ_self _)
  refine ⟨⟨?_, ?_, ?_, ?_, ?_, ?_, by rw [hrids, h.next], hprocessing.trans h.processing, ?_⟩, .of_eq hinner⟩
  · rw [hinner]
    exact forall₂_extends h.inner adds.grows
  · exact (h.global.extends adds.grows).define adds.known (adds.sort.trans hsort)
      (adds.rid.trans hrid) hnames
  · rw [hinner]
    exact h.kinds
  · rw [hinner]
    exact h.sorts_extends adds.grows
  · intro e hmem
    rw [hnames] at hmem
    rcases mem_putEntry hmem with rfl | hmem
    · rw [adds.sort, hsort]
      exact fun e => nomatch e
    · exact h.base_extends adds.grows e hmem
  · intro names hmem
    rcases List.mem_append.mp hmem with hmem | hmem
    · exact numbers names (List.mem_append_left _ hmem)
    · rw [List.mem_singleton.mp hmem]
      exact List.forall_mem_cons.mpr ⟨Nat.lt_succ_self _, numbers _ (List.mem_append_right _ List.mem_cons_self)⟩
  · rw [hinner]
    exact h.round_extends adds.grows

/-- A new entry of the innermost scope, which may be a variable or a label. -/
theorem Follows.insertTop {names' : Names} {outer : List Names} {next : Nat} (hc : c.inner = names :: outer)
    (hinner : s.table.inner = top :: rest) (hi : (s.table.add sym).2.insert (s.table.add sym).1 = .ok s'.table)
    (hsort : sym.sort = .variable ∨ sym.sort = .target)
    (hscope : ScopeOk s'.table names' (entered sym s.table.symbols.size top)) (hnumbers : ∀ e ∈ names', e.2 < next)
    (hle : c.next ≤ next) (hrids : s'.supply.rids = next) (hprocessing : s'.processing = s.processing)
    (hround : ∀ id, (entered sym s.table.symbols.size top :: rest).findSome?
      (·.names.lookup Lower.continueWord) = some id → (s'.table.get id).sort = .target →
        round' = some (s'.table.get id).rid) : Follows { c with inner := names' :: outer, next } round' s' ∧
      SameScopes s.table s'.table := by
  have adds := adds_insertAt hi
  obtain ⟨hinner', hglobal, -⟩ := scopes_of_insert hinner hi
  have old := h.inner
  rw [hc, hinner] at old
  have kinds := h.kinds
  rw [hinner] at kinds
  have sorts := h.sorts_extends adds.grows
  rw [hinner] at sorts
  have numbers : ∀ names ∈ c.inner ++ [c.global], ∀ e ∈ names, e.2 < next :=
    fun names hnames e hmem => (h.numbers names hnames e hmem).trans_le hle
  rw [hc] at numbers
  refine ⟨⟨?_, ?_, ?_, ?_, ?_, ?_, hrids, hprocessing.trans h.processing, ?_⟩, ?_⟩
  · rw [hinner']
    exact .cons hscope (forall₂_extends (forall₂_tail old) adds.grows)
  · rw [hglobal]
    exact h.global.extends adds.grows
  · rw [hinner']
    exact List.forall_mem_cons.mpr ⟨kinds top List.mem_cons_self,
      fun scope hscope => kinds scope (List.mem_cons_of_mem _ hscope)⟩
  · rw [hinner']
    refine List.forall_mem_cons.mpr ⟨fun e hmem => ?_,
      fun scope hscope => sorts scope (List.mem_cons_of_mem _ hscope)⟩
    rcases mem_putEntry hmem with rfl | hmem
    · rw [adds.sort]
      exact hsort
    · exact sorts top List.mem_cons_self e hmem
  · rw [hglobal]
    exact h.base_extends adds.grows
  · exact List.forall_mem_cons.mpr ⟨hnumbers, fun names hnames => numbers names (List.mem_cons_of_mem _ hnames)⟩
  · rw [hinner']
    exact hround
  · constructor
    · rw [hinner', hinner]
      rfl
    · rw [hinner', hinner]
      rfl

/-- A variable is defined; its raw id has the number of the definition. -/
theorem Follows.define {global : Bool} (hsort : sym.sort = .variable) (hrid : sym.rid = (c.fresh sym.name).rid)
    (hi : (if global then (s.table.add sym).2.insertGlobal (s.table.add sym).1
      else (s.table.add sym).2.insert (s.table.add sym).1) = .ok s'.table)
    (hrids : s'.supply.rids = s.supply.rids + 1) (hprocessing : s'.processing = s.processing) :
    Follows (c.define global sym.name) round s' ∧ SameScopes s.table s'.table := by
  cases global with
  | true =>
    have hc : c.define true sym.name =
        { c with global := (sym.name, c.next) :: c.global, next := c.next + 1 } := by
      unfold Scoping.define
      rfl
    rw [hc]
    exact h.defineGlobal hsort hrid hi hrids hprocessing
  | false =>
    cases hinner : s.table.inner with
    | nil =>
      have none : c.inner = [] := by
        have old := h.inner
        rw [hinner] at old
        exact List.forall₂_nil_right_iff.mp old
      have hc : c.define false sym.name =
          { c with global := (sym.name, c.next) :: c.global, next := c.next + 1 } := by
        unfold Scoping.define
        rw [none]
      have hlevel : (s.table.add sym).2.level = 0 := by
        unfold level
        rw [show (s.table.add sym).2.inner = [] from hinner]
        rfl
      have hi : (s.table.add sym).2.insert (s.table.add sym).1 = .ok s'.table := hi
      unfold SymbolTable.insert at hi
      rw [hlevel] at hi
      rw [hc]
      exact h.defineGlobal hsort hrid hi hrids hprocessing
    | cons top rest =>
      have old := h.inner
      rw [hinner] at old
      obtain ⟨names, outer, hscope, -, hc⟩ := List.forall₂_cons_right_iff.mp old
      have adds := adds_insertAt hi
      have defined : c.define false sym.name =
          { c with inner := ((sym.name, c.next) :: names) :: outer, next := c.next + 1 } := by
        unfold Scoping.define
        rw [hc]
      have numbers := h.numbers names (by rw [hc]; exact List.mem_cons_self)
      rw [defined]
      refine h.insertTop hc hinner hi (Or.inl hsort) ?_ ?_ (Nat.le_succ _)
        (by rw [hrids, h.next]) hprocessing ?_
      · exact (hscope.extends adds.grows).define adds.known (adds.sort.trans hsort)
          (adds.rid.trans hrid) rfl
      · exact List.forall_mem_cons.mpr ⟨Nat.lt_succ_self _,
          fun e hmem => (numbers e hmem).trans (Nat.lt_succ_self _)⟩
      · intro id hid hlabel
        have rounds := h.round_extends adds.grows id
        rw [hinner] at rounds
        simp only [List.findSome?_cons, entered, lookup_putEntry] at hid rounds
        by_cases hname : Lower.continueWord = sym.name
        · -- a variable of that name is no label
          rw [if_pos hname] at hid
          cases hid
          rw [adds.sort, hsort] at hlabel
          exact nomatch hlabel
        · rw [if_neg hname] at hid
          exact rounds hid hlabel

/-- The label of the end of a loop, or of its next round, is entered in the scope of the loop. -/
theorem Follows.target (hsort : sym.sort = .target) (hinner : s.table.inner ≠ []) (hname : sym.name ≠ discardName)
    (hi : (s.table.add sym).2.insert (s.table.add sym).1 = .ok s'.table)
    (hrids : s'.supply.rids = s.supply.rids) (hprocessing : s'.processing = s.processing) :
    Follows c (if sym.name = Lower.continueWord then some sym.rid else round) s' ∧ SameScopes s.table s'.table := by
  obtain ⟨top, rest, hinner⟩ := List.exists_cons_of_ne_nil hinner
  have old := h.inner
  rw [hinner] at old
  obtain ⟨names, outer, hscope, -, hc⟩ := List.forall₂_cons_right_iff.mp old
  have adds := adds_insertAt hi
  have free := (scopes_of_insert hinner hi).2.2 hname
  have same : c = { c with inner := names :: outer, next := c.next } := by rw [← hc]
  rw [same]
  refine h.insertTop hc hinner hi (Or.inr hsort) ?_
    (h.numbers names (by rw [hc]; exact List.mem_cons_self)) (le_refl _) (hrids.trans h.next)
    hprocessing ?_
  · exact (hscope.extends adds.grows).target adds.known (adds.sort.trans hsort) free rfl
  · intro id hid hlabel
    have rounds := h.round_extends adds.grows id
    rw [hinner] at rounds
    simp only [List.findSome?_cons, entered, lookup_putEntry] at hid rounds
    by_cases hword : sym.name = Lower.continueWord
    · rw [if_pos hword.symm] at hid
      cases hid
      rw [if_pos hword, adds.rid]
    · rw [if_neg (Ne.symm hword)] at hid
      rw [if_neg hword]
      exact rounds hid hlabel

end

end Frontend.Meaning
