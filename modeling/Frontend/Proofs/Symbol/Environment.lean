import Frontend.Proofs.Binding.Store

/-!
# Symbol tables as stacks of environments

An environment is nothing but the list of the symbols that were inserted in it. A symbol table answers what a
stack of environments answers: the two indexes of a scope, the levels that are written into symbols and the
rights to close scopes never get out of step, whatever is opened, inserted and closed.
-/

namespace Frontend

variable {n : Nat} {move : ScopeMove} {moves : List ScopeMove}
variable {α : Type} {envs : List Environment} {n' : Nat}

/-- The symbols of an open scope, the one that was inserted last first. -/
structure Environment where
  kind : ScopeKind
  symbols : List Symbol := []

/-- A stack of environments. -/
structure Environments where
  global : Environment := { kind := .global }
  /-- The environments above the global one, innermost first. -/
  inner : List Environment := []

/-- What is done to the scopes of a table. -/
inductive ScopeMove where
  | enter (kind : ScopeKind)
  /-- An open scope is closed with all scopes in it, of which there are `n`. -/
  | release (n : Nat)
  | insert (s : Symbol)
  | insertGlobal (s : Symbol)

/-! ## Stacks of environments -/

namespace Environment

/-- A symbol may be inserted if its name is free or may be defined again. -/
def Admits (e : Environment) (s : Symbol) : Prop :=
  s.name = discardName ∨ ∀ old ∈ e.symbols, old.name ≠ s.name

instance (e : Environment) (s : Symbol) : Decidable (e.Admits s) :=
  inferInstanceAs (Decidable (_ ∨ ∀ old ∈ e.symbols, old.name ≠ s.name))

/-- Inserts a symbol, which takes the level of the environment. -/
def insert (e : Environment) (level : Nat) (s : Symbol) : Environment :=
  if e.Admits s then { e with symbols := { s with level } :: e.symbols } else e

end Environment

namespace Environments

/-- The index of the innermost environment. -/
def level (es : Environments) : Nat := es.inner.length

/-- All environments, innermost first. -/
def stack (es : Environments) : List Environment := es.inner ++ [es.global]

def top (es : Environments) : Environment := es.inner.headD es.global

/-- The environments whose index is not above a ceiling; all of them when no environment has that index. -/
def upTo (es : Environments) : Option Int → List Environment
  | none => es.stack
  | some c => if 0 ≤ c ∧ c ≤ es.level then es.stack.drop (es.level - c.toNat) else es.stack

/-- The symbol that was inserted last, in the highest environment that has one, among those that are meant. -/
def find? (es : Environments) (meant : Symbol → Bool) (ceiling : Option Int) : Option Symbol :=
  (es.upTo ceiling).findSome? (·.symbols.find? meant)

/-- A variable or parameter above the global environment and below the innermost function. -/
def Captured (es : Environments) (s : Symbol) : Prop :=
  s.var?.isSome = true ∧ 0 < s.level ∧
    ∃ i e, es.inner[i]? = some e ∧ e.kind = .function ∧ s.level < es.level - i

def insertGlobal (es : Environments) (s : Symbol) : Environments := { es with global := es.global.insert 0 s }

/-- Inserts a symbol in the innermost environment. -/
def insert (es : Environments) (s : Symbol) : Environments :=
  match es.inner with
  | [] => es.insertGlobal s
  | e :: rest => { es with inner := e.insert es.level s :: rest }

/-- What is done, done to environments. -/
def perform (es : Environments) : ScopeMove → Environments
  | .enter kind => { es with inner := { kind } :: es.inner }
  | .release n => if n < es.level then { es with inner := es.inner.drop (n + 1) } else es
  | .insert s => es.insert s
  | .insertGlobal s => es.insertGlobal s

/-- Does one thing after the other. -/
def run (es : Environments) (moves : List ScopeMove) : Environments := moves.foldl perform es

theorem insertGlobal_of_not_admits {es : Environments} {s : Symbol} (h : ¬ es.global.Admits s) :
    es.insertGlobal s = es := by
  unfold insertGlobal Environment.insert
  rw [if_neg h]

theorem insert_of_not_admits {es : Environments} {s : Symbol} (h : ¬ es.top.Admits s) : es.insert s = es := by
  obtain ⟨global, inner⟩ := es
  cases inner with
  | nil => exact insertGlobal_of_not_admits h
  | cons e rest =>
    unfold insert Environment.insert
    dsimp only
    rw [if_neg (show ¬ e.Admits s from h)]

end Environments

/-! ## Tables with the rights to close their scopes -/

/-- A symbol table with the rights that were given for its open scopes, innermost first. -/
structure GuardedTable where
  table : SymbolTable := {}
  guards : List SymbolTable.Guard := []

namespace GuardedTable

/-- Inserts a new symbol; if it is refused, no name stands for it. -/
def insert (w : GuardedTable) (s : Symbol) : Except Diagnostic SymbolTable :=
  (w.table.add s).2.insert (w.table.add s).1

/-- Inserts a new symbol in the global scope. -/
def insertGlobal (w : GuardedTable) (s : Symbol) : Except Diagnostic SymbolTable :=
  (w.table.add s).2.insertGlobal (w.table.add s).1

/-- What is done, done to a table. A right that is used takes the rights for the inner scopes with it. -/
def perform (w : GuardedTable) : ScopeMove → GuardedTable
  | .enter kind =>
    let (guard, table) := w.table.openScope kind
    { table, guards := guard :: w.guards }
  | .release n =>
    match w.guards[n]? with
    | none => w
    | some guard => { table := (w.table.closeScope guard).2, guards := w.guards.drop (n + 1) }
  | .insert s => { w with table := (w.insert s).toOption.getD (w.table.add s).2 }
  | .insertGlobal s => { w with table := (w.insertGlobal s).toOption.getD (w.table.add s).2 }

/-- Does one thing after the other. -/
def run (w : GuardedTable) (moves : List ScopeMove) : GuardedTable := moves.foldl perform w

end GuardedTable

/-! ## Scopes that mirror environments -/

/-- If one function gives on a list what another one gives on a second list, so do their first results. -/
theorem map_findSome?_of_forall₂ {β γ δ : Type} {f : α → Option γ} {g : β → Option δ} {view : γ → δ} {as : List α}
    {bs : List β} (h : List.Forall₂ (fun a b => (f a).map view = g b) as bs) :
    (as.findSome? f).map view = bs.findSome? g := by
  induction h with
  | nil => rfl
  | @cons a b as bs hab _ ih =>
    rw [List.findSome?_cons, List.findSome?_cons, ← hab]
    cases f a with
    | none => exact ih
    | some x => rfl

/-- What is left of a list from the first element on that passes a test is long when that element stands far
in front. -/
theorem lt_length_dropWhile {p : α → Bool} {xs : List α} :
    n < (xs.dropWhile fun x => !p x).length ↔ ∃ i x, xs[i]? = some x ∧ p x = true ∧ n < xs.length - i := by
  induction xs with
  | nil => simp
  | cons x xs ih =>
    by_cases hx : p x = true
    · rw [List.dropWhile_cons_of_neg (by simp [hx])]
      refine ⟨fun h => ⟨0, x, rfl, hx, h⟩, ?_⟩
      rintro ⟨i, -, -, -, h⟩
      omega
    · rw [List.dropWhile_cons_of_pos (by simp [hx]), ih]
      constructor
      · rintro ⟨i, y, hy, hp, h⟩
        exact ⟨i + 1, y, hy, hp, by rw [List.length_cons]; omega⟩
      · rintro ⟨i, y, hy, hp, h⟩
        cases i with
        | zero =>
          obtain rfl : x = y := by simpa using hy
          exact absurd hp hx
        | succ i => exact ⟨i, y, by simpa using hy, hp, by rw [List.length_cons] at h; omega⟩

namespace SymbolTable

/-- Both indexes of a scope give what an environment holds, and all symbols have the level of the scope. -/
structure Mirrors (t : SymbolTable) (level : Nat) (scope : Scope) (e : Environment) : Prop where
  kind : scope.kind = e.kind
  name : ∀ name, (scope.names.lookup name).map t.get = e.symbols.find? (·.name == name)
  rid : ∀ rid, (scope.rids.lookup rid).map t.get = e.symbols.find? (·.rid == rid)
  stored : ∀ entry ∈ scope.names ++ scope.rids, entry.2 < t.symbols.size ∧ t.get entry.2 ∈ e.symbols
  level : ∀ s ∈ e.symbols, s.level = level

/-- The scopes above the global one mirror the environments above the global one. -/
inductive MirrorsAll (t : SymbolTable) : List Scope → List Environment → Prop
  | nil : MirrorsAll t [] []
  | cons {scope : Scope} {e : Environment} {scopes : List Scope} {es : List Environment} :
    Mirrors t (es.length + 1) scope e → MirrorsAll t scopes es → MirrorsAll t (scope :: scopes) (e :: es)

/-- A table that came out of another one: symbols stay as they are. -/
structure KeepsSymbols (t t' : SymbolTable) : Prop where
  size : t.symbols.size ≤ t'.symbols.size
  get : ∀ id < t.symbols.size, t'.get id = t.get id

variable {t t' : SymbolTable} {s : Symbol} {scope : Scope} {e : Environment} {level : Nat}
  {scopes : List Scope} {es : List Environment}

theorem Mirrors.empty (t : SymbolTable) (level : Nat) (kind : ScopeKind) : Mirrors t level { kind } { kind } where
  kind := rfl
  name _ := rfl
  rid _ := rfl
  stored _ h := absurd h List.not_mem_nil
  level _ h := absurd h List.not_mem_nil

/-- What is found under a key is the same as long as the symbols stay. -/
theorem KeepsSymbols.map_lookup (h : KeepsSymbols t t') {entries : List (String × SymbolId)}
    (hsize : ∀ entry ∈ entries, entry.2 < t.symbols.size) (key : String) :
    (entries.lookup key).map t'.get = (entries.lookup key).map t.get := by
  cases hl : entries.lookup key with
  | none => rfl
  | some id => exact congrArg some (h.get id (hsize _ (mem_of_lookup hl)))

theorem Mirrors.keep (h : Mirrors t level scope e) (hk : KeepsSymbols t t') : Mirrors t' level scope e where
  kind := h.kind
  name name := by
    rw [hk.map_lookup fun entry he => (h.stored entry (List.mem_append_left _ he)).1]
    exact h.name name
  rid rid := by
    rw [hk.map_lookup fun entry he => (h.stored entry (List.mem_append_right _ he)).1]
    exact h.rid rid
  stored entry he := by
    obtain ⟨hlt, hmem⟩ := h.stored entry he
    exact ⟨Nat.lt_of_lt_of_le hlt hk.size, by rw [hk.get _ hlt]; exact hmem⟩
  level := h.level

theorem MirrorsAll.keep (h : MirrorsAll t scopes es) (hk : KeepsSymbols t t') : MirrorsAll t' scopes es := by
  induction h with
  | nil => exact .nil
  | cons hfirst _ ih => exact .cons (hfirst.keep hk) ih

theorem MirrorsAll.length_eq (h : MirrorsAll t scopes es) : scopes.length = es.length := by
  induction h with
  | nil => rfl
  | cons _ _ ih => exact congrArg (· + 1) ih

theorem MirrorsAll.drop (h : MirrorsAll t scopes es) (n : Nat) : MirrorsAll t (scopes.drop n) (es.drop n) := by
  induction h generalizing n with
  | nil =>
    rw [List.drop_nil, List.drop_nil]
    exact .nil
  | cons hfirst hrest ih =>
    cases n with
    | zero => exact .cons hfirst hrest
    | succ n => exact ih n

/-- A name that is free in the environment is free in the scope. -/
theorem Mirrors.admits_iff (h : Mirrors t level scope e) :
    e.Admits s ↔ s.name = discardName ∨ scope.names.lookup s.name = none := by
  refine or_congr Iff.rfl ?_
  rw [← Option.map_eq_none_iff (f := t.get), h.name, List.find?_eq_none]
  simp

/-- The new symbol takes its place in both indexes. -/
theorem Mirrors.entered (h : Mirrors t level scope e) (hk : KeepsSymbols t t')
    (hsize : t.symbols.size < t'.symbols.size) (hnew : t'.get t.symbols.size = { s with level }) :
    Mirrors t' level (entered s t.symbols.size scope) { e with symbols := { s with level } :: e.symbols } := by
  have hkept := h.keep hk
  refine ⟨h.kind, fun name => ?_, fun rid => ?_, fun entry he => ?_, ?_⟩
  · unfold SymbolTable.entered
    dsimp only
    rw [lookup_putEntry, List.find?_cons]
    by_cases hname : name = s.name
    · rw [if_pos hname, Option.map_some, hnew, beq_iff_eq.mpr hname.symm]
    · rw [if_neg hname, hkept.name, beq_eq_false_iff_ne.mpr fun e => hname e.symm]
  · unfold SymbolTable.entered
    dsimp only
    rw [lookup_putEntry, List.find?_cons]
    by_cases hrid : rid = s.rid
    · rw [if_pos hrid, Option.map_some, hnew, beq_iff_eq.mpr hrid.symm]
    · rw [if_neg hrid, hkept.rid, beq_eq_false_iff_ne.mpr fun e => hrid e.symm]
  · have hentry : entry.2 = t.symbols.size ∨ entry ∈ scope.names ++ scope.rids := by
      rcases List.mem_append.mp he with he | he
      · rcases mem_putEntry he with rfl | he
        · exact .inl rfl
        · exact .inr (List.mem_append_left _ he)
      · rcases mem_putEntry he with rfl | he
        · exact .inl rfl
        · exact .inr (List.mem_append_right _ he)
    rcases hentry with hself | hold
    · rw [hself, hnew]
      exact ⟨hsize, List.mem_cons_self⟩
    · obtain ⟨hlt, hmem⟩ := hkept.stored entry hold
      exact ⟨hlt, List.mem_cons_of_mem _ hmem⟩
  · intro sym hsym
    rcases List.mem_cons.mp hsym with rfl | hsym
    · rfl
    · exact h.level sym hsym

/-! ## Insertions -/

/-- Whether the symbol can be inserted in the scope of a level. -/
def Free (t : SymbolTable) (level : Nat) (s : Symbol) : Prop :=
  s.name = discardName ∨ (t.scopeAt level).names.lookup s.name = none

/-- An insertion succeeds if the name is free, and it is all that is done. -/
theorem insertAt_of_free (h : Free t level s) : ∃ t', (t.add s).2.insertAt level (t.add s).1 = .ok t' := by
  have hnone : (if s.name == discardName then none else ((t.add s).2.scopeAt level).names.lookup s.name) = none := by
    rcases h with hname | hlookup
    · exact if_pos (beq_iff_eq.mpr hname)
    · exact ite_eq_left_iff.mpr fun _ => hlookup
  unfold insertAt
  simp only [get_add_new]
  rw [hnone]
  exact ⟨_, rfl⟩

theorem insertAt_of_not_free (h : ¬ Free t level s) : ∃ d, (t.add s).2.insertAt level (t.add s).1 = .error d := by
  obtain ⟨hname, hlookup⟩ := not_or.mp h
  obtain ⟨old, hold⟩ := Option.ne_none_iff_exists'.mp hlookup
  refine ⟨duplicate s ((t.add s).2.get old), ?_⟩
  unfold insertAt
  simp only [get_add_new]
  rw [if_neg (by simpa using hname), show ((t.add s).2.scopeAt level).names.lookup s.name = some old from hold]

/-- The insertion keeps the old symbols and gives the new one its level. -/
theorem keeps_insertAt (h : (t.add s).2.insertAt level (t.add s).1 = .ok t') :
    KeepsSymbols t t' ∧ t.symbols.size < t'.symbols.size ∧ t'.get t.symbols.size = { s with level } := by
  obtain ⟨hold, hnew, hsize⟩ := get_insertAt h
  exact ⟨⟨by omega, hold⟩, by omega, hnew⟩

theorem keeps_add (t : SymbolTable) (s : Symbol) : KeepsSymbols t (t.add s).2 :=
  ⟨by rw [size_add]; omega, fun _ h => get_add_of_lt t s h⟩

theorem scopes_leaveTo (t : SymbolTable) (level : Nat) :
    (t.leaveTo level).inner = t.inner.drop (t.level - level) ∧ (t.leaveTo level).global = t.global := by
  have many : ∀ (n : Nat) (t : SymbolTable),
      (exitMany n t).inner = t.inner.drop n ∧ (exitMany n t).global = t.global := by
    intro n
    induction n with
    | zero => exact fun t => ⟨rfl, rfl⟩
    | succ n ih =>
      intro t
      obtain ⟨hinner, hglobal⟩ := ih t.exit
      unfold exitMany
      rw [hinner, hglobal]
      unfold exit
      cases ht : t.inner with
      | nil => exact ⟨by rw [ht, List.drop_nil, List.drop_nil], rfl⟩
      | cons first rest => exact ⟨rfl, rfl⟩
  exact many _ t

/-- The rights for all scopes up to a level, innermost first. None of them is spent. -/
def rights : Nat → List Guard
  | 0 => []
  | level + 1 => { level } :: rights level

theorem length_rights (level : Nat) : (rights level).length = level := by
  induction level with
  | zero => rfl
  | succ level ih => exact congrArg (· + 1) ih

theorem drop_rights (level n : Nat) : (rights level).drop n = rights (level - n) := by
  induction n generalizing level with
  | zero => rfl
  | succ n ih =>
    cases level with
    | zero => rw [Nat.zero_sub]; rfl
    | succ level => rw [Nat.succ_sub_succ]; exact ih level

theorem getElem?_rights (h : n < level) : (rights level)[n]? = some { level := level - (n + 1) } := by
  induction n generalizing level with
  | zero =>
    cases level with
    | zero => exact absurd h (Nat.lt_irrefl 0)
    | succ level => rfl
  | succ n ih =>
    cases level with
    | zero => exact absurd h (Nat.not_lt_zero _)
    | succ level =>
      rw [Nat.succ_sub_succ]
      exact ih (Nat.lt_of_succ_lt_succ h)

end SymbolTable

namespace GuardedTable

open SymbolTable

/-- A table that mirrors a stack of environments, with an unspent right for each of its scopes. -/
structure Represents (w : GuardedTable) (es : Environments) : Prop where
  global : Mirrors w.table 0 w.table.global es.global
  inner : MirrorsAll w.table w.table.inner es.inner
  guards : w.guards = rights w.table.level

variable {w : GuardedTable} {es : Environments} {s : Symbol}

section
variable (h : Represents w es)
include h

theorem Represents.level_eq : w.table.level = es.level := h.inner.length_eq

theorem Represents.free_global_iff : Free w.table 0 s ↔ es.global.Admits s := by
  have hscope : w.table.scopeAt 0 = w.table.global := by
    unfold scopeAt
    rw [Nat.sub_zero, SymbolTable.level, List.drop_length, List.headD_nil]
  unfold Free
  rw [hscope, h.global.admits_iff]

theorem Represents.free_top_iff : Free w.table w.table.level s ↔ es.top.Admits s := by
  have hscope : w.table.scopeAt w.table.level = w.table.inner.headD w.table.global := by
    unfold scopeAt
    rw [Nat.sub_self, List.drop_zero]
  unfold Free
  rw [hscope, Environments.top]
  have hglobal := h.global
  have hinner := h.inner
  generalize w.table.inner = scopes at hinner ⊢
  generalize es.inner = envs at hinner ⊢
  cases hinner with
  | nil => rw [List.headD_nil, List.headD_nil, hglobal.admits_iff]
  | cons hfirst _ => rw [List.headD_cons, List.headD_cons, hfirst.admits_iff]

theorem Represents.insert_of_admits (hs : es.top.Admits s) : ∃ t', w.insert s = .ok t' :=
  insertAt_of_free (h.free_top_iff.mpr hs)

theorem Represents.insert_of_not_admits (hs : ¬ es.top.Admits s) : ∃ d, w.insert s = .error d :=
  insertAt_of_not_free fun hfree => hs (h.free_top_iff.mp hfree)

theorem Represents.insertGlobal_of_admits (hs : es.global.Admits s) : ∃ t', w.insertGlobal s = .ok t' :=
  insertAt_of_free (h.free_global_iff.mpr hs)

theorem Represents.insertGlobal_of_not_admits (hs : ¬ es.global.Admits s) : ∃ d, w.insertGlobal s = .error d :=
  insertAt_of_not_free fun hfree => hs (h.free_global_iff.mp hfree)

/-- A symbol that is refused changes nothing that is represented. -/
theorem Represents.keep {t' : SymbolTable} (hk : KeepsSymbols w.table t')
    (hinner : t'.inner = w.table.inner) (hglobal : t'.global = w.table.global) :
    Represents { w with table := t' } es where
  global := by
    rw [hglobal]
    exact h.global.keep hk
  inner := by
    rw [hinner]
    exact h.inner.keep hk
  guards := by
    rw [SymbolTable.level, hinner]
    exact h.guards

theorem Represents.insertGlobal {t' : SymbolTable} (hadmits : es.global.Admits s)
    (hi : w.insertGlobal s = .ok t') : Represents { w with table := t' } (es.insertGlobal s) := by
  obtain ⟨hk, hsize, hnew⟩ := keeps_insertAt hi
  have heq := insertAt_eq hi
  rw [get_add_new] at heq
  unfold mapScope at heq
  rw [if_pos rfl] at heq
  have hinner : t'.inner = w.table.inner := by rw [heq]; rfl
  have hglobal : t'.global = entered s w.table.symbols.size w.table.global := by rw [heq]; rfl
  unfold Environments.insertGlobal Environment.insert
  rw [if_pos hadmits]
  refine ⟨?_, ?_, ?_⟩
  · rw [hglobal]
    exact h.global.entered hk hsize hnew
  · rw [hinner]
    exact h.inner.keep hk
  · rw [SymbolTable.level, hinner]
    exact h.guards

theorem Represents.insert {t' : SymbolTable} (hadmits : es.top.Admits s)
    (hi : w.insert s = .ok t') : Represents { w with table := t' } (es.insert s) := by
  have hinner := h.inner
  unfold Environments.top at hadmits
  unfold Environments.insert
  cases hes : es.inner with
  | nil =>
    -- the innermost scope is the global one
    have hlevel : w.table.level = 0 := by rw [h.level_eq, Environments.level, hes]; rfl
    rw [hes] at hadmits
    refine h.insertGlobal hadmits ?_
    unfold GuardedTable.insert SymbolTable.insert at hi
    rwa [show (w.table.add s).2.level = w.table.level from rfl, hlevel] at hi
  | cons e rest =>
    obtain ⟨hk, hsize, hnew⟩ := keeps_insertAt hi
    rw [hes] at hinner hadmits
    generalize hscopes : w.table.inner = scopes at hinner
    cases hinner with
    | @cons scope _ scopes _ hfirst hrest =>
      obtain ⟨hinner', hglobal', -⟩ := Meaning.scopes_of_insert hscopes hi
      have hlevel : (w.table.add s).2.level = rest.length + 1 := by
        rw [show (w.table.add s).2.level = w.table.level from rfl, h.level_eq, Environments.level, hes,
          List.length_cons]
      rw [hlevel] at hnew
      dsimp only
      rw [Environment.insert, if_pos (show e.Admits s from hadmits), Environments.level, hes]
      refine ⟨?_, ?_, ?_⟩
      · rw [hglobal']
        exact h.global.keep hk
      · rw [hinner']
        exact .cons (hfirst.entered hk hsize hnew) (hrest.keep hk)
      · rw [SymbolTable.level, hinner', h.guards, SymbolTable.level, hscopes]
        rfl

theorem Represents.release (hn : n < es.level) :
    Represents { table := w.table.leaveTo (w.table.level - (n + 1)), guards := w.guards.drop (n + 1) }
      { es with inner := es.inner.drop (n + 1) } := by
  have hlevel := h.level_eq
  obtain ⟨hinner, hglobal⟩ := scopes_leaveTo w.table (w.table.level - (n + 1))
  have hsymbols := Course.symbols_leaveTo w.table (w.table.level - (n + 1))
  have hk : KeepsSymbols w.table (w.table.leaveTo (w.table.level - (n + 1))) :=
    ⟨by rw [hsymbols], fun id _ => by rw [SymbolTable.get, hsymbols]; rfl⟩
  rw [show w.table.level - (w.table.level - (n + 1)) = n + 1 by omega] at hinner
  refine ⟨?_, ?_, ?_⟩
  · rw [hglobal]
    exact h.global.keep hk
  · rw [hinner]
    exact (h.inner.drop (n + 1)).keep hk
  · have hlen : (w.table.leaveTo (w.table.level - (n + 1))).level = w.table.level - (n + 1) := by
      rw [SymbolTable.level, hinner, List.length_drop]
      rfl
    rw [h.guards, drop_rights]
    exact congrArg rights hlen.symm

/-- Whatever is done to the table is done to the environments. -/
theorem Represents.perform (move : ScopeMove) : Represents (w.perform move) (es.perform move) := by
  cases move with
  | enter kind =>
    have hk : KeepsSymbols w.table (w.table.enter kind) := ⟨le_refl _, fun _ _ => rfl⟩
    exact ⟨h.global.keep hk, .cons (.empty _ _ kind) (h.inner.keep hk), congrArg (_ :: ·) h.guards⟩
  | release n =>
    dsimp only [GuardedTable.perform, Environments.perform]
    by_cases hn : n < es.level
    · rw [if_pos hn, h.guards, getElem?_rights (by rw [h.level_eq]; exact hn), ← h.guards]
      exact h.release hn
    · have hnone : w.guards[n]? = none := by
        rw [h.guards]
        exact List.getElem?_eq_none (by rw [length_rights, h.level_eq]; omega)
      rw [if_neg hn, hnone]
      exact h
  | insert s =>
    dsimp only [GuardedTable.perform, Environments.perform]
    by_cases hadmits : es.top.Admits s
    · obtain ⟨t', hi⟩ := h.insert_of_admits hadmits
      rw [hi]
      exact h.insert hadmits hi
    · obtain ⟨d, hi⟩ := h.insert_of_not_admits hadmits
      rw [hi, Environments.insert_of_not_admits hadmits]
      exact h.keep (keeps_add _ s) rfl rfl
  | insertGlobal s =>
    dsimp only [GuardedTable.perform, Environments.perform]
    by_cases hadmits : es.global.Admits s
    · obtain ⟨t', hi⟩ := h.insertGlobal_of_admits hadmits
      rw [hi]
      exact h.insertGlobal hadmits hi
    · obtain ⟨d, hi⟩ := h.insertGlobal_of_not_admits hadmits
      rw [hi, Environments.insertGlobal_of_not_admits hadmits]
      exact h.keep (keeps_add _ s) rfl rfl

omit h

theorem represents_empty : Represents {} {} := ⟨.empty _ 0 .global, .nil, rfl⟩

include h

theorem Represents.run (moves : List ScopeMove) : Represents (w.run moves) (es.run moves) := by
  induction moves generalizing w es with
  | nil => exact h
  | cons move moves ih => exact ih (h.perform move)

end

end GuardedTable

/-! ## What is answered -/

namespace SymbolTable

variable {t : SymbolTable} {es : Environments}

/-- A table that gives the answers of a stack of environments: what names and raw ids stand for, at any ceiling,
which names can be used, and which levels symbols have. -/
structure Answers (t : SymbolTable) (es : Environments) : Prop where
  name : ∀ name ceiling, (t.find? name ceiling).map t.get = es.find? (·.name == name) ceiling
  rid : ∀ rid ceiling, (t.findRid? rid ceiling).map t.get = es.find? (·.rid == rid) ceiling
  used : ∀ name pos s, (t.lookup name pos).toOption.map t.get = some s ↔
    es.find? (·.name == name) none = some s ∧ ¬ es.Captured s
  refused : ∀ name pos, (∃ d, t.lookup name pos = .error d) ↔
    es.find? (·.name == name) none = none ∨ ∃ s, es.find? (·.name == name) none = some s ∧ es.Captured s
  level : ∀ (i : Nat) (scope : Scope), t.scopes[i]? = some scope →
    ∀ entry ∈ scope.names ++ scope.rids, (t.get entry.2).level = t.level - i

/-- The scopes and the environments in which something is sought. -/
theorem forall₂_scopesFrom (hglobal : Mirrors t 0 t.global es.global) (hinner : MirrorsAll t t.inner es.inner)
    (ceiling : Option Int) :
    List.Forall₂ (fun scope e => ∃ level, Mirrors t level scope e) (t.scopesFrom ceiling) (es.upTo ceiling) := by
  have hlevel : t.level = es.level := hinner.length_eq
  have hall : List.Forall₂ (fun scope e => ∃ level, Mirrors t level scope e) t.scopes es.stack := by
    have hall' : ∀ {scopes envs}, MirrorsAll t scopes envs →
        List.Forall₂ (fun scope e => ∃ level, Mirrors t level scope e) scopes envs := by
      intro scopes envs h
      induction h with
      | nil => exact .nil
      | cons hfirst _ ih => exact .cons ⟨_, hfirst⟩ ih
    exact List.rel_append (hall' hinner) (.cons ⟨0, hglobal⟩ .nil)
  cases ceiling with
  | none => exact hall
  | some c =>
    unfold scopesFrom Environments.upTo
    dsimp only
    rw [hlevel]
    by_cases hc : 0 ≤ c ∧ c ≤ es.level
    · rw [if_pos (by simpa using hc), if_pos hc]
      exact List.forall₂_drop _ hall
    · rw [if_neg (by simpa using hc), if_neg hc]
      exact hall

theorem kinds_eq {scopes : List Scope} (h : MirrorsAll t scopes envs) : scopes.map (·.kind) = envs.map (·.kind) := by
  induction h with
  | nil => rfl
  | cons hfirst _ ih => rw [List.map_cons, List.map_cons, hfirst.kind, ih]

theorem captured_iff (h : MirrorsAll t t.inner es.inner) (s : Symbol) :
    (s.var?.isSome && 0 < s.level && s.level < t.functionLevel) = true ↔ es.Captured s := by
  have hlength : t.inner.length = es.level := h.length_eq
  have hkind : ∀ i : Nat, (t.inner[i]?).map (·.kind) = (es.inner[i]?).map (·.kind) := by
    intro i
    rw [← List.getElem?_map, ← List.getElem?_map, kinds_eq h]
  have hlevel : s.level < t.functionLevel ↔
      ∃ i scope, t.inner[i]? = some scope ∧ (scope.kind == .function) = true ∧ s.level < t.inner.length - i :=
    lt_length_dropWhile (p := fun scope : Scope => scope.kind == .function)
  rw [Bool.and_eq_true, Bool.and_eq_true, decide_eq_true_iff, decide_eq_true_iff, and_assoc, hlevel, hlength]
  refine and_congr Iff.rfl (and_congr Iff.rfl ⟨?_, ?_⟩)
  · rintro ⟨i, scope, hi, hscope, hlt⟩
    have hi' := hkind i
    rw [hi] at hi'
    obtain ⟨e, he, heq⟩ := Option.map_eq_some_iff.mp hi'.symm
    exact ⟨i, e, he, heq.trans (beq_iff_eq.mp hscope), hlt⟩
  · rintro ⟨i, e, hi, he, hlt⟩
    have hi' := hkind i
    rw [hi] at hi'
    obtain ⟨scope, hscope, heq⟩ := Option.map_eq_some_iff.mp hi'
    exact ⟨i, scope, hscope, beq_iff_eq.mpr (heq.trans he), hlt⟩

theorem MirrorsAll.getElem? {scopes : List Scope} (h : MirrorsAll t scopes envs) {i : Nat} {scope : Scope}
    (hi : scopes[i]? = some scope) : ∃ e, Mirrors t (scopes.length - i) scope e := by
  induction h generalizing i with
  | nil => exact absurd hi (by simp)
  | @cons first e scopes envs hfirst hrest ih =>
    cases i with
    | zero =>
      obtain rfl : first = scope := by simpa using hi
      rw [← hrest.length_eq] at hfirst
      exact ⟨e, hfirst⟩
    | succ i =>
      rw [List.length_cons, Nat.succ_sub_succ]
      exact ih (by simpa using hi)

/-- A name that is found can be used unless it is that of a variable of an outer function. -/
theorem lookup_some {name : String} {id : SymbolId} (h : t.find? name = some id) {pos : Position} :
    t.lookup name pos = if (t.get id).var?.isSome && 0 < (t.get id).level && (t.get id).level < t.functionLevel then
      .error (((Diagnostic.mkAt .scope Code.scope pos (.entry .scopeCapture [.text name])).withSpan
        name.utf8ByteSize).withInfo [.entry .infoDeclaredAt [.text name, .text (t.get id).pos.text]])
    else .ok id := by
  unfold lookup
  rw [h]

/-- A table whose scopes mirror environments gives their answers. -/
theorem answers_of_mirrors (hglobal : Mirrors t 0 t.global es.global) (hinner : MirrorsAll t t.inner es.inner) :
    Answers t es := by
  have hname : ∀ name ceiling, (t.find? name ceiling).map t.get = es.find? (·.name == name) ceiling := by
    intro name ceiling
    refine map_findSome?_of_forall₂ ((forall₂_scopesFrom hglobal hinner ceiling).imp ?_)
    rintro scope e ⟨level, h⟩
    exact h.name name
  have hrid : ∀ rid ceiling, (t.findRid? rid ceiling).map t.get = es.find? (·.rid == rid) ceiling := by
    intro rid ceiling
    refine map_findSome?_of_forall₂ ((forall₂_scopesFrom hglobal hinner ceiling).imp ?_)
    rintro scope e ⟨level, h⟩
    exact h.rid rid
  refine ⟨hname, hrid, fun name pos s => ?_, fun name pos => ?_, fun i scope hi entry hentry => ?_⟩
  · rw [← hname]
    cases hfind : t.find? name with
    | none => simp [lookup, hfind, Except.toOption]
    | some id =>
      rw [lookup_some hfind]
      by_cases hcaptured : es.Captured (t.get id)
      · rw [if_pos ((captured_iff hinner _).mpr hcaptured)]
        refine ⟨fun h => absurd h (by simp [Except.toOption]), ?_⟩
        rintro ⟨hs, hfree⟩
        exact absurd hcaptured (Option.some_inj.mp hs ▸ hfree)
      · rw [if_neg fun h => hcaptured ((captured_iff hinner _).mp h)]
        refine ⟨fun h => ⟨h, ?_⟩, And.left⟩
        rwa [← Option.some_inj.mp h]
  · rw [← hname]
    cases hfind : t.find? name with
    | none => simp [lookup, hfind]
    | some id =>
      rw [lookup_some hfind]
      by_cases hcaptured : es.Captured (t.get id)
      · rw [if_pos ((captured_iff hinner _).mpr hcaptured)]
        exact ⟨fun _ => .inr ⟨_, rfl, hcaptured⟩, fun _ => ⟨_, rfl⟩⟩
      · rw [if_neg fun h => hcaptured ((captured_iff hinner _).mp h)]
        simp [hcaptured]
  · have hmirrors : ∃ e, Mirrors t (t.level - i) scope e := by
      unfold scopes at hi
      rcases Nat.lt_or_ge i t.inner.length with hlt | hge
      · rw [List.getElem?_append_left hlt] at hi
        exact hinner.getElem? hi
      · rw [List.getElem?_append_right hge] at hi
        obtain rfl : t.global = scope := by
          rcases List.getElem?_eq_some_iff.mp hi with ⟨_, h⟩
          simpa using h
        exact ⟨es.global, by rw [level, Nat.sub_eq_zero_of_le hge]; exact hglobal⟩
    obtain ⟨e, he⟩ := hmirrors
    exact he.level _ (he.stored entry hentry).2

end SymbolTable

/-! ## What a release leaves behind -/

/-- How many scopes that were opened on the way are still open; nothing when an outer scope is closed. -/
def ScopeMove.opened (n : Nat) : ScopeMove → Option Nat
  | .enter _ => some (n + 1)
  | .release i => if i < n then some (n - (i + 1)) else none
  | .insert _ | .insertGlobal _ => some n

namespace Environments

variable {es es' : Environments} {added : List Symbol}

/-- Stacks of environments that differ in symbols of the global environment. -/
structure Gains (es : Environments) (added : List Symbol) (es' : Environments) : Prop where
  inner : es'.inner = es.inner
  global : es'.global.symbols = added ++ es.global.symbols

theorem Gains.of_eq (hinner : es'.inner = es.inner) (hglobal : es'.global = es.global) : es.Gains [] es' :=
  ⟨hinner, by rw [hglobal]; rfl⟩

theorem Gains.trans {es'' : Environments} {more : List Symbol} (h : es.Gains added es') (h' : es'.Gains more es'') :
    es.Gains (more ++ added) es'' :=
  ⟨h'.inner.trans h.inner, by rw [h'.global, h.global, List.append_assoc]⟩

def around (es : Environments) (n : Nat) : Environments := { es with inner := es.inner.drop (n + 1) }

theorem gains_insertGlobal {s : Symbol} (h : es.global.Admits s) :
    es.Gains [{ s with level := 0 }] (es.insertGlobal s) := by
  unfold insertGlobal Environment.insert
  rw [if_pos h]
  exact ⟨rfl, rfl⟩

theorem Gains.around (h : es.Gains added es') (n : Nat) : (es.around n).Gains added (es'.around n) :=
  ⟨congrArg (·.drop (n + 1)) h.inner, h.global⟩

/-- What is inserted above the global environment stays in the innermost one. -/
theorem around_insert {s : Symbol} (h : n < es.level) :
    (es.insert s).level = es.level ∧ (es.insert s).around n = es.around n := by
  obtain ⟨global, inner⟩ := es
  cases inner with
  | nil => exact absurd h (Nat.not_lt_zero n)
  | cons e rest => exact ⟨rfl, rfl⟩

theorem Gains.find?_eq (h : es.Gains added es') {meant : Symbol → Bool} (hadded : ∀ s ∈ added, meant s = false)
    (ceiling : Option Int) : es'.find? meant ceiling = es.find? meant ceiling := by
  have hglobal : es'.global.symbols.find? meant = es.global.symbols.find? meant := by
    rw [h.global, List.find?_append, List.find?_eq_none.mpr fun s hs => by rw [hadded s hs]; exact Bool.false_ne_true,
      Option.none_or]
  have hdrop : ∀ n, (es'.stack.drop n).findSome? (·.symbols.find? meant) =
      (es.stack.drop n).findSome? (·.symbols.find? meant) := by
    intro n
    unfold stack
    rw [h.inner, List.drop_append, List.drop_append, List.findSome?_append, List.findSome?_append]
    congr 1
    cases n - es.inner.length with
    | zero => rw [List.drop_zero, List.drop_zero, List.findSome?_cons, List.findSome?_cons, hglobal]
    | succ n => rw [List.drop_succ_cons, List.drop_succ_cons, List.drop_nil]
  have hlevel : es'.level = es.level := by rw [level, level, h.inner]
  cases ceiling with
  | none => exact hdrop 0
  | some c =>
    unfold find? upTo
    dsimp only
    rw [hlevel]
    split
    · exact hdrop _
    · exact hdrop 0

theorem Gains.captured_iff (h : es.Gains added es') (s : Symbol) : es'.Captured s ↔ es.Captured s := by
  unfold Captured level
  rw [h.inner]

end Environments

namespace GuardedTable

open SymbolTable

/-- A symbol that was inserted in the global scope on the way. -/
def AddsGlobal (w : GuardedTable) (moves : List ScopeMove) (s : Symbol) : Prop :=
  ∃ front rest t', moves = front ++ ScopeMove.insertGlobal s :: rest ∧ (w.run front).insertGlobal s = .ok t'

/-- Two tables that answer alike about all names and raw ids but those of some symbols. -/
structure SameAnswers (but : Symbol → Prop) (w w' : GuardedTable) : Prop where
  name : ∀ name, (∀ s, but s → s.name ≠ name) → ∀ ceiling,
    (w'.table.find? name ceiling).map w'.table.get = (w.table.find? name ceiling).map w.table.get
  rid : ∀ rid, (∀ s, but s → s.rid ≠ rid) → ∀ ceiling,
    (w'.table.findRid? rid ceiling).map w'.table.get = (w.table.findRid? rid ceiling).map w.table.get
  used : ∀ name, (∀ s, but s → s.name ≠ name) → ∀ pos,
    (w'.table.lookup name pos).toOption.map w'.table.get = (w.table.lookup name pos).toOption.map w.table.get

variable {w w' : GuardedTable} {es es' : Environments} {added : List Symbol} {but : Symbol → Prop}

theorem Represents.answers (h : Represents w es) : Answers w.table es := answers_of_mirrors h.global h.inner

theorem sameAnswers_of_gains (h : Represents w es) (h' : Represents w' es') (hg : es.Gains added es')
    (hadded : ∀ s ∈ added, ∃ s', but s' ∧ s.name = s'.name ∧ s.rid = s'.rid) : SameAnswers but w w' := by
  have hname : ∀ name, (∀ s, but s → s.name ≠ name) → ∀ s ∈ added, (s.name == name) = false := by
    intro name hbut s hs
    obtain ⟨s', hs', heq, -⟩ := hadded s hs
    exact beq_eq_false_iff_ne.mpr (heq ▸ hbut s' hs')
  have hrid : ∀ rid, (∀ s, but s → s.rid ≠ rid) → ∀ s ∈ added, (s.rid == rid) = false := by
    intro rid hbut s hs
    obtain ⟨s', hs', -, heq⟩ := hadded s hs
    exact beq_eq_false_iff_ne.mpr (heq ▸ hbut s' hs')
  refine ⟨fun name hbut ceiling => ?_, fun rid hbut ceiling => ?_, fun name hbut pos => ?_⟩
  · rw [h.answers.name, h'.answers.name, hg.find?_eq (hname name hbut)]
  · rw [h.answers.rid, h'.answers.rid, hg.find?_eq (hrid rid hbut)]
  · refine Option.ext fun s => ?_
    rw [h'.answers.used, h.answers.used, hg.find?_eq (hname name hbut), hg.captured_iff]

/-- What is done within a scope leaves the scopes around it alone, but for symbols that are inserted in the global
scope. -/
theorem Represents.inside (h : Represents w es) (hmove : move.opened n = some n') (hn : n < es.level) :
    n' < (es.perform move).level ∧ ∃ added, (es.around n).Gains added ((es.perform move).around n') ∧
      ∀ s ∈ added, ∃ s', w.AddsGlobal [move] s' ∧ s.name = s'.name ∧ s.rid = s'.rid := by
  have hnone : ∀ s ∈ ([] : List Symbol), ∃ s', w.AddsGlobal [move] s' ∧ s.name = s'.name ∧ s.rid = s'.rid :=
    fun s hs => absurd hs List.not_mem_nil
  cases move with
  | enter kind =>
    obtain rfl : n + 1 = n' := Option.some_inj.mp hmove
    exact ⟨Nat.succ_lt_succ hn, [], .of_eq rfl rfl, hnone⟩
  | release i =>
    unfold ScopeMove.opened at hmove
    dsimp only at hmove
    by_cases hi : i < n
    · rw [if_pos hi] at hmove
      obtain rfl : n - (i + 1) = n' := Option.some_inj.mp hmove
      dsimp only [Environments.perform]
      rw [if_pos (Nat.lt_trans hi hn)]
      unfold Environments.level at hn
      refine ⟨?_, [], .of_eq ?_ rfl, hnone⟩
      · rw [Environments.level, List.length_drop]
        omega
      · unfold Environments.around
        dsimp only
        rw [List.drop_drop, show i + 1 + (n - (i + 1) + 1) = n + 1 by omega]
    · rw [if_neg hi] at hmove
      cases hmove
  | insert s =>
    obtain rfl : n = n' := Option.some_inj.mp hmove
    obtain ⟨hlevel, haround⟩ := Environments.around_insert (s := s) hn
    refine ⟨?_, [], ?_, hnone⟩
    · rw [show es.perform (.insert s) = es.insert s from rfl, hlevel]
      exact hn
    · rw [show es.perform (.insert s) = es.insert s from rfl, haround]
      exact .of_eq rfl rfl
  | insertGlobal s =>
    obtain rfl : n = n' := Option.some_inj.mp hmove
    refine ⟨hn, ?_⟩
    rw [show es.perform (.insertGlobal s) = es.insertGlobal s from rfl]
    by_cases hadmits : es.global.Admits s
    · obtain ⟨t', ht'⟩ := h.insertGlobal_of_admits hadmits
      refine ⟨_, (Environments.gains_insertGlobal hadmits).around n, fun s' hs' => ?_⟩
      obtain rfl := List.mem_singleton.mp hs'
      exact ⟨s, ⟨[], [], t', rfl, ht'⟩, rfl, rfl⟩
    · rw [Environments.insertGlobal_of_not_admits hadmits]
      exact ⟨[], .of_eq rfl rfl, hnone⟩

theorem AddsGlobal.cons {s : Symbol} (h : (w.perform move).AddsGlobal moves s) : w.AddsGlobal (move :: moves) s := by
  obtain ⟨front, rest, t', hmoves, ht'⟩ := h
  exact ⟨move :: front, rest, t', by rw [hmoves]; rfl, ht'⟩

theorem AddsGlobal.head {s : Symbol} (h : w.AddsGlobal [move] s) (moves : List ScopeMove) :
    w.AddsGlobal (move :: moves) s := by
  obtain ⟨front, rest, t', hmoves, ht'⟩ := h
  exact ⟨front, rest ++ moves, t', by rw [← List.singleton_append, hmoves, List.append_assoc]; rfl, ht'⟩

theorem Represents.allInside (h : Represents w es) (hmoves : moves.foldlM ScopeMove.opened n = some n')
    (hn : n < es.level) :
    n' < (es.run moves).level ∧ ∃ added, (es.around n).Gains added ((es.run moves).around n') ∧
      ∀ s ∈ added, ∃ s', w.AddsGlobal moves s' ∧ s.name = s'.name ∧ s.rid = s'.rid := by
  induction moves generalizing w es n with
  | nil =>
    obtain rfl : n = n' := Option.some_inj.mp hmoves
    exact ⟨hn, [], .of_eq rfl rfl, fun s hs => absurd hs List.not_mem_nil⟩
  | cons move moves ih =>
    rw [List.foldlM_cons] at hmoves
    obtain ⟨m, hm, hrest⟩ := Option.bind_eq_some_iff.mp hmoves
    obtain ⟨hlt, added, hgains, hadded⟩ := h.inside hm hn
    obtain ⟨hlt', more, hgains', hmore⟩ := ih (h.perform move) hrest hlt
    refine ⟨hlt', more ++ added, hgains.trans hgains', fun s hs => ?_⟩
    rcases List.mem_append.mp hs with hs | hs
    · obtain ⟨s', hs', heq⟩ := hmore s hs
      exact ⟨s', hs'.cons, heq⟩
    · obtain ⟨s', hs', heq⟩ := hadded s hs
      exact ⟨s', hs'.head moves, heq⟩

/-- Whatever is done in a scope that is opened, once the scope is closed again with all that is open in it, names and
raw ids mean what they meant before, but for those of symbols that were inserted in the global scope. -/
theorem Represents.released (h : Represents w es) (kind : ScopeKind)
    (hmoves : moves.foldlM ScopeMove.opened 0 = some n) :
    SameAnswers ((w.perform (.enter kind)).AddsGlobal moves) w (w.run (ScopeMove.enter kind :: moves ++ [ScopeMove.release n])) := by
  have hlast : ∀ es : Environments, n < es.level → es.perform (.release n) = es.around n := fun es hn => if_pos hn
  obtain ⟨hn, added, hgains, hadded⟩ := (h.perform (.enter kind)).allInside hmoves (Nat.succ_pos _)
  have h' := h.run (ScopeMove.enter kind :: moves ++ [ScopeMove.release n])
  rw [Environments.run, List.foldl_append] at h'
  refine sameAnswers_of_gains h h' ?_ hadded
  change es.Gains added (((es.perform (.enter kind)).run moves).perform (.release n))
  rw [hlast _ hn]
  exact hgains

/-- A symbol table is a stack of environments, whatever was done to it since it was empty. It gives the answers of
the stack; it takes a symbol exactly if the environment does, and else answers as before; and when a scope is closed,
it answers as before the scope was opened, but for symbols that were inserted in the global scope. -/
theorem refines_environments (moves : List ScopeMove) :
    let w := run {} moves
    let es := Environments.run {} moves
    Answers w.table es ∧
    (∀ s, ((∃ t', w.insert s = .ok t') ↔ es.top.Admits s) ∧
      ((∃ t', w.insertGlobal s = .ok t') ↔ es.global.Admits s)) ∧
    (∀ s, (∃ d, w.insert s = .error d) → (w.perform (.insert s)).table.scopes = w.table.scopes ∧
      SameAnswers (fun _ => False) w (w.perform (.insert s))) ∧
    (∀ s, (∃ d, w.insertGlobal s = .error d) → (w.perform (.insertGlobal s)).table.scopes = w.table.scopes ∧
      SameAnswers (fun _ => False) w (w.perform (.insertGlobal s))) ∧
    ∀ kind inside n, inside.foldlM ScopeMove.opened 0 = some n →
      SameAnswers ((w.perform (.enter kind)).AddsGlobal inside) w (w.run (.enter kind :: inside ++ [ScopeMove.release n])) := by
  intro w es
  have h : Represents w es := represents_empty.run moves
  have hsame : ∀ w', Represents w' es → SameAnswers (fun _ => False) w w' :=
    fun w' h' => sameAnswers_of_gains h h' (.of_eq rfl rfl) fun s hs => absurd hs List.not_mem_nil
  refine ⟨h.answers, fun s => ⟨⟨?_, h.insert_of_admits⟩, ⟨?_, h.insertGlobal_of_admits⟩⟩, ?_, ?_,
    fun kind inside n => h.released kind⟩
  · rintro ⟨t', ht'⟩
    by_contra hrefused
    obtain ⟨d, hd⟩ := h.insert_of_not_admits hrefused
    rw [hd] at ht'
    cases ht'
  · rintro ⟨t', ht'⟩
    by_contra hrefused
    obtain ⟨d, hd⟩ := h.insertGlobal_of_not_admits hrefused
    rw [hd] at ht'
    cases ht'
  · rintro s ⟨d, hd⟩
    dsimp only [GuardedTable.perform]
    rw [hd]
    exact ⟨rfl, hsame _ (h.keep (keeps_add _ s) rfl rfl)⟩
  · rintro s ⟨d, hd⟩
    dsimp only [GuardedTable.perform]
    rw [hd]
    exact ⟨rfl, hsame _ (h.keep (keeps_add _ s) rfl rfl)⟩

end GuardedTable

end Frontend
