import Frontend.Proofs.List
import Frontend.Proofs.Tree.WellRead
import Frontend.Symbol.Hierarchy
import Mathlib.Data.Set.Basic

/-!
# Symbol tables in good order

While code is written, the symbol table stays in good order: raw ids are numbered below the counter
they are taken from, no raw id belongs to a variable and to something else, and every symbol that a
scope knows has the level of that scope. Symbols are never taken back, and what they are never
changes.
-/

namespace Frontend

variable {s : Symbol} {α : Type} {id : SymbolId} {n n' : Nat} {p : Parameter}
variable {scopes : List Scope} {f : Symbol → Symbol}

/-- What sort of thing a symbol is. -/
inductive SymbolSort where
  | variable | function | cls | target
  deriving DecidableEq, Repr

/-- The sort of a symbol; parameters and fields are variables. -/
def Symbol.sort (s : Symbol) : SymbolSort :=
  match s.detail with
  | .var _ | .parameter .. => .variable
  | .function _ => .function
  | .cls _ => .cls
  | .target => .target

namespace Symbol

theorem sort_of_var {v : VariableInfo} (h : s.var? = some v) : s.sort = .variable := by
  unfold var? at h
  unfold sort
  split at h <;> simp_all

theorem var?_of_sort (h : s.sort = .variable) : s.var?.isSome = true := by
  unfold sort at h
  unfold var?
  split at h <;> simp_all

theorem sort_of_function {f : FunctionInfo} (h : s.function? = some f) : s.sort = .function := by
  unfold function? at h
  unfold sort
  split at h <;> simp_all

theorem sort_of_target (h : s.detail = .target) : s.sort = .target := by
  unfold sort
  rw [h]

theorem sort_of_class {c : ClassInfo} (h : s.class? = some c) : s.sort = .cls := by
  unfold class? at h
  unfold sort
  split at h <;> simp_all

end Symbol

/-! ## Association lists -/

theorem mem_putEntry {key : String} {value : α} {entries : List (String × α)} {e : String × α}
    (h : e ∈ putEntry key value entries) : e = (key, value) ∨ e ∈ entries := by
  induction entries with
  | nil => exact .inl (List.mem_singleton.mp h)
  | cons d rest ih =>
    obtain ⟨k, v⟩ := d
    unfold putEntry at h
    split at h
    · rcases List.mem_cons.mp h with rfl | h
      · exact .inl rfl
      · exact .inr (List.mem_cons_of_mem _ h)
    · rcases List.mem_cons.mp h with rfl | h
      · exact .inr List.mem_cons_self
      · exact (ih h).imp_right (List.mem_cons_of_mem _)

theorem lookup_putEntry (key x : String) (value : α) (entries : List (String × α)) :
    (putEntry key value entries).lookup x = if x = key then some value else entries.lookup x := by
  induction entries with
  | nil =>
    by_cases hx : x = key
    · simp [putEntry, hx]
    · simp [putEntry, List.lookup_cons, hx, beq_eq_false_iff_ne.mpr hx]
  | cons e rest ih =>
    obtain ⟨k, v⟩ := e
    unfold putEntry
    by_cases hk : k = key
    · subst hk
      by_cases hx : x = k
      · simp [hx]
      · simp [List.lookup_cons, hx, beq_eq_false_iff_ne.mpr hx]
    · rw [if_neg (by simpa using hk)]
      by_cases hx : x = k
      · subst hx
        simp [hk]
      · rw [List.lookup_cons, List.lookup_cons, beq_eq_false_iff_ne.mpr hx]
        exact ih

theorem key_mem_putEntry (key : String) (value : α) (entries : List (String × α)) :
    key ∈ (putEntry key value entries).map Prod.fst := by
  induction entries with
  | nil => simp [putEntry]
  | cons d rest ih =>
    obtain ⟨k, v⟩ := d
    unfold putEntry
    split
    · simp
    · exact List.mem_cons_of_mem _ ih

theorem keys_subset_putEntry (key : String) (value : α) (entries : List (String × α)) :
    entries.map Prod.fst ⊆ (putEntry key value entries).map Prod.fst := by
  induction entries with
  | nil => exact List.nil_subset _
  | cons d rest ih =>
    obtain ⟨k, v⟩ := d
    unfold putEntry
    split
    · rename_i hk
      rw [beq_iff_eq] at hk
      subst hk
      exact List.Subset.refl _
    · exact List.cons_subset_cons _ ih

namespace SymbolTable

/-! ## Symbols -/

theorem get_add_of_lt (t : SymbolTable) (s : Symbol) (h : id < t.symbols.size) : (t.add s).2.get id = t.get id := by
  simp [add, get, Array.getD_eq_getD_getElem?, Array.getElem?_push, Nat.ne_of_lt h]

theorem get_add_self (t : SymbolTable) (s : Symbol) : (t.add s).2.get t.symbols.size = s := by
  simp [add, get, Array.getD_eq_getD_getElem?]

theorem get_add_new (t : SymbolTable) (s : Symbol) : (t.add s).2.get (t.add s).1 = s :=
  get_add_self t s

theorem size_add (t : SymbolTable) (s : Symbol) : (t.add s).2.symbols.size = t.symbols.size + 1 := by
  simp [add]

variable {t : SymbolTable}

theorem get_of_size_le (h : t.symbols.size ≤ id) : t.get id = default := by
  simp [get, Array.getD_eq_getD_getElem?, h]

theorem size_modify (t : SymbolTable) (id : SymbolId) (f : Symbol → Symbol) :
    (t.modify id f).symbols.size = t.symbols.size := by
  simp [modify]

theorem get_modify (t : SymbolTable) (id j : SymbolId) (f : Symbol → Symbol) :
    (t.modify id f).get j = if j = id ∧ j < t.symbols.size then f (t.get j) else t.get j := by
  by_cases hj : j < t.symbols.size
  · simp only [modify, get, Array.getD_eq_getD_getElem?]
    rw [Array.getElem?_eq_getElem (by simpa using hj), Array.getElem_modify, Array.getElem?_eq_getElem hj]
    by_cases hid : id = j
    · simp [hid, hj]
    · simp [hid, Ne.symm hid]
  · have hle := Nat.le_of_not_lt hj
    rw [get_of_size_le (by rwa [size_modify]), get_of_size_le hle, if_neg (fun h => hj h.2)]

/-- Only symbols that were made are anything but variables. -/
theorem lt_size_of_sort_ne (h : (t.get id).sort ≠ .variable) : id < t.symbols.size := by
  by_contra hle
  rw [get_of_size_le (Nat.le_of_not_lt hle)] at h
  exact h rfl

/-! ## Good order -/

/-- The words that mean the same everywhere: constants, what the global scope knows, and the raw ids
of functions and classes. -/
def free (t : SymbolTable) : Set String :=
  { w | Word.Constant w ∨ w ∈ t.global.rids.map Prod.fst ∨
    ∃ id, (t.get id).sort ≠ .variable ∧ (t.get id).rid = w }

/-- A parameter whose raw id can be given to a variable. -/
structure ParameterOk (n : Nat) (t : SymbolTable) (p : Parameter) : Prop where
  rid_plain : Word.Plain p.rid
  name_plain : Word.Plain p.name
  numbered : ∃ m < n, Word.IsNumbered p.rid m
  reserved : ∀ id < t.symbols.size, (t.get id).rid = p.rid → (t.get id).sort = .variable

/-- A class whose constructors are functions and whose base is a class. -/
structure ClassOk (t : SymbolTable) (c : ClassInfo) : Prop where
  constructors : ∀ id ∈ c.constructors, (t.get id).sort = .function
  base : ∀ id, c.base = some id → (t.get id).sort = .cls

/-- A symbol in good order: `n` numbers were given out for raw ids. -/
structure SymbolOk (n : Nat) (t : SymbolTable) (s : Symbol) : Prop where
  rid_plain : Word.Plain s.rid
  name_plain : Word.Plain s.name
  numbered : (∃ m < n, Word.IsNumbered s.rid m) ∨ (Word.Constant s.rid ∧ s.sort ≠ .variable)
  params : ∀ f, s.function? = some f → ∀ p ∈ f.params, ParameterOk n t p
  init : ∀ v, s.var? = some v → ∀ node, v.init = some node → node.WellRead
  cls : ∀ c, s.class? = some c → ClassOk t c

/-- The entries of scopes, innermost first, have the levels of their scopes. -/
def Levelled (t : SymbolTable) : List Scope → Prop
  | [] => True
  | scope :: rest =>
    (∀ e ∈ scope.names, e.2 < t.symbols.size ∧ (t.get e.2).level = rest.length + 1) ∧
      t.Levelled rest

/-- An entry of the global scope in good order. -/
structure GlobalOk (t : SymbolTable) (id : SymbolId) : Prop where
  known : id < t.symbols.size
  level : (t.get id).level = 0
  sort : (t.get id).sort ≠ .target
  rid : (t.get id).rid ∈ t.global.rids.map Prod.fst

/-- A raw id of the global scope in good order: it belongs to a symbol that was entered there. -/
structure RidOk (t : SymbolTable) (rid : String) (id : SymbolId) : Prop where
  known : id < t.symbols.size
  rid : (t.get id).rid = rid
  level : (t.get id).level = 0

/-- A symbol table in good order: `n` numbers were given out for raw ids. -/
structure Ordered (n : Nat) (t : SymbolTable) : Prop where
  symbols : ∀ id < t.symbols.size, SymbolOk n t (t.get id)
  sorts : ∀ i < t.symbols.size, ∀ j < t.symbols.size, (t.get i).rid = (t.get j).rid →
    ((t.get i).sort = .variable ↔ (t.get j).sort = .variable)
  levelled : t.Levelled t.inner
  globals : ∀ e ∈ t.global.names, t.GlobalOk e.2
  rids : ∀ e ∈ t.global.rids, t.RidOk e.1 e.2
  types : ∀ e ∈ t.types, (t.get e.2).sort = .cls

/-- A table that came out of another one: symbols stay what they are, and what the global scope knows
it goes on knowing. -/
structure Extends (t t' : SymbolTable) : Prop where
  size : t.symbols.size ≤ t'.symbols.size
  rid : ∀ id < t.symbols.size, (t'.get id).rid = (t.get id).rid
  sort : ∀ id < t.symbols.size, (t'.get id).sort = (t.get id).sort
  globals : t.global.rids.map Prod.fst ⊆ t'.global.rids.map Prod.fst

namespace Extends

variable {t t' t'' : SymbolTable}

theorem refl (t : SymbolTable) : Extends t t :=
  ⟨le_refl _, fun _ _ => rfl, fun _ _ => rfl, List.Subset.refl _⟩

theorem trans (h : Extends t t') (h' : Extends t' t'') : Extends t t'' := by
  refine ⟨h.size.trans h'.size, ?_, ?_, fun w hw => h'.globals (h.globals hw)⟩
  · intro id hid
    rw [h'.rid id (by have := h.size; omega), h.rid id hid]
  · intro id hid
    rw [h'.sort id (by have := h.size; omega), h.sort id hid]

theorem free_subset (h : Extends t t') : t.free ⊆ t'.free := by
  rintro w (hw | hw | ⟨id, hsort, hrid⟩)
  · exact .inl hw
  · exact .inr (.inl (h.globals hw))
  · have hid := lt_size_of_sort_ne hsort
    exact .inr (.inr ⟨id, by rwa [h.sort id hid], by rwa [h.rid id hid]⟩)

end Extends

theorem ParameterOk.mono (hn : n ≤ n') (h : ParameterOk n t p) : ParameterOk n' t p := by
  obtain ⟨m, hm, hp⟩ := h.numbered
  exact ⟨h.rid_plain, h.name_plain, ⟨m, by omega, hp⟩, h.reserved⟩

theorem SymbolOk.mono (hn : n ≤ n') (h : SymbolOk n t s) : SymbolOk n' t s := by
  refine ⟨h.rid_plain, h.name_plain, ?_, fun f hf p hp => (h.params f hf p hp).mono hn, h.init, h.cls⟩
  refine h.numbered.imp_left ?_
  rintro ⟨m, hm, hp⟩
  exact ⟨m, by omega, hp⟩

/-- Good order does not depend on how many numbers were given out. -/
theorem Ordered.mono (hn : n ≤ n') (h : Ordered n t) : Ordered n' t :=
  ⟨fun id hid => (h.symbols id hid).mono hn, h.sorts, h.levelled, h.globals, h.rids, h.types⟩

theorem Ordered.rid_plain (h : Ordered n t) (id : SymbolId) : Word.Plain (t.get id).rid := by
  by_cases hid : id < t.symbols.size
  · exact (h.symbols id hid).rid_plain
  · rw [get_of_size_le (Nat.le_of_not_lt hid)]
    exact fun c hc => nomatch hc

theorem Ordered.name_plain (h : Ordered n t) (id : SymbolId) : Word.Plain (t.get id).name := by
  by_cases hid : id < t.symbols.size
  · exact (h.symbols id hid).name_plain
  · rw [get_of_size_le (Nat.le_of_not_lt hid)]
    exact fun c hc => nomatch hc

/-! ## Changes of symbols -/

/-- Two tables in which symbols have the same raw ids and are of the same sorts. -/
structure Alike (t t' : SymbolTable) : Prop where
  size : t'.symbols.size = t.symbols.size
  rid : ∀ id, (t'.get id).rid = (t.get id).rid
  sort : ∀ id, (t'.get id).sort = (t.get id).sort

theorem ParameterOk.alike {t' : SymbolTable} (ha : Alike t t') (h : ParameterOk n t p) : ParameterOk n t' p := by
  refine ⟨h.rid_plain, h.name_plain, h.numbered, ?_⟩
  intro id hid hrid
  rw [ha.size] at hid
  rw [ha.rid] at hrid
  rw [ha.sort]
  exact h.reserved id hid hrid

theorem SymbolOk.alike {t' : SymbolTable} (ha : Alike t t') (h : SymbolOk n t s) : SymbolOk n t' s := by
  refine ⟨h.rid_plain, h.name_plain, h.numbered, ?_, h.init, ?_⟩
  · exact fun f hf p hp => (h.params f hf p hp).alike ha
  · intro c hc
    have hok := h.cls c hc
    exact ⟨fun id hid => by rw [ha.sort]; exact hok.constructors id hid,
      fun id hid => by rw [ha.sort]; exact hok.base id hid⟩

theorem Extends.of_alike {t' : SymbolTable} (ha : Alike t t')
    (hg : t.global.rids.map Prod.fst ⊆ t'.global.rids.map Prod.fst) : Extends t t' :=
  ⟨ha.size.ge, fun id _ => ha.rid id, fun id _ => ha.sort id, hg⟩

theorem Levelled.of_get {t' : SymbolTable} (h : t.Levelled scopes) (hsize : t.symbols.size ≤ t'.symbols.size)
    (hlevel : ∀ scope ∈ scopes, ∀ e ∈ scope.names, (t'.get e.2).level = (t.get e.2).level) : t'.Levelled scopes := by
  induction scopes with
  | nil => trivial
  | cons scope rest ih =>
    refine ⟨fun e he => ?_, ih h.2 fun s hs => hlevel s (List.mem_cons_of_mem _ hs)⟩
    rw [hlevel scope List.mem_cons_self e he]
    exact ⟨Nat.lt_of_lt_of_le (h.1 e he).1 hsize, (h.1 e he).2⟩

theorem Levelled.lt_size (h : t.Levelled scopes) {scope : Scope} (hs : scope ∈ scopes) {e : String × SymbolId}
    (he : e ∈ scope.names) : e.2 < t.symbols.size := by
  induction scopes with
  | nil => exact nomatch hs
  | cons first rest ih =>
    rcases List.mem_cons.mp hs with rfl | hs
    · exact (h.1 e he).1
    · exact ih h.2 hs

/-- A symbol that may be made: its raw id is not used for something of another sort, nor reserved for
a parameter. -/
structure Fitting (n : Nat) (t : SymbolTable) (s : Symbol) : Prop where
  ok : SymbolOk n t s
  sorts : ∀ id < t.symbols.size, (t.get id).rid = s.rid →
    ((t.get id).sort = .variable ↔ s.sort = .variable)
  spared : s.sort ≠ .variable → ∀ id < t.symbols.size, ∀ f, (t.get id).function? = some f →
    ∀ p ∈ f.params, p.rid ≠ s.rid
  own : ∀ f, s.function? = some f → ∀ p ∈ f.params, p.rid ≠ s.rid

/-- A number that was not given out yet belongs to no symbol. -/
theorem Ordered.not_numbered {m : Nat} (h : Ordered n t) (hm : n ≤ m) (hid : id < t.symbols.size) :
    ¬ Word.IsNumbered (t.get id).rid m := by
  intro hrid
  rcases (h.symbols id hid).numbered with ⟨k, hk, hold⟩ | ⟨hconst, -⟩
  · have := hrid.unique hold
    omega
  · exact hconst.2 m hrid

/-- A symbol with the next number may be made. -/
theorem fitting_fresh (h : Ordered n t) (hok : SymbolOk (n + 1) t s) (hrid : Word.IsNumbered s.rid n)
    (hown : ∀ f, s.function? = some f → ∀ p ∈ f.params, p.rid ≠ s.rid) : Fitting (n + 1) t s := by
  refine ⟨hok, ?_, ?_, hown⟩
  · intro id hid he
    exact absurd (he ▸ hrid) (h.not_numbered (le_refl n) hid)
  · rintro - id hid f hf p hp he
    obtain ⟨k, hk, hold⟩ := ((h.symbols id hid).params f hf p hp).numbered
    have := hrid.unique (he ▸ hold)
    omega

/-- A function, a class or a target that is named by a constant may be made. -/
theorem fitting_constant (h : Ordered n t) (hok : SymbolOk n t s) (hrid : Word.Constant s.rid)
    (hs : s.sort ≠ .variable) (hown : ∀ f, s.function? = some f → f.params = []) : Fitting n t s := by
  refine ⟨hok, ?_, ?_, ?_⟩
  · intro id hid he
    refine iff_of_false (fun hv => ?_) hs
    rcases (h.symbols id hid).numbered with ⟨k, -, hold⟩ | ⟨-, hsort⟩
    · exact hrid.2 k (he ▸ hold)
    · exact hsort hv
  · rintro - id hid f hf p hp he
    obtain ⟨k, -, hold⟩ := ((h.symbols id hid).params f hf p hp).numbered
    exact hrid.2 k (he ▸ hold)
  · intro f hf p hp
    rw [hown f hf] at hp
    exact nomatch hp

theorem extends_add (t : SymbolTable) (s : Symbol) : Extends t (t.add s).2 := by
  refine ⟨by rw [size_add]; omega, ?_, ?_, List.Subset.refl _⟩
  · exact fun id hid => by rw [get_add_of_lt t s hid]
  · exact fun id hid => by rw [get_add_of_lt t s hid]

theorem get_add_cases (t : SymbolTable) (s : Symbol) (hid : id < (t.add s).2.symbols.size) :
    (id < t.symbols.size ∧ (t.add s).2.get id = t.get id) ∨ (id = t.symbols.size ∧ (t.add s).2.get id = s) := by
  rw [size_add] at hid
  rcases Nat.lt_succ_iff_lt_or_eq.mp hid with hlt | rfl
  · exact .inl ⟨hlt, get_add_of_lt t s hlt⟩
  · exact .inr ⟨rfl, get_add_self t s⟩

/-- The raw id of a parameter stays reserved when another symbol is made. -/
theorem ParameterOk.add (h : ParameterOk n t p) (hne : s.sort ≠ .variable → p.rid ≠ s.rid) :
    ParameterOk n (t.add s).2 p := by
  refine ⟨h.rid_plain, h.name_plain, h.numbered, ?_⟩
  intro id hid hrid
  rcases get_add_cases t s hid with ⟨hlt, hget⟩ | ⟨-, hget⟩
  · rw [hget] at hrid ⊢
    exact h.reserved id hlt hrid
  · rw [hget] at hrid ⊢
    by_contra hsort
    exact hne hsort hrid.symm

/-- A fitting symbol may be made. -/
theorem Ordered.add (h : Ordered n t) (hs : Fitting n t s) : Ordered n (t.add s).2 := by
  have made : ∀ {id sort}, sort ≠ .variable → (t.get id).sort = sort →
      ((t.add s).2.get id).sort = sort := by
    intro id sort hne hsort
    rw [get_add_of_lt t s (lt_size_of_sort_ne (by rw [hsort]; exact hne)), hsort]
  have cls : ∀ {c}, ClassOk t c → ClassOk (t.add s).2 c := by
    intro c hc
    exact ⟨fun id hid => made (fun e => nomatch e) (hc.constructors id hid),
      fun id hid => made (fun e => nomatch e) (hc.base id hid)⟩
  have ok : ∀ {u}, SymbolOk n t u →
      (∀ f, u.function? = some f → ∀ p ∈ f.params, s.sort ≠ .variable → p.rid ≠ s.rid) →
      SymbolOk n (t.add s).2 u := by
    intro u hu hne
    exact ⟨hu.rid_plain, hu.name_plain, hu.numbered,
      fun f hf p hp => (hu.params f hf p hp).add (hne f hf p hp), hu.init, fun c hc => cls (hu.cls c hc)⟩
  refine ⟨?_, ?_, ?_, ?_, ?_, fun e he => made (fun e => nomatch e) (h.types e he)⟩
  · intro id hid
    rcases get_add_cases t s hid with ⟨hlt, hget⟩ | ⟨-, hget⟩
    · rw [hget]
      exact ok (h.symbols id hlt) fun f hf p hp hv => hs.spared hv id hlt f hf p hp
    · rw [hget]
      exact ok hs.ok fun f hf p hp _ => hs.own f hf p hp
  · intro i hi j hj hrid
    rcases get_add_cases t s hi with ⟨hi, hgi⟩ | ⟨-, hgi⟩ <;> rcases get_add_cases t s hj with ⟨hj, hgj⟩ | ⟨-, hgj⟩ <;>
      rw [hgi, hgj] at hrid ⊢
    · exact h.sorts i hi j hj hrid
    · exact hs.sorts i hi hrid
    · exact (hs.sorts j hj hrid.symm).symm
  · refine h.levelled.of_get (by rw [size_add]; omega) ?_
    intro scope hscope e he
    rw [get_add_of_lt t s (h.levelled.lt_size hscope he)]
  · intro e he
    have hg := h.globals e he
    have hget := get_add_of_lt t s hg.known
    exact ⟨Nat.lt_of_lt_of_le hg.known (by rw [size_add]; omega), by rw [hget]; exact hg.level,
      by rw [hget]; exact hg.sort, by rw [hget]; exact hg.rid⟩
  · intro e he
    have hr := h.rids e he
    have hget := get_add_of_lt t s hr.known
    exact ⟨Nat.lt_of_lt_of_le hr.known (by rw [size_add]; omega), by rw [hget]; exact hr.rid,
      by rw [hget]; exact hr.level⟩

/-- A change that leaves a symbol what it is. -/
structure Mild (n : Nat) (t : SymbolTable) (s s' : Symbol) : Prop where
  rid : s'.rid = s.rid
  sort : s'.sort = s.sort
  level : s'.level = s.level
  ok : SymbolOk n t s → SymbolOk n t s'

theorem Mild.refl (s : Symbol) : Mild n t s s := ⟨rfl, rfl, rfl, id⟩

theorem alike_modify (hrid : ∀ s, (f s).rid = s.rid) (hsort : ∀ s, (f s).sort = s.sort) : Alike t (t.modify id f) := by
  refine ⟨size_modify t id f, ?_, ?_⟩
  · intro j
    rw [get_modify]
    split
    · exact hrid _
    · rfl
  · intro j
    rw [get_modify]
    split
    · exact hsort _
    · rfl

/-- Mild changes keep a table in good order. -/
theorem Ordered.modify (h : Ordered n t) (id : SymbolId) (hf : ∀ s, Mild n t s (f s)) :
    Ordered n (t.modify id f) ∧ Extends t (t.modify id f) := by
  have ha : Alike t (t.modify id f) := alike_modify (fun s => (hf s).rid) fun s => (hf s).sort
  have level : ∀ j, ((t.modify id f).get j).level = (t.get j).level := by
    intro j
    rw [get_modify]
    split
    · exact (hf _).level
    · rfl
  refine ⟨⟨?_, ?_, ?_, ?_, ?_, fun e he => by rw [ha.sort]; exact h.types e he⟩,
    Extends.of_alike ha (List.Subset.refl _)⟩
  · intro j hj
    rw [ha.size] at hj
    rw [get_modify]
    split
    · exact ((hf _).ok (h.symbols j hj)).alike ha
    · exact (h.symbols j hj).alike ha
  · intro i hi j hj hrid
    rw [ha.size] at hi hj
    rw [ha.rid, ha.rid] at hrid
    rw [ha.sort, ha.sort]
    exact h.sorts i hi j hj hrid
  · exact h.levelled.of_get ha.size.ge fun _ _ e _ => level e.2
  · intro e he
    have hg := h.globals e he
    exact ⟨by rw [ha.size]; exact hg.known, by rw [level]; exact hg.level,
      by rw [ha.sort]; exact hg.sort, by rw [ha.rid]; exact hg.rid⟩
  · intro e he
    have hr := h.rids e he
    exact ⟨by rw [ha.size]; exact hr.known, by rw [ha.rid]; exact hr.rid,
      by rw [level]; exact hr.level⟩

theorem mild_mapVariable {f : VariableInfo → VariableInfo} (hf : ∀ v, (f v).init = v.init)
    (s : Symbol) : Mild n t s (s.mapVariable f) := by
  have init : ∀ {v w : VariableInfo}, (∀ node, v.init = some node → node.WellRead) → some (f v) = some w →
      ∀ node, w.init = some node → node.WellRead := by
    rintro v w hv ⟨⟩ node hnode
    exact hv node (hf v ▸ hnode)
  obtain ⟨name, rid, pos, level, detail⟩ := s
  cases detail with
  | var v =>
    exact ⟨rfl, rfl, rfl, fun h => ⟨h.rid_plain, h.name_plain, h.numbered, fun g hg => (nomatch hg),
      fun w hw => init (h.init v rfl) hw, fun c hc => nomatch hc⟩⟩
  | parameter v k =>
    exact ⟨rfl, rfl, rfl, fun h => ⟨h.rid_plain, h.name_plain, h.numbered, fun g hg => (nomatch hg),
      fun w hw => init (h.init v rfl) hw, fun c hc => nomatch hc⟩⟩
  | _ => exact .refl _

theorem mild_mapFunction {f : FunctionInfo → FunctionInfo}
    (hf : ∀ g, (f g).params = g.params ∨ ∀ p ∈ (f g).params, ParameterOk n t p) (s : Symbol) :
    Mild n t s (s.mapFunction f) := by
  obtain ⟨name, rid, pos, level, detail⟩ := s
  cases detail with
  | function g =>
    refine ⟨rfl, rfl, rfl, fun h => ⟨h.rid_plain, h.name_plain, h.numbered, ?_, ?_, ?_⟩⟩
    · rintro g' ⟨⟩ p hp
      rcases hf g with he | hok
      · rw [he] at hp
        exact h.params g rfl p hp
      · exact hok p hp
    · exact fun v hv => nomatch hv
    · exact fun c hc => nomatch hc
  | _ => exact .refl _

theorem mild_mapClass {f : ClassInfo → ClassInfo} (hf : ∀ c, ClassOk t c → ClassOk t (f c))
    (s : Symbol) : Mild n t s (s.mapClass f) := by
  obtain ⟨name, rid, pos, level, detail⟩ := s
  cases detail with
  | cls c =>
    refine ⟨rfl, rfl, rfl, fun h => ⟨h.rid_plain, h.name_plain, h.numbered, ?_, ?_, ?_⟩⟩
    · exact fun g hg => nomatch hg
    · exact fun v hv => nomatch hv
    · rintro c' ⟨⟩
      exact hf c (h.cls c rfl)
  | _ => exact .refl _

end SymbolTable

end Frontend
