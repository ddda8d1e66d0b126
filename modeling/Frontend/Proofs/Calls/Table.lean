import Frontend.Proofs.Lowering.Scope

/-!
# Functions in symbol tables

What a call has to know about a function, its head, is settled when the symbol of the function is made,
and stays as it is: a definition that completes a declaration has the same head. The raw id of a
function belongs to no other symbol and to no parameter, so the word in front of the arguments of a
call says which function is called. Names lead to functions that are called by name, never to
constructors.
-/

namespace Frontend

variable {f : FunctionInfo} {p : Parameter} {g : Symbol → Symbol} {level : Nat} {cls : SymbolId} {pos : Position}
  {name : String}

/-- What a call has to know about a function. -/
structure CallHead where
  /-- How many arguments are passed, the object of a method included. -/
  arity : Nat
  returnsValue : Bool
  kind : FunctionKind
  builtin : Bool
  deriving DecidableEq, Repr

def FunctionInfo.callHead (f : FunctionInfo) : CallHead where
  arity := (if f.isMethod || f.kind == .construct then 1 else 0) + f.params.length
  returnsValue := f.returnsValue
  kind := f.kind
  builtin := f.isBuiltin

def Word.HasNumber (w : String) : Prop := ∃ n, Word.IsNumbered w n

theorem Word.not_hasNumber_of_constant {w : String} (h : Word.Constant w) : ¬ Word.HasNumber w :=
  fun ⟨n, hn⟩ => h.2 n hn

theorem Word.not_hasNumber_temp (n : Nat) : ¬ Word.HasNumber (Word.temp n) :=
  fun ⟨m, hm⟩ => Word.not_isNumbered_temp n m hm

namespace Symbol

def callHead? (s : Symbol) : Option CallHead := s.function?.map FunctionInfo.callHead

/-- What decides whether a function has to be written: whether it is built in, only declared, and virtual. -/
def standing? (s : Symbol) : Option (Bool × Bool × Bool) :=
  s.function?.map fun f => (f.isBuiltin, f.declared, f.virtual)

theorem detail_of_function {s : Symbol} (h : s.function? = some f) : s.detail = .function f := by
  unfold function? at h
  split at h
  · next g hd =>
    cases h
    exact hd
  · cases h

theorem callHead?_of_function {s : Symbol} (h : s.function? = some f) : s.callHead? = some f.callHead := by
  rw [callHead?, h]
  rfl

theorem exists_function_of_callHead? {s : Symbol} {h : CallHead} (hs : s.callHead? = some h) :
    ∃ f, s.function? = some f ∧ f.callHead = h :=
  Option.map_eq_some_iff.mp hs

@[simp] theorem rid_mapVariable (s : Symbol) (g : VariableInfo → VariableInfo) : (s.mapVariable g).rid = s.rid := by
  unfold mapVariable
  split <;> rfl

@[simp] theorem function?_mapVariable (s : Symbol) (g : VariableInfo → VariableInfo) :
    (s.mapVariable g).function? = s.function? := by
  rcases s with ⟨_, _, _, _, _ | _ | _ | _ | _⟩ <;> rfl

@[simp] theorem class?_mapVariable (s : Symbol) (g : VariableInfo → VariableInfo) :
    (s.mapVariable g).class? = s.class? := by
  rcases s with ⟨_, _, _, _, _ | _ | _ | _ | _⟩ <;> rfl

@[simp] theorem rid_mapFunction (s : Symbol) (g : FunctionInfo → FunctionInfo) : (s.mapFunction g).rid = s.rid := by
  unfold mapFunction
  split <;> rfl

@[simp] theorem function?_mapFunction (s : Symbol) (g : FunctionInfo → FunctionInfo) :
    (s.mapFunction g).function? = s.function?.map g := by
  rcases s with ⟨_, _, _, _, _ | _ | _ | _ | _⟩ <;> rfl

@[simp] theorem class?_mapFunction (s : Symbol) (g : FunctionInfo → FunctionInfo) :
    (s.mapFunction g).class? = s.class? := by
  rcases s with ⟨_, _, _, _, _ | _ | _ | _ | _⟩ <;> rfl

@[simp] theorem rid_mapClass (s : Symbol) (g : ClassInfo → ClassInfo) : (s.mapClass g).rid = s.rid := by
  unfold mapClass
  split <;> rfl

@[simp] theorem function?_mapClass (s : Symbol) (g : ClassInfo → ClassInfo) :
    (s.mapClass g).function? = s.function? := by
  rcases s with ⟨_, _, _, _, _ | _ | _ | _ | _⟩ <;> rfl

@[simp] theorem class?_mapClass (s : Symbol) (g : ClassInfo → ClassInfo) :
    (s.mapClass g).class? = s.class?.map g := by
  rcases s with ⟨_, _, _, _, _ | _ | _ | _ | _⟩ <;> rfl

end Symbol

namespace Calls

open SymbolTable

/-! ## Tables in which functions can be called -/

/-- A function that is there to make instances. -/
def IsConstructor (t : SymbolTable) (id : SymbolId) : Prop :=
  ∃ h, (t.get id).callHead? = some h ∧ h.kind = .construct ∧ h.builtin = false

/-- A symbol that a name may lead to. -/
structure Reachable (t : SymbolTable) (id : SymbolId) : Prop where
  known : id < t.symbols.size
  kind : ∀ h, (t.get id).callHead? = some h → h.kind ≠ .construct

/-- A parameter with a number that was given out, and whose raw id belongs to no function. -/
structure ParameterOk (n : Nat) (t : SymbolTable) (p : Parameter) : Prop where
  numbered : ∃ m < n, Word.IsNumbered p.rid m
  spared : ∀ id h, (t.get id).callHead? = some h → (t.get id).rid ≠ p.rid

/-- The raw ids of functions have numbers, those of built-in functions have none. Built-in functions are
never declared only. -/
structure FunctionOk (n : Nat) (t : SymbolTable) (rid : String) (f : FunctionInfo) : Prop where
  params : ∀ p ∈ f.params, ParameterOk n t p
  builtin : f.isBuiltin = true → ¬ Word.HasNumber rid ∧ f.declared = false
  numbered : f.isBuiltin = false → Word.HasNumber rid

/-- A class that knows its constructors as such, and nothing else. -/
structure ClassOk (t : SymbolTable) (c : ClassInfo) : Prop where
  constructors : ∀ id ∈ c.constructors, IsConstructor t id
  members : ∀ e ∈ c.members, Reachable t e.2
  statics : ∀ e ∈ c.statics, Reachable t e.2

/-- A symbol with a number that was given out, if it has a number. -/
structure SymbolOk (n : Nat) (t : SymbolTable) (s : Symbol) : Prop where
  below : ∀ m, Word.IsNumbered s.rid m → m < n
  function : ∀ f, s.function? = some f → FunctionOk n t s.rid f
  cls : ∀ c, s.class? = some c → ClassOk t c

/-- A table in which the raw id of a function says which function it is: `n` numbers were given out for
raw ids. -/
structure Callable (n : Nat) (t : SymbolTable) : Prop where
  symbols : ∀ id < t.symbols.size, SymbolOk n t (t.get id)
  own : ∀ i h, (t.get i).callHead? = some h → h.builtin = false →
    ∀ j < t.symbols.size, (t.get j).rid = (t.get i).rid → j = i
  names : ∀ scope ∈ t.scopes, ∀ e ∈ scope.names, Reachable t e.2

/-- A table that came out of another one: symbols keep their raw ids and their heads. -/
structure Grows (t t' : SymbolTable) : Prop where
  size : t.symbols.size ≤ t'.symbols.size
  rid : ∀ id < t.symbols.size, (t'.get id).rid = (t.get id).rid
  head : ∀ id < t.symbols.size, (t'.get id).callHead? = (t.get id).callHead?

/-- Two tables with the same raw ids and heads. -/
structure SameHeads (t t' : SymbolTable) : Prop where
  size : t'.symbols.size = t.symbols.size
  rid : ∀ id, (t'.get id).rid = (t.get id).rid
  head : ∀ id, (t'.get id).callHead? = (t.get id).callHead?

/-- Two tables with the same raw ids and heads, in which the same functions have to be written. -/
structure Alike (t t' : SymbolTable) : Prop extends SameHeads t t' where
  standing : ∀ id, (t'.get id).standing? = (t.get id).standing?

variable {n n' : Nat} {t t' t'' : SymbolTable} {s s' : Symbol} {id : SymbolId}

theorem Grows.refl (t : SymbolTable) : Grows t t := ⟨le_refl _, fun _ _ => rfl, fun _ _ => rfl⟩

theorem Grows.trans (h : Grows t t') (h' : Grows t' t'') : Grows t t'' := by
  have size := h.size
  refine ⟨h.size.trans h'.size, fun id hid => ?_, fun id hid => ?_⟩
  · rw [h'.rid id (by omega), h.rid id hid]
  · rw [h'.head id (by omega), h.head id hid]

theorem SameHeads.grows (h : SameHeads t t') : Grows t t' :=
  ⟨h.size.ge, fun id _ => h.rid id, fun id _ => h.head id⟩

theorem Alike.refl (t : SymbolTable) : Alike t t := ⟨⟨rfl, fun _ => rfl, fun _ => rfl⟩, fun _ => rfl⟩

theorem Alike.trans (h : Alike t t') (h' : Alike t' t'') : Alike t t'' :=
  ⟨⟨h'.size.trans h.size, fun id => (h'.rid id).trans (h.rid id),
    fun id => (h'.head id).trans (h.head id)⟩, fun id => (h'.standing id).trans (h.standing id)⟩

theorem Alike.of_symbols (h : t'.symbols = t.symbols) : Alike t t' := by
  have get : ∀ id, t'.get id = t.get id := fun id => by unfold SymbolTable.get; rw [h]
  exact ⟨⟨by rw [h], fun id => by rw [get], fun id => by rw [get]⟩, fun id => by rw [get]⟩

/-- Only symbols that were made are functions. -/
theorem lt_size_of_callHead? {h : CallHead} (hid : (t.get id).callHead? = some h) : id < t.symbols.size := by
  obtain ⟨f, hf, -⟩ := Symbol.exists_function_of_callHead? hid
  refine lt_size_of_sort_ne ?_
  rw [Symbol.sort_of_function hf]
  exact fun e => nomatch e

theorem Reachable.grows (h : Reachable t id) (hg : Grows t t') : Reachable t' id :=
  ⟨Nat.lt_of_lt_of_le h.known hg.size, by rw [hg.head id h.known]; exact h.kind⟩

theorem IsConstructor.grows (h : IsConstructor t id) (hg : Grows t t') : IsConstructor t' id := by
  obtain ⟨head, hhead, hc⟩ := h
  exact ⟨head, by rw [hg.head id (lt_size_of_callHead? hhead)]; exact hhead, hc⟩

theorem ClassOk.grows {c : ClassInfo} (h : ClassOk t c) (hg : Grows t t') : ClassOk t' c :=
  ⟨fun id hid => (h.constructors id hid).grows hg, fun e he => (h.members e he).grows hg,
    fun e he => (h.statics e he).grows hg⟩

theorem ParameterOk.alike (h : ParameterOk n t p) (ha : SameHeads t t') : ParameterOk n t' p :=
  ⟨h.numbered, fun id head hid => by rw [ha.rid]; exact h.spared id head (ha.head id ▸ hid)⟩

theorem FunctionOk.alike {rid : String} (h : FunctionOk n t rid f) (ha : SameHeads t t') : FunctionOk n t' rid f :=
  ⟨fun p hp => (h.params p hp).alike ha, h.builtin, h.numbered⟩

theorem SymbolOk.alike (h : SymbolOk n t s) (ha : SameHeads t t') : SymbolOk n t' s :=
  ⟨h.below, fun f hf => (h.function f hf).alike ha, fun c hc => (h.cls c hc).grows ha.grows⟩

/-- A symbol in which nothing that matters here has changed. -/
theorem SymbolOk.congr (h : SymbolOk n t s) (hrid : s'.rid = s.rid)
    (hf : s'.function? = s.function?) (hc : s'.class? = s.class?) : SymbolOk n t s' :=
  ⟨by rw [hrid]; exact h.below, by rw [hrid, hf]; exact h.function, by rw [hc]; exact h.cls⟩

section
variable (h : Callable n t)
include h

theorem Callable.mono (hn : n ≤ n') : Callable n' t := by
  refine ⟨fun id hid => ?_, h.own, h.names⟩
  have ok := h.symbols id hid
  refine ⟨fun m hm => Nat.lt_of_lt_of_le (ok.below m hm) hn, fun f hf => ?_, ok.cls⟩
  have okf := ok.function f hf
  refine ⟨fun p hp => ?_, okf.builtin, okf.numbered⟩
  obtain ⟨m, hm, hp'⟩ := (okf.params p hp).numbered
  exact ⟨⟨m, by omega, hp'⟩, (okf.params p hp).spared⟩

theorem Callable.of_alike (ha : SameHeads t t') (hs : ∀ id < t.symbols.size, SymbolOk n t (t'.get id))
    (hnames : ∀ scope ∈ t'.scopes, ∀ e ∈ scope.names, Reachable t e.2) : Callable n t' := by
  refine ⟨fun id hid => ?_, fun i head hi hb j hj hrid => ?_, fun scope hscope e he => ?_⟩
  · exact (hs id (by rwa [← ha.size])).alike ha
  · rw [ha.head] at hi
    rw [ha.rid, ha.rid] at hrid
    exact h.own i head hi hb j (by rwa [← ha.size]) hrid
  · exact (hnames scope hscope e he).grows ha.grows

/-- A table with the same symbols, in which no name was added. -/
theorem Callable.of_symbols (hs : t'.symbols = t.symbols)
    (hnames : ∀ scope ∈ t'.scopes, ∀ e ∈ scope.names, ∃ old ∈ t.scopes, e ∈ old.names) : Callable n t' := by
  refine h.of_alike (Alike.of_symbols hs).toSameHeads (fun id hid => ?_) fun scope hscope e he => ?_
  · rw [show t'.get id = t.get id by unfold SymbolTable.get; rw [hs]]
    exact h.symbols id hid
  · obtain ⟨old, hold, he'⟩ := hnames scope hscope e he
    exact h.names old hold e he'

omit h

/-! ## New symbols -/

/-- A symbol that may be made: its raw id is not that of a function, and if it is a function itself, its
raw id belongs to nothing else. -/
structure Fitting (n : Nat) (t : SymbolTable) (s : Symbol) : Prop where
  ok : SymbolOk n t s
  apart : ∀ i h, (t.get i).callHead? = some h → h.builtin = false → (t.get i).rid ≠ s.rid
  alone : ∀ h, s.callHead? = some h → h.builtin = false → ∀ i < t.symbols.size, (t.get i).rid ≠ s.rid
  spared : s.callHead?.isSome → ∀ i f, (t.get i).function? = some f → ∀ p ∈ f.params, p.rid ≠ s.rid
  params : ∀ f, s.function? = some f → ∀ p ∈ f.params, p.rid ≠ s.rid

include h

/-- A number that was not given out belongs to no symbol. -/
theorem Callable.not_numbered {m : Nat} (hm : n ≤ m) (hid : id < t.symbols.size) :
    ¬ Word.IsNumbered (t.get id).rid m := by
  intro hrid
  have := (h.symbols id hid).below m hrid
  omega

theorem Callable.parameterOk (hf : (t.get id).function? = some f) (hp : p ∈ f.params) : ParameterOk n t p := by
  have hid := lt_size_of_callHead? (Symbol.callHead?_of_function hf)
  exact ((h.symbols id hid).function f hf).params p hp

theorem Callable.hasNumber {head : CallHead} (hid : (t.get id).callHead? = some head) (hb : head.builtin = false) :
    Word.HasNumber (t.get id).rid := by
  obtain ⟨f, hf, rfl⟩ := Symbol.exists_function_of_callHead? hid
  exact ((h.symbols id (lt_size_of_callHead? hid)).function f hf).numbered hb

/-- A symbol with a number that was not given out before may be made. -/
theorem fitting_fresh {m : Nat} (hm : n ≤ m) (hrid : Word.IsNumbered s.rid m)
    (hok : SymbolOk n' t s) (hparams : ∀ f, s.function? = some f → ∀ p ∈ f.params, p.rid ≠ s.rid) :
    Fitting n' t s := by
  have alone : ∀ i < t.symbols.size, (t.get i).rid ≠ s.rid :=
    fun i hi he => h.not_numbered hm hi (he ▸ hrid)
  refine ⟨hok, fun i head hi _ => alone i (lt_size_of_callHead? hi), fun _ _ _ => alone, ?_, hparams⟩
  intro _ i f hf p hp he
  obtain ⟨k, hk, hp'⟩ := (h.parameterOk hf hp).numbered
  have := hrid.unique (he ▸ hp')
  omega

/-- A symbol without a number may be made. -/
theorem fitting_unnumbered (hrid : ¬ Word.HasNumber s.rid)
    (hok : SymbolOk n t s) (hs : ∀ head, s.callHead? = some head → head.builtin = true)
    (hparams : ∀ f, s.function? = some f → ∀ p ∈ f.params, p.rid ≠ s.rid) : Fitting n t s := by
  refine ⟨hok, fun i head hi hb he => hrid (he ▸ h.hasNumber hi hb), ?_, ?_, hparams⟩
  · intro head hhead hb
    rw [hs head hhead] at hb
    exact nomatch hb
  · intro _ i f hf p hp he
    obtain ⟨k, -, hp'⟩ := (h.parameterOk hf hp).numbered
    exact hrid ⟨k, he ▸ hp'⟩

omit h

/-- The symbol of a parameter may be made. -/
theorem fitting_parameter (hp : ParameterOk n t p) (hrid : s.rid = p.rid) (hf : s.function? = none)
    (hc : s.class? = none) : Fitting n t s := by
  have head : s.callHead? = none := by rw [Symbol.callHead?, hf]; rfl
  refine ⟨⟨?_, by simp [hf], by simp [hc]⟩, ?_, by simp [head], by simp [head], by simp [hf]⟩
  · intro m hm
    obtain ⟨k, hk, hp'⟩ := hp.numbered
    have := hm.unique (hrid ▸ hp')
    omega
  · intro i h hi _ he
    exact hp.spared i h hi (he.trans hrid)

theorem grows_add (t : SymbolTable) (s : Symbol) : Grows t (t.add s).2 := by
  refine ⟨by rw [size_add]; omega, fun id hid => ?_, fun id hid => ?_⟩
  · rw [get_add_of_lt t s hid]
  · rw [get_add_of_lt t s hid]

theorem ParameterOk.add (h : ParameterOk n t p) (hne : s.callHead?.isSome → p.rid ≠ s.rid) :
    ParameterOk n (t.add s).2 p := by
  refine ⟨h.numbered, fun id head hid he => ?_⟩
  rcases get_add_cases t s (lt_size_of_callHead? hid) with ⟨-, hget⟩ | ⟨-, hget⟩
  · rw [hget] at hid he
    exact h.spared id head hid he
  · rw [hget] at hid he
    exact hne (by rw [hid]; rfl) he.symm

include h

/-- A fitting symbol may be made. -/
theorem Callable.add (hs : Fitting n t s) : Callable n (t.add s).2 := by
  have hg := grows_add t s
  have ok : ∀ {u : Symbol}, SymbolOk n t u →
      (∀ f, u.function? = some f → ∀ p ∈ f.params, s.callHead?.isSome → p.rid ≠ s.rid) →
      SymbolOk n (t.add s).2 u := by
    intro u hu hne
    refine ⟨hu.below, fun f hf => ?_, fun c hc => (hu.cls c hc).grows hg⟩
    have okf := hu.function f hf
    exact ⟨fun p hp => (okf.params p hp).add (hne f hf p hp), okf.builtin, okf.numbered⟩
  refine ⟨fun id hid => ?_, fun i head hi hb j hj hrid => ?_, fun scope hscope e he => ?_⟩
  · rcases get_add_cases t s hid with ⟨hlt, hget⟩ | ⟨-, hget⟩
    · rw [hget]
      exact ok (h.symbols id hlt) fun f hf p hp hsome => hs.spared hsome id f hf p hp
    · rw [hget]
      exact ok hs.ok fun f hf p hp _ => hs.params f hf p hp
  · rcases get_add_cases t s (lt_size_of_callHead? hi) with ⟨hlt, hgi⟩ | ⟨hgt, hgi⟩ <;>
      rcases get_add_cases t s hj with ⟨hjlt, hgj⟩ | ⟨hjgt, hgj⟩ <;> rw [hgi] at hi <;>
      rw [hgi, hgj] at hrid
    · exact h.own i head hi hb j hjlt hrid
    · exact absurd hrid.symm (hs.apart i head hi hb)
    · exact absurd hrid (hs.alone head hi hb j hjlt)
    · rw [hgt, hjgt]
  · exact (h.names scope hscope e he).grows hg

omit h

theorem get_add_of_ne (t : SymbolTable) (s : Symbol) (h : id ≠ t.symbols.size) : (t.add s).2.get id = t.get id := by
  unfold SymbolTable.get SymbolTable.add
  simp only [Array.getD_eq_getD_getElem?, Array.getElem?_push, if_neg h]

theorem standing_add (t : SymbolTable) (h : s.function? = none) (id : SymbolId) :
    ((t.add s).2.get id).standing? = (t.get id).standing? := by
  by_cases hid : id = t.symbols.size
  · subst hid
    have new : (t.get t.symbols.size).standing? = none := by
      unfold SymbolTable.get
      rw [Array.getD_eq_getD_getElem?, Array.getElem?_eq_none (le_refl _)]
      rfl
    rw [get_add_self, new, Symbol.standing?, h]
    rfl
  · rw [get_add_of_ne t s hid]

/-! ## Changes of symbols -/

/-- One symbol is changed, and its raw id and its head stay. -/
theorem sameHeads_modify (hrid : (g (t.get id)).rid = (t.get id).rid)
    (hhead : (g (t.get id)).callHead? = (t.get id).callHead?) : SameHeads t (t.modify id g) := by
  refine ⟨size_modify t id g, fun j => ?_, fun j => ?_⟩
  · rw [get_modify]
    split
    · next hj => rw [hj.1, hrid]
    · rfl
  · rw [get_modify]
    split
    · next hj => rw [hj.1, hhead]
    · rfl

include h

theorem Callable.modify (id : SymbolId) (hrid : (g (t.get id)).rid = (t.get id).rid)
    (hhead : (g (t.get id)).callHead? = (t.get id).callHead?)
    (hok : SymbolOk n t (t.get id) → SymbolOk n t (g (t.get id))) :
    Callable n (t.modify id g) ∧ SameHeads t (t.modify id g) := by
  have ha := sameHeads_modify hrid hhead
  refine ⟨h.of_alike ha (fun j hj => ?_) h.names, ha⟩
  rw [get_modify]
  split
  · next he =>
    obtain ⟨rfl, -⟩ := he
    exact hok (h.symbols j hj)
  · exact h.symbols j hj

omit h

theorem standing_modify (h : (g (t.get id)).standing? = (t.get id).standing?) (j : SymbolId) :
    ((t.modify id g).get j).standing? = (t.get j).standing? := by
  rw [get_modify]
  split
  · next hj => rw [hj.1, h]
  · rfl

include h

theorem Callable.mapVariable (id : SymbolId) (g : VariableInfo → VariableInfo) :
    Callable n (t.modify id (Symbol.mapVariable g)) ∧ Alike t (t.modify id (Symbol.mapVariable g)) := by
  have changed := h.modify id (g := Symbol.mapVariable g) (by simp) (by simp [Symbol.callHead?])
    fun hok => hok.congr (by simp) (by simp) (by simp)
  exact ⟨changed.1, changed.2, standing_modify (by simp [Symbol.standing?])⟩

theorem Callable.mapClass (id : SymbolId) {g : ClassInfo → ClassInfo} (hg : ∀ c, ClassOk t c → ClassOk t (g c)) :
    Callable n (t.modify id (Symbol.mapClass g)) ∧ Alike t (t.modify id (Symbol.mapClass g)) := by
  have changed := h.modify id (g := Symbol.mapClass g) (by simp) (by simp [Symbol.callHead?]) fun hok => ?_
  · exact ⟨changed.1, changed.2, standing_modify (by simp [Symbol.standing?])⟩
  refine ⟨by simpa using hok.below, by simpa using hok.function, fun c hc => ?_⟩
  rw [Symbol.class?_mapClass] at hc
  obtain ⟨c', hc', rfl⟩ := Option.map_eq_some_iff.mp hc
  exact hg c' (hok.cls c' hc')

theorem Callable.mapFunction (id : SymbolId) {g : FunctionInfo → FunctionInfo}
    (hg : ∀ f, (t.get id).function? = some f → (g f).callHead = f.callHead ∧
      (FunctionOk n t (t.get id).rid f → FunctionOk n t (t.get id).rid (g f))) :
    Callable n (t.modify id (Symbol.mapFunction g)) ∧ SameHeads t (t.modify id (Symbol.mapFunction g)) := by
  refine h.modify id (by simp) ?_ fun hok => ⟨by simpa using hok.below, ?_, by simpa using hok.cls⟩
  · unfold Symbol.callHead?
    rw [Symbol.function?_mapFunction]
    cases hf : (t.get id).function? with
    | none => rfl
    | some f => exact congrArg some (hg f hf).1
  · intro f hf
    rw [Symbol.function?_mapFunction] at hf
    obtain ⟨f', hf', rfl⟩ := Option.map_eq_some_iff.mp hf
    rw [Symbol.rid_mapFunction]
    exact (hg f' hf').2 (hok.function f' hf')

/-- A function learns that it returns something. -/
theorem Callable.returned (id : SymbolId) :
    Callable n (t.modify id (Symbol.mapFunction fun f => { f with returned := true })) ∧
      Alike t (t.modify id (Symbol.mapFunction fun f => { f with returned := true })) := by
  have changed := h.mapFunction id (g := fun f => { f with returned := true }) fun f _ =>
    ⟨rfl, fun hok => ⟨hok.params, hok.builtin, hok.numbered⟩⟩
  refine ⟨changed.1, changed.2, standing_modify ?_⟩
  unfold Symbol.standing?
  rw [Symbol.function?_mapFunction, Option.map_map]
  rfl

omit h

/-! ## Scopes -/

theorem mem_scopes_mapScope {f : Scope → Scope} {scope : Scope} (h : scope ∈ (t.mapScope level f).scopes) :
    scope ∈ t.scopes ∨ ∃ old ∈ t.scopes, scope = f old := by
  unfold mapScope at h
  split at h
  · rcases List.mem_append.mp h with h | h
    · exact .inl (List.mem_append_left _ h)
    · exact .inr ⟨t.global, List.mem_append_right _ (List.mem_singleton.mpr rfl), List.mem_singleton.mp h⟩
  · rcases List.mem_append.mp h with h | h
    · obtain ⟨i, hi, rfl⟩ := List.mem_iff_getElem.mp h
      rw [List.length_modify] at hi
      rw [List.getElem_modify]
      split
      · exact .inr ⟨t.inner[i], List.mem_append_left _ (List.getElem_mem hi), rfl⟩
      · exact .inl (List.mem_append_left _ (List.getElem_mem hi))
    · exact .inl (List.mem_append_right _ h)

theorem symbols_mapScope (t : SymbolTable) (level : Nat) (f : Scope → Scope) :
    (t.mapScope level f).symbols = t.symbols := by
  unfold mapScope
  split <;> rfl

theorem get_mapScope (t : SymbolTable) (level : Nat) (f : Scope → Scope) (id : SymbolId) :
    (t.mapScope level f).get id = t.get id := by
  unfold SymbolTable.get
  rw [symbols_mapScope]

theorem alike_insertAt (hi : t.insertAt level id = .ok t') : Alike t t' := by
  have set : Alike t (t.modify id fun s => { s with level }) := ⟨sameHeads_modify rfl rfl, standing_modify rfl⟩
  rw [insertAt_eq hi]
  exact set.trans (.of_symbols (symbols_mapScope _ level (entered (t.get id) id)))

include h

/-- A symbol is entered in a scope. -/
theorem Callable.insertAt (hid : Reachable t id) (hi : t.insertAt level id = .ok t') :
    Callable n t' ∧ Alike t t' := by
  have set := h.modify id (g := fun s => { s with level }) rfl rfl fun hok =>
    hok.congr rfl rfl rfl
  have ha := alike_insertAt hi
  rw [insertAt_eq hi] at ha ⊢
  refine ⟨set.1.of_alike (Alike.of_symbols (symbols_mapScope _ _ _)).toSameHeads (fun j hj => ?_) ?_, ha⟩
  · rw [get_mapScope]
    exact set.1.symbols j hj
  · intro scope hscope e he
    rcases mem_scopes_mapScope hscope with hold | ⟨old, hold, rfl⟩
    · exact set.1.names scope hold e he
    · rcases mem_putEntry he with rfl | he
      · exact hid.grows set.2.grows
      · exact set.1.names old hold e he

theorem Callable.enter (kind : ScopeKind) : Callable n (t.enter kind) := by
  refine h.of_symbols rfl fun scope hscope e he => ?_
  rcases List.mem_cons.mp hscope with rfl | hscope
  · exact nomatch he
  · exact ⟨scope, hscope, he⟩

theorem Callable.exit : Callable n t.exit := by
  unfold SymbolTable.exit
  split
  · exact h
  · next scope rest hi =>
    refine h.of_symbols rfl fun scope' hscope e he => ⟨scope', ?_, he⟩
    unfold scopes
    rw [hi]
    exact List.mem_cons_of_mem _ hscope

omit h

theorem symbols_exit (t : SymbolTable) : t.exit.symbols = t.symbols := by
  unfold SymbolTable.exit
  split <;> rfl

include h

/-- However many scopes are closed, functions can still be called. -/
theorem Callable.exitMany (k : Nat) :
    Callable n (exitMany k t) ∧ (SymbolTable.exitMany k t).symbols = t.symbols := by
  induction k generalizing t with
  | zero => exact ⟨h, rfl⟩
  | succ k ih => exact ⟨(ih h.exit).1, (ih h.exit).2.trans (symbols_exit t)⟩

theorem Callable.registerType (id : SymbolId) : Callable n (t.registerType id) ∧ Alike t (t.registerType id) := by
  have symbols : (t.registerType id).symbols = t.symbols := symbols_mapScope t t.level _
  refine ⟨h.of_symbols symbols fun scope hscope e he => ?_, .of_symbols symbols⟩
  have scopes : (t.registerType id).scopes = (t.mapScope t.level fun scope =>
      { scope with types := scope.types ++ [(t.get id).rid] }).scopes := rfl
  rw [scopes] at hscope
  rcases mem_scopes_mapScope hscope with hold | ⟨old, hold, rfl⟩
  · exact ⟨scope, hold, he⟩
  · exact ⟨old, hold, he⟩

/-! ## Classes -/

theorem Callable.addMember {member : SymbolId} {static : Bool} (hm : Reachable t member)
    (ha : t.addMember cls member static = .ok t') : Callable n t' ∧ Alike t t' := by
  unfold SymbolTable.addMember at ha
  simp only at ha
  split at ha
  · cases ha
  · cases ha
    refine h.mapClass cls fun c hc => ?_
    have grown : ∀ {entries : List (String × SymbolId)} {name : String},
        (∀ e ∈ entries, Reachable t e.2) → ∀ e ∈ entries ++ [(name, member)], Reachable t e.2 := by
      intro entries name hentries e he
      rcases List.mem_append.mp he with he | he
      · exact hentries e he
      · rw [List.mem_singleton.mp he]
        exact hm
    split
    · exact ⟨hc.constructors, hc.members, grown hc.statics⟩
    · exact ⟨hc.constructors, grown hc.members, hc.statics⟩

theorem Callable.setBase {base : Option SymbolId} (hb : t.setBase id base pos = .ok t') :
    Callable n t' ∧ Alike t t' := by
  unfold SymbolTable.setBase at hb
  simp only at hb
  split at hb
  · cases hb
  · cases hb
    have first := h.mapClass id (g := fun c => { c with base }) fun c hc =>
      ⟨hc.constructors, hc.members, hc.statics⟩
    -- every class above learns of the new one below it
    generalize t.modify id (Symbol.mapClass fun c => { c with base }) = u at first ⊢
    generalize t.chain base = above
    induction above generalizing u with
    | nil => exact first
    | cons b above ih =>
      have next := first.1.mapClass b (g := fun c => { c with derived := c.derived ++ [id] })
        fun c hc => ⟨hc.constructors, hc.members, hc.statics⟩
      exact ih _ ⟨next.1, first.2.trans next.2⟩

theorem Callable.classOk (cls : SymbolId) : ClassOk t (t.classInfo cls) := by
  unfold SymbolTable.classInfo
  cases hc : (t.get cls).class? with
  | none => exact ⟨fun _ h => (nomatch h), fun _ h => (nomatch h), fun _ h => (nomatch h)⟩
  | some c =>
    have hid : cls < t.symbols.size := lt_size_of_sort_ne (by
      rw [Symbol.sort_of_class hc]
      exact fun e => nomatch e)
    exact (h.symbols cls hid).cls c hc

/-! ## What names lead to -/

theorem Callable.reachable_of_find? {ceiling : Option Int}
    (hf : t.find? name ceiling = some id) : Reachable t id := by
  obtain ⟨scope, hscope, hl⟩ := List.exists_of_findSome?_eq_some hf
  refine h.names scope ?_ _ (mem_of_lookup hl)
  unfold scopesFrom at hscope
  split at hscope
  · exact hscope
  · split at hscope
    · exact List.mem_of_mem_drop hscope
    · exact hscope

theorem Callable.reachable_of_lookup (hl : t.lookup name pos = .ok id) : Reachable t id :=
  h.reachable_of_find? (lookup_eq_ok.mp hl).1

theorem Callable.reachable_of_findInFunction (hf : t.findInFunction? name = some id) : Reachable t id := by
  obtain ⟨scope, hscope, hl⟩ := List.exists_of_findSome?_eq_some hf
  exact h.names scope (List.mem_of_mem_take hscope) _ (mem_of_lookup hl)

theorem Callable.reachable_of_member (hm : t.member? cls name = some id) : Reachable t id := by
  obtain ⟨c, -, hc⟩ := List.exists_of_findSome?_eq_some hm
  unfold ownMember? at hc
  rcases Option.or_eq_some_iff.mp hc with hl | ⟨-, hl⟩
  · exact (h.classOk c).members _ (mem_of_lookup hl)
  · exact (h.classOk c).statics _ (mem_of_lookup hl)

theorem Callable.reachable_of_memberFor {asserted : Permission}
    (hm : t.memberFor cls name asserted pos = .ok id) : Reachable t id := by
  unfold memberFor at hm
  split at hm
  · cases hm
  · next found hfound =>
    simp only at hm
    split at hm
    · cases hm
      exact h.reachable_of_member hfound
    · cases hm

end

end Calls

end Frontend
