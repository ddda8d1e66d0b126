import Frontend.Proofs.Calls.Logic
import Mathlib.Data.List.Perm.Subperm

/-!
# Changes of symbol tables

An instruction brings words in: the variable it makes room for, the function it opens with its parameters,
the class or the field it defines, the label it places. A function or class that was declared has a word that
its definition will bring in. Both kinds of words are held by a state.

What a symbol table may go through while its scopes stay open: symbols are made, entered in scopes and
completed, classes get members and bases. Every change keeps the core of each symbol, that is what
lowering never changes, and it keeps the table in order.
-/

namespace Frontend

variable {g : FunctionInfo → FunctionInfo} {c : ClassInfo} {cls member : SymbolId} {static : Bool} {level : Nat}
variable {v : VariableInfo}

/-! ## Words that code brings in -/

/-- The words that an instruction brings in. -/
def Instruction.introduces (i : Instruction) : List String :=
  match i.op with
  | .allot | .func | .funi | .set => i.args
  | .defineType => i.args.take 1
  | .addField | .addStaticField => i.args.drop 1
  | _ => []

/-- The words that an item of code brings in. -/
def CodeItem.introduces : CodeItem → List String
  | .instr i => i.introduces
  | .note _ | .passage _ => []

/-- The words that items of code bring in. -/
def introduced (items : List CodeItem) : List String := items.flatMap CodeItem.introduces

namespace Symbol

/-- A function or class that was declared and has no definition yet. -/
def isOpen (s : Symbol) : Bool :=
  match s.detail with
  | .function f => f.declared
  | .cls c => c.declared
  | _ => false

/-- The word that is left for a definition to bring in. -/
def open? (s : Symbol) : Option String := if s.isOpen then some s.rid else none

/-- The words that the definition of a symbol brings in: its own and those of its parameters. -/
def words (s : Symbol) : List String := s.rid :: (s.function?.getD {}).params.map (·.rid)

end Symbol

namespace SymbolTable

/-- The words that are left for definitions to bring in. -/
def openRids (t : SymbolTable) : List String := t.symbols.toList.filterMap Symbol.open?

/-- The classes that are registered by the open scopes. -/
def registered (t : SymbolTable) : List String := t.scopes.flatMap (·.types)

end SymbolTable

/-- A word that the supply has given out as a raw id, a temporary or a label. -/
def Supply.Gave (s : Supply) (w : String) : Prop :=
  (∃ n < s.rids, Word.IsNumbered w n) ∨ (∃ n < s.temps, w = Word.temp n) ∨ ∃ n < s.labels, w = Word.label n

/-- Every counter of the supply has gone on. -/
structure Supply.Before (s s' : Supply) : Prop where
  rids : s.rids ≤ s'.rids
  temps : s.temps ≤ s'.temps
  labels : s.labels ≤ s'.labels

/-- The words that a state holds. -/
def Lowering.held (s : Lowering) : List String := introduced s.out.items ++ s.table.openRids

/-! ## Supplies -/

namespace Supply

variable {s s' s'' : Supply} {w : String}

theorem Before.refl (s : Supply) : s.Before s := ⟨le_refl _, le_refl _, le_refl _⟩

theorem Before.trans (h : s.Before s') (h' : s'.Before s'') : s.Before s'' :=
  ⟨h.rids.trans h'.rids, h.temps.trans h'.temps, h.labels.trans h'.labels⟩

theorem Gave.mono (h : s.Gave w) (hle : s.Before s') : s'.Gave w := by
  rcases h with ⟨n, hn, h⟩ | ⟨n, hn, h⟩ | ⟨n, hn, h⟩
  · exact .inl ⟨n, hn.trans_le hle.rids, h⟩
  · exact .inr (.inl ⟨n, hn.trans_le hle.temps, h⟩)
  · exact .inr (.inr ⟨n, hn.trans_le hle.labels, h⟩)

/-- A raw id with a number that is still to come was not given out. -/
theorem not_gave_numbered {n : Nat} (hw : Word.IsNumbered w n) (hn : s.rids ≤ n) : ¬ s.Gave w := by
  rintro (⟨m, hm, h⟩ | ⟨m, -, rfl⟩ | ⟨m, -, rfl⟩)
  · have := hw.unique h
    omega
  · exact Word.not_isNumbered_temp m n hw
  · exact (Word.constant_label m).2 n hw

theorem not_gave_temp : ¬ s.Gave (Word.temp s.temps) := by
  rintro (⟨m, -, h⟩ | ⟨m, hm, h⟩ | ⟨m, -, h⟩)
  · exact Word.not_isNumbered_temp _ _ h
  · have := Word.temp_inj h
    omega
  · exact (Word.constant_label m).1 ⟨_, h.symm⟩

theorem not_gave_label : ¬ s.Gave (Word.label s.labels) := by
  rintro (⟨m, -, h⟩ | ⟨m, -, h⟩ | ⟨m, hm, h⟩)
  · exact (Word.constant_label _).2 m h
  · exact (Word.constant_label _).1 ⟨m, h⟩
  · have := Word.label_inj h
    omega

end Supply

/-! ## Words that code brings in -/

@[simp] theorem introduced_append (a b : List CodeItem) : introduced (a ++ b) = introduced a ++ introduced b :=
  List.flatMap_append

theorem introduced_perm {a b : List CodeItem} (h : a.Perm b) : (introduced a).Perm (introduced b) :=
  h.flatMap_right _

/-! ## Words that symbols hold -/

namespace SymbolTable

variable {t t' : SymbolTable} {id : SymbolId} {f : Symbol → Symbol}

theorem lt_size_of_isOpen (h : (t.get id).isOpen = true) : id < t.symbols.size := by
  by_contra hle
  rw [get_of_size_le (Nat.le_of_not_lt hle)] at h
  cases h

/-- A change of a symbol splits the symbols into those in front of it, itself and those behind it. -/
theorem exists_split (hid : id < t.symbols.size) (f : Symbol → Symbol) :
    ∃ pre post, t.symbols.toList = pre ++ t.get id :: post ∧
      (t.modify id f).symbols.toList = pre ++ f (t.get id) :: post := by
  have hlt : id < t.symbols.toList.length := by rwa [Array.length_toList]
  have hget : t.symbols.toList[id] = t.get id := by
    simp [get, Array.getD_eq_getD_getElem?, hid]
  refine ⟨t.symbols.toList.take id, t.symbols.toList.drop (id + 1), ?_, ?_⟩
  · rw [← hget, ← List.drop_eq_getElem_cons hlt, List.take_append_drop]
  · rw [modify, Array.toList_modify, List.modify_eq_take_cons_drop hlt, hget]

theorem modify_of_le (hid : t.symbols.size ≤ id) (f : Symbol → Symbol) : (t.modify id f).symbols = t.symbols := by
  apply Array.ext'
  rw [modify, Array.toList_modify, List.modify_eq_self (by simpa using hid)]

theorem openRids_add (t : SymbolTable) (s : Symbol) : (t.add s).2.openRids = t.openRids ++ s.open?.toList := by
  unfold openRids add
  cases h : s.open? <;> simp [h]

theorem openRids_of_symbols (h : t'.symbols = t.symbols) : t'.openRids = t.openRids := by
  rw [openRids, openRids, h]

/-- A change of a symbol that leaves it as open as it was. -/
theorem openRids_modify (h : (f (t.get id)).open? = (t.get id).open?) : (t.modify id f).openRids = t.openRids := by
  by_cases hid : id < t.symbols.size
  · obtain ⟨pre, post, hbefore, hafter⟩ := exists_split hid f
    rw [openRids, openRids, hbefore, hafter]
    simp only [List.filterMap_append, List.filterMap_cons, h]
  · exact openRids_of_symbols (modify_of_le (Nat.le_of_not_lt hid) f)

/-- A declaration is completed. -/
theorem openRids_complete (hopen : (t.get id).isOpen = true) (hclosed : (f (t.get id)).isOpen = false) :
    t.openRids.Perm ((t.get id).rid :: (t.modify id f).openRids) := by
  obtain ⟨pre, post, hbefore, hafter⟩ := exists_split (lt_size_of_isOpen hopen) f
  have hold : (t.get id).open? = some (t.get id).rid := if_pos hopen
  have hnew : (f (t.get id)).open? = none := if_neg (by simp [hclosed])
  rw [openRids, openRids, hbefore, hafter]
  simp only [List.filterMap_append, List.filterMap_cons, hold, hnew]
  exact List.perm_middle

end SymbolTable

/-! ## What stays of a symbol -/

/-- A word whose number was given out, if it has one. -/
def Word.Below (n : Nat) (w : String) : Prop := ∀ k, Word.IsNumbered w k → k < n

/-- What stays of a variable for good. -/
def VariableInfo.core (v : VariableInfo) : VariableInfo := { v with value := .missing, meaning := none }

/-- What stays of a function for good. -/
def FunctionInfo.core (f : FunctionInfo) : FunctionInfo := { f with params := [], returned := false, declared := false }

def SymbolDetail.core : SymbolDetail → SymbolDetail
  | .var v => .var v.core
  | .parameter v k => .parameter v.core k
  | .function f => .function f.core
  | .cls _ => .cls {}
  | .target => .target

/-- What stays of a symbol for good. -/
def Symbol.core (s : Symbol) : Symbol := { s with level := 0, detail := s.detail.core }

namespace SymbolTable

/-- A table that came out of another one. -/
structure Later (t t' : SymbolTable) : Prop where
  size : t.symbols.size ≤ t'.symbols.size
  core : ∀ id < t.symbols.size, (t'.get id).core = (t.get id).core
  closed : ∀ id < t.symbols.size, (t.get id).isOpen = false →
    (t'.get id).isOpen = false ∧ (t'.get id).words = (t.get id).words
  base : ∀ id base, (t.classInfo id).base = some base → (t'.classInfo id).base = some base

/-- A member of a class that is there. A field knows its class, and whether it is static. -/
structure MemberFit (t : SymbolTable) (cls : SymbolId) (static : Bool) (id : SymbolId) : Prop where
  known : id < t.symbols.size
  field : ∀ v, (t.get id).detail = .var v → v.owner = some cls ∧ v.static = static

/-- A class with members that fit. If it is only declared, it has neither members nor a base. -/
structure ClassFit (t : SymbolTable) (id : SymbolId) (c : ClassInfo) : Prop where
  declared : c.declared = true → c.members = [] ∧ c.statics = [] ∧ c.base = none
  members : ∀ e ∈ c.members, MemberFit t id false e.2
  statics : ∀ e ∈ c.statics, MemberFit t id true e.2

/-- A symbol whose words have numbers that were given out. -/
structure WordsBelow (n : Nat) (s : Symbol) : Prop where
  rid : Word.Below n s.rid
  params : ∀ f, s.function? = some f → ∀ p ∈ f.params, Word.Below n p.rid

/-- A table in order: `n` numbers were given out. -/
structure InOrder (n : Nat) (t : SymbolTable) : Prop where
  words : ∀ id, WordsBelow n (t.get id)
  classes : ∀ id c, (t.get id).class? = some c → ClassFit t id c

/-- A change of a table, when `n` numbers have been given out. Words that are due become words that open
symbols hold, or the other way round. -/
inductive Change (n : Nat) : List String → SymbolTable → List String → SymbolTable → Prop where
  | value {ws t} (id : SymbolId) (g : VariableInfo → VariableInfo) (hg : ∀ v, (g v).core = v.core) :
      Change n ws t ws (t.modify id (Symbol.mapVariable g))
  | returned {ws t} (id : SymbolId) :
      Change n ws t ws (t.modify id (Symbol.mapFunction fun f => { f with returned := true }))
  | fulfil {ws t} (id : SymbolId) (params : List Parameter) (hopen : (t.get id).isOpen = true)
      (hfun : (t.get id).function?.isSome = true) (hparams : ∀ p ∈ params, Word.Below n p.rid) :
      Change n ws t ((t.get id).rid :: ws)
        (t.modify id (Symbol.mapFunction fun f => { f with params, declared := false }))
  | openClass {ws t} (id : SymbolId) (hopen : (t.get id).isOpen = true) (hcls : (t.get id).class?.isSome = true) :
      Change n ws t ((t.get id).rid :: ws) (t.modify id (Symbol.mapClass fun c => { c with declared := false }))
  | permission {ws t} (id : SymbolId) (p : Permission) :
      Change n ws t ws (t.modify id (Symbol.mapClass fun c => { c with defaultPermission := p }))
  | collected {ws t} (id : SymbolId) :
      Change n ws t ws (t.modify id (Symbol.mapClass fun c => { c with finished := true }))
  | base {ws t t'} {cls : SymbolId} {base : Option SymbolId} {pos : Position} (hcls : (t.get cls).isOpen = false)
      (hbase : (t.classInfo cls).base = none) (h : t.setBase cls base pos = .ok t') : Change n ws t ws t'
  | constructor {ws t} (cls id : SymbolId) :
      Change n ws t ws (t.modify cls (Symbol.mapClass fun c => { c with constructors := c.constructors ++ [id] }))
  | member {ws t t'} {cls id : SymbolId} {static : Bool} (hid : MemberFit t cls static id)
      (hcls : (t.get cls).isOpen = false)
      (h : t.addMember cls id static = .ok t') : Change n ws t ws t'
  | enter {ws t t'} {level : Nat} {id : SymbolId} (hlevel : level = t.level ∨ level = 0)
      (h : t.insertAt level id = .ok t') : Change n ws t ws t'
  /-- A symbol is made that is neither a variable nor a class. -/
  | make {ws ws' t} (sym : Symbol) (hvar : ∀ v, sym.detail ≠ .var v) (hcls : sym.class? = none)
      (hws : ws = sym.open?.toList ++ ws') (hdue : sym.rid ∈ ws ∨ ¬ Word.HasNumber sym.rid) (hwords : WordsBelow n sym) :
      Change n ws t ws' (t.add sym).2

end SymbolTable

/-! ## Cores -/

theorem Word.Below.mono {n n' : Nat} {w : String} (h : Word.Below n w) (hn : n ≤ n') : Word.Below n' w :=
  fun k hk => (h k hk).trans_le hn

theorem Word.below_of_not_hasNumber {n : Nat} {w : String} (h : ¬ Word.HasNumber w) : Word.Below n w :=
  fun k hk => absurd ⟨k, hk⟩ h

theorem Word.below_numbered (base : String) {m n : Nat} (h : m < n) : Word.Below n (Word.numbered base m) := by
  intro k hk
  rwa [hk.unique (Word.isNumbered_numbered base m)]

namespace Symbol

variable {s s' : Symbol}

theorem core_mapVariable {g : VariableInfo → VariableInfo} (hg : ∀ v, (g v).core = v.core) :
    (s.mapVariable g).core = s.core := by
  rcases s with ⟨_, _, _, _, _ | _ | _ | _ | _⟩ <;> simp [mapVariable, core, SymbolDetail.core, hg]

theorem core_mapFunction (hg : ∀ f, (g f).core = f.core) : (s.mapFunction g).core = s.core := by
  rcases s with ⟨_, _, _, _, _ | _ | _ | _ | _⟩ <;> simp [mapFunction, core, SymbolDetail.core, hg]

theorem core_mapClass (g : ClassInfo → ClassInfo) : (s.mapClass g).core = s.core := by
  rcases s with ⟨_, _, _, _, _ | _ | _ | _ | _⟩ <;> rfl

section
variable (h : s'.core = s.core)
include h

theorem name_of_core : s'.name = s.name := (Symbol.mk.inj h).1

theorem rid_of_core : s'.rid = s.rid := (Symbol.mk.inj h).2.1

theorem detail_of_core : s'.detail.core = s.detail.core := (Symbol.mk.inj h).2.2.2.2

theorem var_of_core (hv : s.detail = .var v) : ∃ v', s'.detail = .var v' ∧ v'.core = v.core := by
  have hdetail := detail_of_core h
  rw [hv] at hdetail
  cases hs : s'.detail with
  | var v' =>
    rw [hs] at hdetail
    exact ⟨v', rfl, SymbolDetail.var.inj hdetail⟩
  | _ =>
    rw [hs] at hdetail
    cases hdetail

end

theorem var?_core (s : Symbol) : s.core.var? = s.var?.map VariableInfo.core := by
  rcases s with ⟨_, _, _, _, _ | _ | _ | _ | _⟩ <;> rfl

theorem function?_core (s : Symbol) : s.core.function? = s.function?.map FunctionInfo.core := by
  rcases s with ⟨_, _, _, _, _ | _ | _ | _ | _⟩ <;> rfl

theorem class?_core (s : Symbol) : s.core.class? = s.class?.map fun _ => {} := by
  rcases s with ⟨_, _, _, _, _ | _ | _ | _ | _⟩ <;> rfl

section
variable (h : s'.core = s.core)
include h

theorem var?_of_core (hv : s.var? = some v) : ∃ v', s'.var? = some v' ∧ v'.core = v.core := by
  have hvar := congrArg Symbol.var? h
  rw [var?_core, var?_core, hv] at hvar
  exact Option.map_eq_some_iff.mp hvar

theorem function?_of_core {f : FunctionInfo} (hf : s.function? = some f) :
    ∃ f', s'.function? = some f' ∧ f'.core = f.core := by
  have hfun := congrArg Symbol.function? h
  rw [function?_core, function?_core, hf] at hfun
  exact Option.map_eq_some_iff.mp hfun

theorem isSome_function?_of_core : s'.function?.isSome = s.function?.isSome := by
  have hfun := congrArg (fun s => s.function?.isSome) h
  simpa only [function?_core, Option.isSome_map] using hfun

theorem isSome_class?_of_core : s'.class?.isSome = s.class?.isSome := by
  have hcls := congrArg (fun s => s.class?.isSome) h
  simpa only [class?_core, Option.isSome_map] using hcls

end

theorem function?_eq_none_of_class? (h : s.class?.isSome = true) : s.function? = none := by
  rcases s with ⟨_, _, _, _, _ | _ | _ | _ | _⟩ <;> first | rfl | cases h

/-! ## Open symbols -/

@[simp] theorem isOpen_mapVariable (g : VariableInfo → VariableInfo) : (s.mapVariable g).isOpen = s.isOpen := by
  rcases s with ⟨_, _, _, _, _ | _ | _ | _ | _⟩ <;> rfl

theorem isOpen_mapFunction (hg : ∀ f, (g f).declared = f.declared) : (s.mapFunction g).isOpen = s.isOpen := by
  obtain ⟨name, rid, pos, level, detail⟩ := s
  cases detail with
  | function f => exact hg f
  | _ => rfl

theorem isOpen_mapClass {g : ClassInfo → ClassInfo} (hg : ∀ c, (g c).declared = c.declared) :
    (s.mapClass g).isOpen = s.isOpen := by
  obtain ⟨name, rid, pos, level, detail⟩ := s
  cases detail with
  | cls c => exact hg c
  | _ => rfl

theorem open?_congr (hrid : s'.rid = s.rid) (hopen : s'.isOpen = s.isOpen) : s'.open? = s.open? := by
  rw [open?, open?, hrid, hopen]

@[simp] theorem words_mapVariable (g : VariableInfo → VariableInfo) : (s.mapVariable g).words = s.words := by
  rw [words, words, rid_mapVariable, function?_mapVariable]

@[simp] theorem words_mapClass (g : ClassInfo → ClassInfo) : (s.mapClass g).words = s.words := by
  rw [words, words, rid_mapClass, function?_mapClass]

theorem words_mapFunction (hg : ∀ f, (g f).params = f.params) : (s.mapFunction g).words = s.words := by
  rw [words, words, rid_mapFunction, function?_mapFunction]
  cases s.function? with
  | none => rfl
  | some f => simp [hg]

theorem declared_of_isOpen (h : s.class? = some c) : s.isOpen = c.declared := by
  obtain ⟨name, rid, pos, level, detail⟩ := s
  cases detail with
  | cls c' => exact congrArg ClassInfo.declared (Option.some.inj h)
  | _ => cases h

theorem function?_isOpen {f : FunctionInfo} (h : s.function? = some f) : s.isOpen = f.declared := by
  obtain ⟨name, rid, pos, level, detail⟩ := s
  cases detail with
  | function f' => exact congrArg FunctionInfo.declared (Option.some.inj h)
  | _ => cases h

end Symbol

namespace SymbolTable

variable {n n' : Nat} {t t' t'' : SymbolTable} {id : SymbolId} {f : Symbol → Symbol} {ws ws' : List String}

/-! ## Later tables -/

theorem Later.refl (t : SymbolTable) : Later t t :=
  ⟨le_refl _, fun _ _ => rfl, fun _ _ h => ⟨h, rfl⟩, fun _ _ h => h⟩

theorem Later.trans (h : Later t t') (h' : Later t' t'') : Later t t'' where
  size := h.size.trans h'.size
  core := fun id hid => (h'.core id (hid.trans_le h.size)).trans (h.core id hid)
  closed := fun id hid hopen => by
    obtain ⟨hopen', hwords⟩ := h.closed id hid hopen
    obtain ⟨hopen'', hwords'⟩ := h'.closed id (hid.trans_le h.size) hopen'
    exact ⟨hopen'', hwords'.trans hwords⟩
  base := fun id base hbase => h'.base id base (h.base id base hbase)

theorem get_of_symbols (h : t'.symbols = t.symbols) (id : SymbolId) : t'.get id = t.get id := by
  unfold SymbolTable.get
  rw [h]

theorem Later.of_symbols (h : t'.symbols = t.symbols) : Later t t' where
  size := by rw [h]
  core := fun id _ => by rw [get_of_symbols h]
  closed := fun id _ hopen => by rw [get_of_symbols h]; exact ⟨hopen, rfl⟩
  base := fun id base hbase => by rw [classInfo, get_of_symbols h]; exact hbase

theorem classInfo_of_class? (h : (t.get id).class? = some c) : t.classInfo id = c := by
  rw [classInfo, h]
  rfl

theorem exists_class_of_base {base : SymbolId} (h : (t.classInfo id).base = some base) :
    ∃ c, (t.get id).class? = some c ∧ c.base = some base := by
  unfold classInfo at h
  cases hc : (t.get id).class? with
  | none =>
    rw [hc] at h
    cases h
  | some c =>
    rw [hc] at h
    exact ⟨c, rfl, h⟩

/-- A class is a symbol that was made. -/
theorem lt_size_of_class? (h : (t.get id).class? = some c) : id < t.symbols.size := by
  by_contra hle
  rw [get_of_size_le (Nat.le_of_not_lt hle)] at h
  cases h

/-- A function is a symbol that was made. -/
theorem lt_size_of_function? {f : FunctionInfo} (h : (t.get id).function? = some f) : id < t.symbols.size := by
  by_contra hle
  rw [get_of_size_le (Nat.le_of_not_lt hle)] at h
  cases h

theorem later_modify (hcore : (f (t.get id)).core = (t.get id).core)
    (hclosed : (t.get id).isOpen = false → (f (t.get id)).isOpen = false ∧ (f (t.get id)).words = (t.get id).words)
    (hbase : ∀ c base, (t.get id).class? = some c → c.base = some base →
      ∃ c', (f (t.get id)).class? = some c' ∧ c'.base = some base) : Later t (t.modify id f) where
  size := by rw [size_modify]
  core := fun j _ => by
    rw [get_modify]
    split
    · next hj => rw [hj.1, hcore]
    · rfl
  closed := fun j _ hopen => by
    rw [get_modify]
    split
    · next hj =>
      rw [hj.1] at hopen ⊢
      exact hclosed hopen
    · exact ⟨hopen, rfl⟩
  base := fun j base hj => by
    obtain ⟨c, hc, hcbase⟩ := exists_class_of_base hj
    rw [classInfo, get_modify]
    split
    · next hid =>
      rw [hid.1] at hc ⊢
      obtain ⟨c', hc', hbase'⟩ := hbase c base hc hcbase
      rw [hc']
      exact hbase'
    · exact hj

theorem later_mapClass {g : ClassInfo → ClassInfo} (hdeclared : ∀ c, c.declared = false → (g c).declared = false)
    (hbase : ∀ c base, (t.get id).class? = some c → c.base = some base → (g c).base = some base) :
    Later t (t.modify id (Symbol.mapClass g)) := by
  refine later_modify (Symbol.core_mapClass g) (fun hopen => ⟨?_, Symbol.words_mapClass g⟩) fun c base hc hb => ?_
  · cases hc : (t.get id).class? with
    | none =>
      have hsame : (t.get id).mapClass g = t.get id := by
        unfold Symbol.mapClass
        split
        · next c hd =>
          rw [Symbol.class?, hd] at hc
          cases hc
        · rfl
      rw [hsame, hopen]
    | some c =>
      have hc' : ((t.get id).mapClass g).class? = some (g c) := by rw [Symbol.class?_mapClass, hc]; rfl
      rw [Symbol.declared_of_isOpen hc']
      exact hdeclared c ((Symbol.declared_of_isOpen hc).symm.trans hopen)
  · exact ⟨g c, by rw [Symbol.class?_mapClass, hc]; rfl, hbase c base hc hb⟩

theorem later_add (t : SymbolTable) (sym : Symbol) : Later t (t.add sym).2 where
  size := by
    rw [size_add]
    exact Nat.le_succ _
  core := fun id hid => by rw [get_add_of_lt t sym hid]
  closed := fun id hid hopen => by
    rw [get_add_of_lt t sym hid]
    exact ⟨hopen, rfl⟩
  base := fun id base hbase => by
    obtain ⟨c, hc, -⟩ := exists_class_of_base hbase
    rw [classInfo, get_add_of_lt t sym (lt_size_of_class? hc)]
    exact hbase

/-! ## Tables in order -/

theorem WordsBelow.mono {s : Symbol} (h : WordsBelow n s) (hn : n ≤ n') : WordsBelow n' s :=
  ⟨h.rid.mono hn, fun f hf p hp => (h.params f hf p hp).mono hn⟩

theorem InOrder.mono (h : InOrder n t) (hn : n ≤ n') : InOrder n' t := ⟨fun id => (h.words id).mono hn, h.classes⟩

theorem MemberFit.later (h : MemberFit t cls static id) (hl : Later t t') : MemberFit t' cls static id where
  known := h.known.trans_le hl.size
  field := fun v hv => by
    obtain ⟨v', hv', hcore⟩ := Symbol.var_of_core (hl.core id h.known).symm hv
    obtain ⟨howner, hstatic⟩ := h.field v' hv'
    exact ⟨(congrArg VariableInfo.owner hcore).symm.trans howner, (congrArg VariableInfo.static hcore).symm.trans hstatic⟩

theorem ClassFit.later (h : ClassFit t id c) (hl : Later t t') : ClassFit t' id c where
  declared := h.declared
  members := fun e he => (h.members e he).later hl
  statics := fun e he => (h.statics e he).later hl

theorem InOrder.of_symbols (h : InOrder n t) (hs : t'.symbols = t.symbols) : InOrder n t' where
  words := fun id => by
    rw [get_of_symbols hs]
    exact h.words id
  classes := fun id c hc => by
    rw [get_of_symbols hs] at hc
    exact (h.classes id c hc).later (.of_symbols hs)

/-- A symbol is changed. -/
theorem InOrder.modify (h : InOrder n t) (hl : Later t (t.modify id f)) (hwords : WordsBelow n (f (t.get id)))
    (hclass : ∀ c, (f (t.get id)).class? = some c → ClassFit t id c) : InOrder n (t.modify id f) where
  words := fun j => by
    rw [get_modify]
    split
    · next hj =>
      rw [hj.1]
      exact hwords
    · exact h.words j
  classes := fun j c hc => by
    rw [get_modify] at hc
    split at hc
    · next hj =>
      rw [hj.1] at hc ⊢
      exact (hclass c hc).later hl
    · exact (h.classes j c hc).later hl

/-- A symbol is made; a class has nothing yet. -/
theorem InOrder.add (h : InOrder n t) (sym : Symbol) (hwords : WordsBelow n sym)
    (hclass : ∀ c, sym.class? = some c → c.members = [] ∧ c.statics = [] ∧ c.base = none) :
    InOrder n (t.add sym).2 := by
  have hcases : ∀ j, (t.add sym).2.get j = t.get j ∨ (t.add sym).2.get j = sym := by
    intro j
    by_cases hj : j < (t.add sym).2.symbols.size
    · rcases get_add_cases t sym hj with ⟨-, hget⟩ | ⟨-, hget⟩
      · exact .inl hget
      · exact .inr hget
    · have hle := Nat.le_of_not_lt hj
      rw [get_of_size_le hle, get_of_size_le (by rw [size_add] at hle; omega)]
      exact .inl rfl
  refine ⟨fun j => ?_, fun j c hc => ?_⟩
  · rcases hcases j with hget | hget
    · rw [hget]
      exact h.words j
    · rw [hget]
      exact hwords
  · rcases hcases j with hget | hget
    · rw [hget] at hc
      exact (h.classes j c hc).later (later_add t sym)
    · rw [hget] at hc
      obtain ⟨hmembers, hstatics, hbase⟩ := hclass c hc
      refine ⟨fun _ => ⟨hmembers, hstatics, hbase⟩, fun e he => ?_, fun e he => ?_⟩
      · rw [hmembers] at he
        cases he
      · rw [hstatics] at he
        cases he

/-! ## The parts of changes -/

/-- The same scopes are open, and the same classes are registered in them. Names may be new in the innermost
scope and in the global one. -/
structure SamePlaces (t t' : SymbolTable) : Prop where
  scopes : SameScopes t t'
  outermost : t'.global.kind = t.global.kind
  types : t'.scopes.map (·.types) = t.scopes.map (·.types)
  registry : t'.types = t.types

theorem SamePlaces.trans (h : SamePlaces t t') (h' : SamePlaces t' t'') : SamePlaces t t'' :=
  ⟨h.scopes.trans h'.scopes, h'.outermost.trans h.outermost, h'.types.trans h.types, h'.registry.trans h.registry⟩

theorem SamePlaces.of_eq (hinner : t'.inner = t.inner) (hglobal : t'.global = t.global) (htypes : t'.types = t.types) :
    SamePlaces t t' :=
  ⟨.of_eq hinner, by rw [hglobal], by rw [SymbolTable.scopes, SymbolTable.scopes, hinner, hglobal], htypes⟩

theorem SamePlaces.refl (t : SymbolTable) : SamePlaces t t := .of_eq rfl rfl rfl

/-- A change of the innermost or the global scope that leaves its kind and its classes alone. -/
theorem samePlaces_mapScope {g : Scope → Scope} (hlevel : level = t.level ∨ level = 0)
    (hkind : ∀ scope, (g scope).kind = scope.kind) (htypes : ∀ scope, (g scope).types = scope.types) :
    SamePlaces t (t.mapScope level g) := by
  unfold mapScope
  split
  · exact ⟨.of_eq rfl, hkind _, by simp [SymbolTable.scopes, htypes], rfl⟩
  · next hpos =>
    have hdrop : t.level - level = 0 := by omega
    rw [hdrop]
    cases hinner : t.inner with
    | nil => exact .of_eq hinner.symm rfl rfl
    | cons top rest =>
      rw [List.modify_zero_cons]
      refine ⟨⟨?_, ?_⟩, rfl, ?_, rfl⟩
      · rw [hinner, List.map_cons, List.map_cons, hkind]
      · rw [hinner, List.tail_cons, List.tail_cons]
      · simp only [SymbolTable.scopes, hinner, List.cons_append, List.map_cons, htypes]

/-- A symbol is entered in a scope. -/
theorem samePlaces_insertAt (hlevel : level = t.level ∨ level = 0) (h : t.insertAt level id = .ok t') :
    SamePlaces t t' := by
  rw [insertAt_eq h]
  have hmodify : SamePlaces t (t.modify id fun s => { s with level }) := .of_eq rfl rfl rfl
  exact hmodify.trans (samePlaces_mapScope hlevel (fun _ => rfl) fun _ => rfl)

/-- The symbols behind an entry differ in one level. -/
theorem symbols_insertAt (h : t.insertAt level id = .ok t') :
    t'.symbols = (t.modify id fun s => { s with level }).symbols := by
  rw [insertAt_eq h, Calls.symbols_mapScope]

theorem later_insertAt (h : t.insertAt level id = .ok t') : Later t t' :=
  (later_modify rfl (fun hopen => ⟨hopen, rfl⟩) fun c _ hc hbase => ⟨c, hc, hbase⟩).trans
    (.of_symbols (symbols_insertAt h))

theorem InOrder.insertAt (ho : InOrder n t) (h : t.insertAt level id = .ok t') : InOrder n t' := by
  refine InOrder.of_symbols (ho.modify ?_ ⟨(ho.words id).rid, (ho.words id).params⟩ fun c hc => ho.classes id c hc)
    (symbols_insertAt h)
  exact later_modify rfl (fun hopen => ⟨hopen, rfl⟩) fun c _ hc hbase => ⟨c, hc, hbase⟩

/-- A class is changed in something that is no member, no base and no declaration. -/
theorem InOrder.mapClass {g : ClassInfo → ClassInfo} (ho : InOrder n t) (hl : Later t (t.modify id (Symbol.mapClass g)))
    (hg : ∀ c, ClassFit t id c → ClassFit t id (g c)) : InOrder n (t.modify id (Symbol.mapClass g)) := by
  refine ho.modify hl ⟨?_, fun f hf => ?_⟩ fun c hc => ?_
  · rw [Symbol.rid_mapClass]
    exact (ho.words id).rid
  · rw [Symbol.function?_mapClass] at hf
    exact (ho.words id).params f hf
  · rw [Symbol.class?_mapClass] at hc
    obtain ⟨c', hc', rfl⟩ := Option.map_eq_some_iff.mp hc
    exact hg c' (ho.classes id c' hc')

/-- What a class that is hung below another one leaves as it was. -/
theorem setBase_induction {P : SymbolTable → Prop} {base : Option SymbolId} {pos : Position}
    (h : t.setBase cls base pos = .ok t') (hbase : P (t.modify cls (Symbol.mapClass fun c => { c with base })))
    (hderived : ∀ u b, P u → P (u.modify b (Symbol.mapClass fun c => { c with derived := c.derived ++ [cls] }))) :
    P t' := by
  have hung : ∀ (above : List SymbolId) (u : SymbolTable), P u → P (above.foldl (fun u b =>
      u.modify b (Symbol.mapClass fun c => { c with derived := c.derived ++ [cls] })) u) := by
    intro above
    induction above with
    | nil => exact fun _ hu => hu
    | cons b above ih => exact fun u hu => ih _ (hderived u b hu)
  unfold setBase at h
  dsimp only at h
  split at h
  · cases h
  · cases h
    exact hung _ _ hbase

theorem addMember_eq (h : t.addMember cls member static = .ok t') : t' = t.modify cls (Symbol.mapClass fun c =>
      if static then { c with statics := c.statics ++ [((t.get member).name, member)] }
      else { c with members := c.members ++ [((t.get member).name, member)] }) := by
  unfold addMember at h
  dsimp only at h
  split at h
  · cases h
  · cases h
    rfl

theorem later_addMember (h : t.addMember cls member static = .ok t') : Later t t' := by
  rw [addMember_eq h]
  refine later_mapClass (fun c hc => ?_) fun c base _ hbase => ?_ <;> split <;> assumption

theorem InOrder.addMember (ho : InOrder n t) (hmember : MemberFit t cls static member)
    (hcls : (t.get cls).isOpen = false) (h : t.addMember cls member static = .ok t') : InOrder n t' := by
  have hl := later_addMember h
  rw [addMember_eq h] at hl ⊢
  refine ho.modify hl ⟨?_, fun f hf => ?_⟩ fun c hc => ?_
  · rw [Symbol.rid_mapClass]
    exact (ho.words cls).rid
  · rw [Symbol.function?_mapClass] at hf
    exact (ho.words cls).params f hf
  · rw [Symbol.class?_mapClass] at hc
    obtain ⟨c', hc', rfl⟩ := Option.map_eq_some_iff.mp hc
    have hfit := ho.classes cls c' hc'
    have hdeclared : c'.declared = false := (Symbol.declared_of_isOpen hc').symm.trans hcls
    cases static with
    | true =>
      refine ⟨fun hd => absurd (hdeclared.symm.trans hd) Bool.false_ne_true, hfit.members, ?_⟩
      exact List.forall_mem_append.mpr ⟨hfit.statics, List.forall_mem_singleton.mpr hmember⟩
    | false =>
      refine ⟨fun hd => absurd (hdeclared.symm.trans hd) Bool.false_ne_true, ?_, hfit.statics⟩
      exact List.forall_mem_append.mpr ⟨hfit.members, List.forall_mem_singleton.mpr hmember⟩

/-! ## What every change leaves as it was -/

theorem Change.samePlaces (h : Change n ws t ws' t') : SamePlaces t t' := by
  cases h with
  | base hcls hbase h =>
    exact setBase_induction (P := SamePlaces t) h (.of_eq rfl rfl rfl) fun _ _ hu => hu.trans (.of_eq rfl rfl rfl)
  | member hid hcls h =>
    rw [addMember_eq h]
    exact .of_eq rfl rfl rfl
  | enter hlevel h => exact samePlaces_insertAt hlevel h
  | _ => exact .of_eq rfl rfl rfl

theorem Change.later (h : Change n ws t ws' t') : Later t t' := by
  cases h with
  | value id g hg =>
    exact later_modify (Symbol.core_mapVariable hg)
      (fun hopen => ⟨(Symbol.isOpen_mapVariable g).trans hopen, Symbol.words_mapVariable g⟩)
      fun c _ hc hbase => ⟨c, (Symbol.class?_mapVariable ..).trans hc, hbase⟩
  | returned id =>
    refine later_modify (Symbol.core_mapFunction fun _ => rfl) (fun hopen => ⟨?_, ?_⟩)
      fun c _ hc hbase => ⟨c, (Symbol.class?_mapFunction ..).trans hc, hbase⟩
    · exact (Symbol.isOpen_mapFunction (g := fun f => { f with returned := true }) fun _ => rfl).trans hopen
    · exact Symbol.words_mapFunction fun _ => rfl
  | fulfil id params hopen hfun hparams =>
    exact later_modify (Symbol.core_mapFunction fun _ => rfl)
      (fun hclosed => absurd (hopen.symm.trans hclosed) Bool.true_eq_false.mp)
      fun c _ hc hbase => ⟨c, (Symbol.class?_mapFunction ..).trans hc, hbase⟩
  | openClass id hopen hcls => exact later_mapClass (fun _ _ => rfl) fun _ _ _ hbase => hbase
  | permission id p => exact later_mapClass (fun _ h => h) fun _ _ _ hbase => hbase
  | collected id => exact later_mapClass (fun _ h => h) fun _ _ _ hbase => hbase
  | base hcls hbase h =>
    refine setBase_induction (P := Later t) h ?_ fun u b hu => hu.trans ?_
    · refine later_mapClass (fun _ h => h) fun c base hc hb => ?_
      rw [classInfo_of_class? hc, hb] at hbase
      cases hbase
    · exact later_mapClass (fun _ h => h) fun _ _ _ hbase => hbase
  | constructor cls id => exact later_mapClass (fun _ h => h) fun _ _ _ hbase => hbase
  | member hid hcls h => exact later_addMember h
  | enter hlevel h => exact later_insertAt h
  | make sym hvar hcls hws hdue hwords => exact later_add t sym

theorem InOrder.change (ho : InOrder n t) (h : Change n ws t ws' t') : InOrder n t' := by
  have hl := h.later
  cases h with
  | value id g hg =>
    refine ho.modify hl ⟨?_, fun f hf => ?_⟩ fun c hc => ?_
    · rw [Symbol.rid_mapVariable]
      exact (ho.words id).rid
    · rw [Symbol.function?_mapVariable] at hf
      exact (ho.words id).params f hf
    · rw [Symbol.class?_mapVariable] at hc
      exact ho.classes id c hc
  | returned id =>
    refine ho.modify hl ⟨?_, fun f hf => ?_⟩ fun c hc => ?_
    · rw [Symbol.rid_mapFunction]
      exact (ho.words id).rid
    · rw [Symbol.function?_mapFunction] at hf
      obtain ⟨f', hf', rfl⟩ := Option.map_eq_some_iff.mp hf
      exact (ho.words id).params f' hf'
    · rw [Symbol.class?_mapFunction] at hc
      exact ho.classes id c hc
  | fulfil id params hopen hfun hparams =>
    refine ho.modify hl ⟨?_, fun f hf => ?_⟩ fun c hc => ?_
    · rw [Symbol.rid_mapFunction]
      exact (ho.words id).rid
    · rw [Symbol.function?_mapFunction] at hf
      obtain ⟨f', -, rfl⟩ := Option.map_eq_some_iff.mp hf
      exact hparams
    · rw [Symbol.class?_mapFunction] at hc
      exact ho.classes id c hc
  | openClass id hopen hcls => exact ho.mapClass hl fun c hc => ⟨fun hd => absurd hd Bool.false_ne_true, hc.members, hc.statics⟩
  | permission id p => exact ho.mapClass hl fun c hc => ⟨hc.declared, hc.members, hc.statics⟩
  | collected id => exact ho.mapClass hl fun c hc => ⟨hc.declared, hc.members, hc.statics⟩
  | @base _ _ cls base pos hcls hbase h =>
    have hung : ∀ {u : SymbolTable} (b : SymbolId), InOrder n u →
        InOrder n (u.modify b (Symbol.mapClass fun c => { c with derived := c.derived ++ [cls] })) :=
      fun b hu => hu.mapClass (later_mapClass (fun _ h => h) fun _ _ _ hbase => hbase)
        fun c hc => ⟨hc.declared, hc.members, hc.statics⟩
    refine setBase_induction (P := InOrder n) h ?_ fun _ b hu => hung b hu
    refine ho.modify ?_ ⟨?_, fun f hf => ?_⟩ fun c hc => ?_
    · refine later_mapClass (fun _ h => h) fun c base hc hb => ?_
      rw [classInfo_of_class? hc, hb] at hbase
      cases hbase
    · rw [Symbol.rid_mapClass]
      exact (ho.words cls).rid
    · rw [Symbol.function?_mapClass] at hf
      exact (ho.words cls).params f hf
    · rw [Symbol.class?_mapClass] at hc
      obtain ⟨c', hc', rfl⟩ := Option.map_eq_some_iff.mp hc
      have hdeclared : c'.declared = false := (Symbol.declared_of_isOpen hc').symm.trans hcls
      have hfit := ho.classes cls c' hc'
      exact ⟨fun hd => absurd (hdeclared.symm.trans hd) Bool.false_ne_true, hfit.members, hfit.statics⟩
  | constructor cls id => exact ho.mapClass hl fun c hc => ⟨hc.declared, hc.members, hc.statics⟩
  | member hid hcls h => exact ho.addMember hid hcls h
  | enter hlevel h => exact ho.insertAt h
  | make sym hvar hcls hws hdue hwords =>
    refine ho.add sym hwords fun c hc => ?_
    rw [hcls] at hc
    cases hc

/-- The words that open symbols hold, and those that are due. -/
theorem Change.openRids (h : Change n ws t ws' t') : (t'.openRids ++ ws').Perm (t.openRids ++ ws) := by
  have same : ∀ {u u' : SymbolTable}, u'.openRids = u.openRids → (u'.openRids ++ ws).Perm (u.openRids ++ ws) := by
    intro u u' hu
    rw [hu]
  have sameClass : ∀ {u : SymbolTable} (b : SymbolId) {g : ClassInfo → ClassInfo}, (∀ c, (g c).declared = c.declared) →
      (u.modify b (Symbol.mapClass g)).openRids = u.openRids := by
    intro u b g hg
    exact openRids_modify (Symbol.open?_congr (Symbol.rid_mapClass ..) (Symbol.isOpen_mapClass hg))
  cases h with
  | value id g hg =>
    exact same (openRids_modify (Symbol.open?_congr (Symbol.rid_mapVariable _ g) (Symbol.isOpen_mapVariable g)))
  | returned id =>
    exact same (openRids_modify
      (Symbol.open?_congr (Symbol.rid_mapFunction ..) (Symbol.isOpen_mapFunction fun _ => rfl)))
  | fulfil id params hopen hfun hparams =>
    refine List.perm_middle.trans ((openRids_complete hopen ?_).symm.append_right ws)
    obtain ⟨f, hf⟩ := Option.isSome_iff_exists.mp hfun
    rw [Symbol.function?_isOpen (f := { f with params, declared := false })]
    rw [Symbol.function?_mapFunction, hf]
    rfl
  | openClass id hopen hcls =>
    refine List.perm_middle.trans ((openRids_complete hopen ?_).symm.append_right ws)
    obtain ⟨c, hc⟩ := Option.isSome_iff_exists.mp hcls
    rw [Symbol.declared_of_isOpen (c := { c with declared := false })]
    rw [Symbol.class?_mapClass, hc]
    rfl
  | permission id p => exact same (sameClass id fun _ => rfl)
  | collected id => exact same (sameClass id fun _ => rfl)
  | base hcls hbase h =>
    refine same (setBase_induction (P := fun u => u.openRids = t.openRids) h (sameClass _ fun _ => rfl) ?_)
    intro u b hu
    exact (sameClass b (g := fun c => { c with derived := c.derived ++ [_] }) fun _ => rfl).trans hu
  | constructor cls id => exact same (sameClass cls fun _ => rfl)
  | member hid hcls h =>
    rw [addMember_eq h]
    exact same (sameClass _ fun c => by split <;> rfl)
  | enter hlevel h =>
    refine same ((openRids_of_symbols (symbols_insertAt h)).trans (openRids_modify rfl))
  | make sym hvar hcls hws hdue hwords =>
    rw [hws, openRids_add, List.append_assoc]

end SymbolTable

end Frontend
