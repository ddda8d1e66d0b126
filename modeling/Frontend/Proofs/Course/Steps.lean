import Frontend.Proofs.Course.Change
import Mathlib.Data.List.Find

/-!
# Courses

A course leads from one state of lowering to another one by what lowering can do: names are taken, symbols
are made and changed, instructions are written, scopes, functions and files are gone into and left again.
What is known at a step when it is made stands with the step. Where a field gets its initial value, this is the
evaluation behind which it is stored. A course may end in a failure; then what was begun is left, and nothing more
is done.

Beside the states stand the words that are due: words that were taken, and that code has still to bring in.
Around the place stands its home, the function whose body is being written.

Whether a course goes on at its end or not, it leaves the scopes, the functions and classes around, the
depth of the buffers and the files being compiled as it found them. The counters of the supply only go on,
and the table at the end is later than the one at the beginning. A table that was in order is so at the end.
-/

namespace Frontend

variable {id : SymbolId} {sym : Symbol}

/-! ## Courses -/

/-- The function around a place, and the words of its parameters. -/
structure Home where
  function : SymbolId
  params : List String

namespace Lowering

/-- The state with another table. -/
def withTable (s : Lowering) (t : SymbolTable) : Lowering := { s with session := { s.session with symbols := t } }

/-- The state with another supply. -/
def withSupply (s : Lowering) (u : Supply) : Lowering := { s with session := { s.session with supply := u } }

/-- The state with another buffer. -/
def withOut (s : Lowering) (b : CodeBuffer) : Lowering := { s with out := b }

/-- The state after the next number was given to a symbol. -/
def made (s : Lowering) (sym : Symbol) : Lowering :=
  (s.withSupply { s.supply with rids := s.supply.rids + 1 }).withTable (s.table.add sym).2

/-- The state inside of a new scope. -/
def opened (s : Lowering) (kind : ScopeKind) : Lowering :=
  { s.withTable (s.table.enter kind) with scopes := kind :: s.scopes }

/-- The state `u` without the scopes that were opened since `s`. -/
def closed (s u : Lowering) : Lowering :=
  { u.withTable (u.table.leaveTo s.table.level) with scopes := u.scopes.drop (u.scopes.length - s.scopes.length) }

/-- The state inside of a function or class. -/
def entered (s : Lowering) (id : SymbolId) : Lowering := { s with processing := id :: s.processing }

/-- The state `u` outside of the functions and classes that were gone into since `s`. -/
def left (s u : Lowering) : Lowering :=
  { u with processing := u.processing.drop (u.processing.length - s.processing.length) }

/-- The state inside of the body of a function. -/
def within (s : Lowering) (id : SymbolId) : Lowering := (s.opened .function).entered id

/-- The state `u` behind a function that was begun in `s`. -/
def behind (s u : Lowering) : Lowering := s.closed ((s.opened .function).left u)

/-- The state `u` without the files that were begun since `s`. -/
def finished (s u : Lowering) : Lowering :=
  { u with session := { u.session with imports := u.session.imports.popTo s.session.imports.depth } }

end Lowering

namespace Course

/-- A change of what courses say nothing about. -/
structure Aside (s s' : Lowering) : Prop where
  table : s'.table = s.table
  builtins : s'.session.builtins = s.session.builtins
  supply : s'.supply = s.supply
  stack : s'.session.imports.stack = s.session.imports.stack
  out : s'.out = s.out
  processing : s'.processing = s.processing
  scopes : s'.scopes = s.scopes
  operands : s'.operands ⊆ s.operands

/-- Operations whose instructions bring nothing in and neither open a frame nor close one. -/
def isQuiet : Opcode → Bool
  | .allot | .func | .funi | .set | .defineType | .addField | .addStaticField | .untilLoop | .finish => false
  | _ => true

/-- Operations whose instructions bring in labels, classes and fields. -/
def brings : Opcode → Bool
  | .set | .defineType | .addField | .addStaticField => true
  | _ => false

/-- A word that may be written: no raw id, or that of a variable that is no constant. -/
def Writable (t : SymbolTable) (w : String) : Prop :=
  ¬ Word.HasNumber w ∨ ∃ id v, (t.get id).var? = some v ∧ v.const = false ∧ (t.get id).rid = w

/-- A field that may be set: it is no constant, or the place is in a constructor of its class. -/
def Settable (home : Option Home) (t : SymbolTable) (word : String) : Prop :=
  ∃ field v, (t.get field).detail = .var v ∧ (t.get field).rid = word ∧
    (v.const = false ∨ ∃ h f, home = some h ∧ (t.get h.function).function? = some f ∧ f.kind = .construct ∧
      f.owner = v.owner)

/-- The object in which a field gets its initial value: the class itself for a static field, and otherwise the
object of a constructor of its class or of a class below. -/
def Receives (home : Option Home) (t : SymbolTable) (v : VariableInfo) (object : String) : Prop :=
  ∃ cls, v.owner = some cls ∧ (v.static = true ∧ object = (t.get cls).rid ∧ (t.get cls).class?.isSome = true ∨
    v.static = false ∧ ∃ h f below, home = some h ∧ (t.get h.function).function? = some f ∧ f.kind = .construct ∧
      f.owner = some below ∧ h.params.head? = some object ∧ cls ∈ t.chain (some below))

/-- The instruction that gives a variable its first value. -/
def Initial (w : String) (code : Code) : Prop :=
  ∃ op raw, (op = .put ∨ op = .copy) ∧ raw ≠ w ∧ code = [.instr ⟨op, [raw, w]⟩]

end Course

open Course SymbolTable

/-- What lowering does from one state, where some words are due, to another one. The flag says whether the
course goes on at its end. -/
inductive Course [Setting] : Option Home → Bool → List String → Lowering → List String → Lowering → Prop where
  | refl {home ws s} : Course home true ws s ws s
  | trans {home k ws s ws' u ws'' s'} (first : Course home true ws s ws' u) (next : Course home k ws' u ws'' s') :
      Course home k ws s ws'' s'
  /-- Something is refused. -/
  | stop {home ws s ws' u} (h : Course home true ws s ws' u) : Course home false ws s [] u
  | after {home k ws s ws' u s'} (h : Course home k ws s ws' u) (aside : Aside u s') : Course home k ws s ws' s'
  /-- Words are not due any more. -/
  | forget {home ws s ws'} (h : ws'.Subperm ws) : Course home true ws s ws' s
  | push {home ws s} (o : Operand) (h : Word.Below s.supply.rids o.raw) :
      Course home true ws s ws { s with operands := o :: s.operands }
  | note {home ws s} (text : String) : Course home true ws s ws (s.withOut (s.out.note text))
  -- the supply
  | temps {home ws s} (n : Nat) (h : s.supply.temps ≤ n) :
      Course home true ws s ws (s.withSupply { s.supply with temps := n })
  | label {home ws s} :
      Course home true ws s (Word.label s.supply.labels :: ws)
        (s.withSupply { s.supply with labels := s.supply.labels + 1 })
  | number {home ws s} (base : String) :
      Course home true ws s (Word.numbered base s.supply.rids :: ws)
        (s.withSupply { s.supply with rids := s.supply.rids + 1 })
  -- symbols
  | change {home ws s ws'} {t : SymbolTable} (h : Change s.supply.rids ws s.table ws' t) :
      Course home true ws s ws' (s.withTable t)
  /-- A field, or the object of a method. -/
  | fresh {home ws s} {base : String} {v : VariableInfo} (sym : Symbol)
      (hrid : sym.rid = Word.numbered base s.supply.rids) (hsym : sym.detail = .var v)
      (hplain : v.owner = none → sym.name = "this") : Course home true ws s (sym.rid :: ws) (s.made sym)
  | define {home ws s} {base : String} {v : VariableInfo} {level : Nat} {t : SymbolTable} {code : Code}
      (sym : Symbol) (hrid : sym.rid = Word.numbered base s.supply.rids) (hsym : sym.detail = .var v)
      (howner : v.owner = none) (hlevel : level = s.table.level ∨ level = 0)
      (ht : (s.table.add sym).2.insertAt level (s.table.add sym).1 = .ok t)
      (hcode : v.const = false ∧ code = [] ∨ Initial sym.rid code) :
      Course home true ws s ws (((s.made sym).withTable t).withOut
        (s.out.append (.instr ⟨.allot, [sym.rid]⟩ :: code)))
  | newClass {home ws s ws'} {base : String} {c : ClassInfo} {t : SymbolTable} (sym : Symbol)
      (hrid : sym.rid = Word.numbered base s.supply.rids) (hsym : sym.detail = .cls c)
      (hnew : c.members = [] ∧ c.statics = [] ∧ c.base = none)
      (ht : (s.table.add sym).2.insert (s.table.add sym).1 = .ok t) (hws : sym.rid :: ws = sym.open?.toList ++ ws') :
      Course home true ws s ws' ((s.made sym).withTable (t.registerType (s.table.add sym).1))
  /-- A symbol is made and then refused. -/
  | stray {home ws s} {base : String} (sym : Symbol) (hrid : sym.rid = Word.numbered base s.supply.rids)
      (hfun : sym.function? = none) (hcls : ∀ c, sym.class? = some c → c.members = [] ∧ c.statics = [] ∧ c.base = none) :
      Course home false ws s [] (s.made sym)
  -- code
  | write {home ws s} {op : Opcode} {args : List String} (hop : isQuiet op = true)
      (hwrites : ∀ w ∈ Instruction.writes ⟨op, args⟩, Writable s.table w)
      (hset : op = .setField → ∃ object word raw, args = [object, word, raw] ∧ Settable home s.table word) :
      Course home true ws s ws (s.withOut (s.out.emit op args))
  /-- A field gets its initial value. -/
  | initial {home ws ws'} {object : String} {field : SymbolId} {v : VariableInfo} (e : Evaluation)
      (hrun : Setting.evaluates e) (hfield : (e.finish.table.get field).detail = .var v)
      (hinit : v.init = some e.node) (hobject : Receives home e.finish.table v object)
      (h : Course home true ws e.start ws' e.finish) :
      Course home true ws e.start ws'
        (e.finish.withOut (e.finish.out.emit .setField [object, (e.finish.table.get field).rid, e.value.raw]))
  | bring {home ws s} {op : Opcode} {args : List String} (hop : brings op = true) :
      Course home true (Instruction.introduces ⟨op, args⟩ ++ ws) s ws (s.withOut (s.out.emit op args))
  | generated {home ws s} {e : Builtin} {call : BuiltinCall} {supply : Supply} {emission : Emission}
      (he : e ∈ s.session.builtins.entries) (h : (e.generate call supply).1 = .ok emission)
      (hresult : ¬ Word.HasNumber call.result) : Course home true ws s ws (s.withOut (s.out.append emission.items))
  | loop {home ws s ws' u} {labels : List String}
      (h : Course home true ws (s.withOut (s.out.emit .untilLoop labels)) ws' u) :
      Course home true ws s ws' (u.withOut (u.out.emit .finish []))
  /-- A loop is refused inside. -/
  | endless {home ws s ws' u} {labels : List String}
      (h : Course home false ws (s.withOut (s.out.emit .untilLoop labels)) ws' u) : Course home false ws s ws' u
  -- places
  | scope {home k ws s ws' u} (kind : ScopeKind) (h : Course home k ws (s.opened kind) ws' u) :
      Course home k ws s ws' (s.closed u)
  | inside {home k ws s ws' u} {cls : SymbolId} (hcls : (s.table.get cls).class?.isSome = true)
      (h : Course home k ws (s.entered cls) ws' u) : Course home k ws s ws' (s.left u)
  | function {home s ws ws₁ ws₂ ws₃ u v} {id : SymbolId} {op : Opcode} {params : List String} {code : Code}
      {out : CodeBuffer} (hop : op = .func ∨ op = .funi) (hfun : (s.table.get id).function?.isSome = true)
      (enter : Course (some ⟨id, []⟩) true ws (s.within id) ws₁ u) (hout : u.out = s.out)
      (body : Course (some ⟨id, params⟩) true ws₁ (u.withOut u.out.enter) ws₂ v)
      (hleave : v.out.leave? u.out.depth = some (code, out))
      (hwords : (((v.table.get id).rid :: params) ++ ws₃).Subperm ws₂) :
      Course home true ws s ws₃ (s.behind (v.withOut
        (((out.emit op ((v.table.get id).rid :: params)).append code).emit .finish [])))
  /-- A function is refused at its head. -/
  | headless {home s ws ws' u} {id : SymbolId} (hfun : (s.table.get id).function?.isSome = true)
      (enter : Course (some ⟨id, []⟩) false ws (s.within id) ws' u) : Course home false ws s [] (s.behind u)
  /-- A function is refused in its body; the code of the body is lost. -/
  | broken {home s ws ws₁ ws₂ u v} {id : SymbolId} {params : List String} {code : Code} {out : CodeBuffer}
      (hfun : (s.table.get id).function?.isSome = true) (enter : Course (some ⟨id, []⟩) true ws (s.within id) ws₁ u)
      (body : Course (some ⟨id, params⟩) false ws₁ (u.withOut u.out.enter) ws₂ v)
      (hleave : v.out.leave? u.out.depth = some (code, out)) :
      Course home false ws s [] (s.behind (v.withOut out))
  | file {home k ws s ws' u} {path : String} {imports : Imports}
      (hstack : imports.stack = path :: s.session.imports.stack)
      (h : Course home k ws { s with session := { s.session with imports } } ws' u) :
      Course home k ws s ws' (s.finished u)

/-! ## What a course puts back -/

/-- The names of the functions are no raw ids, and their generators take no words but temporaries. -/
structure Registry.Sober (r : Registry) : Prop where
  names : ∀ e ∈ r.entries, ¬ Word.HasNumber e.name
  takes : ∀ e ∈ r.entries, ∀ call supply, supply.temps ≤ (e.generate call supply).2.temps ∧
    (e.generate call supply).2.rids = supply.rids ∧ (e.generate call supply).2.labels = supply.labels

/-- The innermost function around a place. -/
def Lowering.innermost (s : Lowering) : Option SymbolId :=
  s.processing.find? fun id => (s.table.get id).function?.isSome

namespace Course

open SymbolTable

/-- What is the same again behind a course, and what has gone on. -/
structure Steps (s s' : Lowering) : Prop where
  places : SameScopes s.table s'.table
  outermost : s'.table.global.kind = s.table.global.kind
  /-- Classes are registered in the innermost scope only. -/
  outer : (s'.table.scopes.map (·.types)).tail = (s.table.scopes.map (·.types)).tail
  top : s.table.top.types <+: s'.table.top.types
  scopes : s'.scopes = s.scopes
  processing : s'.processing = s.processing
  depth : s'.out.depth = s.out.depth
  stack : s'.session.imports.stack = s.session.imports.stack
  builtins : s'.session.builtins = s.session.builtins
  supply : s.supply.Before s'.supply
  later : Later s.table s'.table

/-- A state in which lowering can go on in a function. -/
structure Good (home : Option Home) (s : Lowering) : Prop where
  sober : s.session.builtins.Sober
  order : InOrder s.supply.rids s.table
  operands : ∀ o ∈ s.operands, Word.Below s.supply.rids o.raw
  processing : ∀ id ∈ s.processing, id < s.table.symbols.size
  home : home.map (·.function) = s.innermost

variable {home : Option Home} {k : Bool} {ws ws' : List String} {s s' s'' u : Lowering} {t : SymbolTable}

theorem Steps.refl (s : Lowering) : Steps s s :=
  ⟨.of_eq rfl, rfl, rfl, List.prefix_refl _, rfl, rfl, rfl, rfl, rfl, .refl _, .refl _⟩

theorem Steps.trans (h : Steps s s') (h' : Steps s' s'') : Steps s s'' where
  places := h.places.trans h'.places
  outermost := h'.outermost.trans h.outermost
  outer := h'.outer.trans h.outer
  top := h.top.trans h'.top
  scopes := h'.scopes.trans h.scopes
  processing := h'.processing.trans h.processing
  depth := h'.depth.trans h.depth
  stack := h'.stack.trans h.stack
  builtins := h'.builtins.trans h.builtins
  supply := h.supply.trans h'.supply
  later := h.later.trans h'.later

/-- A state that differs in nothing but its code and its supply. -/
theorem Steps.of_table (ht : s'.table = s.table) (hscopes : s'.scopes = s.scopes)
    (hprocessing : s'.processing = s.processing) (hdepth : s'.out.depth = s.out.depth)
    (hstack : s'.session.imports.stack = s.session.imports.stack)
    (hbuiltins : s'.session.builtins = s.session.builtins) (hsupply : s.supply.Before s'.supply) : Steps s s' where
  places := ht ▸ .of_eq rfl
  outermost := by rw [ht]
  outer := by rw [ht]
  top := ht ▸ List.prefix_refl _
  scopes := hscopes
  processing := hprocessing
  depth := hdepth
  stack := hstack
  builtins := hbuiltins
  supply := hsupply
  later := ht ▸ .refl _

/-- An instruction is written. -/
theorem Steps.emit (s : Lowering) (op : Opcode) (args : List String) : Steps s (s.withOut (s.out.emit op args)) :=
  .of_table rfl rfl rfl (CodeBuffer.depth_append _ [_]) rfl rfl (.refl _)

theorem top_types (t : SymbolTable) : some t.top.types = (t.scopes.map (·.types)).head? := by
  unfold SymbolTable.top SymbolTable.scopes
  cases t.inner <;> rfl

/-- A state with another table, in which the same places are open. -/
theorem Steps.of_places (hplaces : SamePlaces s.table t) (hlater : Later s.table t) : Steps s (s.withTable t) where
  places := hplaces.scopes
  outermost := hplaces.outermost
  outer := congrArg List.tail hplaces.types
  top := by
    have hsame : t.top.types = s.table.top.types :=
      Option.some.inj ((top_types _).trans ((congrArg List.head? hplaces.types).trans (top_types _).symm))
    change s.table.top.types <+: t.top.types
    exact ⟨[], (List.append_nil _).trans hsame.symm⟩
  scopes := rfl
  processing := rfl
  depth := rfl
  stack := rfl
  builtins := rfl
  supply := .refl _
  later := hlater

/-! ## Places that are left -/

/-- Leaving a scope brings back the scopes from before. -/
theorem Steps.closed {kind : ScopeKind} (h : Steps (s.opened kind) u) : Steps s (s.closed u) := by
  have hinner : (s.closed u).table.inner = s.table.inner := (leaveTo_of_sameScopes h.places).1
  have hsymbols : (s.closed u).table.symbols = u.table.symbols := (leaveTo_of_sameScopes h.places).2.1
  have hglobal : (s.closed u).table.global = u.table.global := (leaveTo_of_sameScopes h.places).2.2.1
  have htypes : (s.closed u).table.scopes.map (·.types) = s.table.scopes.map (·.types) := by
    have houter := h.outer
    have hopen : (s.opened kind).table.scopes = { kind } :: s.table.scopes := rfl
    have htail : u.table.scopes.tail = (s.closed u).table.scopes := by
      rw [SymbolTable.scopes, SymbolTable.scopes, hinner, hglobal]
      have := h.places.outer
      have hne := h.places.inner_ne_nil (List.cons_ne_nil _ _)
      rw [List.tail_append_of_ne_nil hne, this]
      rfl
    rw [hopen, List.map_cons, List.tail_cons, ← List.map_tail, htail] at houter
    exact houter
  refine ⟨.of_eq hinner, (congrArg Scope.kind hglobal).trans h.outermost, congrArg List.tail htypes, ?_, ?_, h.processing, h.depth, h.stack, h.builtins, h.supply, ?_⟩
  · have hsame : (s.closed u).table.top.types = s.table.top.types :=
      Option.some.inj ((top_types _).trans ((congrArg List.head? htypes).trans (top_types _).symm))
    exact ⟨[], (List.append_nil _).trans hsame.symm⟩
  · change u.scopes.drop (u.scopes.length - s.scopes.length) = s.scopes
    rw [h.scopes]
    change (kind :: s.scopes).drop (s.scopes.length + 1 - s.scopes.length) = s.scopes
    rw [Nat.add_sub_cancel_left]
    rfl
  · have hopened : s.table.Later (s.opened kind).table := .of_symbols rfl
    exact hopened.trans (h.later.trans (.of_symbols hsymbols))

/-- Leaving a function or class. -/
theorem Steps.left (h : Steps (s.entered id) u) : Steps s (s.left u) where
  places := h.places
  outermost := h.outermost
  outer := h.outer
  top := h.top
  scopes := h.scopes
  processing := by
    change u.processing.drop (u.processing.length - s.processing.length) = s.processing
    rw [h.processing]
    change (id :: s.processing).drop (s.processing.length + 1 - s.processing.length) = s.processing
    rw [Nat.add_sub_cancel_left]
    rfl
  depth := h.depth
  stack := h.stack
  builtins := h.builtins
  supply := h.supply
  later := h.later

/-- Leaving the body of a function. -/
theorem Steps.behind (h : Steps (s.within id) u) : Steps s (s.behind u) := h.left.closed

/-- Closing the buffer that a function was written to. -/
theorem Steps.apart {v : Lowering} {code : Code} {out b : CodeBuffer} (h : Steps (u.withOut u.out.enter) v)
    (hleave : v.out.leave? u.out.depth = some (code, out)) (hb : b.depth = out.depth) : Steps u (v.withOut b) where
  places := h.places
  outermost := h.outermost
  outer := h.outer
  top := h.top
  scopes := h.scopes
  processing := h.processing
  depth := by
    obtain ⟨_, out', hout, hdepth, -⟩ := CodeBuffer.leave?_eq (show v.out.depth = u.out.depth + 1 from h.depth)
    rw [hleave] at hout
    cases hout
    exact hb.trans hdepth
  stack := h.stack
  builtins := h.builtins
  supply := h.supply
  later := h.later

/-- Leaving a file. -/
theorem Steps.finished {path : String} {imports : Imports} (hstack : imports.stack = path :: s.session.imports.stack)
    (h : Steps { s with session := { s.session with imports } } u) : Steps s (s.finished u) where
  places := h.places
  outermost := h.outermost
  outer := h.outer
  top := h.top
  scopes := h.scopes
  processing := h.processing
  depth := h.depth
  stack := by
    change (u.session.imports.popTo s.session.imports.depth).stack = s.session.imports.stack
    unfold Imports.popTo Imports.depth
    rw [h.stack.trans hstack, List.length_cons, Nat.add_sub_cancel_left]
    rfl
  builtins := h.builtins
  supply := h.supply
  later := h.later

/-! ## Words that are taken -/

/-- A symbol with the next number is made. -/
theorem Steps.made (s : Lowering) (sym : Symbol) : Steps s (s.made sym) :=
  have hnumber : Steps s (s.withSupply { s.supply with rids := s.supply.rids + 1 }) :=
    .of_table rfl rfl rfl rfl rfl rfl ⟨Nat.le_succ _, le_refl _, le_refl _⟩
  hnumber.trans (.of_places (.of_eq rfl rfl rfl) (later_add s.table sym))

/-- A symbol with the next number is made and entered in a scope. -/
theorem Steps.madeIn {level : Nat} (hlevel : level = s.table.level ∨ level = 0)
    (h : (s.table.add sym).2.insertAt level (s.table.add sym).1 = .ok t) : Steps s ((s.made sym).withTable t) :=
  (Steps.made s sym).trans (.of_places (samePlaces_insertAt (t := (s.table.add sym).2) hlevel h) (later_insertAt h))

/-- A class is registered in the innermost scope. -/
theorem scopes_registerType (t : SymbolTable) (id : SymbolId) :
    SameScopes t (t.registerType id) ∧ (t.registerType id).global.kind = t.global.kind ∧
      (t.registerType id).symbols = t.symbols ∧
      ((t.registerType id).scopes.map (·.types)).tail = (t.scopes.map (·.types)).tail ∧
      (t.registerType id).top.types = t.top.types ++ [(t.get id).rid] := by
  unfold registerType
  dsimp only
  unfold mapScope SymbolTable.scopes SymbolTable.top level
  cases hinner : t.inner with
  | nil =>
    rw [List.length_nil, if_pos rfl]
    exact ⟨⟨by rw [hinner], by rw [hinner]⟩, rfl, rfl, rfl, rfl⟩
  | cons top rest =>
    rw [List.length_cons, if_neg (Nat.succ_ne_zero _), Nat.sub_self, List.modify_zero_cons]
    exact ⟨⟨by simp [hinner], by simp [hinner]⟩, rfl, rfl, rfl, rfl⟩

theorem Steps.register (s : Lowering) (id : SymbolId) : Steps s (s.withTable (s.table.registerType id)) := by
  obtain ⟨hsame, hkind, hsymbols, houter, htop⟩ := scopes_registerType s.table id
  refine ⟨hsame, hkind, houter, ?_, rfl, rfl, rfl, rfl, rfl, .refl _, .of_symbols hsymbols⟩
  change s.table.top.types <+: (s.table.registerType id).top.types
  rw [htop]
  exact List.prefix_append _ _

end Course

open Course SymbolTable

variable {home : Option Home} {k : Bool} {ws ws' : List String} {s s' : Lowering}

theorem Course.steps [Setting] (h : Course home k ws s ws' s') : Steps s s' := by
  induction h with
  | refl => exact .refl _
  | trans _ _ ih₁ ih₂ => exact ih₁.trans ih₂
  | stop _ ih => exact ih
  | after _ aside ih =>
    exact ih.trans (.of_table aside.table aside.scopes aside.processing (by rw [aside.out]) aside.stack aside.builtins
      (aside.supply ▸ .refl _))
  | forget => exact .refl _
  | push => exact .of_table rfl rfl rfl rfl rfl rfl (.refl _)
  | note text =>
    refine .of_table rfl rfl rfl ?_ rfl rfl (.refl _)
    change (CodeBuffer.note _ text).depth = _
    unfold CodeBuffer.note
    split
    · exact CodeBuffer.depth_append _ [.note text]
    · rfl
  | temps n h => exact .of_table rfl rfl rfl rfl rfl rfl ⟨le_refl _, h, le_refl _⟩
  | label => exact .of_table rfl rfl rfl rfl rfl rfl ⟨le_refl _, le_refl _, Nat.le_succ _⟩
  | number => exact .of_table rfl rfl rfl rfl rfl rfl ⟨Nat.le_succ _, le_refl _, le_refl _⟩
  | change h => exact .of_places h.samePlaces h.later
  | fresh sym => exact .made _ sym
  | define sym hrid hsym howner hlevel ht hcode =>
    refine (Steps.madeIn hlevel ht).trans ?_
    exact .of_table rfl rfl rfl (CodeBuffer.depth_append _ _) rfl rfl (.refl _)
  | newClass sym hrid hsym hnew ht hws => exact (Steps.madeIn (.inl rfl) ht).trans (.register _ _)
  | stray sym => exact .made _ sym
  | write => exact .emit _ _ _
  | bring => exact .emit _ _ _
  | generated => exact .of_table rfl rfl rfl (CodeBuffer.depth_append _ _) rfl rfl (.refl _)
  | initial _ _ _ _ _ _ ih => exact ih.trans (.emit _ _ _)
  | loop _ ih => exact (Steps.emit _ _ _).trans (ih.trans (Steps.emit _ _ _))
  | endless _ ih => exact (Steps.emit _ _ _).trans ih
  | scope kind _ ih => exact ih.closed
  | inside _ _ ih => exact ih.left
  | function _ _ _ _ _ hleave _ ih₁ ih₂ =>
    refine (ih₁.trans (ih₂.apart hleave ?_)).behind
    exact (CodeBuffer.depth_append _ [_]).trans ((CodeBuffer.depth_append _ _).trans (CodeBuffer.depth_append _ [_]))
  | headless _ _ ih => exact ih.behind
  | broken _ _ _ hleave ih₁ ih₂ => exact (ih₁.trans (ih₂.apart hleave rfl)).behind
  | file hstack _ ih => exact ih.finished hstack

namespace Course

theorem innermost_later (hknown : ∀ id ∈ s.processing, id < s.table.symbols.size) (hl : Later s.table s'.table)
    (hprocessing : s'.processing = s.processing) : s'.innermost = s.innermost := by
  unfold Lowering.innermost
  rw [hprocessing]
  exact List.find?_congr fun id hid => Symbol.isSome_function?_of_core (hl.core id (hknown id hid))

section
variable (h : Good home s)
include h

/-- A state behind steps that put everything back, with a table in order. -/
theorem Good.of_steps (hs : Steps s s') (order : InOrder s'.supply.rids s'.table)
    (operands : ∀ o ∈ s'.operands, Word.Below s'.supply.rids o.raw) : Good home s' where
  sober := by
    rw [hs.builtins]
    exact h.sober
  order := order
  operands := operands
  processing := fun id hid => by
    rw [hs.processing] at hid
    exact (h.processing id hid).trans_le hs.later.size
  home := h.home.trans (innermost_later h.processing hs.later hs.processing).symm

theorem Good.operands_mono (hs : Steps s s') : ∀ o ∈ s.operands, Word.Below s'.supply.rids o.raw :=
  fun o ho => (h.operands o ho).mono hs.supply.rids

/-- Nothing but the code and the supply is changed. -/
theorem Good.of_table (hs : Steps s s') (ht : s'.table = s.table) (ho : s'.operands = s.operands) : Good home s' :=
  h.of_steps hs (ht ▸ h.order.mono hs.supply.rids) (ho ▸ h.operands_mono hs)

/-- A symbol with the next number is made. -/
theorem Good.made {base : String} (hrid : sym.rid = Word.numbered base s.supply.rids) (hfun : sym.function? = none)
    (hcls : ∀ c, sym.class? = some c → c.members = [] ∧ c.statics = [] ∧ c.base = none) : Good home (s.made sym) := by
  have hs := Steps.made s sym
  refine h.of_steps hs ((h.order.mono hs.supply.rids).add sym ⟨?_, fun f hf => ?_⟩ hcls) (h.operands_mono hs)
  · rw [hrid]
    exact Word.below_numbered base (Nat.lt_succ_self _)
  · rw [hfun] at hf
    cases hf

theorem Good.opened (kind : ScopeKind) : Good home (s.opened kind) :=
  ⟨h.sober, h.order.of_symbols rfl, h.operands, h.processing, h.home⟩

theorem Good.entered {cls : SymbolId} (hcls : (s.table.get cls).class?.isSome = true) : Good home (s.entered cls) := by
  obtain ⟨c, hc⟩ := Option.isSome_iff_exists.mp hcls
  refine ⟨h.sober, h.order, h.operands, List.forall_mem_cons.mpr ⟨lt_size_of_class? hc, h.processing⟩, ?_⟩
  unfold Lowering.innermost
  change _ = (cls :: s.processing).find? _
  rw [List.find?_cons_of_neg]
  · exact h.home
  · change ¬ (s.table.get cls).function?.isSome = true
    rw [Symbol.function?_eq_none_of_class? hcls]
    exact Bool.false_ne_true

theorem Good.within (hfun : (s.table.get id).function?.isSome = true) (params : List String) :
    Good (some ⟨id, params⟩) (s.within id) := by
  obtain ⟨f, hf⟩ := Option.isSome_iff_exists.mp hfun
  refine ⟨h.sober, h.order.of_symbols rfl, h.operands, List.forall_mem_cons.mpr ⟨lt_size_of_function? hf, h.processing⟩, ?_⟩
  unfold Lowering.innermost
  change _ = (id :: s.processing).find? _
  rw [List.find?_cons_of_pos]
  · rfl
  · exact hfun

end

/-- The home of a body is that of its head with the parameters. -/
theorem Good.body {params : List String} (h : Good (some ⟨id, []⟩) s) (b : CodeBuffer) :
    Good (some ⟨id, params⟩) (s.withOut b) :=
  ⟨h.sober, h.order, h.operands, h.processing, h.home⟩

theorem symbols_leaveTo (t : SymbolTable) (level : Nat) : (t.leaveTo level).symbols = t.symbols := by
  have many : ∀ (n : Nat) (t : SymbolTable), (exitMany n t).symbols = t.symbols := by
    intro n
    induction n with
    | zero => exact fun _ => rfl
    | succ n ih => exact fun t => (ih t.exit).trans (Calls.symbols_exit t)
  exact many _ t

end Course

/-- A course leads from good states to good states. -/
theorem Course.good [Setting] (h : Course home k ws s ws' s') (hg : Good home s) : Good home s' := by
  induction h with
  | refl => exact hg
  | trans _ _ ih₁ ih₂ => exact ih₂ (ih₁ hg)
  | stop _ ih => exact ih hg
  | after h aside ih =>
    have hu := ih hg
    refine ⟨aside.builtins ▸ hu.sober, ?_, fun o ho => ?_, ?_, ?_⟩
    · rw [aside.supply, aside.table]
      exact hu.order
    · rw [aside.supply]
      exact hu.operands o (aside.operands ho)
    · rw [aside.processing, aside.table]
      exact hu.processing
    · rw [Lowering.innermost, aside.processing, aside.table]
      exact hu.home
  | forget => exact hg
  | push o h => exact ⟨hg.sober, hg.order, List.forall_mem_cons.mpr ⟨h, hg.operands⟩, hg.processing, hg.home⟩
  | note text => exact hg.of_table (show Course home true [] _ [] _ from .note text).steps rfl rfl
  | temps n h => exact hg.of_table (show Course home true [] _ [] _ from .temps n h).steps rfl rfl
  | label => exact hg.of_table (show Course home true [] _ [_] _ from .label).steps rfl rfl
  | number base => exact hg.of_table (show Course home true [] _ [_] _ from .number base).steps rfl rfl
  | change h => exact hg.of_steps (.of_places h.samePlaces h.later) (hg.order.change h) hg.operands
  | @fresh _ _ _ _ v sym hrid hsym hplain =>
    refine hg.made hrid ?_ fun c hc => ?_
    · rw [Symbol.function?, hsym]
    · rw [Symbol.class?, hsym] at hc
      cases hc
  | define sym hrid hsym howner hlevel ht hcode =>
    have hmade := hg.made hrid (by rw [Symbol.function?, hsym]) fun c hc => by
      rw [Symbol.class?, hsym] at hc
      cases hc
    have hs := Steps.madeIn hlevel ht
    refine Good.of_table (s := (Lowering.made _ sym).withTable _) ?_
      (.of_table rfl rfl rfl (CodeBuffer.depth_append _ _) rfl rfl (.refl _)) rfl rfl
    exact hg.of_steps hs (hmade.order.insertAt ht) (hg.operands_mono hs)
  | newClass sym hrid hsym hnew ht hws =>
    have hmade := hg.made hrid (by rw [Symbol.function?, hsym]) fun c hc => by
      rw [Symbol.class?, hsym] at hc
      cases hc
      exact hnew
    have hs := (show Course none true _ _ _ _ from .newClass sym hrid hsym hnew ht hws).steps
    refine hg.of_steps hs ((hmade.order.insertAt ht).of_symbols ?_) (hg.operands_mono hs)
    exact (scopes_registerType _ _).2.2.1
  | stray sym hrid hfun hcls => exact hg.made hrid hfun hcls
  | write hop hwrites hset => exact hg.of_table (show Course _ true [] _ [] _ from .write hop hwrites hset).steps rfl rfl
  | bring hop => exact hg.of_table (show Course home true _ _ [] _ from .bring hop).steps rfl rfl
  | generated he h hresult => exact hg.of_table (show Course home true [] _ [] _ from .generated he h hresult).steps rfl rfl
  | initial _ _ _ _ _ _ ih =>
    have hu := ih hg
    exact ⟨hu.sober, hu.order, hu.operands, hu.processing, hu.home⟩
  | loop h ih =>
    have hu := ih ⟨hg.sober, hg.order, hg.operands, hg.processing, hg.home⟩
    exact ⟨hu.sober, hu.order, hu.operands, hu.processing, hu.home⟩
  | endless h ih => exact ih ⟨hg.sober, hg.order, hg.operands, hg.processing, hg.home⟩
  | scope kind h ih =>
    have hu := ih (hg.opened kind)
    exact hg.of_steps (Course.scope kind h).steps (hu.order.of_symbols (symbols_leaveTo _ _)) hu.operands
  | inside hcls h ih =>
    have hu := ih (hg.entered hcls)
    exact hg.of_steps (Course.inside hcls h).steps hu.order hu.operands
  | function hop hfun enter hout body hleave hwords ih₁ ih₂ =>
    have hv := ih₂ ((ih₁ (hg.within hfun [])).body _)
    exact hg.of_steps (show Course home true _ _ _ _ from .function hop hfun enter hout body hleave hwords).steps
      (hv.order.of_symbols (symbols_leaveTo _ _)) hv.operands
  | headless hfun enter ih =>
    have hu := ih (hg.within hfun [])
    exact hg.of_steps (show Course home false _ _ _ _ from .headless hfun enter).steps (hu.order.of_symbols (symbols_leaveTo _ _))
      hu.operands
  | broken hfun enter body hleave ih₁ ih₂ =>
    have hv := ih₂ ((ih₁ (hg.within hfun [])).body _)
    exact hg.of_steps (show Course home false _ _ _ _ from .broken hfun enter body hleave).steps
      (hv.order.of_symbols (symbols_leaveTo _ _)) hv.operands
  | file hstack h ih =>
    have hu := ih ⟨hg.sober, hg.order, hg.operands, hg.processing, hg.home⟩
    exact hg.of_steps (Course.file hstack h).steps hu.order hu.operands

end Frontend
