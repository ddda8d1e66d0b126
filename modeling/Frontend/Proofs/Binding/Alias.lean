import Frontend.Proofs.Binding.Store

/-!
# Variables that are other names of functions

A variable remembers the function that was stored in it, and a call through the variable binds its arguments
to the parameters of that function. A definition always remembers the function, an assignment only where the
declared type of the variable is any type. Along a sequence of definitions and such assignments every
variable therefore stands for the function that was stored in it last.
-/

namespace Frontend

open Lower SymbolTable Meaning

variable {function : Option SymbolId} {P : SymbolId → Prop}
variable {id : SymbolId} {v : VariableInfo} {init : Option Node} {defs : List (Ident × Option Node)} {n : Node}
  {nodes : List Node}

/-! ## Sequences of definitions and assignments -/

/-- What is known about a name along a sequence of definitions and assignments. -/
structure Known where
  /-- The function that the name stands for: the one it names, or the one that was stored last. -/
  function : Option SymbolId := none
  /-- Whether the name is a variable of the sequence whose declared type is any type. -/
  follows : Bool := false

/-- What is known about all names. -/
structure Aliases where
  known : String → Known
  /-- Whether there is a scope above the global one. -/
  nested : Bool
  /-- The names that have a meaning in a scope above the global one. -/
  near : String → Bool

namespace SymbolTable

/-- A function of the source text that needs no object. -/
def IsUserFunction (t : SymbolTable) (id : SymbolId) : Prop :=
  ∃ f, (t.get id).function? = some f ∧ f.isBuiltin = false ∧ f.isMethod = false

/-- The function of the source text that a name stands for. -/
def functionNamed (t : SymbolTable) (name : String) : Option SymbolId :=
  (t.find? name).filter fun id => (t.get id).function?.any fun f => !f.isBuiltin && !f.isMethod

theorem functionNamed_eq_some {t : SymbolTable} {x : String} :
    t.functionNamed x = some id ↔ t.find? x = some id ∧ t.IsUserFunction id := by
  unfold functionNamed IsUserFunction
  rw [Option.filter_eq_some_iff, Option.any_eq_true]
  simp only [Bool.and_eq_true, Bool.not_eq_true']

end SymbolTable

namespace Aliases

/-- What is known before the sequence: the functions. -/
def of (t : SymbolTable) : Aliases where
  known name := { function := t.functionNamed name }
  nested := decide (0 < t.level)
  near := t.isNear

/-- A variable is defined. One that goes to the global scope does not change what a name nearer by means. -/
def define (a : Aliases) (x : Ident) (function : Option SymbolId) : Aliases :=
  if isGlobal x.labels && a.near x.name then a
  else {
    known := Function.update a.known x.name ⟨function, admitsAny x.labels⟩
    nested := a.nested
    near := if isGlobal x.labels then a.near else Function.update a.near x.name a.nested }

def assign (a : Aliases) (x : String) (function : Option SymbolId) : Aliases :=
  { a with known := Function.update a.known x ⟨function, true⟩ }

/-- A variable is defined whose value, if it has one, is a name. -/
def defined? (a : Aliases) (x : Ident) : Option Node → Option Aliases
  | none => some (a.define x none)
  | some (.ident y) => some (a.define x (a.known y.name).function)
  | some _ => none

/-- Variables are defined one after another. -/
def allDefined? (a : Aliases) : List (Ident × Option Node) → Option Aliases
  | [] => some a
  | (x, value) :: rest => (a.defined? x value).bind (allDefined? · rest)

/-- What is known behind a definition, or behind an assignment to a variable of the sequence whose declared
type is any type. Values are names. -/
def step? (a : Aliases) : Node → Option Aliases
  | .varDef _ names values => a.allDefined? (names.zip values)
  | .assign (.ident x) op (.ident y) =>
    if op.kind == .op .assign && (a.known x.name).follows then some (a.assign x.name (a.known y.name).function)
    else none
  | _ => none

/-- What is known behind a sequence. -/
def run? (a : Aliases) : List Node → Option Aliases
  | [] => some a
  | n :: rest => (a.step? n).bind (run? · rest)

end Aliases

/-! ## What is known stays true -/

namespace Aliases

variable {a b : Aliases} {t t' : SymbolTable} {s s' : Lowering} {x y : Ident} {g : SymbolId} {levels : Nat}

/-- What is known is so in a table: names stand for functions, or for variables that mean functions. -/
structure Tracks (a : Aliases) (t : SymbolTable) : Prop where
  nested : a.nested = decide (0 < t.level)
  near : ∀ x, a.near x = t.isNear x
  function : ∀ x g, (a.known x).function = some g →
    (t.find? x = some g ∧ (t.get g).function?.isSome = true) ∨ ∃ id v, Holds t x id v ∧ v.meaning = some g
  follows : ∀ x, (a.known x).follows = true → ∃ id v, Holds t x id v ∧ v.type.isAny = true

theorem tracks_of (t : SymbolTable) : (of t).Tracks t where
  nested := rfl
  near _ := rfl
  function x g hg := by
    obtain ⟨hfind, f, hf, -⟩ := functionNamed_eq_some.mp hg
    exact .inl ⟨hfind, by rw [hf]; rfl⟩
  follows x hx := by cases hx

section
variable (h : a.Tracks s.table) (hg : (a.known y.name).function = some g)
include h hg

/-- The value of a name that stands for a function. -/
theorem Tracks.eval (hlabels : y.labels = []) (levels : Nat) :
    ∃ id, s.table.lookup y.name y.token.pos = .ok id ∧ (Operand.ofSymbol s.table id).meaning = some g ∧
      Lower.eval (visit (levels + 1)) (.ident y) s = (.ok (.ofSymbol s.table id), s) := by
  obtain ⟨hfind, hfun⟩ | ⟨id, v, hholds, hmeaning⟩ := h.function _ _ hg
  · obtain ⟨f, hf⟩ := Option.isSome_iff_exists.mp hfun
    have hdetail := Symbol.detail_of_function hf
    have hvar : (s.table.get g).var? = none := by rw [Symbol.var?, hdetail]
    have hlookup := lookup_of_find? hfind (.inl hvar) y.token.pos
    refine ⟨g, hlookup, ?_, eval_of_lookup hlabels hlookup (by rw [hdetail]; exact SymbolDetail.noConfusion)⟩
    rw [Operand.ofSymbol, hdetail]
  · have hlookup := hholds.lookup y.token.pos
    refine ⟨id, hlookup, ?_, eval_of_lookup hlabels hlookup (by rw [hholds.detail]; exact SymbolDetail.noConfusion)⟩
    rw [Operand.ofSymbol, hholds.detail]
    exact hmeaning

theorem Tracks.meaning_of_eval {o : Operand} {u : Lowering}
    (ho : Lower.eval (visit (levels + 1)) (.ident y) s = (.ok o, u)) : o.meaning = some g := by
  obtain ⟨v, hv, -, -⟩ := visit_of_eval ho
  obtain ⟨id, -, hmeaning, heval⟩ := h.eval hg (labels_of_ident hv) levels
  cases heval.symm.trans ho
  exact hmeaning

end

/-- A new variable. -/
theorem Tracks.define {sym : Symbol} (h : a.Tracks t) (henters : Enters t sym (isGlobal x.labels) t')
    (hname : sym.name = x.name) (hdetail : sym.detail = .var v) (hany : admitsAny x.labels = true → v.type.isAny = true)
    (hmeaning : ∀ g, function = some g → v.meaning = some g) : (a.define x function).Tracks t' := by
  -- what is not hidden by the new variable stays
  have others : ∀ y, ¬(y = sym.name ∧ (isGlobal x.labels && t.isNear y) = false) →
      (∀ g, (a.known y).function = some g →
        (t'.find? y = some g ∧ (t'.get g).function?.isSome = true) ∨ ∃ id v, Holds t' y id v ∧ v.meaning = some g) ∧
      ((a.known y).follows = true → ∃ id v, Holds t' y id v ∧ v.type.isAny = true) := by
    intro y hne
    refine ⟨fun g hg => ?_, fun hy => ?_⟩
    · obtain ⟨hfind, hfun⟩ | ⟨id, v, hholds, hv⟩ := h.function y g hg
      · obtain ⟨f, hf⟩ := Option.isSome_iff_exists.mp hfun
        have hlt : g < t.symbols.size :=
          lt_size_of_sort_ne (by rw [Symbol.sort_of_function hf]; exact SymbolSort.noConfusion)
        exact .inl ⟨by rw [henters.found, if_neg hne]; exact hfind, by rw [henters.old g hlt]; exact hfun⟩
      · exact .inr ⟨id, v, henters.holds hholds hne, hv⟩
    · obtain ⟨id, v, hholds, hv⟩ := h.follows y hy
      exact ⟨id, v, henters.holds hholds hne, hv⟩
  have hnested : a.nested = decide (0 < t'.level) := by rw [h.nested, henters.level]
  unfold Aliases.define
  split
  · next hhidden =>
    obtain ⟨hglobal, hnear⟩ := Bool.and_eq_true_iff.mp hhidden
    have hne : ∀ y, ¬(y = sym.name ∧ (isGlobal x.labels && t.isNear y) = false) := by
      rintro y ⟨rfl, hfar⟩
      rw [hname, ← h.near, hhidden] at hfar
      cases hfar
    refine ⟨hnested, fun y => ?_, fun y => (others y (hne y)).1, fun y => (others y (hne y)).2⟩
    rw [henters.near, hglobal, if_neg fun e => Bool.noConfusion e.2, h.near]
  · next hfar =>
    have hfar := Bool.eq_false_iff.mpr hfar
    rw [h.near, ← hname] at hfar
    have hnew := henters.holds_new hdetail hfar
    have hne : ∀ y, y ≠ x.name → ¬(y = sym.name ∧ (isGlobal x.labels && t.isNear y) = false) :=
      fun y hy e => hy (e.1.trans hname)
    rw [hname] at hnew
    refine ⟨hnested, fun y => ?_, fun y g hg => ?_, fun y hy => ?_⟩
    · dsimp only
      rw [henters.near, hname]
      cases isGlobal x.labels with
      | true => simp [h.near]
      | false =>
        by_cases hy : y = x.name
        · simp [hy, h.nested]
        · simp [hy, h.near]
    · dsimp only at hg
      by_cases hy : y = x.name
      · rw [hy, Function.update_self] at hg
        exact .inr ⟨_, v, hy ▸ hnew, hmeaning g hg⟩
      · rw [Function.update_of_ne hy] at hg
        exact (others y (hne y hy)).1 g hg
    · dsimp only at hy
      by_cases hyx : y = x.name
      · rw [hyx, Function.update_self] at hy
        exact ⟨_, v, hyx ▸ hnew, hany hy⟩
      · rw [Function.update_of_ne hyx] at hy
        exact (others y (hne y hyx)).2 hy

/-- A variable is assigned. -/
theorem Tracks.assign {f : VariableInfo → VariableInfo} (h : a.Tracks t) (hx : Holds t x.name id v)
    (hany : (f v).type.isAny = true) (hmeaning : ∀ g, function = some g → (f v).meaning = some g) :
    (a.assign x.name function).Tracks (t.modify id (Symbol.mapVariable f)) := by
  have hnew := hx.mapVariable f
  -- a variable of another name is another variable
  have other : ∀ {y j w}, y ≠ x.name → Holds t y j w → Holds (t.modify id (Symbol.mapVariable f)) y j w := by
    intro y j w hy hj
    refine hj.modify (fun e => hy ?_) _
    rw [← hj.name, ← e, hx.name]
  refine ⟨h.nested, h.near, fun y g hg => ?_, fun y hy => ?_⟩
  · change (Function.update a.known x.name _ y).function = some g at hg
    by_cases hyx : y = x.name
    · rw [hyx, Function.update_self] at hg
      exact .inr ⟨id, f v, hyx ▸ hnew, hmeaning g hg⟩
    · rw [Function.update_of_ne hyx] at hg
      obtain ⟨hfind, hfun⟩ | ⟨j, w, hholds, hw⟩ := h.function y g hg
      · refine .inl ⟨hfind, ?_⟩
        rw [get_modify, if_neg]
        · exact hfun
        · rintro ⟨rfl, -⟩
          rw [Symbol.function?, hx.detail] at hfun
          cases hfun
      · exact .inr ⟨j, w, other hyx hholds, hw⟩
  · change (Function.update a.known x.name _ y).follows = true at hy
    by_cases hyx : y = x.name
    · exact ⟨id, f v, hyx ▸ hnew, hany⟩
    · rw [Function.update_of_ne hyx] at hy
      obtain ⟨j, w, hholds, hw⟩ := h.follows y hy
      exact ⟨j, w, other hyx hholds, hw⟩

/-! ## Steps and runs -/

section
variable (h : a.Tracks s.table)
include h

/-- A definition whose value, if it has one, is a name. -/
theorem Tracks.defined (hb : a.defined? x init = some b)
    (hrun : defineVariable (visit (levels + 1)) x init s = (.ok (), s')) : b.Tracks s'.table := by
  unfold defined? at hb
  split at hb
  · cases hb
    obtain ⟨sym, v, hname, hdetail, hany, -, henters⟩ :=
      enters_of_defineVariable (fun n o u hn _ => by cases hn) hrun
    exact h.define henters hname hdetail hany fun g hg => by cases hg
  · next y =>
    cases hb
    obtain ⟨sym, v, hname, hdetail, hany, hvalue, henters⟩ := enters_of_defineVariable
      (fun n o u hn ho => by cases hn; exact table_of_name ho) hrun
    obtain ⟨o, u, ho, hv⟩ := hvalue _ rfl
    exact h.define henters hname hdetail hany fun g hg => hv.trans (h.meaning_of_eval hg ho)
  · cases hb

theorem Tracks.allDefined (hb : a.allDefined? defs = some b)
    (hrun : forAll (fun d => defineVariable (visit (levels + 1)) d.1 d.2) defs s = (.ok (), s')) :
    b.Tracks s'.table := by
  induction defs generalizing a s with
  | nil =>
    cases hb
    cases hrun
    exact h
  | cons d defs ih =>
    obtain ⟨c, hc, hb⟩ := Option.bind_eq_some_iff.mp hb
    obtain ⟨_, s₁, hd, hrun⟩ := bind_eq_ok.mp hrun
    exact ih (h.defined hc hd) hb hrun

/-- What is known stays true along one statement. -/
theorem Tracks.step (hb : a.step? n = some b) (hrun : visit (levels + 2) n s = (.ok (), s')) : b.Tracks s'.table := by
  unfold step? at hb
  split at hb
  · exact h.allDefined hb hrun
  · next x op y =>
    split at hb
    · next hstep =>
      cases hb
      obtain ⟨hop, hfollows⟩ := Bool.and_eq_true_iff.mp hstep
      obtain ⟨id, v, hx, hany⟩ := h.follows _ hfollows
      obtain ⟨o, u, ho, htable⟩ := table_of_assign hop (fun o u ho => table_of_name ho) hx hany hrun
      rw [htable]
      exact h.assign hx hany fun g hg => h.meaning_of_eval hg ho
    · cases hb
  · cases hb

/-- What is known stays true along a run. -/
theorem Tracks.run (hb : a.run? nodes = some b) (hrun : items (visit (levels + 2)) nodes s = (.ok (), s')) :
    b.Tracks s'.table := by
  induction nodes generalizing a s with
  | nil =>
    cases hb
    cases hrun
    exact h
  | cons n nodes ih =>
    obtain ⟨c, hc, hb⟩ := Option.bind_eq_some_iff.mp hb
    obtain ⟨_, s₁, hn, hrun⟩ := bind_eq_ok.mp hrun
    obtain ⟨_, s₂, hnote, hn⟩ := bind_eq_ok.mp hn
    have hnoted : s₂.table = s.table := by
      cases hnote
      dsimp only [Lowering.table]
      split <;> rfl
    obtain ⟨v, hv, hend⟩ := visit_of_exec hn
    rw [← hnoted] at h
    refine ih (s := s₁) ?_ hb hrun
    rw [hend]
    exact h.step hc hv

end

/-! ## Only functions of the beginning are known -/

section
variable (h : ∀ y g, (a.known y).function = some g → P g)
include h

theorem forall_define (hf : ∀ g, function = some g → P g) (y : String) (g : SymbolId)
    (hg : ((a.define x function).known y).function = some g) : P g := by
  unfold define at hg
  split at hg
  · exact h y g hg
  · dsimp only at hg
    rw [Function.update_apply] at hg
    split at hg
    · exact hf g hg
    · exact h y g hg

theorem forall_defined (hb : a.defined? x init = some b) : ∀ y g, (b.known y).function = some g → P g := by
  unfold defined? at hb
  split at hb
  · cases hb
    exact forall_define h fun g hg => by cases hg
  · cases hb
    exact forall_define h fun g hg => h _ g hg
  · cases hb

theorem forall_allDefined (hb : a.allDefined? defs = some b) : ∀ y g, (b.known y).function = some g → P g := by
  induction defs generalizing a with
  | nil =>
    cases hb
    exact h
  | cons d defs ih =>
    obtain ⟨c, hc, hb⟩ := Option.bind_eq_some_iff.mp hb
    exact ih (forall_defined h hc) hb

theorem forall_step (hb : a.step? n = some b) : ∀ y g, (b.known y).function = some g → P g := by
  unfold step? at hb
  split at hb
  · exact forall_allDefined h hb
  · next x op y =>
    split at hb
    · cases hb
      intro z g hg
      change (Function.update a.known x.name _ z).function = some g at hg
      rw [Function.update_apply] at hg
      split at hg
      · exact h _ g hg
      · exact h z g hg
    · cases hb
  · cases hb

theorem forall_run (hb : a.run? nodes = some b) : ∀ y g, (b.known y).function = some g → P g := by
  induction nodes generalizing a with
  | nil =>
    cases hb
    exact h
  | cons n nodes ih =>
    obtain ⟨c, hc, hb⟩ := Option.bind_eq_some_iff.mp hb
    exact ih (forall_step h hc) hb

end

end Aliases

/-! ## Calls -/

namespace SymbolTable

theorem IsUserFunction.later {t t' : SymbolTable} {g : SymbolId} (h : t.IsUserFunction g) (hl : Later t t') :
    t'.IsUserFunction g := by
  obtain ⟨f, hf, hbuiltin, hmethod⟩ := h
  have hlt : g < t.symbols.size :=
    lt_size_of_sort_ne (by rw [Symbol.sort_of_function hf]; exact SymbolSort.noConfusion)
  obtain ⟨f', hf', hcore⟩ := Symbol.function?_of_core (hl.core g hlt) hf
  have builtin : f'.isBuiltin = f.isBuiltin := (congrArg FunctionInfo.isBuiltin hcore :)
  have method : f'.isMethod = f.isMethod := (congrArg FunctionInfo.isMethod hcore :)
  exact ⟨f', hf', builtin.trans hbuiltin, method.trans hmethod⟩

end SymbolTable

namespace Lower

variable {s s' u : Lowering} {g : SymbolId} {o o' : Operand} {given : List Argument} {site site' : CallSite} {α : Type}

/-- Two calls that pass the same words, the one to `w` and the other to `w'`. -/
def PassesSame (w w' : String) : Unit → Lowering → Unit → Lowering → Prop := fun _ t _ t' =>
  ∃ (out : CodeBuffer) (op : Opcode) (words : List String),
    t.out = out.emit op (w :: words) ∧ t'.out = out.emit op (w' :: words)

/-- A function that needs no object is called under two words. -/
theorem callFunction_renamed (hg : s.table.IsUserFunction g) :
    Abreast (PassesSame o.raw o'.raw) (callFunction g o given site) (callFunction g o' given site') s := by
  obtain ⟨f, hf, -, hmethod⟩ := hg
  unfold callFunction
  refine .asked ?_
  dsimp only
  rw [show (s.session.symbols.get g).function? = some f from hf, Option.getD_some, hmethod]
  refine (Abreast.ofExcept (Binding.plan_congr ..)).bind ?_
  rintro bindings _ t rfl
  refine .after _ fun none t => .after _ fun bound t => .ite Iff.rfl ?_ ?_
  · exact .after _ fun result t => .inl ⟨(), _, (), _, rfl, rfl, t.out, .invoke, none ++ bound ++ [result], rfl, rfl⟩
  · exact .inl ⟨(), _, (), _, rfl, rfl, t.out, .call, none ++ bound, rfl, rfl⟩

theorem callValue_of_meaning (ho : o.meaning = some g) (hg : s.table.IsUserFunction g) :
    callValue o given site s = callFunction g o given site s := by
  obtain ⟨f, hf, hbuiltin, -⟩ := hg
  have hf : (s.session.symbols.get g).function? = some f := hf
  have hclass : o.class? s.session.symbols = none := by
    unfold Operand.class?
    rw [ho, Option.filter_some, Symbol.class?, Symbol.detail_of_function hf]
    rfl
  have hfun : o.function? s.session.symbols = some g := by
    unfold Operand.function?
    rw [ho, Option.filter_some, hf]
    rfl
  unfold callValue
  refine (table_bind _).trans ?_
  rw [hclass, ite_self]
  dsimp only
  rw [hfun]
  dsimp only
  rw [hf, Option.getD_some, hbuiltin]
  rfl

/-- What a tame step does to a table in which lowering can go on. -/
theorem later_of_tame {p : Lower α} {r : Except Failure α} {home : Option Home} (hp : Course.Tame p)
    (hs : Course.Good home s) (h : p s = (r, s')) : Later s.table s'.table ∧ Course.Good home s' := by
  obtain ⟨k, ws, hcourse⟩ := Course.exists_course_of_tame hp hs
  rw [h] at hcourse
  exact ⟨hcourse.steps.later, hcourse.good hs⟩

end Lower

/-- Behind a tame step lowering is in the middle, too. -/
theorem Lowering.Midway.of_tame {s : Lowering} {α : Type} {p : Lower α} (hs : s.Midway) (hp : Course.Tame p) :
    (p s).2.Midway := by
  obtain ⟨k, ws, hcourse⟩ := Course.exists_course_of_tame hp hs.good
  have hgood := hcourse.good hs.good
  exact ⟨hgood.sober, hgood.order, hgood.operands, hgood.processing, hcourse.registered hs.registered⟩

/-- Along a sequence of definitions and assignments a variable stands for the function that was stored in it last:
a call through the variable is accepted just where the direct call of that function is, and passes the same
words. -/
theorem call_of_alias {s s' : Lowering} {nodes : List Node} {names : Aliases} {x f : Ident} {g : SymbolId}
    {levels depth : Nat} {opener closer opener' closer' : Token} {args : List Node} (hs : s.Midway)
    (hnames : (Aliases.of s.table).run? nodes = some names)
    (hrun : items (visit (levels + 2)) nodes s = (.ok (), s'))
    (hx : (names.known x.name).function = some g) (hlabels : x.labels = []) (hf : f.labels = [])
    (hg : s'.table.lookup f.name f.token.pos = .ok g) :
    (Accepted (visit (depth + 2) (.call (.ident x) opener closer args)) s' ↔
      Accepted (visit (depth + 2) (.call (.ident f) opener' closer' args)) s') ∧
    ∀ u u', visit (depth + 2) (.call (.ident x) opener closer args) s' = (.ok (), u) →
      visit (depth + 2) (.call (.ident f) opener' closer' args) s' = (.ok (), u') →
      ∃ id out op words, s'.table.lookup x.name x.token.pos = .ok id ∧
        u.out = CodeBuffer.emit out op ((s'.table.get id).rid :: words) ∧
        u'.out = CodeBuffer.emit out op ((s'.table.get g).rid :: words) := by
  have htracks := (Aliases.tracks_of s.table).run hnames hrun
  obtain ⟨hlater, hgood⟩ := later_of_tame (Course.Tame.items fun n => Course.tame_visit (levels + 2) n) hs.good hrun
  have huser : s.table.IsUserFunction g := Aliases.forall_run
    (fun y g hy => (functionNamed_eq_some.mp (show s.table.functionNamed y = some g from hy)).2) hnames x.name g hx
  obtain ⟨id, hid, hmeaning, heval⟩ := htracks.eval hx hlabels depth
  obtain ⟨info, hinfo, -⟩ := huser.later hlater
  have hdetail := Symbol.detail_of_function hinfo
  have hcalled : eval (visit (depth + 1)) (.ident f) s' = (.ok (.ofSymbol s'.table g), s') :=
    eval_of_lookup hf hg (by rw [hdetail]; exact SymbolDetail.noConfusion)
  have hself : (Operand.ofSymbol s'.table g).meaning = some g := by rw [Operand.ofSymbol, hdetail]
  have habreast : Abreast (PassesSame (s'.table.get id).rid (s'.table.get g).rid)
      (visit (depth + 2) (.call (.ident x) opener closer args))
      (visit (depth + 2) (.call (.ident f) opener' closer' args)) s' := by
    change Abreast _ (call (visit (depth + 1)) (.ident x) args _) (call (visit (depth + 1)) (.ident f) args _) s'
    rw [call_eq, call_eq]
    unfold Abreast
    rw [bind_of_ok heval, bind_of_ok hcalled]
    -- the arguments are the same, and so is the function when they are known
    refine (Abreast.same (collect (argument (visit (depth + 1))) args)).bind_run ?_
    rintro given _ t hgiven rfl
    obtain ⟨hlater', -⟩ := later_of_tame (Course.Tame.collect fun n => Course.temper.argument (Course.tame_visit (depth + 1)))
      hgood hgiven
    have huser' := (huser.later hlater).later hlater'
    unfold Abreast
    rw [callValue_of_meaning hmeaning huser', callValue_of_meaning hself huser', ← Course.raw_ofSymbol s'.table id,
      ← Course.raw_ofSymbol s'.table g]
    exact callFunction_renamed huser'
  obtain ⟨_, t, _, t', hp, hq, out, op, words, hout, hout'⟩ | ⟨e, t, e', t', hp, hq⟩ := habreast
  · refine ⟨⟨fun _ => ⟨_, _, hq⟩, fun _ => ⟨_, _, hp⟩⟩, fun u u' hu hu' => ?_⟩
    cases hp.symm.trans hu
    cases hq.symm.trans hu'
    exact ⟨id, out, op, words, hid, hout, hout'⟩
  · constructor
    · constructor
      · rintro ⟨a, u, hu⟩
        cases hp.symm.trans hu
      · rintro ⟨a, u, hu⟩
        cases hq.symm.trans hu
    · intro u u' hu
      cases hp.symm.trans hu

/-- Two functions that take different numbers of arguments. -/
def pairSource : Source := Source.ofString "fun g(a): nul \x7b pass \x7d\nfun h(a, b): nul \x7b pass \x7d\n"

def nameOf (word : String) : Ident := { token := { kind := .ident, literal := word, pos := default } }

/-- A variable that is another name of one function, and then of the other one. -/
def pairNodes : List Node :=
  [.varDef { kind := .keyword .varDef, literal := "var", pos := default } [nameOf "f"] [some (.ident (nameOf "g"))],
    .assign (.ident (nameOf "f")) { kind := .op .assign, literal := "=", pos := default } (.ident (nameOf "h"))]

/-- A call with two values. -/
def pairCall (callee : String) : Node := .call (.ident (nameOf callee)) default default [.null default, .null default]

theorem call_of_alias_pairNodes :
    ∃ s s' names, s.Midway ∧ (Aliases.of s.table).run? pairNodes = some names ∧ (names.known "f").function = some 14 ∧
      items (visit 2) pairNodes s = (.ok (), s') ∧ s'.table.lookup "h" default = .ok 14 ∧
      (Accepted (visit 2 (pairCall "f")) s' ↔ Accepted (visit 2 (pairCall "h")) s') ∧
      Accepted (visit 2 (pairCall "h")) s' := by
  have checked : (Program.ofSource pairSource "").toOption.any (fun p =>
      let s := (items (visit 4) p.body ((Session.ofOptions {}).begin {} false)).2
      let result := items (visit 2) pairNodes s
      ((Aliases.of s.table).run? pairNodes).any (fun names => (names.known "f").function == some 14) &&
        result.1.toOption.any (fun _ => true) && (result.2.table.lookup "h" default).toOption.any (· == 14) &&
        (visit 2 (pairCall "h") result.2).1.toOption.any fun _ => true) = true := by
    unfold Session.begin
    rw [Session.enterBuiltins_named (Session.ofOptions {}) Registry.names_standard, pairSource, Source.ofString_ofList]
    decide +kernel
  obtain ⟨p, -, hchecked⟩ := exists_ok_of_any checked
  simp only [Bool.and_eq_true] at hchecked
  obtain ⟨⟨⟨hnames, hrun⟩, hlookup⟩, hcall⟩ := hchecked
  have hbegin : ((Session.ofOptions {}).begin {} false).Midway :=
    Session.midway_begin (Session.Reached.new.settled Registry.sober_standard)
      (Session.Reached.new.registered Registry.sober_standard).1 {} false
  have hs := hbegin.of_tame (p := items (visit 4) p.body) (Course.Tame.items (Course.tame_visit 4))
  generalize (items (visit 4) p.body ((Session.ofOptions {}).begin {} false)).2 = s at *
  obtain ⟨names, hnames, hf⟩ := (Option.any_eq_true _ _).mp hnames
  have hf := eq_of_beq hf
  obtain ⟨_, hrun, -⟩ := exists_ok_of_any hrun
  obtain ⟨g, hlookup, hg⟩ := exists_ok_of_any hlookup
  obtain ⟨_, hcall, -⟩ := exists_ok_of_any hcall
  obtain rfl := eq_of_beq hg
  refine ⟨s, _, names, hs, hnames, hf, Prod.ext hrun rfl, hlookup, ?_, _, _, Prod.ext hcall rfl⟩
  exact (call_of_alias (x := nameOf "f") (f := nameOf "h") hs hnames (Prod.ext hrun rfl) hf rfl rfl hlookup).1

/-- A program that assigns a variable of a function type, and then makes a call. -/
def typedSource (call : String) : Source :=
  Source.ofString ("fun g(a): nul \x7b pass \x7d\nfun h(a, b): nul \x7b pass \x7d\nvar f: func = g\nf = h\n" ++
    call ++ "\n")

/-- The variable holds the second function, and still stands for the first one. -/
theorem stale_alias_of_typedSource :
    (compileSource {} {} (typedSource "f(1, 2)") "main.kite").toOption = none ∧
      (∃ code, compileSource {} {} (typedSource "h(1, 2)") "main.kite" = .ok code ∧
        ⟨.copy, ["f_h_4", "f_5"]⟩ ∈ code.instructions ∧ ⟨.call, ["f_h_4", "1", "2"]⟩ ∈ code.instructions) ∧
      ∃ code, compileSource {} {} (typedSource "f(1)") "main.kite" = .ok code ∧
        ⟨.copy, ["f_h_4", "f_5"]⟩ ∈ code.instructions ∧ ⟨.call, ["f_5", "1"]⟩ ∈ code.instructions := by
  have refused : (compileSource {} {} (typedSource "f(1, 2)") "main.kite").toOption.isNone = true := by
    rw [compileSource_named {} Registry.names_standard, typedSource, Source.ofString_parts]
    decide +kernel
  have direct : (compileSource {} {} (typedSource "h(1, 2)") "main.kite").toOption.any (fun code =>
      code.instructions.contains ⟨.copy, ["f_h_4", "f_5"]⟩ && code.instructions.contains ⟨.call, ["f_h_4", "1", "2"]⟩) =
      true := by
    rw [compileSource_named {} Registry.names_standard, typedSource, Source.ofString_parts]
    decide +kernel
  have stale : (compileSource {} {} (typedSource "f(1)") "main.kite").toOption.any (fun code =>
      code.instructions.contains ⟨.copy, ["f_h_4", "f_5"]⟩ && code.instructions.contains ⟨.call, ["f_5", "1"]⟩) = true := by
    rw [compileSource_named {} Registry.names_standard, typedSource, Source.ofString_parts]
    decide +kernel
  obtain ⟨code, hcode, hdirect⟩ := exists_ok_of_any direct
  obtain ⟨code', hcode', hstale⟩ := exists_ok_of_any stale
  simp only [Bool.and_eq_true, List.contains_iff_mem] at hdirect hstale
  exact ⟨Option.isNone_iff_eq_none.mp refused, ⟨code, hcode, hdirect⟩, code', hcode', hstale⟩

end Frontend
