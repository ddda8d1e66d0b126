import Frontend.Proofs.Binding.Store
import Frontend.Proofs.Course.Names
import Frontend.Proofs.Symbol.Hierarchy

/-!
# Names in initial values

The initial value of a field is lowered in every constructor of its class and of the classes below, behind
the parameters of the constructor. A name in it means there what it means in the body of the class, as long
as nothing comes in between: no parameter of this name, no scope around the class below, and no member
that a class in between defines.
-/

namespace Frontend

open SymbolTable Lower

/-- What a bare name stands for: a symbol in reach, else a member of the class around. -/
inductive Denotation where
  | symbol (id : SymbolId)
  | member (id : SymbolId)
  | nothing
  deriving DecidableEq, Repr

namespace Lowering

/-- The class around a place. -/
def innermostClass (s : Lowering) : Option SymbolId :=
  s.processing.find? fun id => (s.table.get id).class?.isSome

/-- What a bare name stands for at a place. -/
def denotes (s : Lowering) (name : String) : Denotation :=
  match s.table.lookup name {} with
  | .ok id => .symbol id
  | .error _ => ((s.innermostClass.bind (s.table.member? · name)).map .member).getD .nothing

end Lowering

variable {s s' u b d : Lowering} {t : SymbolTable} {x : String} {id cls below ctor : SymbolId}
variable {top : Scope} {rest : List Scope} {sym : Symbol}

/-! ## What names stand for -/

theorem Lowering.denotes_eq_symbol (pos : Position) : s.denotes x = .symbol id ↔ s.table.lookup x pos = .ok id := by
  have hanywhere : s.table.lookup x pos = .ok id ↔ s.table.lookup x {} = .ok id := lookup_eq_ok.trans lookup_eq_ok.symm
  rw [hanywhere]
  unfold Lowering.denotes
  cases s.table.lookup x {} with
  | ok found => simp
  | error e => cases s.innermostClass.bind (s.table.member? · x) <;> simp

/-- A name that nothing in scope has is left to the class. -/
theorem Lowering.denotes_of_unbound (h : s.table.find? x = none) :
    s.denotes x = ((s.innermostClass.bind (s.table.member? · x)).map .member).getD .nothing := by
  unfold Lowering.denotes SymbolTable.lookup
  rw [h]

/-- A name that stands for a symbol is lowered to it. -/
theorem ident_of_denotes {name : Ident} (hlabels : name.labels = []) (h : s.denotes name.name = .symbol id)
    (htarget : (s.table.get id).detail ≠ .target) (n : Node) :
    Lower.ident name n s = Lower.push (.ofSymbol s.table id) s := by
  unfold Lower.ident
  rw [hlabels]
  refine (bind_of_ok (rfl : Lower.table s = (.ok s.table, s)) _).trans ?_
  rw [(Lowering.denotes_eq_symbol name.token.pos).mp h]
  generalize hdetail : (s.table.get id).detail = detail at htarget
  cases detail with
  | target => exact absurd rfl htarget
  | _ =>
    dsimp only
    rw [hdetail]
    rfl

/-! ## The scope of a constructor -/

namespace SymbolTable

/-- The innermost scope of `t'` has new entries for some names; all else is in `t'` as it is in `t`. -/
structure Gains (names : List String) (t t' : SymbolTable) : Prop where
  scopes : ∃ top top' rest, t.inner = top :: rest ∧ t'.inner = top' :: rest ∧ top'.kind = top.kind ∧
    (∀ x, x ∉ names → top'.names.lookup x = top.names.lookup x) ∧
    ∀ x ∈ names, ∃ id, t.symbols.size ≤ id ∧ id < t'.symbols.size ∧ top'.names.lookup x = some id ∧
      (t'.get id).level = t.level ∧ (t'.get id).detail ≠ .target
  global : t'.global = t.global
  size : t.symbols.size ≤ t'.symbols.size
  get : ∀ id < t.symbols.size, t'.get id = t.get id
  classes : ∀ id, (t'.get id).class? = (t.get id).class?

variable {t t' t'' : SymbolTable} {names names' : List String}

theorem Gains.nil (h : t.inner = top :: rest) : Gains [] t t :=
  ⟨⟨top, top, rest, h, h, rfl, fun _ _ => rfl, nofun⟩, rfl, le_rfl, fun _ _ => rfl, fun _ => rfl⟩

theorem Gains.level_eq (h : Gains names t t') : t'.level = t.level := by
  obtain ⟨top, top', rest, hinner, hinner', -⟩ := h.scopes
  rw [level, level, hinner, hinner', List.length_cons, List.length_cons]

theorem Gains.trans (h : Gains names t t') (h' : Gains names' t' t'') : Gains (names ++ names') t t'' := by
  obtain ⟨top, top', rest, hinner, hinner', hkind, hold, hnew⟩ := h.scopes
  obtain ⟨_, top'', _, hmiddle, hinner'', hkind', hold', hnew'⟩ := h'.scopes
  obtain ⟨rfl, rfl⟩ := List.cons.inj (hinner'.symm.trans hmiddle)
  refine ⟨⟨top, top'', rest, hinner, hinner'', hkind'.trans hkind, ?_, ?_⟩, h'.global.trans h.global,
    h.size.trans h'.size, ?_, fun id => (h'.classes id).trans (h.classes id)⟩
  · intro x hx
    rw [List.mem_append, not_or] at hx
    exact (hold' x hx.2).trans (hold x hx.1)
  · intro x hx
    by_cases hlate : x ∈ names'
    · obtain ⟨id, hle, hlt, hlookup, hlevel, hdetail⟩ := hnew' x hlate
      exact ⟨id, h.size.trans hle, hlt, hlookup, hlevel.trans h.level_eq, hdetail⟩
    · obtain ⟨id, hle, hlt, hlookup, hlevel, hdetail⟩ := hnew x ((List.mem_append.mp hx).resolve_right hlate)
      rw [← h'.get id hlt] at hlevel hdetail
      exact ⟨id, hle, hlt.trans_le h'.size, (hold' x hlate).trans hlookup, hlevel, hdetail⟩
  · intro id hid
    exact (h'.get id (hid.trans_le h.size)).trans (h.get id hid)

/-- A new symbol, no class and no label, is entered in the innermost scope. -/
theorem gains_insert (hinner : t.inner = top :: rest) (hclass : sym.class? = none) (hdetail : sym.detail ≠ .target)
    (h : (t.add sym).2.insert (t.add sym).1 = .ok t') : Gains [sym.name] t t' := by
  obtain ⟨hinner', hglobal, -⟩ := Meaning.scopes_of_insert hinner h
  have hsymbols : t'.symbols =
      ((t.add sym).2.modify t.symbols.size fun s => { s with level := t.level }).symbols := by
    rw [insertAt_eq h]
    unfold mapScope
    split <;> rfl
  have hmodified : ∀ id, t'.get id = if id = t.symbols.size ∧ id < t.symbols.size + 1 then
      { (t.add sym).2.get id with level := t.level } else (t.add sym).2.get id := by
    intro id
    rw [← size_add t sym, ← get_setLevel]
    unfold SymbolTable.get
    rw [hsymbols]
  have hnew : t'.get t.symbols.size = { sym with level := t.level } := by
    rw [hmodified, if_pos ⟨rfl, Nat.lt_succ_self _⟩, get_add_self]
  have hold : ∀ id < t.symbols.size, t'.get id = t.get id := by
    intro id hid
    rw [hmodified, if_neg fun h => Nat.ne_of_lt hid h.1, get_add_of_lt t sym hid]
  have hsize : t'.symbols.size = t.symbols.size + 1 := by
    rw [hsymbols, size_modify, size_add]
  refine ⟨⟨top, _, rest, hinner, hinner', rfl, ?_, ?_⟩, hglobal, by omega, hold, ?_⟩
  · intro x hx
    exact (lookup_putEntry _ _ _ _).trans (if_neg (by simpa using hx))
  · intro x hx
    refine ⟨t.symbols.size, le_rfl, by omega, ?_, ?_, ?_⟩
    · exact (lookup_putEntry _ _ _ _).trans (if_pos (by simpa using hx))
    · rw [hnew]
    · rw [hnew]
      exact hdetail
  · intro id
    rcases Nat.lt_trichotomy id t.symbols.size with hid | rfl | hid
    · rw [hold id hid]
    · rw [hnew, get_of_size_le le_rfl]
      exact hclass
    · rw [get_of_size_le (Nat.le_of_lt hid), get_of_size_le (by omega)]

end SymbolTable

/-- A new symbol that is entered in the innermost scope. -/
theorem gains_of_newSymbol (hinner : s.table.inner ≠ []) (hclass : sym.class? = none) (hdetail : sym.detail ≠ .target)
    (h : (newSymbol sym >>= insert) s = (.ok (), u)) :
    Gains [sym.name] s.table u.table ∧ u.processing = s.processing := by
  obtain ⟨_, _, ⟨⟩, hinsert⟩ := bind_eq_ok.mp h
  obtain ⟨top, rest, hcons⟩ := List.exists_cons_of_ne_nil hinner
  cases hentered : (s.table.add sym).2.insert (s.table.add sym).1 with
  | error e =>
    have hrefused := tryTable_of_error (f := (·.insert (s.table.add sym).1)) (s := s.withTable (s.table.add sym).2) hentered
    cases hinsert.symm.trans hrefused
  | ok t =>
    have haccepted : insert (s.table.add sym).1 (s.withTable (s.table.add sym).2) =
        (.ok (), (s.withTable (s.table.add sym).2).withTable t) := by
      change (ofExcept ((s.table.add sym).2.insert (s.table.add sym).1) >>= _) _ = _
      rw [hentered]
      rfl
    cases hinsert.symm.trans haccepted
    exact ⟨gains_insert hcons hclass hdetail hentered, rfl⟩

theorem gains_of_parameters {params : List Parameter} (hinner : s.table.inner ≠ [])
    (h : forAll (fun (p : Parameter) => do
      let id ← newSymbol { name := p.name, rid := p.rid, pos := p.pos, detail := .parameter { type := p.type } p.kind }
      insert id) params s = (.ok (), u)) :
    Gains (params.map (·.name)) s.table u.table ∧ u.processing = s.processing := by
  induction params generalizing s with
  | nil =>
    cases h
    obtain ⟨top, rest, hcons⟩ := List.exists_cons_of_ne_nil hinner
    exact ⟨.nil hcons, rfl⟩
  | cons p params ih =>
    obtain ⟨_, m, hfirst, hrest⟩ := bind_eq_ok.mp h
    obtain ⟨hgains, hprocessing⟩ := gains_of_newSymbol hinner rfl (fun h => by cases h) hfirst
    have hinner' : m.table.inner ≠ [] := by
      obtain ⟨_, _, _, -, hcons, -⟩ := hgains.scopes
      exact hcons ▸ List.cons_ne_nil _ _
    obtain ⟨hgains', hprocessing'⟩ := ih hinner' hrest
    exact ⟨hgains.trans hgains', hprocessing'.trans hprocessing⟩

/-- The scope of a constructor has its object and its parameters, and nothing else. -/
theorem gains_enterParams {f : FunctionInfo} {words : List String}
    (hctor : (s.table.get ctor).function? = some f) (hkind : f.kind = .construct)
    (h : enterParams ctor (s.within ctor) = (.ok words, u)) :
    Gains ("this" :: f.params.map (·.name)) (s.table.enter .function) u.table ∧ u.processing = ctor :: s.processing := by
  unfold enterParams at h
  obtain ⟨_, _, ⟨⟩, h⟩ := bind_eq_ok.mp h
  rw [show ((s.within ctor).session.symbols.get ctor).function? = some f from hctor, Option.getD_some] at h
  rw [if_pos (by rw [hkind]; simp)] at h
  obtain ⟨rid, r, hrid, h⟩ := bind_eq_ok.mp h
  obtain ⟨_, _, ⟨⟩, h⟩ := bind_eq_ok.mp h
  obtain ⟨this, v, hnew, h⟩ := bind_eq_ok.mp h
  obtain ⟨_, w, hinsert, h⟩ := bind_eq_ok.mp h
  obtain ⟨_, _, ⟨⟩, h⟩ := bind_eq_ok.mp h
  obtain ⟨_, _, hparams, ⟨⟩⟩ := bind_eq_ok.mp h
  have htaken : r.table = s.table.enter .function ∧ r.processing = ctor :: s.processing := by
    cases hrid
    exact ⟨rfl, rfl⟩
  obtain ⟨hgains, hprocessing⟩ := gains_of_newSymbol (htaken.1 ▸ List.cons_ne_nil _ _) rfl (fun h => by cases h)
    (bind_eq_ok.mpr ⟨this, v, hnew, hinsert⟩)
  have hinner : w.table.inner ≠ [] := by
    obtain ⟨_, _, _, -, hcons, -⟩ := hgains.scopes
    exact hcons ▸ List.cons_ne_nil _ _
  obtain ⟨hgains', hprocessing'⟩ := gains_of_parameters hinner hparams
  rw [htaken.1] at hgains
  exact ⟨hgains.trans hgains', hprocessing'.trans (hprocessing.trans htaken.2)⟩

/-! ## What names stand for in a constructor -/

namespace SymbolTable

variable {t t' : SymbolTable} {names : List String} {n : Nat}

/-- A name is found in the scope that binds it if no scope inside of that scope does. -/
theorem find?_of_scopeAt (h : (t.scopeAt n).names.lookup x = some id)
    (hbetween : ∀ scope ∈ t.inner.take (t.level - n), scope.names.lookup x = none) : t.find? x = some id := by
  have hinner : t.inner.findSome? (·.names.lookup x) =
      (t.inner.drop (t.level - n)).findSome? (·.names.lookup x) := by
    conv_lhs => rw [← List.take_append_drop (t.level - n) t.inner]
    rw [List.findSome?_append, List.findSome?_eq_none_iff.mpr hbetween, Option.none_or]
  rw [find?_eq, hinner]
  unfold scopeAt at h
  cases hrest : t.inner.drop (t.level - n) with
  | nil =>
    rw [hrest] at h
    exact h
  | cons scope scopes =>
    rw [hrest] at h
    rw [List.findSome?_cons, show scope.names.lookup x = some id from h]
    rfl

/-- The scopes around a place keep their names, one by one. -/
theorem Around.scopeAt (h : Around t t') (hn : n ≤ t.level) : (t.scopeAt n).Keeps (t'.scopeAt n) := by
  have hdrop := List.forall₂_drop (t.level - n) h.inner
  have hdepth : t'.level - t.level + (t.level - n) = t'.level - n := by
    have := h.deeper
    omega
  rw [List.drop_drop, hdepth] at hdrop
  unfold SymbolTable.scopeAt
  revert hdrop
  generalize t.inner.drop (t.level - n) = scopes, t'.inner.drop (t'.level - n) = scopes'
  intro hdrop
  cases hdrop with
  | nil => exact h.global
  | cons hscope _ => exact hscope

/-- What a name stands for behind new entries. -/
theorem Gains.find?_eq (h : Gains names (t.enter .function) t') (hx : x ∉ names) : t'.find? x = t.find? x := by
  obtain ⟨top, top', rest, hinner, hinner', -, hold, -⟩ := h.scopes
  obtain ⟨rfl, rfl⟩ := List.cons.inj (show { kind := .function } :: t.inner = top :: rest from hinner)
  rw [SymbolTable.find?_eq, SymbolTable.find?_eq, hinner', h.global, List.findSome?_cons, hold x hx]
  rfl

theorem Gains.functionLevel_eq (h : Gains names (t.enter .function) t') : t'.functionLevel = t.level + 1 := by
  obtain ⟨top, top', rest, hinner, hinner', hkind, -⟩ := h.scopes
  obtain ⟨rfl, rfl⟩ := List.cons.inj (show { kind := .function } :: t.inner = top :: rest from hinner)
  rw [functionLevel, hinner', List.dropWhile_cons_of_neg (by simp [hkind])]
  rfl

/-- The members of classes are what classes say, however many symbols there are. -/
theorem member?_of_classInfo (hinfo : t'.classInfo = t.classInfo) (hsize : t.symbols.size ≤ t'.symbols.size)
    (h : t.Hierarchy) (hcls : t.IsClass cls) : t'.member? cls x = t.member? cls x := by
  have hwalk : ∀ (k : Nat) (o : Option SymbolId), t'.chainOf k o = t.chainOf k o := by
    intro k
    induction k with
    | zero => exact fun _ => rfl
    | succ k ih =>
      intro o
      cases o with
      | none => rfl
      | some id => rw [chainOf, chainOf, hinfo, ih]
  have hchain : t'.chain (some cls) = t.chain (some cls) := by
    rw [chain, hwalk]
    exact h.chainOf_eq hsize fun _ hid => Option.some.inj hid ▸ hcls.lt_size
  have hown : (t'.ownMember? · x) = (t.ownMember? · x) := by
    funext id
    rw [ownMember?, ownMember?, hinfo]
  rw [member?, member?, hchain, hown]

/-- A member that no class in between defines is the one of the class further up. -/
theorem Hierarchy.member?_of_between (h : t.Hierarchy) (hbelow : Relation.ReflTransGen t.Below below cls)
    (hcls : t.IsClass below) (hbetween : ∀ c, Relation.ReflTransGen t.Below below c → t.Beneath c cls →
      t.ownMember? c x = none) : t.member? below x = t.member? cls x := by
  induction hbelow using Relation.ReflTransGen.head_induction_on with
  | refl => rfl
  | @head a c hac hcc ih =>
    rw [h.member?_eq hcls, hbetween a .refl (.head' hac hcc), Option.none_or, show (t.classInfo a).base = some c from hac]
    exact ih (h.base hac) fun e hce => hbetween e (.head hac hce)

end SymbolTable

/-- Nothing comes between a name at `b`, in the body of the class `cls`, and at `d`, in the body of the class
`below`, which is `cls` or a class below it. -/
inductive Undisturbed (b d : Lowering) (cls below : SymbolId) (x : String) : Prop where
  /-- The name is bound in a scope around `cls`, and is not bound again between this scope and `below`. It can be
  reached from within a function. -/
  | bound {n : Nat} {id : SymbolId} (hname : x ≠ discardName) (hb : b.denotes x = .symbol id)
      (hn : n ≤ b.table.exit.level) (hscope : (b.table.exit.scopeAt n).names.lookup x = some id)
      (hbetween : ∀ scope ∈ d.table.inner.take (d.table.level - n), scope.names.lookup x = none)
      (hid : id < d.table.symbols.size)
      (hreach : (d.table.get id).var?.isSome = true → (d.table.get id).level = 0)
  /-- No scope binds the name, and no class between `below` and `cls` has such a member. -/
  | unbound (hb : b.table.find? x = none) (hd : d.table.find? x = none)
      (hbelow : Relation.ReflTransGen d.table.Below below cls)
      (hbetween : ∀ c, Relation.ReflTransGen d.table.Below below c → d.table.Beneath c cls →
        d.table.ownMember? c x = none)
      (hmember : d.table.member? cls x = b.table.member? cls x)

namespace Lowering

theorem isClass_of_innermostClass (h : s.innermostClass = some cls) : s.table.IsClass cls :=
  List.find?_some (p := fun id => (s.table.get id).class?.isSome) h

/-- In every constructor of a class and of the classes below it, a name that nothing disturbs stands for what it
stands for in the body of the class. The parameters of the constructor and its object come before all that: their
names stand for new symbols. -/
theorem denotes_in_constructor {f : FunctionInfo} {words : List String} (hierarchy : d.table.Hierarchy)
    (haround : SymbolTable.Around b.table.exit d.table) (hcls : b.innermostClass = some cls) (hbelow : d.innermostClass = some below)
    (hctor : (d.table.get ctor).function? = some f) (hkind : f.kind = .construct)
    (henter : enterParams ctor (d.within ctor) = (.ok words, u)) (x : String) :
    (x ∉ "this" :: f.params.map (·.name) → Undisturbed b d cls below x → u.denotes x = b.denotes x ∧
      ∀ (name : Ident) (n : Node) (id : SymbolId), name.name = x → name.labels = [] → b.denotes x = .symbol id →
        (d.table.get id).detail ≠ .target → ident name n u = push (.ofSymbol d.table id) u) ∧
    (x ∈ "this" :: f.params.map (·.name) → ∃ id, d.table.symbols.size ≤ id ∧ u.denotes x = .symbol id) := by
  obtain ⟨hgains, hprocessing⟩ := gains_enterParams hctor hkind henter
  have hclass : u.innermostClass = some below := by
    have hctor' : ((u.table.get ctor).class?.isSome) = false := by
      rw [hgains.classes]
      change ((d.table.get ctor).class?.isSome) = false
      revert hctor
      unfold Symbol.function? Symbol.class?
      cases (d.table.get ctor).detail <;> simp
    rw [← hbelow, innermostClass, innermostClass, hprocessing, List.find?_cons_of_neg (by simp [hctor'])]
    congr 1
    funext id
    rw [hgains.classes]
    rfl
  refine ⟨fun hx hbetween => ?_, fun hx => ?_⟩
  · have hfind : u.table.find? x = d.table.find? x := hgains.find?_eq hx
    cases hbetween with
    | @bound n id hname hb hn hscope hbetween hid hreach =>
      have hdenotes : u.denotes x = .symbol id := by
        have hget : u.table.get id = d.table.get id := hgains.get id hid
        rw [denotes_eq_symbol {}, lookup_eq_ok, hfind, hget]
        refine ⟨find?_of_scopeAt (haround.scopeAt hn x id hname hscope) hbetween, ?_⟩
        rintro ⟨hvar, hpos, -⟩
        exact absurd (hreach hvar) (Nat.ne_of_gt hpos)
      refine ⟨hdenotes.trans hb.symm, ?_⟩
      rintro name n' id' rfl hlabels hid' htarget
      cases hb.symm.trans hid'
      have hget : u.table.get id = d.table.get id := hgains.get id hid
      rw [ident_of_denotes hlabels hdenotes (hget ▸ htarget), Operand.ofSymbol, Operand.ofSymbol, hget]
    | unbound hb hd hpath hbetween hmember =>
      have hmember' : u.table.member? below x = b.table.member? cls x := by
        have hisClass := isClass_of_innermostClass hbelow
        rw [← hmember, ← hierarchy.member?_of_between hpath hisClass hbetween]
        refine member?_of_classInfo ?_ hgains.size hierarchy hisClass
        funext id
        exact congrArg (·.getD {}) (hgains.classes id)
      have hdenotes : u.denotes x = b.denotes x := by
        rw [denotes_of_unbound (hfind.trans hd), denotes_of_unbound hb, hclass, hcls, Option.bind_some,
          Option.bind_some, hmember']
      refine ⟨hdenotes, ?_⟩
      intro name n id _ _ hid _
      rw [denotes_of_unbound hb] at hid
      cases hfound : b.innermostClass.bind (b.table.member? · x) <;> simp [hfound] at hid
  · obtain ⟨top, top', rest, hinner, hinner', -, -, hnew⟩ := hgains.scopes
    obtain ⟨id, hle, -, hlookup, hlevel, -⟩ := hnew x hx
    refine ⟨id, hle, ?_⟩
    rw [denotes_eq_symbol {}, lookup_eq_ok, find?_eq, hinner', List.findSome?_cons, hlookup]
    refine ⟨rfl, ?_⟩
    rintro ⟨-, -, hlt⟩
    rw [hgains.functionLevel_eq, hlevel] at hlt
    exact Nat.lt_irrefl _ hlt

/-- A name that is written without labels. -/
def named (text : String) : Ident := { token := .ofText text default }

/-- Behind a variable `x`, where no functions are built in. -/
def behindX : Lowering :=
  (visit 2 (.varDef default [named "x"] [some (.int default 5)])
    ((Session.ofOptions { builtins := {} }).begin {} false)).2

/-- The items of a class `A`: a field `g` that starts with the value of `x`. -/
def itemsOfA : List Node := [.varDef default [named "g"] [some (.ident (named "x"))]]

/-- The body of the class `A`. -/
def declaringBody : Lowering := (collectMembers 1 {} itemsOfA (((classHead (named "A") behindX).2.opened .cls).entered 1)).2

/-- Behind the class `A`. -/
def behindA : Lowering := (visit 3 (.classDef default (named "A") (.mk default default itemsOfA)) behindX).2

/-- The name of a class `B` below `A`. -/
def nameOfB : Ident := { named "B" with labels := [.mk (.ofText "A" default) []] }

/-- The body of the class `B`, which has a constructor with the parameter `y`. -/
def belowBody : Lowering :=
  (collectMembers 5 {} [.constructor default (named "init") [.mk (named "y") .positional none] [] default]
    (((classHead nameOfB behindA).2.opened .cls).entered 5)).2

/-- The run leads from the end of the class into the body of the class below it. -/
theorem leads_belowBody : behindA.Leads belowBody := by
  have hhead : classHead nameOfB behindA = (.ok 5, (classHead nameOfB behindA).2) := by
    have hfirst : (classHead nameOfB behindA).1.toOption.any (· == 5) = true := by decide +kernel
    obtain ⟨cls, hcls, hfive⟩ := exists_ok_of_any hfirst
    exact Prod.ext (eq_of_beq hfive ▸ hcls) rfl
  have hsober : ({ builtins := {} } : CompileOptions).builtins.Sober :=
    ⟨fun _ he => absurd he List.not_mem_nil, fun _ he => absurd he List.not_mem_nil⟩
  have hgood := Session.good_begin (Session.settled_new hsober) {} false
  have hvisited : ∀ {s : Lowering} (levels : Nat) (n : Node), Course.Good none s → Course.Good none (visit levels n s).2 := by
    intro s levels n hg
    obtain ⟨k, ws, hcourse⟩ := Course.exists_course_of_tame (Course.tame_visit levels n) hg
    exact hcourse.good hg
  exact .body (hvisited 3 _ (hvisited 2 _ hgood)) hhead

theorem below_belowBody {a c : SymbolId} (h : belowBody.table.Below a c) : a = 5 ∧ c = 1 := by
  have hall : ∀ a < belowBody.table.symbols.size,
      (belowBody.table.classInfo a).base = if a = 5 then some 1 else none := by decide +kernel
  rw [Below, hall a (Below.lt_size h)] at h
  split at h
  next ha => exact ⟨ha, (Option.some.inj h).symm⟩
  · cases h

theorem hierarchy_belowBody : belowBody.table.Hierarchy := by
  refine ⟨fun hac => ?_, fun a ha => ?_⟩
  · obtain ⟨-, rfl⟩ := below_belowBody hac
    decide +kernel
  · obtain ⟨c, hfirst, -⟩ := Relation.TransGen.head'_iff.mp ha
    obtain ⟨e, -, hlast⟩ := Relation.TransGen.tail'_iff.mp ha
    cases (below_belowBody hfirst).1.symm.trans (below_belowBody hlast).2

theorem denotes_in_constructor_below : ∃ words u, enterParams 6 (belowBody.within 6) = (.ok words, u) ∧
    u.denotes "x" = .symbol 0 ∧ u.denotes "g" = .member 2 ∧ ∃ id, 7 ≤ id ∧ u.denotes "y" = .symbol id := by
  have haccepted : (enterParams 6 (belowBody.within 6)).1.toOption.isSome = true := by decide +kernel
  obtain ⟨words, hwords⟩ := exists_ok_of_isSome haccepted
  have henter : enterParams 6 (belowBody.within 6) = (.ok words, (enterParams 6 (belowBody.within 6)).2) := Prod.ext hwords rfl
  have haround : SymbolTable.Around declaringBody.table.exit belowBody.table := by
    have hinner : behindA.table.inner.length = 0 ∧ declaringBody.table.exit.inner.length = 0 := by decide +kernel
    have hnames : behindA.table.global.names = declaringBody.table.exit.global.names := by decide +kernel
    refine SymbolTable.Around.trans (.of_eq ?_ fun x id _ hx => hnames ▸ hx) leads_belowBody.around
    rw [List.length_eq_zero_iff.mp hinner.1, List.length_eq_zero_iff.mp hinner.2]
  have hdeclaring : declaringBody.innermostClass = some 1 := by decide +kernel
  have hbelow : belowBody.innermostClass = some 5 := by decide +kernel
  obtain ⟨f, hf, hkind, hparams⟩ : ∃ f, (belowBody.table.get 6).function? = some f ∧ f.kind = .construct ∧
      f.params.map (·.name) = ["y"] := by
    have hctor : ((belowBody.table.get 6).function?).any (fun f =>
        f.kind == .construct && f.params.map (·.name) == ["y"]) = true := by decide +kernel
    obtain ⟨f, hf, hrest⟩ := (Option.any_eq_true _ _).mp hctor
    obtain ⟨hkind, hparams⟩ := Bool.and_eq_true_iff.mp hrest
    exact ⟨f, hf, eq_of_beq hkind, eq_of_beq hparams⟩
  have hat := denotes_in_constructor hierarchy_belowBody haround hdeclaring hbelow hf hkind henter
  rw [hparams] at hat
  refine ⟨_, _, henter, ?_, ?_, ?_⟩
  · have hx : declaringBody.denotes "x" = .symbol 0 := by decide +kernel
    exact (((hat "x").1 (by decide) (.bound (n := 0) (by decide) hx (Nat.zero_le _) (by decide +kernel)
      (by decide +kernel) (by decide +kernel) (by decide +kernel))).1).trans hx
  · have hg : declaringBody.denotes "g" = .member 2 := by decide +kernel
    have hpath : belowBody.table.Below 5 1 := by
      change (belowBody.table.classInfo 5).base = some 1
      decide +kernel
    refine ((hat "g").1 (by decide) (.unbound (by decide +kernel) (by decide +kernel) (.single hpath)
      (fun c _ hbeneath => ?_) (by decide +kernel))).1.trans hg
    obtain ⟨e, hfirst, -⟩ := Relation.TransGen.head'_iff.mp hbeneath
    rw [(below_belowBody hfirst).1]
    decide +kernel
  · obtain ⟨id, hle, hy⟩ := (hat "y").2 (by decide)
    exact ⟨id, (by decide +kernel : 7 ≤ belowBody.table.symbols.size).trans hle, hy⟩

end Lowering

/-- A program whose class has a field that starts with the value of a variable `x`, and a constructor with one
parameter. -/
def initialSource (param : String) : Source :=
  Source.ofString ("var x = 5\nclass A \x7b\nvar f = x\nfun init(" ++ param ++ ") \x7b pass \x7d\n\x7d\n")

/-- The instructions that give the field of the program its first value. -/
def settings (param : String) : Option (List (List String)) :=
  (compileSource {} {} (initialSource param) "main.kite").toOption.map fun code =>
    code.filterMap fun
      | .instr ⟨.setField, args⟩ => some args
      | _ => none

/-- A parameter of a constructor comes before what its name stands for around the class. -/
theorem parameter_in_initial_value : settings "y" = some [["this_5", "f_2", "x_0"]] ∧
    settings "x" = some [["this_5", "f_2", "x_3"]] := by
  have hletters : ∀ param, initialSource param = Source.ofString "var x = 5\nclass A \x7b\nvar f = x\nfun init(" ++
      Source.ofString param ++ Source.ofString ") \x7b pass \x7d\n\x7d\n" := by
    intro param
    rw [initialSource, Source.ofString_append, Source.ofString_append]
  unfold settings
  simp only [compileSource_named {} Registry.names_standard, hletters]
  rw [Source.ofString_ofList, Source.ofString_ofList, Source.ofString_ofList, Source.ofString_ofList]
  decide +kernel

end Frontend
