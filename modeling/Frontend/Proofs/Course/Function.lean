import Frontend.Proofs.Course.Expression
import Frontend.Proofs.Lowering.Function

/-!
# Courses of definitions

A variable gets a place and its first value at once. The raw ids of a function and of its parameters are due
from its head until its code is written; there the object of a method comes first.
-/

namespace Frontend.Course

open SymbolTable

variable {home : Option Home} {ws ws' : List String} {s s' : Lowering} {t t' : SymbolTable} {id : SymbolId}
  {visit : Visit} {α β : Type}
variable {labels : List Label} {w : String} {p : Lower α} {name : Ident} {token : Token}
variable {admitted due : List String} {Q : β → List String → Lowering → Prop}
  {f : SymbolTable → Except Diagnostic SymbolTable} {marks : Marks} {value : Option Operand} {base : String} {n : Nat}

/-! ## Variables -/

/-- The marks of labels are read. -/
theorem Goes.marksOf [Setting] {what : String} {f : Marks → Lower β} (hf : ∀ marks, Goes home ws s (f marks) Q) :
    Goes home ws s (Lower.marksOf labels what admitted >>= f) Q := by
  unfold Lower.marksOf
  simp only [Lower.bind_assoc]
  exact .ask (.ofExcept fun marks _ => .refuse (hf marks))

/-- The first value of a variable is moved to its place. -/
theorem move_eq {o : Operand} (h : o.raw ≠ w) (s : Lowering) :
    ∃ code, Initial w code ∧ Lower.move o w s = (.ok (), s.withOut (s.out.append code)) := by
  unfold Lower.move
  rw [if_neg (by simpa using h)]
  split
  · exact ⟨_, ⟨.put, o.raw, .inl rfl, h, rfl⟩, rfl⟩
  · exact ⟨_, ⟨.copy, o.raw, .inr rfl, h, rfl⟩, rfl⟩

theorem tryTable_of_ok (h : f s.table = .ok t) : Lower.tryTable f s = (.ok (), s.withTable t) := by
  change Lower.andThen (Lower.ofExcept (f s.table)) (fun t => Lower.changeTable fun _ => t) s = _
  rw [h]
  rfl

theorem tryTable_of_error {d : Diagnostic} (h : f s.table = .error d) :
    Lower.tryTable f s = (.error (.diagnostic d), s) := by
  change Lower.andThen (Lower.ofExcept (f s.table)) (fun t => Lower.changeTable fun _ => t) s = _
  rw [h]
  rfl

/-- One of two steps from a state that is not the one the course begins at. -/
theorem Goes.iteAt [Setting] {c : Prop} [Decidable c] {q : Lower α} {u : Lowering} {Q : α → List String → Lowering → Prop}
    (hp : c → Goes home ws s (fun _ => p u) Q) (hq : ¬ c → Goes home ws s (fun _ => q u) Q) :
    Goes home ws s (fun _ => (if c then p else q) u) Q := by
  split
  · exact hp ‹_›
  · exact hq ‹_›

/-- The place of a variable that was entered in its scope, and its first value. -/
theorem Goes.allot [Setting] {v : VariableInfo} {level : Nat} {sym : Symbol}
    (hrid : sym.rid = Word.numbered base s.supply.rids) (hsym : sym.detail = .var v) (howner : v.owner = none)
    (hlevel : level = s.table.level ∨ level = 0) (ht : (s.table.add sym).2.insertAt level (s.table.add sym).1 = .ok t)
    (hconst : value = none → v.const = false) (hvalue : ∀ o, value = some o → Word.Below s.supply.rids o.raw) :
    Goes home ws s (fun _ => Lower.allot (s.table.add sym).1 sym.rid marks value ((s.made sym).withTable t))
      (Same ws) := by
  cases value with
  | none => exact .last rfl (.define sym hrid hsym howner hlevel ht (.inl ⟨hconst rfl, rfl⟩)) rfl
  | some o =>
    have hne : o.raw ≠ sym.rid := by
      intro h
      rw [hrid] at h
      exact Nat.lt_irrefl _ (hvalue o rfl _ (h ▸ Word.isNumbered_numbered _ _))
    obtain ⟨code, hcode, hmove⟩ := move_eq hne (((s.made sym).withTable t).withOut (s.out.emit .allot [sym.rid]))
    have hdefined := @Course.define _ home ws _ _ _ _ _ _ sym hrid hsym howner hlevel ht (.inr hcode)
    have hremembered : ∀ u : Lowering, Course home true ws u ws (u.withTable (u.table.modify (s.table.add sym).1
        (Symbol.mapVariable fun v =>
          { v with meaning := o.meaning, value := if marks.typeOrAny.isAny then o.effective else v.value }))) :=
      fun u => .change (.value _ _ fun _ => rfl)
    refine .last (a := ()) ?_ (hdefined.trans (hremembered _)) rfl
    change Lower.andThen (Lower.move o sym.rid) _ (((s.made sym).withTable t).withOut (s.out.emit .allot [sym.rid])) = _
    unfold Lower.andThen
    rw [hmove]
    rfl

/-- A symbol was made, and it is entered in a scope or refused. -/
theorem Goes.enter [Setting] {sym : Symbol} {Q : α → List String → Lowering → Prop}
    (hrid : sym.rid = Word.numbered base s.supply.rids) (hfun : sym.function? = none)
    (hcls : ∀ c, sym.class? = some c → c.members = [] ∧ c.statics = [] ∧ c.base = none)
    (hp : ∀ t, f (s.table.add sym).2 = .ok t → Goes home ws s (fun _ => p ((s.made sym).withTable t)) Q) :
    Goes home ws s (fun _ => (Lower.tryTable f >>= fun _ => p) (s.made sym)) Q := by
  cases ht : f (s.table.add sym).2 with
  | ok t =>
    intro hg r s' hr
    rw [Lower.bind_of_ok (tryTable_of_ok ht)] at hr
    exact hp t ht hg r s' hr
  | error d =>
    intro hg r s' hr
    rw [Lower.bind_of_error (tryTable_of_error ht)] at hr
    cases hr
    exact .stray sym hrid hfun hcls

/-- A place is made for a variable, and its value moves in. -/
theorem Goes.introduce [Setting] (hconst : value = none → marks.isConst = false)
    (hvalue : ∀ o, value = some o → Word.Below s.supply.rids o.raw) :
    Goes home ws s (Lower.introduce name marks value) (Same ws) := by
  let sym : Symbol := {
    name := name.name, rid := Word.numbered name.name s.supply.rids, pos := name.token.pos
    detail := .var { type := marks.typeOrAny, const := marks.isConst, global := marks.lifeCycle? == some .global } }
  change Goes home ws s (fun _ => (do
    if (marks.lifeCycle? == some .global) = true then Lower.tryTable (·.insertGlobal (s.table.add sym).1)
    else Lower.insert (s.table.add sym).1
    Lower.allot (s.table.add sym).1 sym.rid marks value : Lower Unit) (s.made sym)) (Same ws)
  have hcls : ∀ c, sym.class? = some c → c.members = [] ∧ c.statics = [] ∧ c.base = none := by
    rintro c ⟨⟩
  refine .iteAt (fun _ => ?_) fun _ => ?_
  · exact .enter (f := (·.insertGlobal (s.table.add sym).1)) rfl rfl hcls fun t ht =>
      .allot rfl rfl rfl (.inr rfl) ht hconst hvalue
  · exact .enter (f := (·.insert (s.table.add sym).1)) rfl rfl hcls fun t ht =>
      .allot rfl rfl rfl (.inl rfl) ht hconst hvalue

theorem Tame.defineVariable [Setting] {init : Option Node} (hv : ∀ n, Tame (visit n)) :
    Tame (Lower.defineVariable visit name init) := by
  intro home ws s₁
  refine .marksOf fun marks => ?_
  cases init with
  | none =>
    refine .unless fun hconst => ?_
    change Goes home ws s₁ (Lower.introduce name marks none) _
    exact .introduce (fun _ => Bool.eq_false_iff.mpr hconst) fun o ho => by cases ho
  | some n =>
    refine (Goes.eval hv n).bind ?_
    rintro o _ s₂ - ⟨rfl, ho⟩
    refine .ask (.unless fun _ => ?_)
    change Goes home _ s₂ (Lower.introduce name marks (some o)) _
    refine .introduce (fun h => by cases h) ?_
    rintro _ ⟨⟩
    exact ho

theorem Tame.defineVariables [Setting] {names : List Ident} {values : List (Option Node)} (hv : ∀ n, Tame (visit n)) :
    Tame (Lower.defineVariables visit names values) := temper.forAll fun _ _ => .defineVariable hv

/-! ## Heads of functions -/

/-- The raw id of a parameter is due. -/
theorem Goes.parameter [Setting] {p : Param} : Goes home ws s (Lower.parameter p) fun q ws' s' =>
      ws' = q.rid :: ws ∧ Word.Below s'.supply.rids q.rid ∧ s'.table = s.table := by
  unfold Lower.parameter
  refine .marksOf fun marks => .freshRid fun rid s₁ _ hrid htable => ?_
  refine .unless fun _ => ?_
  have done : ∀ q : Parameter, q.rid = rid → Goes home (rid :: ws) s₁ (pure q) fun q ws' s' =>
      ws' = q.rid :: ws ∧ Word.Below s'.supply.rids q.rid ∧ s'.table = s.table := by
    rintro q rfl
    exact .pure ⟨rfl, hrid, htable⟩
  cases p.default with
  | none => exact done _ rfl
  | some n =>
    dsimp only
    cases Operand.ofLiteral? n with
    | none => exact .failBind
    | some o => exact .ask (.unless fun _ => done _ rfl)

theorem Goes.parameters [Setting] {params : List Param} :
    Goes home ws s (Lower.collect Lower.parameter params) fun qs ws' s' =>
      (qs.map (·.rid) ++ ws).Subperm ws' ∧ (∀ q ∈ qs, Word.Below s'.supply.rids q.rid) ∧ s'.table = s.table := by
  induction params generalizing ws s with
  | nil => exact .pure ⟨.refl _, fun _ h => absurd h List.not_mem_nil, rfl⟩
  | cons p params ih =>
    refine Goes.parameter.bind ?_
    rintro q _ s₁ - ⟨rfl, hq, htable⟩
    refine ih.bind ?_
    rintro qs ws₂ s₂ hcourse ⟨hdue, hqs, htable₂⟩
    refine .pure ⟨List.perm_middle.symm.subperm.trans hdue, List.forall_mem_cons.mpr ⟨?_, hqs⟩,
      htable₂.trans htable⟩
    exact hq.mono hcourse.steps.supply.rids

/-- The head of a function that was read: its words are due. -/
structure HeadFit (n : Nat) (due ws : List String) (sym : Symbol) (info : FunctionInfo) : Prop where
  detail : sym.detail = .function info
  closed : info.declared = false
  below : WordsBelow n sym
  due : (sym.words ++ ws).Subperm due

theorem HeadFit.words {sym : Symbol} {info : FunctionInfo} (h : HeadFit n due ws sym info) :
    sym.words = sym.rid :: info.params.map (·.rid) := by
  unfold Symbol.words Symbol.function?
  rw [h.detail]
  rfl

theorem Goes.functionHead [Setting] {owner : Option SymbolId} {params : List Param} :
    Goes home ws s (Lower.functionHead name owner params labels admitted) fun head ws' s' =>
      HeadFit s'.supply.rids ws' ws head.1 head.2.1 ∧ s'.table = s.table := by
  unfold Lower.functionHead
  refine .marksOf fun marks => Goes.parameters.bind ?_
  rintro ps ws₁ s₁ - ⟨hdue, hps, htable₁⟩
  refine .freshFunctionRid fun rid s₂ hcourse hrid htable =>
    .pure ⟨⟨rfl, rfl, ⟨hrid, ?_⟩, ?_⟩, htable.trans htable₁⟩
  · rintro f ⟨⟩ p hp
    exact (hps p hp).mono hcourse.steps.supply.rids
  · exact (List.subperm_cons rid).mpr hdue

/-- A symbol is made for a head. -/
theorem Goes.newFunction [Setting] {sym : Symbol} {info info' : FunctionInfo} {f : SymbolId → Lower β}
    (h : HeadFit n due ws sym info) (hn : n ≤ s.supply.rids) (hparams : info'.params = info.params)
    (hf : ∀ s₁ ws₁, (s₁.table.get s.table.symbols.size) = { sym with detail := .function info' } →
      s₁ = s.withTable (s.table.add { sym with detail := .function info' }).2 →
      Course home true due s ws₁ s₁ → (info'.declared = true → ws.Subperm ws₁) →
      (info'.declared = false → (sym.words ++ ws).Subperm ws₁) → Goes home ws₁ s₁ (f s.table.symbols.size) Q) :
    Goes home due s (Lower.newSymbol { sym with detail := .function info' } >>= f) Q := by
  have hbelow : WordsBelow s.supply.rids { sym with detail := .function info' } := by
    refine ⟨h.below.rid.mono hn, ?_⟩
    rintro g ⟨⟩ p hp
    rw [hparams] at hp
    exact (h.below.params info (by rw [Symbol.function?, h.detail]) p hp).mono hn
  have hopen : (Symbol.open? { sym with detail := .function info' }) = if info'.declared then some sym.rid else none := rfl
  have hdue : (sym.rid :: ws).Subperm due := by
    refine List.Subperm.trans ?_ h.due
    rw [h.words]
    exact (((List.sublist_append_right _ ws)).cons_cons sym.rid).subperm
  have hget : (s.withTable (s.table.add { sym with detail := .function info' }).2).table.get s.table.symbols.size =
      { sym with detail := .function info' } := get_add_self _ _
  cases hdeclared : info'.declared with
  | true =>
    rw [hdeclared, if_pos rfl] at hopen
    have hmake : Change s.supply.rids (sym.rid :: ws) s.table ws
        (s.table.add { sym with detail := .function info' }).2 :=
      .make _ (fun v hv => by cases hv) rfl (by rw [hopen]; rfl) (.inl List.mem_cons_self) hbelow
    have hcourse := (@Course.forget _ home _ _ _ hdue).trans (.change hmake)
    exact .step rfl hcourse (hf _ ws hget rfl hcourse (fun _ => .refl _) fun h => by cases hdeclared.symm.trans h)
  | false =>
    rw [hdeclared, if_neg Bool.false_ne_true] at hopen
    have hmake : Change s.supply.rids due s.table due (s.table.add { sym with detail := .function info' }).2 :=
      .make _ (fun v hv => by cases hv) rfl (by rw [hopen]; rfl) (.inl (hdue.subset List.mem_cons_self)) hbelow
    have hcourse := @Course.change _ home _ _ _ _ hmake
    exact .step rfl hcourse (hf _ due hget rfl hcourse (fun h => by cases hdeclared.symm.trans h) fun _ => h.due)

/-! ## Bodies of functions -/

/-- A function that has a definition, with its words. -/
structure Defined (t : SymbolTable) (id : SymbolId) (words : List String) : Prop where
  isFunction : (t.get id).function?.isSome = true
  closed : (t.get id).isOpen = false
  words : (t.get id).words = words

/-- A constructor of a class. -/
def Constructs (t : SymbolTable) (cls id : SymbolId) : Prop :=
  ∃ f, (t.get id).function? = some f ∧ f.kind = .construct ∧ f.owner = some cls

theorem Defined.known {words : List String} (h : Defined t id words) : id < t.symbols.size := by
  obtain ⟨f, hf⟩ := Option.isSome_iff_exists.mp h.isFunction
  exact lt_size_of_function? hf

theorem Defined.later {words : List String} (h : Defined t id words) (hl : Later t t') : Defined t' id words := by
  obtain ⟨hclosed, hwords⟩ := hl.closed id h.known h.closed
  exact ⟨(Symbol.isSome_function?_of_core (hl.core id h.known)).trans h.isFunction, hclosed, hwords.trans h.words⟩

theorem Constructs.later {cls : SymbolId} (h : Constructs t cls id) (hl : Later t t') : Constructs t' cls id := by
  obtain ⟨f, hf, hkind, howner⟩ := h
  obtain ⟨f', hf', hsame⟩ := Symbol.function?_of_core (hl.core id (lt_size_of_function? hf)) hf
  exact ⟨f', hf', (congrArg FunctionInfo.kind hsame).trans hkind, (congrArg FunctionInfo.owner hsame).trans howner⟩

/-- In the innermost scope `this` means a symbol with a raw id. -/
def ThisIn (t : SymbolTable) (w : String) : Prop :=
  t.top.kind = .function ∧ t.inner ≠ [] ∧
    ∃ id < t.symbols.size, t.top.names.lookup "this" = some id ∧ (t.get id).rid = w

/-- In the scope of a function a name is looked up in no other scope. -/
theorem findInFunction?_of_top {name : String} (hkind : t.top.kind = .function) (hinner : t.inner ≠ []) :
    t.findInFunction? name = t.top.names.lookup name := by
  obtain ⟨top, rest, hcons⟩ := List.exists_cons_of_ne_nil hinner
  have htop : t.top = top := by rw [SymbolTable.top, hcons]; rfl
  rw [htop] at hkind ⊢
  have hlevel : t.functionLevel = t.level := by
    rw [functionLevel, level, hcons, List.dropWhile_cons_of_neg]
    rw [hkind]
    decide
  rw [findInFunction?, hlevel, Nat.add_sub_cancel_left, SymbolTable.scopes, hcons]
  simp

theorem ThisIn.thisRid (h : ThisIn s.table w) : Lower.thisRid s = (.ok w, s) := by
  obtain ⟨hkind, hinner, id, -, hid, rfl⟩ := h
  change (Except.ok (((s.table.findInFunction? "this").map fun id => (s.table.get id).rid).getD ""), s) = _
  rw [findInFunction?_of_top hkind hinner, hid]
  rfl

/-- The innermost scope behind an entry. A name that counts was new there. -/
theorem top_insert (h : t.insert id = .ok t') : t'.top.kind = t.top.kind ∧
    t'.top.names = putEntry (t.get id).name id t.top.names ∧
    ((t.get id).name ≠ discardName → t.top.names.lookup (t.get id).name = none) := by
  have hnew : (t.get id).name ≠ discardName → t.top.names.lookup (t.get id).name = none := by
    intro hname
    have hscope : t.scopeAt t.level = t.top := by
      rw [scopeAt, Nat.sub_self, List.drop_zero, SymbolTable.top]
    unfold SymbolTable.insert insertAt at h
    dsimp only at h
    rw [if_neg (by simpa using hname), hscope] at h
    cases hold : t.top.names.lookup (t.get id).name with
    | none => rfl
    | some old =>
      rw [hold] at h
      cases h
  have htop : t'.top = entered (t.get id) id t.top := by
    rw [insertAt_eq h]
    unfold mapScope SymbolTable.top level
    cases hinner : t.inner with
    | nil =>
      rw [List.length_nil, if_pos rfl]
      change (t.inner.headD _) = _
      rw [hinner]
      rfl
    | cons top rest =>
      rw [List.length_cons, if_neg (Nat.succ_ne_zero _)]
      change ((t.inner.modify (t.inner.length - (rest.length + 1)) _).headD _) = _
      rw [hinner, List.length_cons, Nat.sub_self, List.modify_zero_cons]
      rfl
  exact ⟨by rw [htop]; rfl, by rw [htop]; rfl, hnew⟩

/-- Another name in the innermost scope leaves the meaning of `this` alone. -/
theorem ThisIn.insert (h : ThisIn t w) (hinsert : t.insert id = .ok t') : ThisIn t' w := by
  obtain ⟨hkind, hinner, this, hknown, hthis, hrid⟩ := h
  obtain ⟨hsame, hnames, hnew⟩ := top_insert hinsert
  have hl := later_insertAt hinsert
  refine ⟨hsame.trans hkind, (samePlaces_insertAt (.inl rfl) hinsert).scopes.inner_ne_nil hinner, this,
    hknown.trans_le hl.size, ?_, (Symbol.rid_of_core (hl.core this hknown)).trans hrid⟩
  have hname : "this" ≠ (t.get id).name := by
    intro he
    have hcounts : (t.get id).name ≠ discardName := he ▸ by decide
    have := hnew hcounts
    rw [← he, hthis] at this
    cases this
  rw [hnames, lookup_putEntry, if_neg hname]
  exact hthis

/-- A new symbol leaves the meaning of `this` alone. -/
theorem ThisIn.add (h : ThisIn t w) (sym : Symbol) : ThisIn (t.add sym).2 w := by
  obtain ⟨hkind, hinner, this, hknown, hthis, hrid⟩ := h
  have hl := later_add t sym
  exact ⟨hkind, hinner, this, hknown.trans_le hl.size, hthis, (Symbol.rid_of_core (hl.core this hknown)).trans hrid⟩

/-- A symbol that was made is entered in the innermost scope. -/
theorem Goes.insert [Setting] {Q : Unit → List String → Lowering → Prop}
    (hQ : ∀ t, s.table.insert id = .ok t → Q () ws (s.withTable t)) : Goes home ws s (Lower.insert id) Q :=
  .tryTable (fun _ ht => .enter (.inl rfl) ht) hQ

/-- The parameters are entered in the scope of a function; `this` keeps its meaning. -/
theorem Goes.enterParameters [Setting] {params : List Parameter} {object : Option String}
    (hdue : ∀ p ∈ params, p.rid ∈ ws) (hbelow : ∀ p ∈ params, Word.Below s.supply.rids p.rid)
    (hthis : ∀ w ∈ object, ThisIn s.table w) : Goes home ws s (Lower.enterParameters params) fun _ ws' s' =>
        ws' = ws ∧ s'.out = s.out ∧ ∀ w ∈ object, ThisIn s'.table w := by
  induction params generalizing s with
  | nil => exact .pure ⟨rfl, rfl, hthis⟩
  | cons p params ih =>
    unfold Lower.enterParameters Lower.forAll
    rw [Lower.bind_assoc]
    refine .newSymbol (fun v hv => by cases hv) rfl rfl (.inl (hdue p List.mem_cons_self))
      ⟨hbelow p List.mem_cons_self, fun f hf => by cases hf⟩ fun _ => ?_
    refine .bind (R := fun _ ws' s' => ws' = ws ∧ s'.out = s.out ∧ s'.supply = s.supply ∧
      ∀ w ∈ object, ThisIn s'.table w) (.insert fun t ht => ⟨rfl, rfl, rfl, ?_⟩) ?_
    · exact fun w hw => ((hthis w hw).add _).insert ht
    · rintro _ _ s₁ - ⟨rfl, hout, hsupply, hthis₁⟩
      refine (ih (fun q hq => hdue q (List.mem_cons_of_mem _ hq)) (fun q hq => ?_) hthis₁).weaken ?_
      · rw [hsupply]
        exact hbelow q (List.mem_cons_of_mem _ hq)
      · rintro _ _ _ - ⟨rfl, hout₂, hthis₂⟩
        exact ⟨rfl, hout₂.trans hout, hthis₂⟩

/-- The parameters of a function are entered, in front of them the object of a method or constructor. -/
theorem Goes.enterParams [Setting] {f : FunctionInfo} (hf : (s.table.get id).function? = some f)
    (hdue : ((s.table.get id).words ++ ws').Subperm ws) (hkind : s.table.top.kind = .function)
    (hinner : s.table.inner ≠ []) : Goes home ws s (Lower.enterParams id) fun params ws₁ s₁ => s₁.out = s.out ∧
      (((s.table.get id).rid :: params) ++ ws').Subperm ws₁ ∧
      (f.kind = .construct → ∃ w, params.head? = some w ∧ ThisIn s₁.table w) := by
  refine .good fun hg => ?_
  have hwords : (s.table.get id).words = (s.table.get id).rid :: f.params.map (·.rid) := by
    rw [Symbol.words, hf]
    rfl
  rw [hwords] at hdue
  have hrids : ∀ p ∈ f.params, p.rid ∈ ws := fun p hp =>
    hdue.subset (List.mem_append_left _ (List.mem_cons_of_mem _ (List.mem_map_of_mem hp)))
  have hbelow : ∀ p ∈ f.params, Word.Below s.supply.rids p.rid := (hg.order.words id).params f hf
  unfold Lower.enterParams
  refine .ask ?_
  change Goes home ws s (if (((s.table.get id).function?.getD {}).isMethod || _) = true then _ else _) _
  rw [show s.session.symbols.get id = s.table.get id from rfl, hf, Option.getD_some]
  -- the parameters come behind the object
  have rest : ∀ (receiver : List String) (u : Lowering) (vs : List String),
      (f.kind = .construct → ∃ w, receiver.head? = some w ∧ ThisIn u.table w) →
      (∀ w ∈ receiver.head?, ThisIn u.table w) → u.out = s.out → s.supply.Before u.supply →
      (receiver ++ ws).Subperm vs →
      Goes home vs u (Lower.enterBehind receiver f.params) fun params ws₁ s₁ => s₁.out = s.out ∧
          (((s.table.get id).rid :: params) ++ ws').Subperm ws₁ ∧
          (f.kind = .construct → ∃ w, params.head? = some w ∧ ThisIn s₁.table w) := by
    intro receiver u vs hconstruct hthis hout hsupply hvs
    refine (Goes.enterParameters (fun p hp => hvs.subset (List.mem_append_right _ (hrids p hp)))
      (fun p hp => (hbelow p hp).mono hsupply.rids) hthis).bind ?_
    rintro _ _ u₁ - ⟨rfl, hout₁, hthis₁⟩
    refine .pure ⟨hout₁.trans hout, ?_, fun hkind => ?_⟩
    · refine List.Subperm.trans ?_ hvs
      refine List.Subperm.trans (List.Perm.subperm ?_) ((List.subperm_append_left receiver).mpr hdue)
      rw [List.cons_append, List.append_assoc]
      exact List.perm_middle.symm
    · obtain ⟨w, hw, -⟩ := hconstruct hkind
      refine ⟨w, ?_, hthis₁ w hw⟩
      rw [List.head?_append, hw]
      rfl
  refine .ite (fun _ => ?_) fun hplain => ?_
  · let sym : Symbol := {
      name := "this", rid := Word.numbered "this" s.supply.rids, pos := (s.table.get id).pos
      detail := .var { type := .ofClass (s.table.get (f.owner.getD 0)).name (s.table.get (f.owner.getD 0)).rid, const := true } }
    refine .goneTo (u := s.made sym) (p := do
      Lower.insert s.table.symbols.size
      Lower.enterBehind [sym.rid] f.params) (.fresh sym rfl rfl fun _ => rfl) ?_
    refine .bind (R := fun _ vs u => vs = sym.rid :: ws ∧ u.out = s.out ∧ s.supply.Before u.supply ∧
      ThisIn u.table sym.rid) (.insert fun t ht => ⟨rfl, rfl, (Steps.made s sym).supply, ?_⟩) ?_
    · have hget : (s.made sym).table.get s.table.symbols.size = sym := get_add_self _ _
      have hknown : s.table.symbols.size < (s.made sym).table.symbols.size := by
        rw [show (s.made sym).table = (s.table.add sym).2 from rfl, size_add]
        exact Nat.lt_succ_self _
      obtain ⟨hsame, hnames, -⟩ := top_insert ht
      have hl := later_insertAt ht
      refine ⟨hsame.trans hkind, (samePlaces_insertAt (.inl rfl) ht).scopes.inner_ne_nil hinner,
        s.table.symbols.size, hknown.trans_le hl.size, ?_, ?_⟩
      · change t.top.names.lookup "this" = _
        rw [hnames, lookup_putEntry, hget, if_pos rfl]
      · exact (Symbol.rid_of_core (hl.core _ hknown)).trans (congrArg Symbol.rid hget)
    · rintro _ _ u - ⟨rfl, hout, hsupply, hthis⟩
      refine rest [sym.rid] u _ (fun _ => ⟨_, rfl, hthis⟩) ?_ hout hsupply (.refl _)
      rintro w ⟨⟩
      exact hthis
  · refine rest [] s ws (fun hkind => ?_) (fun w hw => by cases hw) rfl (.refl _) (.refl _)
    rw [hkind] at hplain
    simp at hplain

/-- A step in the scope of a function and inside of it. -/
theorem inScope_inside {r : Except Failure α} {u : Lowering} (h : p (s.within id) = (r, u)) :
    Lower.inScope .function (Lower.inside id p) s = (r, s.behind u) := by
  change ((p (s.within id)).1, s.behind (p (s.within id)).2) = _
  rw [h]

/-- A step whose code is kept apart. -/
theorem apart_eq {p : Lower Unit} {r : Except Failure Unit} {v : Lowering} {code : Code} {out : CodeBuffer}
    (h : p (s.withOut s.out.enter) = (r, v)) (hleave : v.out.leave? s.out.depth = some (code, out)) :
    Lower.apart p s = (r.map fun _ => code, v.withOut out) := by
  unfold Lower.apart
  dsimp only
  rw [show p { s with out := s.out.enter } = (r, v) from h]
  dsimp only
  rw [hleave]
  rfl

section Bodies

variable {items : List Node → Lower Unit} {body : Block} {before : Lower Unit} {e : Failure} {params : List String}
  {u v : Lowering} {code : Code} {out : CodeBuffer}

/-- The head of a function is refused. -/
theorem functionBody_of_head (henter : Lower.enterParams id (s.within id) = (.error e, u)) :
    Lower.functionBody items id body before s = (.error e, s.behind u) := by
  exact inScope_inside (Lower.bind_of_error henter _)

/-- The body of a function is refused. -/
theorem functionBody_of_error (henter : Lower.enterParams id (s.within id) = (.ok params, u))
    (hbody : (do before; items body.items; Lower.epilogue id body.finish : Lower Unit) (u.withOut u.out.enter) =
      (.error e, v)) (hleave : v.out.leave? u.out.depth = some (code, out)) :
    Lower.functionBody items id body before s = (.error e, s.behind (v.withOut out)) := by
  refine inScope_inside ((Lower.bind_of_ok henter _).trans ?_)
  exact Lower.bind_of_error (apart_eq hbody hleave) _

/-- A function is written behind its body. -/
theorem functionBody_of_ok (henter : Lower.enterParams id (s.within id) = (.ok params, u))
    (hbody : (do before; items body.items; Lower.epilogue id body.finish : Lower Unit) (u.withOut u.out.enter) =
      (.ok (), v)) (hleave : v.out.leave? u.out.depth = some (code, out)) :
    ∃ op : Opcode, (op = .func ∨ op = .funi) ∧ Lower.functionBody items id body before s =
      (.ok (), s.behind (v.withOut (((out.emit op ((v.table.get id).rid :: params)).append code).emit .finish []))) := by
  refine ⟨if ((v.table.get id).function?.getD {}).returnsValue then .funi else .func, ?_, inScope_inside ?_⟩
  · split
    · exact .inr rfl
    · exact .inl rfl
  · exact (Lower.bind_of_ok henter _).trans (Lower.bind_of_ok (apart_eq hbody hleave) _)

end Bodies

/-- The body of a function: what comes first may count on the object of a constructor. -/
theorem Goes.functionBody [Setting] {items : List Node → Lower Unit} {body : Block} {before : Lower Unit} {words : List String}
    (hdefined : Defined s.table id words) (hdue : (words ++ ws').Subperm ws) (hitems : ∀ ns, Tame (items ns))
    (hbefore : ∀ params vs u, Later s.table u.table →
      (∀ cls, Constructs s.table cls id → ∃ w, params.head? = some w ∧ ThisIn u.table w) →
      Goes (some ⟨id, params⟩) vs u before (Same vs)) :
    Goes home ws s (Lower.functionBody items id body before) (Same ws') := by
  obtain ⟨f, hf⟩ := Option.isSome_iff_exists.mp hdefined.isFunction
  have henter : Goes (some ⟨id, []⟩) ws (s.within id) (Lower.enterParams id) _ :=
    .enterParams (f := f) hf (by
      rw [show (s.within id).table.get id = s.table.get id from rfl, hdefined.words]
      exact hdue) rfl (List.cons_ne_nil _ _)
  intro hg r s' hr
  cases he : Lower.enterParams id (s.within id) with
  | mk q u =>
    have hu := henter (hg.within hdefined.isFunction []) q u he
    cases q with
    | error e =>
      rw [functionBody_of_head he] at hr
      cases hr
      exact .headless hdefined.isFunction hu
    | ok params =>
      obtain ⟨ws₁, hcourse, hout, hwords, hthis⟩ := hu
      have hrest : Goes (some ⟨id, params⟩) ws₁ (u.withOut u.out.enter)
          (do before; items body.items; Lower.epilogue id body.finish) (Same ws₁) := by
        refine (hbefore params ws₁ _ ?_ ?_).bind ?_
        · have hwithin : s.table.Later (s.within id).table := .of_symbols rfl
          exact hwithin.trans hcourse.steps.later
        · rintro cls ⟨g, hg, hkind, -⟩
          cases hf.symm.trans hg
          exact hthis hkind
        · rintro _ _ v - rfl
          exact ((hitems _).bind fun _ => temper.epilogue) _ _ _
      have hgood : Good (some ⟨id, params⟩) (u.withOut u.out.enter) :=
        (hcourse.good (hg.within hdefined.isFunction [])).body _
      cases hb : (do before; items body.items; Lower.epilogue id body.finish : Lower Unit) (u.withOut u.out.enter) with
      | mk q v =>
        have hv := hrest hgood q v hb
        have leaves : Steps (u.withOut u.out.enter) v → ∃ code out, v.out.leave? u.out.depth = some (code, out) := by
          intro hs
          obtain ⟨code, out, hleave, -⟩ := CodeBuffer.leave?_eq (show v.out.depth = u.out.depth + 1 from hs.depth)
          exact ⟨code, out, hleave⟩
        cases q with
        | error e =>
          obtain ⟨code, out, hleave⟩ := leaves hv.steps
          rw [functionBody_of_error he hb hleave] at hr
          cases hr
          exact .broken hdefined.isFunction hcourse hv hleave
        | ok _ =>
          obtain ⟨ws₂, hv, rfl⟩ := hv
          obtain ⟨code, out, hleave⟩ := leaves hv.steps
          obtain ⟨op, hop, heq⟩ := functionBody_of_ok he hb hleave
          rw [heq] at hr
          cases hr
          refine ⟨ws', .function hop hdefined.isFunction hcourse hout hv hleave ?_, rfl⟩
          have hlater := hcourse.steps.later.trans hv.steps.later
          rw [Symbol.rid_of_core (hlater.core id hdefined.known)]
          exact hwords

/-! ## Definitions of functions -/

/-- A function that was completed has its definition. -/
theorem Defined.fulfilled {f : FunctionInfo} (hf : (t.get id).function? = some f) (params : List Parameter) :
    Defined (t.modify id (Symbol.mapFunction fun f => { f with params, declared := false })) id
      ((t.get id).rid :: params.map (·.rid)) := by
  have hget := (get_modify t id id (Symbol.mapFunction fun f => { f with params, declared := false })).trans
    (if_pos ⟨rfl, lt_size_of_function? hf⟩)
  have hfun : ((t.modify id (Symbol.mapFunction fun f => { f with params, declared := false })).get id).function? =
      some { f with params, declared := false } := by
    rw [hget, Symbol.function?_mapFunction, hf]
    rfl
  refine ⟨by rw [hfun]; rfl, Symbol.function?_isOpen hfun, ?_⟩
  rw [Symbol.words, hfun, hget, Symbol.rid_mapFunction]
  rfl

/-- A declared function gets its definition: its own word is due again, that of the definition is not. -/
theorem Goes.fulfil [Setting] {old : SymbolId} {sym : Symbol} {info : FunctionInfo}
    (hdue : (info.params.map (·.rid) ++ ws').Subperm ws) (hparams : ∀ p ∈ info.params, Word.Below s.supply.rids p.rid)
    (hold : (((s.table.get old).function?).getD {}).declared = true) :
    Goes home ws s (Lower.fulfil old sym info) fun _ vs u =>
      (∃ words, Defined u.table old words ∧ (words ++ ws').Subperm vs) ∧
        ∀ cls, (u.table.get cls).class? = (s.table.get cls).class? := by
  obtain ⟨f, hf⟩ : ∃ f, (s.table.get old).function? = some f := by
    cases hf : (s.table.get old).function? with
    | some f => exact ⟨f, rfl⟩
    | none =>
      rw [hf] at hold
      cases hold
  have hopen : (s.table.get old).isOpen = true := by
    rw [Symbol.function?_isOpen hf]
    rwa [hf] at hold
  unfold Lower.fulfil
  refine .ask (.unless fun _ => .forget hdue (.changeTable (.fulfil old info.params hopen ?_ hparams) ?_))
  · rw [hf]
    rfl
  · refine ⟨⟨_, Defined.fulfilled hf info.params, .refl _⟩, fun cls => ?_⟩
    change (SymbolTable.get (s.table.modify _ _) cls).class? = _
    rw [get_modify]
    split
    · rw [Symbol.class?_mapFunction]
    · rfl

theorem Tame.noteDeclared [Setting] : Tame (Lower.noteDeclared id) := by
  intro home ws s
  have haside : Aside s { s with declared := s.declared ++ [id] } :=
    ⟨rfl, rfl, rfl, rfl, rfl, rfl, rfl, List.Subset.refl _⟩
  exact .last rfl (Course.refl.after haside) rfl

theorem Tame.declareFunction [Setting] {params : List Param} : Tame (Lower.declareFunction name params labels) := by
  intro home ws s
  unfold Lower.declareFunction
  refine Goes.functionHead.bind ?_
  rintro ⟨sym, info, marks⟩ due s₁ - ⟨hhead, -⟩
  refine .newFunction hhead (le_refl _) rfl ?_
  intro s₂ ws₂ hget hs hcourse hws _
  refine .forget (hws rfl) ?_
  exact (Tame.insert.bind fun _ => .noteDeclared) home ws s₂

/-- What a new function is, is known behind its making. -/
theorem Defined.made {sym : Symbol} {info : FunctionInfo} (hget : t.get id = { sym with detail := .function info })
    (hdeclared : info.declared = false) : Defined t id (sym.rid :: info.params.map (·.rid)) := by
  refine ⟨?_, ?_, ?_⟩
  · rw [hget]
    rfl
  · rw [hget]
    exact hdeclared
  · rw [hget]
    rfl

theorem Tame.defineFunction [Setting] {items : List Node → Lower Unit} {params : List Param} {body : Block}
    (hitems : ∀ ns, Tame (items ns)) : Tame (Lower.defineFunction items name params labels body) := by
  intro home ws s
  unfold Lower.defineFunction
  refine Goes.functionHead.bind ?_
  rintro ⟨sym, info, marks⟩ due s₁ - ⟨hhead, -⟩
  have hbefore : ∀ (id : SymbolId) params vs u, Goes (some ⟨id, params⟩) vs u (pure ()) (Same vs) :=
    fun _ _ _ _ => .pure rfl
  refine .ask ?_
  dsimp only
  split
  · next old hold =>
    refine (@Goes.fulfil home due ws s₁ _ old sym info ?_ ?_ (Option.filter_eq_some_iff.mp hold).2).bind ?_
    · refine List.Subperm.trans ?_ hhead.due
      rw [hhead.words]
      exact (List.sublist_cons_self sym.rid (info.params.map (·.rid) ++ ws)).subperm
    · exact hhead.below.params info (by rw [Symbol.function?, hhead.detail])
    · rintro _ vs s₂ - ⟨⟨words, hdefined, hdue⟩, -⟩
      exact .functionBody hdefined hdue hitems fun _ _ _ _ _ => hbefore _ _ _ _
  · have hsym : sym = { sym with detail := .function info } := by rw [← hhead.detail]
    rw [hsym]
    refine .newFunction hhead (le_refl _) rfl ?_
    intro s₂ ws₂ hget hs hcourse _ hws
    have hdefined := Defined.made hget hhead.closed
    refine Tame.insert.then fun _ s₃ hcourse₃ => ?_
    refine .functionBody (hdefined.later hcourse₃.steps.later) ?_ hitems fun _ _ _ _ _ => hbefore _ _ _ _
    rw [← hhead.words]
    exact hws hhead.closed

theorem Tame.lambda [Setting] {items : List Node → Lower Unit} {params : List Param} {body : Block}
    (hitems : ∀ ns, Tame (items ns)) : Tame (Lower.lambda items token params labels body) := by
  intro home ws s
  unfold Lower.lambda
  refine .marksOf fun marks => Goes.parameters.bind ?_
  rintro ps due s₂ - ⟨hdue, hps, -⟩
  refine .freshFunctionRid fun rid s₃ hcourse hrid _ => ?_
  let info : FunctionInfo := { params := ps, result := marks.typeOrAny, kind := .anonymous }
  let sym : Symbol := { name := "lambda", rid, pos := token.pos, detail := .function info }
  have hhead : HeadFit s₃.supply.rids (rid :: due) ws sym info := by
    refine ⟨rfl, rfl, ⟨hrid, ?_⟩, (List.subperm_cons rid).mpr hdue⟩
    rintro f ⟨⟩ p hp
    exact (hps p hp).mono hcourse.steps.supply.rids
  refine .newFunction hhead (le_refl _) rfl ?_
  intro s₄ ws₄ hget hs hcourse₄ _ hws
  have hdefined := Defined.made hget rfl
  refine (Goes.functionBody hdefined (hws rfl) hitems fun _ _ _ _ _ => Goes.pure rfl).bind ?_
  rintro _ _ s₅ - rfl
  exact .ask (.pushSymbol (raw_ofSymbol _ _) rfl)

/-! ## Ways out of functions -/

theorem Tame.returnFrom [Setting] {value : Option Node} (hv : ∀ n, Tame (visit n)) :
    Tame (Lower.returnFrom visit token value) := by
  refine (Tame.ask _).bind fun function? => (Tame.ask _).bind fun _ => ?_
  split
  · next id _ _ =>
    have marked : Tame (Lower.changeTable (·.modify id (Symbol.mapFunction fun f =>
        { f with returned := true }))) := fun _ _ _ => .changeTable (.returned id) rfl
    refine marked.bind fun _ => (Tame.ask _).bind fun _ => ?_
    split
    · exact temper.returnNothing
    · exact temper.returnValue hv
  · exact .fail _

end Frontend.Course
