import Frontend.Proofs.Binding.Keyword
import Frontend.Proofs.Binding.Store
import Frontend.Proofs.Trace.Basic

/-!
# One interface for all calls

A function may be declared first and defined later, and it may be called in between. Of two calls on the way of
compiling a text one is bound behind the other, so that both see the parameters of the same declaration, or of the
same definition, or the one those of the declaration and the other those of the definition that completes it.
-/

namespace Frontend

open SymbolTable

namespace Lower

/-! ## Calls of known functions -/

/-- A call of a function that is known by its symbol, as it is bound. -/
structure KnownCall where
  id : SymbolId
  /-- The function as it is known at the call. -/
  function : FunctionInfo
  given : List Argument
  bindings : List Binding
  /-- The words that are passed for the parameters. -/
  words : List String

namespace KnownCall

/-- The call of a function with arguments that fit, in the state in which they are bound. -/
def of? (id : SymbolId) (given : List Argument) (pos : Position) (s : Lowering) : Option KnownCall := do
  let function ← ((s.table.get id).function?).filter (!·.isBuiltin)
  let bindings ← (Binding.plan s.table (s.table.get id).name function.params given pos).toOption
  return { id, function, given, bindings, words := Binding.words s.supply.temps bindings }

/-- The call that a node becomes when it is lowered from a state, if it calls a known function and the arguments
fit. -/
def at? (levels : Nat) (x : Turn) : Option KnownCall :=
  match x.node with
  | .call callee _ _ nodes =>
    match eval (visit levels) callee x.start with
    | (.error _, _) => none
    | (.ok o, m) =>
      match collect (argument (visit levels)) nodes m with
      | (.error _, _) => none
      | (.ok given, s) =>
        match if o.effective.isClass then none else o.class? s.table with
        | some _ => none
        | none => (o.function? s.table).bind fun id => of? id given callee.pos s
  | _ => none

/-- A call is bound so in a state. -/
structure BoundIn (c : KnownCall) (pos : Position) (s : Lowering) : Prop where
  function : (s.table.get c.id).function? = some c.function
  user : c.function.isBuiltin = false
  plan : Binding.plan s.table (s.table.get c.id).name c.function.params c.given pos = .ok c.bindings
  words : c.words = Binding.words s.supply.temps c.bindings

variable {c : KnownCall} {levels : Nat} {x : Turn} {o : Operand} {pos : Position} {site : CallSite} {s u : Lowering}

theorem boundIn_of_of? {id : SymbolId} {given : List Argument} (h : of? id given pos s = some c) :
    c.id = id ∧ c.given = given ∧ c.BoundIn pos s := by
  obtain ⟨f, hf, h⟩ := Option.bind_eq_some_iff.mp h
  obtain ⟨bs, hbs, ⟨⟩⟩ := Option.bind_eq_some_iff.mp h
  obtain ⟨hf, huser⟩ := Option.filter_eq_some_iff.mp hf
  refine ⟨rfl, rfl, hf, by simpa using huser, ?_, rfl⟩
  revert hbs
  cases Binding.plan s.table (s.table.get id).name f.params given pos with
  | error d => exact fun hbs => nomatch hbs
  | ok found =>
    rintro ⟨⟩
    rfl

/-- A node that becomes a call of a known function goes on with that call. -/
theorem exists_bound_of_at? (h : at? levels x = some c) : ∃ o site u, c.BoundIn site.pos u ∧
    visit (levels + 1) x.node x.start = callFunction c.id o c.given site u := by
  obtain ⟨n, s⟩ := x
  cases n with
  | call callee opener closer nodes =>
    unfold at? at h
    dsimp only at h
    cases ho : eval (visit levels) callee s with
    | mk r m =>
      rw [ho] at h
      obtain _ | o := r
      · cases h
      dsimp only at h
      cases hgiven : collect (argument (visit levels)) nodes m with
      | mk r u =>
        rw [hgiven] at h
        obtain _ | given := r
        · cases h
        dsimp only at h
        cases hclass : if o.effective.isClass then none else o.class? u.table with
        | some _ =>
          rw [hclass] at h
          cases h
        | none =>
          rw [hclass] at h
          obtain ⟨id, hid, hc⟩ := Option.bind_eq_some_iff.mp h
          obtain ⟨rfl, rfl, hbound⟩ := boundIn_of_of? hc
          refine ⟨o, ⟨callee, .call callee opener closer nodes⟩, u, hbound, ?_⟩
          change call (visit levels) callee nodes _ s = _
          rw [call_eq, bind_of_ok ho, bind_of_ok hgiven]
          unfold callValue
          rw [bind_of_ok (rfl : table u = (.ok u.table, u))]
          dsimp only
          rw [hclass]
          dsimp only
          rw [hid]
          dsimp only
          rw [hbound.function, Option.getD_some, hbound.user]
          rfl
  | _ => cases h

/-- A call whose arguments are bound fails at most for want of an object; else one instruction passes the object, if
there is one, and the words for the parameters. The table stays as it is. -/
theorem BoundIn.callFunction (h : c.BoundIn site.pos u) (o : Operand) :
    (∃ e, Lower.callFunction c.id o c.given site u = (.error e, u)) ∨
    ∃ receiver result out op s', Lower.callFunction c.id o c.given site u = (.ok (), s') ∧ s'.table = u.table ∧
      receiver.length = (if c.function.isMethod then 1 else 0) ∧ (op = .call ∨ op = .invoke) ∧
      s'.out = CodeBuffer.emit out op (o.raw :: receiver ++ c.words ++ result) := by
  have passed : ∀ receiver : List String, ∃ result out op s', (do
      let bound ← collect emitBinding c.bindings
      let raws := receiver ++ bound
      if c.function.returnsValue then
        let result ← freshTemp
        emit .invoke (o.raw :: raws ++ [result])
        push (.temp result c.function.result site.node)
      else
        emit .call (o.raw :: raws)
        push (.null site.node) : Lower Unit) u = (.ok (), s') ∧ s'.table = u.table ∧ (op = .call ∨ op = .invoke) ∧
      s'.out = CodeBuffer.emit out op (o.raw :: receiver ++ c.words ++ result) := by
    intro receiver
    rw [bind_of_ok (collect_emitBinding c.bindings u), ← h.words]
    cases c.function.returnsValue with
    | true => exact ⟨[_], _, .invoke, _, rfl, rfl, .inr rfl, rfl⟩
    | false => exact ⟨[], _, .call, _, rfl, rfl, .inl rfl, by rw [List.append_nil]; rfl⟩
  unfold Lower.callFunction
  rw [bind_of_ok (rfl : table u = (.ok u.table, u))]
  dsimp only
  rw [h.function, Option.getD_some, h.plan]
  rw [bind_of_ok (rfl : ofExcept (.ok c.bindings) u = (.ok c.bindings, u))]
  cases hmethod : c.function.isMethod with
  | false =>
    obtain ⟨result, out, op, s', hrun, htable, hop, hout⟩ := passed []
    exact .inr ⟨[], result, out, op, s', hrun, htable, rfl, hop, hout⟩
  | true =>
    cases o.receiver.filter (!·.static) with
    | none => exact .inl ⟨_, rfl⟩
    | some r =>
      obtain ⟨result, out, op, s', hrun, htable, hop, hout⟩ := passed [r.object]
      exact .inr ⟨[r.object], result, out, op, s', hrun, htable, rfl, hop, hout⟩

/-- A function is behind a call of it as it is known at the call. -/
theorem function_of_at? (h : at? levels x = some c) :
    ((x.finish (visit (levels + 1))).table.get c.id).function? = some c.function := by
  obtain ⟨o, site, u, hbound, hrun⟩ := exists_bound_of_at? h
  have htable : (callFunction c.id o c.given site u).2.table = u.table := by
    obtain ⟨e, he⟩ | ⟨_, _, _, _, s', hok, htable, -⟩ := hbound.callFunction o
    · rw [he]
    · rw [hok]
      exact htable
  rw [Turn.finish, hrun, htable]
  exact hbound.function

/-- An accepted call is written as one instruction, which passes its words behind the object of a method. -/
theorem instruction_of_at? (hc : at? levels x = some c) (h : visit (levels + 1) x.node x.start = (.ok (), s)) :
    ∃ target receiver result out op, receiver.length = (if c.function.isMethod then 1 else 0) ∧
      (op = .call ∨ op = .invoke) ∧ s.out = CodeBuffer.emit out op (target :: receiver ++ c.words ++ result) := by
  obtain ⟨o, site, u, hbound, hrun⟩ := exists_bound_of_at? hc
  obtain ⟨e, he⟩ | ⟨receiver, result, out, op, s', hok, -, hlength, hop, hout⟩ := hbound.callFunction o
  · cases (hrun.trans he).symm.trans h
  · cases (hrun.trans hok).symm.trans h
    exact ⟨o.raw, receiver, result, out, op, hlength, hop, hout⟩

/-- Whether a parameter is left out, so that its default value is passed. -/
def omits (c : KnownCall) (i : Nat) : Bool := c.bindings[i]?.any fun b => !b.collects && b.value.isNone

/-- An argument is bound to a parameter. -/
def Binds (c : KnownCall) (i : Nat) (a : Argument) : Prop := Binding.valueAt c.bindings i = some a

end KnownCall

end Lower

/-- The word that is passed for a parameter when no argument is. -/
def Parameter.defaultWord (p : Parameter) : String := ((p.default.bind Operand.ofLiteral?).map (·.raw)).getD ""

namespace Lower.KnownCall

/-- The word of the default value that a call knows of a parameter. -/
def default? (c : KnownCall) (i : Nat) : Option String := c.function.params[i]?.map Parameter.defaultWord

/-- The names of the parameters that a call knows. -/
def names (c : KnownCall) : List String := c.function.params.map (·.name)

/-- A word is passed for a parameter: it stands in its place in the instruction that the call is written as, behind
the function and the object of a method. -/
def Passes (c : KnownCall) (i : Nat) (w : String) : Prop :=
  c.words[i]? = some w ∧
    ∀ levels x s, at? levels x = some c → visit (levels + 1) x.node x.start = (.ok (), s) →
      ∃ out op args, s.out = CodeBuffer.emit out op args ∧ (op = .call ∨ op = .invoke) ∧
        args[(if c.function.isMethod then 2 else 1) + i]? = some w

/-- If both calls leave a parameter out, then both pass the same word for it. -/
def SharesDefault (a b : KnownCall) (i : Nat) : Prop :=
  a.omits i = true → b.omits i = true → ∃ w, a.Passes i w ∧ b.Passes i w

/-- A name by which the one call passes an argument for a parameter stands for the same parameter in the other
call, and what is passed there by that name is bound to the parameter. -/
def SharesKeywords (a b : KnownCall) : Prop :=
  ∀ i x, a.Binds i x → x.name ≠ "" → Binding.placeOf? b.function.params x.name = some i ∧
    ∀ y ∈ b.given, y.name = x.name → b.Binds i y

/-- The call is made on the way of compiling a source text. -/
def OccursIn (c : KnownCall) (files : FileTree) (options : CompileOptions) (src : Source) (file : String) : Prop :=
  ∃ p levels x, Program.ofSource src file = .ok p ∧
    Meets (fun v => unit v p src) Session.levels ((Session.ofOptions options).begin files options.annotate)
      (levels + 1) x ∧ at? levels x = some c

variable {a b c : KnownCall} {i : Nat} {files : FileTree} {options : CompileOptions} {src : Source} {file : String}

theorem passes_of_words {w : String} (h : c.words[i]? = some w) : c.Passes i w := by
  refine ⟨h, fun levels x s hc hrun => ?_⟩
  obtain ⟨target, receiver, result, out, op, hlength, hop, hout⟩ := instruction_of_at? hc hrun
  refine ⟨out, op, _, hout, hop, ?_⟩
  have hplace : (if c.function.isMethod then 2 else 1) + i = (target :: receiver).length + i := by
    rw [List.length_cons, hlength]
    split <;> rfl
  obtain ⟨hi, -⟩ := List.getElem?_eq_some_iff.mp h
  rw [hplace, List.append_assoc, List.getElem?_append_right (Nat.le_add_right ..), Nat.add_sub_cancel_left,
    List.getElem?_append_left hi, h]

theorem OccursIn.exists_bound (h : c.OccursIn files options src file) : ∃ pos u, c.BoundIn pos u := by
  obtain ⟨_, _, _, -, -, hc⟩ := h
  obtain ⟨_, site, u, hbound, -⟩ := exists_bound_of_at? hc
  exact ⟨site.pos, u, hbound⟩

/-- For a parameter that is left out the word of its default value is passed. -/
theorem BoundIn.word_of_omits {pos : Position} {u : Lowering} (h : c.BoundIn pos u) (hi : c.omits i = true) :
    ∃ w, c.default? i = some w ∧ c.words[i]? = some w := by
  obtain ⟨b, hb, hfree⟩ := (Option.any_eq_true _ _).mp hi
  simp only [Bool.and_eq_true, Bool.not_eq_true', Option.isNone_iff_eq_none] at hfree
  obtain ⟨hcollects, hvalue⟩ := hfree
  have hparam : c.function.params[i]? = some b.param := by
    rw [← Binding.map_param_plan h.plan, List.getElem?_map, hb]
    rfl
  refine ⟨b.param.defaultWord, by rw [default?, hparam]; rfl, ?_⟩
  rw [h.words, Binding.getElem?_words _ hb hcollects, Binding.word, hcollects, hvalue]
  rfl

/-- Names stand for the same parameters if they stand in the same order, at parameters of the same kinds. -/
theorem placeOf?_of_names {ps qs : List Parameter} (halike : List.Forall₂ Parameter.Alike ps qs)
    (hnames : ps.map (·.name) = qs.map (·.name)) (name : String) : Binding.placeOf? ps name = Binding.placeOf? qs name := by
  induction halike with
  | nil => rfl
  | @cons p q ps qs hpq _ ih =>
    obtain ⟨hname, hrest⟩ := List.cons.inj hnames
    have hfirst : p.name = q.name := hname
    unfold Binding.placeOf? at ih ⊢
    rw [List.findIdx?_cons, List.findIdx?_cons, hfirst, hpq.kind, ih hrest]

/-- Two calls of a function on the way see it as it is, or the one sees its declaration and the other its
definition. -/
theorem OccursIn.becomes (ha : a.OccursIn files options src file) (hb : b.OccursIn files options src file)
    (hid : a.id = b.id) : a.function.Becomes b.function ∨ b.function.Becomes a.function := by
  obtain ⟨p, levels, x, hp, hx, ha⟩ := ha
  obtain ⟨_, levels', y, hp', hy, hb⟩ := hb
  cases hp.symm.trans hp'
  have hfa := function_of_at? ha
  have hfb := function_of_at? hb
  rcases hx.comparable hy (Traces.unit p src) with h | h
  · obtain ⟨g, hg, hbecomes⟩ := h.function _ _ hfa
    rw [hid, hfb] at hg
    cases hg
    exact .inl hbecomes
  · obtain ⟨g, hg, hbecomes⟩ := h.function _ _ hfb
    rw [← hid, hfa] at hg
    cases hg
    exact .inr hbecomes

/-- Two calls of a function on the way of compiling a text are bound to parameters of the same number, kinds and
types. Both pass the same default value for a parameter that they leave out, and names stand for the same parameters
in both, if both come before the definition of the function or both come behind it, or if the definition repeats the
default value and the names of the declaration. -/
theorem shares_of_occursIn (ha : a.OccursIn files options src file) (hb : b.OccursIn files options src file)
    (hid : a.id = b.id) :
    List.Forall₂ Parameter.Alike a.function.params b.function.params ∧
    (∀ i, a.function.declared = b.function.declared ∨ a.default? i = b.default? i → a.SharesDefault b i) ∧
    (a.function.declared = b.function.declared ∨ a.names = b.names → a.SharesKeywords b) := by
  have halike : List.Forall₂ Parameter.Alike a.function.params b.function.params := by
    rcases ha.becomes hb hid with h | h
    · exact h.alike
    · exact h.alike.flip.imp fun _ _ h => h.symm
  have hside : a.function.declared = b.function.declared → a.function.params = b.function.params := by
    intro hdeclared
    rcases ha.becomes hb hid with h | h
    · exact h.params_eq hdeclared
    · exact (h.params_eq hdeclared.symm).symm
  obtain ⟨_, _, hbounda⟩ := ha.exists_bound
  obtain ⟨_, _, hboundb⟩ := hb.exists_bound
  refine ⟨halike, fun i hsame hi hi' => ?_, fun hsame i x hx hname => ?_⟩
  · have hdefault : a.default? i = b.default? i := by
      rcases hsame with hdeclared | hdefault
      · rw [default?, default?, hside hdeclared]
      · exact hdefault
    obtain ⟨w, hw, hwords⟩ := hbounda.word_of_omits hi
    obtain ⟨w', hw', hwords'⟩ := hboundb.word_of_omits hi'
    cases hw.symm.trans (hdefault.trans hw')
    exact ⟨w, passes_of_words hwords, passes_of_words hwords'⟩
  · have hnames : a.names = b.names := by
      rcases hsame with hdeclared | hnames
      · rw [names, names, hside hdeclared]
      · exact hnames
    have hplace := ((Binding.valueAt_plan hbounda.plan hname).mp hx).2
    rw [placeOf?_of_names halike hnames] at hplace
    refine ⟨hplace, fun y hy hyx => ?_⟩
    exact (Binding.valueAt_plan hboundb.plan (hyx ▸ hname)).mpr ⟨hy, hyx.symm ▸ hplace⟩

end Lower.KnownCall

/-! ## Calls among the items of a program -/

namespace Lower

/-- The state in which the items of a program are begun. -/
def entry (p : Program) (src : Source) (s : Lowering) : Lowering :=
  (startFile p.file { s with file := p.file, source := src }).2

/-- The calls among items that are lowered one after another, with the levels that are left for what is in them. -/
def itemCalls (levels : Nat) : List Node → Lowering → List KnownCall
  | [], _ => []
  | n :: rest, s =>
    (KnownCall.at? levels ⟨n, (annotate n s).2⟩).toList ++
      match exec (visit (levels + 1)) n (annotate n s).2 with
      | (.ok _, s) => itemCalls levels rest s
      | (.error _, _) => []

variable {visit other : Visit} {nodes before rest : List Node} {n : Node} {p : Program} {src : Source}
  {s s' t : Lowering} {x : Turn} {c : KnownCall} {levels : Nat}

theorem items_cons (visit : Visit) (n : Node) (rest : List Node) (s : Lowering) :
    items visit (n :: rest) s = (exec visit n >>= fun _ => items visit rest) (annotate n s).2 := rfl

theorem items_append_eq_ok : items visit (before ++ rest) s = (.ok (), s') ↔
    ∃ t, items visit before s = (.ok (), t) ∧ items visit rest t = (.ok (), s') := by
  induction before generalizing s with
  | nil => exact ⟨fun h => ⟨s, rfl, h⟩, fun ⟨_, h, h'⟩ => by cases h; exact h'⟩
  | cons n before ih =>
    rw [List.cons_append, items_cons, items_cons, bind_eq_ok]
    constructor
    · rintro ⟨u, m, hu, h⟩
      obtain ⟨t, ht, h⟩ := ih.mp h
      exact ⟨t, bind_eq_ok.mpr ⟨u, m, hu, ht⟩, h⟩
    · rintro ⟨t, ht, h⟩
      obtain ⟨u, m, hu, ht⟩ := bind_eq_ok.mp ht
      exact ⟨u, m, hu, ih.mpr ⟨t, ht, h⟩⟩

/-- An accepted program has accepted items. -/
theorem items_of_unit (h : (unit visit p src s).1 = .ok ()) :
    ∃ t, items visit p.body (entry p src s) = (.ok (), t) := by
  change ((do
    startFile p.file
    showingLine (items visit p.body) : Lower Unit) { s with file := p.file, source := src }).1 = _ at h
  obtain ⟨⟨⟩, u, hstart, hitems⟩ := bind_eq_ok.mp (Prod.ext h rfl)
  rw [entry, hstart]
  unfold showingLine at hitems
  split at hitems
  · cases hitems
  · exact ⟨_, hitems⟩

/-- Items that another visitor accepts, which gives up at a turn and else agrees, are accepted likewise. -/
theorem items_of_agree (hagree : ∀ y : Turn, y ≠ x → other y.node y.start = visit y.node y.start)
    (hx : ∀ u, other x.node x.start ≠ (.ok (), u)) (h : items other nodes s = (.ok (), s')) :
    items visit nodes s = (.ok (), s') := by
  induction nodes generalizing s with
  | nil => exact h
  | cons n nodes ih =>
    rw [items_cons] at h ⊢
    obtain ⟨r, m, hn, h⟩ := bind_eq_ok.mp h
    have hsame : other n (annotate n s).2 = visit n (annotate n s).2 := by
      refine hagree ⟨n, _⟩ fun he => ?_
      subst he
      obtain ⟨u, hu, -⟩ := visit_of_exec hn
      exact hx u hu
    refine bind_eq_ok.mpr ⟨r, m, ?_, ih h⟩
    rw [← hn]
    unfold exec forEffect ensuring
    rw [hsame]

theorem exists_giving_up (visit : Visit) (x : Turn) : ∃ other : Visit,
    (∀ y : Turn, y ≠ x → other y.node y.start = visit y.node y.start) ∧ ∀ u, other x.node x.start ≠ (.ok (), u) := by
  classical
  refine ⟨fun n u => if Turn.mk n u = x then fail (Complaint.unsupported n) u else visit n u, fun y hy => if_neg hy,
    fun u h => ?_⟩
  dsimp only at h
  rw [if_pos rfl] at h
  cases h

/-- An accepted program depends on each of its items. -/
theorem consults_item (haccepted : (unit visit p src s).1 = .ok ()) (hbody : p.body = before ++ n :: rest)
    (hbefore : items visit before (entry p src s) = (.ok (), t)) :
    Consults (fun v => unit v p src) visit s ⟨n, (annotate n t).2⟩ := by
  obtain ⟨other, hagree, hx⟩ := exists_giving_up visit ⟨n, (annotate n t).2⟩
  refine ⟨other, hagree, fun hsame => ?_⟩
  obtain ⟨s', hitems⟩ := items_of_unit ((congrArg Prod.fst hsame).trans haccepted)
  rw [hbody] at hitems
  obtain ⟨t', hbefore', hrest⟩ := items_append_eq_ok.mp hitems
  cases hbefore.symm.trans (items_of_agree hagree hx hbefore')
  rw [items_cons] at hrest
  obtain ⟨_, _, hn, -⟩ := bind_eq_ok.mp hrest
  obtain ⟨u, hu, -⟩ := visit_of_exec hn
  exact hx u hu

theorem mem_itemCalls (h : c ∈ itemCalls levels nodes s) : ∃ before n rest t, nodes = before ++ n :: rest ∧
    items (Lower.visit (levels + 1)) before s = (.ok (), t) ∧ KnownCall.at? levels ⟨n, (annotate n t).2⟩ = some c := by
  induction nodes generalizing s with
  | nil => cases h
  | cons n nodes ih =>
    unfold itemCalls at h
    rcases List.mem_append.mp h with h | h
    · exact ⟨[], n, nodes, s, rfl, rfl, Option.mem_toList.mp h⟩
    · split at h
      · next u s' hn =>
        obtain ⟨before, m, rest, t, hnodes, hbefore, hc⟩ := ih h
        refine ⟨n :: before, m, rest, t, by rw [hnodes, List.cons_append], ?_, hc⟩
        rw [items_cons]
        exact bind_eq_ok.mpr ⟨u, s', hn, hbefore⟩
      · cases h

/-- The calls among the items of an accepted program are made on the way of compiling it. -/
theorem occursIn_of_mem_itemCalls {files : FileTree} {options : CompileOptions} {file : String}
    (hp : Program.ofSource src file = .ok p)
    (haccepted : (unit (Lower.visit Session.levels) p src ((Session.ofOptions options).begin files options.annotate)).1 =
      .ok ()) (hc : c ∈ itemCalls (Session.levels - 1) p.body
      (entry p src ((Session.ofOptions options).begin files options.annotate))) :
    c.OccursIn files options src file := by
  have hlevels : Session.levels - 1 + 1 = Session.levels := by decide
  obtain ⟨before, n, rest, t, hbody, hbefore, hcall⟩ := mem_itemCalls hc
  refine ⟨p, Session.levels - 1, _, hp, ?_, hcall⟩
  rw [hlevels] at hbefore ⊢
  exact .here (consults_item haccepted hbody hbefore)

/-- What can be computed of a call: what it knows of the function, and what becomes of the first parameter. -/
structure CallView where
  id : SymbolId
  declared : Bool
  names : List String
  default : Option String
  words : List String
  omits : Bool
  bound : Option String
  deriving DecidableEq

def KnownCall.view (c : KnownCall) : CallView where
  id := c.id
  declared := c.function.declared
  names := c.names
  default := c.default? 0
  words := c.words
  omits := c.omits 0
  bound := (Binding.valueAt c.bindings 0).map (·.name)

/-- The calls among the items of a program that is accepted. -/
theorem exists_calls {views : List CallView} (h : (Program.ofSource src "main").toOption.any (fun p =>
      decide (((Session.ofOptions {}).compile {} false p src).1.toOption.isSome = true ∧
        (itemCalls (Session.levels - 1) p.body (entry p src ((Session.ofOptions {}).begin {} false))).map
          KnownCall.view = views)) = true) :
    ∃ (code : Code) (calls : List KnownCall), compileSource {} {} src "main" = .ok code ∧
      (∀ c ∈ calls, c.OccursIn {} {} src "main") ∧ calls.map KnownCall.view = views := by
  obtain ⟨p, hp, hchecked⟩ := exists_ok_of_any h
  obtain ⟨hcompiled, hcalls⟩ := of_decide_eq_true hchecked
  obtain ⟨code, hcode⟩ := exists_ok_of_isSome hcompiled
  obtain ⟨final, hlower, -⟩ := Session.compile_eq_ok.mp (Prod.ext hcode rfl)
  have hunit := (Session.lower_eq_ok.mp hlower).1
  exact ⟨code, _, (compileSource_of_ofSource hp).trans hcode,
    fun c hc => occursIn_of_mem_itemCalls hp (congrArg Prod.fst hunit) hc, hcalls⟩

/-- A definition that repeats what its declaration says. -/
def repeatedSource : Source :=
  Source.ofString <|
    "fun f(a: int = 1, b: int = 2): int\nf(b = 3)\n" ++
    "fun f(a: int = 1, b: int = 2): int \x7b return b \x7d\nf(b = 4)\n"

theorem shares_of_repeatedSource : ∃ (code : Code) (a b : KnownCall), compileSource {} {} repeatedSource "main" = .ok code ∧
    a.OccursIn {} {} repeatedSource "main" ∧ b.OccursIn {} {} repeatedSource "main" ∧ a.id = b.id ∧
    a.function.declared = true ∧ b.function.declared = false ∧ a.words = ["1", "3"] ∧ b.words = ["1", "4"] ∧
    a.omits 0 = true ∧ b.omits 0 = true ∧
    List.Forall₂ Parameter.Alike a.function.params b.function.params ∧ a.SharesDefault b 0 ∧ a.SharesKeywords b := by
  have checked : ∃ (code : Code) (calls : List KnownCall), compileSource {} {} repeatedSource "main" = .ok code ∧
      (∀ c ∈ calls, c.OccursIn {} {} repeatedSource "main") ∧ calls.map KnownCall.view =
        [⟨12, true, ["a", "b"], some "1", ["1", "3"], true, none⟩,
          ⟨12, false, ["a", "b"], some "1", ["1", "4"], true, none⟩] := by
    refine exists_calls ?_
    simp only [Session.compile_named (Session.ofOptions {}) Registry.names_standard, Session.begin,
      Session.enterBuiltins_named (Session.ofOptions {}) Registry.names_standard]
    rw [repeatedSource, Source.ofString_append, Source.ofString_ofList, Source.ofString_ofList]
    decide +kernel
  obtain ⟨code, calls, hcode, hoccurs, hviews⟩ := checked
  obtain ⟨a, rest, rfl, ha, hrest⟩ := List.map_eq_cons_iff.mp hviews
  obtain ⟨b, last, rfl, hb, -⟩ := List.map_eq_cons_iff.mp hrest
  have hoccursa := hoccurs a List.mem_cons_self
  have hoccursb := hoccurs b (List.mem_cons_of_mem _ List.mem_cons_self)
  simp only [KnownCall.view, CallView.mk.injEq] at ha hb
  have hid : a.id = b.id := ha.1.trans hb.1.symm
  obtain ⟨halike, hdefault, hkeywords⟩ := KnownCall.shares_of_occursIn hoccursa hoccursb hid
  exact ⟨code, a, b, hcode, hoccursa, hoccursb, hid, ha.2.1, hb.2.1, ha.2.2.2.2.1, hb.2.2.2.2.1,
    ha.2.2.2.2.2.1, hb.2.2.2.2.2.1, halike, hdefault 0 (.inr (ha.2.2.2.1.trans hb.2.2.2.1.symm)),
    hkeywords (.inr (ha.2.2.1.trans hb.2.2.1.symm))⟩

/-- A definition with another name and another default value than its declaration. -/
def renamedSource : Source :=
  Source.ofString <|
    "fun f(a: int = 1, **o): int\nf()\nf(a = 3)\n" ++
    "fun f(b: int = 2, **o): int \x7b return b \x7d\nf()\nf(a = 3)\n"

/-- Calls on both sides of a definition need not share anything: the first and the third call pass different default
values, and the name of the second one is lost in the fourth. -/
theorem not_shares_renamedSource : ∃ code, compileSource {} {} renamedSource "main" = .ok code ∧
    ¬ (∀ a b : KnownCall, a.OccursIn {} {} renamedSource "main" → b.OccursIn {} {} renamedSource "main" →
      a.id = b.id → ∀ i, a.SharesDefault b i) ∧
    ¬ (∀ a b : KnownCall, a.OccursIn {} {} renamedSource "main" → b.OccursIn {} {} renamedSource "main" →
      a.id = b.id → a.SharesKeywords b) := by
  have checked : ∃ (code : Code) (calls : List KnownCall), compileSource {} {} renamedSource "main" = .ok code ∧
      (∀ c ∈ calls, c.OccursIn {} {} renamedSource "main") ∧ calls.map KnownCall.view =
        [⟨12, true, ["a", "o"], some "1", ["1", "%t0"], true, none⟩,
          ⟨12, true, ["a", "o"], some "1", ["3", "%t2"], false, some "a"⟩,
          ⟨12, false, ["b", "o"], some "2", ["2", "%t4"], true, none⟩,
          ⟨12, false, ["b", "o"], some "2", ["2", "%t6"], true, none⟩] := by
    refine exists_calls ?_
    simp only [Session.compile_named (Session.ofOptions {}) Registry.names_standard, Session.begin,
      Session.enterBuiltins_named (Session.ofOptions {}) Registry.names_standard]
    rw [renamedSource, Source.ofString_append, Source.ofString_ofList, Source.ofString_ofList]
    decide +kernel
  obtain ⟨code, calls, hcode, hoccurs, hviews⟩ := checked
  obtain ⟨a, _, rfl, ha, hrest⟩ := List.map_eq_cons_iff.mp hviews
  obtain ⟨b, _, rfl, hb, hrest⟩ := List.map_eq_cons_iff.mp hrest
  obtain ⟨c, _, rfl, hc, hrest⟩ := List.map_eq_cons_iff.mp hrest
  obtain ⟨d, _, rfl, hd, -⟩ := List.map_eq_cons_iff.mp hrest
  simp only [KnownCall.view, CallView.mk.injEq] at ha hb hc hd
  refine ⟨code, hcode, fun hall => ?_, fun hall => ?_⟩
  · obtain ⟨w, hwa, hwc⟩ := hall a c (hoccurs a (by simp)) (hoccurs c (by simp)) (ha.1.trans hc.1.symm) 0
      ha.2.2.2.2.2.1 hc.2.2.2.2.2.1
    have hwords : "1" = "2" := Option.some.inj <|
      (congrArg (·[0]?) ha.2.2.2.2.1.symm).trans (hwa.1.trans (hwc.1.symm.trans (congrArg (·[0]?) hc.2.2.2.2.1)))
    exact absurd hwords (by decide)
  · obtain ⟨x, hx, hname⟩ := Option.map_eq_some_iff.mp hb.2.2.2.2.2.2
    obtain ⟨hplace, -⟩ := hall b d (hoccurs b (by simp)) (hoccurs d (by simp)) (hb.1.trans hd.1.symm) 0 x hx
      (by rw [hname]; decide)
    obtain ⟨q, hq, hqname, -⟩ := Binding.isOrdinary_of_placeOf? hplace
    have hfirst := congrArg (·[0]?) hd.2.2.1
    rw [KnownCall.names, List.getElem?_map, hq] at hfirst
    have hwords : "a" = "b" := hname.symm.trans (hqname.symm.trans (Option.some.inj hfirst))
    exact absurd hwords (by decide)

end Lower

end Frontend
