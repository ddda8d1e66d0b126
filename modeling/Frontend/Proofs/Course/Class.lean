import Frontend.Proofs.Course.Function

/-!
# Courses of classes

The raw id of a class is due from its head on, those of its fields and the words of its methods and
constructors as they are collected. The code of the class brings all of them in. Where a field gets its
initial value stands the class itself, or the object of a constructor of the class or of one below it.
-/

namespace Frontend.Course

open SymbolTable

variable {home : Option Home} {ws ws' : List String} {s s' : Lowering} {t t' : SymbolTable} {id cls : SymbolId}
  {visit : Visit} {α β : Type}
variable {name : Ident} {field : SymbolId} {static : Bool} {object : String} {items : List Node → Lower Unit}
variable {w : String} {entries : List (String × SymbolId)} {v : VariableInfo} {sym : Symbol} {info : FunctionInfo}
  {params : List Param} {labels : List Label} {fields : List SymbolId}

/-! ## Heads of classes -/

/-- A class that is to be filled with members. -/
structure Unfilled (t : SymbolTable) (cls : SymbolId) : Prop where
  isClass : (t.get cls).class?.isSome = true
  closed : (t.get cls).isOpen = false
  members : (t.classInfo cls).members = []
  statics : (t.classInfo cls).statics = []

theorem Unfilled.of_class {c : ClassInfo} (hc : (t.get cls).class? = some c) (hdeclared : c.declared = false)
    (hmembers : c.members = []) (hstatics : c.statics = []) : Unfilled t cls := by
  have hinfo := classInfo_of_class? hc
  exact ⟨by rw [hc]; rfl, (Symbol.declared_of_isOpen hc).trans hdeclared, hinfo ▸ hmembers, hinfo ▸ hstatics⟩

/-- What fills no class and opens none. -/
theorem Unfilled.mapClass {g : ClassInfo → ClassInfo} (h : Unfilled t cls) (id : SymbolId)
    (hg : ∀ c, (g c).declared = c.declared ∧ (g c).members = c.members ∧ (g c).statics = c.statics) :
    Unfilled (t.modify id (Symbol.mapClass g)) cls := by
  obtain ⟨c, hc⟩ := Option.isSome_iff_exists.mp h.isClass
  have hinfo := classInfo_of_class? hc
  have hdeclared := (Symbol.declared_of_isOpen hc).symm.trans h.closed
  have hmembers : c.members = [] := hinfo ▸ h.members
  have hstatics : c.statics = [] := hinfo ▸ h.statics
  by_cases hid : cls = id ∧ cls < t.symbols.size
  · have hget : ((t.modify id (Symbol.mapClass g)).get cls).class? = some (g c) := by
      rw [get_modify, if_pos hid, Symbol.class?_mapClass, hc]
      rfl
    obtain ⟨hd, hm, hs⟩ := hg c
    exact .of_class hget (hd.trans hdeclared) (hm.trans hmembers) (hs.trans hstatics)
  · have hget : ((t.modify id (Symbol.mapClass g)).get cls).class? = some c := by
      rw [get_modify, if_neg hid, hc]
    exact .of_class hget hdeclared hmembers hstatics

theorem Unfilled.of_symbols (h : Unfilled t cls) (hs : t'.symbols = t.symbols) : Unfilled t' cls := by
  have hget := get_of_symbols hs cls
  refine ⟨?_, ?_, ?_, ?_⟩
  · rw [hget]
    exact h.isClass
  · rw [hget]
    exact h.closed
  · rw [classInfo, hget]
    exact h.members
  · rw [classInfo, hget]
    exact h.statics

/-- A class is made and registered. If it is defined, its word is due. -/
theorem Goes.newClass [Setting] {info : ClassInfo} (hinfo : info.members = [] ∧ info.statics = [] ∧ info.base = none) :
    Goes home ws s (Lower.newClass name info) fun cls vs u => ∃ w, (u.table.get cls).rid = w ∧
      (u.table.get cls).class? = some info ∧ (info.declared = true ∧ vs = ws ∨ info.declared = false ∧ vs = w :: ws) := by
  let sym : Symbol := {
    name := name.name, rid := Word.numbered ("T_" ++ name.name) s.supply.rids, pos := name.token.pos
    detail := .cls info }
  change Goes home ws s (fun _ => (do
    Lower.tryTable (·.insert s.table.symbols.size)
    Lower.changeTable (·.registerType s.table.symbols.size)
    return s.table.symbols.size : Lower SymbolId) (s.made sym)) _
  have hcls : ∀ c, sym.class? = some c → c.members = [] ∧ c.statics = [] ∧ c.base = none := by
    rintro c ⟨⟩
    exact hinfo
  refine .enter (f := (·.insert s.table.symbols.size)) rfl rfl hcls fun t ht => ?_
  have hget : ((t.registerType s.table.symbols.size).get s.table.symbols.size) =
      { sym with level := (s.table.add sym).2.level } := by
    rw [get_of_symbols (scopes_registerType t _).2.2.1, get_of_symbols (symbols_insertAt ht), get_modify, if_pos]
    · rw [get_add_self]
    · exact ⟨rfl, by rw [size_add]; exact Nat.lt_succ_self _⟩
  have hrid := congrArg Symbol.rid hget
  have hclass := congrArg Symbol.class? hget
  have hopen : sym.open? = if info.declared then some sym.rid else none := rfl
  cases hdeclared : info.declared with
  | true =>
    rw [hdeclared, if_pos rfl] at hopen
    exact .last rfl (.newClass sym rfl rfl hinfo ht (by rw [hopen]; rfl))
      ⟨sym.rid, hrid, hclass, .inl ⟨rfl, rfl⟩⟩
  | false =>
    rw [hdeclared, if_neg Bool.false_ne_true] at hopen
    exact .last rfl (.newClass sym rfl rfl hinfo ht (by rw [hopen]; rfl))
      ⟨sym.rid, hrid, hclass, .inr ⟨rfl, rfl⟩⟩

theorem Tame.declareClass [Setting] : Tame (Lower.declareClass name) := by
  intro home ws s
  refine Goes.marksOf fun _ => (Goes.newClass ⟨rfl, rfl, rfl⟩).bind ?_
  rintro cls vs u - ⟨w, -, -, ⟨-, rfl⟩ | ⟨hd, -⟩⟩
  · exact Tame.noteDeclared _ _ _
  · cases hd

/-- The class of a definition: it has no members and no base, and its word is due. -/
theorem Goes.openClass [Setting] : Goes home ws s (Lower.openClass name) fun cls vs u =>
      Unfilled u.table cls ∧ (u.table.classInfo cls).base = none ∧ vs = (u.table.get cls).rid :: ws := by
  refine .good fun hg => .ask ?_
  split
  · refine (Goes.newClass ⟨rfl, rfl, rfl⟩).weaken ?_
    rintro cls vs u - ⟨w, hrid, hc, ⟨hd, -⟩ | ⟨-, rfl⟩⟩
    · cases hd
    · refine ⟨.of_class hc rfl rfl rfl, ?_, by rw [hrid]⟩
      rw [classInfo_of_class? hc]
  · next old hold =>
    dsimp only
    split
    · exact .fail
    · next c hc =>
      obtain ⟨hc, hdeclared⟩ := Option.filter_eq_some_iff.mp hc
      have hc : (s.table.get old).class? = some c := hc
      obtain ⟨hmembers, hstatics, hbase⟩ := (hg.order.classes old c hc).declared hdeclared
      have hopen : (s.table.get old).isOpen = true := (Symbol.declared_of_isOpen hc).trans hdeclared
      have hget := (get_modify s.table old old (Symbol.mapClass fun c => { c with declared := false })).trans
        (if_pos ⟨rfl, lt_size_of_class? hc⟩)
      have hopened : ((s.table.modify old (Symbol.mapClass fun c => { c with declared := false })).get old).class? =
          some { c with declared := false } := by
        rw [hget, Symbol.class?_mapClass, hc]
        rfl
      refine .step rfl (.change (.openClass old hopen (by rw [hc]; rfl))) (.pure ⟨?_, ?_, ?_⟩)
      · exact .of_class hopened rfl hmembers hstatics
      · exact (congrArg ClassInfo.base (classInfo_of_class? hopened)).trans hbase
      · refine congrArg (· :: ws) ?_
        change _ = (SymbolTable.get (s.table.modify old _) old).rid
        rw [hget, Symbol.rid_mapClass]

/-- A class is hung below another one. -/
theorem Goes.setBase [Setting] {type : Tag} (hcls : Unfilled s.table cls) (hrid : (s.table.get cls).rid = w)
    (hbase : (s.table.classInfo cls).base = none) :
    Goes home ws s (Lower.setBase cls type) fun _ vs u => vs = ws ∧ Unfilled u.table cls ∧ (u.table.get cls).rid = w := by
  obtain ⟨c, hc⟩ := Option.isSome_iff_exists.mp hcls.isClass
  refine .unless fun _ => .ask (.ofExcept fun base _ => .unless fun _ => ?_)
  refine .tryTable (fun t ht => .base hcls.closed hbase ht) fun t ht => ⟨rfl, ?_, ?_⟩
  · exact setBase_induction (P := fun t => Unfilled t cls) ht (hcls.mapClass _ fun _ => ⟨rfl, rfl, rfl⟩)
      fun _ _ hu => hu.mapClass _ fun _ => ⟨rfl, rfl, rfl⟩
  · have hbased : Change 0 [] s.table [] t := .base hcls.closed hbase ht
    have hl := hbased.later
    exact (Symbol.rid_of_core (hl.core cls (lt_size_of_class? hc))).trans hrid

theorem Goes.classHead [Setting] :
    Goes home ws s (Lower.classHead name) fun cls vs u => Unfilled u.table cls ∧ vs = (u.table.get cls).rid :: ws := by
  refine .marksOf fun marks => Goes.openClass.bind ?_
  rintro cls _ u - ⟨hcls, hbase, rfl⟩
  have permitted : ∀ p w u, Unfilled u.table cls → (u.table.get cls).rid = w → Goes home (w :: ws) u (do
      Lower.changeTable (·.modify cls (Symbol.mapClass fun c => { c with defaultPermission := p }))
      return cls) fun cls vs u => Unfilled u.table cls ∧ vs = (u.table.get cls).rid :: ws := by
    rintro p _ u hcls rfl
    have hchange : Change u.supply.rids ((u.table.get cls).rid :: ws) u.table _ _ := .permission cls p
    refine .step rfl (.change hchange) (.pure ⟨hcls.mapClass _ fun _ => ⟨rfl, rfl, rfl⟩, ?_⟩)
    obtain ⟨c, hc⟩ := Option.isSome_iff_exists.mp hcls.isClass
    exact congrArg (· :: ws) (Symbol.rid_of_core (hchange.later.core cls (lt_size_of_class? hc))).symm
  refine .ite (fun _ => ?_) fun _ => ?_
  · refine (Goes.setBase hcls rfl hbase).bind ?_
    rintro _ _ u₁ - ⟨rfl, hcls₁, hrid₁⟩
    split
    · exact permitted _ _ u₁ hcls₁ hrid₁
    · exact .pure ⟨hcls₁, hrid₁ ▸ rfl⟩
  · split
    · exact permitted _ _ u hcls rfl
    · exact .pure ⟨hcls, rfl⟩

/-! ## Members -/

/-- The fields of a class: those of its instances and those of the class itself. -/
def ownFields (t : SymbolTable) (cls : SymbolId) : List SymbolId := t.fields cls ++ t.staticFields cls

/-- The words that bodies of functions will bring in. -/
def wordsOf (t : SymbolTable) (bodies : List Lower.Bodied) : List String := bodies.flatMap fun b => (t.get b.1).words

/-- What was found of a class in a table. The words that its code will bring in are due, besides others. -/
structure Collected (t : SymbolTable) (cls : SymbolId) (found : Lower.Members) (ws due : List String) : Prop where
  isClass : (t.get cls).class?.isSome = true
  closed : (t.get cls).isOpen = false
  constructors : ∀ b ∈ found.constructors, Defined t b.1 (t.get b.1).words ∧ Constructs t cls b.1
  methods : ∀ b ∈ found.methods, Defined t b.1 (t.get b.1).words
  due : ((t.get cls).rid :: ((ownFields t cls).map (fun f => (t.get f).rid) ++
    (wordsOf t found.constructors ++ (wordsOf t found.methods ++ ws)))).Subperm due

theorem Defined.own {words : List String} (h : Defined t id words) : Defined t id (t.get id).words :=
  h.words.symm ▸ h

theorem wordsOf_append (few more : List Lower.Bodied) : wordsOf t (few ++ more) = wordsOf t few ++ wordsOf t more :=
  List.flatMap_append

theorem wordsOf_defined {words : List String} {body : Block} (h : Defined t id words) (bodies : List Lower.Bodied) :
    wordsOf t (bodies ++ [(id, body)]) = wordsOf t bodies ++ words := by
  rw [wordsOf_append, wordsOf, wordsOf, List.flatMap_singleton, h.words]

/-- A function that was defined keeps its words. -/
theorem wordsOf_later {bodies : List Lower.Bodied} (h : ∀ b ∈ bodies, Defined t b.1 (t.get b.1).words)
    (hl : Later t t') : wordsOf t' bodies = wordsOf t bodies :=
  List.flatMap_congr fun b hb => (hl.closed b.1 (h b hb).known (h b hb).closed).2

theorem Defined.same (h : Defined t id (t.get id).words) (hl : Later t t') : Defined t' id (t'.get id).words := by
  rw [(hl.closed id h.known h.closed).2]
  exact h.later hl

/-- Which members are variables stays so. -/
theorem variablesIn_later (h : ∀ e ∈ entries, e.2 < t.symbols.size) (hl : Later t t') :
    t'.variablesIn entries = t.variablesIn entries := by
  unfold variablesIn
  refine List.filter_congr fun id hid => ?_
  obtain ⟨e, he, rfl⟩ := List.mem_map.mp hid
  have hdetail := Symbol.detail_of_core (hl.core e.2 (h e he))
  cases hd : (t.get e.2).detail <;> cases hd' : (t'.get e.2).detail <;> rw [hd, hd'] at hdetail <;>
    first | rfl | cases hdetail

/-- The members of a class in order are known. -/
theorem membersFit {n : Nat} (ho : InOrder n t) (cls : SymbolId) :
    (∀ e ∈ (t.classInfo cls).members, MemberFit t cls false e.2) ∧
      ∀ e ∈ (t.classInfo cls).statics, MemberFit t cls true e.2 := by
  cases hc : (t.get cls).class? with
  | none =>
    have hinfo : t.classInfo cls = {} := by rw [classInfo, hc]; rfl
    rw [hinfo]
    exact ⟨fun _ h => absurd h List.not_mem_nil, fun _ h => absurd h List.not_mem_nil⟩
  | some c =>
    rw [classInfo_of_class? hc]
    exact ⟨(ho.classes cls c hc).members, (ho.classes cls c hc).statics⟩

theorem mem_ownFields {n : Nat} (ho : InOrder n t) (h : field ∈ ownFields t cls) : field < t.symbols.size := by
  obtain ⟨hmembers, hstatics⟩ := membersFit ho cls
  rcases List.mem_append.mp h with h | h
  · obtain ⟨e, he, rfl⟩ := List.mem_map.mp (List.mem_of_mem_filter h)
    exact (hmembers e he).known
  · obtain ⟨e, he, rfl⟩ := List.mem_map.mp (List.mem_of_mem_filter h)
    exact (hstatics e he).known

theorem map_rid_later {ids : List SymbolId} (h : ∀ id ∈ ids, id < t.symbols.size) (hl : Later t t') :
    ids.map (fun f => (t'.get f).rid) = ids.map fun f => (t.get f).rid :=
  List.map_congr_left fun id hid => Symbol.rid_of_core (hl.core id (h id hid))

namespace Collected

variable {n : Nat} {found : Lower.Members} {ws due due' : List String} {words : List String} {body : Block}

section
variable (h : Collected t cls found ws due)
include h

/-- More fields were added, and their words are due. -/
theorem grow {more : List SymbolId} (ho : InOrder n t) (hl : Later t t')
    (hfields : (ownFields t' cls).Perm (more ++ ownFields t cls))
    (hdue : (more.map (fun f => (t'.get f).rid) ++ due).Subperm due') : Collected t' cls found ws due' := by
  obtain ⟨c, hc⟩ := Option.isSome_iff_exists.mp h.isClass
  have hknown := lt_size_of_class? hc
  refine ⟨(Symbol.isSome_class?_of_core (hl.core cls hknown)).trans h.isClass, (hl.closed cls hknown h.closed).1,
    fun b hb => ?_, fun b hb => (h.methods b hb).same hl, ?_⟩
  · exact ⟨(h.constructors b hb).1.same hl, (h.constructors b hb).2.later hl⟩
  · refine List.Subperm.trans ?_ hdue
    rw [wordsOf_later (fun b hb => (h.constructors b hb).1) hl, wordsOf_later h.methods hl,
      Symbol.rid_of_core (hl.core cls hknown)]
    refine List.Subperm.trans (List.Perm.subperm ?_) ((List.subperm_append_left _).mpr h.due)
    refine List.Perm.trans ?_ List.perm_middle.symm
    refine List.Perm.cons _ (((hfields.map _).append_right _).trans ?_)
    rw [List.map_append, List.append_assoc, map_rid_later (fun id => mem_ownFields ho) hl]

/-- A step that leaves the members of the class alone. -/
theorem later (ho : InOrder n t) (hl : Later t t') (hmembers : (t'.classInfo cls).members = (t.classInfo cls).members)
    (hstatics : (t'.classInfo cls).statics = (t.classInfo cls).statics) : Collected t' cls found ws due := by
  obtain ⟨hm, hs⟩ := membersFit ho cls
  have hdue : (([] : List SymbolId).map (fun f => (t'.get f).rid) ++ due).Subperm due := .refl _
  refine h.grow ho hl ?_ hdue
  rw [ownFields, fields, staticFields, hmembers, hstatics, variablesIn_later (fun e he => (hm e he).known) hl,
    variablesIn_later (fun e he => (hs e he).known) hl]
  rfl

theorem mono (hdue : due.Subperm due') : Collected t cls found ws due' :=
  ⟨h.isClass, h.closed, h.constructors, h.methods, h.due.trans hdue⟩

end

theorem perm_words (a b c d : List String) :
    (w :: (a ++ (b ++ (c ++ (words ++ d))))).Perm (words ++ w :: (a ++ (b ++ (c ++ d)))) := by
  simpa only [List.cons_append, List.append_assoc] using List.perm_append_comm_assoc (w :: (a ++ (b ++ c))) words d

theorem addMethod (h : Collected t cls found ws due) (hdefined : Defined t id words)
    (hdue : (words ++ due).Subperm due') :
    Collected t cls { found with methods := found.methods ++ [(id, body)] } ws due' := by
  refine ⟨h.isClass, h.closed, h.constructors, List.forall_mem_append.mpr ⟨h.methods, ?_⟩, ?_⟩
  · exact List.forall_mem_singleton.mpr hdefined.own
  · refine List.Subperm.trans (List.Perm.subperm ?_) (((List.subperm_append_left _).mpr h.due).trans hdue)
    rw [wordsOf_defined hdefined, List.append_assoc]
    exact perm_words _ _ _ _

theorem addConstructor (h : Collected t cls found ws due) (hdefined : Defined t id words)
    (hconstructs : Constructs t cls id) (hdue : (words ++ due).Subperm due') :
    Collected t cls { found with constructors := found.constructors ++ [(id, body)] } ws due' := by
  refine ⟨h.isClass, h.closed, List.forall_mem_append.mpr ⟨h.constructors, ?_⟩, h.methods, ?_⟩
  · exact List.forall_mem_singleton.mpr ⟨hdefined.own, hconstructs⟩
  · refine List.Subperm.trans (List.Perm.subperm ?_) (((List.subperm_append_left _).mpr h.due).trans hdue)
    rw [wordsOf_defined hdefined, List.append_assoc]
    exact perm_words [] _ _ _

end Collected

/-- A member was added to a class. -/
theorem ownFields_addMember {n : Nat} (ho : InOrder n t) (hcls : (t.get cls).class?.isSome = true)
    (h : t.addMember cls id static = .ok t') :
    (ownFields t' cls).Perm (t'.variablesIn [((t.get id).name, id)] ++ ownFields t cls) := by
  obtain ⟨c, hc⟩ := Option.isSome_iff_exists.mp hcls
  obtain ⟨hmembers, hstatics⟩ := membersFit ho cls
  have hl := later_addMember h
  have hinfo : t'.classInfo cls = if static
      then { c with statics := c.statics ++ [((t.get id).name, id)] }
      else { c with members := c.members ++ [((t.get id).name, id)] } := by
    rw [addMember_eq h]
    refine classInfo_of_class? ?_
    rw [get_modify, if_pos ⟨rfl, lt_size_of_class? hc⟩, Symbol.class?_mapClass, hc]
    rfl
  have hmore : ∀ es : List (String × SymbolId), t'.variablesIn (es ++ [((t.get id).name, id)]) =
      t'.variablesIn es ++ t'.variablesIn [((t.get id).name, id)] := fun es => by
    unfold variablesIn
    rw [List.map_append, List.filter_append]
  have hold := classInfo_of_class? hc
  rw [hold] at hmembers hstatics
  unfold ownFields fields staticFields
  rw [hinfo, hold]
  cases static with
  | true =>
    rw [if_pos rfl, hmore, variablesIn_later (fun e he => (hmembers e he).known) hl,
      variablesIn_later (fun e he => (hstatics e he).known) hl, ← List.append_assoc]
    exact List.perm_append_comm
  | false =>
    rw [if_neg Bool.false_ne_true, hmore, variablesIn_later (fun e he => (hmembers e he).known) hl,
      variablesIn_later (fun e he => (hstatics e he).known) hl, List.append_assoc]
    exact List.perm_append_comm_assoc _ _ _

theorem variablesIn_of_var {name : String} (h : (t.get id).detail = .var v) : t.variablesIn [(name, id)] = [id] := by
  unfold variablesIn
  rw [List.map_singleton, List.filter_singleton, h]
  rfl

theorem variablesIn_of_function {name : String} (h : (t.get id).function?.isSome = true) :
    t.variablesIn [(name, id)] = [] := by
  unfold variablesIn
  rw [List.map_singleton, List.filter_singleton]
  unfold Symbol.function? at h
  cases hd : (t.get id).detail <;> rw [hd] at h <;> first | rfl | cases h

/-- The members of a class are the same behind a new symbol. -/
theorem classInfo_add (hcls : (t.get cls).class?.isSome = true) (sym : Symbol) :
    (t.add sym).2.classInfo cls = t.classInfo cls := by
  obtain ⟨c, hc⟩ := Option.isSome_iff_exists.mp hcls
  rw [classInfo, classInfo, get_add_of_lt t sym (lt_size_of_class? hc)]

variable {found : Lower.Members}

variable {due : List String}

section
variable (h : Collected s.table cls found ws due)
include h

/-- A field is collected, and its word is due. -/
theorem Goes.collectField [Setting] {init : Option Node} :
    Goes home due s (Lower.collectField cls name init) fun _ vs u => Collected u.table cls found ws vs := by
  refine .marksOf fun marks => .unless fun _ => .good fun hg => ?_
  let v : VariableInfo := {
    type := marks.typeOrAny, const := marks.isConst, static := marks.isStatic, owner := some cls, init
    permission := marks.permissionOr (s.session.symbols.classInfo cls).defaultPermission }
  let sym : Symbol := {
    name := name.name, rid := Word.numbered name.name s.supply.rids, pos := name.token.pos, detail := .var v }
  have hcourse : Course home true due s (sym.rid :: due) (s.made sym) := .fresh sym rfl rfl fun h => by cases h
  refine .goneTo (u := s.made sym) (p := Lower.tryTable (·.addMember cls s.table.symbols.size marks.isStatic))
    hcourse ?_
  have ho := (hcourse.good hg).order
  have hget : (s.made sym).table.get s.table.symbols.size = sym := get_add_self _ _
  obtain ⟨c, hc⟩ := Option.isSome_iff_exists.mp h.isClass
  have hl := hcourse.steps.later
  have hisClass := (Symbol.isSome_class?_of_core (hl.core cls (lt_size_of_class? hc))).trans h.isClass
  have hfit : MemberFit (s.made sym).table cls marks.isStatic s.table.symbols.size := by
    refine ⟨?_, fun v' hv' => ?_⟩
    · rw [show (s.made sym).table = (s.table.add sym).2 from rfl, size_add]
      exact Nat.lt_succ_self _
    · rw [hget] at hv'
      cases hv'
      exact ⟨rfl, rfl⟩
  have hclosed := (hl.closed cls (lt_size_of_class? hc) h.closed).1
  refine .tryTable (fun t ht => .member hfit hclosed ht) fun t ht => ?_
  have hl' := hl.trans (later_addMember ht)
  have hcollected : Collected (s.made sym).table cls found ws due :=
    h.later hg.order hl (congrArg ClassInfo.members (classInfo_add h.isClass sym))
      (congrArg ClassInfo.statics (classInfo_add h.isClass sym))
  have hcore := (later_addMember ht).core _ hfit.known
  rw [hget] at hcore
  obtain ⟨v', hv', -⟩ := Symbol.var_of_core hcore (v := v) rfl
  refine hcollected.grow ho (later_addMember ht) (ownFields_addMember ho hisClass ht) ?_
  change (List.map (fun f => (t.get f).rid) (t.variablesIn _) ++ due).Subperm _
  rw [variablesIn_of_var hv', List.map_singleton, Symbol.rid_of_core hcore]
  exact .refl _

omit h

/-- The check of a method only asks. -/
theorem Goes.checkOverwrite [Setting] {f : Unit → Lower β} {Q : β → List String → Lowering → Prop}
    (hf : Goes home ws s (f ()) Q) : Goes home ws s (Lower.checkOverwrite cls sym info >>= f) Q := by
  unfold Lower.checkOverwrite
  rw [Lower.bind_assoc]
  refine .ask ?_
  dsimp only
  split
  · exact .failBind
  · exact .failBind
  · exact hf

include h

/-- A method is added to its class. -/
theorem Goes.addMethod [Setting] {vs : List String} (hid : (s.table.get id).function?.isSome = true) :
    Goes home vs s (Lower.tryTable (·.addMember cls id static)) fun _ vs' u =>
      vs' = vs ∧ Later s.table u.table ∧ Collected u.table cls found ws due := by
  refine .good fun hg => ?_
  obtain ⟨f, hf⟩ := Option.isSome_iff_exists.mp hid
  have hknown := lt_size_of_function? hf
  have hfit : MemberFit s.table cls static id := ⟨hknown, fun v hv => by
    rw [Symbol.function?, hv] at hf
    cases hf⟩
  refine .tryTable (fun t ht => .member hfit h.closed ht) fun t ht => ⟨rfl, later_addMember ht, ?_⟩
  have hl := later_addMember ht
  refine h.grow hg.order hl (ownFields_addMember hg.order h.isClass ht) ?_
  have hfun := (Symbol.isSome_function?_of_core (hl.core id hknown)).trans hid
  change (List.map (fun f => (t.get f).rid) (t.variablesIn _) ++ due).Subperm _
  rw [variablesIn_of_function hfun]
  exact .refl _

/-- A method is made and added to its class. Its words are due if it has a body. -/
theorem Goes.newMethod [Setting] {marked : FunctionInfo} {body : Option Block} {due' : List String}
    (hhead : HeadFit s.supply.rids due' due sym info) (hparams : marked.params = info.params)
    (hdeclared : marked.declared = body.isNone) : Goes home due' s (do
      let id ← Lower.newSymbol { sym with detail := .function marked }
      if marked.declared && !marked.virtual then Lower.noteDeclared id
      Lower.tryTable (·.addMember cls id marked.static)
      return (body.map fun b => (id, b)).toList) fun new vs u =>
        Collected u.table cls { found with methods := found.methods ++ new } ws vs ∧ (body = none → new = []) := by
  refine .good fun hg => .newFunction hhead (le_refl _) hparams ?_
  intro s₁ ws₁ hget hs hcourse hclosed hopen
  have hfun : (s₁.table.get s.table.symbols.size).function?.isSome = true := by rw [hget]; rfl
  have hinfo : s₁.table.classInfo cls = s.table.classInfo cls := by
    rw [hs]
    exact classInfo_add h.isClass _
  have hkept := h.later hg.order hcourse.steps.later (congrArg ClassInfo.members hinfo)
    (congrArg ClassInfo.statics hinfo)
  have added : ∀ u, u.table = s₁.table → Goes home ws₁ u (do
      Lower.tryTable (·.addMember cls s.table.symbols.size marked.static)
      return (body.map fun b => (s.table.symbols.size, b)).toList) fun new vs u =>
        Collected u.table cls { found with methods := found.methods ++ new } ws vs ∧ (body = none → new = []) := by
    intro u htable
    refine (Goes.addMethod (s := u) (htable ▸ hkept) (htable ▸ hfun)).bind ?_
    rintro _ _ u₁ - ⟨rfl, hl, h₁⟩
    cases body with
    | none =>
      refine .pure ⟨?_, fun _ => rfl⟩
      have hnone : found.methods ++ ((none : Option Block).map fun b => (s.table.symbols.size, b)).toList =
          found.methods := List.append_nil _
      rw [hnone]
      exact h₁.mono (hclosed hdeclared)
    | some b =>
      have hdefined := Defined.made hget hdeclared
      refine .pure ⟨h₁.addMethod (hdefined.later (htable ▸ hl)) ?_, fun h => by cases h⟩
      have hdue := hopen hdeclared
      rwa [hhead.words, ← hparams] at hdue
  refine .ite (fun _ => ?_) fun _ => added s₁ rfl
  have haside : Aside s₁ { s₁ with declared := s₁.declared ++ [s.table.symbols.size] } :=
    ⟨rfl, rfl, rfl, rfl, rfl, rfl, rfl, List.Subset.refl _⟩
  exact .step rfl (Course.refl.after haside) (added _ rfl)

/-- A method is collected. Its words are due if it has a body. -/
theorem Goes.collectMethod [Setting] {body : Option Block} :
    Goes home due s (Lower.collectMethod cls name params labels body) fun new vs u =>
      Collected u.table cls { found with methods := found.methods ++ new } ws vs ∧ (body = none → new = []) := by
  refine Goes.functionHead.bind ?_
  rintro ⟨sym, info, marks⟩ due₁ s₁ - ⟨hhead, htable⟩
  rw [← htable] at h
  refine .good fun hg => .ask (.checkOverwrite (.ask ?_))
  -- what the marks say about a method leaves its parameters alone
  generalize hinfo : ({ info with
    static := marks.isStatic
    overwrite := marks.has Role.overwrite.text
    virtual := marks.has Role.virtual.text || marks.has Role.interface.text
    permission := marks.permissionOr _
    declared := body.isNone } : FunctionInfo) = marked
  have hparams : marked.params = info.params := by rw [← hinfo]
  have hdeclared : marked.declared = body.isNone := by rw [← hinfo]
  have hwords : sym.words = sym.rid :: marked.params.map (·.rid) := by rw [hhead.words, hparams]
  split
  · next old b hold =>
    have hopen := (Option.filter_eq_some_iff.mp hold).2
    rw [Bool.and_eq_true] at hopen
    refine (@Goes.fulfil home due₁ due s₁ _ old sym marked ?_ ?_ hopen.2).bind ?_
    · refine List.Subperm.trans ?_ hhead.due
      rw [hwords]
      exact (List.sublist_cons_self sym.rid (marked.params.map (·.rid) ++ due)).subperm
    · rw [hparams]
      exact hhead.below.params info (by rw [Symbol.function?, hhead.detail])
    · rintro _ vs u hcourse ⟨⟨words, hdefined, hdue⟩, hclass⟩
      have hsame : u.table.classInfo cls = s₁.table.classInfo cls := by rw [classInfo, classInfo, hclass]
      have hkept := h.later hg.order hcourse.steps.later (congrArg ClassInfo.members hsame)
        (congrArg ClassInfo.statics hsame)
      exact .pure ⟨hkept.addMethod hdefined hdue, fun h => by cases h⟩
  · exact .newMethod h hhead hparams hdeclared

/-- A constructor is made and added to its class. -/
theorem Goes.newConstructor [Setting] {pos : Position} {params : List Parameter} {permission : Permission} {body : Block}
    {vs : List String} (hdue : (params.map (·.rid) ++ due).Subperm vs)
    (hparams : ∀ p ∈ params, Word.Below s.supply.rids p.rid) :
    Goes home vs s (Lower.newConstructor cls pos params permission) fun id vs u =>
      Collected u.table cls { found with constructors := found.constructors ++ [(id, body)] } ws vs := by
  refine .freshFunctionRid fun rid s₁ hcourse₁ hrid htable => .ask ?_
  rw [← htable] at h
  refine .good fun hg => ?_
  let info : FunctionInfo := {
    params, result := .ofClass (s₁.table.get cls).name (s₁.table.get cls).rid, kind := .construct, owner := some cls
    permission }
  let sym : Symbol := { name := "init", rid, pos, detail := .function info }
  have hhead : HeadFit s₁.supply.rids (rid :: vs) due sym info := by
    refine ⟨rfl, rfl, ⟨hrid, ?_⟩, (List.subperm_cons rid).mpr hdue⟩
    rintro f ⟨⟩ p hp
    exact (hparams p hp).mono hcourse₁.steps.supply.rids
  refine .newFunction hhead (le_refl _) rfl ?_
  intro s₂ ws₂ hget hs hcourse₂ _ hopen
  have hinfo : s₂.table.classInfo cls = s₁.table.classInfo cls := by
    rw [hs]
    exact classInfo_add h.isClass _
  have hkept := h.later hg.order hcourse₂.steps.later (congrArg ClassInfo.members hinfo)
    (congrArg ClassInfo.statics hinfo)
  have hconstructs : Constructs s₂.table cls s₁.table.symbols.size := ⟨info, by rw [hget]; rfl, rfl, rfl⟩
  have hadded := @Collected.addConstructor _ _ _ _ _ _ _ _ body hkept (Defined.made hget rfl) hconstructs (hopen rfl)
  have hchange : Change s₂.supply.rids ws₂ s₂.table _ _ := .constructor cls s₁.table.symbols.size
  refine .step rfl (.change hchange) (.pure ?_)
  obtain ⟨c, hc⟩ := Option.isSome_iff_exists.mp hkept.isClass
  have hget₃ := (get_modify s₂.table cls cls (Symbol.mapClass fun c =>
    { c with constructors := c.constructors ++ [s₁.table.symbols.size] })).trans (if_pos ⟨rfl, lt_size_of_class? hc⟩)
  have hinfo₃ := classInfo_of_class? (by rw [hget₃, Symbol.class?_mapClass, hc]; rfl)
  refine hadded.later (hcourse₂.good hg).order hchange.later ?_ ?_
  · rw [hinfo₃, classInfo_of_class? hc]
  · rw [hinfo₃, classInfo_of_class? hc]

theorem Goes.collectConstructor [Setting] {body : Block} :
    Goes home due s (Lower.collectConstructor cls name params labels) fun id vs u =>
      Collected u.table cls { found with constructors := found.constructors ++ [(id, body)] } ws vs := by
  refine .ask (.marksOf fun marks => Goes.parameters.bind ?_)
  rintro ps vs s₁ - ⟨hdue, hps, htable⟩
  rw [← htable] at h
  exact .ask (.newConstructor h hdue hps)

theorem Goes.collectFields [Setting] {fields : List (Ident × Option Node)} :
    Goes home due s (Lower.forAll (fun (name, init) => Lower.collectField cls name init) fields) fun _ vs u =>
      Collected u.table cls found ws vs := by
  induction fields generalizing due s with
  | nil => exact .pure h
  | cons field fields ih => exact (Goes.collectField h).bind fun _ _ _ _ h₁ => ih h₁

theorem Goes.collectMember [Setting] {item : Node} :
    Goes home due s (Lower.collectMember cls found item) fun found vs u => Collected u.table cls found ws vs := by
  unfold Lower.collectMember
  split
  · exact (Goes.collectFields h).bind fun _ _ _ _ h₁ => Goes.pure h₁
  · exact (Goes.collectMethod h).bind fun _ _ _ _ h₁ => Goes.pure h₁.1
  · refine (Goes.collectMethod h).bind fun new vs s₁ _ h₁ => Goes.pure ?_
    have hkept := h₁.1
    rw [h₁.2 rfl, List.append_nil] at hkept
    exact hkept
  · exact (Goes.collectConstructor h).bind fun _ _ _ _ h₁ => Goes.pure h₁
  · exact .pure h
  · exact .fail

theorem Goes.collectMembers [Setting] {items : List Node} :
    Goes home due s (Lower.collectMembers cls found items) fun found vs u => Collected u.table cls found ws vs := by
  induction items generalizing s found due with
  | nil => exact .pure h
  | cons item items ih => exact (Goes.collectMember h).bind fun _ _ _ _ h₁ => ih h₁

theorem Goes.completeMembers [Setting] :
    Goes home due s (Lower.completeMembers cls found) fun found vs u => Collected u.table cls found ws vs := by
  refine .ask (.ask (.ite (fun _ => ?_) fun _ => .pure h))
  refine (@Goes.newConstructor home ws s cls found due h _ _ [] .pub default _ (.refl _)
    fun _ hp => absurd hp List.not_mem_nil).bind ?_
  exact fun _ _ _ _ h₁ => .pure h₁

end

/-! ## The code of a class -/

/-- Bases that a class has stay. -/
theorem mem_chain_later {a : Option SymbolId} (h : id ∈ t.chain a) (hl : Later t t') : id ∈ t'.chain a := by
  have climb : ∀ (n n' : Nat), n ≤ n' → ∀ a : Option SymbolId, id ∈ t.chainOf n a → id ∈ t'.chainOf n' a := by
    intro n
    induction n with
    | zero => exact fun _ _ _ h => absurd h List.not_mem_nil
    | succ n ih =>
      intro n' hn a h
      obtain ⟨m, rfl⟩ : ∃ m, n' = m + 1 := ⟨n' - 1, by omega⟩
      cases a with
      | none => exact absurd h List.not_mem_nil
      | some a =>
        rw [chainOf] at h ⊢
        rcases List.mem_cons.mp h with h | h
        · exact List.mem_cons.mpr (.inl h)
        · refine List.mem_cons_of_mem _ ?_
          cases hbase : (t.classInfo a).base with
          | none =>
            rw [hbase] at h
            cases n <;> exact absurd h List.not_mem_nil
          | some b =>
            rw [hl.base a b hbase]
            exact ih m (by omega) _ (hbase ▸ h)
  exact climb _ _ hl.size a h

/-- A field of a class, of its instances or of the class itself. -/
structure IsField (t : SymbolTable) (cls : SymbolId) (static : Bool) (field : SymbolId) : Prop where
  fit : MemberFit t cls static field
  isVar : ∃ v, (t.get field).detail = .var v

theorem IsField.later (h : IsField t cls static field) (hl : Later t t') : IsField t' cls static field := by
  obtain ⟨v, hv⟩ := h.isVar
  obtain ⟨v', hv', -⟩ := Symbol.var_of_core (hl.core field h.fit.known) hv
  exact ⟨h.fit.later hl, v', hv'⟩

theorem exists_var_of_mem (h : field ∈ t.variablesIn entries) : ∃ v, (t.get field).detail = .var v := by
  have hmatch := List.of_mem_filter h
  cases hd : (t.get field).detail <;> rw [hd] at hmatch <;> first | exact ⟨_, rfl⟩ | cases hmatch

theorem isField_of_mem_fields {n : Nat} (ho : InOrder n t) (h : field ∈ t.fields cls) : IsField t cls false field := by
  refine ⟨?_, exists_var_of_mem h⟩
  obtain ⟨e, he, rfl⟩ := List.mem_map.mp (List.mem_of_mem_filter h)
  exact (membersFit ho cls).1 e he

theorem isField_of_mem_staticFields {n : Nat} (ho : InOrder n t) (h : field ∈ t.staticFields cls) :
    IsField t cls true field := by
  refine ⟨?_, exists_var_of_mem h⟩
  obtain ⟨e, he, rfl⟩ := List.mem_map.mp (List.mem_of_mem_filter h)
  exact (membersFit ho cls).2 e he

/-- The object in which a member of a class gets its initial value: the class itself for a static one, and
otherwise the object of a constructor of the class or of a class below. -/
structure Fills (home : Option Home) (t : SymbolTable) (object : String) (cls : SymbolId) (static : Bool) : Prop where
  isClass : (t.get cls).class?.isSome = true
  shared : static = true → object = (t.get cls).rid
  single : static = false → ∃ h f below, home = some h ∧ (t.get h.function).function? = some f ∧ f.kind = .construct ∧
    f.owner = some below ∧ h.params.head? = some object ∧ cls ∈ t.chain (some below)

theorem Fills.later (h : Fills home t object cls static) (hl : Later t t') : Fills home t' object cls static := by
  obtain ⟨c, hc⟩ := Option.isSome_iff_exists.mp h.isClass
  have hcore := hl.core cls (lt_size_of_class? hc)
  refine ⟨(Symbol.isSome_class?_of_core hcore).trans h.isClass, fun hs => ?_, fun hs => ?_⟩
  · rw [Symbol.rid_of_core hcore]
    exact h.shared hs
  · obtain ⟨here, f, below, hhome, hf, hkind, howner, hobject, hchain⟩ := h.single hs
    obtain ⟨f', hf', hsame⟩ := Symbol.function?_of_core (hl.core _ (lt_size_of_function? hf)) hf
    exact ⟨here, f', below, hhome, hf', (congrArg FunctionInfo.kind hsame).trans hkind,
      (congrArg FunctionInfo.owner hsame).trans howner, hobject, mem_chain_later hchain hl⟩

theorem Fills.receives (h : Fills home t object cls static) (hfit : MemberFit t cls static field)
    (hv : (t.get field).detail = .var v) : Receives home t v object := by
  obtain ⟨howner, hstatic⟩ := hfit.field v hv
  refine ⟨cls, howner, ?_⟩
  cases static with
  | true => exact .inl ⟨hstatic, h.shared rfl, h.isClass⟩
  | false => exact .inr ⟨hstatic, h.single rfl⟩

/-- What the visitor evaluates is an evaluation of the run at hand. -/
def InRun [Setting] (visit : Visit) : Prop :=
  ∀ {n s o u}, Lower.eval visit n s = (.ok o, u) →
    ∃ e : Evaluation, e.node = n ∧ e.start = s ∧ e.value = o ∧ e.finish = u ∧ Setting.evaluates e

section
variable [Setting] (hv : ∀ n, Tame (visit n)) (hrun : InRun visit)
include hv hrun

/-- A field gets its initial value in an object. -/
theorem Goes.initField (hfills : Fills home s.table object cls static) (hfield : IsField s.table cls static field) :
    Goes home ws s (Lower.initField visit object field) (Same ws) := by
  obtain ⟨v, hvar⟩ := hfield.isVar
  refine Goes.ask ?_
  rw [show s.session.symbols.get field = s.table.get field from rfl, Symbol.var?, hvar]
  dsimp only
  split
  · exact Goes.pure rfl
  · next n hinit =>
    refine (temper.eval hv n home ws s).bindRun ?_
    rintro o _ u hvalue hcourse rfl
    obtain ⟨e, rfl, rfl, rfl, rfl, he⟩ := hrun hvalue
    have hl := hcourse.steps.later
    have hcore := hl.core field hfield.fit.known
    obtain ⟨v₁, hv₁, hsame⟩ := Symbol.var_of_core hcore hvar
    have hinit₁ : v₁.init = some e.node := (congrArg VariableInfo.init hsame :).trans hinit
    have hset := Course.initial e he hv₁ hinit₁ ((hfills.later hl).receives (hfield.fit.later hl) hv₁) hcourse
    rw [Symbol.rid_of_core hcore] at hset
    intro hg r s' hr
    change (if (!e.finish.table.assignable v.type e.value.effective) = true then _ else _ : Lower Unit) e.finish = _ at hr
    split at hr
    · cases hr
      exact hcourse.stop
    · replace hr : Lower.changeTable (·.modify field (Symbol.mapVariable fun v =>
          if v.type.isAny && v.value.isMissing then { v with value := e.value.effective } else v))
          (e.finish.withOut (e.finish.out.emit .setField [object, (e.start.table.get field).rid, e.value.raw])) =
            (r, s') := hr
      refine Goes.goneTo hset (Tame.mapVariable (fun v => ?_) _ _ _) hg r s' hr
      split <;> rfl

/-- Fields of one class get their initial values in one object. -/
theorem Goes.initFields (hfills : Fills home s.table object cls static)
    (hfields : ∀ field ∈ fields, IsField s.table cls static field) :
    Goes home ws s (Lower.forAll (Lower.initField visit object) fields) (Same ws) := by
  induction fields generalizing s with
  | nil => exact .pure rfl
  | cons field fields ih =>
    refine (Goes.initField hv hrun hfills (hfields field List.mem_cons_self)).bind ?_
    rintro _ _ s₁ hcourse rfl
    have hl := hcourse.steps.later
    exact ih (hfills.later hl) fun other hother => (hfields other (List.mem_cons_of_mem _ hother)).later hl

/-- A constructor begins with the initial values of the fields of its class and of the classes above. -/
theorem Goes.initInstance {params : List String}
    (hconstructs : Constructs s.table cls id) (hthis : ThisIn s.table object) (hobject : params.head? = some object) :
    Goes (some ⟨id, params⟩) ws s (Lower.initInstance visit cls) (Same ws) := by
  refine .good fun hg => .step hthis.thisRid .refl (.ask ?_)
  obtain ⟨f, hf, hkind, howner⟩ := hconstructs
  have chain : ∀ (above : List SymbolId) (u : Lowering), Later s.table u.table →
      (∀ c ∈ above, c ∈ s.table.chain (some cls)) → Goes (some ⟨id, params⟩) ws u (Lower.forAll (fun c =>
        Lower.forAll (Lower.initField visit object) (s.table.fields c)) above) (Same ws) := by
    intro above
    induction above with
    | nil => exact fun u _ _ => .pure rfl
    | cons c above ih =>
      intro u hl habove
      refine .bind (R := Same ws) ?_ ?_
      · by_cases hempty : s.table.fields c = []
        · change Goes _ _ _ (Lower.forAll _ (s.table.fields c)) _
          rw [hempty]
          exact .pure rfl
        · have hisClass : (s.table.get c).class?.isSome = true := by
            cases hc : (s.table.get c).class? with
            | some _ => rfl
            | none =>
              refine absurd ?_ hempty
              rw [fields, classInfo, hc]
              rfl
          have hfills : Fills (some ⟨id, params⟩) s.table object c false := ⟨hisClass, fun h => absurd h Bool.false_ne_true, fun _ =>
            ⟨_, f, cls, rfl, hf, hkind, howner, hobject, habove c List.mem_cons_self⟩⟩
          exact .initFields hv hrun (hfills.later hl) fun field hfield => (isField_of_mem_fields hg.order hfield).later hl
      · rintro _ _ v hcourse rfl
        exact ih v (hl.trans hcourse.steps.later) fun c hc => habove c (List.mem_cons_of_mem _ hc)
  exact chain _ s (.refl _) fun c hc => List.mem_reverse.mp hc

end

/-- The code of a class brings its fields in. -/
theorem Goes.bringFields [Setting] {op : Opcode} {rid : String} (hop : op = .addField ∨ op = .addStaticField)
    (hdue : (fields.map (fun f => (t.get f).rid) ++ ws').Subperm ws) :
    Goes home ws s (Lower.forAll (fun f => Lower.emit op [rid, (t.get f).rid]) fields) fun _ vs u =>
      vs = ws' ∧ u.table = s.table := by
  induction fields generalizing ws s with
  | nil => exact .forget hdue (.pure ⟨rfl, rfl⟩)
  | cons field fields ih =>
    have hbrings : brings op = true := by rcases hop with rfl | rfl <;> rfl
    have hintroduces : Instruction.introduces ⟨op, [rid, (t.get field).rid]⟩ = [(t.get field).rid] := by
      rcases hop with rfl | rfl <;> rfl
    refine .bring hbrings (by rw [hintroduces]; exact hdue) ?_
    intro s₁ htable
    refine (ih (.refl _)).weaken ?_
    rintro _ _ u - ⟨rfl, hu⟩
    exact ⟨rfl, hu.trans htable⟩

/-- Bodies of functions are written one after another. -/
theorem Goes.bodies [Setting] {bodies : List Lower.Bodied} {before : Lower Unit} {words : Lower.Bodied → List String}
    (hdefined : ∀ b ∈ bodies, Defined s.table b.1 (words b)) (hdue : (bodies.flatMap words ++ ws').Subperm ws)
    (hitems : ∀ ns, Tame (items ns)) (hbefore : ∀ b ∈ bodies, ∀ params vs u, Later s.table u.table →
      (∀ cls, Constructs s.table cls b.1 → ∃ w, params.head? = some w ∧ ThisIn u.table w) →
      Goes (some ⟨b.1, params⟩) vs u before (Same vs)) :
    Goes home ws s (Lower.forAll (fun (id, body) => Lower.functionBody items id body before) bodies) (Same ws') := by
  induction bodies generalizing ws s with
  | nil => exact .forget hdue (.pure rfl)
  | cons b bodies ih =>
    rw [List.flatMap_cons, List.append_assoc] at hdue
    refine (Goes.functionBody (hdefined b List.mem_cons_self) hdue hitems fun params vs u hl hthis => ?_).bind ?_
    · exact hbefore b List.mem_cons_self params vs u hl hthis
    · rintro _ _ s₁ hcourse rfl
      have hl := hcourse.steps.later
      refine ih (fun b hb => (hdefined b (List.mem_cons_of_mem _ hb)).later hl) (.refl _) ?_
      intro b hb params vs u hlater hthis
      exact hbefore b (List.mem_cons_of_mem _ hb) params vs u (hl.trans hlater) fun cls h => hthis cls (h.later hl)

theorem Goes.emitClass [Setting] (hv : ∀ n, Tame (visit n)) (hrun : InRun visit) (hitems : ∀ ns, Tame (items ns))
    (h : Collected s.table cls found ws due) : Goes home due s (Lower.emitClass visit items cls found) (Same ws) := by
  refine .good fun hg => .ask ?_
  have hdue := h.due
  rw [ownFields, List.map_append, List.append_assoc] at hdue
  dsimp only
  refine .bring rfl hdue fun s₁ h₁ => ?_
  refine (Goes.bringFields (.inl rfl) (.refl _)).bind ?_
  rintro _ _ s₂ - ⟨rfl, h₂⟩
  refine (Goes.bringFields (.inr rfl) (.refl _)).bind ?_
  rintro _ _ s₃ - ⟨rfl, h₃⟩
  have htable : s₃.table = s.table := h₃.trans (h₂.trans h₁)
  have hfills : Fills home s₃.table (s.table.get cls).rid cls true := by
    rw [htable]
    exact ⟨h.isClass, fun _ => rfl, fun h => absurd h.symm Bool.false_ne_true⟩
  refine (Goes.initFields hv hrun hfills fun field hfield => htable ▸ isField_of_mem_staticFields hg.order hfield).bind ?_
  rintro _ _ s₄ hcourse rfl
  have hl : Later s.table s₄.table := htable ▸ hcourse.steps.later
  refine (Goes.bodies (fun b hb => (h.constructors b hb).1.later hl)
    (.refl _) hitems fun b hb params vs u hu hthis => ?_).bind ?_
  · have hconstructs := (h.constructors b hb).2.later hl
    obtain ⟨w, hw, hthis⟩ := hthis cls hconstructs
    exact .initInstance hv hrun (hconstructs.later hu) hthis hw
  · rintro _ _ s₅ hcourse₅ rfl
    exact .bodies
      (fun b hb => (h.methods b hb).later (hl.trans hcourse₅.steps.later)) (.refl _) hitems
      fun _ _ _ _ _ _ _ => .pure rfl

/-- The body of a class begins without members. -/
theorem Unfilled.collected (h : Unfilled t cls) (ws : List String) : Collected t cls {} ws ((t.get cls).rid :: ws) := by
  refine ⟨h.isClass, h.closed, fun _ hb => absurd hb List.not_mem_nil, fun _ hb => absurd hb List.not_mem_nil, ?_⟩
  rw [ownFields, fields, staticFields, h.members, h.statics]
  exact .refl _

theorem Tame.defineClass [Setting] {body : Block} (hv : ∀ n, Tame (visit n)) (hrun : InRun visit)
    (hitems : ∀ ns, Tame (items ns)) : Tame (Lower.defineClass visit items name body) := by
  intro home ws s
  refine Goes.classHead.bind ?_
  rintro cls _ s₁ - ⟨hcls, rfl⟩
  refine .inScope (R := Same ws) (.insideClass (R := Same ws) hcls.isClass ?_ fun _ _ _ h => h) fun _ _ _ _ h => h
  have hinside : Unfilled ((s₁.opened .cls).entered cls).table cls := hcls.of_symbols rfl
  refine (Goes.collectMembers (hinside.collected ws)).bind ?_
  intro found vs s₂ _ h₂
  refine (Goes.completeMembers h₂).bind ?_
  intro found vs s₃ _ h₃
  refine .good fun hg => ?_
  have hchange : Change s₃.supply.rids vs s₃.table _ _ := .collected cls
  refine .step rfl (.change hchange) (.emitClass hv hrun hitems (h₃.later hg.order hchange.later ?_ ?_))
  all_goals
    obtain ⟨c, hc⟩ := Option.isSome_iff_exists.mp h₃.isClass
    have hget := (get_modify s₃.table cls cls (Symbol.mapClass fun c => { c with finished := true })).trans
      (if_pos ⟨rfl, lt_size_of_class? hc⟩)
    have hinfo := classInfo_of_class? (by rw [hget, Symbol.class?_mapClass, hc]; rfl)
    rw [hinfo, classInfo_of_class? hc]

end Frontend.Course
