import Frontend.Proofs.Course.Rest
import Frontend.Proofs.Meaning.Assignment
import Frontend.Proofs.Meaning.Opposite
import Frontend.Proofs.Member.Implicit

/-!
# What definitions and assignments do to the table

A defined variable is entered in the innermost scope or in the global one, and it means from then on what its
value means. An assignment changes what a variable means if any type may be stored in it. Names that are read
leave the table as it is.
-/

namespace Frontend

open Lower SymbolTable Meaning

variable {global : Bool} {m : Marks}
variable {tag : Tag} {m' : Marks} {labels : List Label} {value : Option Operand}

/-! ## Names in tables -/

namespace SymbolTable

/-- Whether a name has a meaning in a scope above the global one. -/
def isNear (t : SymbolTable) (name : String) : Bool := (t.inner.findSome? (·.names.lookup name)).isSome

variable {t t' : SymbolTable} {x y : String} {id : SymbolId} {sym : Symbol} {v : VariableInfo}

theorem find?_eq (t : SymbolTable) (x : String) :
    t.find? x = (t.inner.findSome? (·.names.lookup x)).or (t.global.names.lookup x) := by
  unfold find? scopesFrom scopes
  rw [List.findSome?_append, List.findSome?_cons, List.findSome?_nil]
  cases t.global.names.lookup x <;> rfl

theorem functionLevel_le (t : SymbolTable) : t.functionLevel ≤ t.level :=
  (List.dropWhile_sublist _).length_le

/-- What is found can be used, unless it is a variable of an outer function. -/
theorem lookup_of_find? (h : t.find? x = some id) (hid : (t.get id).var? = none ∨ (t.get id).level = 0 ∨
    (t.get id).level = t.level) (pos : Position) : t.lookup x pos = .ok id := by
  refine lookup_eq_ok.mpr ⟨h, ?_⟩
  rintro ⟨hvar, hpos, hlt⟩
  rcases hid with hnone | hzero | htop
  · rw [hnone] at hvar
    cases hvar
  · exact absurd hzero hpos.ne'
  · exact absurd (functionLevel_le t) (Nat.not_le_of_lt (htop ▸ hlt))

/-- The name of a variable in reach. -/
structure Holds (t : SymbolTable) (x : String) (id : SymbolId) (v : VariableInfo) : Prop where
  found : t.find? x = some id
  size : id < t.symbols.size
  detail : (t.get id).detail = .var v
  name : (t.get id).name = x
  level : (t.get id).level = 0 ∨ (t.get id).level = t.level

section
variable (h : Holds t x id v)
include h

theorem Holds.lookup (pos : Position) : t.lookup x pos = .ok id :=
  lookup_of_find? h.found (.inr h.level) pos

theorem Holds.var? : (t.get id).var? = some v := by
  unfold Symbol.var?
  rw [h.detail]

/-- A variable of another name is left alone. -/
theorem Holds.modify {j : SymbolId} (hj : j ≠ id) (f : Symbol → Symbol) : Holds (t.modify j f) x id v := by
  have hget : (t.modify j f).get id = t.get id := by rw [get_modify, if_neg fun e => hj e.1.symm]
  exact ⟨h.found, by rw [size_modify]; exact h.size, by rw [hget]; exact h.detail, by rw [hget]; exact h.name,
    by rw [hget]; exact h.level⟩

/-- What is known about a variable changes. -/
theorem Holds.mapVariable (g : VariableInfo → VariableInfo) :
    Holds (t.modify id (Symbol.mapVariable g)) x id (g v) := by
  have hget : (t.modify id (Symbol.mapVariable g)).get id = { t.get id with detail := .var (g v) } := by
    rw [get_modify, if_pos ⟨rfl, h.size⟩]
    unfold Symbol.mapVariable
    rw [h.detail]
  exact ⟨h.found, by rw [size_modify]; exact h.size, by rw [hget], by rw [hget]; exact h.name,
    by rw [hget]; exact h.level⟩

end

/-- A new symbol has been entered, in the innermost scope or in the global one. -/
structure Enters (t : SymbolTable) (sym : Symbol) (global : Bool) (t' : SymbolTable) : Prop where
  level : t'.level = t.level
  size : t'.symbols.size = t.symbols.size + 1
  old : ∀ id < t.symbols.size, t'.get id = t.get id
  new : t'.get t.symbols.size = { sym with level := if global then 0 else t.level }
  found : ∀ y, t'.find? y = if y = sym.name ∧ (global && t.isNear y) = false then some t.symbols.size else t.find? y
  near : ∀ y, t'.isNear y = if y = sym.name ∧ global = false then decide (0 < t.level) else t.isNear y

theorem get_insertAt {level : Nat} (h : (t.add sym).2.insertAt level (t.add sym).1 = .ok t') :
    (∀ id < t.symbols.size, t'.get id = t.get id) ∧ t'.get t.symbols.size = { sym with level } ∧
      t'.symbols.size = t.symbols.size + 1 := by
  have hget : ∀ j, t'.get j = ((t.add sym).2.modify (t.add sym).1 fun s => { s with level }).get j := by
    intro j
    rw [insertAt_eq h]
    exact Calls.get_mapScope _ _ _ j
  refine ⟨fun id hid => ?_, ?_, ?_⟩
  · rw [hget, get_setLevel, if_neg fun e => Nat.ne_of_lt hid e.1, get_add_of_lt t sym hid]
  · rw [hget, get_setLevel, if_pos ⟨rfl, by rw [size_add]; exact Nat.lt_succ_self _⟩, get_add_self]
  · rw [insertAt_eq h, Calls.symbols_mapScope, size_modify, size_add]

theorem enters_insertGlobal (h : (t.add sym).2.insertGlobal (t.add sym).1 = .ok t') : Enters t sym true t' := by
  obtain ⟨hinner, hglobal⟩ := scopes_of_insertGlobal h
  obtain ⟨hold, hnew, hsize⟩ := get_insertAt h
  have hnear : ∀ y, t'.isNear y = t.isNear y := fun y => by rw [isNear, isNear, hinner]
  refine ⟨by rw [level, hinner]; rfl, hsize, hold, hnew, fun y => ?_, fun y => ?_⟩
  · rw [find?_eq, find?_eq, hinner, hglobal, lookup_putEntry]
    unfold isNear
    cases t.inner.findSome? (·.names.lookup y) with
    | some id => simp
    | none => by_cases hy : y = sym.name <;> simp [hy]
  · rw [hnear, if_neg fun e => Bool.noConfusion e.2]

theorem enters_insert (h : (t.add sym).2.insert (t.add sym).1 = .ok t') : Enters t sym false t' := by
  obtain ⟨hold, hnew, hsize⟩ := get_insertAt h
  cases hinner : t.inner with
  | nil =>
    have hlevel : t.level = 0 := by rw [level, hinner]; rfl
    -- the innermost scope is the global one
    have hglobal := enters_insertGlobal (show (t.add sym).2.insertGlobal (t.add sym).1 = .ok t' by
      unfold insertGlobal
      unfold insert at h
      rwa [show (t.add sym).2.level = t.level from rfl, hlevel] at h)
    have hfar : ∀ y, t.isNear y = false := fun y => by rw [isNear, hinner]; rfl
    refine ⟨hglobal.level, hsize, hold, hnew, fun y => ?_, fun y => ?_⟩
    · rw [hglobal.found, hfar]
      rfl
    · rw [hglobal.near, hfar, hlevel]
      simp
  | cons top rest =>
    obtain ⟨hinner', hglobal, -⟩ := scopes_of_insert hinner h
    have hlevel : 0 < t.level := by rw [level, hinner]; exact Nat.succ_pos _
    refine ⟨by rw [level, level, hinner', hinner]; rfl, hsize, hold, hnew, fun y => ?_, fun y => ?_⟩
    · rw [find?_eq, find?_eq, hinner', hglobal, hinner, List.findSome?_cons, List.findSome?_cons]
      unfold entered
      dsimp only
      rw [lookup_putEntry]
      by_cases hy : y = sym.name <;> simp [hy]
    · rw [isNear, isNear, hinner', hinner, List.findSome?_cons, List.findSome?_cons]
      unfold entered
      dsimp only
      rw [lookup_putEntry]
      by_cases hy : y = sym.name <;> simp [hy, hlevel]

theorem Enters.mapVariable (h : Enters t sym global t') (g : VariableInfo → VariableInfo) :
    Enters t (sym.mapVariable g) global (t'.modify t.symbols.size (Symbol.mapVariable g)) := by
  have hname : (sym.mapVariable g).name = sym.name := by
    unfold Symbol.mapVariable
    split <;> rfl
  refine ⟨h.level, by rw [size_modify]; exact h.size, fun id hid => ?_, ?_, fun y => ?_, fun y => ?_⟩
  · rw [get_modify, if_neg fun e => Nat.ne_of_lt hid e.1, h.old id hid]
  · rw [get_modify, if_pos ⟨rfl, by rw [h.size]; exact Nat.lt_succ_self _⟩, h.new]
    rcases sym with ⟨_, _, _, _, _ | _ | _ | _ | _⟩ <;> rfl
  · rw [hname]
    exact h.found y
  · rw [hname]
    exact h.near y

/-- A variable that is not hidden by the new one stays. -/
theorem Enters.holds (h : Enters t sym global t') (hx : Holds t x id v)
    (hne : ¬(x = sym.name ∧ (global && t.isNear x) = false)) : Holds t' x id v := by
  have hget := h.old id hx.size
  exact ⟨by rw [h.found, if_neg hne]; exact hx.found, by rw [h.size]; exact hx.size.trans (Nat.lt_succ_self _),
    by rw [hget]; exact hx.detail, by rw [hget]; exact hx.name, by rw [hget, h.level]; exact hx.level⟩

/-- The new variable. -/
theorem Enters.holds_new (h : Enters t sym global t') (hv : sym.detail = .var v)
    (hfar : (global && t.isNear sym.name) = false) : Holds t' sym.name t.symbols.size v := by
  refine ⟨by rw [h.found, if_pos ⟨rfl, hfar⟩], by rw [h.size]; exact Nat.lt_succ_self _, by rw [h.new]; exact hv,
    by rw [h.new], ?_⟩
  rw [h.new, h.level]
  cases global
  · exact .inr rfl
  · exact .inl rfl

end SymbolTable

/-! ## Labels -/

/-- Whether no type but any type is among the labels of a variable. -/
def admitsAny (labels : List Label) : Bool :=
  labels.all fun l => TagKind.ofToken? l.token.kind != some .type || (l.token.kind != .ident && l.name == TypeName.any.text)

theorem isAny_of_label {t : SymbolTable} {l : Label} (h : l.tag t = .ok tag) (hl : admitsAny [l] = true)
    (htype : tag.kind? = some .type) : tag.isAny = true := by
  obtain ⟨token, groups⟩ := l
  unfold Label.tag at h
  split at h
  · cases h
  · rename_i kind hkind
    unfold admitsAny at hl
    rw [List.all_cons, List.all_nil, Bool.and_true, show (Label.mk token groups).token = token from rfl, hkind] at hl
    split at h
    · rename_i hident
      rw [beq_iff_eq.mp hident] at hl hkind
      cases hkind
      cases hl
    · obtain ⟨tags, -, ⟨⟩⟩ := bind_ok h
      obtain rfl := Option.some.inj htype
      rw [bne_self_eq_false, Bool.false_or] at hl
      exact (Bool.and_eq_true_iff.mp hl).2

theorem isAny_of_add (h : m.add tag = .ok m') (hm : m.type.isAny = true)
    (htag : tag.kind? = some .type → tag.isAny = true) : m'.type.isAny = true := by
  unfold Marks.add at h
  cases tag with
  | missing =>
    cases h
    exact hm
  | mk kind name rid groups pos =>
    cases kind with
    | type =>
      simp only at h
      split at h
      · cases h
        exact htag rfl
      · cases h
    | permission =>
      simp only at h
      split at h
      · cases h
      · cases h
        exact hm
    | lifeCycle =>
      simp only at h
      split at h
      · cases h
      · cases h
        exact hm
    | restriction =>
      cases h
      exact hm
    | role =>
      cases h
      exact hm

/-- Labels without a type but any type leave the type open. -/
theorem isAny_ofLabels {t : SymbolTable} (h : Marks.ofLabels t m labels = .ok m') (hlabels : admitsAny labels = true)
    (hm : m.type.isAny = true) : m'.type.isAny = true := by
  induction labels generalizing m with
  | nil =>
    cases h
    exact hm
  | cons l labels ih =>
    obtain ⟨hl, hrest⟩ := Bool.and_eq_true_iff.mp (List.all_cons.symm.trans hlabels)
    have hl : admitsAny [l] = true := (Bool.and_true _).trans hl
    unfold Marks.ofLabels at h
    obtain ⟨tag, htag, h⟩ := bind_ok h
    obtain ⟨m₁, hadd, h⟩ := bind_ok h
    exact ih h hrest (isAny_of_add hadd hm (isAny_of_label htag hl))

theorem Marks.isAny_typeOrAny (h : m.type.isAny = true) : m.typeOrAny.isAny = true := by
  unfold Marks.typeOrAny
  split
  · rfl
  · exact h

/-! ## Definitions -/

namespace Lower

variable {visit : Visit} {s s' : Lowering} {x : Ident} {init : Option Node}

theorem refuse_eq_ok {o : Option Diagnostic} {u : Unit} (h : refuse o s = (.ok u, s')) : s = s' := by
  cases o with
  | some d => cases h
  | none =>
    cases h
    rfl

theorem marksOf_eq_ok {what : String} {admitted : List String} (h : marksOf labels what admitted s = (.ok m, s')) :
    Marks.ofLabels s.table {} labels = .ok m ∧ s = s' := by
  obtain ⟨t, s₁, ⟨⟩, h⟩ := bind_eq_ok.mp h
  obtain ⟨m', s₂, hm, h⟩ := bind_eq_ok.mp h
  obtain ⟨hlabels, rfl⟩ := ofExcept_eq_ok hm
  obtain ⟨u, s₃, hu, h⟩ := bind_eq_ok.mp h
  obtain rfl := refuse_eq_ok hu
  cases h
  exact ⟨hlabels, rfl⟩

theorem table_move {o : Operand} {target : String} (h : move o target s = (.ok (), s')) : s'.table = s.table := by
  unfold move at h
  split at h
  · cases h
    rfl
  · split at h <;> (cases h; rfl)

theorem newSymbol_eq_ok {sym : Symbol} {id : SymbolId} (h : newSymbol sym s = (.ok id, s')) :
    id = (s.table.add sym).1 ∧ s'.table = (s.table.add sym).2 := by
  cases h
  exact ⟨rfl, rfl⟩

theorem tryTable_eq_ok {f : SymbolTable → Except Diagnostic SymbolTable} (h : tryTable f s = (.ok (), s')) :
    f s.table = .ok s'.table := by
  obtain ⟨t, s₁, ⟨⟩, h⟩ := bind_eq_ok.mp h
  obtain ⟨t, s₂, hf, h⟩ := bind_eq_ok.mp h
  obtain ⟨hok, rfl⟩ := ofExcept_eq_ok hf
  cases h
  exact hok

/-- Room is made for a variable, and its value is stored. -/
theorem table_of_stored {rid : String} {id : SymbolId} {any : Bool} (h : (do
      emit .allot [rid]
      match value with
      | none => pure ()
      | some o =>
        move o rid
        changeTable (·.modify id (Symbol.mapVariable fun v =>
          { v with meaning := o.meaning, value := if any then o.effective else v.value })) : Lower Unit) s = (.ok (), s')) :
    (value = none ∧ s'.table = s.table) ∨ ∃ o g, value = some o ∧ s'.table = s.table.modify id (Symbol.mapVariable g) ∧
      ∀ v, (g v).type = v.type ∧ (g v).meaning = o.meaning := by
  obtain ⟨_, s₁, ⟨⟩, h⟩ := bind_eq_ok.mp h
  cases value with
  | none =>
    cases h
    exact .inl ⟨rfl, rfl⟩
  | some o =>
    obtain ⟨_, s₂, hmove, h⟩ := bind_eq_ok.mp h
    have htable := table_move hmove
    cases h
    refine .inr ⟨o, fun v => { v with meaning := o.meaning, value := if any then o.effective else v.value }, rfl, ?_,
      fun v => ⟨rfl, rfl⟩⟩
    change s₂.table.modify _ _ = _
    rw [htable]

def newVariable (x : Ident) (marks : Marks) (rid : String) : Symbol where
  name := x.name
  rid := rid
  pos := x.token.pos
  detail := .var { type := marks.typeOrAny, const := marks.isConst, global := marks.lifeCycle? == some .global }

/-- A variable is entered in its scope, and it means what its value means. -/
theorem enters_of_introduce {marks : Marks} (h : introduce x marks value s = (.ok (), s')) :
    ∃ sym v, sym.name = x.name ∧ sym.detail = .var v ∧ v.type = marks.typeOrAny ∧
      (∀ o, value = some o → v.meaning = o.meaning) ∧
      Enters s.table sym (marks.lifeCycle? == some .global) s'.table := by
  obtain ⟨rid, s₁, hrid, h⟩ := bind_eq_ok.mp h
  have hbefore : s₁.table = s.table := by
    cases hrid
    rfl
  obtain ⟨id, s₂, hid, h⟩ := bind_eq_ok.mp h
  obtain ⟨rfl, hmade⟩ := newSymbol_eq_ok hid
  rw [hbefore] at hmade
  rw [hbefore] at h
  have entered : ∃ u : Lowering, Enters s.table (newVariable x marks rid) (marks.lifeCycle? == some .global) u.table ∧
      ((value = none ∧ s'.table = u.table) ∨
        ∃ o g, value = some o ∧ s'.table = u.table.modify s.table.symbols.size (Symbol.mapVariable g) ∧
          ∀ v, (g v).type = v.type ∧ (g v).meaning = o.meaning) := by
    dsimp only at h
    split at h
    · next hglobal =>
      obtain ⟨_, u, hu, h⟩ := bind_eq_ok.mp h
      have hu := tryTable_eq_ok hu
      rw [hmade] at hu
      exact ⟨u, hglobal ▸ enters_insertGlobal hu, table_of_stored h⟩
    · next hglobal =>
      obtain ⟨_, u, hu, h⟩ := bind_eq_ok.mp h
      have hu := tryTable_eq_ok hu
      rw [hmade] at hu
      exact ⟨u, Bool.eq_false_iff.mpr hglobal ▸ enters_insert hu, table_of_stored h⟩
  obtain ⟨u, henters, ⟨hvalue, htable⟩ | ⟨o, g, hvalue, htable, hg⟩⟩ := entered
  · refine ⟨_, _, rfl, rfl, rfl, fun o ho => ?_, htable ▸ henters⟩
    rw [hvalue] at ho
    cases ho
  · refine ⟨_, _, rfl, rfl, (hg _).1, fun o' ho => ?_, htable ▸ henters.mapVariable g⟩
    cases hvalue.symm.trans ho
    exact (hg _).2

/-- A defined variable is entered in its scope, and it means what its value means. -/
theorem enters_of_defineVariable (hinit : ∀ n o u, init = some n → eval visit n s = (.ok o, u) → u.table = s.table)
    (h : defineVariable visit x init s = (.ok (), s')) :
    ∃ sym v, sym.name = x.name ∧ sym.detail = .var v ∧ (admitsAny x.labels = true → v.type.isAny = true) ∧
      (∀ n, init = some n → ∃ o u, eval visit n s = (.ok o, u) ∧ v.meaning = o.meaning) ∧
      Enters s.table sym (isGlobal x.labels) s'.table := by
  obtain ⟨marks, s₁, hm, h⟩ := bind_eq_ok.mp h
  obtain ⟨hmarks, rfl⟩ := marksOf_eq_ok hm
  have hglobal : (marks.lifeCycle? == some .global) = isGlobal x.labels := by
    rw [lifeCycle?_ofLabels hmarks]
    rfl
  obtain ⟨value, u, hu, hvalue, h⟩ : ∃ value u, u.table = s.table ∧
      (∀ n, init = some n → ∃ o u, eval visit n s = (.ok o, u) ∧ value = some o) ∧ introduce x marks value u = (.ok (), s') := by
    cases init with
    | none =>
      dsimp only at h
      split at h
      · cases h
      · exact ⟨none, s, rfl, fun n hn => (by cases hn), h⟩
    | some n =>
      obtain ⟨o, u, ho, h⟩ := bind_eq_ok.mp h
      obtain ⟨t, u', ⟨⟩, h⟩ := bind_eq_ok.mp h
      dsimp only at h
      split at h
      · cases h
      · refine ⟨some o, u, hinit n o u rfl ho, ?_, h⟩
        rintro _ ⟨⟩
        exact ⟨o, u, ho, rfl⟩
  obtain ⟨sym, v, hname, hdetail, htype, hmeaning, henters⟩ := enters_of_introduce h
  refine ⟨sym, v, hname, hdetail, fun hadmits => ?_, fun n hn => ?_, ?_⟩
  · rw [htype]
    exact Marks.isAny_typeOrAny (isAny_ofLabels hmarks hadmits rfl)
  · obtain ⟨o, u', ho, hv⟩ := hvalue n hn
    exact ⟨o, u', ho, hmeaning o hv⟩
  · rw [← hglobal, ← hu]
    exact henters

/-! ## Names as values -/

variable {y : Ident} {n : Node} {o : Operand} {u : Lowering} {levels : Nat} {id : SymbolId}

theorem labels_of_ident (h : ident y n s = (.ok (), u)) : y.labels = [] := by
  unfold ident at h
  cases hlabels : y.labels with
  | nil => rfl
  | cons l ls =>
    rw [hlabels] at h
    cases h

/-- A name that a symbol has stands for it. -/
theorem ident_of_lookup (hlabels : y.labels = []) (hid : s.table.lookup y.name y.token.pos = .ok id)
    (hne : (s.table.get id).detail ≠ .target) (n : Node) : ident y n s = push (.ofSymbol s.table id) s := by
  unfold ident
  rw [hlabels]
  refine (table_bind _).trans ?_
  rw [hid]
  dsimp only
  cases hdetail : (s.table.get id).detail with
  | target => exact absurd hdetail hne
  | var v | parameter v k | function f | cls c => rfl

theorem table_of_readFound {found : Option Found} {d : Diagnostic} (h : readFound n d found s = (.ok (), u)) :
    u.table = s.table := by
  cases found with
  | none => cases h
  | some found =>
    obtain ⟨o, s₁, hread, h⟩ := bind_eq_ok.mp h
    have htable : s₁.table = s.table := by
      obtain ⟨t, s₂, ⟨⟩, hread⟩ := bind_eq_ok.mp hread
      dsimp only at hread
      cases hdetail : (s.session.symbols.get found.member).detail with
      | var v | function f | cls c | parameter v k | target =>
        rw [hdetail] at hread
        cases hread
        rfl
    cases o with
    | none => cases h
    | some o =>
      cases h
      exact htable

/-- To read a name does not change the table. -/
theorem table_of_ident (h : ident y n s = (.ok (), u)) : u.table = s.table := by
  have hlabels := labels_of_ident h
  by_cases hunknown : ∀ id, s.session.symbols.lookup y.name y.token.pos ≠ .ok id
  · obtain ⟨d, hident⟩ := ident_eq ⟨hlabels, hunknown⟩ n
    rw [hident] at h
    obtain ⟨found, s₁, hfound, h⟩ := bind_eq_ok.mp h
    obtain ⟨found', hasks⟩ := (Course.Asks.implicitMember : Course.Asks (Lower.implicitMember y.name)) s
    cases hasks.symm.trans hfound
    exact table_of_readFound h
  · obtain ⟨id, hid⟩ := not_forall_not.mp hunknown
    by_cases htarget : (s.table.get id).detail = .target
    · unfold ident at h
      rw [hlabels] at h
      obtain ⟨t, s₁, ⟨⟩, h⟩ := bind_eq_ok.mp h
      rw [hid] at h
      dsimp only at h
      rw [show s.session.symbols.get id = s.table.get id from rfl, htarget] at h
      cases h
    · rw [ident_of_lookup hlabels hid htarget n] at h
      cases h
      rfl

theorem visit_of_eval (h : eval visit n s = (.ok o, u)) :
    ∃ v, visit n s = (.ok (), v) ∧ u.table = v.table ∧ v.operands.head? = some o := by
  unfold eval forValue at h
  cases hv : visit n s with
  | mk r v =>
    rw [hv] at h
    cases r with
    | error e => cases h
    | ok a =>
      dsimp only at h
      split at h
      · next o' os hos =>
        split at h
        · cases h
        · cases h
          exact ⟨v, rfl, rfl, by rw [hos]; rfl⟩
      · cases h

theorem visit_of_exec (h : exec visit n s = (.ok (), u)) : ∃ v, visit n s = (.ok (), v) ∧ u.table = v.table := by
  unfold exec forEffect ensuring at h
  cases hv : visit n s with
  | mk r v =>
    rw [hv] at h
    cases h
    exact ⟨v, rfl, rfl⟩

theorem table_of_name (h : eval (Lower.visit (levels + 1)) (.ident y) s = (.ok o, u)) : u.table = s.table := by
  obtain ⟨v, hv, hu, -⟩ := visit_of_eval h
  rw [hu]
  exact table_of_ident hv

/-- The value of a name that a symbol has. -/
theorem eval_of_lookup (hlabels : y.labels = []) (hid : s.table.lookup y.name y.token.pos = .ok id)
    (hne : (s.table.get id).detail ≠ .target) :
    eval (Lower.visit (levels + 1)) (.ident y) s = (.ok (.ofSymbol s.table id), s) :=
  eval_of_push (ident_of_lookup hlabels hid hne _)

/-! ## Assignments -/

/-- A variable is a target. -/
theorem resolveTarget_of_holds {v : VariableInfo} {place : Target} (hx : Holds s.table x.name id v)
    (h : resolveTarget visit (.ident x) s = (.ok place, u)) : place = .slot id ∧ s = u := by
  unfold resolveTarget at h
  dsimp only at h
  split at h
  · cases h
  · obtain ⟨t, s₁, ⟨⟩, h⟩ := bind_eq_ok.mp h
    dsimp only at h
    rw [show s.session.symbols.lookup x.name x.token.pos = .ok id from hx.lookup _] at h
    dsimp only at h
    rw [show (s.session.symbols.get id).var? = some v from hx.var?] at h
    cases h
    exact ⟨rfl, rfl⟩

/-- A variable of any type means from now on what it is assigned. -/
theorem table_of_settle {v : VariableInfo} (hx : (s.table.get id).var? = some v) (hany : v.type.isAny = true)
    (h : settle (.slot id) n o s = (.ok (), s')) :
    s'.table = s.table.modify id (Symbol.mapVariable fun v => { v with value := o.effective, meaning := o.meaning }) := by
  unfold settle at h
  obtain ⟨t, s₁, ⟨⟩, h⟩ := bind_eq_ok.mp h
  dsimp only at h
  rw [show (s.session.symbols.get id).var? = some v from hx, Option.getD_some, hany] at h
  split at h
  · cases h
  · obtain ⟨_, s₂, ⟨⟩, h⟩ := bind_eq_ok.mp h
    obtain ⟨_, s₃, hstore, h⟩ := bind_eq_ok.mp h
    obtain ⟨sym, s₄, ⟨⟩, hstore⟩ := bind_eq_ok.mp hstore
    have htable := table_move hstore
    cases h
    exact htable

theorem table_of_assign {v : VariableInfo} {op : Token} {value : Node} (hop : (op.kind == .op .assign) = true)
    (hvalue : ∀ o u, eval visit value s = (.ok o, u) → u.table = s.table) (hx : Holds s.table x.name id v)
    (hany : v.type.isAny = true) (h : assign visit (.ident x) op value n s = (.ok (), s')) :
    ∃ o u, eval visit value s = (.ok o, u) ∧
      s'.table = s.table.modify id (Symbol.mapVariable fun v => { v with value := o.effective, meaning := o.meaning }) := by
  rw [assign_eq] at h
  obtain ⟨o, u, ho, h⟩ := bind_eq_ok.mp h
  have htable := hvalue o u ho
  rw [← htable] at hx
  obtain ⟨place, s₁, hplace, h⟩ := bind_eq_ok.mp h
  obtain ⟨rfl, rfl⟩ := resolveTarget_of_holds hx hplace
  obtain ⟨_, s₂, hconst, h⟩ := bind_eq_ok.mp h
  cases checkConst_state hconst
  rw [hop] at h
  refine ⟨o, u, ho, ?_⟩
  rw [← htable]
  exact table_of_settle hx.var? hany h

end Lower

end Frontend
