import Frontend.Proofs.Course.Composed

/-!
# Constants are written once

Room is made for a constant in one place of the code, and its first value is stored directly behind it. Its
word belongs to no other symbol, so that no other instruction may write to it.
-/

namespace Frontend

open Course SymbolTable

/-- A constant that is neither a field nor the object of a method. -/
def Symbol.isConstant (s : Symbol) : Bool :=
  s.name != "this" && match s.detail with
    | .var v => v.const && v.owner.isNone
    | _ => false

/-- Variables and fields have words of their own, with numbers below `n`. The word of a variable is not due,
and no symbol of any other kind has it either. -/
structure Apart (n : Nat) (ws : List String) (t : SymbolTable) : Prop where
  below : ∀ id < t.symbols.size, Word.Below n (t.get id).rid
  dueBelow : ∀ w ∈ ws, Word.Below n w
  numbered : ∀ id < t.symbols.size, ∀ v, (t.get id).detail = .var v → Word.HasNumber (t.get id).rid
  fields : ∀ id < t.symbols.size, ∀ id' < t.symbols.size, ∀ v v', (t.get id).detail = .var v →
    (t.get id').detail = .var v' → (t.get id').rid = (t.get id).rid → id' = id
  due : ∀ id < t.symbols.size, (t.get id).IsVariable → (t.get id).rid ∉ ws
  alone : ∀ id < t.symbols.size, (t.get id).IsVariable → ∀ id' < t.symbols.size,
    (t.get id').rid = (t.get id).rid → id' = id

variable {home : Option Home} {k : Bool} {ws ws' : List String} {s s' : Lowering} {t t' : SymbolTable} {n : Nat}
variable {code : Code} {w : String}
variable {id : SymbolId} {v : VariableInfo}
variable {sym : Symbol} {a b body : Code} {op : Opcode} {args : List String} {head : Instruction} {id' : SymbolId}

namespace Apart

section
variable (h : Apart n ws t)
include h

/-- Fewer words are due, or words that no variable has. -/
theorem mono
    (hws : ∀ w ∈ ws', w ∈ ws ∨ Word.Below n w ∧ ∀ id < t.symbols.size, (t.get id).IsVariable → (t.get id).rid ≠ w) :
    Apart n ws' t where
  below := h.below
  dueBelow := fun w hw => (hws w hw).elim (h.dueBelow w) (·.1)
  numbered := h.numbered
  fields := h.fields
  due := fun id hid hvar hw => (hws _ hw).elim (h.due id hid hvar) fun hnew => hnew.2 id hid hvar rfl
  alone := h.alone

theorem number {n' : Nat} (hn : n ≤ n') : Apart n' ws t :=
  { h with below := fun id hid => (h.below id hid).mono hn, dueBelow := fun w hw => (h.dueBelow w hw).mono hn }

/-- The symbols are the same for good. -/
theorem later (hl : Later t t') (hsize : t'.symbols.size = t.symbols.size) : Apart n ws t' := by
  have old : ∀ id < t'.symbols.size, id < t.symbols.size ∧ (t'.get id).rid = (t.get id).rid ∧
      ((t'.get id).IsVariable → (t.get id).IsVariable) ∧
      ∀ v, (t'.get id).detail = .var v → ∃ v', (t.get id).detail = .var v' := by
    intro id hid
    have hcore := hl.core id (hsize ▸ hid)
    refine ⟨hsize ▸ hid, Symbol.rid_of_core hcore, Symbol.isVariable_of_core hcore.symm, fun v hv => ?_⟩
    obtain ⟨v', hv', -⟩ := Symbol.var_of_core hcore.symm hv
    exact ⟨v', hv'⟩
  refine ⟨fun id hid => ?_, h.dueBelow, fun id hid v hv => ?_, fun id hid id' hid' v v' hv hv' hrid => ?_,
    fun id hid hvar => ?_, fun id hid hvar id' hid' hrid => ?_⟩
  · obtain ⟨hlt, hrid, -⟩ := old id hid
    exact hrid ▸ h.below id hlt
  · obtain ⟨hlt, hrid, -, hold⟩ := old id hid
    obtain ⟨v', hv'⟩ := hold v hv
    exact hrid ▸ h.numbered id hlt v' hv'
  · obtain ⟨hlt, hsame, -, hold⟩ := old id hid
    obtain ⟨hlt', hsame', -, hold'⟩ := old id' hid'
    obtain ⟨u, hu⟩ := hold v hv
    obtain ⟨u', hu'⟩ := hold' v' hv'
    exact h.fields id hlt id' hlt' u u' hu hu' (hsame'.symm.trans (hrid.trans hsame))
  · obtain ⟨hlt, hsame, hold, -⟩ := old id hid
    exact hsame ▸ h.due id hlt (hold hvar)
  · obtain ⟨hlt, hsame, hold, -⟩ := old id hid
    obtain ⟨hlt', hsame', -⟩ := old id' hid'
    exact h.alone id hlt (hold hvar) id' hlt' (hsame'.symm.trans (hrid.trans hsame))

/-- A symbol is made. If it is a variable or a field, then its word is new. -/
theorem add (hbelow : Word.Below n sym.rid)
    (hother : ∀ id < t.symbols.size, (t.get id).IsVariable → sym.rid ≠ (t.get id).rid)
    (hnew : ∀ v, sym.detail = .var v → Word.HasNumber sym.rid ∧ ∀ id < t.symbols.size, (t.get id).rid ≠ sym.rid)
    (hdue : sym.IsVariable → sym.rid ∉ ws) : Apart n ws (t.add sym).2 := by
  have parts : ∀ id < (t.add sym).2.symbols.size, id < t.symbols.size ∧ (t.add sym).2.get id = t.get id ∨
      id = t.symbols.size ∧ (t.add sym).2.get id = sym := by
    intro id hid
    rw [size_add] at hid
    rcases Nat.lt_succ_iff_lt_or_eq.mp hid with hlt | rfl
    · exact .inl ⟨hlt, get_add_of_lt t sym hlt⟩
    · exact .inr ⟨rfl, get_add_self t sym⟩
  have isVar : sym.IsVariable → ∃ v, sym.detail = .var v := fun ⟨v, hv, _⟩ => ⟨v, hv⟩
  refine ⟨fun id hid => ?_, h.dueBelow, fun id hid v hv => ?_, fun id hid id' hid' v v' hv hv' hrid => ?_,
    fun id hid hvar => ?_, fun id hid hvar id' hid' hrid => ?_⟩
  · obtain ⟨hlt, hget⟩ | ⟨-, hget⟩ := parts id hid <;> rw [hget]
    · exact h.below id hlt
    · exact hbelow
  · obtain ⟨hlt, hget⟩ | ⟨-, hget⟩ := parts id hid <;> rw [hget] at hv ⊢
    · exact h.numbered id hlt v hv
    · exact (hnew v hv).1
  · obtain ⟨hlt, hget⟩ | ⟨rfl, hget⟩ := parts id hid <;> obtain ⟨hlt', hget'⟩ | ⟨rfl, hget'⟩ := parts id' hid' <;>
      rw [hget] at hv hrid <;> rw [hget'] at hv' hrid
    · exact h.fields id hlt id' hlt' v v' hv hv' hrid
    · exact absurd hrid.symm ((hnew v' hv').2 id hlt)
    · exact absurd hrid ((hnew v hv).2 id' hlt')
  · obtain ⟨hlt, hget⟩ | ⟨-, hget⟩ := parts id hid <;> rw [hget] at hvar ⊢
    · exact h.due id hlt hvar
    · exact hdue hvar
  · obtain ⟨hlt, hget⟩ | ⟨rfl, hget⟩ := parts id hid <;> obtain ⟨hlt', hget'⟩ | ⟨rfl, hget'⟩ := parts id' hid' <;>
      rw [hget] at hvar hrid <;> rw [hget'] at hrid
    · exact h.alone id hlt hvar id' hlt' hrid
    · exact absurd hrid (hother id hlt hvar)
    · obtain ⟨v, hv⟩ := isVar hvar
      exact absurd hrid ((hnew v hv).2 id' hlt')

/-- A symbol is made with the next number. Its word may be due, unless it is a variable. -/
theorem made {base : String} (hrid : sym.rid = Word.numbered base n)
    (hws : ∀ w ∈ ws', w ∈ ws ∨ w = sym.rid ∧ ¬ sym.IsVariable) : Apart (n + 1) ws' (t.add sym).2 := by
  have hnumber : Word.IsNumbered sym.rid n := hrid ▸ Word.isNumbered_numbered base n
  have hbelow : Word.Below (n + 1) sym.rid := hrid ▸ Word.below_numbered base (Nat.lt_succ_self n)
  have hnew : ∀ {w}, Word.Below n w → w ≠ sym.rid := by
    rintro w hw rfl
    exact Nat.lt_irrefl n (hw n hnumber)
  have hmade : Apart (n + 1) ws (t.add sym).2 := by
    refine (h.number (Nat.le_succ n)).add hbelow ?_ ?_ ?_
    · exact fun id hid _ => (hnew (h.below id hid)).symm
    · exact fun v _ => ⟨⟨n, hnumber⟩, fun id hid => hnew (h.below id hid)⟩
    · exact fun _ hw => hnew (h.dueBelow _ hw) rfl
  refine hmade.mono fun w hw => (hws w hw).imp_right ?_
  rintro ⟨rfl, hnot⟩
  refine ⟨hbelow, fun id hid hvar => ?_⟩
  rw [size_add] at hid
  rcases Nat.lt_succ_iff_lt_or_eq.mp hid with hlt | rfl
  · rw [get_add_of_lt t sym hlt]
    exact hnew (h.below id hlt)
  · rw [get_add_self] at hvar
    exact absurd hvar hnot

theorem change (hchange : Change n ws t ws' t') : Apart n ws' t' := by
  obtain ⟨hsize, hws⟩ | ⟨sym, rfl, hvar, hbelow, hdue, hws⟩ := hchange.kept_or_made
  · refine (h.mono fun w hw => (hws w hw).imp_right ?_).later hchange.later hsize
    rintro ⟨id, rfl, hopen⟩
    have hid : id < t.symbols.size := lt_size_of_isOpen hopen
    refine ⟨h.below id hid, fun id' hid' hvar hrid => ?_⟩
    obtain rfl := h.alone id' hid' hvar id hid hrid.symm
    obtain ⟨v, hv, -⟩ := hvar
    rw [Symbol.isOpen, hv] at hopen
    cases hopen
  · refine Apart.mono ?_ fun w hw => .inl (hws hw)
    refine h.add hbelow (fun id hid hvariable hrid => ?_) (fun v hv => absurd hv (hvar v)) ?_
    · rcases hdue with hdue | hdue
      · exact h.due id hid hvariable (hrid ▸ hdue)
      · obtain ⟨v, hv, -⟩ := hvariable
        exact hdue (hrid ▸ h.numbered id hid v hv)
    · rintro ⟨v, hv, -⟩
      exact absurd hv (hvar v)

theorem of_symbols (hs : t'.symbols = t.symbols) : Apart n ws t' :=
  h.later (.of_symbols hs) (by rw [hs])

/-- A symbol that was made is entered in a scope. -/
theorem insertAt {level : Nat} (ht : t.insertAt level id = .ok t') : Apart n ws t' :=
  h.later (later_insertAt ht) ((congrArg Array.size (symbols_insertAt ht)).trans (size_modify _ _ _))

end

end Apart

/-- Along every course, variables keep words of their own. -/
theorem Course.apart [Setting] (h : Course home k ws s ws' s') (ha : Apart s.supply.rids ws s.table) :
    Apart s'.supply.rids ws' s'.table := by
  induction h with
  | refl => exact ha
  | trans _ _ ih₁ ih₂ => exact ih₂ (ih₁ ha)
  | stop _ ih => exact (ih ha).mono fun w hw => absurd hw List.not_mem_nil
  | after _ aside ih => exact aside.table ▸ aside.supply ▸ ih ha
  | forget h => exact ha.mono fun w hw => .inl (h.subset hw)
  | push | note | temps => exact ha
  | @label home ws s =>
    have hlabel : ¬ Word.HasNumber (Word.label s.supply.labels) := fun ⟨m, hm⟩ => (Word.constant_label _).2 m hm
    refine ha.mono fun w hw => ?_
    rcases List.mem_cons.mp hw with rfl | hw
    · refine .inr ⟨Word.below_of_not_hasNumber hlabel, ?_⟩
      rintro id hid ⟨v, hv, -⟩ hrid
      exact hlabel (hrid ▸ ha.numbered id hid v hv)
    · exact .inl hw
  | @number home ws s base =>
    refine (ha.number (Nat.le_succ _)).mono fun w hw => ?_
    rcases List.mem_cons.mp hw with rfl | hw
    · refine .inr ⟨Word.below_numbered base (Nat.lt_succ_self _), fun id hid _ hrid => ?_⟩
      exact Nat.lt_irrefl _ (ha.below id hid _ (hrid ▸ Word.isNumbered_numbered base _))
    · exact .inl hw
  | change h => exact ha.change h
  | fresh sym hrid hsym hthis =>
    refine ha.made hrid fun w hw => ?_
    rcases List.mem_cons.mp hw with rfl | hw
    · refine .inr ⟨rfl, ?_⟩
      rintro ⟨v, hv, howner, hname⟩
      cases hsym.symm.trans hv
      exact hname (hthis howner)
    · exact .inl hw
  | define sym hrid hsym howner hlevel hins hcode => exact (ha.made hrid fun w hw => .inl hw).insertAt hins
  | @newClass home ws s ws' base c t sym hrid hsym hnew hins hws =>
    have hdue : ∀ w ∈ ws', w ∈ ws ∨ w = sym.rid ∧ ¬ sym.IsVariable := by
      intro w hw
      have hw : w ∈ sym.rid :: ws := hws ▸ List.mem_append_right _ hw
      rcases List.mem_cons.mp hw with rfl | hw
      · refine .inr ⟨rfl, ?_⟩
        rintro ⟨v, hv, -⟩
        cases hsym.symm.trans hv
      · exact .inl hw
    exact ((ha.made hrid hdue).insertAt hins).of_symbols (scopes_registerType _ _).2.2.1
  | stray sym hrid => exact ha.made hrid fun w hw => absurd hw List.not_mem_nil
  | write | generated => exact ha
  | bring => exact ha.mono fun w hw => .inl (List.mem_append_right _ hw)
  | initial _ _ _ _ _ _ ih | loop _ ih | endless _ ih => exact ih ha
  | scope kind _ ih => exact (ih (ha.of_symbols rfl)).of_symbols (symbols_leaveTo _ _)
  | inside _ _ ih | file _ _ ih => exact ih ha
  | function hop hfun enter hout body hleave hwords ih₁ ih₂ =>
    have hv := ih₂ (ih₁ (ha.of_symbols rfl))
    exact (hv.mono fun w hw => .inl (hwords.subset (List.mem_append_right _ hw))).of_symbols (symbols_leaveTo _ _)
  | headless _ _ ih => exact ((ih (ha.of_symbols rfl)).mono fun w hw => absurd hw List.not_mem_nil).of_symbols (symbols_leaveTo _ _)
  | broken _ _ _ _ ih₁ ih₂ =>
    exact ((ih₂ (ih₁ (ha.of_symbols rfl))).mono fun w hw => absurd hw List.not_mem_nil).of_symbols (symbols_leaveTo _ _)

/-! ## Where a word is written -/

/-- Room is made for the variable `w` in one place, its first value is stored directly behind it, and nothing
else writes to it. -/
def WrittenOnce (w : String) (code : Code) : Prop :=
  ∃ pre op raw post, (op = .put ∨ op = .copy) ∧ raw ≠ w ∧
    code = pre ++ CodeItem.instr ⟨.allot, [w]⟩ :: .instr ⟨op, [raw, w]⟩ :: post ∧
    ∀ i ∈ Code.instructions (pre ++ post), w ∉ i.writes

namespace WrittenOnce

theorem behind (h : WrittenOnce w b) (ha : ∀ i ∈ a.instructions, w ∉ i.writes) : WrittenOnce w (a ++ b) := by
  obtain ⟨pre, op, raw, post, hop, hraw, rfl, hrest⟩ := h
  refine ⟨a ++ pre, op, raw, post, hop, hraw, by rw [List.append_assoc], ?_⟩
  rw [List.append_assoc, Code.instructions_append]
  exact List.forall_mem_append.mpr ⟨ha, hrest⟩

theorem inFront (h : WrittenOnce w a) (hb : ∀ i ∈ b.instructions, w ∉ i.writes) : WrittenOnce w (a ++ b) := by
  obtain ⟨pre, op, raw, post, hop, hraw, rfl, hrest⟩ := h
  refine ⟨pre, op, raw, post ++ b, hop, hraw, by simp, ?_⟩
  rw [← List.append_assoc, Code.instructions_append]
  exact List.forall_mem_append.mpr ⟨hrest, hb⟩

end WrittenOnce

/-- The first value of another variable is stored. -/
theorem Course.not_mem_writes_initial {x : String} (hx : w ≠ x) (h : v.const = false ∧ code = [] ∨ Initial x code) :
    ∀ i ∈ code.instructions, w ∉ i.writes := by
  rcases h with ⟨-, rfl⟩ | ⟨op, raw, rfl | rfl, -, rfl⟩
  · exact fun _ hi => absurd hi List.not_mem_nil
  all_goals exact List.forall_mem_singleton.mpr fun hw => hx (List.mem_singleton.mp hw)

theorem Course.writes_of_brings (h : brings op = true) : Instruction.writes ⟨op, args⟩ = [] := by
  cases op <;> first | rfl | cases h

theorem Course.writes_of_opensFunction (h : op = .func ∨ op = .funi) : Instruction.writes ⟨op, args⟩ = [] := by
  rcases h with rfl | rfl <;> rfl

/-- A frame brings in what its head and its body bring in. -/
theorem introduced_framed (head : Instruction) (body : Code) :
    introduced (.instr head :: (body ++ [CodeItem.instr ⟨.finish, []⟩])) = head.introduces ++ introduced body := by
  change introduced ([CodeItem.instr head] ++ (body ++ [CodeItem.instr ⟨.finish, []⟩])) = _
  rw [introduced_append, introduced_append]
  simp [introduced, CodeItem.introduces, Instruction.introduces]

theorem not_mem_writes_framed (hhead : head.writes = []) (hbody : ∀ i ∈ body.instructions, w ∉ i.writes) :
    ∀ i ∈ Code.instructions (.instr head :: (body ++ [CodeItem.instr ⟨.finish, []⟩])), w ∉ i.writes := by
  rw [Code.instructions_instr, Code.instructions_append]
  refine List.forall_mem_cons.mpr ⟨hhead ▸ List.not_mem_nil, ?_⟩
  exact List.forall_mem_append.mpr ⟨hbody, List.forall_mem_singleton.mpr List.not_mem_nil⟩

theorem WrittenOnce.framed (h : WrittenOnce w body) (hhead : head.writes = []) :
    WrittenOnce w (.instr head :: (body ++ [CodeItem.instr ⟨.finish, []⟩])) := by
  have hbody := h.inFront (b := [.instr ⟨.finish, []⟩]) (List.forall_mem_singleton.mpr List.not_mem_nil)
  exact hbody.behind (a := [.instr head]) (List.forall_mem_singleton.mpr (hhead ▸ List.not_mem_nil))

/-- Code writes to a word that must not change only where it makes room for it. -/
theorem Composed.not_mem_writes (h : Composed t home n code) (hw : ¬ Course.Writable t w) (hnew : w ∉ introduced code) :
    ∀ i ∈ code.instructions, w ∉ i.writes := by
  induction h with
  | nil | note => exact fun _ hi => absurd hi List.not_mem_nil
  | append _ _ iha ihb =>
    rw [introduced_append, List.mem_append, not_or] at hnew
    rw [Code.instructions_append]
    exact List.forall_mem_append.mpr ⟨iha hnew.1, ihb hnew.2⟩
  | write hop hwrites => exact List.forall_mem_singleton.mpr fun hmem => hw (hwrites w hmem)
  | bring hop =>
    refine List.forall_mem_singleton.mpr ?_
    rw [writes_of_brings hop]
    exact List.not_mem_nil
  | initial _ _ _ _ _ _ _ ih =>
    rw [introduced_append, List.mem_append, not_or] at hnew
    rw [Code.instructions_append]
    exact List.forall_mem_append.mpr ⟨ih hnew.1, List.forall_mem_singleton.mpr List.not_mem_nil⟩
  | @define home k id v code hid hcode =>
    have hx : w ≠ (t.get id).rid := fun heq => hnew (heq ▸ List.mem_cons_self ..)
    exact List.forall_mem_cons.mpr ⟨fun hmem => hx (List.mem_singleton.mp hmem), not_mem_writes_initial hx hcode⟩
  | loop _ ih =>
    rw [introduced_framed, List.mem_append, not_or] at hnew
    exact not_mem_writes_framed rfl (ih hnew.2)
  | function hop _ _ ih =>
    rw [introduced_framed, List.mem_append, not_or] at hnew
    exact not_mem_writes_framed (writes_of_opensFunction hop) (ih hnew.2)

/-- Code that makes room for a constant once writes to it once. -/
theorem Composed.writtenOnce (h : Composed t home n code) (hw : ¬ Course.Writable t w)
    (hconst : ∀ id v, (t.get id).detail = .var v → (t.get id).rid = w → v.const = true)
    (hnodup : (introduced code).Nodup) (hroom : .instr ⟨.allot, [w]⟩ ∈ code) : WrittenOnce w code := by
  induction h with
  | nil => exact absurd hroom List.not_mem_nil
  | note => exact absurd (List.mem_singleton.mp hroom) (by simp)
  | append ha hb iha ihb =>
    rw [introduced_append, List.nodup_append] at hnodup
    have brought : ∀ {c : Code}, .instr ⟨.allot, [w]⟩ ∈ c → w ∈ introduced c := fun hc =>
      List.mem_flatMap.mpr ⟨_, hc, List.mem_singleton_self w⟩
    rcases List.mem_append.mp hroom with hroom | hroom
    · exact (iha hnodup.1 hroom).inFront (hb.not_mem_writes hw fun hmem => hnodup.2.2 w (brought hroom) w hmem rfl)
    · exact (ihb hnodup.2.1 hroom).behind (ha.not_mem_writes hw fun hmem => hnodup.2.2 w hmem w (brought hroom) rfl)
  | @write home k op args hop =>
    cases List.mem_singleton.mp hroom
    cases hop
  | bring hop =>
    cases List.mem_singleton.mp hroom
    cases hop
  | initial _ _ _ _ _ _ _ ih =>
    rw [introduced_append, List.nodup_append] at hnodup
    refine (ih hnodup.1 ?_).inFront (List.forall_mem_singleton.mpr List.not_mem_nil)
    exact (List.mem_append.mp hroom).resolve_right fun hset => by cases List.mem_singleton.mp hset
  | @define home k id v code hid hcode =>
    have hx : (t.get id).rid = w := by
      rcases List.mem_cons.mp hroom with hroom | hroom
      · cases hroom
        rfl
      · rcases hcode with ⟨-, rfl⟩ | ⟨op, raw, rfl | rfl, -, rfl⟩
        · exact absurd hroom List.not_mem_nil
        all_goals cases List.mem_singleton.mp hroom
    subst hx
    rcases hcode with ⟨hconst', -⟩ | ⟨op, raw, hop, hraw, rfl⟩
    · exact absurd (hconst'.symm.trans (hconst id v hid rfl)) Bool.false_ne_true
    · exact ⟨[], op, raw, [], hop, hraw, rfl, fun _ hi => absurd hi List.not_mem_nil⟩
  | loop _ ih =>
    rw [introduced_framed] at hnodup
    refine (ih (List.nodup_append.mp hnodup).2.1 ?_).framed rfl
    rcases List.mem_cons.mp hroom with hroom | hroom
    · cases hroom
    · exact (List.mem_append.mp hroom).resolve_right fun hfinish => by cases List.mem_singleton.mp hfinish
  | function hop _ _ ih =>
    rw [introduced_framed] at hnodup
    refine (ih (List.nodup_append.mp hnodup).2.1 ?_).framed (writes_of_opensFunction hop)
    rcases List.mem_cons.mp hroom with hroom | hroom
    · rcases hop with rfl | rfl <;> cases hroom
    · exact (List.mem_append.mp hroom).resolve_right fun hfinish => by cases List.mem_singleton.mp hfinish

theorem Symbol.exists_of_isConstant {s : Symbol} (h : s.isConstant = true) :
    s.IsVariable ∧ ∃ v, s.detail = .var v ∧ v.const = true := by
  obtain ⟨hname, h⟩ := Bool.and_eq_true_iff.mp h
  cases hs : s.detail with
  | var v =>
    rw [hs] at h
    obtain ⟨hconst, howner⟩ := Bool.and_eq_true_iff.mp h
    exact ⟨⟨v, hs, Option.isNone_iff_eq_none.mp howner, bne_iff_ne.mp hname⟩, v, rfl, hconst⟩
  | _ =>
    rw [hs] at h
    cases h

/-! ## Sessions -/

/-- A constant is a symbol that was made. -/
theorem lt_size_of_const (hv : (t.get id).detail = .var v) (hconst : v.const = true) : id < t.symbols.size := by
  by_contra hle
  rw [get_of_size_le (Nat.le_of_not_lt hle)] at hv
  cases hv
  cases hconst

/-- The word of a variable or field is the word of a symbol that was made. -/
theorem Apart.lt_size_of_rid (h : Apart n ws t) (hid : id < t.symbols.size) (hv : (t.get id).detail = .var v)
    (hrid : (t.get id').rid = (t.get id).rid) : id' < t.symbols.size := by
  by_contra hle
  refine Calls.not_hasNumber_of_bare (w := (default : Symbol).rid) (by decide) ?_
  rw [← get_of_size_le (Nat.le_of_not_lt hle), hrid]
  exact h.numbered id hid v hv

/-- No other symbol has the word of a variable. -/
theorem Apart.eq_of_rid (h : Apart n ws t) (hid : id < t.symbols.size) (hvar : (t.get id).IsVariable)
    (hrid : (t.get id').rid = (t.get id).rid) : id' = id := by
  obtain ⟨v, hv, hrest⟩ := hvar
  exact h.alone id hid ⟨v, hv, hrest⟩ id' (h.lt_size_of_rid hid hv hrid) hrid

namespace Session

variable {s : Session} {files : FileTree} {annotate : Bool} {p : Program} {src : Source} {options : CompileOptions}

theorem not_var_builtinSymbol (e : Builtin) (v : VariableInfo) : (builtinSymbol e).detail ≠ .var v :=
  fun h => by cases h

theorem apart_begin (hsober : s.builtins.Sober) (h : Apart s.supply.rids [] s.symbols) :
    Apart s.supply.rids [] (s.begin files annotate).table := by
  refine enterBuiltins_induction h (fun e he t ht => ?_) fun _ _ _ ht hins => ht.insertAt hins
  have hplain : ¬ Word.HasNumber (builtinSymbol e).rid := hsober.names e he
  refine ht.add (Word.below_of_not_hasNumber hplain) (fun id hid hvar hrid => ?_)
    (fun v hv => absurd hv (not_var_builtinSymbol e v)) fun _ => List.not_mem_nil
  obtain ⟨v, hv, -⟩ := hvar
  exact hplain (hrid ▸ ht.numbered id hid v hv)

/-- No built-in function is a variable. -/
theorem allotted_begin (h : Allotted 0 s.symbols []) : Allotted 0 (s.begin files annotate).table [] := by
  refine enterBuiltins_induction (P := fun t => Allotted 0 t []) h (fun e _ t ht => ?_) fun t id t' ht hins => ?_
  · refine ht.append (.of_succ (size_add _ _) ?_) (later_add t _)
    rw [get_add_self]
    rintro ⟨v, hv, -⟩
    exact absurd hv (not_var_builtinSymbol e v)
  · refine ht.append (.of_size_le ?_) (later_insertAt hins)
    rw [symbols_insertAt hins, size_modify]

/-- The code of a unit of a new session that goes on to its end. -/
theorem appended_of_course [Setting] {u : Lowering} (hplain : options.builtins.Plain)
    (h : Course none true [] ((ofOptions options).begin files annotate) [] u) :
    Appended none ((ofOptions options).begin files annotate) u u.out.code := by
  obtain ⟨code, happended⟩ := h.appended rfl hplain
  have hcode : u.out.code = code := by
    rw [happended.out, CodeBuffer.append_eq]
    change (code.reverse ++ []).reverse = code
    rw [List.append_nil, List.reverse_reverse]
  exact hcode ▸ happended

section
variable (hsober : options.builtins.Sober)
include hsober

/-- The words that an accepted unit of a new session brings in are different from each other. -/
theorem nodup_of_compile (hquiet : options.builtins.Quiet)
    (h : ((ofOptions options).compile files annotate p src).1 = .ok code) : (introduced code).Nodup := by
  have hwords := (spare_new hsober hquiet).words [.unit files annotate p src]
  rw [Session.words, Session.words, h] at hwords
  simpa [Except.toOption] using hwords

theorem apart_ending (h : ((ofOptions options).compile files annotate p src).1 = .ok code) :
    Apart ((ofOptions options).ending files annotate p src).supply.rids []
      ((ofOptions options).ending files annotate p src).table := by
  have hempty : Apart 0 [] ({} : SymbolTable) := by
    constructor <;> simp
  exact (course_of_compile (settled_new hsober) h).1.apart (apart_begin (s := ofOptions options) hsober hempty)

/-- Every constant of an accepted unit of a new session is written once. -/
theorem writtenOnce_of_compile (hplain : options.builtins.Plain) (hquiet : options.builtins.Quiet)
    (h : ((ofOptions options).compile files annotate p src).1 = .ok code)
    (hid : (((ofOptions options).compile files annotate p src).2.symbols.get id).isConstant = true) :
    WrittenOnce (((ofOptions options).compile files annotate p src).2.symbols.get id).rid code := by
  have hapart := apart_ending hsober h
  obtain ⟨hcourse, hcode⟩ := course_of_compile (settled_new hsober) h
  have happended := appended_of_course hplain hcourse
  rw [← hcode] at happended
  rw [after_compile] at hid ⊢
  change ((((ofOptions options).ending files annotate p src).table).get id).isConstant = true at hid
  change WrittenOnce ((((ofOptions options).ending files annotate p src).table).get id).rid code
  generalize (ofOptions options).ending files annotate p src = s' at *
  obtain ⟨hvar, v, hv, hconst⟩ := Symbol.exists_of_isConstant hid
  have hid : id < s'.table.symbols.size := lt_size_of_const hv hconst
  have only : ∀ id', (s'.table.get id').rid = (s'.table.get id).rid → id' = id := fun id' hrid =>
    hapart.eq_of_rid hid hvar hrid
  refine happended.composed.writtenOnce ?_ ?_ (nodup_of_compile hsober hquiet h) ?_
  · rintro (hfree | ⟨id', v', hv', hconst', hrid⟩)
    · exact hfree (hapart.numbered id hid v hv)
    · obtain rfl := only id' hrid
      rw [Symbol.var?, hv] at hv'
      cases hv'
      exact Bool.false_ne_true (hconst'.symm.trans hconst)
  · intro id' v' hv' hrid
    obtain rfl := only id' hrid
    cases hv.symm.trans hv'
    exact hconst
  · have hnone : Allotted 0 ({} : SymbolTable) [] := .of_size_le (le_refl _)
    have hall := (allotted_begin (s := ofOptions options) hnone).append
      happended.allotted hcourse.steps.later
    exact hall id (Nat.zero_le _) hid hvar

end

end Session

/-- Accepted programs write to each constant once: directly behind the instruction that makes room for it, its
first value is stored. -/
theorem constants_writtenOnce_of_compileSource {files : FileTree} {annotate : Bool} {imports : Option Imports}
    {src : Source} {file : String} {code : Code}
    (h : compileSource files { annotate, imports } src file = .ok code) :
    ∃ program after, Program.ofSource src file = .ok program ∧
      (Session.ofOptions { annotate, imports }).compile files annotate program src = (.ok code, after) ∧
      ∀ id, (after.symbols.get id).isConstant = true → WrittenOnce (after.symbols.get id).rid code := by
  obtain ⟨program, hprogram, hcode⟩ := exists_program_of_compileSource h
  refine ⟨program, _, hprogram, Prod.ext hcode rfl, fun id hid => ?_⟩
  exact Session.writtenOnce_of_compile Registry.sober_standard Registry.plain_standard Registry.quiet_standard hcode hid

/-- A program with constants in the global scope, in a function, in a loop and in the head of a loop. -/
def constantSource : Source :=
  Source.ofString <|
    "var n: int const = 1\nfun f(k) \x7b\nvar m: int const = k\nwhile (m > n) \x7b var j: int const = m \x7d\n" ++
    "return m\n\x7d\nfor (var i: int const = 0; i > 1; n) \x7b pass \x7d\n"

/-- The words of its constants. -/
theorem exists_program_constantSource : ∃ p, Program.ofSource constantSource "main" = .ok p ∧
      ((Session.ofOptions {}).compile {} false p constantSource).1.toOption.isSome = true ∧
      (((Session.ofOptions {}).compile {} false p constantSource).2.symbols.symbols.toList.filter
        Symbol.isConstant).map (·.rid) = ["n_0", "m_3", "j_4", "i_5"] := by
  have accepted : (Program.ofSource constantSource "main").toOption.any (fun p =>
      decide (((Session.ofOptions {}).compile {} false p constantSource).1.toOption.isSome = true ∧
        (((Session.ofOptions {}).compile {} false p constantSource).2.symbols.symbols.toList.filter
          Symbol.isConstant).map (·.rid) = ["n_0", "m_3", "j_4", "i_5"])) = true := by
    simp only [Session.compile_named (Session.ofOptions {}) Registry.names_standard]
    rw [constantSource, Source.ofString_append, Source.ofString_ofList, Source.ofString_ofList]
    decide +kernel
  obtain ⟨p, hp, hchecked⟩ := exists_ok_of_any accepted
  exact ⟨p, hp, of_decide_eq_true hchecked⟩

theorem constants_writtenOnce_of_constantSource :
    ∃ code, compileSource {} {} constantSource "main" = .ok code ∧
      ∀ w ∈ ["n_0", "m_3", "j_4", "i_5"], WrittenOnce w code := by
  obtain ⟨p, hp, haccepted, hwords⟩ := exists_program_constantSource
  obtain ⟨code, hcode⟩ : ∃ code, compileSource {} {} constantSource "main" = .ok code := by
    rw [compileSource_of_ofSource hp]
    exact exists_ok_of_isSome haccepted
  refine ⟨code, hcode, fun w hw => ?_⟩
  obtain ⟨program, after, hprogram, hcompile, honce⟩ := constants_writtenOnce_of_compileSource hcode
  cases hp.symm.trans hprogram
  rw [← hwords, hcompile] at hw
  obtain ⟨sym, hsym, rfl⟩ := List.mem_map.mp hw
  obtain ⟨hmem, hconstant⟩ := List.mem_filter.mp hsym
  obtain ⟨id, hid, rfl⟩ := List.getElem_of_mem hmem
  have hget : after.symbols.get id = after.symbols.symbols.toList[id] := by
    rw [Array.length_toList] at hid
    simp [SymbolTable.get, Array.getD_eq_getD_getElem?, hid]
  rw [← hget] at hconstant ⊢
  exact honce id hconstant

end Frontend
