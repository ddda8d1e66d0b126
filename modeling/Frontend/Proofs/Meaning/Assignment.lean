import Frontend.Proofs.Lowering.Assignment
import Frontend.Proofs.Lowering.Function
import Frontend.Proofs.Meaning.Expression

/-!
# The meaning of definitions and assignments

A value is computed and then stored in the variable that the name stands for. The definition of a
variable first gives the name its new meaning, and makes room.
-/

namespace Frontend.Meaning

open SymbolTable Machine

/-- Where lowering has come to behind a statement: names have a meaning again, and the same scopes
are open. -/
structure Reaches (c : Scoping) (round : Option String) (s s' : Lowering) : Prop where
  follows : Follows c round s'
  same : SameScopes s.table s'.table
  grows : Extends s.table s'.table

/-- The passage that was written on the way does what the statement does. -/
structure Goes (c : Scoping) (round : Option String) (st : Stmt) (s : Lowering)
    (code : List Instruction) (s' : Lowering) : Prop extends Reaches c round s s' where
  performs : Performs code st round

variable {visit : Visit} {c : Scoping} {round : Option String} {s s' s'' : Lowering} {n : Node}
  {e : Expr} {st : Stmt} {o : Operand} {code : List Instruction} {lo hi defined : Nat}
  {x : Variable} {β : Type}
variable {c' : Scoping} {id : SymbolId} {name : Ident} {value : Node} {op : Token}
variable {round' : Option String} {f : VariableInfo → VariableInfo} {m m' : Marks} {tag : Tag} {t : SymbolTable}
  {labels : List Label} {Q : List Instruction → β → Lowering → Prop}

theorem Keeps.same (h : Keeps s s') : SameScopes s.table s'.table := .of_eq (by rw [h.table])

theorem Keeps.grows (h : Keeps s s') : Extends s.table s'.table := by
  rw [h.table]
  exact .refl _

theorem Follows.reaches (h : Follows c round s) (hk : Keeps s s') : Reaches c round s s' :=
  ⟨h.keeps hk, hk.same, hk.grows⟩

theorem Reaches.trans (h : Reaches c round s s') (h' : Reaches c' round' s' s'') : Reaches c' round' s s'' :=
  ⟨h'.follows, h.same.trans h'.same, h.grows.trans h'.grows⟩

theorem Goes.after (h : Goes c round st s' code s'') (hr : Reaches c' round' s s') : Goes c round st s code s'' :=
  ⟨hr.trans h.toReaches, h.performs⟩

/-- Statements one after another. -/
theorem Goes.seq {st' : Stmt} {d : List Instruction} (h : Goes c round st s code s')
    (h' : Goes c' round st' s' d s'') : Goes c' round (.seq st st') s (code ++ d) s'' :=
  ⟨h.toReaches.trans h'.toReaches, h.performs.seq h'.performs⟩

theorem Goes.skip (h : Follows c round s) : Goes c round .skip s [] s :=
  ⟨h.reaches (.refl s), performs_skip⟩

/-! ## Storing -/

/-- A value is moved into a variable, unless it is there already. -/
theorem Gives.move (h : Gives code e o lo hi defined) (x : Variable) :
    Emits s (Lower.move o x.rid) fun d _ s' => s'.operands = s.operands ∧ Keeps s s' ∧ Stores d o.raw x := by
  unfold Lower.move
  by_cases hself : o.raw = x.rid
  · rw [if_pos (beq_iff_eq.mpr hself)]
    refine .pure ⟨rfl, .refl s, ?_⟩
    rw [hself]
    exact stores_self x
  · rw [if_neg fun hb => hself (beq_iff_eq.mp hb)]
    by_cases hl : o.isLiteral
    · rw [if_pos hl]
      obtain ⟨n, hn, hraw, -⟩ := h.literal (by simpa [Operand.isLiteral] using hl)
      refine .emit fun s' hk hops _ => ⟨hops, hk, ?_⟩
      refine stores_single ?_ rfl fun e => by cases e
      intro m v hval
      have read := readWord?_of_hasOpposite hn
      rw [hraw] at hval ⊢
      rw [operand?_number m read] at hval
      cases hval
      simp only [compute, read]
      rfl
    · rw [if_neg hl]
      refine .emit fun s' hk hops _ => ⟨hops, hk, ?_⟩
      refine stores_single ?_ rfl fun e => by cases e
      intro m v hval
      simp only [compute, hval]
      rfl

/-- What is known about a variable changes, but not what names stand for. -/
theorem Follows.modify (h : Follows c round s) (ht : s'.table = s.table.modify id (Symbol.mapVariable f))
    (hsupply : s'.supply = s.supply) (hprocessing : s'.processing = s.processing)
    (hf : ∀ v, (f v).init = v.init) : Reaches c round s s' ∧ ∀ j, (s'.table.get j).rid = (s.table.get j).rid := by
  have mild := mild_mapVariable (n := 0) (t := s.table) hf
  have alike : Alike s.table s'.table := by
    rw [ht]
    exact alike_modify (fun sym => (mild sym).rid) fun sym => (mild sym).sort
  have hinner : s'.table.inner = s.table.inner := by rw [ht]; rfl
  have hglobal : s'.table.global = s.table.global := by rw [ht]; rfl
  have grows : Extends s.table s'.table :=
    .of_alike alike (by rw [hglobal]; exact List.Subset.refl _)
  exact ⟨⟨h.of_extends grows hinner (by rw [hglobal]) (by rw [hsupply]) hprocessing,
    .of_eq hinner, grows⟩, alike.rid⟩

/-! ## Labels of variables -/

/-- Marks ask for the global scope if the life cycle they hold is called so. -/
theorem lifeCycle?_eq (m : Marks) : (m.lifeCycle? == some .global) = m.lifeCycleTag.any (·.name == "global") := by
  unfold Marks.lifeCycle?
  cases m.lifeCycleTag with
  | none => rfl
  | some tag =>
    simp only [Option.bind_some, Option.any_some]
    by_cases hg : tag.name = "global"
    · rw [hg]
      decide
    · rw [beq_eq_false_iff_ne.mpr hg]
      have other : [LifeCycle.static, .global, .perInstance].find? (·.text == tag.name) ≠
          some .global := by
        intro hf
        have found := List.find?_some hf
        exact hg (beq_iff_eq.mp found).symm
      exact beq_eq_false_iff_ne.mpr other

/-- One more tag: all life cycles of a declaration have one name. -/
theorem lifeCycle?_add (h : m.add tag = .ok m') : (m'.lifeCycle? == some .global) =
      ((m.lifeCycle? == some .global) || (tag.kind? == some .lifeCycle && tag.name == "global")) := by
  rw [lifeCycle?_eq, lifeCycle?_eq]
  unfold Marks.add at h
  cases tag with
  | missing =>
    cases h
    simp [Tag.kind?]
  | mk kind name rid groups pos =>
    cases kind with
    | type =>
      simp only at h
      split at h
      · cases h
        simp [Tag.kind?]
      · cases h
    | permission =>
      simp only at h
      split at h
      · cases h
      · cases h
        simp [Tag.kind?]
    | lifeCycle =>
      simp only at h
      split at h
      · cases h
      · rename_i hsame
        cases h
        cases hold : m.lifeCycleTag with
        | none => simp [Tag.kind?, Tag.name]
        | some old =>
          rw [hold] at hsame
          have names : old.name = name := by simpa [Tag.name] using hsame
          change (name == "global") = ((old.name == "global") || (true && name == "global"))
          rw [names, Bool.true_and, Bool.or_self]
    | restriction =>
      cases h
      simp [Tag.kind?]
    | role =>
      cases h
      simp [Tag.kind?]

theorem tag_of_label {l : Label} (h : l.tag t = .ok tag) :
    (tag.kind? == some .lifeCycle && tag.name == "global") =
      ((l.token.kind matches .label (.lifeCycle _)) && l.name == "global") := by
  obtain ⟨token, groups⟩ := l
  unfold Label.tag at h
  split at h
  · cases h
  · rename_i kind hkind
    split at h
    · rename_i hident
      have type : tag.kind? = some .type := by
        obtain ⟨id, -, h⟩ := bind_ok h
        dsimp only at h
        split at h
        · cases h
          rfl
        · cases h
      rw [type, show (Label.mk token groups).token = token from rfl, beq_iff_eq.mp hident]
      rfl
    · obtain ⟨tags, -, ⟨⟩⟩ := bind_ok h
      change (some kind == some .lifeCycle && token.literal == "global") =
        ((token.kind matches .label (.lifeCycle _)) && token.literal == "global")
      congr 1
      unfold TagKind.ofToken? at hkind
      split at hkind <;> cases hkind <;> simp_all

/-- The marks of labels ask for the global scope if one of the labels does. -/
theorem lifeCycle?_ofLabels (h : Marks.ofLabels t m labels = .ok m') :
    (m'.lifeCycle? == some .global) = ((m.lifeCycle? == some .global) || isGlobal labels) := by
  induction labels generalizing m with
  | nil =>
    cases h
    simp [isGlobal]
  | cons l labels ih =>
    unfold Marks.ofLabels at h
    obtain ⟨tag, hl, h⟩ := bind_ok h
    obtain ⟨m₁, ha, h⟩ := bind_ok h
    rw [ih h, lifeCycle?_add ha, tag_of_label hl, Bool.or_assoc]
    rfl

theorem Emits.marksOf {what : String} {admitted : List String} {f : Marks → Lower β}
    (hf : ∀ marks, (marks.lifeCycle? == some .global) = isGlobal labels → Emits s (f marks) Q) :
    Emits s (Lower.marksOf labels what admitted >>= f) Q := by
  unfold Lower.marksOf
  rw [Lower.bind_assoc]
  refine .quiet rfl rfl ?_
  rw [Lower.bind_assoc]
  refine .ofExcept fun marks hmarks => ?_
  rw [Lower.bind_assoc]
  exact .refuse (hf marks (by rw [lifeCycle?_ofLabels hmarks]; rfl))

/-! ## Definitions -/

/-- A value goes to its place once the name has its meaning. -/
theorem Gives.place {name : String} (hg : Gives code e o lo hi c.next) (h : Follows c' round s)
    (hf : ∀ v, (f v).init = v.init) : Emits s (do
        Lower.emit .allot [(c.fresh name).rid]
        Lower.move o (c.fresh name).rid
        Lower.changeTable (·.modify id (Symbol.mapVariable f))) fun d _ s' =>
      s'.operands = s.operands ∧ Goes c' round (.assign (c.fresh name) e) s (code ++ d) s' := by
  have fresh : o.raw ≠ (c.fresh name).rid := hg.evaluates.lasting.ne_rid (le_refl _)
  refine .emitBind fun s₁ hk₁ hops₁ _ => ?_
  refine .bind (hg.move (c.fresh name)) ?_
  rintro d _ s₂ ⟨hops₂, hk₂, hstores⟩
  have hk := hk₁.trans hk₂
  refine .changeTable fun s₃ htable₃ hsupply₃ hprocessing₃ hops₃ => ?_
  obtain ⟨hr₃, -⟩ := (h.keeps hk).modify htable₃ hsupply₃ hprocessing₃ hf
  refine ⟨by rw [hops₃, hops₂, hops₁], (h.reaches hk).trans hr₃, ?_⟩
  rw [List.append_nil]
  exact .assign hg.evaluates (hstores.allot fresh)

/-- A variable is entered in the scope it belongs to; its raw id was taken before. -/
theorem Emits.define {sym : Symbol} {global : Bool} {f : SymbolId → Unit → Lower β} (h : Follows c round s)
    (hsort : sym.sort = .variable) (hrid : sym.rid = (c.fresh sym.name).rid) (htable : s'.table = s.table)
    (hrids : s'.supply.rids = s.supply.rids + 1) (hprocessing : s'.processing = s.processing)
    (hf : ∀ id s'', Reaches (c.define global sym.name) round s s'' →
      s''.operands = s'.operands → Emits s'' (f id ()) Q) : Emits s' (do
      let id ← Lower.newSymbol sym
      if global then Lower.tryTable (·.insertGlobal id) >>= f id
      else Lower.insert id >>= f id) Q := by
  refine .newSymbol fun s₂ htable₂ hsupply₂ hprocessing₂ hops₂ => ?_
  rw [htable] at htable₂ ⊢
  have entered : ∀ s₃, s₃.supply = s₂.supply → s₃.processing = s₂.processing →
      s₃.operands = s₂.operands →
      (if global then s₂.table.insertGlobal (s.table.add sym).1
        else s₂.table.insert (s.table.add sym).1) = .ok s₃.table →
      Emits s₃ (f (s.table.add sym).1 ()) Q := by
    intro s₃ hsupply₃ hprocessing₃ hops₃ hi
    rw [htable₂] at hi
    have grows : Extends s.table s₃.table := by
      cases global
      · exact (adds_insertAt hi).grows
      · exact (adds_insertAt hi).grows
    obtain ⟨h₃, hsame₃⟩ := h.define hsort hrid hi (by rw [hsupply₃, hsupply₂, hrids])
      (by rw [hprocessing₃, hprocessing₂, hprocessing])
    exact hf _ s₃ ⟨h₃, hsame₃, grows⟩ (hops₃.trans hops₂)
  cases global
  all_goals
    refine .bind (.tryTable (Q := fun d _ s₃ => d = [] ∧ Emits s₃ (f (s.table.add sym).1 ()) Q) ?_) ?_
    · intro s₃ hi hsupply₃ hprocessing₃ hops₃
      exact ⟨rfl, entered s₃ hsupply₃ hprocessing₃ hops₃ hi⟩
    · rintro d _ s₃ ⟨rfl, hemits⟩
      exact hemits

/-- A variable is defined with a value that was computed. -/
theorem Gives.introduce {marks : Marks} (hg : Gives code e o lo s.supply.temps c.next) (h : Follows c round s) :
    Emits s (Lower.introduce name marks (some o)) fun d _ s' => s'.operands = s.operands ∧
      Goes (c.define (marks.lifeCycle? == some .global) name.name) round
        (.assign (c.fresh name.name) e) s (code ++ d) s' := by
  unfold Lower.introduce
  refine .freshRid fun s₁ htable₁ hrids₁ _ hprocessing₁ hops₁ => ?_
  rw [h.next]
  refine .define h rfl rfl htable₁ hrids₁ hprocessing₁ fun id s₂ hr₂ hops₂ => ?_
  refine .weaken (hg.place hr₂.follows ?_) ?_
  · exact fun _ => rfl
  · rintro d _ s₃ ⟨hops₃, hgoes⟩
    exact ⟨by rw [hops₃, hops₂, hops₁], hgoes.after hr₂⟩

theorem ValueOk.defineVariable (hv : ValueOk visit) (hn : Expr.ofNode? c value = some e) (h : Follows c round s) :
    Emits s (Lower.defineVariable visit name (some value)) fun code _ s' =>
      s'.operands = s.operands ∧ Goes (c.define (isGlobal name.labels) name.name) round
        (.assign (c.fresh name.name) e) s code s' := by
  unfold Lower.defineVariable
  refine .marksOf fun marks hmarks => ?_
  refine .bind (hv.eval hn h) ?_
  rintro code o s₁ ⟨hops₁, hk₁, hg⟩
  refine .quiet rfl rfl (.unless fun _ => .quiet rfl rfl ?_)
  change Emits s₁ (Lower.introduce name marks (some o)) _
  rw [← hmarks]
  refine (hg.introduce (h.keeps hk₁)).weaken ?_
  rintro d _ s₂ ⟨hops₂, hgoes⟩
  exact ⟨hops₂.trans hops₁, hgoes.after (h.reaches hk₁)⟩

theorem ValueOk.defineVariables (hv : ValueOk visit) {names : List Ident}
    {values : List (Option Node)} (hn : Stmt.ofDefinitions? c names values = some (st, c'))
    (h : Follows c round s) : Emits s (Lower.defineVariables visit names values) fun code _ s' =>
      s'.operands = s.operands ∧ Goes c' round st s code s' := by
  induction names generalizing values c s st with
  | nil =>
    cases hn
    exact .pure ⟨rfl, .skip h⟩
  | cons name names ih =>
    cases values with
    | nil =>
      cases hn
      exact .pure ⟨rfl, .skip h⟩
    | cons value values =>
      cases value with
      | none =>
        rw [Stmt.ofDefinitions?] at hn
        exact nomatch hn
      | some value =>
        simp only [Stmt.ofDefinitions?, Option.bind_eq_bind, Option.bind_eq_some_iff] at hn
        obtain ⟨e, he, ⟨rest, after⟩, hrest, ⟨⟩⟩ := hn
        refine .bind (hv.defineVariable he h) ?_
        rintro code _ s₁ ⟨hops₁, hgoes₁⟩
        refine (ih hrest hgoes₁.follows).weaken ?_
        rintro d _ s₂ ⟨hops₂, hgoes₂⟩
        exact ⟨hops₂.trans hops₁, hgoes₁.seq hgoes₂⟩

/-! ## Assignments -/

/-- The place that a name stands for as the target of an assignment. -/
theorem emits_resolveTarget (hx : c.find? name.name = some x) (h : Follows c round s) :
    Emits s (Lower.resolveTarget visit (.ident name)) fun d place s' => d = [] ∧ s' = s ∧
      ∃ id, place = .slot id ∧ (s.table.get id).rid = x.rid := by
  unfold Lower.resolveTarget
  refine .unless fun _ => .quiet rfl rfl ?_
  cases hl : s.table.lookup name.name name.token.pos with
  | error d => exact .quiet (implicitMember_outside h.processing _) rfl Emits.fail
  | ok id =>
    by_cases hvar : (s.table.get id).var?.isSome = true
    · simp only [hvar, if_true]
      obtain ⟨v, hv⟩ := Option.isSome_iff_exists.mp hvar
      have target : (s.table.get id).sort ≠ .target := by
        rw [Symbol.sort_of_var hv]
        exact fun e => nomatch e
      exact .pure ⟨rfl, rfl, id, rfl, (h.lookup hx hl target).2⟩
    · simp only [hvar]
      exact .fail

/-- A variable that must keep its value is refused. -/
theorem emits_checkConst : Emits s (Lower.checkConst (.slot id) n) fun d _ s' => d = [] ∧ s' = s := by
  unfold Lower.checkConst
  refine .quiet rfl rfl ?_
  by_cases hc : (((s.table.get id).var?).getD {}).const = true
  · simp only [hc, if_true]
    exact .quiet rfl rfl Emits.fail
  · simp only [hc]
    exact .pure ⟨rfl, rfl⟩

/-- An assigned value is checked, remembered and stored. -/
theorem Gives.settle (hg : Gives code e o lo hi defined) (hid : (s.table.get id).rid = x.rid)
    (h : Follows c round s) : Emits s (Lower.settle (.slot id) value o) fun d _ s' =>
      (∃ new, s'.operands = new ++ s.operands) ∧ Goes c round (.assign x e) s (code ++ d) s' := by
  have stored : ∀ s₁, Follows c round s₁ → (s₁.table.get id).rid = x.rid →
      Emits s₁
        (do
          Lower.storeTarget (.slot id) o
          Lower.push (.ofSymbol (← Lower.table) id)) fun d _ s' =>
        (∃ new, s'.operands = new ++ s₁.operands) ∧
          Goes c round (.assign x e) s₁ (code ++ d) s' := by
    intro s₁ h₁ hid₁
    refine .bind (R := fun d _ s₂ => s₂.operands = s₁.operands ∧ Keeps s₁ s₂ ∧ Stores d o.raw x) ?_ ?_
    · unfold Lower.storeTarget
      refine .quiet rfl rfl ?_
      rw [show (s₁.session.symbols.get id).rid = x.rid from hid₁]
      exact hg.move x
    · rintro d _ s₂ ⟨hops₂, hk₂, hstores⟩
      refine .quiet rfl rfl (.push fun s₃ hk₃ hops₃ _ => ?_)
      rw [hops₂] at hops₃
      have hk := hk₂.trans hk₃
      refine ⟨⟨[_], hops₃⟩, h₁.reaches hk, ?_⟩
      rw [List.append_nil]
      exact .assign hg.evaluates hstores
  unfold Lower.settle
  refine .quiet rfl rfl (.unless fun _ => ?_)
  by_cases hany : (((s.table.get id).var?).getD {}).type.isAny = true
  · simp only [hany, if_true]
    refine .bind (R := fun d _ s₁ => d = [] ∧ s₁.operands = s.operands ∧
      Reaches c round s s₁ ∧ ∀ j, (s₁.table.get j).rid = (s.table.get j).rid) ?_ ?_
    · refine .changeTable fun s₁ htable₁ hsupply₁ hprocessing₁ hops₁ => ?_
      exact ⟨rfl, hops₁, h.modify htable₁ hsupply₁ hprocessing₁ fun _ => rfl⟩
    · rintro d _ s₁ ⟨rfl, hops₁, hr₁, hrid₁⟩
      refine (stored s₁ hr₁.follows (by rw [hrid₁, hid])).weaken ?_
      rintro d _ s₂ ⟨hops₂, hgoes⟩
      rw [hops₁] at hops₂
      exact ⟨hops₂, hgoes.after hr₁⟩
  · simp only [hany]
    exact stored s h hid

/-- The operator of a compound assignment without its equals sign. -/
theorem arith_of_compound {a : Arith} (h : Arith.ofCompound? op.literal = some a) :
    (Operator.ofText? (Lower.compoundWord op)).bind Relation.ofOperator? = none ∧
      Arith.ofText? (Lower.compoundWord op) = some a := by
  unfold Lower.compoundWord
  unfold Arith.ofCompound? at h
  split at h
  · rename_i hop
    cases h
    rw [hop]
    decide
  · rename_i hop
    cases h
    rw [hop]
    decide
  · rename_i hop
    cases h
    rw [hop]
    decide
  · cases h

theorem ValueOk.assign {target : Node} (hv : ValueOk visit)
    (hn : Stmt.ofAssignment? c target op value = some (st, c')) (h : Follows c round s) :
    Emits s (Lower.assign visit target op value n) fun code _ s' =>
      (∃ new, s'.operands = new ++ s.operands) ∧ Goes c' round st s code s' := by
  unfold Stmt.ofAssignment? at hn
  split at hn
  · rename_i name
    simp only [Option.bind_eq_bind, Option.bind_eq_some_iff] at hn
    obtain ⟨e, he, x, hx, hn⟩ := hn
    unfold Lower.assign
    refine .bind (hv.eval he h) ?_
    rintro code given s₁ ⟨hops₁, hk₁, hg⟩
    have h₁ := h.keeps hk₁
    refine .bind (emits_resolveTarget hx h₁) ?_
    rintro _ _ s₁ ⟨rfl, rfl, id, rfl, hid⟩
    refine .bind emits_checkConst ?_
    rintro _ _ s₁ ⟨rfl, rfl⟩
    by_cases hop : (op.kind == .op .assign) = true
    · simp only [hop, if_true] at hn ⊢
      cases hn
      refine .quiet rfl rfl ?_
      change Emits _ (Lower.settle (.slot id) value given) _
      refine (hg.settle hid h₁).weaken ?_
      rintro d _ s₂ ⟨hops₂, hgoes⟩
      rw [hops₁] at hops₂
      exact ⟨hops₂, hgoes.after (h.reaches hk₁)⟩
    · simp only [hop] at hn ⊢
      obtain ⟨a, ha, ⟨⟩⟩ := Option.bind_eq_some_iff.mp hn
      obtain ⟨hnone, hword⟩ := arith_of_compound ha
      obtain ⟨hraw, -⟩ := ofSymbol_shape s₁.table id
      have current : Evaluates [] (.var x) (Operand.ofSymbol s₁.table id).raw s.supply.temps
          s.supply.temps c.next := by
        rw [hraw, hid]
        exact evaluates_var (h.number_lt hx)
      refine .quiet (a := .ofSymbol s₁.table id) rfl rfl ?_
      refine Emits.bind (Gives.arith hnone hword current hg) ?_
      rintro d result s₂ ⟨hops₂, hk₂, hresult⟩
      have hk := hk₁.trans hk₂
      change Emits _ (Lower.settle (.slot id) value result) _
      refine (hresult.settle (by rw [hk₂.table]; exact hid) (h₁.keeps hk₂)).weaken ?_
      rintro d' _ s₃ ⟨hops₃, hgoes⟩
      rw [hops₂, hops₁] at hops₃
      refine ⟨hops₃, ?_⟩
      have whole := hgoes.after (h.reaches hk)
      simpa only [List.nil_append, List.append_assoc] using whole
  · cases hn

/-- A number is added to a variable; the operator decides on the number. -/
theorem emits_count {i : Int} (hx : c.find? name.name = some x)
    (hop : (if op.kind == .op .decrement then -1 else 1) = i) (hi : Decimal.inWord i = true)
    (he : ∀ σ, e.eval σ = (σ x).map (·.add (.int i))) (h : Follows c round s) :
    Emits s (Lower.increment visit (.ident name) op n) fun code _ s' =>
      (∃ new, s'.operands = new ++ s.operands) ∧ Goes c round (.assign x e) s code s' := by
  unfold Lower.increment
  refine .bind (emits_resolveTarget hx h) ?_
  rintro _ _ s ⟨rfl, rfl, id, rfl, hid⟩
  refine .bind emits_checkConst ?_
  rintro _ _ s ⟨rfl, rfl⟩
  refine .quiet (a := .ofSymbol s.table id) rfl rfl ?_
  obtain ⟨hraw, -⟩ := ofSymbol_shape s.table id
  refine .unless fun _ => ?_
  refine .freshTemp fun s₁ hk₁ hops₁ _ => ?_
  refine .emitBind fun s₂ hk₂ hops₂ _ => ?_
  refine .emitBind fun s₃ hk₃ hops₃ _ => ?_
  refine .push fun s₄ hk₄ hops₄ _ => ?_
  rw [hops₃, hops₂, hops₁] at hops₄
  have hk := ((hk₁.trans hk₂).trans hk₃).trans hk₄
  refine ⟨⟨[_], hops₄⟩, h.reaches hk, ?_⟩
  rw [hop, hraw, hid]
  exact performs_increment (Word.readWord?_ofInt hi) he

theorem emits_increment {operand : Node} (hn : Stmt.ofIncrement? c operand op = some (st, c'))
    (h : Follows c round s) : Emits s (Lower.increment visit operand op n) fun code _ s' =>
      (∃ new, s'.operands = new ++ s.operands) ∧ Goes c' round st s code s' := by
  unfold Stmt.ofIncrement? at hn
  split at hn
  · rename_i name hop
    obtain ⟨x, hx, ⟨⟩⟩ := Option.bind_eq_some_iff.mp hn
    refine emits_count (i := 1) hx (by rw [hop]; rfl) (by decide) ?_ h
    intro σ
    simp only [Expr.eval]
    cases σ x <;> rfl
  · rename_i name hop
    obtain ⟨x, hx, ⟨⟩⟩ := Option.bind_eq_some_iff.mp hn
    refine emits_count (i := -1) hx (by rw [hop]; rfl) (by decide) ?_ h
    intro σ
    simp only [Expr.eval]
    cases σ x with
    | none => rfl
    | some v => exact congrArg some (v.add_int_neg 1).symm
  · cases hn

end Frontend.Meaning
