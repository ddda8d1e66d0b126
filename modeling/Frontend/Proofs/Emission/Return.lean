import Frontend.Proofs.Binding.Exact
import Frontend.Proofs.Code.Flow
import Frontend.Proofs.Trace.Basic

/-!
# Functions that return

A function with a result ends with a return unless a return was seen in it, and the object of a constructor is
returned at its end in any case. So control can come to the end of such a function only where a return was seen and
there is a way through the body that does not come to one.
-/

namespace Frontend

variable {ns : List Node} {tests : List Condition} {r : Region} {n : Node} {b : Block} {f : FunctionInfo}
  {sym : Symbol} {token : Token} {id : SymbolId} {finish : Position}

/-! ## Ways through a body -/

mutual
/-- Whether every way through a node comes to a return. A loop may be left before its body is gone through. -/
def Node.returns : Node → Bool
  | .returnFrom _ _ => true
  | .block b => b.returns
  | .parallel ns => Node.someReturns ns
  | .branch tests (some b) => Condition.allReturn tests && b.returns
  | _ => false
def Node.someReturns : List Node → Bool
  | [] => false
  | n :: ns => n.returns || Node.someReturns ns
def Block.returns : Block → Bool
  | .mk _ _ items => Node.someReturns items
/-- Whether what is done returns, whichever test holds. -/
def Condition.allReturn : List Condition → Bool
  | [] => true
  | .mk _ _ body :: tests => body.returns && Condition.allReturn tests
end

theorem Node.someReturns_eq_false : Node.someReturns ns = false ↔ ∀ n ∈ ns, n.returns = false := by
  induction ns with
  | nil => simp [Node.someReturns]
  | cons n ns ih => simp [Node.someReturns, ih]

theorem Block.returns_eq (b : Block) : b.returns = Node.someReturns b.items := by
  cases b
  rw [Block.returns, Block.items]

theorem Condition.allReturn_eq_true : Condition.allReturn tests = true ↔ ∀ c ∈ tests, c.body.returns = true := by
  induction tests with
  | nil => simp [Condition.allReturn]
  | cons c tests ih =>
    cases c
    simp [Condition.allReturn, ih, Condition.body]

open SymbolTable Region Lower

variable {falls falls' : Prop} {known known' : Set String} {s s' : Lowering} {visit : Visit} {α β : Type}

/-! ## Steps that control runs through -/

/-- Whenever the step succeeds, it has written a region that control runs through; lowering can go on, and its
result has a property. -/
def Leads (falls : Prop) (known : Set String) (s : Lowering) {α : Type} (p : Lower α)
    (Q : Set String → α → Lowering → Prop) : Prop :=
  ∀ a s', p s = (.ok a, s') → ∃ (r : Region) (known' : Set String), r.Proper ∧
    s'.out = s.out.append r.flatten ∧ r.Runs falls ∧
    Grows known s known' s' ∧ Ready .function known' s' ∧ Q known' a s'

/-- Where nothing but a function is around, the jumps of a region stay inside. -/
theorem Region.Fits.uses_subset {free : Set String} (h : r.Fits .function free known) : r.uses ⊆ r.sets :=
  fun _ hl => (h.uses _ hl).resolve_right id

namespace Leads

variable {Q : Set String → α → Lowering → Prop}

theorem of_does (h : Does .function known s p Q) : Leads True known s p Q := by
  intro a s' hp
  obtain ⟨r, hr, hsees, hQ⟩ := h a s' hp
  exact ⟨r, _, hr.fits.proper, hr.out, runs_of_contained hr.fits.proper hr.fits.contained hr.fits.uses_subset,
    hr.grows, ⟨hr.stable, hsees⟩, hQ⟩

/-- A step that ends with a return. -/
theorem of_return (h : Does .function known s p Q) (hlast : ∀ a s', p s = (.ok a, s') →
    ∃ code args, s'.out = s.out.append (code ++ [CodeItem.instr ⟨.ret, args⟩])) : Leads False known s p Q := by
  intro a s' hp
  obtain ⟨r, hr, hsees, hQ⟩ := h a s' hp
  obtain ⟨code, args, hout⟩ := hlast a s' hp
  have hcode : r.flatten.instructions = Code.instructions code ++ [⟨.ret, args⟩] := by
    rw [CodeBuffer.append_injective _ (hr.out.symm.trans hout), Code.instructions_append]
    rfl
  exact ⟨r, _, hr.fits.proper, hr.out,
    runs_of_return hr.fits.proper hr.fits.contained hr.fits.uses_subset hcode, hr.grows, ⟨hr.stable, hsees⟩, hQ⟩

theorem mono (h : Leads falls known s p Q) (hi : falls → falls') : Leads falls' known s p Q := by
  intro a s' hp
  obtain ⟨r, known', hproper, hout, hruns, hrest⟩ := h a s' hp
  exact ⟨r, known', hproper, hout, hruns.mono hi, hrest⟩

variable {Q : Set String → β → Lowering → Prop}

theorem bind {p : Lower α} {f : α → Lower β} {R : Set String → α → Lowering → Prop} (hp : Leads falls known s p R)
    (hf : ∀ known' a s', Grows known s known' s' → Ready .function known' s' → R known' a s' →
      Leads falls' known' s' (f a) Q) : Leads (falls ∧ falls') known s (p >>= f) Q := by
  intro b s'' h
  obtain ⟨a, s', hpa, hfa⟩ := bind_eq_ok.mp h
  obtain ⟨r, known', hproper, hout, hruns, hgrows, hready, hR⟩ := hp a s' hpa
  obtain ⟨r', known'', hproper', hout', hruns', hgrows', hready', hQ⟩ := hf known' a s' hgrows hready hR b s'' hfa
  refine ⟨r.append r', known'', proper_append hproper hproper', ?_, hruns.append hproper hruns',
    hgrows.trans hgrows', hready', hQ⟩
  rw [hout', hout, flatten_append, CodeBuffer.append_append]

/-- A step that writes nothing, in front of another one. -/
theorem quiet {p : Lower α} {f : α → Lower β} {a : α}
    (hp : p s = (.ok a, s')) (hout : s'.out = s.out) (hgrows : Grows known s known s')
    (hf : Leads falls known s' (f a) Q) : Leads falls known s (p >>= f) Q := by
  intro b s'' h
  obtain ⟨a', s₁, hpa, hfa⟩ := bind_eq_ok.mp h
  cases hp.symm.trans hpa
  obtain ⟨r, known', hproper, hout', hruns, hgrows', hrest⟩ := hf b s'' hfa
  exact ⟨r, known', hproper, hout'.trans (by rw [hout]), hruns, hgrows.trans hgrows', hrest⟩

/-- A question is answered on the spot. -/
theorem ask {g : Lowering → α} {f : α → Lower β}
    (h : Leads falls known s (f (g s)) Q) : Leads falls known s (Lower.ask g >>= f) Q := h

/-- Steps one after another; control gets past them if it gets past each. -/
theorem forAll {f : β → Lower Unit} {falls : β → Prop} :
    ∀ {bs : List β} {known : Set String} {s : Lowering}, Ready .function known s →
      (∀ b ∈ bs, ∀ known' s', Grows known s known' s' → Ready .function known' s' →
        Leads (falls b) known' s' (f b) Whatever) →
      Leads (∀ b ∈ bs, falls b) known s (Lower.forAll f bs) Whatever := by
  intro bs
  induction bs with
  | nil =>
    intro known s h _
    exact (of_does (.pure h trivial)).mono fun _ _ hb => absurd hb List.not_mem_nil
  | cons b bs ih =>
    intro known s h hf
    refine (bind (hf b List.mem_cons_self known s (.refl _ _) h) fun known' _ s' hg hready _ => ?_).mono
      (List.forall_mem_cons.mpr)
    exact ih hready fun c hc known'' s'' hg' => hf c (List.mem_cons_of_mem _ hc) known'' s'' (hg.trans hg')

/-- A step above some operands; they are dropped again with all operands above them. -/
theorem forEffect {p q : Lower Unit} (above : List Operand) (hq : q s = p { s with operands := above ++ s.operands })
    (h : Leads falls known { s with operands := above ++ s.operands } p Whatever) :
    Leads falls known s (Lower.forEffect q) Whatever := by
  intro a s' hs
  obtain ⟨t, hp, rfl⟩ := Lower.exists_of_ensuring hs
  obtain ⟨r, known', hproper, hout, hruns, hgrows, hready, -⟩ := h a t (hq.symm.trans hp)
  obtain ⟨new, hnew, -⟩ := hgrows.operands
  refine ⟨r, known', hproper, hout, hruns, ?_, ⟨⟨hready.stable.builtins, hready.stable.ordered⟩, hready.sees⟩,
    trivial⟩
  refine ⟨hgrows.known, hgrows.table, hgrows.rids, hgrows.same, [], ?_, List.forall_mem_nil _⟩
  exact truncate_append t (new ++ above) s.operands (by simpa using hnew)

theorem exec (h : Leads falls known s (visit n) Whatever) : Leads falls known s (Lower.exec visit n) Whatever :=
  forEffect [] rfl h

/-- Items, of which one returns. -/
theorem items (h : Ready .function known s) (hvisit : ∀ n ∈ ns, ∀ known' s', Ready .function known' s' →
      Leads (n.returns = false) known' s' (visit n) Whatever) :
    Leads (Node.someReturns ns = false) known s (Lower.items visit ns) Whatever := by
  refine (forAll h fun n hn known' s' _ h' => ?_).mono Node.someReturns_eq_false.mpr
  refine (bind (of_does (.annotate h')) fun known'' _ s'' _ h'' _ => exec (hvisit n hn known'' s'' h'')).mono ?_
  exact And.right

/-- A step in a scope of its own. -/
theorem inScope {kind : ScopeKind} {p : Lower Unit} (h : Ready .function known s) (hk : kind ≠ .function)
    (hdoes : Does .function known s (Lower.inScope kind p) Whatever)
    (hp : ∀ t, Ready .function known t → Leads falls known t p Whatever) :
    Leads falls known s (Lower.inScope kind p) Whatever := by
  intro a s' hs
  obtain ⟨r, hr, hsees, -⟩ := hdoes a s' hs
  have opened : Ready .function known { s with
      session := { s.session with symbols := s.table.enter kind }
      scopes := kind :: s.scopes } :=
    ⟨⟨h.stable.builtins, ordered_enter h.stable.ordered kind⟩, scoped_enter h.sees hk⟩
  obtain ⟨after, hq, rfl⟩ := Lower.exists_of_inScope hs
  obtain ⟨r', known', hproper, hout, hruns, -⟩ := hp _ opened a after hq
  exact ⟨r', _, hproper, hout, hruns, hr.grows, ⟨hr.stable, hsees⟩, trivial⟩

theorem block (hv : VisitOk visit) (hb : ∀ n ∈ b.items, n.WellRead) (h : Ready .function known s)
    (hvisit : ∀ n ∈ b.items, ∀ known' s', Ready .function known' s' →
      Leads (n.returns = false) known' s' (visit n) Whatever) :
    Leads (b.returns = false) known s (Lower.block visit b) Whatever := by
  rw [Block.returns_eq]
  exact inScope h ScopeKind.noConfusion (.block hv hb h) fun t ht => items ht hvisit

/-! ## Returns -/

theorem returnNothing (h : Ready .function known s) :
    Leads False known s (Lower.returnNothing sym f token) Whatever := by
  refine of_return (.returnNothing h trivial) fun a s' hs => ?_
  unfold Lower.returnNothing at hs
  split at hs
  · obtain ⟨w, s₁, ⟨⟩, hs⟩ := bind_eq_ok.mp hs
    cases hs
    exact ⟨[], _, rfl⟩
  split at hs
  · cases hs
    exact ⟨[], _, rfl⟩
  split at hs
  · cases hs
    exact ⟨[], _, rfl⟩
  · cases hs

theorem returnValue {value : Node} (hv : VisitOk visit) (hn : value.WellRead) (h : Ready .function known s) :
    Leads False known s (Lower.returnValue visit sym f value) Whatever := by
  refine of_return (.returnValue hv hn h trivial) fun a s' hs => ?_
  unfold Lower.returnValue at hs
  split at hs
  · cases hs
  obtain ⟨o, s₁, ho, hs⟩ := bind_eq_ok.mp hs
  obtain ⟨r, hr, -⟩ := hv.eval hn h o s₁ ho
  obtain ⟨t, s₂, ⟨⟩, hs⟩ := bind_eq_ok.mp hs
  split at hs
  · cases hs
  · cases hs
    refine ⟨r.flatten, [o.raw], ?_⟩
    rw [CodeBuffer.append_append, ← hr.out]
    rfl

theorem returnFrom {value : Option Node} (hv : VisitOk visit) (hn : ∀ n, value = some n → n.WellRead)
    (h : Ready .function known s) : Leads False known s (Lower.returnFrom visit token value) Whatever := by
  unfold Lower.returnFrom
  refine ask (ask ?_)
  split
  · rename_i id _ _ _
    have mild : ∀ sym, Mild s.supply.rids s.table sym (sym.mapFunction fun f => { f with returned := true }) :=
      mild_mapFunction fun _ => .inl rfl
    refine (bind (of_does (.modify h mild)) fun known₁ _ s₁ _ h₁ _ => ?_).mono And.right
    refine ask ?_
    cases value with
    | none => exact returnNothing h₁
    | some n => exact returnValue hv (hn n rfl) h₁
  · rintro a s' ⟨⟩

/-! ## Branches -/

/-- The placing of a label. -/
theorem place {l : String} (hclean : Word.Clean l) (h : Ready .function known s) :
    Leads True known s (Lower.emit .set [l]) Whatever := by
  rintro a s' ⟨⟩
  have hproper : (Region.item ⟨.set, [l]⟩ .nil).Proper :=
    ⟨⟨Opcode.noConfusion, rfl, Opcode.noConfusion, by simpa using hclean⟩, trivial⟩
  have hcontained : (Region.item ⟨.set, [l]⟩ .nil).Contained False True :=
    ⟨⟨Opcode.noConfusion, fun _ => trivial⟩, trivial⟩
  exact ⟨.item ⟨.set, [l]⟩ .nil, known, hproper, rfl, runs_of_contained hproper hcontained (List.nil_subset _),
    ⟨subset_rfl, .refl _, le_refl _, .of_eq rfl, [], rfl, List.forall_mem_nil _⟩,
    ⟨⟨h.stable.builtins, h.stable.ordered⟩, h.sees⟩, trivial⟩

/-- A step that writes a test with what is done when it holds. -/
theorem guarded {word skip finish : String} {p : Lower Unit} (hclean : ∀ w ∈ [word, finish, skip], Word.Clean w)
    (h : Ready .function known s) (hp : ∀ s', Ready .function known s' → Leads False known s' p Whatever) :
    Leads True known s (do
      Lower.emit .jumpIfFalse [word, skip]
      p
      Lower.emit .jump [finish]
      Lower.emit .set [skip]) Whatever := by
  intro a s' hs
  obtain ⟨_, s₁, ⟨⟩, hs⟩ := bind_eq_ok.mp hs
  obtain ⟨_, s₂, hbody, hs⟩ := bind_eq_ok.mp hs
  obtain ⟨_, s₃, ⟨⟩, hset⟩ := bind_eq_ok.mp hs
  cases hset
  obtain ⟨r, known', hproper, hout, hruns, hgrows, hready, -⟩ :=
    hp { s with out := s.out.emit .jumpIfFalse [word, skip] } ⟨⟨h.stable.builtins, h.stable.ordered⟩, h.sees⟩ _ s₂
      hbody
  refine ⟨Region.guarded word skip finish r, known', proper_guarded hproper hclean, ?_,
    runs_guarded hproper hclean hruns, ⟨hgrows.known, hgrows.table, hgrows.rids, hgrows.same, hgrows.operands⟩,
    ⟨⟨hready.stable.builtins, hready.stable.ordered⟩, hready.sees⟩, trivial⟩
  change (s₂.out.append [.instr ⟨.jump, [finish]⟩]).append [.instr ⟨.set, [skip]⟩] = _
  rw [hout, show s.out.emit .jumpIfFalse [word, skip] = s.out.append [.instr ⟨.jumpIfFalse, [word, skip]⟩] from rfl,
    ← CodeBuffer.append_append, ← CodeBuffer.append_append, ← CodeBuffer.append_append]
  simp [Region.guarded, flatten]

theorem condition {c : Condition} (hv : VisitOk visit) (htest : c.test.WellRead) (h : Ready .function known s)
    (hend : ∀ o rest, s.operands = o :: rest → o.kind = .label → Word.Clean o.raw)
    (hbody : ∀ known' s', Ready .function known' s' → Leads False known' s' (visit (.block c.body)) Whatever) :
    Leads True known s (Lower.condition visit c) Whatever := by
  unfold Lower.condition
  refine ask ?_
  split
  · rintro a s' ⟨⟩
  · rename_i finish hfinish
    have hclean : Word.Clean finish := by
      split at hfinish
      · rename_i o rest hops
        split at hfinish
        · rename_i hkind
          cases hfinish
          exact hend o rest hops (by simpa using hkind)
        · cases hfinish
      · cases hfinish
    refine mono (?_ : Leads (True ∧ True ∧ True) known s _ _) fun _ => trivial
    refine bind (of_does (hv.eval htest h)) ?_
    rintro known₁ o s₁ - h₁ ⟨ho, -⟩
    refine bind (of_does (.materialize h₁ ho)) ?_
    rintro known₂ test s₂ - h₂ ⟨htest, -⟩
    refine quiet rfl rfl ⟨subset_rfl, .refl _, le_refl _, .of_eq rfl, [], rfl, List.forall_mem_nil _⟩ ?_
    refine guarded ?_ ⟨⟨h₂.stable.builtins, h₂.stable.ordered⟩, h₂.sees⟩ fun s' hs' => hbody known₂ s' hs'
    intro w hw
    simp only [List.mem_cons, List.not_mem_nil, or_false] at hw
    rcases hw with rfl | rfl | rfl
    · exact htest.raw.1
    · exact hclean
    · exact .inl (Word.plain_label _)

/-- A chain of tests after each of which a return is come to. -/
theorem branch (hv : VisitOk visit) (htests : ∀ c ∈ tests, c.test.WellRead) (h : Ready .function known s)
    (hbodies : ∀ c ∈ tests, ∀ known' s', Ready .function known' s' →
      Leads False known' s' (visit (.block c.body)) Whatever)
    (hb : ∀ known' s', Ready .function known' s' → Leads False known' s' (visit (.block b)) Whatever) :
    Leads False known s (Lower.branch visit tests (some b)) Whatever := by
  unfold Lower.branch
  refine quiet rfl rfl ⟨subset_rfl, .refl _, le_refl _, .of_eq rfl, [], rfl, List.forall_mem_nil _⟩ ?_
  refine forEffect (p := do
    Lower.forAll (Lower.condition visit) tests
    visit (.block b)
    Lower.emit .set [Word.label s.supply.labels]) [.label (Word.label s.supply.labels)] rfl ?_
  have hclean : Word.Clean (Word.label s.supply.labels) := .inl (Word.plain_label _)
  have ready : Ready .function known { s with
      session := { s.session with supply := s.supply.label.2 }
      operands := .label (Word.label s.supply.labels) :: s.operands } :=
    ⟨⟨h.stable.builtins, h.stable.ordered⟩, h.sees⟩
  have hall : ∀ {s₀ : Lowering}, Ready .function known s₀ →
      s₀.operands = .label (Word.label s.supply.labels) :: s.operands →
      Leads (∀ c ∈ tests, True) known s₀ (Lower.forAll (Lower.condition visit) tests) Whatever := by
    intro s₀ h₀ htop
    refine forAll h₀ fun c hc known₁ s₁ hg h₁ => condition hv (htests c hc) h₁ ?_ (hbodies c hc)
    intro o rest hops hkind
    obtain ⟨new, hnew, hlabel⟩ := hg.operands
    rw [hops, htop] at hnew
    cases new with
    | nil =>
      cases hnew
      exact hclean
    | cons x new =>
      cases hnew
      exact absurd hkind (hlabel o List.mem_cons_self)
  exact (bind (hall ready rfl) fun known₁ _ s₁ _ h₁ _ =>
    bind (hb known₁ s₁ h₁) fun known₂ _ s₂ _ h₂ _ => place hclean h₂).mono fun hf => hf.2.1

end Leads

/-- Control gets past what a node in a function writes only if some way through the node does not return. -/
theorem leads_visit (levels : Nat) (hn : n.WellRead) (h : Ready .function known s) :
    Leads (n.returns = false) known s (Lower.visit levels n) Whatever := by
  induction levels generalizing n known s with
  | zero => rintro a s' ⟨⟩
  | succ levels ih =>
    by_cases hreturns : n.returns = false
    · exact (Leads.of_does (visit_ok _ hn h)).mono fun _ => hreturns
    have hblock : ∀ {b : Block} {known : Set String} {s : Lowering}, (∀ m ∈ b.items, m.WellRead) →
        Ready .function known s → Leads (b.returns = false) known s (Lower.visit levels (.block b)) Whatever :=
      fun hb h => ih (Node.wellRead_block hb) h
    cases n with
    | returnFrom token value =>
      exact (Leads.returnFrom (visit_ok levels) (fun m hm => hn.child (by simp [Node.children, hm])) h).mono False.elim
    | block b =>
      have hb : ∀ m ∈ b.items, m.WellRead := fun m hm => hn.child hm
      exact .block (visit_ok levels) hb h fun m hm known' s' h' => ih (hb m hm) h'
    | parallel ns =>
      refine (Leads.forAll h fun m hm known' s' _ h' => Leads.exec (ih (hn.child hm) h')).mono ?_
      exact Node.someReturns_eq_false.mpr
    | branch tests otherwise =>
      cases otherwise with
      | none => exact absurd rfl hreturns
      | some b =>
        obtain ⟨htests, hb⟩ : Condition.allReturn tests = true ∧ b.returns = true := by
          rw [Node.returns, Bool.not_eq_false, Bool.and_eq_true] at hreturns
          exact hreturns
        have hread : ∀ c ∈ tests, ∀ m ∈ c.test :: c.body.items, m.WellRead := fun c hc m hm =>
          hn.child (List.mem_append_left _ (List.mem_flatMap.mpr ⟨c, hc, hm⟩))
        have lost : ∀ {b : Block}, b.returns = true → ¬ b.returns = false := by
          intro b hb
          rw [hb]
          exact Bool.noConfusion
        refine (Leads.branch (visit_ok levels) (fun c hc => hread c hc _ List.mem_cons_self) h ?_ ?_).mono False.elim
        · intro c hc known' s' h'
          refine (hblock (fun m hm => hread c hc m (List.mem_cons_of_mem _ hm)) h').mono ?_
          exact lost (Condition.allReturn_eq_true.mp htests c hc)
        · intro known' s' h'
          exact (hblock (fun m hm => hn.child (List.mem_append_right _ hm)) h').mono (lost hb)
    | _ => exact absurd rfl hreturns

/-! ## Bodies of functions -/

/-- The end of a function writes a return, unless a return was seen or the function has no result. -/
theorem epilogue_eq_ok {u : Unit} (hf : ((s.table.get id).function?).getD {} = f)
    (h : Lower.epilogue id finish s = (.ok u, s')) :
    (∃ args, s' = { s with out := s.out.emit .ret args }) ∨
      (s' = s ∧ (f.kind ≠ .construct ∧ f.returned = true ∨ f.returnsValue = false)) := by
  unfold Lower.epilogue at h
  obtain ⟨sym, s₁, ⟨⟩, h⟩ := bind_eq_ok.mp h
  rw [hf] at h
  split at h
  · obtain ⟨w, s₁, ⟨⟩, h⟩ := bind_eq_ok.mp h
    cases h
    exact .inl ⟨_, rfl⟩
  rename_i hkind
  split at h
  · rename_i hreturned
    cases h
    exact .inr ⟨rfl, .inl ⟨by simpa using hkind, hreturned⟩⟩
  split at h
  · cases h
    exact .inl ⟨_, rfl⟩
  split at h
  · rename_i hnothing
    cases h
    exact .inr ⟨rfl, .inr (by rw [FunctionInfo.returnsValue, hnothing]; rfl)⟩
  · cases h

/-- A function with a result is left behind its items only if it is no constructor and a return was seen. -/
theorem Leads.epilogue (h : Ready .function known s) (hf : ((s.table.get id).function?).getD {} = f)
    (hvalue : f.returnsValue = true) :
    Leads (f.kind ≠ .construct ∧ f.returned = true) known s (Lower.epilogue id finish) Whatever := by
  by_cases hfalls : f.kind ≠ .construct ∧ f.returned = true
  · exact (of_does (Does.epilogue h trivial).whatever).mono fun _ => hfalls
  refine (of_return (Does.epilogue h trivial).whatever fun a s' hs => ?_).mono False.elim
  rcases epilogue_eq_ok hf hs with ⟨args, rfl⟩ | ⟨-, hreturned | hnothing⟩
  · exact ⟨[], args, rfl⟩
  · exact absurd hreturned hfalls
  · rw [hvalue] at hnothing
    cases hnothing

theorem Lower.Prelude.ok {levels : Nat} {before : Lower Unit} (h : Lower.Prelude (Lower.visit levels) before) :
    PreludeOk before := by
  cases h with
  | nothing => exact preludeOk_pure
  | fields cls => exact .initInstance (visit_ok _)

/-- Control gets past the inside of a function with a result only if it is no constructor, a return was seen in it
and some way through its body does not return. -/
theorem Inside.exists_runs (i : Inside) (hbody : ∀ n ∈ i.body.items, n.WellRead)
    (h : Ready .function known i.start) (hop : i.op = .funi) : ∃ r : Region, r.Proper ∧ r.flatten = i.code ∧
      r.Runs (i.function.kind ≠ .construct ∧ i.function.returned = true ∧ i.body.returns = false) := by
  have hbefore : PreludeOk i.before := i.prelude.ok
  obtain ⟨_, s₁, hrun₁, hrun⟩ := bind_eq_ok.mp i.run
  obtain ⟨_, s₂, hrun₂, hrun₃⟩ := bind_eq_ok.mp hrun
  obtain ⟨r₁, known₁, hproper₁, hout₁, hruns₁, -, h₁, -⟩ := Leads.of_does (hbefore h) _ _ hrun₁
  have hitems : Leads (i.body.returns = false) known₁ s₁ (Lower.items (Lower.visit i.levels) i.body.items)
      Whatever := by
    rw [Block.returns_eq]
    exact .items h₁ fun n hn known' s' h' => leads_visit _ (hbody n hn) h'
  obtain ⟨r₂, known₂, hproper₂, hout₂, hruns₂, -, h₂, -⟩ := hitems _ _ hrun₂
  have hfunction : ((s₂.table.get i.id).function?).getD {} = i.function := by
    have htable : i.after.table = s₂.table := by
      rcases epilogue_eq_ok rfl hrun₃ with ⟨args, he⟩ | ⟨he, -⟩ <;> rw [he]
    rw [Inside.function, htable]
  have hvalue : i.function.returnsValue = true := by
    unfold Inside.op at hop
    by_contra hn
    rw [if_neg hn] at hop
    cases hop
  obtain ⟨r₃, known₃, hproper₃, hout₃, hruns₃, -⟩ := Leads.epilogue h₂ hfunction hvalue _ _ hrun₃
  refine ⟨r₁.append (r₂.append r₃), proper_append hproper₁ (proper_append hproper₂ hproper₃), ?_, ?_⟩
  · refine CodeBuffer.append_injective i.start.out ?_
    rw [← i.out, hout₃, hout₂, hout₁, flatten_append, flatten_append, CodeBuffer.append_append,
      CodeBuffer.append_append]
  · exact (hruns₁.append hproper₁ (hruns₂.append hproper₂ hruns₃)).mono
      fun hf => ⟨hf.2.2.1, hf.2.2.2, hf.2.1⟩

theorem Region.Runs.of_flatten {r' : Region} (h : r.Runs falls) (he : r'.flatten = r.flatten) : r'.Runs falls := by
  unfold Region.Runs Region.size Region.places at h ⊢
  rw [he]
  exact h

/-! ## Programs -/

section Met

variable {files : FileTree} {options : CompileOptions} {src : Source} {file : String} {p : Program}

theorem itemsOk_only [Setting] {items : List Node → Lower Unit} (h : ItemsOk items) (may : Turn (List Node) → Prop) :
    ItemsOk (Lower.only may items) :=
  fun hns hready a s' hs => h hns hready a s' (of_only_eq_ok hs).2

/-- The nodes that are lowered on the way of compiling a text do what a step may do in this run. -/
theorem visitOk_met (levels : Nat) :
    @VisitOk (.of files options src file) (Lower.met files options src file levels) := by
  induction levels with
  | zero =>
    intro Γ known s n _ _ a s' hs
    obtain ⟨-, ⟨⟩⟩ := of_only_eq_ok hs
  | succ levels ih =>
    intro Γ known s n hn h a s' hs
    obtain ⟨⟨hx, -⟩, hs⟩ := of_only_eq_ok hs
    obtain ⟨may, hrun, hmay⟩ := Lower.visitBodies_met hx hs
    let _ : Setting := .of files options src file
    exact visitBodies_ok ih (itemsOk_only (itemsOk_items ih) may) (within_met hx hmay) hn h a s' hrun

theorem exists_written_in_run {annotate : Bool} {imports : Option Imports} {code : Code}
    (h : compileSource files { annotate, imports } src file = .ok code) :
    ∃ t r, @Written (.of files { annotate, imports } src file) code t r := by
  obtain ⟨p, hp, hcode⟩ := exists_program_of_compileSource h
  let _ : Setting := .of files { annotate, imports } src file
  obtain ⟨r, hr⟩ := written_of_unit rfl rfl rfl (fun ready a s' hs =>
    Does.unit (visitOk_met _) (Program.wellRead_of_ofSource hp) ready a s' (unit_met hp hs)) (Prod.ext hcode rfl)
  exact ⟨_, r, hr⟩

end Met

/-- In an accepted program every function with a result was written by lowering a body that occurs in the program,
and control does not come from its head to its end if it is a constructor, if no return was seen in it, or if every way
through the body comes to a return. -/
theorem not_fallsThrough_of_compileSource {files : FileTree} {annotate : Bool} {imports : Option Imports}
    {src : Source} {file : String} {code : Code}
    (h : compileSource files { annotate, imports } src file = .ok code) {p e : Place}
    (hp : p ∈ places code.instructions) (hop : p.instr.op = .funi)
    (he : Closes (places code.instructions) p.index e) :
    ∃ i : Inside, i.OccursIn files { annotate, imports } src file ∧
      Spans 0 code.instructions p i.code.instructions ∧ p.instr.args.head? = some (i.after.table.get i.id).rid ∧
      (i.function.kind = .construct ∨ i.function.returned = false ∨ i.body.returns = true →
        ¬ FallsThrough (places code.instructions) p e) := by
  obtain ⟨t, r, rfl, fits, once, functions, -⟩ := exists_written_in_run h
  have hregular : Regular (r.places 0 []) := regular_places fits.proper once
  obtain ⟨body, hat, hspans⟩ := exists_functionAt fits.proper functions hp (by rw [hop]; rfl)
  obtain ⟨i, hoccurs, hread, hready, hi, hrid, hbody⟩ := hat.known
  refine ⟨i, hoccurs, hbody ▸ hspans, hrid, fun hreturns => ?_⟩
  obtain ⟨r', -, hcode, hruns⟩ := i.exists_runs hread hready (hi.symm.trans hop)
  refine hat.not_fallsThrough hregular ((hruns.of_flatten (hbody.trans hcode.symm)).mono ?_) he
  rintro ⟨hkind, hreturned, hway⟩
  rcases hreturns with hk | hr | hb
  · exact hkind hk
  · rw [hr] at hreturned
    cases hreturned
  · rw [hb] at hway
    cases hway

/-- A function that returns only if its test holds. -/
def halfSource : Source := Source.ofString "fun f(x) \x7b if (x) \x7b return 1 \x7d \x7d\n"

def halfPlaces : List Place :=
  let head : Frame := (0, ⟨.funi, ["f_f_1", "x_0"]⟩)
  [⟨0, [], head.2⟩, ⟨1, [head], ⟨.jumpIfFalse, ["x_0", "%L1"]⟩⟩, ⟨2, [head], ⟨.ret, ["1"]⟩⟩,
    ⟨3, [head], ⟨.jump, ["%L0"]⟩⟩, ⟨4, [head], ⟨.set, ["%L1"]⟩⟩, ⟨5, [head], ⟨.set, ["%L0"]⟩⟩,
    ⟨6, [head], ⟨.finish, []⟩⟩]

theorem exists_code_halfSource :
    ∃ code, compileSource {} {} halfSource "main" = .ok code ∧ places code.instructions = halfPlaces := by
  have accepted : (compileSource {} {} halfSource "main").toOption.any (fun code =>
      places code.instructions == halfPlaces) = true := by
    rw [compileSource_named {} Registry.names_standard, halfSource, Source.ofString_ofList]
    decide +kernel
  obtain ⟨code, hcode, hplaces⟩ := exists_ok_of_any accepted
  exact ⟨code, hcode, eq_of_beq hplaces⟩

theorem closes_halfPlaces (p e : Place) (hp : halfPlaces[0]? = some p) (he : halfPlaces[6]? = some e) :
    p ∈ halfPlaces ∧ p.instr.op = .funi ∧ Closes halfPlaces p.index e := by
  cases hp
  cases he
  exact ⟨by decide, rfl, by decide, rfl, rfl⟩

theorem not_fallsThrough_of_halfSource :
    ∃ code p e, compileSource {} {} halfSource "main" = .ok code ∧ p ∈ places code.instructions ∧
      p.instr.op = .funi ∧ Closes (places code.instructions) p.index e ∧
      ∃ i : Inside, i.OccursIn {} {} halfSource "main" ∧ Spans 0 code.instructions p i.code.instructions ∧
        p.instr.args.head? = some (i.after.table.get i.id).rid ∧
        (i.function.kind = .construct ∨ i.function.returned = false ∨ i.body.returns = true →
          ¬ FallsThrough (places code.instructions) p e) := by
  obtain ⟨code, h, hplaces⟩ := exists_code_halfSource
  obtain ⟨hp, hop, he⟩ := closes_halfPlaces _ _ rfl rfl
  rw [← hplaces] at hp he
  exact ⟨code, _, _, h, hp, hop, he, not_fallsThrough_of_compileSource h hp hop he⟩

/-- The test jumps past the only return. -/
theorem fallsThrough_of_halfSource :
    ∃ code p e, compileSource {} {} halfSource "main" = .ok code ∧ p ∈ places code.instructions ∧
      p.instr.op = .funi ∧ Closes (places code.instructions) p.index e ∧
      FallsThrough (places code.instructions) p e := by
  obtain ⟨code, h, hplaces⟩ := exists_code_halfSource
  obtain ⟨hp, hop, he⟩ := closes_halfPlaces _ _ rfl rfl
  refine ⟨code, _, _, h, hplaces ▸ hp, hop, hplaces ▸ he, ?_⟩
  rw [hplaces]
  refine ⟨halfPlaces[1], by decide, rfl, ?_⟩
  have past : Flows halfPlaces halfPlaces[1] halfPlaces[4] :=
    .jump (by decide) (by decide) (List.mem_singleton.mpr rfl) (List.mem_singleton.mpr rfl)
  have next : Flows halfPlaces halfPlaces[4] halfPlaces[5] := .next (by decide) (by decide) rfl rfl
  have last : Flows halfPlaces halfPlaces[5] halfPlaces[6] := .next (by decide) (by decide) rfl rfl
  exact ((Relation.ReflTransGen.single past).tail next).tail last

end Frontend
