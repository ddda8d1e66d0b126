import Frontend.Proofs.Judgement.Visit
import Frontend.Proofs.Lowering.Unit

/-!
# Nodes that are lowered one after another

What a step makes of the nodes inside of it depends on the visitor only through the nodes that it lowers, each
from the state in which its turn comes. `Traced` says that these come one after another, that in between and
behind them the functions of the symbol table are at most completed, and that the step fails with each of them. So
of two nodes that are lowered on the way, one is behind the other; and a step that succeeds depends on all of them,
and does the same with a visitor that lowers nothing else.
-/

namespace Frontend

open SymbolTable

/-! ## Traces -/

/-- A node, or something else that is lowered, and the state from which it is lowered. -/
structure Turn (α : Type := Node) where
  node : α
  start : Lowering

variable {α β γ : Type}
variable {q : Lower β} {v : Visit}

/-- The state behind a node. -/
def Turn.finish (visit : α → Lower Unit) (x : Turn α) : Lowering := (visit x.node x.start).2

/-- Nodes that are lowered one after another on the way from one state to another one. -/
inductive Serial (visit : α → Lower Unit) : Lowering → List (Turn α) → Lowering → Prop where
  | nil {s s'} (h : Matures s.table s'.table) : Serial visit s [] s'
  | cons {s s'} {x : Turn α} {turns : List (Turn α)} (h : Matures s.table x.start.table)
      (rest : Serial visit (x.finish visit) turns s') : Serial visit s (x :: turns) s'

namespace Serial

variable {visit : α → Lower Unit} {s s' u : Lowering} {turns more : List (Turn α)} {x y : Turn α}

theorem before (hu : Matures u.table s.table) (h : Serial visit s turns s') : Serial visit u turns s' := by
  cases h with
  | nil h => exact .nil (hu.trans h)
  | cons h rest => exact .cons (hu.trans h) rest

section
variable (h : Serial visit s turns s')
include h

theorem after (hu : Matures s'.table u.table) : Serial visit s turns u := by
  induction h with
  | nil h => exact .nil (h.trans hu)
  | cons h _ ih => exact .cons h (ih hu)

theorem append (h' : Serial visit s' more u) : Serial visit s (turns ++ more) u := by
  induction h with
  | nil h => exact h'.before h
  | cons h _ ih => exact .cons h (ih h')

section
variable (hv : ∀ n u, Matures u.table (visit n u).2.table)
include hv

/-- If the nodes complete functions at most, then so does the whole way. -/
theorem matures : Matures s.table s'.table := by
  induction h with
  | nil h => exact h
  | @cons s s' x turns h _ ih => exact (h.trans (hv x.node x.start)).trans ih

/-- A node on the way is lowered behind the beginning and before the end. -/
theorem between (hx : x ∈ turns) : Matures s.table x.start.table ∧ Matures (x.finish visit).table s'.table := by
  induction h with
  | nil => cases hx
  | @cons s s' y turns h rest ih =>
    rcases List.mem_cons.mp hx with rfl | hx
    · exact ⟨h, rest.matures hv⟩
    · obtain ⟨hbefore, hafter⟩ := ih hx
      exact ⟨(h.trans (hv y.node y.start)).trans hbefore, hafter⟩

/-- Of two nodes on the way one is lowered behind the other. -/
theorem ordered (hx : x ∈ turns) (hy : y ∈ turns) :
    x = y ∨ Matures (x.finish visit).table y.start.table ∨ Matures (y.finish visit).table x.start.table := by
  induction h with
  | nil => cases hx
  | cons _ rest ih =>
    rcases List.mem_cons.mp hx with rfl | hx'
    · rcases List.mem_cons.mp hy with rfl | hy'
      · exact .inl rfl
      · exact .inr (.inl (rest.between hv hy').1)
    · rcases List.mem_cons.mp hy with rfl | hy'
      · exact .inr (.inr (rest.between hv hx').1)
      · exact ih hx' hy'

end

end

end Serial

namespace Lower

/-- A result that is none. -/
def Fails (r : Except Failure β × Lowering) : Prop := ∀ b, r.1 ≠ .ok b

/-- Each time the one visitor does what the other one does, or it fails. -/
def Defers (other visit : α → Lower Unit) : Prop :=
  ∀ a s, other a s = visit a s ∨ Fails (other a s)

/-- The step lowers nodes one after another; it is the same for every visitor that agrees on these, and it fails for
every visitor that fails at one of them and does nothing else instead. -/
structure TracedThrough (visit : α → Lower Unit) (s : Lowering) (p : (α → Lower Unit) → Lower β) (turns : List (Turn α)) :
    Prop where
  serial : Serial visit s turns (p visit s).2
  agrees : ∀ other : α → Lower Unit, (∀ x ∈ turns, other x.node x.start = visit x.node x.start) →
    p other s = p visit s
  fails : ∀ other, Defers other visit → ∀ x ∈ turns, Fails (other x.node x.start) → Fails (p other s)

def Traced (visit : α → Lower Unit) (s : Lowering) (p : (α → Lower Unit) → Lower β) : Prop :=
  ∃ turns, TracedThrough visit s p turns

section Traced

variable {visit other : α → Lower Unit} {s s' : Lowering} {p : (α → Lower Unit) → Lower β} {turns : List (Turn α)}

theorem Fails.bind {f : β → Lower γ} (h : Fails (q s)) : Fails ((q >>= f) s) := by
  intro c hc
  obtain ⟨b, u, hq, -⟩ := bind_eq_ok.mp (Prod.ext hc rfl)
  exact h b (congrArg Prod.fst hq)

/-- A visitor that defers to another one agrees with it on all turns, or the step fails. -/
theorem TracedThrough.agrees_or_fails (h : TracedThrough visit s p turns) (hother : Defers other visit) :
    p other s = p visit s ∨ Fails (p other s) := by
  by_cases hall : ∀ x ∈ turns, other x.node x.start = visit x.node x.start
  · exact .inl (h.agrees other hall)
  · push Not at hall
    obtain ⟨x, hx, hne⟩ := hall
    exact .inr (h.fails other hother x hx ((hother x.node x.start).resolve_left hne))

/-! ## Steps one after another -/

protected theorem Traced.bind {f : (α → Lower Unit) → β → Lower γ} (hp : Traced visit s p)
    (hf : ∀ b s', p visit s = (.ok b, s') → Traced visit s' fun v => f v b) : Traced visit s fun v => p v >>= f v := by
  obtain ⟨turns, htrace⟩ := hp
  cases hr : p visit s with
  | mk r s' =>
    have hserial : Serial visit s turns s' := by
      have hserial := htrace.serial
      rw [hr] at hserial
      exact hserial
    cases r with
    | error e =>
      refine ⟨turns, ?_, fun other hother => ?_, fun other hother x hx hfails => ?_⟩
      · rw [bind_of_error hr]
        exact hserial
      · rw [bind_of_error hr, bind_of_error ((htrace.agrees other hother).trans hr)]
      · exact (htrace.fails other hother x hx hfails).bind
    | ok b =>
      obtain ⟨more, hmore⟩ := hf b s' hr
      refine ⟨turns ++ more, ?_, fun other hother => ?_, fun other hother x hx hfails => ?_⟩
      · rw [bind_of_ok hr]
        exact hserial.append hmore.serial
      · have hp := htrace.agrees other fun x hx => hother x (List.mem_append_left _ hx)
        rw [bind_of_ok hr, bind_of_ok (hp.trans hr)]
        exact hmore.agrees other fun x hx => hother x (List.mem_append_right _ hx)
      · rcases List.mem_append.mp hx with hx | hx
        · exact (htrace.fails other hother x hx hfails).bind
        rcases htrace.agrees_or_fails hother with hp | hp
        · rw [bind_of_ok (hp.trans hr)]
          exact hmore.fails other hother x hx hfails
        · exact hp.bind

/-- A step that lowers no node. -/
theorem Traced.plain (h : Matures s.table (q s).2.table) : Traced visit s fun _ => q :=
  ⟨[], .nil h, fun _ _ => rfl, fun _ _ _ hx => absurd hx List.not_mem_nil⟩

/-- A step around another one, which hides no failure. -/
theorem Traced.around {q : (α → Lower Unit) → Lower γ} {u : Lowering}
    (leave : Except Failure β × Lowering → Except Failure γ × Lowering) (hp : Traced visit u p)
    (hq : ∀ v, q v s = leave (p v u)) (hbefore : Matures s.table u.table)
    (hafter : ∀ r, Matures r.2.table (leave r).2.table) (hfails : ∀ r, Fails r → Fails (leave r)) :
    Traced visit s q := by
  obtain ⟨turns, htrace⟩ := hp
  refine ⟨turns, ?_, fun other hother => ?_, fun other hother x hx hx' => ?_⟩
  · rw [hq]
    exact (htrace.serial.before hbefore).after (hafter _)
  · rw [hq, hq, htrace.agrees other hother]
  · rw [hq]
    exact hfails _ (htrace.fails other hother x hx hx')

/-- What is lowered on the way, as a judgement about a step for all visitors. -/
def traced (visit : α → Lower Unit) : Judgement visit where
  At _ s _ p := Traced visit s p
  plain h := .plain h.matures
  weaken h := h
  bind := Traced.bind
  within {_ _ s _ _ f _} hf hp := by
    refine hp.around (f.leave s) (fun _ => rfl) (hf.matures_enter s) (hf.matures_leave s) ?_
    rintro ⟨e | b, t⟩ hr
    · exact hf.fails s e t
    · exact absurd rfl (hr b)

theorem files_traced (visit : α → Lower Unit) : (traced visit).Files where
  step _ htable := .plain (.of_eq htable)
  around leave hp hq hbefore hafter hok := hp.around leave hq (.of_eq hbefore.2) (fun r => .of_eq (hafter r).2)
    fun r hr b hb => hr b (hok r b hb)

/-- A step that is traced from every state, whatever the visitor is. -/
def Traces (p : (α → Lower Unit) → Lower β) : Prop := ∀ visit, (traced visit).Holds true p

namespace Traces

theorem node {b : Bool} (a : α) : (traced visit).Holds b fun v => v a := fun s =>
  ⟨[⟨a, s⟩], .cons (.refl s.table) (.nil (.refl _)), fun _ hother => hother ⟨a, s⟩ List.mem_cons_self,
    fun _ _ x hx hfails => by rw [List.mem_singleton.mp hx] at hfails; exact hfails⟩

theorem unit (p : Program) (src : Source) : Traces fun v => Lower.unit v p src :=
  fun visit => (files_traced visit).unit (fun n => node n) p src

theorem eval (n : Node) : Traces fun v => Lower.eval v n := fun _ => Judgement.eval (fun n => node n) n

theorem items (ns : List Node) : Traces fun v => Lower.items v ns := fun _ => Judgement.items (fun n => node n) ns

theorem initInstance (cls : SymbolId) : Traces fun v => Lower.initInstance v cls :=
  fun _ => Judgement.initInstance (fun n => node n) cls

/-- Every node lowers the nodes inside of it one after another. -/
theorem visitWith (n : Node) : Traces fun v => Lower.visitWith v n :=
  fun visit => (files_traced visit).visitWith (fun n => node n) n

/-- So it does with the bodies of the functions that it defines. -/
theorem visitBodies (n : Node) : Traces fun v : Node ⊕ List Node → Lower Unit =>
    Lower.visitBodies (fun n => v (.inl n)) (fun ns => v (.inr ns)) n := by
  intro visit
  have hbodies : ∀ ns : List Node, (traced visit).Holds false fun v => v (Sum.inr ns) :=
    fun ns => node (Sum.inr ns)
  have hnode : (traced visit).Holds n.leaves fun v => Lower.visitWith (fun n => v (Sum.inl n)) n :=
    (files_traced visit).visitWith (fun n => node (Sum.inl n)) n
  cases n with
  | funDef token name params labels body arrow => exact Judgement.defineFunction hbodies name params labels body
  | lambda token params labels body => exact Judgement.lambda hbodies token params labels body
  | classDef token name body => exact Judgement.defineClass (fun n => node (Sum.inl n)) hbodies name body
  | _ => exact hnode

end Traces

end Traced

/-! ## Turns that a step depends on -/

/-- A step comes to something else with another visitor that differs in one turn only: it depends on that turn. -/
def Consults (p : (α → Lower Unit) → Lower Unit) (visit : α → Lower Unit) (s : Lowering) (x : Turn α) : Prop :=
  ∃ other : α → Lower Unit, (∀ y : Turn α, y ≠ x → other y.node y.start = visit y.node y.start) ∧
    p other s ≠ p visit s

/-! ## Visitors that are restricted -/

open Classical in
/-- The visitor where it may go; elsewhere it fails. -/
noncomputable def only (may : Turn α → Prop) (visit : α → Lower Unit) : α → Lower Unit := fun a s =>
  if may ⟨a, s⟩ then visit a s else failWith default s

section Only

variable {visit other : α → Lower Unit} {may : Turn α → Prop} {s s' : Lowering} {p : (α → Lower Unit) → Lower β}
  {a : α} {b : β} {x : Turn α}

theorem only_eq (h : may ⟨a, s⟩) : only may visit a s = visit a s := if_pos h

theorem fails_only (h : ¬ may ⟨a, s⟩) : Fails (only may visit a s) := by
  unfold only
  rw [if_neg h]
  exact fun _ he => nomatch he

theorem of_only_eq_ok {u : Unit} (h : only may visit a s = (.ok u, s')) : may ⟨a, s⟩ ∧ visit a s = (.ok u, s') := by
  by_cases hmay : may ⟨a, s⟩
  · exact ⟨hmay, (only_eq hmay).symm.trans h⟩
  · exact absurd (congrArg Prod.fst h) (fails_only hmay u)

theorem defers_only (may : Turn α → Prop) (visit : α → Lower Unit) : Defers (only may visit) visit := by
  intro a s
  by_cases hmay : may ⟨a, s⟩
  · exact .inl (only_eq hmay)
  · exact .inr (fails_only hmay)

/-- What a step does for a visitor that defers to another one, it does for that one. -/
theorem Traced.of_defers (h : Traced visit s p) (hother : Defers other visit) (hok : p other s = (.ok b, s')) :
    p visit s = (.ok b, s') := by
  obtain ⟨turns, htrace⟩ := h
  rcases htrace.agrees_or_fails hother with hp | hp
  · exact hp.symm.trans hok
  · exact absurd (congrArg Prod.fst hok) (hp b)

/-- A step that succeeds depends on each of its turns. -/
theorem TracedThrough.consults {p : (α → Lower Unit) → Lower Unit} {turns : List (Turn α)} {u : Unit}
    (h : TracedThrough visit s p turns) (hok : p visit s = (.ok u, s')) (hx : x ∈ turns) : Consults p visit s x := by
  refine ⟨only (· ≠ x) visit, fun y hy => only_eq hy, fun he => ?_⟩
  exact h.fails _ (defers_only _ _) x hx (fails_only fun hne => hne rfl) u (congrArg Prod.fst (he.trans hok))

/-- So it does the same for the visitor that is restricted to what it depends on. -/
theorem Traced.only {p : (α → Lower Unit) → Lower Unit} {u : Unit} (h : Traced visit s p)
    (hok : p visit s = (.ok u, s')) (hmay : ∀ x : Turn α, Consults p visit s x →
      (∃ t, visit x.node x.start = (.ok (), t)) → may x) : p (only may visit) s = (.ok u, s') := by
  obtain ⟨turns, htrace⟩ := h
  refine (htrace.agrees _ fun x hx => only_eq (hmay x (htrace.consults hok hx) ?_)).trans hok
  cases hr : visit x.node x.start with
  | mk r t =>
    cases r with
    | ok => exact ⟨t, rfl⟩
    | error e =>
      refine absurd (congrArg Prod.fst hok) (htrace.fails visit (fun _ _ => .inl rfl) x hx ?_ u)
      rw [hr]
      exact fun _ he => nomatch he

end Only

/-! ## Nodes that are met on the way -/

/-- A node is lowered on the way of a step, by the step itself or inside of another node. The second number says
how many levels are left for it. -/
inductive Meets : (Visit → Lower Unit) → Nat → Lowering → Nat → Turn → Prop where
  | here {p levels s x} (h : Consults p (visit levels) s x) : Meets p levels s levels x
  | inside {p levels s x depth y} (h : Consults p (visit (levels + 1)) s x)
      (rest : Meets (fun v => visitWith v x.node) levels x.start depth y) : Meets p (levels + 1) s depth y

section Met

variable {p : Visit → Lower Unit} {levels depth depth' : Nat} {s : Lowering} {x y : Turn}

theorem matures_visit (levels : Nat) (n : Node) (s : Lowering) : Matures s.table (visit levels n s).2.table := by
  induction levels generalizing n s with
  | zero => exact .refl _
  | succ levels ih =>
    obtain ⟨turns, htrace⟩ := Traces.visitWith n (visit levels) s
    exact htrace.serial.matures fun n u => ih n u

/-- What a step depends on is one of the turns that it is traced through. -/
theorem Consults.mem {turns : List Turn} (h : Consults p v s x)
    (hagree : ∀ other : Visit, (∀ y ∈ turns, other y.node y.start = v y.node y.start) → p other s = p v s) :
    x ∈ turns := by
  by_contra hx
  obtain ⟨other, hother, hne⟩ := h
  exact hne (hagree other fun y hy => hother y fun he => hx (he ▸ hy))

theorem Consults.between (h : Consults p (visit levels) s x) (hp : Traces p) :
    Matures s.table x.start.table ∧ Matures (x.finish (visit levels)).table (p (visit levels) s).2.table := by
  obtain ⟨turns, htrace⟩ := hp (visit levels) s
  exact htrace.serial.between (matures_visit levels) (h.mem htrace.agrees)

theorem Consults.ordered (hx : Consults p (visit levels) s x) (hy : Consults p (visit levels) s y) (hp : Traces p) :
    x = y ∨ Matures (x.finish (visit levels)).table y.start.table ∨
      Matures (y.finish (visit levels)).table x.start.table := by
  obtain ⟨turns, htrace⟩ := hp (visit levels) s
  exact htrace.serial.ordered (matures_visit levels) (hx.mem htrace.agrees) (hy.mem htrace.agrees)

theorem Meets.between (h : Meets p levels s depth y) (hp : Traces p) :
    Matures s.table y.start.table ∧ Matures (y.finish (visit depth)).table (p (visit levels) s).2.table := by
  induction h with
  | here h => exact h.between hp
  | inside h _ ih =>
    obtain ⟨hbefore, hafter⟩ := h.between hp
    obtain ⟨hstart, hfinish⟩ := ih (.visitWith _)
    exact ⟨hbefore.trans hstart, hfinish.trans hafter⟩

/-- What is met lies in a turn that the step itself depends on. -/
theorem Meets.outermost (h : Meets p levels s depth y) : ∃ x, Consults p (visit levels) s x ∧
    Matures x.start.table (y.finish (visit depth)).table ∧
    Matures (y.finish (visit depth)).table (x.finish (visit levels)).table := by
  cases h with
  | here h => exact ⟨y, h, matures_visit .., .refl _⟩
  | inside h rest =>
    obtain ⟨hstart, hfinish⟩ := rest.between (.visitWith _)
    exact ⟨_, h, hstart.trans (matures_visit ..), hfinish⟩

theorem Consults.comparable (hx : Consults p (visit levels) s x) (hy : Meets p levels s depth y) (hp : Traces p) :
    Matures (x.finish (visit levels)).table (y.finish (visit depth)).table ∨
      Matures (y.finish (visit depth)).table (x.finish (visit levels)).table := by
  obtain ⟨z, hz, hstart, hfinish⟩ := hy.outermost
  rcases hx.ordered hz hp with rfl | hlt | hgt
  · exact .inr hfinish
  · exact .inl (hlt.trans hstart)
  · exact .inr (hfinish.trans (hgt.trans (matures_visit ..)))

/-- Of two nodes that are met the lowering of one ends behind that of the other. -/
theorem Meets.comparable (hx : Meets p levels s depth x) (hy : Meets p levels s depth' y) (hp : Traces p) :
    Matures (x.finish (visit depth)).table (y.finish (visit depth')).table ∨
      Matures (y.finish (visit depth')).table (x.finish (visit depth)).table := by
  induction hx generalizing depth' y with
  | here h => exact h.comparable hy hp
  | @inside p levels s z depth x h rest ih =>
    cases hy with
    | here h' => exact (h'.comparable (.inside h rest) hp).symm
    | @inside _ _ _ z' _ _ h' rest' =>
      rcases h.ordered h' hp with rfl | hlt | hgt
      · exact ih rest' (.visitWith _)
      · have hx := (rest.between (.visitWith _)).2
        have hy := (rest'.between (.visitWith _)).1
        exact .inl ((hx.trans hlt).trans (hy.trans (matures_visit ..)))
      · have hx := (rest.between (.visitWith _)).1
        have hy := (rest'.between (.visitWith _)).2
        exact .inr ((hy.trans hgt).trans (hx.trans (matures_visit ..)))

/-- What is met is met with what is inside of it. -/
theorem Meets.snoc (h : Meets p levels s (depth + 1) x)
    (hy : Consults (fun v => visitWith v x.node) (visit depth) x.start y) : Meets p levels s depth y := by
  generalize hd : depth + 1 = d at h
  induction h with
  | here h =>
    subst hd
    exact .inside h (.here hy)
  | inside h _ ih => exact .inside h (ih hy hd)

end Met

end Lower

/-! ## What occurs in a run -/

/-- A node is lowered on the way of compiling a source text. The number says how many levels are left for it. -/
def Turn.OccursIn (x : Turn) (depth : Nat) (files : FileTree) (options : CompileOptions) (src : Source)
    (file : String) : Prop :=
  ∃ p, Program.ofSource src file = .ok p ∧ Lower.Meets (fun v => Lower.unit v p src) Session.levels
    ((Session.ofOptions options).begin files options.annotate) depth x

/-- The expression is evaluated on the way of compiling a source text. -/
def Evaluation.OccursIn (e : Evaluation) (files : FileTree) (options : CompileOptions) (src : Source) (file : String) :
    Prop :=
  (⟨e.node, e.start⟩ : Turn).OccursIn e.levels files options src file

/-- The inside of a function is lowered on the way of compiling a source text: the function is at hand, and a node
that is lowered there comes to something else if the items of the function, behind what comes before them, are lowered
in another way. -/
def Inside.OccursIn (i : Inside) (files : FileTree) (options : CompileOptions) (src : Source) (file : String) : Prop :=
  ∃ x : Turn, x.OccursIn (i.levels + 1) files options src file ∧ i.start.processing.head? = some i.id ∧
    Lower.Consults (fun items => Lower.visitBodies (Lower.visit i.levels) items x.node)
      (Lower.items (Lower.visit i.levels)) x.start ⟨i.body.items, (i.before i.start).2⟩

/-- The run of compiling a source text. -/
abbrev Setting.of (files : FileTree) (options : CompileOptions) (src : Source) (file : String) : Setting where
  evaluates e := e.OccursIn files options src file
  lowers i := i.OccursIn files options src file

namespace Lower

variable {files : FileTree} {options : CompileOptions} {src : Source} {file : String} {p : Program} {levels : Nat}
  {s s' : Lowering} {x : Turn}

/-- Lowers the nodes that are lowered with success on the way of compiling a source text, and no others. -/
noncomputable def met (files : FileTree) (options : CompileOptions) (src : Source) (file : String) (levels : Nat) : Visit :=
  only (fun x => x.OccursIn levels files options src file ∧ ∃ s', visit levels x.node x.start = (.ok (), s'))
    (visit levels)

/-- A program that is accepted is lowered in the same way through the nodes that are met. -/
theorem unit_met (hp : Program.ofSource src file = .ok p)
    (h : unit (visit Session.levels) p src ((Session.ofOptions options).begin files options.annotate) = (.ok (), s')) :
    unit (met files options src file Session.levels) p src ((Session.ofOptions options).begin files options.annotate) =
      (.ok (), s') :=
  (Traces.unit p src _ _).only h fun _ hx hok => ⟨⟨p, hp, .here hx⟩, hok⟩

/-- So is every node that is met. -/
theorem visitWith_met (hx : x.OccursIn (levels + 1) files options src file)
    (h : visit (levels + 1) x.node x.start = (.ok (), s')) :
    visitWith (met files options src file levels) x.node x.start = (.ok (), s') := by
  obtain ⟨p, hp, hmeets⟩ := hx
  exact (Traces.visitWith x.node _ _).only h fun _ hy hok => ⟨⟨p, hp, hmeets.snoc hy⟩, hok⟩

theorem evaluation_of_met {n : Node} {o : Operand} (h : eval (met files options src file levels) n s = (.ok o, s')) :
    ∃ e : Evaluation, e.node = n ∧ e.start = s ∧ e.value = o ∧ e.finish = s' ∧ e.OccursIn files options src file := by
  obtain ⟨u, -, hn, -⟩ := exists_of_forValue h
  obtain ⟨⟨hoccurs, -⟩, -⟩ := of_only_eq_ok hn
  exact ⟨⟨levels, n, s, o, s', (Traces.eval n _ _).of_defers (defers_only _ _) h⟩, rfl, rfl, rfl, rfl, hoccurs⟩

/-- The nodes and the bodies of functions that are lowered inside of a node. -/
def both (visit : Visit) (bodies : List Node → Lower Unit) : Node ⊕ List Node → Lower Unit := Sum.elim visit bodies

theorem defers_both {bodies : List Node → Lower Unit} (hv : Defers v (visit levels))
    (hbodies : Defers bodies (items (visit levels))) :
    Defers (both v bodies) (both (visit levels) (items (visit levels)))
  | .inl n, s => hv n s
  | .inr ns, s => hbodies ns s

theorem defers_items (hv : Defers v (visit levels)) : Defers (items v) (items (visit levels)) := by
  intro ns s
  obtain ⟨turns, htrace⟩ := Traces.items ns (visit levels) s
  exact htrace.agrees_or_fails hv

/-- A node that is met is lowered in the same way through what is met inside of it, with the bodies of the functions
that it defines. -/
theorem visitBodies_met (hx : x.OccursIn (levels + 1) files options src file)
    (h : visit (levels + 1) x.node x.start = (.ok (), s')) :
    ∃ may : Turn (List Node) → Prop,
      visitBodies (met files options src file levels) (only may (items (met files options src file levels))) x.node
        x.start = (.ok (), s') ∧
      ∀ y, may y → Consults (fun bodies => visitBodies (visit levels) bodies x.node) (items (visit levels)) x.start y := by
  obtain ⟨p, hp, hmeets⟩ := hx
  have hok : visitBodies (visit levels) (items (visit levels)) x.node x.start = (.ok (), s') := by
    rw [visitBodies_items]
    exact h
  obtain ⟨turns, htrace⟩ := Traces.visitBodies x.node (both (visit levels) (items (visit levels))) x.start
  -- what makes one of the turns fail makes the node fail
  have lost : ∀ {v : Visit} {bodies : List Node → Lower Unit}, Defers v (visit levels) →
      Defers bodies (items (visit levels)) → ∀ z ∈ turns, Fails (both v bodies z.node z.start) →
      visitBodies v bodies x.node x.start ≠ visitBodies (visit levels) (items (visit levels)) x.node x.start := by
    intro v bodies hv hbodies z hz hfails he
    exact htrace.fails _ (defers_both hv hbodies) z hz hfails () (congrArg Prod.fst (he.trans hok))
  -- a node is met if the node at hand fails without it
  have meets : ∀ (y : Turn) (z), z ∈ turns → (∀ v, Defers v (visit levels) → Fails (v y.node y.start) →
      Fails (both v (items v) z.node z.start)) → y.OccursIn levels files options src file := by
    intro y z hz hfails
    refine ⟨p, hp, hmeets.snoc ⟨only (· ≠ y) (visit levels), fun w hw => only_eq hw, ?_⟩⟩
    have hdefers : Defers (only (· ≠ y) (visit levels)) (visit levels) := defers_only _ _
    simp only [← visitBodies_items]
    exact lost hdefers (defers_items hdefers) z hz (hfails _ hdefers (fails_only fun hne => hne rfl))
  have succeeds : ∀ z ∈ turns, ∃ t, both (visit levels) (items (visit levels)) z.node z.start = (.ok (), t) := by
    intro z hz
    cases hr : both (visit levels) (items (visit levels)) z.node z.start with
    | mk r t =>
      cases r with
      | ok => exact ⟨t, rfl⟩
      | error e =>
        refine absurd rfl (lost (fun _ _ => .inl rfl) (fun _ _ => .inl rfl) z hz ?_)
        rw [hr]
        exact fun _ he => nomatch he
  have hnode : ∀ n u, ⟨.inl n, u⟩ ∈ turns → met files options src file levels n u = visit levels n u :=
    fun n u hz => only_eq ⟨meets ⟨n, u⟩ _ hz fun _ _ hfails => hfails, succeeds _ hz⟩
  have hbody : ∀ ns u, ⟨.inr ns, u⟩ ∈ turns → items (met files options src file levels) ns u = items (visit levels) ns u := by
    intro ns u hz
    obtain ⟨t, ht⟩ := succeeds _ hz
    have ht : items (visit levels) ns u = (.ok (), t) := ht
    refine ((Traces.items ns (visit levels) u).only ht fun y hy hok => ⟨meets y _ hz ?_, hok⟩).trans ht.symm
    intro v hv hfails
    obtain ⟨inner, hinner⟩ := Traces.items ns (visit levels) u
    exact hinner.fails v hv y (hy.mem hinner.agrees) hfails
  let may : Turn (List Node) → Prop := fun y => ⟨.inr y.node, y.start⟩ ∈ turns
  refine ⟨may, ?_, fun y hy => ?_⟩
  · let v : Visit := met files options src file levels
    refine (htrace.agrees (both v (only may (items v))) fun z hz => ?_).trans hok
    obtain ⟨n | ns, u⟩ := z
    · exact hnode n u hz
    · have honly : only may (items v) ns u = items v ns u := only_eq hz
      exact honly.trans (hbody ns u hz)
  · refine ⟨only (· ≠ y) (items (visit levels)), fun w hw => only_eq hw, ?_⟩
    exact lost (fun _ _ => .inl rfl) (defers_only _ _) _ hy (fails_only fun hne => hne rfl)

/-- What is lowered through the nodes that are met occurs in the run. -/
theorem within_met {may : Turn (List Node) → Prop} (hx : x.OccursIn (levels + 1) files options src file)
    (hmay : ∀ y, may y →
      Consults (fun bodies => visitBodies (visit levels) bodies x.node) (items (visit levels)) x.start y) :
    @Within (.of files options src file) levels (met files options src file levels)
      (only may (items (met files options src file levels))) := by
  let _ : Setting := .of files options src file
  refine ⟨fun h => (Traces.initInstance _ _ _).of_defers (defers_only _ _) h,
    fun h => (Traces.items _ _ _).of_defers (defers_only _ _) (of_only_eq_ok h).2, ?_⟩
  intro i s s' hlevels hid hbefore h
  subst hlevels
  refine ⟨x, hx, hid, ?_⟩
  rw [hbefore]
  exact hmay _ (of_only_eq_ok h).1

end Lower

end Frontend
