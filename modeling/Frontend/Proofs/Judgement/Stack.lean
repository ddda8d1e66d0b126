import Frontend.Proofs.Judgement.Visit

/-!
# The operands while nodes are lowered

Values and the end labels of chains of tests share one stack. A node leaves what was there and puts at most one
operand on it, so that a chain finds its own label again in front of each of its tests.
-/

namespace Frontend.Lower

variable {b : Bool} {s s' t : Lowering} {α β : Type} {levels : Nat} {n : Node}
variable {p : Lower α} {finish : String} {done : List Condition}

theorem Leaves.weaken {r : Except Failure α × Lowering} (h : Leaves false s r) : Leaves true s r :=
  ⟨h.stays, fun a ha => .inl ((h.ended a ha).resolve_right fun hleaves => Bool.false_ne_true hleaves.1)⟩

/-- Behind a step that leaves no operand, the stack is what it was. -/
theorem Leaves.operands_eq {a : α} (h : Leaves false s (p s)) (hp : p s = (.ok a, s')) : s'.operands = s.operands := by
  rw [hp] at h
  exact (h.ended a rfl).resolve_right fun hleaves => Bool.false_ne_true hleaves.1

protected theorem Leaves.bind {f : α → Lower β} (hp : Leaves false s (p s))
    (hf : ∀ a s', p s = (.ok a, s') → Leaves b s' (f a s')) : Leaves b s ((p >>= f) s) := by
  cases hr : p s with
  | mk r s' =>
    cases r with
    | error e =>
      rw [bind_of_error hr]
      rw [hr] at hp
      exact ⟨hp.stays, fun _ h => by cases h⟩
    | ok a =>
      rw [bind_of_ok hr]
      have hsame := hp.operands_eq hr
      have hrest := hf a s' hr
      exact ⟨hsame ▸ hrest.stays, hsame ▸ hrest.ended⟩

/-- What steps do to the operands, as a judgement about single steps. -/
def leaving : Judgement () where
  At b s _ p := Leaves b s (p () s)
  plain h := h.leaves
  weaken h := h.weaken
  bind := Leaves.bind
  within hf hp := hf.leaves _ _ hp

theorem files_leaving : leaving.Files where
  step hoperands _ := .of_eq hoperands
  around {_ s u _ p q} leave hp hq hbefore hafter hok := by
    have hp : Leaves _ u (p () u) := hp
    change Leaves _ s (q () s)
    rw [hq]
    refine ⟨?_, fun a ha => ?_⟩
    · rw [(hafter _).1, ← hbefore.1]
      exact hp.stays
    · rw [(hafter _).1, ← hbefore.1]
      exact hp.ended a (hok _ a ha)

theorem leaving_visit (levels : Nat) (n : Node) : leaving.Holds n.leaves fun _ => visit levels n := by
  induction levels generalizing n with
  | zero => exact Judgement.fail _
  | succ levels ih => exact files_leaving.visitWith ih n

theorem operands_exec (levels : Nat) (n : Node) (s : Lowering) : (exec (visit levels) n s).2.operands = s.operands :=
  operands_truncate (leaving_visit levels n s).stays

theorem operands_eval (levels : Nat) (n : Node) (s : Lowering) : (eval (visit levels) n s).2.operands = s.operands :=
  Judgement.operands_valueOf _ (leaving_visit levels n s).stays

/-! ## Chains of tests -/

/-- A chain that began in `s` has the end label `finish`, and `t` is reached behind its tests `done`. -/
def ChainAt (visit : Visit) (s : Lowering) (finish : String) (done : List Condition) (t : Lowering) : Prop :=
  ∃ s', freshLabel s = (.ok finish, s') ∧
    forAll (condition visit) done { s' with operands := .label finish :: s'.operands } = (.ok (), t)

/-- The next test of the chain is lowered there, and then the rest of the chain. -/
theorem ChainAt.branch_eq {visit : Visit} (h : ChainAt visit s finish done t) (c : Condition) (rest : List Condition)
    (otherwise : Option Block) :
    branch visit (done ++ c :: rest) otherwise s = ensuring (truncate s.operands.length) (do
      condition visit c
      forAll (condition visit) rest
      match otherwise with
      | some body => visit (.block body)
      | none => pure ()
      emit .set [finish]) t := by
  obtain ⟨s', hfresh, hdone⟩ := h
  have hsame : s'.operands = s.operands := by
    cases hfresh
    rfl
  have hpush : push (.label finish) s' = (.ok (), { s' with operands := .label finish :: s'.operands }) := rfl
  have hgone (k : Unit → Lower Unit) :
      (push (.label finish) >>= fun _ => forAll (condition visit) (done ++ c :: rest) >>= k) s' =
        (condition visit c >>= fun _ => forAll (condition visit) rest >>= k) t := by
    rw [bind_of_ok hpush, forAll_append, bind_assoc, bind_of_ok hdone]
    exact congrFun (bind_assoc (condition visit c) (fun _ => forAll (condition visit) rest) k) t
  rw [branch, bind_of_ok hfresh, ← hsame]
  exact congrArg (fun r : Except Failure Unit × Lowering => (r.1, truncate s'.operands.length r.2)) (hgone _)

theorem ChainAt.operands_eq (h : ChainAt (visit levels) s finish done t) :
    t.operands = .label finish :: s.operands := by
  obtain ⟨s', hfresh, hdone⟩ := h
  have hstart : leaving.Holds false fun _ => freshLabel := Judgement.freshLabel
  have htests : leaving.Holds false fun _ => forAll (condition (visit levels)) done :=
    Judgement.forAll fun c => Judgement.condition (leaving_visit levels) c
  have hdone := (htests _).operands_eq hdone
  rw [hdone, (hstart s).operands_eq hfresh]

/-- A node leaves the operands as they were with at most one more on top. Lowered for its value or its effect it
leaves them exactly as they were, whether it fails or not. A chain comes to each of its tests with its own end label
on top, and that is what the test finds. -/
theorem operand_discipline (levels : Nat) (n : Node) (s : Lowering) :
    (∀ s', visit levels n s = (.ok (), s') → s'.operands = s.operands ∨ ∃ o, s'.operands = o :: s.operands) ∧
    (eval (visit levels) n s).2.operands = s.operands ∧ (exec (visit levels) n s).2.operands = s.operands ∧
    ∀ done c rest otherwise finish t, ChainAt (visit levels) s finish done t →
      visit (levels + 1) (.branch (done ++ c :: rest) otherwise) s = ensuring (truncate s.operands.length) (do
        condition (visit levels) c
        forAll (condition (visit levels)) rest
        match otherwise with
        | some body => visit levels (.block body)
        | none => pure ()
        emit .set [finish]) t ∧
      t.operands = .label finish :: s.operands ∧ endLabel? t = (.ok (some finish), t) := by
  refine ⟨fun s' h => ?_, operands_eval levels n s, operands_exec levels n s, ?_⟩
  · have hleaves : Leaves n.leaves s (visit levels n s) := leaving_visit levels n s
    rw [h] at hleaves
    exact (hleaves.ended () rfl).imp_right And.right
  · intro done c rest otherwise finish t hat
    have hoperands := hat.operands_eq
    refine ⟨hat.branch_eq c rest otherwise, hoperands, ?_⟩
    rw [endLabel?, ask, hoperands]
    rfl

/-- A test whose body is another chain. -/
def nestedTest : Condition :=
  .mk default (.bool default true) (.mk default default [.branch [.mk default (.bool default true) default] none])

/-- Where a chain begins. -/
def nestedStart : Lowering := { (freshLabel default).2 with operands := [.label "%L0"] }

/-- Behind a chain inside of its first test, a chain finds its own label. -/
theorem endLabel?_behind_nestedTest : ∃ t : Lowering, ChainAt (visit 4) default "%L0" [nestedTest] t ∧
    endLabel? t = (.ok (some "%L0"), t) := by
  have hok : (forAll (condition (visit 4)) [nestedTest] nestedStart).1.isOk = true := by decide +kernel
  cases hr : forAll (condition (visit 4)) [nestedTest] nestedStart with
  | mk r t =>
    rw [hr] at hok
    cases r with
    | error e => cases hok
    | ok u =>
      have hat : ChainAt (visit 4) default "%L0" [nestedTest] t := ⟨(freshLabel default).2, by rfl, hr⟩
      exact ⟨t, hat, ((operand_discipline 4 default default).2.2.2 [nestedTest] nestedTest [] none "%L0" t hat).2.2⟩

end Frontend.Lower
