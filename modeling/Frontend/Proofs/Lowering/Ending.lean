import Frontend.Proofs.Meaning.Expression
import Frontend.Proofs.Member.Surface
import Frontend.Proofs.Parse.Ending
import Frontend.Proofs.Repl.Added

/-!
# A negative number at the end of an expression is lowered alike

A minus in front of a number takes no code, so the number is the same operand as the one that is written with
its sign. The two look different, and nothing but messages depends on that. Behind an item the operand is gone.
-/

namespace Frontend

open Lower Meaning

/-- States that are alike but for how the operand on top looks. -/
def Abreast.Tops : Unit → Lowering → Unit → Lowering → Prop := fun _ t _ t' =>
  ∃ (u : Lowering) (o o' : Operand), Bare o o' ∧ t = { u with operands := o :: u.operands } ∧
    t' = { u with operands := o' :: u.operands }

namespace Abreast

variable {s : Lowering} {visit visit' : Visit} {n n' : Node} {o o' : Operand}

theorem push_tops (h : Bare o o') : Abreast Tops (push o) (push o') s :=
  .inl ⟨(), _, (), _, rfl, rfl, s, o, o', h, rfl, rfl⟩

/-- Two steps with the same result are one step, as far as they succeed. -/
theorem eq_ok {α : Type} {p q : Lower α} {a : α} {t : Lowering} (h : Abreast (Results Eq) p q s) :
    p s = (.ok a, t) ↔ q s = (.ok a, t) := by
  obtain ⟨b, u, b', u', hp, hq, rfl, rfl⟩ | ⟨e, u, e', u', hp, hq⟩ := h
  · rw [hp, hq]
  · rw [hp, hq]
    simp

/-- The value of a node whose operand looks different. -/
theorem eval_tops (h : Abreast Tops (visit n) (visit' n') s) :
    Abreast (Results Bare) (eval visit n) (eval visit' n') s := by
  unfold Abreast eval forValue
  obtain ⟨_, _, _, _, hp, hq, u, o, o', hbare, rfl, rfl⟩ | ⟨e, t, e', t', hp, hq⟩ := h
  · simp only [hp, hq, List.length_cons]
    by_cases hmark : u.operands.length + 1 ≤ s.operands.length
    · rw [if_pos hmark, if_pos hmark]
      exact .inr ⟨_, _, _, _, rfl, rfl⟩
    · rw [if_neg hmark, if_neg hmark]
      refine .inl ⟨_, _, _, _, rfl, rfl, hbare, ?_⟩
      obtain ⟨k, hk⟩ : ∃ k, u.operands.length + 1 - s.operands.length = k + 1 :=
        ⟨u.operands.length - s.operands.length, by omega⟩
      unfold truncate
      simp only [List.length_cons, hk, List.drop_succ_cons]
  · rw [hp, hq]
    exact .inr ⟨e, _, e', _, rfl, rfl⟩

/-- With no operand in front, nothing is left of the one on top. -/
theorem exec_tops (hs : s.operands = []) (h : Abreast Tops (visit n) (visit' n') s) :
    Abreast (Results Eq) (exec visit n) (exec visit' n') s := by
  unfold Abreast exec forEffect ensuring
  obtain ⟨_, _, _, _, hp, hq, u, o, o', hbare, rfl, rfl⟩ | ⟨e, t, e', t', hp, hq⟩ := h
  · rw [hp, hq]
    refine .inl ⟨(), _, (), _, rfl, rfl, rfl, ?_⟩
    unfold truncate
    simp [hs]
  · rw [hp, hq]
    exact .inr ⟨e, _, e', _, rfl, rfl⟩

theorem exec_results (h : Abreast (Results Eq) (visit n) (visit' n') s) :
    Abreast (Results Eq) (exec visit n) (exec visit' n') s := by
  unfold Abreast exec forEffect ensuring
  obtain ⟨_, t, _, _, hp, hq, rfl, rfl⟩ | ⟨e, t, e', t', hp, hq⟩ := h
  · rw [hp, hq]
    exact .inl ⟨(), _, (), _, rfl, rfl, rfl, rfl⟩
  · rw [hp, hq]
    exact .inr ⟨e, _, e', _, rfl, rfl⟩

/-- A value that looks different is put to the same place. -/
theorem put_value (place : Target) (value value' : Node) (h : Bare o o') :
    Abreast Tops (settle place value o) (settle place value' o') s := by
  obtain ⟨x, rfl⟩ := h.exists_surface
  unfold settle
  cases place with
  | slot id =>
    have stored : ∀ t, Abreast Tops (storeTarget (.slot id) o >>= fun _ => table >>= fun u => push (.ofSymbol u id))
        (storeTarget (.slot id) { o with surface := x } >>= fun _ => table >>= fun u => push (.ofSymbol u id)) t :=
      fun t => .after (storeTarget (.slot id) o) fun _ t => .after _ fun _ t => push_tops rfl
    refine .after _ fun table t => .guarded Iff.rfl (.ite Iff.rfl ?_ (stored t))
    exact .after (remember id o) fun _ t => stored t
  | field object id =>
    have stored : ∀ t, Abreast Tops (storeTarget (.field object id) o >>= fun _ => push o)
        (storeTarget (.field object id) { o with surface := x } >>= fun _ => push { o with surface := x }) t :=
      fun t => .after (storeTarget (.field object id) o) fun _ t => push_tops rfl
    refine .after _ fun table t => .guarded Iff.rfl (.ite Iff.rfl ?_ (stored t))
    exact .after (remember id o) fun _ t => stored t
  | element container key =>
    exact .after (storeTarget (.element container key) o) fun _ t => push_tops rfl

/-- An assignment of a value that looks different. -/
theorem assignTo_value (place : Target) (target : Node) (op : Token) (value value' n n' : Node) (h : Bare o o') :
    Abreast Tops (assignTo place o target op value n) (assignTo place o' target op value' n') s := by
  unfold assignTo
  refine .after _ fun _ t => ?_
  have finished : ∀ result result' t, Bare result result' →
      Abreast Tops (settle place value result) (settle place value' result') t :=
    fun result result' t hbare => put_value place value value' hbare
  refine Abreast.ite Iff.rfl ((Abreast.pure h).bind finished) ?_
  refine .after _ fun now t => ?_
  exact (binary_abreast op _ n n' rfl h).bind finished

/-- A variable is defined alike, however its value looks. -/
theorem defineVariable_value (name : Ident) (h : ∀ s, Abreast Tops (visit n) (visit' n') s) :
    Abreast (Results Eq) (defineVariable visit name (some n)) (defineVariable visit' name (some n')) s := by
  unfold defineVariable
  refine .after _ fun marks t => ?_
  refine (eval_tops (h t)).bind fun o o' t hbare => .after _ fun u t => ?_
  obtain ⟨x, rfl⟩ := hbare.exists_surface
  exact .guarded Iff.rfl (.same _)

end Abreast

/-! ## Trees -/

section
variable {depth bound levels : Nat} {fill : Node → Node} {tokens : List Token} {minus number signed : Token}
  {n n' : Node} {s : Lowering}

/-- Where the last operands are lowered alike, so are the trees. -/
theorem Node.Unfinished.abreast (h : Node.Unfinished depth fill tokens bound)
    (hn : ∀ levels s, Abreast Abreast.Tops (visit levels n) (visit levels n') s) (levels : Nat) (s : Lowering) :
    Abreast Abreast.Tops (visit levels (fill n)) (visit levels (fill n')) s := by
  induction h generalizing levels s with
  | operand => exact hn levels s
  | @binary _ op o l fill _ _ _ _ _ _ _ _ _ ih =>
    cases levels with
    | zero => exact .fail
    | succ levels =>
      change Abreast _ (eval (visit levels) l >>= fun l' => eval (visit levels) (fill n) >>= fun r =>
          Lower.binary op op.literal l' r _ >>= push)
        (eval (visit levels) l >>= fun l' => eval (visit levels) (fill n') >>= fun r =>
          Lower.binary op op.literal l' r _ >>= push) s
      refine Abreast.after _ fun left t => (Abreast.eval_tops (ih levels t)).bind fun r r' t hr => ?_
      exact (binary_abreast op _ _ _ rfl hr).bind fun _ _ t hbare => .push_tops hbare
  | @assign _ op o l fill _ _ _ _ _ _ _ _ ih =>
    cases levels with
    | zero => exact .fail
    | succ levels =>
      change Abreast _ (Lower.assign (visit levels) l op (fill n) _) (Lower.assign (visit levels) l op (fill n') _) s
      rw [assign_eq, assign_eq]
      refine (Abreast.eval_tops (ih levels s)).bind fun given given' t hbare => ?_
      exact .after _ fun place t => .assignTo_value place l op _ _ _ _ hbare

theorem hasOpposite_of_read {v : Int} (h : Decimal.readWord? number.literal = some v)
    (h' : Decimal.readWord? signed.literal = some (-v)) : hasOpposite v = true := by
  unfold hasOpposite
  rw [(Option.filter_eq_some_iff.mp h).2, (Option.filter_eq_some_iff.mp h').2]
  rfl

/-- The opposite of a number is the same operand, however it is written. -/
theorem Token.Opposed.abreast (h : Token.Opposed minus number signed) {v : Int}
    (hv : Decimal.readWord? number.literal = some v) (levels : Nat) (s : Lowering) :
    Abreast Abreast.Tops (visit levels (.unary minus (.int number v))) (visit levels (.int signed (-v))) s := by
  have hvalue := h.value
  rw [hv] at hvalue
  have hopposite : hasOpposite v = true := hasOpposite_of_read hv hvalue
  cases levels with
  | zero => exact .fail
  | succ levels =>
    have hfold : visit (levels + 1) (.unary minus (.int number v)) =
        push (.literal (Spelling.ofInt (-v)) .int (.unary minus (.int number v))) := by
      change Lower.unary _ minus (.int number v) _ = _
      unfold Lower.unary
      simp only [h.isMinus, Operand.ofLiteral?, beq_self_eq_true, if_true, wrapWord_neg hopposite]
    rw [hfold]
    exact .push_tops rfl

/-- A statement that ends in the opposite of a number is lowered alike, however that is written. -/
theorem Parse.Opposites.abreast (h : Node.Opening fill tokens) (hopposed : Token.Opposed minus number signed)
    (hn : Parse.Opposites minus number signed fill n n') (hs : s.operands = []) :
    Abreast (Abreast.Results Eq) (exec (visit levels) n) (exec (visit levels) n') s := by
  obtain ⟨v, hv, rfl, rfl⟩ := hn
  have hlast := hopposed.abreast hv
  cases h with
  | expression h => exact .exec_tops hs (h.abreast hlast levels s)
  | definition =>
    cases levels with
    | zero => exact .exec_results Abreast.fail
    | succ levels =>
      refine .exec_results ?_
      change Abreast _ (defineVariable (visit levels) _ (some _) >>= fun _ => pure ())
        (defineVariable (visit levels) _ (some _) >>= fun _ => pure ()) s
      exact (Abreast.defineVariable_value _ (hlast levels)).bind fun _ _ t _ => Abreast.same _

end

/-! ## Programs -/

section
variable {levels : Nat} {n n' : Node} {ns more : List Node} {s t : Lowering}

/-- Where notes are not wanted, none is made. -/
theorem annotate_quiet (hquiet : s.out.annotate = false) (n : Node) : annotate n s = (.ok (), s) := by
  unfold annotate change
  simp [hquiet]

/-- Items leave no operands behind. -/
theorem operands_items {visit : Visit} {u : Unit} (h : items visit ns s = (.ok u, t)) (hs : s.operands = []) :
    t.operands = [] := by
  induction ns generalizing s with
  | nil =>
    cases h
    exact hs
  | cons n ns ih =>
    obtain ⟨_, s₁, hitem, h⟩ := bind_eq_ok.mp h
    obtain ⟨_, s₀, hnote, hitem⟩ := bind_eq_ok.mp hitem
    have hs₀ : s₀.operands = [] := by
      unfold annotate change at hnote
      cases hnote
      change Lowering.operands (if s.out.annotate = true then _ else s) = []
      split <;> exact hs
    refine ih h ?_
    unfold exec forEffect ensuring at hitem
    cases hvisit : visit n s₀ with
    | mk r v =>
      simp only [hvisit] at hitem
      cases hitem
      unfold truncate
      simp [hs₀]

/-- Items of which one is lowered alike. -/
theorem items_abreast (hs : s.operands = []) (hquiet : s.out.annotate = false)
    (hn : ∀ t, t.operands = [] → Abreast (Abreast.Results Eq) (exec (visit levels) n) (exec (visit levels) n') t) :
    Abreast (Abreast.Results Eq) (items (visit levels) (ns ++ n :: more))
      (items (visit levels) (ns ++ n' :: more)) s := by
  unfold items
  rw [forAll_append, forAll_append]
  refine (Abreast.same _).bind_run fun _ _ t hrun _ => ?_
  obtain ⟨⟨code, hout⟩, -⟩ := items_source hrun
  have hquiet' : t.out.annotate = false := by rw [hout, CodeBuffer.annotate_append, hquiet]
  have ht := operands_items hrun hs
  have hone : ∀ m, (annotate m >>= fun _ => exec (visit levels) m) t = exec (visit levels) m t :=
    fun m => bind_of_ok (annotate_quiet hquiet' m) _
  have hexec := hn t ht
  have hstep : Abreast (Abreast.Results Eq) (annotate n >>= fun _ => exec (visit levels) n)
      (annotate n' >>= fun _ => exec (visit levels) n') t := by
    unfold Abreast
    rw [hone, hone]
    exact hexec
  exact hstep.bind fun _ _ t _ => .same _

theorem operands_startFile {file : String} (h : startFile file s = (.ok (), t)) :
    t.operands = s.operands ∧ t.out = s.out := by
  unfold startFile at h
  split at h
  · cases h
    exact ⟨rfl, rfl⟩
  · split at h
    · cases h
    · cases h
      exact ⟨rfl, rfl⟩

/-- A program in which one item is written differently, but lowered alike, is compiled to the same code. -/
theorem Session.compile_abreast {session after : Session} {files : FileTree} {p q : Program} {src : Source}
    {code : Code} (hfile : q.file = p.file) (hp : p.body = ns ++ n :: more) (hq : q.body = ns ++ n' :: more)
    (hn : ∀ s, s.operands = [] →
      Abreast (Abreast.Results Eq) (exec (visit Session.levels) n) (exec (visit Session.levels) n') s) :
    session.compile files false p src = (.ok code, after) ↔
      session.compile files false q src = (.ok code, after) := by
  rw [Session.compile_eq_ok, Session.compile_eq_ok]
  refine exists_congr fun final => and_congr_left fun _ => ?_
  rw [Session.lower_eq_ok, Session.lower_eq_ok, Locality.unit_eq_ok, Locality.unit_eq_ok, hp, hq, hfile]
  refine and_congr_left fun _ => exists_congr fun s₁ => exists_congr fun s₂ => ?_
  refine and_congr_right fun hstart => and_congr_left fun _ => ?_
  obtain ⟨hoperands, hout⟩ := operands_startFile hstart
  exact Abreast.eq_ok (items_abreast hoperands (by rw [hout]; rfl) hn)

end

end Frontend
