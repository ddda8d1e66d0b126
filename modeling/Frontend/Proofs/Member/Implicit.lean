import Frontend.Proofs.Member.Surface

/-!
# Members without their object

In the code of a class its members may be named without the object. A bare name means the member that the
explicit form means, taken from the same object, and where both forms are accepted they become the same code.
They differ in one point: only the explicit form asks for permission.
-/

namespace Frontend

open Lower

/-- A place in the code of a class: the object at hand, if there is one, is an instance of the class. -/
structure InBody (s : Lowering) (cls : SymbolId) : Prop where
  inside : s.processing.find? (fun id => (s.session.symbols.get id).class?.isSome) = some cls
  registered : s.session.symbols.type? (s.session.symbols.get cls).rid = some cls
  numbered : (s.session.symbols.get cls).rid.isEmpty = false
  this : ∀ id, s.session.symbols.findInFunction? "this" = some id → ∃ v, (s.session.symbols.get id).detail = .var v ∧
    v.type = .ofClass (s.session.symbols.get cls).name (s.session.symbols.get cls).rid

/-- A bare name that no visible symbol has. -/
structure Unbound (s : Lowering) (name : Ident) : Prop where
  bare : name.labels = []
  unknown : ∀ id, s.session.symbols.lookup name.name name.token.pos ≠ .ok id

/-- The object of the explicit form: `this` for a member of instances, the name of the class for a static one. -/
inductive ExplicitObject (s : Lowering) (cls : SymbolId) (name : String) : Node → Prop
  | this (token : Token) : (∀ m, s.session.symbols.member? cls name = some m →
      s.session.symbols.isStaticMember cls m = false) → ExplicitObject s cls name (.this token)
  | ofClass (own : Ident) : own.labels = [] → s.session.symbols.lookup own.name own.token.pos = .ok cls →
      (∀ m, s.session.symbols.member? cls name = some m → s.session.symbols.isStaticMember cls m = true) →
      ExplicitObject s cls name (.ident own)

/-- Whether code of a class may use a member of it, which may come from a class above. -/
def Permits (s : Lowering) (cls : SymbolId) (name : String) : Prop :=
  ∀ m, s.session.symbols.member? cls name = some m →
    (s.session.symbols.assertedPermission (some cls) (some ((memberOwner s.session.symbols m).getD cls))).allows
      (s.session.symbols.get m).permission = true

/-- How a member is used. -/
inductive Use where
  | read
  | call (opener closer : Token) (args : List Node)
  | assign (op : Token) (value : Node)
  | increment (op : Token)

/-- A step is accepted in a state. -/
def Accepted {α : Type} (p : Lower α) (s : Lowering) : Prop := ∃ a t, p s = (.ok a, t)

def Use.node (n : Node) : Use → Node
  | read => n
  | call opener closer args => .call n opener closer args
  | assign op value => .assign n op value
  | increment op => .increment n op

/-- The name is looked up in a state; the value of an assignment comes before that. -/
def Use.Reaches (visit : Visit) (s : Lowering) : Use → Lowering → Prop
  | assign _ value, t => ∃ o, eval visit value s = (.ok o, t)
  | _, t => t = s

variable {s : Lowering} {cls : SymbolId} {name : Ident} {object : Node} {levels : Nat}
variable {n : Node} {o : Operand} {u t : Lowering} {found : Found}

/-! ## The object -/

theorem Lower.eval_pushed {visit : Visit} (h : visit n s = (.ok (), { u with operands := o :: u.operands }))
    (hu : u.operands = s.operands) : eval visit n s = (.ok o, u) := by
  unfold eval forValue
  simp [h, truncate, ← hu]

section
variable (h : InBody s cls)
include h

theorem InBody.currentClass : Lower.currentClass s = (.ok (some cls), s) := by
  exact congrArg (fun found => (Except.ok found, s)) h.inside

theorem InBody.isClass : (s.session.symbols.get cls).class?.isSome = true :=
  List.find?_some (p := fun id => (s.session.symbols.get id).class?.isSome) h.inside

/-- The object at hand is an instance of the class. -/
theorem InBody.classOf_this {id : SymbolId} (hid : s.session.symbols.findInFunction? "this" = some id)
    (pos : Position) : (Operand.ofSymbol s.session.symbols id).effective.isClass = true ∧
      s.session.symbols.classOf (Operand.ofSymbol s.session.symbols id).effective pos = .ok cls := by
  obtain ⟨v, hdetail, htype⟩ := h.this id hid
  have heffective : (Operand.ofSymbol s.session.symbols id).effective =
      .ofClass (s.session.symbols.get cls).name (s.session.symbols.get cls).rid := by
    simp [Operand.ofSymbol, Operand.effective, hdetail, htype, Tag.ofClass, Tag.isMissing, Tag.isAny, Tag.is, h.numbered]
  have hclass : (Tag.ofClass (s.session.symbols.get cls).name (s.session.symbols.get cls).rid).isClass = true := by
    simp [Tag.ofClass, Tag.isClass, h.numbered]
  rw [heffective]
  refine ⟨hclass, ?_⟩
  unfold SymbolTable.classOf
  rw [if_neg (by simp [hclass]), show (Tag.ofClass (s.session.symbols.get cls).name
    (s.session.symbols.get cls).rid).rid = (s.session.symbols.get cls).rid from rfl, h.registered]

/-- The name of the class stands for it. -/
theorem InBody.class_ofSymbol : (Operand.ofSymbol s.session.symbols cls).effective.isClass = false ∧
    (Operand.ofSymbol s.session.symbols cls).class? s.session.symbols = some cls := by
  have hclass := h.isClass
  unfold Symbol.class? at hclass
  cases hdetail : (s.session.symbols.get cls).detail with
  | cls c => simp [Operand.ofSymbol, Operand.effective, Operand.class?, Symbol.class?, hdetail, Tag.isClass, Tag.any,
      Tag.ofType, Tag.isMissing, Option.filter]
  | function f | var v | parameter v k | target => simp [hdetail] at hclass

omit h

/-- What both forms find: the same member of the same object, which may look different. -/
def SameMember (found found' : Found) : Prop :=
  found'.object.raw = found.object.raw ∧ found'.member = found.member ∧ found'.cls = found.cls

include h

/-- What the permission of the place says about a member. -/
theorem InBody.memberFor (pos : Position) : ∃ asserted, assertedFor cls name.name s = (.ok asserted, s) ∧
      ((Permits s cls name.name ∧ ∃ m, s.session.symbols.member? cls name.name = some m ∧
          s.session.symbols.memberFor cls name.name asserted pos = .ok m) ∨
        (¬ Permits s cls name.name ∨ s.session.symbols.member? cls name.name = none) ∧
          ∃ d, s.session.symbols.memberFor cls name.name asserted pos = .error d) := by
  refine ⟨s.session.symbols.assertedPermission (some cls)
    (some (((s.session.symbols.member? cls name.name).bind (memberOwner s.session.symbols)).getD cls)), ?_, ?_⟩
  · unfold assertedFor
    change andThen Lower.currentClass (fun inside => pure (s.session.symbols.assertedPermission inside (some _))) s = _
    unfold andThen
    rw [h.currentClass]
    rfl
  · unfold SymbolTable.memberFor Permits
    cases hm : s.session.symbols.member? cls name.name with
    | none => exact .inr ⟨.inr rfl, _, rfl⟩
    | some m =>
      simp only [Option.bind_some, Option.some.injEq, forall_eq']
      split
      · next hallowed => exact .inl ⟨hallowed, m, rfl, rfl⟩
      · next hrefused => exact .inr ⟨.inl hrefused, _, rfl⟩


/-! ## What both forms find -/

/-- The object of the explicit form has a value, or it is `this` where there is no object. -/
theorem ExplicitObject.eval (hobject : ExplicitObject s cls name.name object) :
    (∃ id, s.session.symbols.findInFunction? "this" = some id ∧
      (∀ m, s.session.symbols.member? cls name.name = some m → s.session.symbols.isStaticMember cls m = false) ∧
      Lower.eval (visit (levels + 1)) object s =
        (.ok { Operand.ofSymbol s.session.symbols id with surface := .word "this" }, s)) ∨
    ((∀ m, s.session.symbols.member? cls name.name = some m → s.session.symbols.isStaticMember cls m = true) ∧
      Lower.eval (visit (levels + 1)) object s = (.ok (Operand.ofSymbol s.session.symbols cls), s)) ∨
    s.session.symbols.findInFunction? "this" = none ∧
      (∀ m, s.session.symbols.member? cls name.name = some m → s.session.symbols.isStaticMember cls m = false) ∧
      ∃ e t, Lower.eval (visit (levels + 1)) object s = (.error e, t) := by
  cases hobject with
  | this token hinstance =>
    have hvisit : visit (levels + 1) (.this token) s = Lower.this token.pos s := rfl
    have hthis := (rfl : Lower.this token.pos s = _)
    conv at hthis =>
      rhs
      unfold Lower.this
      rw [table_bind]
    cases hid : s.session.symbols.findInFunction? "this" with
    | some id =>
      rw [hid] at hthis
      exact .inl ⟨id, rfl, hinstance, eval_pushed (hvisit.trans hthis) rfl⟩
    | none =>
      rw [hid] at hthis
      refine .inr (.inr ⟨rfl, hinstance, ?_⟩)
      unfold Lower.eval forValue
      rw [hvisit, hthis]
      exact ⟨_, _, rfl⟩
  | ofClass own hlabels hlookup hstatic =>
    refine .inr (.inl ⟨hstatic, eval_pushed ?_ rfl⟩)
    obtain ⟨c, hc⟩ := Option.isSome_iff_exists.mp h.isClass
    have hdetail : (s.session.symbols.get cls).detail = .cls c := by
      unfold Symbol.class? at hc
      cases hd : (s.session.symbols.get cls).detail <;> simp_all
    change Lower.ident own (.ident own) s = _
    unfold Lower.ident
    rw [hlabels]
    refine (table_bind _).trans ?_
    rw [hlookup]
    dsimp only
    rw [hdetail]
    rfl

/-- Through an object whose class is known, a member is found if the permission allows it. -/
theorem InBody.resolveMember_eq {visit : Visit} {raw : String} (heval : eval visit object s = (.ok o, s))
    (hclass : (o.effective.isClass = true ∧ o.raw = raw ∧ ∀ pos, s.session.symbols.classOf o.effective pos = .ok cls) ∨
      o.effective.isClass = false ∧ (Operand.ofSymbol s.session.symbols cls).raw = raw ∧
        o.class? s.session.symbols = some cls ∧
        ∀ m, s.session.symbols.member? cls name.name = some m → s.session.symbols.isStaticMember cls m = true) :
    (∃ m found, s.session.symbols.member? cls name.name = some m ∧ Permits s cls name.name ∧ found.member = m ∧
      found.cls = cls ∧ found.object.raw = raw ∧ resolveMember visit object name s = (.ok found, s)) ∨
    (¬ Permits s cls name.name ∨ s.session.symbols.member? cls name.name = none) ∧
      ∃ e t, resolveMember visit object name s = (.error e, t) := by
  obtain ⟨asserted, hasserted, hcases⟩ := h.memberFor name.token.pos
  unfold resolveMember
  rw [bind_of_ok heval, table_bind]
  dsimp only
  obtain ⟨htype, rfl, hof⟩ | ⟨htype, rfl, hof, hstatic⟩ := hclass
  · simp only [htype, if_true, hof]
    rw [if_neg (by simp), bind_of_ok (rfl : ofExcept (.ok cls) s = (.ok cls, s)), bind_of_ok hasserted]
    obtain ⟨hpermits, m, hm, hfound⟩ | ⟨hrefused, d, hfound⟩ := hcases
    · rw [hfound]
      exact .inl ⟨m, ⟨o, m, cls⟩, hm, hpermits, rfl, rfl, rfl, rfl⟩
    · rw [hfound]
      exact .inr ⟨hrefused, _, _, rfl⟩
  · simp only [htype, hof, Bool.false_eq_true, if_false]
    rw [bind_of_ok hasserted]
    obtain ⟨hpermits, m, hm, hfound⟩ | ⟨hrefused, d, hfound⟩ := hcases
    · rw [hfound, bind_of_ok (rfl : ofExcept (.ok m) s = (.ok m, s)), hstatic m hm]
      exact .inl ⟨m, ⟨{ Operand.ofSymbol s.session.symbols cls with surface := .node object }, m, cls⟩, hm, hpermits,
        rfl, rfl, rfl, rfl⟩
    · rw [hfound]
      exact .inr ⟨hrefused, _, _, rfl⟩

theorem InBody.implicitMember_eq (word : String) : implicitMember word s =
    (.ok ((s.session.symbols.member? cls word).bind fun m =>
      if s.session.symbols.isStaticMember cls m then some ⟨.ofSymbol s.session.symbols cls, m, cls⟩
      else (s.session.symbols.findInFunction? "this").map fun this => ⟨.ofSymbol s.session.symbols this, m, cls⟩), s) := by
  unfold implicitMember
  rw [table_bind, bind_of_ok h.currentClass]
  dsimp only
  cases s.session.symbols.member? cls word with
  | none => rfl
  | some m =>
    dsimp only [Option.bind_some]
    split <;> rfl

/-- Both forms find the same member, or neither finds one; the explicit form also fails without the permission. -/
theorem resolve_cases (hobject : ExplicitObject s cls name.name object) :
    (Permits s cls name.name ∧ ∃ found found', SameMember found found' ∧
      resolveMember (visit (levels + 1)) object name s = (.ok found, s) ∧
      implicitMember name.name s = (.ok (some found'), s)) ∨
    (Permits s cls name.name → implicitMember name.name s = (.ok none, s)) ∧
      ∃ e t, resolveMember (visit (levels + 1)) object name s = (.error e, t) := by
  have himplicit := h.implicitMember_eq name.name
  have lost : s.session.symbols.member? cls name.name = none → implicitMember name.name s = (.ok none, s) := by
    intro hm
    rw [himplicit, hm]
    rfl
  obtain ⟨id, hid, hinstance, heval⟩ | ⟨hstatic, heval⟩ | ⟨hid, hinstance, e, t, heval⟩ := hobject.eval h
  · obtain ⟨m, found, hm, hpermits, hmember, hcls, hraw, hrun⟩ | ⟨hrefused, hrun⟩ := h.resolveMember_eq
      heval (.inl ⟨(h.classOf_this hid {}).1, rfl, fun pos => (h.classOf_this hid pos).2⟩)
    · rw [hm, hid] at himplicit
      refine .inl ⟨hpermits, found, ⟨.ofSymbol s.session.symbols id, m, cls⟩, ⟨hraw.symm, hmember.symm, hcls.symm⟩, hrun, ?_⟩
      simpa [hinstance m hm] using himplicit
    · exact .inr ⟨fun hp => lost (hrefused.resolve_left (not_not_intro hp)), hrun⟩
  · obtain ⟨htype, hof⟩ := h.class_ofSymbol
    obtain ⟨m, found, hm, hpermits, hmember, hcls, hraw, hrun⟩ | ⟨hrefused, hrun⟩ := h.resolveMember_eq
      heval (.inr ⟨htype, rfl, hof, hstatic⟩)
    · rw [hm] at himplicit
      refine .inl ⟨hpermits, found, ⟨.ofSymbol s.session.symbols cls, m, cls⟩, ⟨hraw.symm, hmember.symm, hcls.symm⟩, hrun, ?_⟩
      simpa [hstatic m hm] using himplicit
    · exact .inr ⟨fun hp => lost (hrefused.resolve_left (not_not_intro hp)), hrun⟩
  · refine .inr ⟨fun _ => ?_, e, t, ?_⟩
    · cases hm : s.session.symbols.member? cls name.name with
      | none => exact lost hm
      | some m =>
        rw [hm, hid] at himplicit
        simpa [hinstance m hm] using himplicit
    · change andThen (Lower.eval (visit (levels + 1)) object) _ s = _
      unfold andThen
      rw [heval]

end

/-! ## How a member is used -/

variable {dot : Token}

/-- Two states that are alike but for the operand on top, which looks different in each. -/
def Pushed (s : Lowering) : Unit → Lowering → Unit → Lowering → Prop := fun _ t _ t' =>
  ∃ (u : Lowering) (o o' : Operand), u.operands = s.operands ∧ Abreast.Bare o o' ∧
    t = { u with operands := o :: u.operands } ∧ t' = { u with operands := o' :: u.operands }

theorem readMember_cases {found' : Found} (h : SameMember found found') (n n' : Node) :
    (∃ (o o' : Operand) (u : Lowering), u.operands = s.operands ∧ Abreast.Bare o o' ∧
      readMember found n s = (.ok (some o), u) ∧ readMember found' n' s = (.ok (some o'), u)) ∨
    readMember found n s = (.ok none, s) ∧ readMember found' n' s = (.ok none, s) := by
  obtain ⟨hraw, hmember, hcls⟩ := h
  unfold readMember
  rw [hraw, hmember, hcls]
  rw [table_bind, table_bind]
  dsimp only
  cases (s.session.symbols.get found.member).detail with
  | var v =>
    refine .inl ⟨_, _, _, ?_, ?_, rfl, rfl⟩
    · rfl
    · rfl
  | function f =>
    refine .inl ⟨_, _, _, ?_, ?_, rfl, rfl⟩
    · rfl
    · rfl
  | cls c | parameter v k | target => exact .inr ⟨rfl, rfl⟩

/-- A member without its object that has been found is read. -/
def Lower.readFound (n : Node) (d : Diagnostic) : Option Found → Lower Unit
  | none => fail d
  | some found => do
    match ← readMember found n with
    | some o => push o
    | none => fail d

theorem readFound_of_ok {d : Diagnostic} {o : Option Operand} (hread : readMember found n s = (.ok o, u)) :
    readFound n d (some found) s = (o.elim (fail d) push) u := by
  unfold readFound
  refine (bind_of_ok hread _).trans ?_
  cases o <;> rfl

/-- A bare name without a symbol is a member. -/
theorem ident_eq (hname : Unbound s name) (n : Node) :
    ∃ d, ident name n s = (implicitMember name.name >>= readFound n d) s := by
  have hlookup := hname.unknown
  unfold ident
  rw [hname.bare]
  cases hfound : s.session.symbols.lookup name.name name.token.pos with
  | ok id => exact absurd hfound (hlookup id)
  | error d =>
    refine ⟨d, ?_⟩
    refine (table_bind _).trans ?_
    rw [hfound]
    refine congrArg (fun k => (implicitMember name.name >>= k) s) ?_
    funext found
    cases found <;> rfl

theorem member_abreast (h : InBody s cls) (hname : Unbound s name) (hobject : ExplicitObject s cls name.name object)
    (hpermits : Permits s cls name.name) : Abreast (Pushed s) (visit (levels + 2) (.member object dot name))
      (visit (levels + 2) (.ident name)) s := by
  obtain ⟨d, hident⟩ := ident_eq hname (.ident name)
  change Abreast (Pushed s) (Lower.member (visit (levels + 1)) object name (.member object dot name))
    (Lower.ident name (.ident name)) s
  unfold Abreast
  rw [hident]
  unfold Lower.member
  obtain ⟨-, found, found', hsame, hrun, hrun'⟩ | ⟨himplicit, e, t, hrun⟩ := resolve_cases h hobject
  · rw [bind_of_ok hrun, bind_of_ok hrun']
    obtain ⟨o, o', u, hu, hbare, hread, hread'⟩ | ⟨hread, hread'⟩ := readMember_cases (s := s) hsame
      (.member object dot name) (.ident name)
    · rw [bind_of_ok hread, readFound_of_ok hread']
      exact .inl ⟨(), _, (), _, rfl, rfl, u, { o with surface := .node (.member object dot name) }, o', hu, hbare, rfl, rfl⟩
    · rw [bind_of_ok hread, readFound_of_ok hread']
      exact Abreast.fail
  · rw [bind_of_ok (himplicit hpermits)]
    exact .inr ⟨e, t, _, s, bind_of_error hrun _, rfl⟩

theorem not_accepted_member (h : InBody s cls) (hobject : ExplicitObject s cls name.name object)
    (hrefused : ¬ Permits s cls name.name) : ∃ e t, visit (levels + 2) (.member object dot name) s = (.error e, t) := by
  obtain ⟨hpermits, -⟩ | ⟨-, e, t, hrun⟩ := resolve_cases h hobject
  · exact absurd hpermits hrefused
  · exact ⟨e, t, bind_of_error hrun _⟩

theorem eval_abreast {visit visit' : Visit} {n' : Node} (h : Abreast (Pushed s) (visit n) (visit' n') s) :
    Abreast (Abreast.Results Abreast.Bare) (eval visit n) (eval visit' n') s := by
  obtain ⟨_, _, _, _, hp, hq, u, o, o', hu, hbare, rfl, rfl⟩ | ⟨e, t, e', t', hp, hq⟩ := h
  · exact .inl ⟨o, u, o', u, eval_pushed hp hu, eval_pushed hq hu, hbare, rfl⟩
  · exact .inr ⟨e, _, e', _, eval_of_error hp, eval_of_error hq⟩

/-- A member that has been found is a target if it is a field. -/
def Lower.targetOf (t : SymbolTable) (d : Diagnostic) (found : Found) : Lower Target :=
  if (t.get found.member).detail matches .var _ then return .field found.object found.member else fail d

theorem resolveTarget_member_eq (visit : Visit) : resolveTarget visit (.member object dot name) =
    resolveMember visit object name >>= fun found => table >>= fun t =>
      targetOf t (Complaint.unsupported (.member object dot name)) found := by
  rfl

theorem resolveTarget_ident_eq (visit : Visit) (hname : Unbound s name) :
    ∃ d, resolveTarget visit (.ident name) s = (implicitMember name.name >>= fun found =>
      found.elim (fail d) (targetOf s.session.symbols d)) s := by
  unfold resolveTarget
  dsimp only
  rw [hname.bare]
  cases hfound : s.session.symbols.lookup name.name name.token.pos with
  | ok id => exact absurd hfound (hname.unknown id)
  | error d =>
    refine ⟨d, ?_⟩
    refine (table_bind _).trans ?_
    rw [hfound]
    refine congrArg (fun k => (implicitMember name.name >>= k) s) ?_
    funext found
    cases found <;> rfl

/-- As a target a bare name means the field that the explicit form means. -/
theorem target_abreast (h : InBody s cls) (hname : Unbound s name) (hobject : ExplicitObject s cls name.name object)
    (hpermits : Permits s cls name.name) : Abreast (Abreast.Results SameField)
      (resolveTarget (visit (levels + 1)) (.member object dot name)) (resolveTarget (visit (levels + 1)) (.ident name)) s := by
  obtain ⟨d, htarget⟩ := resolveTarget_ident_eq (visit (levels + 1)) hname
  unfold Abreast
  rw [htarget, resolveTarget_member_eq]
  obtain ⟨-, found, found', ⟨hraw, hmember, hcls⟩, hrun, hrun'⟩ | ⟨himplicit, e, t, hrun⟩ :=
    resolve_cases h hobject
  · rw [bind_of_ok hrun, bind_of_ok hrun', table_bind]
    dsimp only [Option.elim_some]
    unfold targetOf
    rw [hmember]
    exact Abreast.ite Iff.rfl (Abreast.pure ⟨_, _, _, hraw, rfl, rfl⟩) Abreast.fail
  · rw [bind_of_ok (himplicit hpermits)]
    exact .inr ⟨e, t, _, s, bind_of_error hrun _, rfl⟩

/-- Lowering a node does not change which built-in functions there are. -/
theorem builtins_of_blurs {α : Type} {f : α → α} {p q : Lower α} {r : Except Failure α} (h : Blurs Blur.notes f p q)
    (hplaceless : s.session.builtins.Placeless) (hrun : p s = (r, t)) : t.session.builtins = s.session.builtins := by
  have hspares : Blur.notes.Spares s.session.builtins := fun word e hfind call supply n =>
    (hplaceless word e hfind call supply _).trans (hplaceless word e hfind call supply _).symm
  have hkeeps := h.keeps s ⟨hspares, .inl rfl⟩
  rw [hrun] at hkeeps
  exact hkeeps.builtins

theorem Pushed.looks {v : Lowering} (h : Pushed s () u () v) : Abreast.Looks () u () v := by
  obtain ⟨t, o, o', -, hbare, rfl, rfl⟩ := h
  have hbare : o'.bare = o.bare := hbare
  simp [Abreast.Looks, Lowering.bare, hbare]

/-- Wherever the permission allows the member, both forms are lowered alike. -/
theorem use_abreast (use : Use) (hplaceless : s.session.builtins.Placeless)
    (hplace : ∀ t, use.Reaches (visit (levels + 2)) s t →
      InBody t cls ∧ Unbound t name ∧ ExplicitObject t cls name.name object ∧ Permits t cls name.name) :
    Abreast Abreast.Looks (visit (levels + 3) (use.node (.member object dot name)))
      (visit (levels + 3) (use.node (.ident name))) s := by
  cases use with
  | read =>
    obtain ⟨h, hname, hobject, hpermits⟩ := hplace s rfl
    obtain ⟨_, _, _, _, hp, hq, hpushed⟩ | hfail :=
      member_abreast h hname hobject hpermits
    · exact .inl ⟨_, _, _, _, hp, hq, hpushed.looks⟩
    · exact .inr hfail
  | call opener closer args =>
    obtain ⟨h, hname, hobject, hpermits⟩ := hplace s rfl
    change Abreast _ (Lower.call (visit (levels + 2)) (.member object dot name) args _)
      (Lower.call (visit (levels + 2)) (.ident name) args _) s
    rw [call_eq, call_eq]
    refine (eval_abreast (member_abreast h hname hobject hpermits)).bind_run fun o o' t hcallee hbare => ?_
    have hcallee := builtins_of_blurs (.eval (.visit_moved _) _) hplaceless hcallee
    refine (Abreast.same _).bind_run fun given given' u hgiven hsame => ?_
    cases hsame
    have hgiven := builtins_of_blurs (.collect (.argument (.visit_moved _))) (hcallee ▸ hplaceless) hgiven
    exact callValue_abreast hbare (hgiven ▸ hcallee ▸ hplaceless)
  | assign op value =>
    change Abreast _ (Lower.assign (visit (levels + 2)) (.member object dot name) op value _)
      (Lower.assign (visit (levels + 2)) (.ident name) op value _) s
    rw [assign_eq, assign_eq]
    refine (Abreast.same _).bind_run fun given given' t hgiven hsame => ?_
    cases hsame
    obtain ⟨h, hname, hobject, hpermits⟩ := hplace t ⟨given, hgiven⟩
    exact (target_abreast h hname hobject hpermits).bind fun _ _ u hsame => assignTo_abreast hsame ..
  | increment op =>
    obtain ⟨h, hname, hobject, hpermits⟩ := hplace s rfl
    change Abreast _ (Lower.increment (visit (levels + 2)) (.member object dot name) op _)
      (Lower.increment (visit (levels + 2)) (.ident name) op _) s
    rw [increment_eq, increment_eq]
    exact (target_abreast h hname hobject hpermits).bind fun _ _ u hsame => incrementAt_abreast hsame ..

/-- Where the permission does not allow the member, the explicit form is refused however the member is used. -/
theorem use_refused (use : Use) (hreaches : use.Reaches (visit (levels + 2)) s t) (h : InBody t cls)
    (hobject : ExplicitObject t cls name.name object) (hrefused : ¬ Permits t cls name.name) :
    ¬ Accepted (visit (levels + 3) (use.node (.member object dot name))) s := by
  have htarget : ∃ e u, resolveTarget (visit (levels + 2)) (.member object dot name) t = (.error e, u) := by
    obtain ⟨hpermits, -⟩ | ⟨-, e, u, hrun⟩ := resolve_cases h hobject
    · exact absurd hpermits hrefused
    · exact ⟨e, u, bind_of_error hrun _⟩
  rintro ⟨r, v, hrun⟩
  cases use with
  | read =>
    cases hreaches
    obtain ⟨e, u, hmember⟩ := not_accepted_member h hobject hrefused
    cases hmember.symm.trans hrun
  | call opener closer args =>
    cases hreaches
    obtain ⟨e, u, hmember⟩ := not_accepted_member h hobject hrefused
    cases (bind_of_error (eval_of_error hmember) _).symm.trans hrun
  | assign op value =>
    obtain ⟨o, hvalue⟩ := hreaches
    obtain ⟨e, u, htarget⟩ := htarget
    cases ((bind_of_ok hvalue _).trans (bind_of_error htarget _)).symm.trans hrun
  | increment op =>
    cases hreaches
    obtain ⟨e, u, htarget⟩ := htarget
    cases (bind_of_error htarget _).symm.trans hrun

/-- The explicit form of a member is accepted exactly where the bare name is and the permission allows the member,
and then both become the same code. -/
theorem explicit_accepted_iff (use : Use) (hplaceless : s.session.builtins.Placeless)
    (hplace : ∀ t, use.Reaches (visit (levels + 2)) s t →
      InBody t cls ∧ Unbound t name ∧ ExplicitObject t cls name.name object) :
    (Accepted (visit (levels + 3) (use.node (.member object dot name))) s ↔
      Accepted (visit (levels + 3) (use.node (.ident name))) s ∧
        ∀ t, use.Reaches (visit (levels + 2)) s t → Permits t cls name.name) ∧
    ∀ t t', visit (levels + 3) (use.node (.member object dot name)) s = (.ok (), t) →
      visit (levels + 3) (use.node (.ident name)) s = (.ok (), t') → t'.bare = t.bare := by
  by_cases hpermits : ∀ t, use.Reaches (visit (levels + 2)) s t → Permits t cls name.name
  · obtain ⟨_, u, _, u', hp, hq, hlooks⟩ | ⟨e, u, e', u', hp, hq⟩ := use_abreast use hplaceless fun t ht =>
      ⟨(hplace t ht).1, (hplace t ht).2.1, (hplace t ht).2.2, hpermits t ht⟩
    · refine ⟨⟨fun _ => ⟨⟨_, u', hq⟩, hpermits⟩, fun _ => ⟨_, u, hp⟩⟩, fun t t' ht ht' => ?_⟩
      cases hp.symm.trans ht
      cases hq.symm.trans ht'
      exact hlooks
    · refine ⟨⟨?_, ?_⟩, fun t t' ht _ => ?_⟩
      · rintro ⟨_, t, ht⟩
        cases hp.symm.trans ht
      · rintro ⟨⟨_, t, ht⟩, -⟩
        cases hq.symm.trans ht
      · cases hp.symm.trans ht
  · obtain ⟨t, hreaches, hrefused⟩ : ∃ t, use.Reaches (visit (levels + 2)) s t ∧ ¬ Permits t cls name.name := by
      simpa using hpermits
    obtain ⟨h, -, hobject⟩ := hplace t hreaches
    have hnot : ¬ Accepted (visit (levels + 3) (use.node (.member object dot name))) s :=
      use_refused use hreaches h hobject hrefused
    exact ⟨⟨fun haccepted => absurd haccepted hnot, fun haccepted => absurd haccepted.2 hpermits⟩,
      fun u _ hu _ => absurd ⟨_, u, hu⟩ hnot⟩

/-- The body of a method of a class `B`, which stands below a class `A` with a private field `x`. -/
def derivedBody : Lowering where
  session := { symbols := {
    symbols := #[
      { name := "A", rid := "A_1", detail := .cls { members := [("x", 1)], derived := [2], finished := true } },
      { name := "x", rid := "x_2", level := 1, detail := .var { type := .ofType .int, owner := some 0, permission := .priv } },
      { name := "B", rid := "B_3", detail := .cls { members := [("f", 3)], base := some 0 } },
      { name := "f", rid := "f_B_f_4", level := 1, detail := .function { kind := .method, owner := some 2 } },
      { name := "this", rid := "this_5", level := 2, detail := .var { type := .ofClass "B" "B_3", const := true } }]
    global := { kind := .global, names := [("A", 0), ("B", 2)], rids := [("A_1", 0), ("B_3", 2)], types := ["A_1", "B_3"] }
    inner := [{ kind := .function, names := [("this", 4)], rids := [("this_5", 4)] },
      { kind := .cls, names := [("f", 3)], rids := [("f_B_f_4", 3)] }]
    types := [("A_1", 0), ("B_3", 2)] } }
  processing := [3, 2]
  scopes := [.function, .cls, .global]

/-- The name `x`. -/
def fieldName : Ident := { token := { (default : Token) with literal := "x" } }

theorem inBody_derivedBody : InBody derivedBody 2 where
  inside := by decide +kernel
  registered := by decide +kernel
  numbered := by decide +kernel
  this id hid := by
    have hthis : derivedBody.session.symbols.findInFunction? "this" = some 4 := by decide +kernel
    cases hthis.symm.trans hid
    exact ⟨_, rfl, rfl⟩

theorem unbound_derivedBody : Unbound derivedBody fieldName where
  bare := rfl
  unknown id hid := by
    have hnone : derivedBody.session.symbols.find? "x" = none := by decide +kernel
    cases hnone.symm.trans (SymbolTable.lookup_eq_ok.mp hid).1

theorem member_derivedBody : derivedBody.session.symbols.member? 2 "x" = some 1 := by decide +kernel

theorem explicit_accepted_iff_of_derivedBody :
    (InBody derivedBody 2 ∧ Unbound derivedBody fieldName ∧ ExplicitObject derivedBody 2 "x" (.this default)) ∧
      Accepted (visit 3 (.ident fieldName)) derivedBody ∧
      ¬ Accepted (visit 3 (.member (.this default) default fieldName)) derivedBody := by
  have hobject : ExplicitObject derivedBody 2 "x" (.this default) := by
    refine .this default fun m hm => ?_
    cases member_derivedBody.symm.trans hm
    decide +kernel
  refine ⟨⟨inBody_derivedBody, unbound_derivedBody, hobject⟩, ?_, fun haccepted => ?_⟩
  · have hread : (visit 3 (.ident fieldName) derivedBody).1.toOption.isSome = true := by decide +kernel
    obtain ⟨a, ha⟩ := exists_ok_of_isSome hread
    exact ⟨a, _, Prod.ext ha rfl⟩
  · have hiff := (@explicit_accepted_iff derivedBody 2 fieldName (.this default) 0 default .read
      Registry.placeless_standard (fun t ht => by
        cases ht
        exact ⟨inBody_derivedBody, unbound_derivedBody, hobject⟩)).1
    have hpermits := (hiff.mp haccepted).2 derivedBody rfl 1 member_derivedBody
    revert hpermits
    decide +kernel

/-- A program in which a method returns what an expression of a class below gives. -/
def derivedSource (value : String) : Source :=
  Source.ofString ("class A \x7b\nvar x: int private = 1\n\x7d\nclass B: A \x7b\nfun f() \x7b return " ++ value ++ " \x7d\n\x7d\n")

/-- A bare name reaches a private field of a class above, which the explicit form does not. -/
theorem private_field_of_derivedSource :
    (∃ code, compileSource {} {} (derivedSource "x") "main.kite" = .ok code) ∧
      ∀ code, compileSource {} {} (derivedSource "this.x") "main.kite" ≠ .ok code := by
  have haccepted : (compileSource {} {} (derivedSource "x") "main.kite").toOption.isSome = true := by
    rw [compileSource_named {} Registry.names_standard, derivedSource, Source.ofString_parts]
    decide +kernel
  have hrefused : (compileSource {} {} (derivedSource "this.x") "main.kite").toOption.isSome = false := by
    rw [compileSource_named {} Registry.names_standard, derivedSource, Source.ofString_parts]
    decide +kernel
  refine ⟨?_, fun code hcode => ?_⟩
  · exact exists_ok_of_isSome haccepted
  · rw [hcode] at hrefused
    cases hrefused

end Frontend
