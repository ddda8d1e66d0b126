import Frontend.Lowering.Unit
import Frontend.Proofs.Blur.Table

/-!
# Operands and bindings out of focus

What lowering plans before it writes code: operands, the marks of declarations and the binding of
arguments. Out of focus the same plans are made, and what is refused in focus is refused out of focus.
-/

namespace Frontend

variable {b : Blur}
variable {ε α β : Type} {x : Except ε α}

theorem toOption_bind (x : Except ε α) (f : α → Except ε β) :
    (x >>= f).toOption = x.toOption.bind fun a => (f a).toOption := by
  cases x <;> rfl

/-- Two attempts of which one succeeds exactly when the other does. -/
theorem cases_of_toOption_eq_map {f : α → β} {y : Except ε β} (h : y.toOption = x.toOption.map f) :
    (∃ a, x = .ok a ∧ y = .ok (f a)) ∨ ∃ d d', x = .error d ∧ y = .error d' := by
  cases x <;> cases y <;> simp_all [Except.toOption]

theorem cases_of_toOption_eq {y : Except ε α} (h : y.toOption = x.toOption) :
    (∃ a, x = .ok a ∧ y = .ok a) ∨ ∃ d d', x = .error d ∧ y = .error d' :=
  cases_of_toOption_eq_map (f := id) (h.trans Option.map_id'.symm)

theorem isSome_findSome?_map {γ δ : Type} {f : α → Option β} {g : γ → Option δ} {m : α → γ}
    (h : ∀ x, (g (m x)).isSome = (f x).isSome) (xs : List α) :
    ((xs.map m).findSome? g).isSome = (xs.findSome? f).isSome := by
  induction xs with
  | nil => rfl
  | cons x xs ih =>
    have hx := h x
    rw [List.map_cons, List.findSome?_cons, List.findSome?_cons]
    cases hg : g (m x) <;> cases hf : f x <;> simp_all

/-! ## Operands -/

/-- How an operand looks, out of focus. -/
def Surface.blurred (b : Blur) : Surface → Surface
  | .word s => .word s
  | .node n => .node (n.moved b.place)

/-- An operand out of focus. -/
def Operand.blurred (b : Blur) (o : Operand) : Operand :=
  { o with
    surface := o.surface.blurred b
    type := o.type.blurred b
    value := o.value.blurred b }

namespace Operand

@[simp] theorem raw_blurred (o : Operand) : (o.blurred b).raw = o.raw := rfl

@[simp] theorem type_blurred (o : Operand) : (o.blurred b).type = o.type.blurred b := rfl

@[simp] theorem meaning_blurred (o : Operand) : (o.blurred b).meaning = o.meaning := rfl

@[simp] theorem receiver_blurred (o : Operand) : (o.blurred b).receiver = o.receiver := rfl

@[simp] theorem isLiteral_blurred (o : Operand) : (o.blurred b).isLiteral = o.isLiteral := rfl

@[simp] theorem effective_blurred (o : Operand) : (o.blurred b).effective = o.effective.blurred b := by
  simp only [effective, blurred, Tag.isAny_blurred, Tag.isMissing_blurred]
  split <;> rfl

@[simp] theorem literal_moved (raw : String) (type : TypeName) (n : Node) :
    literal raw type (n.moved b.place) = (literal raw type n).blurred b := by
  simp [literal, blurred, Surface.blurred]

@[simp] theorem null_moved (n : Node) : null (n.moved b.place) = (null n).blurred b := by simp [null]

@[simp] theorem temp_moved (raw : String) (type : Tag) (n : Node) :
    temp raw (type.blurred b) (n.moved b.place) = (temp raw type n).blurred b := by
  unfold temp
  rw [Tag.isMissing_blurred]
  split <;> simp [blurred, Surface.blurred]

@[simp] theorem temp_ofType_moved (raw : String) (type : TypeName) (n : Node) :
    temp raw (.ofType type) (n.moved b.place) = (temp raw (.ofType type) n).blurred b := by
  rw [← temp_moved, Tag.blurred_ofType]

@[simp] theorem temp_any_moved (raw : String) (n : Node) :
    temp raw .any (n.moved b.place) = (temp raw .any n).blurred b := temp_ofType_moved raw .any n

@[simp] theorem label_blurred (raw : String) : (label raw).blurred b = label raw := by
  simp [label, blurred, Surface.blurred]

@[simp] theorem ofSymbol_blurred (t : SymbolTable) (id : SymbolId) :
    ofSymbol (t.blurred b) id = (ofSymbol t id).blurred b := by
  unfold ofSymbol
  dsimp only
  rw [SymbolTable.get_blurred, Symbol.name_blurred, Symbol.rid_blurred, Symbol.detail_blurred]
  cases (t.get id).detail with
  | var v | parameter v _ =>
    simp only [SymbolDetail.blurred, VariableInfo.blurred, blurred, Surface.blurred, Tag.isMissing_blurred]
    split <;> simp
  | function f => simp [SymbolDetail.blurred, blurred, Surface.blurred]
  | cls c => simp [SymbolDetail.blurred, blurred, Surface.blurred]
  | target => simp [SymbolDetail.blurred, blurred, Surface.blurred]

@[simp] theorem function?_blurred (t : SymbolTable) (o : Operand) :
    (o.blurred b).function? (t.blurred b) = o.function? t := by
  simp [function?]

@[simp] theorem class?_blurred (t : SymbolTable) (o : Operand) :
    (o.blurred b).class? (t.blurred b) = o.class? t := by
  simp [class?]

theorem ofLiteral?_moved (n : Node) : ofLiteral? (n.moved b.place) = (ofLiteral? n).map (blurred b) := by
  cases n with
  | int token value =>
    exact congrArg some (literal_moved _ _ (.int token value))
  | float token value => exact congrArg some (literal_moved _ _ (.float token value))
  | str token => exact congrArg some (literal_moved _ _ (.str token))
  | bool token value => exact congrArg some (literal_moved _ _ (.bool token value))
  | null token => exact congrArg some (null_moved (.null token))
  | unary op operand =>
    simp only [Node.moved, ofLiteral?]
    rw [show (op.moved b.place).kind = op.kind from rfl]
    split
    · cases operand with
      | int token value =>
        exact congrArg some (literal_moved _ _ (.unary op (.int token value)))
      | float token value =>
        exact congrArg some (literal_moved _ _ (.unary op (.float token value)))
      | _ => rfl
    · rfl
  | _ => rfl

end Operand

/-! ## Labels and marks -/

/-- The marks of a declaration out of focus. -/
def Marks.blurred (b : Blur) (m : Marks) : Marks :=
  { m with
    all := m.all.map (Tag.blurred b)
    type := m.type.blurred b
    permissionTag := m.permissionTag.map (Tag.blurred b)
    lifeCycleTag := m.lifeCycleTag.map (Tag.blurred b) }

mutual
theorem Label.tag_moved (t : SymbolTable) : ∀ l : Label,
    ((l.moved b.place).tag (t.blurred b)).toOption = (l.tag t).toOption.map (Tag.blurred b)
  | .mk token groups => by
    rw [Label.moved, Label.tag, Label.tag, show (token.moved b.place).kind = token.kind from rfl,
      Token.literal_moved]
    cases TagKind.ofToken? token.kind with
    | none => rfl
    | some kind =>
      dsimp only
      split
      · have hlookup := t.lookup_blurred (b := b) token.literal token.pos (token.moved b.place).pos
        rw [toOption_bind, toOption_bind, hlookup]
        cases t.lookup token.literal token.pos with
        | error d => rfl
        | ok id =>
          change Except.toOption (if _ then _ else _) = Option.map _ (Except.toOption (if _ then _ else _))
          rw [SymbolTable.get_blurred, Symbol.class?_blurred]
          split <;> simp [Except.toOption, Tag.blurred, pure, Except.pure]
      · have hgroups := Label.groupTags_moved t token.literal groups
        rw [toOption_bind, toOption_bind, hgroups]
        cases Label.groupTags t token.literal groups with
        | error d => rfl
        | ok tags => simp [Except.toOption, Tag.blurred, pure, Except.pure]

theorem Label.groupTags_moved (t : SymbolTable) (owner : String) : ∀ gs : List (List Label),
    (Label.groupTags (t.blurred b) owner (Label.movedGroups b.place gs)).toOption =
      (Label.groupTags t owner gs).toOption.map (List.map (List.map (Tag.blurred b)))
  | [] => rfl
  | g :: gs => by
    have hfirst := Label.typeTags_moved t owner g
    have hrest := Label.groupTags_moved t owner gs
    rw [Label.movedGroups, Label.groupTags, Label.groupTags, toOption_bind, toOption_bind, hfirst]
    cases Label.typeTags t owner g with
    | error d => rfl
    | ok tags =>
      change Except.toOption (_ >>= _) = Option.map _ (Except.toOption (_ >>= _))
      rw [toOption_bind, toOption_bind, hrest]
      cases Label.groupTags t owner gs <;> rfl

theorem Label.typeTags_moved (t : SymbolTable) (owner : String) : ∀ ls : List Label,
    (Label.typeTags (t.blurred b) owner (Label.movedAll b.place ls)).toOption =
      (Label.typeTags t owner ls).toOption.map (List.map (Tag.blurred b))
  | [] => rfl
  | l :: ls => by
    have hfirst := Label.tag_moved t l
    have hrest := Label.typeTags_moved t owner ls
    rw [Label.movedAll, Label.typeTags, Label.typeTags, toOption_bind, toOption_bind, hfirst]
    cases l.tag t with
    | error d => rfl
    | ok tag =>
      change Except.toOption (if _ then _ else _) = Option.map _ (Except.toOption (if _ then _ else _))
      rw [Tag.kind?_blurred]
      split
      · rw [toOption_bind, toOption_bind, hrest]
        cases Label.typeTags t owner ls <;> rfl
      · rfl
end

namespace Marks

@[simp] theorem type_blurred (m : Marks) : (m.blurred b).type = m.type.blurred b := rfl

@[simp] theorem has_blurred (m : Marks) (word : String) : (m.blurred b).has word = m.has word := rfl

@[simp] theorem isConst_blurred (m : Marks) : (m.blurred b).isConst = m.isConst := rfl

@[simp] theorem isQuote_blurred (m : Marks) : (m.blurred b).isQuote = m.isQuote := rfl

@[simp] theorem permission?_blurred (m : Marks) : (m.blurred b).permission? = m.permission? := by
  unfold permission? blurred
  cases m.permissionTag <;> simp

@[simp] theorem lifeCycle?_blurred (m : Marks) : (m.blurred b).lifeCycle? = m.lifeCycle? := by
  unfold lifeCycle? blurred
  cases m.lifeCycleTag <;> simp

@[simp] theorem isStatic_blurred (m : Marks) : (m.blurred b).isStatic = m.isStatic := by
  simp [isStatic]

@[simp] theorem permissionOr_blurred (m : Marks) (p : Permission) :
    (m.blurred b).permissionOr p = m.permissionOr p := by
  simp [permissionOr]

@[simp] theorem typeOrAny_blurred (m : Marks) : (m.blurred b).typeOrAny = m.typeOrAny.blurred b := by
  unfold typeOrAny
  rw [type_blurred, Tag.isMissing_blurred]
  split <;> simp

theorem add_blurred (m : Marks) (tag : Tag) :
    ((m.blurred b).add (tag.blurred b)).toOption = (m.add tag).toOption.map (blurred b) := by
  have hfilter : ∀ old : Option Tag, ((old.map (Tag.blurred b)).filter
      (·.name != (tag.blurred b).name)) = (old.filter (·.name != tag.name)).map (Tag.blurred b) := by
    intro old
    cases old <;> simp [Option.filter, apply_ite]
  cases tag with
  | missing => rfl
  | mk kind name rid groups pos =>
    have hname : ∀ groups pos, (Tag.mk kind name rid groups pos).name = name := fun _ _ => rfl
    cases kind with
    | type =>
      simp only [add, Tag.blurred, type_blurred, Tag.isMissing_blurred]
      split <;> simp [Except.toOption, blurred, Tag.blurred]
    | permission =>
      have hold := hfilter m.permissionTag
      simp only [Tag.blurred, hname] at hold
      simp only [add, blurred, Tag.blurred, hname]
      rw [hold]
      cases m.permissionTag.filter (·.name != name) <;>
        simp [Except.toOption, blurred, Tag.blurred]
    | lifeCycle =>
      have hold := hfilter m.lifeCycleTag
      simp only [Tag.blurred, hname] at hold
      simp only [add, blurred, Tag.blurred, hname]
      rw [hold]
      cases m.lifeCycleTag.filter (·.name != name) <;>
        simp [Except.toOption, blurred, Tag.blurred]
    | restriction | role => simp [add, Except.toOption, blurred, Tag.blurred, Tag.name]

theorem ofLabels_moved (t : SymbolTable) (m : Marks) (ls : List Label) :
    (ofLabels (t.blurred b) (m.blurred b) (ls.map (Label.moved b.place))).toOption =
      (ofLabels t m ls).toOption.map (blurred b) := by
  induction ls generalizing m with
  | nil => rfl
  | cons l ls ih =>
    rw [List.map_cons, ofLabels, ofLabels, toOption_bind, toOption_bind, Label.tag_moved]
    cases l.tag t with
    | error d => rfl
    | ok tag =>
      change Except.toOption (_ >>= _) = Option.map _ (Except.toOption (_ >>= _))
      rw [toOption_bind, toOption_bind, add_blurred]
      cases m.add tag with
      | error d => rfl
      | ok m' => exact ih m'

theorem refusal?_blurred (m : Marks) (what : String) (allowed : List String) :
    ((m.blurred b).refusal? what allowed).isSome = (m.refusal? what allowed).isSome := by
  have hadmits : (!admits allowed ·) ∘ Tag.blurred b = (!admits allowed ·) := by
    funext tag
    cases tag with
    | missing => rfl
    | mk kind => cases kind <;> rfl
  unfold refusal? blurred
  rw [Option.isSome_map, Option.isSome_map, List.find?_map, Option.isSome_map, hadmits]

end Marks

/-! ## Arguments -/

/-- An argument out of focus. -/
def Argument.blurred (b : Blur) (a : Argument) : Argument :=
  ⟨a.name, a.value.blurred b, a.node.moved b.place⟩

/-- A binding out of focus. -/
def Binding.blurred (b : Blur) (x : Binding) : Binding :=
  ⟨x.param.blurred b, x.value.map (Argument.blurred b), x.rest.map (Argument.blurred b)⟩

namespace Binding

theorem positional_blurred (ps : List Parameter) (args : List Argument) :
    positional (ps.map (Parameter.blurred b)) (args.map (Argument.blurred b)) =
      ((positional ps args).1.map (blurred b), (positional ps args).2.map (Argument.blurred b)) := by
  induction ps generalizing args with
  | nil => rfl
  | cons p ps ih =>
    have hkind : (p.blurred b).kind = p.kind := rfl
    have hnil := ih []
    rw [List.map_nil] at hnil
    cases hk : p.kind <;> cases args <;>
      simp only [List.map_cons, List.map_nil, positional, hkind, hk, hnil] <;>
      first
        | rfl
        | (rw [← List.map_cons, ih]; rfl)

theorem changeFirst_blurred {p : Binding → Bool} {f g : Binding → Binding}
    (hp : ∀ x, p (blurred b x) = p x) (hf : ∀ x, (f x).blurred b = g (x.blurred b)) (bs : List Binding) :
    changeFirst p g (bs.map (blurred b)) = (changeFirst p f bs).map (blurred b) := by
  induction bs with
  | nil => rfl
  | cons x bs ih =>
    rw [List.map_cons, changeFirst, changeFirst, hp]
    split
    · rw [List.map_cons, hf]
    · rw [List.map_cons, ih]

theorem named_blurred (callee : String) (bs : List Binding) (args : List Argument) :
    (named callee (bs.map (blurred b)) (args.map (Argument.blurred b))).toOption =
      (named callee bs args).toOption.map (List.map (blurred b)) := by
  induction args generalizing bs with
  | nil => simp [named, Except.toOption]
  | cons a rest ih =>
    have hfind : (bs.map (blurred b)).find? (isNamed a.name) =
        (bs.find? (isNamed a.name)).map (blurred b) := by
      rw [List.find?_map]
      rfl
    have hany : (bs.map (blurred b)).any collectsNamed = bs.any collectsNamed := by
      rw [List.any_map]
      rfl
    rw [List.map_cons, named, named, show (a.blurred b).name = a.name from rfl, hfind, hany]
    cases bs.find? (isNamed a.name) with
    | some x =>
      simp only [Option.map_some]
      rw [show (x.blurred b).value.isSome = x.value.isSome from Option.isSome_map]
      split
      · rfl
      · rw [changeFirst_blurred (f := fun x => { x with value := some a }) (fun _ => rfl) (fun _ => rfl), ih]
    | none =>
      simp only [Option.map_none]
      split
      · rw [changeLast, ← List.map_reverse,
          changeFirst_blurred (f := fun x => { x with rest := x.rest ++ [a] }) (fun _ => rfl)
            (fun x => by simp [blurred]), ← List.map_reverse, ← changeLast, ih]
      · rfl

theorem fault?_blurred (t : SymbolTable) (callee : String) (pos pos' : Position) (x : Binding) :
    (fault? (t.blurred b) callee pos' (x.blurred b)).isSome = (fault? t callee pos x).isSome := by
  unfold fault?
  dsimp only
  rw [show (x.blurred b).value = x.value.map (Argument.blurred b) from rfl,
    show (x.blurred b).param = x.param.blurred b from rfl,
    show (x.param.blurred b).kind = x.param.kind from rfl]
  cases x.value with
  | none =>
    simp only [Option.map_none]
    split <;> rfl
  | some a =>
    simp only [Option.map_some]
    rw [show (x.param.blurred b).type = x.param.type.blurred b from rfl,
      show (a.blurred b).value = a.value.blurred b from rfl, Operand.effective_blurred,
      SymbolTable.assignable_blurred]
    split <;> rfl

theorem plan_blurred (t : SymbolTable) (callee : String) (params : List Parameter)
    (args : List Argument) (pos pos' : Position) :
    (plan (t.blurred b) callee (params.map (Parameter.blurred b)) (args.map (Argument.blurred b))
      pos').toOption = (plan t callee params args pos).toOption.map (List.map (blurred b)) := by
  have hfilter : ∀ p : String → Bool, (args.map (Argument.blurred b)).filter (fun a => p a.name) =
      (args.filter fun a => p a.name).map (Argument.blurred b) := by
    intro p
    rw [List.filter_map]
    rfl
  unfold plan
  dsimp only
  rw [hfilter (·.isEmpty), hfilter (!·.isEmpty), positional_blurred]
  cases (positional params (args.filter (·.name.isEmpty))).2 with
  | cons a left => rfl
  | nil =>
    simp only [List.map_nil]
    change Except.toOption (_ >>= _) = Option.map _ (Except.toOption (_ >>= _))
    rw [toOption_bind, toOption_bind, named_blurred]
    cases named callee (positional params (args.filter (·.name.isEmpty))).1
        (args.filter fun a => !a.name.isEmpty) with
    | error d => rfl
    | ok bindings =>
      have hfault := isSome_findSome?_map (fault?_blurred (b := b) t callee pos pos') bindings
      simp only [Except.toOption, Option.map_some, Option.bind_some]
      cases h : bindings.findSome? (fault? t callee pos) <;>
        cases h' : (bindings.map (blurred b)).findSome? (fault? (t.blurred b) callee pos') <;>
        simp_all [throw, throwThe, MonadExceptOf.throw, pure, Except.pure]

end Binding

end Frontend
