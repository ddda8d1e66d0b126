import Frontend.Proofs.Parse.Progress

/-!
# Every rule in other surroundings

The rules of the grammar do the same in other surroundings, so a whole expression does: what is read,
where the reading stops and which errors are written down does not depend on what stands around.
-/

namespace Frontend

variable {α β : Type} {image : α → β}

namespace Node

theorem itemsOf_moved (move : Position → Position) (body : Option Node) :
    itemsOf (body.map (Node.moved move)) = (itemsOf body).map (Node.moved move) := by
  cases body with
  | none => rfl
  | some n => cases n <;> simp [itemsOf, Node.moved]

theorem isAssignable_moved (move : Position → Position) (n : Node) :
    (n.moved move).isAssignable = n.isAssignable := by
  cases n <;> rfl

end Node

namespace Param

theorem kind_moved (move : Position → Position) (p : Param) : (p.moved move).kind = p.kind := by
  cases p with
  | mk name kind default => rfl

theorem name_moved (move : Position → Position) (p : Param) : (p.moved move).name = p.name.moved move := by
  cases p with
  | mk name kind default => rfl

end Param

namespace Group

/-- The group at another place. -/
def moved (move : Position → Position) (g : Group) : Group :=
  ⟨g.opener.moved move, g.closer.moved move, g.bracket, g.body.map (Node.moved move)⟩

variable (move : Position → Position)

theorem items_moved (g : Group) : (g.moved move).items = g.items.map (Node.moved move) :=
  Node.itemsOf_moved move g.body

theorem node_moved (g : Group) : (g.moved move).node = g.node.moved move := by
  simp [node, moved, Node.moved]

theorem toBlock_moved (g : Group) : (g.moved move).toBlock = g.toBlock.moved move := by
  unfold toBlock
  rw [items_moved]
  simp [moved, Block.moved]

theorem holdsBlock_moved (g : Group) : (g.moved move).holdsBlock = g.holdsBlock := by
  unfold holdsBlock moved
  cases g.body with
  | none => rfl
  | some n => cases n <;> rfl

theorem holdsParallel_moved (g : Group) : (g.moved move).holdsParallel = g.holdsParallel := by
  unfold holdsParallel moved
  cases g.body with
  | none => rfl
  | some n => cases n <;> rfl

theorem moved_ofItems (opener closer : Token) (bracket : Bracket) (items : List Node) :
    (ofItems opener closer bracket items).moved move =
      ofItems (opener.moved move) (closer.moved move) bracket (items.map (Node.moved move)) := by
  cases items with
  | nil => rfl
  | cons n items =>
    cases items with
    | nil => rfl
    | cons m items => simp [ofItems, moved, Node.moved, Block.moved]

end Group

namespace Parse

variable {c : Setting} {s : ParseState} {sub sub' : Nested}

/-- A rule that reads a node reads it in other surroundings, moved. -/
abbrev CarriesNode (c : Setting) : Parse Node → Parse Node → Prop := Carries c (Node.moved c.move)

/-! ## Labels -/

mutual
theorem carries_label : ∀ fuel, Carries c (Label.moved c.move) (label fuel) (label fuel)
  | 0 => Carries.fail
  | fuel + 1 => Carries.advance.bind fun word => carries_groups fuel word []

theorem carries_groups : ∀ fuel word done, Carries c (Label.moved c.move) (groups fuel word done)
      (groups fuel (word.moved c.move) (done.map (List.map (Label.moved c.move))))
  | 0, _, _ => Carries.fail
  | fuel + 1, word, done => by
    unfold groups
    refine (Carries.check _).bind fun b => Carries.ite Iff.rfl (Carries.pure ?_) ?_
    · simp [Label.moved]
    refine Carries.ite Iff.rfl (Carries.failToken word (.same _ rfl)) ?_
    refine Carries.advance.bind fun opener => (carries_members fuel opener []).bind fun group => ?_
    exact Carries.advance.bind fun _ => carries_groups fuel word (group :: done)

theorem carries_members : ∀ fuel opener done, Carries c (List.map (Label.moved c.move)) (members fuel opener done)
      (members fuel (opener.moved c.move) (done.map (Label.moved c.move)))
  | 0, _, _ => Carries.fail
  | fuel + 1, opener, done => by
    unfold members
    refine Carries.peek.bind fun t => Carries.ite Iff.rfl (Carries.pure ?_) ?_
    · simp
    refine Carries.ite Iff.rfl ?_ ?_
    · refine Carries.ite Iff.rfl (Carries.failToken t ?_) (Carries.failToken t (.same _ rfl))
      exact .unclosed "[" opener.pos t.describe
    · refine (carries_label fuel).bind fun inner => (Carries.accept _).bind fun b => ?_
      refine (Carries.check _).bind fun b' => Carries.ite Iff.rfl ?_ ?_
      · exact Carries.peek.bind fun t => Carries.failUnexpected t _
      · exact carries_members fuel opener (inner :: done)
end

/-- The bound for a label depends on how much is left to read, but the label does not. -/
theorem carries_boundedLabel : Carries c (Label.moved c.move) (do label (← labelFuel))
    (do label (← labelFuel)) := by
  -- in front of at least as many tokens the greater bound will do for both
  have hsame : ∀ s s', c.Alike s s' →
      label (3 * s.rest.length + 3) s = label (3 * s'.rest.length + 3) s := by
    intro s s' halike
    have hlength : s.rest.length ≤ s'.rest.length := by simp [halike.rest]
    exact label_of_le _ _ s halike.eof.1 (by omega) (by omega)
  constructor
  · exact fun s hend => (carries_label _).back s hend
  · intro s s' halike hend
    change c.Allows (label (3 * s.rest.length + 3) s).2 at hend
    change (label (3 * s'.rest.length + 3) s').1 =
        (label (3 * s.rest.length + 3) s).1.map (Label.moved c.move) ∧
      c.Alike (label (3 * s.rest.length + 3) s).2 (label (3 * s'.rest.length + 3) s').2
    rw [hsame s s' halike] at hend ⊢
    exact (carries_label _).forth s s' halike hend
  · exact fun hclean s' hs' => (carries_label _).keeps hclean s' hs'
  · intro hclean s s' halike hs hend
    change (label (3 * s.rest.length + 3) s).2.errors ≠ [] at hend
    rw [hsame s s' halike] at hend
    exact (carries_label _).faulty hclean s s' halike hs hend

theorem carries_labels : Carries c (List.map (Label.moved c.move)) labels labels := by
  unfold labels
  refine Carries.peek.bind fun first => .ite Iff.rfl (.failToken first (.same _ rfl)) ?_
  refine .repeatWhile (List.map (Label.moved c.move)) (fun done => ?_) []
  refine carries_boundedLabel.bind fun l => Carries.peekKind.bind fun k => ?_
  refine .ite Iff.rfl (.pure rfl) (.pure ?_)
  simp [Progress.image]

theorem carries_functionLabels : Carries c (List.map (Label.moved c.move)) functionLabels functionLabels :=
  (Carries.accept _).bind fun _ => Carries.ite Iff.rfl carries_labels (Carries.pure rfl)

/-! ## Groups -/

instance : Covers c (Group.moved c.move) where
  onto := by
    rintro hclean ⟨opener, closer, bracket, body⟩
    obtain ⟨opener, rfl⟩ := Token.surjective_moved (c.onto hclean) opener
    obtain ⟨closer, rfl⟩ := Token.surjective_moved (c.onto hclean) closer
    have covers : Covers c (Option.map (Node.moved c.move)) := inferInstance
    obtain ⟨body, rfl⟩ := covers.onto hclean body
    exact ⟨⟨opener, closer, bracket, body⟩, rfl⟩

/-- The rules for what is nested do the same in other surroundings. -/
structure CarriesNested (c : Setting) (sub sub' : Nested) : Prop where
  expression : ∀ level, Carries c (Node.moved c.move) (sub level) (sub' level)
  recover : ∀ b, Resumes c id (sub.recover b) (sub'.recover b)
  /-- Without an error there is a result. -/
  speaks : c.clean → ∀ level s, s.last.kind = .eof → Noted s → (sub level s).1 = none →
    (sub level s).2.errors ≠ []

section
variable (hsub : CarriesNested c sub sub')
include hsub

theorem carries_groupItems (bracket : Bracket) :
    Carries c (List.map (Node.moved c.move)) (groupItems sub bracket) (groupItems sub' bracket) := by
  unfold groupItems
  refine .repeatWhile (List.map (Node.moved c.move)) (fun done => ?_) []
  refine Carries.skipNewlines.bind fun _ => (Carries.check _).bind fun closes => ?_
  refine Carries.ended.bind fun ended => .ite Iff.rfl (.pure ?_) ?_
  · simp [Progress.image]
  refine Carries.calm.bind fun _ => (hsub.expression _).attempt.bindOrResume fun r => ?_
  cases r with
  | none =>
    refine .inr ⟨(hsub.recover bracket).bind fun _ => .pure rfl, fun hclean s s' halike hnone => ?_⟩
    exact hsub.speaks hclean _ s halike.eof.1 halike.noted (Option.some.inj hnone)
  | some item =>
    refine .inl ?_
    refine Carries.peekKind.bind fun k => .ite Iff.rfl (.pure rfl) ?_
    refine .ite Iff.rfl (.pure ?_) ?_
    · simp [Progress.image]
    exact Carries.peek.bind fun t =>
      .reportUnexpectedThen t _ ((hsub.recover bracket).bind fun _ => .pure rfl)

theorem carries_groupBody (opener : Token) (bracket : Bracket) :
    Carries c (Group.moved c.move) (groupBody sub opener bracket)
      (groupBody sub' (opener.moved c.move) bracket) := by
  unfold groupBody
  refine (carries_groupItems hsub bracket).bind fun items => Carries.peek.bind fun t => ?_
  refine .ite Iff.rfl ?_ (.failToken t ?_)
  · exact Carries.advance.bind fun closer => .pure (Group.moved_ofItems _ _ _ _ _).symm
  · exact .unclosed opener.literal opener.pos t.describe

theorem carries_group (bracket : Bracket) :
    Carries c (Group.moved c.move) (group sub bracket) (group sub' bracket) :=
  Carries.advance.bind fun opener => .inBrackets rfl (carries_groupBody hsub opener bracket)

theorem carries_block : Carries c (Block.moved c.move) (block sub) (block sub') := by
  unfold block
  refine Carries.peek.bind fun t => .ite Iff.rfl ?_ (.failToken t (.same _ rfl))
  exact (carries_group hsub _).bind fun g => .pure (Group.toBlock_moved _ g)

omit hsub

/-! ## Parameters, arguments and definitions -/

theorem paramOf?_moved (move : Position → Position) (n : Node) :
    paramOf? (n.moved move) = (paramOf? n).map (Param.moved move) := by
  cases n with
  | ident name => rfl
  | argument name value => rfl
  | assign target op value =>
    cases target with
    | ident name =>
      by_cases h : op.kind == .op .assign <;> simp [Node.moved, paramOf?, Param.moved, h]
    | _ => rfl
  | unary op operand =>
    cases operand with
    | ident name =>
      by_cases h : op.kind == .op .star
      · simp [Node.moved, paramOf?, Param.moved, h]
      · by_cases h' : op.kind == .op .power <;> simp [Node.moved, paramOf?, Param.moved, h, h']
    | _ => rfl
  | _ => rfl

/-- Parameters at another place, or the node that is no parameter. -/
def movedParams (move : Position → Position) :
    Except (Node × Phrase) (List Param) → Except (Node × Phrase) (List Param)
  | .ok ps => .ok (ps.map (Param.moved move))
  | .error (n, message) => .error (n.moved move, message)

theorem paramsOf_moved (move : Position → Position) (ns : List Node) (restSeen optsSeen : Bool) :
    paramsOf (ns.map (Node.moved move)) restSeen optsSeen = movedParams move (paramsOf ns restSeen optsSeen) := by
  induction ns generalizing restSeen optsSeen with
  | nil => rfl
  | cons n ns ih =>
    rw [List.map_cons, paramsOf, paramsOf, paramOf?_moved]
    cases paramOf? n with
    | none => simp [movedParams, Node.text_moved]
    | some p =>
      simp only [Option.map_some, Param.kind_moved, Param.name_moved, Ident.name_moved, ih]
      by_cases hfits : paramFits p.kind restSeen optsSeen
      · rw [if_pos hfits, if_pos hfits]
        cases paramsOf ns (restSeen || p.kind == .restPositional) (optsSeen || p.kind == .restKeyword) with
        | ok ps => rfl
        | error e => rfl
      · rw [if_neg hfits, if_neg hfits]
        rfl

theorem carries_params (items : List Node) : Carries c (List.map (Param.moved c.move)) (params items)
      (params (items.map (Node.moved c.move))) := by
  unfold params
  rw [paramsOf_moved]
  cases hparams : paramsOf items false false with
  | ok ps => exact .pure rfl
  | error e => exact .failNode e.1 e.2 (mem_of_paramsOf hparams).2

theorem argumentOf?_moved (move : Position → Position) (n : Node) :
    argumentOf? (n.moved move) = (argumentOf? n).map (Node.moved move) := by
  cases n with
  | assign target op value =>
    cases target with
    | ident name =>
      by_cases h : op.kind == .op .assign <;> simp [Node.moved, argumentOf?, h]
    | _ => rfl
  | _ => rfl

theorem carries_arguments (items : List Node) : Carries c (List.map (Node.moved c.move)) (arguments items)
      (arguments (items.map (Node.moved c.move))) := by
  induction items with
  | nil => exact .pure rfl
  | cons n ns ih =>
    rw [List.map_cons, arguments, arguments, argumentOf?_moved]
    cases argumentOf? n with
    | none =>
      rw [Node.text_moved]
      exact .failNode n _ rfl
    | some a => exact ih.bind fun rest => .pure rfl

/-- Definitions at another place, or the node that defines nothing. -/
def movedDefinitions (move : Position → Position) :
    Except Node (List (Ident × Option Node)) → Except Node (List (Ident × Option Node))
  | .ok ds => .ok (ds.map fun d => (d.1.moved move, d.2.map (Node.moved move)))
  | .error n => .error (n.moved move)

theorem definitionsOf_moved (move : Position → Position) (ns : List Node) :
    definitionsOf (ns.map (Node.moved move)) = movedDefinitions move (definitionsOf ns) := by
  induction ns with
  | nil => rfl
  | cons n ns ih =>
    rw [List.map_cons]
    unfold definitionsOf
    rw [ih]
    cases n with
    | ident name => cases definitionsOf ns <;> rfl
    | assign target op value =>
      cases target with
      | ident name =>
        by_cases h : op.kind == .op .assign
        · simp only [Node.moved, Token.kind_moved, h, if_true]
          cases definitionsOf ns <;> rfl
        · simp only [Node.moved, Token.kind_moved, h, Bool.false_eq_true, if_false]
          rfl
      | _ => rfl
    | _ => rfl

/-! ## Expressions -/

theorem carries_identifier : Carries c (Ident.moved c.move) identifier identifier := by
  unfold identifier
  refine Carries.advance.bind fun token => (Carries.accept _).bind fun b => ?_
  refine .ite Iff.rfl ?_ (.pure rfl)
  exact carries_labels.bind fun ls => .pure rfl

theorem carries_integer : CarriesNode c integer integer := by
  unfold integer
  refine Carries.advance.bind fun t => ?_
  rw [Token.literal_moved]
  cases Decimal.readWord? t.literal with
  | some value => exact .pure rfl
  | none => exact .failToken t (.same _ rfl)

theorem carries_float : CarriesNode c float float := by
  unfold float
  refine Carries.advance.bind fun t => ?_
  rw [Token.literal_moved]
  cases Decimal.readFinite? t.literal with
  | some value => exact .pure rfl
  | none => exact .failToken t (.same _ rfl)

/-- A node made of the next token. -/
theorem carries_leaf {make : Token → Node} (h : ∀ t : Token, make (t.moved c.move) = (make t).moved c.move) :
    CarriesNode c (do return make (← advance)) (do return make (← advance)) :=
  Carries.advance.bind fun t => .pure (h t)

include hsub

theorem carries_unary : CarriesNode c (unary sub) (unary sub') :=
  Carries.advance.bind fun _ => (hsub.expression _).bind fun _ => .pure rfl

theorem carries_list : CarriesNode c (list sub) (list sub') := by
  refine (carries_group hsub _).bind fun g => .pure ?_
  rw [Group.items_moved]
  simp [Node.moved, Group.moved]

omit hsub

theorem isPair_moved (move : Position → Position) (n : Node) : isPair (n.moved move) = isPair n := by
  cases n <;> rfl

include hsub

theorem carries_braces : CarriesNode c (braces sub) (braces sub') := by
  unfold braces
  refine (carries_group hsub _).bind fun g => ?_
  have hblock : CarriesNode c (pure (.block g.toBlock))
      (pure (.block (g.moved c.move).toBlock)) := by
    refine .pure ?_
    rw [Group.toBlock_moved, Node.moved]
  rw [Group.items_moved, Group.holdsBlock_moved, Group.holdsParallel_moved, Group.node_moved, List.isEmpty_map]
  refine .ite Iff.rfl (.pure rfl) (.ite Iff.rfl hblock ?_)
  refine .ite ?_ (.pure ?_) (.ite Iff.rfl (.failNode _ _ rfl) hblock)
  · simp [List.all_map, Function.comp_def, isPair_moved]
  · simp [Node.moved, Group.moved]

theorem carries_binary (left : Node) :
    CarriesNode c (binary sub left) (binary sub' (left.moved c.move)) :=
  Carries.advance.bind fun _ => (hsub.expression _).bind fun _ => .pure rfl

theorem carries_assignment (target : Node) :
    CarriesNode c (assignment sub target) (assignment sub' (target.moved c.move)) := by
  unfold assignment
  rw [Node.isAssignable_moved, Node.text_moved]
  refine Carries.advance.bind fun op => .ite Iff.rfl ?_ (.failNode target _ rfl)
  exact (hsub.expression _).bind fun value => .pure rfl

theorem carries_parallel (first : Node) :
    CarriesNode c (parallel sub first) (parallel sub' (first.moved c.move)) := by
  unfold parallel
  refine .repeatWhile (List.map (Node.moved c.move)) (fun done => ?_) [first]
  refine (Carries.accept _).bind fun b => Carries.ite Iff.rfl ?_ (Carries.pure ?_)
  · have hdepth : Carries c id (Parse.ask (·.depth)) (Parse.ask (·.depth)) :=
      .ask fun _ _ halike _ => halike.depth
    refine hdepth.bind fun depth => ?_
    have hitem : Carries c (Progress.image (List.map (Node.moved c.move)) (Node.moved c.move))
        (do return .again ((← sub Binding.parallel) :: done))
        (do return .again ((← sub' Binding.parallel) :: done.map (Node.moved c.move))) :=
      (hsub.expression _).bind fun item => .pure rfl
    exact .ite Iff.rfl (Carries.skipNewlines.bind fun _ => hitem) hitem
  · simp [Progress.image, Node.moved]

theorem carries_entry (key : Node) :
    CarriesNode c (entry sub key) (entry sub' (key.moved c.move)) :=
  Carries.advance.bind fun _ => (hsub.expression _).bind fun _ => .pure rfl

theorem carries_arrowed (left : Node) :
    CarriesNode c (arrowed sub left) (arrowed sub' (left.moved c.move)) := by
  unfold arrowed
  refine Carries.advance.bind fun arrow => (hsub.expression _).bind fun right => ?_
  cases left with
  | group opener closer bracket body =>
    cases bracket with
    | paren =>
      rw [Node.moved, Node.moved?_eq]
      dsimp only
      rw [Node.itemsOf_moved]
      refine (carries_params _).bind fun ps => .pure ?_
      simp [Node.moved, arrowBody, Block.moved, Node.movedAll]
    | square => exact .pure rfl
    | brace => exact .pure rfl
  | _ => exact .pure rfl

theorem carries_call (callee : Node) :
    CarriesNode c (call sub callee) (call sub' (callee.moved c.move)) := by
  unfold call
  refine (carries_group hsub _).bind fun g => ?_
  rw [Group.holdsBlock_moved, Group.node_moved, Group.items_moved, Node.text_moved]
  refine .ite Iff.rfl (.failNode _ _ rfl) ?_
  refine (carries_arguments g.items).bind fun args => .pure ?_
  simp [Node.moved, Group.moved]

theorem carries_indexBody (left : Node) (opener : Token) : CarriesNode c (indexBody sub left opener)
      (indexBody sub' (left.moved c.move) (opener.moved c.move)) := by
  unfold indexBody
  refine Carries.skipNewlines.bind fun _ => (hsub.expression _).bind fun subscript => ?_
  refine Carries.skipNewlines.bind fun _ => Carries.peek.bind fun t => ?_
  refine .ite Iff.rfl (Carries.advance.bind fun _ => .pure rfl) ?_
  exact .failToken t (.unclosed "[" opener.pos t.describe)

theorem carries_index (left : Node) :
    CarriesNode c (index sub left) (index sub' (left.moved c.move)) := by
  unfold index
  refine Carries.advance.bind fun opener => ?_
  have hclass : Carries c id (Parse.ask (·.inClass)) (Parse.ask (·.inClass)) :=
    .ask fun _ _ halike _ => halike.inClass
  exact hclass.bind fun _ => .inBrackets rfl (carries_indexBody hsub left opener)

omit hsub

theorem carries_member (object : Node) :
    CarriesNode c (member object) (member (object.moved c.move)) := by
  unfold member
  refine Carries.advance.bind fun dot => Carries.peek.bind fun t => ?_
  refine .ite Iff.rfl ?_ (.failUnexpected t _)
  exact Carries.advance.bind fun name => .pure rfl

theorem carries_increment (operand : Node) :
    CarriesNode c (increment operand) (increment (operand.moved c.move)) := by
  unfold increment
  rw [Node.isAssignable_moved, Node.text_moved]
  refine Carries.advance.bind fun op => .ite Iff.rfl (.pure rfl) ?_
  exact .failNode operand _ rfl

include hsub

theorem carries_continuation (left : Node) (k : TokenKind) :
    Option.Rel (CarriesNode c) (continuation? sub left k)
      (continuation? sub' (left.moved c.move) k) := by
  cases k with
  | op o =>
    cases o with
    | assign | plusAssign | minusAssign | starAssign | slashAssign | percentAssign =>
      exact .some (carries_assignment hsub left)
    | colon => exact .some (carries_entry hsub left)
    | arrow => exact .some (carries_arrowed hsub left)
    | dot => exact .some (carries_member left)
    | power | increment | decrement | not => exact .none
    | _ => exact .some (carries_binary hsub left)
  | comma => exact .some (carries_parallel hsub left)
  | opening b =>
    cases b with
    | paren => exact .some (carries_call hsub left)
    | square => exact .some (carries_index hsub left)
    | brace => exact .none
  | _ => exact .none

omit hsub

theorem carries_splitNegative : Carries c id splitNegative splitNegative := by
  rw [splitNegative_eq]
  refine .changeRest rfl (fun ts => ?_) fun ts more hne => ?_ <;> cases ts with
  | nil => first | rfl | exact absurd rfl hne
  | cons t rest =>
    by_cases ht : t.isNegativeNumber
    · simp [splitFirst, ht, Token.splitNegative_moved c.shift]
    · simp [splitFirst, ht]

include hsub

theorem carries_climb (level : Nat) (left : Node) :
    CarriesNode c (climb sub level left) (climb sub' level (left.moved c.move)) := by
  unfold climb
  refine .repeatWhile (Node.moved c.move) (fun left => ?_) left
  refine Carries.peekKind.bind fun k => .ite Iff.rfl ?_ ?_
  · exact (carries_increment left).bind fun n => .pure rfl
  refine carries_splitNegative.bind fun _ => Carries.peek.bind fun t => ?_
  refine .ite Iff.rfl (.pure rfl) ?_
  rw [Token.kind_moved]
  have hrule := carries_continuation hsub left t.kind
  generalize continuation? sub left t.kind = rule at hrule ⊢
  generalize continuation? sub' (left.moved c.move) t.kind = rule' at hrule ⊢
  cases hrule with
  | some h => exact h.bind fun n => .pure rfl
  | none => exact .failToken t (.same _ rfl)

/-! ## Definitions -/

theorem carries_varDefinition : CarriesNode c (varDefinition sub) (varDefinition sub') := by
  unfold varDefinition
  refine Carries.advance.bind fun token => (hsub.expression _).bind fun expr => ?_
  have hdefine : ∀ items items' : List Node, items' = items.map (Node.moved c.move) →
      CarriesNode c
        (match definitionsOf items with
          | .ok ds => pure (.varDef token (ds.map Prod.fst) (ds.map Prod.snd))
          | .error n => failNode n (.entry .invalidVarTarget [.text n.text]))
        (match definitionsOf items' with
          | .ok ds => pure (.varDef (token.moved c.move) (ds.map Prod.fst) (ds.map Prod.snd))
          | .error n => failNode n (.entry .invalidVarTarget [.text n.text])) := by
    intro items items' hitems
    rw [hitems, definitionsOf_moved]
    cases definitionsOf items with
    | ok ds =>
      refine .pure ?_
      simp [Node.moved, Function.comp_def]
    | error n =>
      dsimp only [movedDefinitions]
      rw [Node.text_moved]
      exact .failNode n _ rfl
  refine hdefine _ _ ?_
  cases expr with
  | parallel items => simp [Node.moved]
  | _ => rfl

omit hsub

theorem carries_badHead (n : Node) : Carries c image (badHead n) (badHead (n.moved c.move)) := by
  unfold badHead
  rw [Node.text_moved]
  exact .failNode n _ rfl

theorem carries_functionHead (n : Node) : Carries c (Prod.map (Ident.moved c.move) (List.map (Node.moved c.move)))
      (functionHead n) (functionHead (n.moved c.move)) := by
  cases n with
  | call callee opener closer args =>
    cases callee with
    | ident name =>
      simp only [functionHead, Node.moved, Node.movedAll_eq, Ident.moved, List.isEmpty_map]
      exact .ite Iff.rfl (.pure rfl) (carries_badHead (.ident name))
    | _ => exact carries_badHead _
  | _ => exact carries_badHead _

theorem functionNode_moved (move : Position → Position) (inClass : Bool) (token : Token) (name : Ident)
    (params : List Param) (labels : List Label) (body : Block) (arrow : Bool) :
    functionNode inClass (token.moved move) (name.moved move) (params.map (Param.moved move))
        (labels.map (Label.moved move)) (body.moved move) arrow =
      (functionNode inClass token name params labels body arrow).moved move := by
  unfold functionNode
  rw [Ident.name_moved]
  split
  · simp [Node.moved]
  · simp [Node.moved]

theorem arrowBody_moved (move : Position → Position) (arrow : Token) (value : Node) :
    arrowBody (arrow.moved move) (value.moved move) = (arrowBody arrow value).moved move := by
  simp [arrowBody, Block.moved, Node.moved]

include hsub

theorem carries_namedFunction (token : Token) (inClass : Bool) (head : Node) :
    CarriesNode c (namedFunction sub token inClass head)
      (namedFunction sub' (token.moved c.move) inClass (head.moved c.move)) := by
  unfold namedFunction
  refine (carries_functionHead head).bind fun h => (carries_params h.2).bind fun ps => ?_
  refine carries_functionLabels.bind fun ls => Carries.peek.bind fun t => ?_
  refine .ite Iff.rfl ?_ (.ite Iff.rfl ?_ ?_)
  · refine Carries.advance.bind fun arrow => (hsub.expression _).bind fun value => .pure ?_
    rw [arrowBody_moved, functionNode_moved]
  · refine (carries_block hsub).bind fun body => .pure ?_
    rw [functionNode_moved]
  · refine Carries.atItemEnd.bind fun b => .ite Iff.rfl (.pure ?_) ?_
    · simp [Node.moved]
    · exact .failUnexpected t _

theorem carries_lambdaFunction (token : Token) (items : List Node) :
    CarriesNode c (lambdaFunction sub token items)
      (lambdaFunction sub' (token.moved c.move) (items.map (Node.moved c.move))) := by
  unfold lambdaFunction
  refine (carries_params items).bind fun ps => carries_functionLabels.bind fun ls => ?_
  refine (Carries.check _).bind fun b => Carries.ite Iff.rfl ?_ ?_
  · refine Carries.advance.bind fun arrow => (hsub.expression _).bind fun value => .pure ?_
    rw [arrowBody_moved]
    simp [Node.moved]
  · refine (carries_block hsub).bind fun body => .pure ?_
    simp [Node.moved]

theorem carries_function : CarriesNode c (function sub) (function sub') := by
  unfold function
  have hclass : Carries c id (Parse.ask (·.inClass)) (Parse.ask (·.inClass)) :=
    .ask fun _ _ halike _ => halike.inClass
  refine Carries.advance.bind fun token => hclass.bind fun inClass => (hsub.expression _).bind fun head => ?_
  cases head with
  | lambda t ps ls body => exact .pure rfl
  | arrow left arrow right =>
    refine (carries_functionHead left).bind fun h => (carries_params h.2).bind fun ps => ?_
    refine .pure ?_
    rw [arrowBody_moved]
    exact functionNode_moved _ _ _ _ _ [] _ _
  | call callee opener closer args =>
    exact carries_namedFunction hsub token inClass (.call callee opener closer args)
  | group opener closer bracket body =>
    cases bracket with
    | paren =>
      rw [Node.moved, Node.moved?_eq]
      dsimp only
      rw [Node.itemsOf_moved]
      exact carries_lambdaFunction hsub token _
    | square => exact carries_badHead (.group opener closer .square body)
    | brace => exact carries_badHead (.group opener closer .brace body)
  | _ => exact carries_badHead _

theorem carries_classDefinition : CarriesNode c (classDefinition sub) (classDefinition sub') := by
  unfold classDefinition
  refine Carries.advance.bind fun token => Carries.peek.bind fun t => ?_
  refine .ite Iff.rfl ?_ (.failToken t (.same _ rfl))
  refine carries_identifier.bind fun name => Carries.atItemEnd.bind fun b => ?_
  refine .ite Iff.rfl (.pure rfl) (Carries.peek.bind fun t => ?_)
  refine .ite Iff.rfl ?_ (.failToken t (.same _ rfl))
  refine Carries.advance.bind fun opener => ?_
  refine (Carries.inBrackets rfl (carries_groupBody hsub opener .brace)).bind fun g => ?_
  refine .pure ?_
  rw [Group.toBlock_moved, Node.moved]

/-! ## Control flow -/

theorem carries_testOf (keyword : Token) :
    CarriesNode c (testOf sub keyword) (testOf sub' (keyword.moved c.move)) := by
  unfold testOf
  refine Carries.peek.bind fun t => .ite Iff.rfl ?_ (.failToken t (.same _ rfl))
  refine (carries_group hsub _).bind fun g => ?_
  rw [Group.items_moved, Group.node_moved]
  cases g.items with
  | nil => exact .failNode g.node _ rfl
  | cons test items =>
    cases items with
    | nil => exact .pure rfl
    | cons other items => exact .failNode g.node _ rfl

theorem carries_condition (keyword : Token) : Carries c (Condition.moved c.move) (condition sub keyword)
      (condition sub' (keyword.moved c.move)) := by
  unfold condition
  refine (carries_testOf hsub keyword).bind fun test => ?_
  exact (carries_block hsub).bind fun body => .pure rfl

omit hsub

/-- What follows a branch behind line breaks is only looked at to see whether it continues the branch. -/
theorem Carries.kindPastNewlines {f : TokenKind → Parse α} {f' : TokenKind → Parse β}
    (hf : ∀ k, Carries c image (f k) (f' k))
    (hother : ∀ k k', k ≠ .keyword .elseCase → k ≠ .keyword .elifTest → k' ≠ .keyword .elseCase →
      k' ≠ .keyword .elifTest → f' k = f' k') :
    Carries c image (Parse.kindPastNewlines >>= f) (Parse.kindPastNewlines >>= f') := by
  have hsame : ∀ s s', c.Alike s s' →
      f' ((s'.rest.dropWhile (·.kind == .newline)).headD s'.last).kind =
        f' ((s.rest.dropWhile (·.kind == .newline)).headD s.last).kind := by
    intro s s' halike
    let k := ((s.rest.dropWhile (·.kind == .newline)).headD s.last).kind
    let k' := ((s'.rest.dropWhile (·.kind == .newline)).headD s'.last).kind
    have hrest' : s'.rest.dropWhile (·.kind == .newline) =
        if (s.rest.dropWhile (·.kind == .newline)).isEmpty then c.more.dropWhile (·.kind == .newline)
        else (s.rest.dropWhile (·.kind == .newline)).map (Token.moved c.move) ++ c.more := by
      rw [halike.rest, List.dropWhile_append, dropWhile_moved (· == .newline), List.isEmpty_map]
    change f' k' = f' k
    cases hdrop : s.rest.dropWhile (·.kind == .newline) with
    | cons t rest =>
      have hk : k = t.kind := by simp [k, hdrop]
      have hk' : k' = t.kind := by simp [k', hrest', hdrop]
      rw [hk, hk']
    | nil =>
      have hk : k = .eof := by simp [k, hdrop, halike.eof.1]
      rw [hdrop, List.isEmpty_nil, if_pos rfl] at hrest'
      have hk' : k' ≠ .keyword .elseCase ∧ k' ≠ .keyword .elifTest := by
        cases hmore : c.more.dropWhile (·.kind == .newline) with
        | nil => simp [k', hrest', hmore, halike.eof.2]
        | cons t more => simpa [k', hrest', hmore] using c.goesOn t (by simp [hmore])
      exact hother _ _ hk'.1 hk'.2 (by simp [hk]) (by simp [hk])
  constructor
  · exact fun s hend => (hf _).back s hend
  · intro s s' halike hend
    rw [Parse.kindPastNewlines, ask_bind, ask_bind, hsame s s' halike]
    exact (hf _).forth s s' halike hend
  · exact fun hclean s' hs' => (hf _).keeps hclean s' hs'
  · intro hclean s s' halike hs hend
    rw [Parse.kindPastNewlines, ask_bind, hsame s s' halike]
    exact (hf _).faulty hclean s s' halike hs hend

include hsub

theorem carries_branch : CarriesNode c (branch sub) (branch sub') := by
  unfold branch
  refine Carries.advance.bind fun keyword => (carries_condition hsub keyword).bind fun first => ?_
  refine .repeatWhile (List.map (Condition.moved c.move)) (fun done => ?_) [first]
  refine .kindPastNewlines (fun k => ?_) ?_
  · refine .ite Iff.rfl ?_ (.ite Iff.rfl ?_ (.pure ?_))
    · refine Carries.skipNewlines.bind fun _ => Carries.advance.bind fun _ => ?_
      refine (carries_block hsub).bind fun otherwise => .pure ?_
      simp [Progress.image, Node.moved]
    · refine Carries.skipNewlines.bind fun _ => Carries.advance.bind fun keyword => ?_
      exact (carries_condition hsub keyword).bind fun test => .pure rfl
    · simp [Progress.image, Node.moved]
  · intro k k' helse helif helse' helif'
    simp [helse, helif, helse', helif']

theorem carries_whileLoop : CarriesNode c (whileLoop sub) (whileLoop sub') := by
  unfold whileLoop
  refine Carries.advance.bind fun token => (carries_testOf hsub token).bind fun test => ?_
  exact (carries_block hsub).bind fun body => .pure rfl

theorem carries_forLoop : CarriesNode c (forLoop sub) (forLoop sub') := by
  unfold forLoop
  refine Carries.advance.bind fun token => Carries.peek.bind fun t => ?_
  refine .ite Iff.rfl ?_ (.failToken t (.same _ rfl))
  refine (carries_group hsub _).bind fun g => ?_
  rw [Group.items_moved, Group.node_moved, List.length_map]
  have hbad : CarriesNode c
      (failNode g.node (.entry .forHeadShape [.number g.items.length]))
      (failNode (g.node.moved c.move) (.entry .forHeadShape [.number g.items.length])) :=
    .failNode g.node _ rfl
  have hbody : (g.moved c.move).body = g.body.map (Node.moved c.move) := rfl
  rw [hbody]
  split
  next opener closer init test update hshape =>
    rw [hshape]
    simp only [Option.map_some, Node.moved, Block.moved, Node.movedAll]
    refine (carries_block hsub).bind fun body => .pure ?_
    simp [Node.moved]
  next hshape =>
    cases hn : g.body with
    | none => exact hbad
    | some n =>
      cases n with
      | block b =>
        cases b with
        | mk opener closer items =>
          match items with
          | [] | [_] | [_, _] | _ :: _ :: _ :: _ :: _ => exact hbad
          | [init, test, update] => exact absurd hn (hshape _ _ _ _ _)
      | _ => exact hbad

theorem carries_returnFrom : CarriesNode c (returnFrom sub) (returnFrom sub') := by
  unfold returnFrom
  refine Carries.advance.bind fun token => Carries.atItemEnd.bind fun b => ?_
  refine .ite Iff.rfl (.pure rfl) ?_
  exact (hsub.expression _).bind fun value => .pure rfl

omit hsub

theorem carries_importFile : CarriesNode c importFile importFile := by
  unfold importFile
  refine Carries.advance.bind fun token => Carries.peek.bind fun t => ?_
  refine .ite Iff.rfl ?_ (.failToken t (.same _ rfl))
  exact Carries.advance.bind fun path => .pure rfl

include hsub

theorem carries_ofKeyword (k : Keyword) : CarriesNode c (ofKeyword sub k) (ofKeyword sub' k) := by
  cases k with
  | varDef => exact carries_varDefinition hsub
  | funDef => exact carries_function hsub
  | classDef => exact carries_classDefinition hsub
  | ifTest => exact carries_branch hsub
  | elifTest | elseCase => exact Carries.peek.bind fun t => .failToken t (.same _ rfl)
  | whileLoop => exact carries_whileLoop hsub
  | forLoop => exact carries_forLoop hsub
  | returnFrom => exact carries_returnFrom hsub
  | importFile => exact carries_importFile
  | _ => exact carries_leaf fun _ => rfl

theorem carries_beginning (k : TokenKind) :
    Option.Rel (CarriesNode c) (beginning? sub k) (beginning? sub' k) := by
  unfold beginning?
  split
  · exact .some (carries_identifier.bind fun name => .pure rfl)
  · exact .some carries_integer
  · exact .some carries_float
  · exact .some (carries_leaf fun _ => rfl)
  · exact .some (carries_unary hsub)
  · exact .some (carries_unary hsub)
  · exact .some (carries_unary hsub)
  · exact .some (carries_unary hsub)
  · exact .some ((carries_group hsub _).bind fun g => .pure (Group.node_moved _ g))
  · exact .some (carries_list hsub)
  · exact .some (carries_braces hsub)
  · exact .some (carries_ofKeyword hsub _)
  · exact .none

theorem carries_expressionWith (level : Nat) :
    CarriesNode c (expressionWith sub level) (expressionWith sub' level) := by
  unfold expressionWith
  refine Carries.peek.bind fun t => ?_
  rw [Token.kind_moved]
  have hrule := carries_beginning hsub t.kind
  generalize beginning? sub t.kind = rule at hrule ⊢
  generalize beginning? sub' t.kind = rule' at hrule ⊢
  cases hrule with
  | some h => exact h.bind fun left => carries_climb hsub level left
  | none => exact .failToken t (.same _ rfl)

end

/-- An expression that is read without an error has a result. -/
theorem speaks_expression (budget level : Nat) (heof : s.last.kind = .eof) (hnoted : Noted s)
    (h : (expression budget level s).1 = none) : (expression budget level s).2.errors ≠ [] := by
  have hs : Ready False s := ⟨heof, False.elim, hnoted⟩
  have o := (onward False).eats_expression budget level s hs
  exact fun he => absurd ((o.failed h).clean he).1 (by decide)

/-- Expressions, with something else done behind the faulty items of groups. -/
def expressionUsing (recover : Bracket → Parse Unit) : (budget : Nat) → (level : Nat) → Parse Node
  | 0, level => expression 0 level
  | budget + 1, level => expressionWith { expression := expressionUsing recover budget, recover } level

theorem expressionUsing_synchronize (budget : Nat) :
    expressionUsing (fun b => synchronize (some b)) budget = expression budget := by
  induction budget with
  | zero => rfl
  | succ budget ih =>
    funext level
    rw [expressionUsing, ih, expression]

/-- What is done behind faulty items does not matter to an expression that has none. -/
theorem carries_expressionUsing {recover : Bracket → Parse Unit}
    (hrecover : ∀ b, Resumes c id (synchronize (some b)) (recover b)) (budget level : Nat) :
    CarriesNode c (expression budget level) (expressionUsing recover budget level) := by
  induction budget generalizing level with
  | zero => exact Carries.peek.bind fun t => .failToken t (.same _ rfl)
  | succ budget ih =>
    exact carries_expressionWith
      ⟨ih, hrecover, fun _ level _ heof hnoted => speaks_expression budget level heof hnoted⟩ level

/-- An expression is read in the same way wherever it stands. -/
theorem carries_expression (budget level : Nat) :
    CarriesNode c (expression budget level) (expression budget level) := by
  rw [← congrFun (expressionUsing_synchronize budget) level]
  nth_rewrite 1 [expressionUsing_synchronize]
  exact carries_expressionUsing (fun b => (Carries.synchronize (some b)).resumes) budget level

end Parse

end Frontend
