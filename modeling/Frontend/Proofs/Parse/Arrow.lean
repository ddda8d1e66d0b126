import Frontend.Proofs.Parse.Apart
import Frontend.Proofs.Parse.Stages
import Frontend.Proofs.Parse.Statement

/-!
# Functions with an arrow

A function whose body is an expression can be written with labels and without, and without the keyword. The
forms read the body by different rules: behind labels it is read above the level of commas, elsewhere as the
right operand of an arrow. As long as the second one takes up all of the first, the forms mean the same.
-/

namespace Frontend

variable {α : Type} {level : Nat} {items : List Node}
variable {R : Node → Node → ParseState → Prop} {S : ParseState}

namespace Parse

variable {s t : ParseState}

theorem sound_startAt (pos : Position) : (startAt [] pos).Sound := ⟨rfl, rfl, rfl, rfl⟩

theorem ready_of_sound (hs : s.Sound) : Ready False s := by
  refine ⟨hs.eof, False.elim, fun h => ?_⟩
  rw [hs.panicking, hs.stopped] at h
  simp at h

/-! ## Parameters in parentheses -/

section
variable {opener closer : Token} {tokens rest : List Token} {budget : Nat}

theorem failNode_faulty (hs : Noted s) (n : Node) (message : Phrase) :
    (failNode n message s : Option α × ParseState).2.errors ≠ [] := by
  rw [failNode, reportNode, reportAt_eq, change_bind]
  exact errors_afterReport hs _

theorem failToken_faulty (hs : Noted s) (fault : GrammarFault) (token : Token) (message : Phrase) :
    (failToken fault token message s : Option α × ParseState).2.errors ≠ [] := by
  rw [failToken, reportToken, reportAt_eq, change_bind]
  exact errors_afterReport hs _

/-- Whether items are arguments does not depend on the state. -/
theorem arguments_apart (ns : List Node) :
    (∃ args, ∀ s, arguments ns s = (some args, s)) ∨ ∀ s, Noted s → (arguments ns s).2.errors ≠ [] := by
  induction ns with
  | nil => exact .inl ⟨[], fun _ => rfl⟩
  | cons n ns ih =>
    unfold arguments
    cases argumentOf? n with
    | none => exact .inr fun s hs => failNode_faulty hs n _
    | some a =>
      rcases ih with ⟨args, h⟩ | h
      · exact .inl ⟨a :: args, fun s => bind_apply_some (h s)⟩
      · refine .inr fun s hs => bind_keeps (fun args s' hs' => hs') s (h s hs)

/-- Whether items are parameters does not depend on the state. -/
theorem params_apart (ns : List Node) :
    (∃ ps, ∀ s, params ns s = (some ps, s)) ∨ ∀ s, Noted s → (params ns s).2.errors ≠ [] := by
  unfold params
  cases paramsOf ns false false with
  | ok ps => exact .inl ⟨ps, fun _ => rfl⟩
  | error e => exact .inr fun s hs => failNode_faulty hs e.1 e.2

/-- Parameters that are known are handed on. -/
theorem params_bind {ns : List Node} {ps : List Param} (h : ∀ s, params ns s = (some ps, s))
    (k : List Param → Parse Node) : params ns >>= k = k ps :=
  funext fun s => bind_apply_some (h s)

theorem noted_of_errors (h : s.errors ≠ []) : Noted s := fun _ => h

theorem keepsErrors_failNode (n : Node) (message : Phrase) : KeepsErrors (failNode n message : Parse α) :=
  fun _ hs => failNode_faulty (noted_of_errors hs) n message

theorem keepsErrors_params (ns : List Node) : KeepsErrors (params ns) := by
  intro s hs
  rcases params_apart ns with ⟨ps, h⟩ | h
  · rwa [h]
  · exact h s (noted_of_errors hs)

theorem keepsErrors_arguments (ns : List Node) : KeepsErrors (arguments ns) := by
  intro s hs
  rcases arguments_apart ns with ⟨ps, h⟩ | h
  · rwa [h]
  · exact h s (noted_of_errors hs)

/-- A call is read apart from what stands behind it. -/
theorem call_apart (hs : s.Sound) (herrors : s.errors = []) (hcloser : closer.kind = .closing .paren)
    (htokens : Inside tokens) (opener : Token) (budget : Nat) (callee : Node) :
    (∃ args, ∀ rest, Anew rest → call (nested budget) callee (s.before (opener :: (tokens ++ closer :: rest))) =
      (some (.call callee opener closer args), s.before rest)) ∨ ∀ rest, Anew rest →
      (call (nested budget) callee (s.before (opener :: (tokens ++ closer :: rest)))).2.errors ≠ [] := by
  have hnoted : ∀ rest, Noted (s.before rest) := by
    intro rest h
    rw [show (s.before rest).panicking = false from hs.panicking,
      show (s.before rest).stopped = false from hs.stopped] at h
    simp at h
  unfold call
  by_cases h : Complete budget .paren s tokens closer
  · obtain ⟨ns, -, hgroup⟩ := group_complete hs herrors hcloser htokens opener h
    have hread : ∀ (f : Group → Parse Node) rest, Anew rest →
        (group (nested budget) .paren >>= f) (s.before (opener :: (tokens ++ closer :: rest))) =
          f (Group.ofItems opener closer .paren ns) (s.before rest) :=
      fun f rest hanew => bind_apply_some (hgroup rest hanew)
    by_cases hblock : (Group.ofItems opener closer .paren ns).holdsBlock = true
    · refine .inr fun rest hanew => ?_
      rw [hread _ rest hanew, if_pos hblock]
      exact failNode_faulty (hnoted rest) _ _
    · rcases arguments_apart (Group.ofItems opener closer .paren ns).items with ⟨args, hargs⟩ | hargs
      · refine .inl ⟨args, fun rest hanew => ?_⟩
        rw [hread _ rest hanew, if_neg hblock, bind_apply_some (hargs _)]
        rfl
      · refine .inr fun rest hanew => ?_
        rw [hread _ rest hanew, if_neg hblock]
        exact bind_keeps (fun _ _ hs' => hs') _ (hargs _ (hnoted rest))
  · refine .inr fun rest hanew => bind_keeps (fun g s' hs' => ?_) _
      (group_faulty hs herrors hcloser htokens opener h hanew)
    by_cases hblock : g.holdsBlock = true
    · rw [if_pos hblock]
      exact keepsErrors_failNode _ _ s' hs'
    · rw [if_neg hblock]
      exact bind_keeps (fun _ _ hs' => hs') s' (keepsErrors_arguments _ s' hs')

end

/-! ## Bodies -/

/-- What is read behind the arrow of a function. As the right operand of the arrow it is read to where only
commas can go on with it, and it could be nested one level deeper. -/
structure ArrowBody (budget : Nat) (s : ParseState) : Prop where
  ends : ∀ e t, expression budget Binding.arrow s = (some e, t) →
    Binding.ofKind t.next.kind ≤ Binding.parallel
  deeper : expression (budget + 1) Binding.arrow s = expression budget Binding.arrow s

section
variable {budget : Nat} {e : Node}

theorem ArrowBody.stops (h : ArrowBody budget s) (hs : Ready False s)
    (hread : expression budget Binding.arrow s = (some e, t)) : t.Stops Binding.parallel := by
  have hstops := expression_stops hs hread
  exact ⟨hstops.increment, hstops.number, h.ends e t hread⟩

/-- Behind labels, the same body is read. -/
theorem ArrowBody.labelled (h : ArrowBody budget s) (hs : Ready False s) :
    expression (budget + 1) Binding.parallel s = expression budget Binding.arrow s := by
  rw [expression_stages (show Binding.parallel ≤ Binding.arrow by decide) hs]
  cases hread : expression budget Binding.arrow s with
  | mk r t =>
    cases r with
    | none => exact bind_apply_none (h.deeper.trans hread)
    | some e =>
      rw [bind_apply_some (h.deeper.trans hread)]
      exact climb_stop (h.stops hs hread)

/-- An expression is faulty or read to where reading can go on. -/
theorem expression_result (budget level : Nat) (hs : Ready False s) :
    (∃ t, expression budget level s = (none, t) ∧ t.errors ≠ []) ∨
      ∃ e t, expression budget level s = (some e, t) ∧ Onward False true s true t ∧ Ready False t := by
  have o := (onward False).eats_expression budget level s hs
  cases hread : expression budget level s with
  | mk r t =>
    rw [hread] at o
    cases r with
    | none => exact .inl ⟨t, rfl, fun he => absurd ((o.failed rfl).clean he).1 Bool.false_ne_true⟩
    | some e => exact .inr ⟨e, t, rfl, (o.done e rfl).1, o.inv⟩

theorem expression_faulty (hs : Ready False s) {f : Node → Parse Node}
    (hf : ∀ e t, Ready False t → (f e t).2.errors ≠ []) : ((expression budget level >>= f) s).2.errors ≠ [] := by
  rcases expression_result budget level hs with ⟨t, hread, ht⟩ | ⟨e, t, hread, -, ht⟩
  · rwa [bind_apply_none hread]
  · rw [bind_apply_some hread]
    exact hf e t ht

/-- Two runs that go on behind the same body agree if they do so behind a body without errors. -/
theorem ArrowBody.agree (h : ArrowBody budget s) (hs : Ready False s) {f f' : Node → Parse Node}
    (hf : ∀ e t, t.Stops Binding.parallel → Ready False t → Agree R (f e t) (f' e t)) :
    Agree R ((expression budget Binding.arrow >>= f) s) ((expression budget Binding.arrow >>= f') s) := by
  rcases expression_result budget Binding.arrow hs with ⟨t, hread, ht⟩ | ⟨e, t, hread, -, ht⟩
  · rw [bind_apply_none hread, bind_apply_none hread]
    exact .faulty ht ht
  · rw [bind_apply_some hread, bind_apply_some hread]
    exact hf e t (h.stops hs hread) ht

end

/-- A tree may be nested deeper than it is. -/
theorem Node.Written.deeper {depth : Nat} {n : Node} {tokens : List Token} (h : n.Written depth tokens) :
    n.Written (depth + 1) tokens := by
  induction h with
  | leaf h => exact .leaf h
  | ident h => exact .ident h
  | group hopener _ hcloser ih => exact .group hopener ih hcloser
  | unary hop hfront _ hlevel ih => exact .unary hop hfront ih hlevel
  | binary _ hop hbinary _ hleft hright ihl ihr => exact .binary ihl hop hbinary ihr hleft hright
  | assign _ hop hassignment _ hassignable ihl ihr => exact .assign ihl hop hassignment ihr hassignable
  | call _ hlevel hopener hcloser ih => exact .call ih hlevel hopener hcloser
  | callWith _ hlevel hopener _ hcommas _ hcloser hargs ih ihfirst ihmore =>
    exact .callWith ih hlevel hopener ihfirst hcommas ihmore hcloser hargs
  | index _ hlevel hlabels hopener _ hcloser ih ihs => exact .index ih hlevel hlabels hopener ihs hcloser
  | member _ hlevel hdot hname ih => exact .member ih hlevel hdot hname
  | increment _ hassignable hop ih => exact .increment ih hassignable hop

/-- A tree that is no assignment is the body of a function wherever an item ends behind it. -/
theorem arrowBody_written {budget : Nat} {n : Node} {tokens rest : List Token} (h : n.Written budget tokens)
    (hlevel : Binding.arrow < n.level) (hs : s.Sound) (hends : (s.before rest).EndsItem) :
    ArrowBody budget (s.before (tokens ++ rest)) := by
  obtain ⟨hstops, hname⟩ := hends.stops
  have hread : ∀ {budget : Nat}, n.Written budget tokens →
      expression budget Binding.arrow (s.before (tokens ++ rest)) = (some n, s.before rest) :=
    fun h => Climbs.reads (climbs_written h) h hs (.inl hlevel) (hstops.mono (by decide)) hname
  refine ⟨fun e t he => ?_, (hread (Node.Written.deeper h)).trans (hread h).symm⟩
  cases (hread h).symm.trans he
  exact Nat.le_trans hstops.level (by decide)

/-! ## Functions -/

/-- The tokens of a function with an arrow, in all its forms, and those behind the arrow. -/
structure ArrowTokens where
  keyword : Token
  name : Token
  opener : Token
  inside : List Token
  closer : Token
  colon : Token
  labels : List Token
  arrow : Token
  behind : List Token

namespace ArrowTokens

/-- The parameters in parentheses, and further tokens. -/
def parameters (a : ArrowTokens) (rest : List Token) : List Token :=
  a.opener :: (a.inside ++ a.closer :: rest)

/-- The arrow right behind the parameters. -/
def unlabelled (a : ArrowTokens) : List Token := a.arrow :: a.behind

def labelled (a : ArrowTokens) : List Token := a.colon :: (a.labels ++ a.arrow :: a.behind)

def named (a : ArrowTokens) (rest : List Token) : List Token := a.keyword :: a.name :: a.parameters rest

/-- A function without a name. -/
def unnamed (a : ArrowTokens) (rest : List Token) : List Token := a.keyword :: a.parameters rest

/-- The tokens are of the right kinds, the parameters are on one line with properly nested brackets, and
the labels are `ls`. -/
structure WellFormed (a : ArrowTokens) (ls : List Label) : Prop where
  keyword : a.keyword.kind = .keyword .funDef
  name : a.name.kind = .ident
  opener : a.opener.kind = .opening .paren
  inside : Inside a.inside
  closer : a.closer.kind = .closing .paren
  colon : a.colon.kind = .op .colon
  labels : LabelsWritten ls a.labels
  arrow : a.arrow.kind = .op .arrow
  behind : NoEof a.behind

variable {a : ArrowTokens} {ls : List Label}

theorem WellFormed.anew (h : a.WellFormed ls) : Anew a.unlabelled ∧ Anew a.labelled := by
  constructor <;> intro t ht
  · rw [unlabelled, pastNewlines_cons (by simp [h.arrow])] at ht
    cases ht
    simp [h.arrow]
  · rw [labelled, pastNewlines_cons (by simp [h.colon])] at ht
    cases ht
    simp [h.colon]

end ArrowTokens

section
variable {budget : Nat} {token : Token} {tokens rest : List Token} {args : List Node} {body : Option Node}
  {ps : List Param} {ls : List Label} {a : ArrowTokens}

/-- The rest of a function behind its head. -/
def functionBehind (sub : Nested) (inClass : Bool) (token : Token) (head : Node) : Parse Node :=
  match head with
  | .lambda _ ps ls body => return .lambda token ps ls body
  | .arrow left arrow right => do
    let (name, args) ← functionHead left
    let ps ← params args
    return functionNode inClass token name ps [] (arrowBody arrow right) true
  | .call .. => namedFunction sub token inClass head
  | .group _ _ .paren body => lambdaFunction sub token (Node.itemsOf body)
  | _ => badHead head

theorem function_before (hs : s.Sound) (sub : Nested) (token : Token) (tokens : List Token) :
    function sub (s.before (token :: tokens)) =
      (sub Binding.pair >>= functionBehind sub false token) (s.before tokens) := by
  unfold function
  rw [advance_before, ask_bind, show (s.before tokens).inClass = false from hs.inClass]
  rfl

theorem keepsErrors_pure (n : Node) : KeepsErrors (pure n) := fun _ hs => hs

theorem keepsErrors_block (budget : Nat) : KeepsErrors (block (nested budget)) :=
  keepsErrors_of_carries (carries_block (carriesNested_faultless budget))

theorem keepsErrors_functionBehind (inClass : Bool) (token : Token) (head : Node) :
    KeepsErrors (functionBehind (nested budget) inClass token head) := by
  have hsub := carriesNested_faultless budget
  have hbad : ∀ n, KeepsErrors (badHead n : Parse Node) := fun n => keepsErrors_failNode n _
  cases head with
  | lambda _ ps ls body => exact keepsErrors_pure _
  | arrow left arrow right =>
    refine KeepsErrors.bind ?_ fun h => (keepsErrors_params h.2).bind fun ps => keepsErrors_pure _
    have h := keepsErrors_of_carries (carries_functionHead (c := Setting.faultless) left)
    rwa [show Setting.faultless.move = id from rfl, Node.moved_id] at h
  | call callee opener closer args =>
    have h := keepsErrors_of_carries
      (carries_namedFunction hsub token inClass (.call callee opener closer args))
    rwa [show Setting.faultless.move = id from rfl, Node.moved_id, Token.moved_id] at h
  | group opener closer bracket body =>
    cases bracket with
    | paren =>
      have h := keepsErrors_of_carries (carries_lambdaFunction hsub token (Node.itemsOf body))
      rwa [show Setting.faultless.move = id from rfl, Node.map_moved_id, Token.moved_id] at h
    | square => exact hbad _
    | brace => exact hbad _
  | _ => exact hbad _

/-- A function whose head is faulty is faulty. -/
theorem function_faulty (hs : s.Sound)
    (h : (expression (budget + 1) Binding.pair (s.before tokens)).2.errors ≠ []) :
    (function (nested (budget + 1)) (s.before (token :: tokens))).2.errors ≠ [] := by
  rw [function_before hs]
  exact bind_keeps (keepsErrors_functionBehind false token) _ h

/-- In front of its first token, an expression is what that token begins. -/
theorem expression_rule {rule : Parse Node} (hrule : beginning? (nested budget) token.kind = some rule) :
    expression (budget + 1) level (s.before (token :: tokens)) =
      (rule >>= climb (nested budget) level) (s.before (token :: tokens)) := by
  change expressionWith (nested budget) level _ = _
  unfold expressionWith
  rw [peek_bind, ParseState.next_before_cons, hrule]

/-- In front of an arrow, an operand is gone on with. -/
theorem climb_arrow (hs : s.Sound) (ha : a.WellFormed ls) (hlevel : level < Binding.arrow) (left : Node) :
    climb (nested budget) level left (s.before a.unlabelled) =
      (arrowed (nested budget) left >>= climb (nested budget) level) (s.before a.unlabelled) := by
  refine climb_continue (ready_of_sound (hs.before _)) ?_ ?_ ?_ <;>
    rw [ArrowTokens.unlabelled, ParseState.next_before_cons]
  · exact isNegativeNumber_op ha.arrow
  · rw [ha.arrow]
    exact hlevel
  · rw [ha.arrow]
    rfl

/-- In front of a colon, the head of a function ends. -/
theorem climb_colon (ha : a.WellFormed ls) (left : Node) :
    climb (nested budget) Binding.pair left (s.before a.labelled) = (some left, s.before a.labelled) := by
  refine climb_stop ⟨?_, ?_, ?_⟩ <;> rw [ArrowTokens.labelled, ParseState.next_before_cons]
  · simp [ha.colon]
  · exact isNegativeNumber_op ha.colon
  · rw [ha.colon]
    decide

/-- The labels in front of the arrow are read. -/
theorem functionLabels_before (ha : a.WellFormed ls) :
    functionLabels (s.before a.labelled) = (some ls, s.before a.unlabelled) := by
  unfold functionLabels
  rw [ArrowTokens.labelled, accept_before ha.colon, if_pos rfl]
  exact labels_written ha.labels (by rw [ParseState.next_before_cons, ha.arrow]; rfl)
    (by simp [ParseState.next_before_cons, ha.arrow])

/-! ### Functions with a name -/

/-- The head of a function with a name. -/
def ArrowTokens.head (a : ArrowTokens) (args : List Node) : Node :=
  .call (.ident { token := a.name }) a.opener a.closer args

/-- The head of a function with a name is read as a call. -/
theorem head_named (ha : a.WellFormed ls) (hs : s.Sound) :
    expression (budget + 1) Binding.pair (s.before (a.name :: a.parameters tokens)) =
      (call (nested budget) (.ident { token := a.name }) >>= climb (nested budget) Binding.pair)
        (s.before (a.parameters tokens)) := by
  have hidentifier : (do return .ident (← identifier) : Parse Node) (s.before (a.name :: a.parameters tokens)) =
      (some (.ident { token := a.name }), s.before (a.parameters tokens)) := by
    have hother : (s.before (a.parameters tokens)).next.kind ≠ .op .colon := by
      rw [ArrowTokens.parameters, ParseState.next_before_cons, ha.opener]
      nofun
    refine bind_apply_some (show identifier _ = (some { token := a.name }, _) from ?_)
    unfold identifier
    rw [advance_before, accept_other hother]
    rfl
  rw [expression_begin (by rw [ha.name]; rfl) hidentifier]
  refine climb_continue (ready_of_sound (hs.before _)) ?_ ?_ ?_ <;>
    rw [ArrowTokens.parameters, ParseState.next_before_cons]
  · exact isNegativeNumber_opening ha.opener
  · rw [ha.opener]
    decide
  · rw [ha.opener]
    rfl

/-- Behind a head that an arrow follows, the body is read, and the expression ends there. -/
theorem bind_arrowed {head : Node} {k : Node → Parse Node} (node : Node → Node) (hs : s.Sound)
    (hbody : ArrowBody budget (s.before a.behind)) (hhead : expression (budget + 1) Binding.pair (s.before tokens) =
      (arrowed (nested budget) head >>= climb (nested budget) Binding.pair) (s.before a.unlabelled))
    (harrowed : arrowed (nested budget) head (s.before a.unlabelled) =
      (expression budget Binding.arrow >>= fun e => pure (node e)) (s.before a.behind)) :
    (expression (budget + 1) Binding.pair >>= k) (s.before tokens) =
      (expression budget Binding.arrow >>= fun e => k (node e)) (s.before a.behind) := by
  cases hread : expression budget Binding.arrow (s.before a.behind) with
  | mk r t =>
    cases r with
    | none =>
      rw [bind_apply_none hread]
      exact bind_apply_none (hhead.trans (bind_apply_none (harrowed.trans (bind_apply_none hread))))
    | some e =>
      have hstops := hbody.stops (ready_of_sound (hs.before _)) hread
      have hnode := hhead.trans (bind_apply_some (harrowed.trans (bind_apply_some hread)))
      rw [bind_apply_some hread]
      exact bind_apply_some (hnode.trans (climb_stop (hstops.mono (by decide))))

/-- Without labels, a function with a name is read as the body and then the parameters. -/
theorem function_named (hs : s.Sound) (ha : a.WellFormed ls) (hbody : ArrowBody budget (s.before a.behind))
    (hcall : call (nested budget) (.ident { token := a.name }) (s.before (a.parameters a.unlabelled)) =
      (some (a.head args), s.before a.unlabelled)) :
    function (nested (budget + 1)) (s.before (a.named a.unlabelled)) =
      (expression budget Binding.arrow >>= fun e => do
        let ps ← params args
        return functionNode false a.keyword { token := a.name } ps [] (arrowBody a.arrow e) true)
          (s.before a.behind) := by
  have hhead : expression (budget + 1) Binding.pair (s.before (a.name :: a.parameters a.unlabelled)) =
      (arrowed (nested budget) (a.head args) >>= climb (nested budget) Binding.pair) (s.before a.unlabelled) := by
    rw [head_named ha hs, bind_apply_some hcall, climb_arrow hs ha (by decide)]
  rw [ArrowTokens.named, function_before hs]
  exact bind_arrowed (fun e => .arrow (a.head args) a.arrow e) hs hbody hhead rfl

/-- With labels, it is read as the parameters and then the body. -/
theorem function_namedLabelled (hs : s.Sound) (ha : a.WellFormed ls)
    (hcall : call (nested budget) (.ident { token := a.name }) (s.before (a.parameters a.labelled)) =
      (some (a.head args), s.before a.labelled)) : function (nested (budget + 1)) (s.before (a.named a.labelled)) =
      (params args >>= fun ps => do
        let ls ← functionLabels
        functionRest (nested (budget + 1)) false a.keyword { token := a.name } ps ls) (s.before a.labelled) := by
  have hhead : expression (budget + 1) Binding.pair (s.before (a.name :: a.parameters a.labelled)) =
      (some (a.head args), s.before a.labelled) := by
    rw [head_named ha hs, bind_apply_some hcall, climb_colon ha]
  rw [ArrowTokens.named, function_before hs]
  exact bind_apply_some hhead

/-- Behind the labels comes the body. -/
theorem functionRest_arrow (ha : a.WellFormed ls) (ps : List Param) :
    functionRest (nested (budget + 1)) false a.keyword { token := a.name } ps ls (s.before a.unlabelled) =
      (expression (budget + 1) Binding.parallel >>= fun e =>
        pure (functionNode false a.keyword { token := a.name } ps ls (arrowBody a.arrow e) true))
          (s.before a.behind) := by
  unfold functionRest
  rw [ArrowTokens.unlabelled, peek_bind, ParseState.next_before_cons, if_pos (by simp [ha.arrow]), advance_before]
  rfl

theorem keepsErrors_functionLabels : KeepsErrors functionLabels :=
  keepsErrors_of_carries (show Carries Setting.faultless _ functionLabels functionLabels from carries_functionLabels)

theorem keepsErrors_functionRest (inClass : Bool) (name : Ident) :
    KeepsErrors (functionRest (nested budget) inClass token name ps ls) := by
  intro s hs
  unfold functionRest
  rw [peek_bind]
  split
  · rw [advance_bind]
    exact (keepsErrors_expression _ _).bind (fun e => keepsErrors_pure _) _ hs
  · split
    · exact (keepsErrors_block budget).bind (fun b => keepsErrors_pure _) _ hs
    · rw [atItemEnd_bind]
      split
      · exact hs
      · exact failToken_faulty (noted_of_errors hs) _ _ _

/-- The same function written in two ways: with the same parameters and the same body. -/
inductive SameFunction : Node → Node → Prop where
  | named {token token' : Token} {name : Ident} {ps : List Param} {ls ls' : List Label} {body : Block} :
      SameFunction (.funDef token name ps ls body true) (.funDef token' name ps ls' body true)
  | unnamed {token token' : Token} {ps : List Param} {ls ls' : List Label} {body : Block} :
      SameFunction (.lambda token ps ls body) (.lambda token' ps ls' body)

/-- The same function, in front of what can only be a comma or the end. -/
def ReadSame (n n' : Node) (t : ParseState) : Prop :=
  SameFunction n n' ∧ Ready False t ∧ t.Stops Binding.parallel

/-- A function with a name is read as the same one with labels and without, or else both have errors. -/
theorem agree_named (hs : s.Sound) (herrors : s.errors = []) (ha : a.WellFormed ls)
    (hbody : ArrowBody budget (s.before a.behind)) :
    Agree ReadSame (function (nested (budget + 1)) (s.before (a.named a.unlabelled)))
      (function (nested (budget + 1)) (s.before (a.named a.labelled))) := by
  have hready : Ready False (s.before a.behind) := ready_of_sound (hs.before _)
  rcases call_apart hs herrors ha.closer ha.inside a.opener budget (.ident { token := a.name }) with
    ⟨args, hcall⟩ | hfaulty
  · rw [function_named hs ha hbody (hcall _ ha.anew.1), function_namedLabelled hs ha (hcall _ ha.anew.2)]
    rcases params_apart args with ⟨ps, hps⟩ | hps
    · simp only [params_bind hps]
      rw [bind_apply_some (functionLabels_before ha), functionRest_arrow ha, bind_congr_run (hbody.labelled hready)]
      exact hbody.agree hready fun e t hstops ht => .both ⟨.named, ht, hstops⟩
    · refine .faulty (expression_faulty hready fun e t ht => ?_) ?_
      · exact bind_keeps (fun _ _ he => he) t (hps t ht.errors)
      · refine bind_keeps (fun ps => ?_) _ (hps _ (ready_of_sound (hs.before _)).errors)
        exact keepsErrors_functionLabels.bind fun ls => keepsErrors_functionRest _ _
  · have hhead : ∀ rest, Anew rest →
        (expression (budget + 1) Binding.pair (s.before (a.name :: a.parameters rest))).2.errors ≠ [] := by
      intro rest hrest
      rw [head_named ha hs]
      exact bind_keeps (fun n => keepsErrors_climb _ _ n) _ (hfaulty rest hrest)
    exact .faulty (function_faulty hs (hhead _ ha.anew.1)) (function_faulty hs (hhead _ ha.anew.2))

/-! ### Functions without a name -/

/-- The parameters in parentheses as a group. -/
def ArrowTokens.group (a : ArrowTokens) (items : List Node) : Group := .ofItems a.opener a.closer .paren items

/-- In front of parentheses, an expression begins with a group. -/
theorem expression_group (ha : a.WellFormed ls) : expression (budget + 1) level (s.before (a.parameters tokens)) =
      ((do return (← group (nested budget) .paren).node) >>= climb (nested budget) level)
        (s.before (a.parameters tokens)) :=
  expression_rule (by rw [ha.opener]; rfl)

theorem expression_parameters (ha : a.WellFormed ls)
    (hgroup : group (nested budget) .paren (s.before (a.parameters tokens)) = (some (a.group items), s.before tokens)) :
    expression (budget + 1) level (s.before (a.parameters tokens)) =
      climb (nested budget) level (a.group items).node (s.before tokens) := by
  have hnode : (do return (← group (nested budget) .paren).node : Parse Node) (s.before (a.parameters tokens)) =
      (some (a.group items).node, s.before tokens) := bind_apply_some hgroup
  exact (expression_group ha).trans (bind_apply_some hnode)

/-- In front of an arrow, the group is gone on with. -/
theorem expression_arrowed (hs : s.Sound) (ha : a.WellFormed ls) (hlevel : level < Binding.arrow)
    (hgroup : group (nested budget) .paren (s.before (a.parameters a.unlabelled)) =
      (some (a.group items), s.before a.unlabelled)) :
    expression (budget + 1) level (s.before (a.parameters a.unlabelled)) =
      (arrowed (nested budget) (a.group items).node >>= climb (nested budget) level) (s.before a.unlabelled) := by
  rw [expression_parameters ha hgroup, climb_arrow hs ha hlevel]

/-- Parameters that are not complete are faulty. -/
theorem parameters_faulty (hs : s.Sound) (herrors : s.errors = []) (ha : a.WellFormed ls)
    (h : ¬ Complete budget .paren s a.inside a.closer) (hrest : Anew rest) (level : Nat) :
    (expression (budget + 1) level (s.before (a.parameters rest))).2.errors ≠ [] := by
  rw [expression_group ha]
  refine bind_keeps (keepsErrors_climb _ _) _ (bind_keeps (fun _ _ he => he) _ ?_)
  exact group_faulty hs herrors ha.closer ha.inside a.opener h hrest

theorem arrowed_group (budget : Nat) (s : ParseState) (a : ArrowTokens) (items : List Node) :
    arrowed (nested budget) (a.group items).node (s.before a.unlabelled) =
      (expression budget Binding.arrow >>= fun e => do
        let ps ← params (a.group items).items
        return .lambda a.opener ps [] (arrowBody a.arrow e)) (s.before a.behind) := rfl

/-- Without labels, a function without a name is read as the body and then the parameters. -/
theorem function_unnamed (hs : s.Sound) (ha : a.WellFormed ls) (hbody : ArrowBody budget (s.before a.behind))
    (hgroup : group (nested budget) .paren (s.before (a.parameters a.unlabelled)) =
      (some (a.group items), s.before a.unlabelled)) (hparams : ∀ t, params (a.group items).items t = (some ps, t)) :
    function (nested (budget + 1)) (s.before (a.unnamed a.unlabelled)) =
      (expression budget Binding.arrow >>= fun e => pure (.lambda a.keyword ps [] (arrowBody a.arrow e)))
        (s.before a.behind) := by
  have harrowed := arrowed_group budget s a items
  simp only [params_bind hparams] at harrowed
  rw [ArrowTokens.unnamed, function_before hs]
  exact bind_arrowed _ hs hbody (expression_arrowed hs ha (by decide) hgroup) harrowed

/-- It is faulty if its parameters are none. -/
theorem unnamed_faulty (hs : s.Sound) (ha : a.WellFormed ls)
    (hgroup : group (nested budget) .paren (s.before (a.parameters a.unlabelled)) =
      (some (a.group items), s.before a.unlabelled))
    (harrowed : (arrowed (nested budget) (a.group items).node (s.before a.unlabelled)).2.errors ≠ []) :
    (function (nested (budget + 1)) (s.before (a.unnamed a.unlabelled))).2.errors ≠ [] := by
  refine function_faulty hs ?_
  rw [expression_arrowed hs ha (by decide) hgroup]
  exact bind_keeps (keepsErrors_climb _ _) _ harrowed

/-- The rest of a function without a name behind its labels. -/
def lambdaRest (sub : Nested) (token : Token) (ps : List Param) (ls : List Label) : Parse Node := do
  if ← check (.op .arrow) then
    let arrow ← advance
    let value ← sub Binding.parallel
    return .lambda token ps ls (arrowBody arrow value)
  else return .lambda token ps ls (← functionBody sub)

/-- With labels, it is read as the parameters and then the body. -/
theorem function_unnamedLabelled (hs : s.Sound) (ha : a.WellFormed ls)
    (hgroup : group (nested budget) .paren (s.before (a.parameters a.labelled)) =
      (some (a.group items), s.before a.labelled)) :
    function (nested (budget + 1)) (s.before (a.unnamed a.labelled)) =
      (params (a.group items).items >>= fun ps => do
        let ls ← functionLabels
        lambdaRest (nested (budget + 1)) a.keyword ps ls) (s.before a.labelled) := by
  have hhead : expression (budget + 1) Binding.pair (s.before (a.parameters a.labelled)) =
      (some (a.group items).node, s.before a.labelled) := by
    rw [expression_parameters ha hgroup, climb_colon ha]
  rw [ArrowTokens.unnamed, function_before hs]
  exact bind_apply_some hhead

theorem lambdaRest_arrow (ha : a.WellFormed ls) (ps : List Param) :
    lambdaRest (nested (budget + 1)) a.keyword ps ls (s.before a.unlabelled) =
      (expression (budget + 1) Binding.parallel >>= fun e =>
        pure (.lambda a.keyword ps ls (arrowBody a.arrow e))) (s.before a.behind) := by
  unfold lambdaRest
  rw [check, ask_bind, ArrowTokens.unlabelled, ParseState.next_before_cons, if_pos (by simp [ha.arrow]), advance_before]
  rfl

theorem keepsErrors_lambdaRest : KeepsErrors (lambdaRest (nested budget) token ps ls) := by
  intro s hs
  unfold lambdaRest
  rw [check, ask_bind]
  split
  · rw [advance_bind]
    exact (keepsErrors_expression _ _).bind (fun e => keepsErrors_pure _) _ hs
  · exact (keepsErrors_block budget).bind (fun b => keepsErrors_pure _) _ hs

/-- A function without a name is read as the same one with labels and without, or else both have errors. -/
theorem agree_unnamed (hs : s.Sound) (herrors : s.errors = []) (ha : a.WellFormed ls)
    (hbody : ArrowBody budget (s.before a.behind)) :
    Agree ReadSame (function (nested (budget + 1)) (s.before (a.unnamed a.unlabelled)))
      (function (nested (budget + 1)) (s.before (a.unnamed a.labelled))) := by
  have hready : Ready False (s.before a.behind) := ready_of_sound (hs.before _)
  by_cases hcomplete : Complete budget .paren s a.inside a.closer
  · obtain ⟨items, -, hgroup⟩ := group_complete hs herrors ha.closer ha.inside a.opener hcomplete
    rcases params_apart (a.group items).items with ⟨ps, hps⟩ | hps
    · rw [function_unnamed hs ha hbody (hgroup _ ha.anew.1) hps,
        function_unnamedLabelled hs ha (hgroup _ ha.anew.2), bind_apply_some (hps _),
        bind_apply_some (functionLabels_before ha), lambdaRest_arrow ha, bind_congr_run (hbody.labelled hready)]
      exact hbody.agree hready fun e t hstops ht => .both ⟨.unnamed, ht, hstops⟩
    · refine .faulty (unnamed_faulty hs ha (hgroup _ ha.anew.1) ?_) ?_
      · rw [arrowed_group]
        exact expression_faulty hready fun e t ht => bind_keeps (fun _ _ he => he) t (hps t ht.errors)
      · rw [function_unnamedLabelled hs ha (hgroup _ ha.anew.2)]
        refine bind_keeps (fun ps => ?_) _ (hps _ (ready_of_sound (hs.before _)).errors)
        exact keepsErrors_functionLabels.bind fun ls => keepsErrors_lambdaRest
  · exact .faulty (function_faulty hs (parameters_faulty hs herrors ha hcomplete ha.anew.1 _))
      (function_faulty hs (parameters_faulty hs herrors ha hcomplete ha.anew.2 _))

end

/-! ## What stands behind a function -/

section
variable {budget : Nat} {token : Token} {f f' : Node} {ls : List Label} {a : ArrowTokens}

theorem lowest_of_parallel {k : TokenKind} (h : Binding.ofKind k ≤ Binding.parallel) (hk : k ≠ .comma) :
    Binding.ofKind k ≤ Binding.lowest := by
  cases k with
  | comma => exact absurd rfl hk
  | op o => cases o <;> first | (exact absurd h (by decide)) | decide
  | opening b => cases b <;> first | (exact absurd h (by decide)) | decide
  | _ => exact Nat.le_refl _

/-- What is done with one more expression behind a comma does not depend on those in front. -/
theorem parallelStep_cases (budget : Nat) (hs : Ready False s) :
    (s.next.kind ≠ .comma ∧ ∀ done, Discipline.parallelStep (nested budget) done s =
      (some (.done (.parallel done.reverse)), s)) ∨
    (∃ t, t.errors ≠ [] ∧ ∀ done, Discipline.parallelStep (nested budget) done s = (none, t)) ∨
    ∃ m t, Ready False t ∧ t.weight < s.weight ∧ t.Stops Binding.parallel ∧
      ∀ done, Discipline.parallelStep (nested budget) done s = (some (.again (m :: done)), t) := by
  by_cases hk : s.next.kind = .comma
  · obtain ⟨token, rest, hrest⟩ : ∃ token rest, s.rest = token :: rest := by
      cases hrest : s.rest with
      | nil =>
        rw [ParseState.next, hrest] at hk
        cases hs.eof.symm.trans hk
      | cons token rest => exact ⟨token, rest, rfl⟩
    have htoken : token.kind = .comma := by rwa [ParseState.next, hrest] at hk
    have hfront : s = s.before (token :: rest) := by rw [← hrest, ParseState.before_rest]
    obtain ⟨behind, hsuffix, hstep⟩ : ∃ behind, behind <:+ s.rest ∧
        ∀ done, Discipline.parallelStep (nested budget) done s =
          (expression budget Binding.parallel >>= fun m => pure (.again (m :: done))) (s.before behind) := by
      have htail : rest <:+ token :: rest := List.suffix_cons token rest
      rw [hfront]
      unfold Discipline.parallelStep
      simp only [accept_before htoken, if_true, ask_bind]
      split
      · exact ⟨pastNewlines rest, (pastNewlines_suffix rest).trans htail, fun _ => rfl⟩
      · exact ⟨rest, htail, fun _ => rfl⟩
    have hu : Ready False (s.before behind) := hs.withRest hsuffix
    have hle : (s.before behind).weight ≤ s.weight := by
      rw [ParseState.weight_eq, ParseState.weight_eq]
      exact tokensWeight_suffix hsuffix
    rcases expression_result budget Binding.parallel hu with ⟨t, hread, ht⟩ | ⟨m, t, hread, hdoes, ht⟩
    · exact .inr (.inl ⟨t, ht, fun done => (hstep done).trans (bind_apply_none hread)⟩)
    · exact .inr (.inr ⟨m, t, ht, Nat.lt_of_lt_of_le (hdoes.less rfl rfl) hle, expression_stops hu hread,
        fun done => (hstep done).trans (bind_apply_some hread)⟩)
  · refine .inl ⟨hk, fun done => ?_⟩
    unfold Discipline.parallelStep
    rw [accept_other hk]
    rfl

/-- The same function written in two ways, perhaps in front of further expressions. -/
inductive SameItem : Node → Node → Prop where
  | alone {n n' : Node} (h : SameFunction n n') : SameItem n n'
  | first {n n' : Node} (h : SameFunction n n') (more : List Node) :
      SameItem (.parallel (n :: more)) (.parallel (n' :: more))

/-- The same item, with nothing to go on with. -/
def ReadItem (n n' : Node) (t : ParseState) : Prop := SameItem n n' ∧ t.Stops Binding.lowest

/-- The expressions behind a comma are the same whatever stands in front of them. -/
theorem agree_parallel (h : SameFunction f f') (done : List Node) (hs : Ready False s)
    (hstops : s.Stops Binding.parallel) :
    Agree ReadItem (repeatWhile (Discipline.parallelStep (nested budget)) (done ++ [f]) s)
      (repeatWhile (Discipline.parallelStep (nested budget)) (done ++ [f']) s) := by
  induction hw : s.weight using Nat.strongRecOn generalizing s done with
  | ind w ih =>
    rcases parallelStep_cases budget hs with
      ⟨hk, hstep⟩ | ⟨t, ht, hstep⟩ | ⟨m, t, ht, hless, hstops', hstep⟩
    · rw [repeatWhile_done (hstep _), repeatWhile_done (hstep _), List.reverse_append, List.reverse_append]
      exact .both ⟨.first h _, hstops.increment, hstops.number, lowest_of_parallel hstops.level hk⟩
    · rw [repeatWhile.eq_def, hstep, repeatWhile.eq_def, hstep]
      exact .faulty ht ht
    · rw [repeatWhile_again (hstep _) hless, repeatWhile_again (hstep _) hless]
      exact ih t.weight (hw ▸ hless) (m :: done) ht hstops' rfl

/-- The same function is the same item. -/
theorem agree_climb (h : ReadSame f f' s) :
    Agree ReadItem (climb (nested budget) Binding.lowest f s) (climb (nested budget) Binding.lowest f' s) := by
  obtain ⟨hsame, hs, hstops⟩ := h
  by_cases hk : s.next.kind = .comma
  · have hcontinue : ∀ n, climb (nested budget) Binding.lowest n s =
        (parallel (nested budget) n >>= climb (nested budget) Binding.lowest) s := by
      intro n
      refine climb_continue hs hstops.number ?_ ?_ <;> rw [hk]
      · decide
      · rfl
    rw [hcontinue, hcontinue]
    refine .bind (agree_parallel hsame [] hs hstops) (fun n n' t ht => ?_) (keepsErrors_climb _ _)
      (keepsErrors_climb _ _)
    rw [climb_stop ht.2, climb_stop ht.2]
    exact .both ht
  · have hstops' : s.Stops Binding.lowest :=
      ⟨hstops.increment, hstops.number, lowest_of_parallel hstops.level hk⟩
    rw [climb_stop hstops', climb_stop hstops']
    exact .both ⟨.alone hsame, hstops'⟩

theorem expression_function (hkeyword : a.keyword.kind = .keyword .funDef) (tokens : List Token) :
    expression (budget + 2) level (s.before (a.keyword :: tokens)) =
      (function (nested (budget + 1)) >>= climb (nested (budget + 1)) level) (s.before (a.keyword :: tokens)) :=
  expression_rule (by rw [hkeyword]; rfl)

section
variable (hs : s.Sound) (herrors : s.errors = []) (ha : a.WellFormed ls) (hbody : ArrowBody budget (s.before a.behind))
include hs herrors ha hbody

/-- With labels and without, with a name or without, a function is read as the same item. -/
theorem agree_labelled :
    Agree ReadItem (expression (budget + 2) Binding.lowest (s.before (a.named a.unlabelled)))
        (expression (budget + 2) Binding.lowest (s.before (a.named a.labelled))) ∧
      Agree ReadItem (expression (budget + 2) Binding.lowest (s.before (a.unnamed a.unlabelled)))
        (expression (budget + 2) Binding.lowest (s.before (a.unnamed a.labelled))) := by
  constructor
  · rw [ArrowTokens.named, ArrowTokens.named, expression_function ha.keyword, expression_function ha.keyword]
    exact (agree_named hs herrors ha hbody).bind (fun _ _ _ h => agree_climb h) (keepsErrors_climb _ _)
      (keepsErrors_climb _ _)
  · rw [ArrowTokens.unnamed, ArrowTokens.unnamed, expression_function ha.keyword, expression_function ha.keyword]
    exact (agree_unnamed hs herrors ha hbody).bind (fun _ _ _ h => agree_climb h) (keepsErrors_climb _ _)
      (keepsErrors_climb _ _)

/-- Without the keyword, a function is read as the same item, if its parameters could be nested one level
deeper. -/
theorem agree_sugar (hinside : groupItems (nested (budget + 1)) .paren (alone s a.inside a.closer) =
      groupItems (nested budget) .paren (alone s a.inside a.closer)) :
    Agree ReadItem (expression (budget + 2) Binding.lowest (s.before (a.unnamed a.unlabelled)))
      (expression (budget + 2) Binding.lowest (s.before (a.parameters a.unlabelled))) := by
  have hready : Ready False (s.before a.behind) := ready_of_sound (hs.before _)
  have hcomplete : Complete (budget + 1) .paren s a.inside a.closer ↔ Complete budget .paren s a.inside a.closer := by
    unfold Complete
    rw [hinside]
  have hkeeps : ∀ n, KeepsErrors (climb (nested (budget + 1)) Binding.lowest n) := keepsErrors_climb _ _
  by_cases hgroups : Complete budget .paren s a.inside a.closer
  · obtain ⟨items, hitems, hgroup⟩ := group_complete hs herrors ha.closer ha.inside a.opener hgroups
    obtain ⟨items', hitems', hgroup'⟩ :=
      group_complete hs herrors ha.closer ha.inside a.opener (hcomplete.mpr hgroups)
    obtain rfl : items = items' := by
      rw [hinside, hitems] at hitems'
      exact Option.some.inj hitems'
    rw [ArrowTokens.unnamed, expression_function ha.keyword,
      expression_arrowed hs ha (by decide) (hgroup' _ ha.anew.1)]
    refine .bind ?_ (fun _ _ _ h => agree_climb h) hkeeps hkeeps
    rw [arrowed_group, bind_congr_run hbody.deeper]
    rcases params_apart (a.group items).items with ⟨ps, hps⟩ | hps
    · simp only [params_bind hps]
      rw [← ArrowTokens.unnamed, function_unnamed hs ha hbody (hgroup _ ha.anew.1) hps]
      exact hbody.agree hready fun e t hstops ht => .both ⟨.unnamed, ht, hstops⟩
    · have hfaulty : ∀ token : Token, ((expression budget Binding.arrow >>= fun e => do
          let ps ← params (a.group items).items
          return Node.lambda token ps [] (arrowBody a.arrow e)) (s.before a.behind)).2.errors ≠ [] := by
        intro token
        exact expression_faulty hready fun e t ht => bind_keeps (fun _ _ he => he) t (hps t ht.errors)
      exact .faulty (unnamed_faulty hs ha (hgroup _ ha.anew.1) (by rw [arrowed_group]; exact hfaulty a.opener))
        (hfaulty a.opener)
  · refine .faulty ?_ (parameters_faulty hs herrors ha (fun h => hgroups (hcomplete.mp h)) ha.anew.1 _)
    rw [ArrowTokens.unnamed, expression_function ha.keyword]
    exact bind_keeps hkeeps _ (function_faulty hs (parameters_faulty hs herrors ha hgroups ha.anew.1 _))

end

end

/-! ## Programs -/

section
variable {n : Node} {x x' : List Token}

theorem keepsErrors_report (token : Token) (expected : String) : KeepsErrors (reportUnexpected token expected) := by
  intro s hs
  rw [reportUnexpected, reportToken, reportAt_eq]
  exact errors_afterReport (noted_of_errors hs) _

/-- An item without a result is faulty, and so is one whose expression is. -/
theorem item_faulty (h : (expression maxExpressionDepth Binding.lowest s).2.errors ≠ []) :
    (item s).2.errors ≠ [] := by
  unfold item
  rw [attempt_bind]
  generalize expression maxExpressionDepth Binding.lowest s = r at h
  obtain ⟨n?, t⟩ := r
  cases n? with
  | none => exact h
  | some n =>
    dsimp only
    rw [peek_bind]
    split
    · exact bind_keeps (fun _ _ he => he) t (keepsErrors_report _ _ t h)
    · exact h

/-- Where reading goes on behind an item depends on the state behind its expression only. -/
theorem item_some (t : ParseState) : ∃ u, ∀ s n,
    expression maxExpressionDepth Binding.lowest s = (some n, t) → item s = (some [n], u) := by
  by_cases hk : (t.next.kind != .newline && t.next.kind != .eof) = true
  · refine ⟨((reportUnexpected t.next "newline" >>= fun _ => synchronize none) t).2, fun s n h => ?_⟩
    unfold item
    rw [attempt_bind, h]
    dsimp only
    rw [peek_bind, if_pos hk]
    rfl
  · refine ⟨t, fun s n h => ?_⟩
    unfold item
    rw [attempt_bind, h]
    dsimp only
    rw [peek_bind, if_neg hk]
    rfl

/-- Programs that begin with the same function, perhaps written in two ways, and go on in the same way. -/
def SameProgram (p p' : Parsed) : Prop :=
  (p.errors = [] ↔ p'.errors = []) ∧
    (p.errors = [] → ∃ f f' more, SameItem f f' ∧ p.program.body = f :: more ∧ p'.program.body = f' :: more)

/-- A program whose first item is faulty is read with an error. -/
theorem exists_faulty (hs : Ready False S) (hended : S.ended = false)
    (h : (expression maxExpressionDepth Binding.lowest S.atItem).2.errors ≠ []) :
    ∃ ns u, ReadsItems S ns u ∧ u.errors ≠ [] := by
  obtain ⟨ns, u, hreads⟩ := exists_readsItems hs
  refine ⟨ns, u, hreads, ?_⟩
  cases hreads with
  | ended he => cases he.symm.trans hended
  | item he hitem hless hmore =>
    refine hmore.errors (pastItem hs he hitem).ready ?_
    have hfaulty := item_faulty h
    rwa [hitem] at hfaulty

/-- Programs whose first expressions are read alike: both have an error, or they differ in their first items
only, and go on in the same state. -/
theorem readsItems_of_agree {S' : ParseState} (hs : Ready False S) (hs' : Ready False S') (hended : S.ended = false)
    (hended' : S'.ended = false) (h : Agree R (expression maxExpressionDepth Binding.lowest S.atItem)
      (expression maxExpressionDepth Binding.lowest S'.atItem)) :
    (∃ ns u ns' u', ReadsItems S ns u ∧ u.errors ≠ [] ∧ ReadsItems S' ns' u' ∧ u'.errors ≠ []) ∨
      ∃ n n' t more u, R n n' t ∧ ReadsItems S (n :: more) u ∧ ReadsItems S' (n' :: more) u := by
  generalize hr : expression maxExpressionDepth Binding.lowest S.atItem = r at h
  generalize hr' : expression maxExpressionDepth Binding.lowest S'.atItem = r' at h
  cases h with
  | faulty h h' =>
    obtain ⟨ns, u, hreads, hu⟩ := exists_faulty hs hended (hr ▸ h)
    obtain ⟨ns', u', hreads', hu'⟩ := exists_faulty hs' hended' (hr' ▸ h')
    exact .inl ⟨ns, u, ns', u', hreads, hu, hreads', hu'⟩
  | @both n n' t hR =>
    obtain ⟨v, hv⟩ := item_some t
    have hpast := pastItem hs hended (hv _ _ hr)
    have hpast' := pastItem hs' hended' (hv _ _ hr')
    obtain ⟨more, u, hmore⟩ := exists_readsItems hpast.ready
    exact .inr ⟨n, n', t, more, u, hR, .item hended (hv _ _ hr) hpast.less hmore,
      .item hended' (hv _ _ hr') hpast'.less hmore⟩

/-- A state in front of something is in front of an item. -/
theorem atItem_before (hs : s.Sound) (hx : Begins x) :
    (s.before x).ended = false ∧ (s.before x).atItem = s.before x := by
  have hpast : pastNewlines x = x := hx.pastNewlines
  refine ⟨?_, ?_⟩
  · rw [ParseState.ended, ParseState.rest_before, hpast]
    simp [hx.ne_nil, ParseState.before, hs.stopped]
  · rw [ParseState.atItem, ParseState.rest_before, hpast]
    exact (hs.before _).calm

theorem sameProgram_of_agree (hs : s.Sound) (hx : Begins x) (hx' : Begins x')
    (h : Agree ReadItem (expression maxExpressionDepth Binding.lowest (s.before x))
      (expression maxExpressionDepth Binding.lowest (s.before x'))) {tokens tokens' : List Token}
    (htokens : ParseState.ofTokens tokens = s.before x) (htokens' : ParseState.ofTokens tokens' = s.before x') :
    SameProgram (Program.ofTokens tokens) (Program.ofTokens tokens') := by
  obtain ⟨hended, hat⟩ := atItem_before hs hx
  obtain ⟨hended', hat'⟩ := atItem_before hs hx'
  rw [← hat, ← hat'] at h
  rcases readsItems_of_agree (ready_of_sound (hs.before x)) (ready_of_sound (hs.before x')) hended hended' h with
    ⟨ns, u, ns', u', hreads, hu, hreads', hu'⟩ | ⟨f, f', t, more, u, hsame, hreads, hreads'⟩
  · have hbad : (Program.ofTokens tokens).errors ≠ [] := by
      rw [(parsed_of_reads (htokens ▸ hreads)).2, Ne, List.reverse_eq_nil_iff]
      exact hu
    have hbad' : (Program.ofTokens tokens').errors ≠ [] := by
      rw [(parsed_of_reads (htokens' ▸ hreads')).2, Ne, List.reverse_eq_nil_iff]
      exact hu'
    exact ⟨iff_of_false hbad hbad', fun he => absurd he hbad⟩
  · obtain ⟨hbody, herrors⟩ := parsed_of_reads (htokens ▸ hreads)
    obtain ⟨hbody', herrors'⟩ := parsed_of_reads (htokens' ▸ hreads')
    exact ⟨by rw [herrors, herrors'], fun _ => ⟨f, f', more, hsame.1, hbody, hbody'⟩⟩

end

namespace ArrowTokens

variable {a : ArrowTokens} {ls : List Label} {tokens : List Token}

theorem WellFormed.noEof (h : a.WellFormed ls) :
    NoEof a.unlabelled ∧ NoEof a.labelled ∧ ∀ {tokens}, NoEof tokens → NoEof (a.parameters tokens) := by
  have hplain : NoEof a.unlabelled := h.behind.cons (by simp [h.arrow])
  refine ⟨hplain, (h.labels.noEof.append hplain).cons (by simp [h.colon]), fun htokens => ?_⟩
  have hinside : NoEof a.inside := fun t ht => (h.inside.oneLine t ht).2
  exact (hinside.append (htokens.cons (by simp [h.closer]))).cons (by simp [h.opener])

/-- The parameters could be nested one level deeper. -/
def Shallow (a : ArrowTokens) : Prop :=
  groupItems (nested (maxExpressionDepth - 1)) .paren (alone (startAt [] {}) a.inside a.closer) =
    groupItems (nested (maxExpressionDepth - 2)) .paren (alone (startAt [] {}) a.inside a.closer)

/-- A parameter that is a tree with room for one more level. -/
theorem shallow_written {n : Node} (h : n.Written (maxExpressionDepth - 2) a.inside)
    (hcloser : a.closer.kind = .closing .paren) : a.Shallow := by
  have hread : ∀ {budget : Nat}, n.Written budget a.inside →
      groupItems (nested budget) .paren (alone (startAt [] {}) a.inside a.closer) =
        (some [n], ((startAt [] {}).enter false).before [a.closer]) := by
    intro budget h
    have hlines : OnLines [⟨[], n, a.inside⟩] := ⟨by simp [LineEnd], by simp⟩
    have hitem : ReadsItem (nested budget) n a.inside := Climbs.readsItem (climbs_written h) h
    have hitems := groupItems_lines [] [] (sound_startAt {}).enter hlines (List.forall_mem_singleton.mpr hitem) lineEnd_nil hcloser
    simpa [lineTokens, alone, Discipline.groupItems_eq] using hitems
  exact (hread (Node.Written.deeper h)).trans (hread h).symm

end ArrowTokens

end Parse

namespace Program

open Parse

variable {f f' : Node} {tokens tokens' : List Token} {a : ArrowTokens} {ls : List Label}

/-- Tokens in front of the end of input. -/
def endedBy (tokens : List Token) : List Token := tokens ++ [Token.eof {}]

theorem sameFunction_moved (h : SameFunction f f') (move : Position → Position) :
    SameFunction (f.moved move) (f'.moved move) := by
  cases h with
  | named =>
    simp only [Node.moved]
    exact .named
  | unnamed =>
    simp only [Node.moved]
    exact .unnamed

theorem sameItem_moved (h : SameItem f f') (move : Position → Position) :
    SameItem (f.moved move) (f'.moved move) := by
  cases h with
  | alone h => exact .alone (sameFunction_moved h move)
  | first h more =>
    simp only [Node.moved, Node.movedAll_eq, List.map_cons]
    exact .first (sameFunction_moved h move) _

/-- A tree without the places of its tokens. -/
def unplaced : Node → Node := Node.moved fun _ => {}

/-- Wherever the tokens stand, they are read as programs that begin with the same function, perhaps written
in two ways, and go on in the same way, or else both have errors. -/
def SameFunctionIn (tokens tokens' : List Token) : Prop :=
  ∀ x x', List.Forall₂ Token.Same (endedBy tokens) x → List.Forall₂ Token.Same (endedBy tokens') x' →
    ((ofTokens x).errors = [] ↔ (ofTokens x').errors = []) ∧
    ((ofTokens x).errors = [] → ∃ f f' more, SameItem f f' ∧
      (ofTokens x).program.body.map unplaced = f :: more ∧ (ofTokens x').program.body.map unplaced = f' :: more)

theorem sameFunctionIn_of_agree (hbegins : Begins tokens) (hbegins' : Begins tokens') (hnoEof : NoEof tokens)
    (hnoEof' : NoEof tokens')
    (h : Parse.Agree ReadItem (expression maxExpressionDepth Binding.lowest (startAt tokens {}))
      (expression maxExpressionDepth Binding.lowest (startAt tokens' {}))) : SameFunctionIn tokens tokens' := by
  intro x x' hx hx'
  have heof : ∀ tokens : List Token, ∃ t ∈ endedBy tokens, t.kind = .eof :=
    fun tokens => ⟨.eof {}, by simp [endedBy], rfl⟩
  obtain ⟨herrors, hitems⟩ := sameProgram_of_agree (sound_startAt {}) hbegins hbegins' h (ofTokens_eof hnoEof {})
    (ofTokens_eof hnoEof' {})
  obtain ⟨hsame, hbody⟩ := Layout.ofTokens_same hx (heof _) (fun _ => {}) fun _ _ => rfl
  obtain ⟨hsame', hbody'⟩ := Layout.ofTokens_same hx' (heof _) (fun _ => {}) fun _ _ => rfl
  refine ⟨hsame.trans (herrors.trans hsame'.symm), fun hclean => ?_⟩
  obtain ⟨f, f', more, hitem, hfirst, hfirst'⟩ := hitems (hsame.mp hclean)
  refine ⟨unplaced f, unplaced f', more.map unplaced, sameItem_moved hitem _, ?_, ?_⟩
  · exact (hbody (hsame.mp hclean)).trans (congrArg (List.map unplaced) hfirst)
  · exact (hbody' (herrors.mp (hsame.mp hclean))).trans (congrArg (List.map unplaced) hfirst')

/-- The forms of a function with an arrow accept the same bodies and mean the same: with labels and without,
and, as far as the parameters are not nested too deep, with and without the keyword. The body is one that is
read as the right operand of the arrow to where only commas can go on with it, and not nested too deep. -/
theorem ofTokens_arrowForms (ha : a.WellFormed ls)
    (hbody : ArrowBody (maxExpressionDepth - 2) (startAt a.behind {})) :
    SameFunctionIn (a.named a.unlabelled) (a.named a.labelled) ∧
      SameFunctionIn (a.unnamed a.unlabelled) (a.unnamed a.labelled) ∧
      (a.Shallow → SameFunctionIn (a.unnamed a.unlabelled) (a.parameters a.unlabelled)) := by
  obtain ⟨hunlabelled, hlabelled, hparameters⟩ := ha.noEof
  have hkeyword : ∀ rest, Begins (a.keyword :: rest) := fun rest => ⟨_, rest, rfl, by rw [ha.keyword]; rfl⟩
  have hopener : ∀ rest, Begins (a.parameters rest) := fun rest => ⟨_, _, rfl, by rw [ha.opener]; rfl⟩
  have hnamed : ∀ {rest}, NoEof rest → NoEof (a.named rest) := fun h =>
    ((hparameters h).cons (by simp [ha.name])).cons (by simp [ha.keyword])
  have hunnamed : ∀ {rest}, NoEof rest → NoEof (a.unnamed rest) := fun h =>
    (hparameters h).cons (by simp [ha.keyword])
  obtain ⟨hboth, hboth'⟩ := agree_labelled (sound_startAt {}) rfl ha hbody
  refine ⟨?_, ?_, fun hshallow => ?_⟩
  · exact sameFunctionIn_of_agree (hkeyword _) (hkeyword _) (hnamed hunlabelled) (hnamed hlabelled) hboth
  · exact sameFunctionIn_of_agree (hkeyword _) (hkeyword _) (hunnamed hunlabelled) (hunnamed hlabelled) hboth'
  · exact sameFunctionIn_of_agree (hkeyword _) (hopener _) (hunnamed hunlabelled) (hparameters hunlabelled)
      (agree_sugar (sound_startAt {}) rfl ha hbody hshallow)

/-- The tokens of the forms of `fun f(x): any -> x * 2`, on a line of its own. -/
def sampleArrow : ArrowTokens where
  keyword := sampleToken "fun"
  name := sampleToken "f"
  opener := sampleToken "("
  inside := [sampleToken "x"]
  closer := sampleToken ")"
  colon := sampleToken ":"
  labels := [sampleToken "any"]
  arrow := sampleToken "->"
  behind := ["x", "*", "2"].map sampleToken ++ [sampleToken "\n"]

theorem ofTokens_sampleArrow :
    SameFunctionIn (["fun", "f", "(", "x", ")", "->", "x", "*", "2", "\n"].map sampleToken)
        (["fun", "f", "(", "x", ")", ":", "any", "->", "x", "*", "2", "\n"].map sampleToken) ∧
      SameFunctionIn (["fun", "(", "x", ")", "->", "x", "*", "2", "\n"].map sampleToken)
        (["(", "x", ")", "->", "x", "*", "2", "\n"].map sampleToken) := by
  have ident : (sampleToken "x").kind = .ident := by decide +kernel
  have newline : (sampleToken "\n").kind = .newline := by decide +kernel
  have x : ∀ depth, (sampleIdent "x").Written (depth + 1) [sampleToken "x"] :=
    fun depth => written_sampleIdent depth ident
  have two : (Node.int (sampleToken "2") 2).Written 197 [sampleToken "2"] :=
    .leaf (.int (by decide +kernel) (by decide +kernel))
  have body := Node.Written.binary (x 197) (show (sampleToken "*").kind = .op .star by decide +kernel) rfl two
    (by decide) (by decide)
  have wellFormed : sampleArrow.WellFormed [.mk (sampleToken "any") []] :=
    { keyword := by decide +kernel
      name := by decide +kernel
      opener := by decide +kernel
      inside := ⟨List.forall_mem_singleton.mpr (by decide +kernel), .token (by simp [ident]) (by simp [ident]) .nil,
        List.forall_mem_singleton.mpr fun h => by simp [Token.isNegativeNumber, ident] at h⟩
      closer := by decide +kernel
      colon := by decide +kernel
      labels := .last (.mk (by decide +kernel) (.inl rfl) .nil)
      arrow := by decide +kernel
      behind := body.noEof.append (List.forall_mem_singleton.mpr (by decide +kernel)) }
  have ends : ((startAt [] {}).before [sampleToken "\n"]).EndsItem := by
    have hpast : pastNewlines [sampleToken "\n"] = [] :=
      pastNewlines_lineEnd (List.forall_mem_singleton.mpr newline)
    refine ⟨.inl newline, fun k hk => ?_⟩
    rw [ParseState.rest_before, hpast] at hk
    cases hk
  have hbody := arrowBody_written body (by decide) ⟨rfl, rfl, rfl, rfl⟩ ends
  obtain ⟨hnamed, -, hsugar⟩ := ofTokens_arrowForms wellFormed hbody
  exact ⟨hnamed, hsugar (ArrowTokens.shallow_written (x 197) wellFormed.closer)⟩

/-- An assignment is a body behind labels only: `fun f(x) -> y = x` has errors, as has `fun (x) -> y = x`, for
the function is taken as the target of the assignment. -/
theorem ofTokens_assignmentBody :
    ((ofTokens (endedBy (["fun", "f", "(", "x", ")", "->", "y", "=", "x", "\n"].map sampleToken))).errors ≠ [] ∧
      (ofTokens (endedBy (["fun", "f", "(", "x", ")", ":", "any", "->", "y", "=", "x", "\n"].map sampleToken))).errors =
        []) ∧
    ((ofTokens (endedBy (["fun", "(", "x", ")", "->", "y", "=", "x", "\n"].map sampleToken))).errors ≠ [] ∧
      (ofTokens (endedBy (["fun", "(", "x", ")", ":", "any", "->", "y", "=", "x", "\n"].map sampleToken))).errors =
        []) := by
  have hbad : ∀ texts ∈ [["fun", "f", "(", "x", ")", "->", "y", "=", "x", "\n"],
      ["fun", "(", "x", ")", "->", "y", "=", "x", "\n"]],
      (ofTokens (endedBy (texts.map sampleToken))).errors.isEmpty = false := by decide +kernel
  have hgood : ∀ texts ∈ [["fun", "f", "(", "x", ")", ":", "any", "->", "y", "=", "x", "\n"],
      ["fun", "(", "x", ")", ":", "any", "->", "y", "=", "x", "\n"]],
      (ofTokens (endedBy (texts.map sampleToken))).errors.isEmpty = true := by decide +kernel
  have bad : ∀ {tokens : List Token}, (ofTokens tokens).errors.isEmpty = false → (ofTokens tokens).errors ≠ [] :=
    fun h he => by rw [he] at h; cases h
  have good : ∀ {tokens : List Token}, (ofTokens tokens).errors.isEmpty = true → (ofTokens tokens).errors = [] :=
    fun h => List.isEmpty_iff.mp h
  exact ⟨⟨bad (hbad _ (by simp)), good (hgood _ (by simp))⟩, bad (hbad _ (by simp)), good (hgood _ (by simp))⟩

end Program

end Frontend
