import Frontend.Proofs.Parse.Enclosed

/-!
# Expressions are read as they are written

In front of the tokens of an expression tree, reading builds that tree. What is carried through the
induction is one equation for every binding level below the tree: reading an expression comes to going on
with the tree as left operand. So it does not matter yet what stands behind the tree, except that it may
not belong to the tree's last operand.
-/

namespace Frontend

variable {o : Operator} {rule : Parse Node} {op opener closer : Token} {first : Node} {firstTokens : List Token}
variable {k : TokenKind} {b : Bracket} {l r : Node} {right inside : List Token} {comma : Token} {args : List Node}

/-! ## What may stand behind an expression -/

/-- The next token does not continue an operand above a binding level. -/
structure ParseState.Stops (level : Nat) (s : ParseState) : Prop where
  increment : s.next.kind ≠ .op .increment ∧ s.next.kind ≠ .op .decrement
  number : s.next.isNegativeNumber = false
  level : Binding.ofKind s.next.kind ≤ level

/-- The next token does not belong to the labels of a name. -/
def ParseState.EndsName (s : ParseState) : Prop :=
  s.next.kind ≠ .op .colon ∧ s.next.kind.isLabel = false

/-- The next token does not belong to the last operand of a node. -/
def ParseState.Behind (s : ParseState) : Node → Prop
  | .assign .. => s.Stops (Binding.assign - 1) ∧ s.EndsName
  | .binary _ op _ => s.Stops (Binding.ofKind op.kind) ∧ s.EndsName
  | .unary .. => s.Stops Binding.unary ∧ s.EndsName
  | .ident name => (name.labels ≠ [] → s.next.kind ≠ .opening .square) ∧ s.EndsName
  | _ => True

/-- A node may be read as an operand above a binding level. -/
def Node.Fits (level : Nat) (n : Node) : Prop :=
  level < n.level ∨ level = Binding.unary ∧ n.level = Binding.unary

namespace ParseState

variable {s : ParseState} {level level' : Nat} {n : Node}

theorem Stops.mono (h : s.Stops level) (hle : level ≤ level') : s.Stops level' :=
  ⟨h.increment, h.number, Nat.le_trans h.level hle⟩

end ParseState

theorem Operator.level_of_isBinary (h : o.isBinary = true) :
    Binding.assign < Binding.ofOperator o ∧ Binding.ofOperator o < Binding.unary := by
  cases o <;> first | (cases h; done) | decide

theorem Node.level_le {depth : Nat} {n : Node} {tokens : List Token} (h : n.Written depth tokens) :
    Binding.assign ≤ n.level ∧ n.level ≤ Binding.call := by
  cases h with
  | binary _ hop hbinary =>
    have hlevel := Operator.level_of_isBinary hbinary
    simp only [Node.level, Binding.ofKind, hop, Binding.assign, Binding.unary, Binding.call] at *
    omega
  | leaf h => cases h <;> simp [Node.level, Binding.assign, Binding.call]
  | _ => simp [Node.level, Binding.assign, Binding.unary, Binding.call]

theorem Node.Fits.lt_call {level depth : Nat} {n : Node} {tokens : List Token} (h : n.Fits level)
    (hn : n.Written depth tokens) : level < Binding.call := by
  have hle := (Node.level_le hn).2
  rcases h with hlt | ⟨rfl, -⟩
  · omega
  · decide

namespace ParseState

variable {s : ParseState} {level depth : Nat} {n : Node} {tokens : List Token}

/-- What ends an operand does not belong to it: it binds less tightly than the operand holds together, or
as tightly, unless the operand is an assignment. -/
theorem Stops.behind (h : s.Stops level) (hname : s.EndsName) (hcall : level < Binding.call)
    (hlevel : level < n.level ∨ level = n.level ∧ level ≠ Binding.assign) : s.Behind n := by
  cases n with
  | assign =>
    rcases hlevel with hlt | ⟨he, hne⟩
    · exact ⟨h.mono (Nat.le_sub_one_of_lt hlt), hname⟩
    · exact absurd he hne
  | binary => exact ⟨h.mono (hlevel.elim Nat.le_of_lt fun he => Nat.le_of_eq he.1), hname⟩
  | unary => exact ⟨h.mono (hlevel.elim Nat.le_of_lt fun he => Nat.le_of_eq he.1), hname⟩
  | ident name =>
    refine ⟨fun _ he => ?_, hname⟩
    have hle := h.level
    rw [he] at hle
    exact absurd hle (Nat.not_le_of_lt hcall)
  | _ => trivial

/-- What is called, indexed or looked into is complete, whatever follows. -/
theorem behind_of_call (hn : n.Written depth tokens) (hlevel : n.level = Binding.call)
    (hname : s.EndsName) (hsquare : s.next.kind = .opening .square →
      ∀ name, n = .ident name → name.labels = []) : s.Behind n := by
  cases hn with
  | ident => exact ⟨fun hlabels he => hlabels (hsquare he _ rfl), hname⟩
  | assign => cases hlevel
  | unary => cases hlevel
  | @binary _ op o _ _ _ _ _ hop hbinary =>
    have hlt := (Operator.level_of_isBinary hbinary).2
    have hkind : Binding.ofOperator o = Binding.call := by simpa [Node.level, hop, Binding.ofKind] using hlevel
    rw [hkind] at hlt
    exact absurd hlt (by decide)
  | leaf h => cases h <;> trivial
  | _ => trivial

theorem EndsItem.stops (h : s.EndsItem) : s.Stops Binding.lowest ∧ s.EndsName := by
  have hkind : s.next.kind = .newline ∨ s.next.kind = .eof ∨ ∃ b, s.next.kind = .closing b := by
    refine h.next.imp_right (Or.imp_right fun hclosing => ?_)
    cases hk : s.next.kind with
    | closing b => exact ⟨b, rfl⟩
    | _ => rw [hk] at hclosing; cases hclosing
  unfold EndsName
  rcases hkind with hk | hk | ⟨b, hk⟩
  · exact ⟨⟨by simp [hk], by simp [Token.isNegativeNumber, hk], by rw [hk]; decide⟩, by simp [hk, TokenKind.isLabel]⟩
  · exact ⟨⟨by simp [hk], by simp [Token.isNegativeNumber, hk], by rw [hk]; decide⟩, by simp [hk, TokenKind.isLabel]⟩
  · exact ⟨⟨by simp [hk], by simp [Token.isNegativeNumber, hk], by rw [hk]; exact Nat.le_refl _⟩,
      by simp [hk, TokenKind.isLabel]⟩

end ParseState

namespace Parse

variable {s t : ParseState} {sub : Nested} {level : Nat} {left m : Node} {token : Token}
  {rest more : List Token}

/-! ## Climbing -/

theorem splitNegative_other (h : s.next.isNegativeNumber = false) (f : Unit → Parse α) :
    (splitNegative >>= f) s = f () s := by
  rw [splitNegative, change_bind]
  cases hrest : s.rest with
  | nil => rfl
  | cons token rest =>
    have hnext : s.next = token := by rw [ParseState.next, hrest]; rfl
    dsimp only
    rw [if_neg (by simp [← hnext, h])]

theorem climbStep_stop (h : s.Stops level) : Discipline.climbStep sub level left s = (some (.done left), s) := by
  unfold Discipline.climbStep
  rw [peekKind, ask_bind, if_neg (by simpa using h.increment), splitNegative_other h.number, peek_bind,
    if_pos h.level]
  rfl

/-- Climbing ends in front of what does not continue the operand. -/
theorem climb_stop (h : s.Stops level) : climb sub level left s = (some left, s) :=
  repeatWhile_done (climbStep_stop h)

theorem continuation_of_increment (h : continuation? sub left k = some rule) :
    k ≠ .op .increment ∧ k ≠ .op .decrement := by
  constructor <;> (rintro rfl; cases h)

theorem climbStep_rule (hnumber : s.next.isNegativeNumber = false) (hlevel : level < Binding.ofKind s.next.kind)
    (hrule : continuation? sub left s.next.kind = some rule) (hread : rule s = (some m, t)) :
    Discipline.climbStep sub level left s = (some (.again m), t) := by
  unfold Discipline.climbStep
  rw [peekKind, ask_bind, if_neg (by simpa using continuation_of_increment hrule),
    splitNegative_other hnumber, peek_bind, if_neg (Nat.not_le_of_lt hlevel), hrule]
  exact bind_apply_some hread

/-- A token that continues the operand makes a greater one. -/
theorem climb_rule (hnumber : token.isNegativeNumber = false) (hlevel : level < Binding.ofKind token.kind)
    (hrule : continuation? sub left token.kind = some rule)
    (hread : rule (s.before (token :: rest)) = (some m, s.before more)) (hmore : more <:+ rest) :
    climb sub level left (s.before (token :: rest)) = climb sub level m (s.before more) := by
  have hless : (s.before more).weight < (s.before (token :: rest)).weight := by
    obtain ⟨front, rfl⟩ := hmore
    exact ParseState.weight_before_lt _ _ (List.cons_ne_nil token front)
  exact repeatWhile_again (climbStep_rule hnumber hlevel hrule hread) hless

theorem climb_increment (hkind : token.kind = .op .increment ∨ token.kind = .op .decrement)
    (hassignable : left.isAssignable = true) : climb sub level left (s.before (token :: rest)) =
      climb sub level (.increment left token) (s.before rest) := by
  refine repeatWhile_again ?_ (ParseState.weight_before_cons_lt s token rest)
  unfold increment
  rw [peekKind, ask_bind, ParseState.next_before_cons, if_pos (by simpa using hkind), bind_apply_some]
  · rfl
  · rw [advance_before, if_pos hassignable]
    rfl

theorem isNegativeNumber_op (h : token.kind = .op o) : token.isNegativeNumber = false := by
  rw [Token.isNegativeNumber, h]

theorem isNegativeNumber_opening (h : token.kind = .opening b) : token.isNegativeNumber = false := by
  rw [Token.isNegativeNumber, h]

theorem continuation_binary (h : o.isBinary = true) : continuation? sub left (.op o) = some (binary sub left) := by
  cases o <;> first | rfl | cases h

theorem continuation_assignment (h : o.isAssignment = true) :
    continuation? sub left (.op o) = some (assignment sub left) := by
  cases o <;> first | rfl | cases h

theorem ofOperator_assignment (h : o.isAssignment = true) : Binding.ofOperator o = Binding.assign := by
  cases o <;> first | rfl | cases h

theorem beginning_prefix (h : o.isPrefix = true) : beginning? sub (.op o) = some (unary sub) := by
  cases o <;> first | rfl | cases h

/-- An expression is what its first token begins, and whatever continues that. -/
theorem expression_begin {depth : Nat} (hrule : beginning? (nested depth) token.kind = some rule)
    (hread : rule (s.before (token :: rest)) = (some m, t)) :
    expression (depth + 1) level (s.before (token :: rest)) = climb (nested depth) level m t := by
  have hexpression : expression (depth + 1) level = expressionWith (nested depth) level := rfl
  rw [hexpression]
  unfold expressionWith
  rw [peek_bind, ParseState.next_before_cons, hrule]
  exact bind_apply_some hread

/-! ## Trees -/

variable {depth : Nat} {n : Node} {tokens : List Token}

/-- In front of the tokens of a tree, reading an expression comes to going on with the tree as left
operand. -/
def Climbs (depth : Nat) (n : Node) (tokens : List Token) : Prop :=
  ∀ {s : ParseState} {rest : List Token} {level : Nat}, s.Sound → n.Fits level →
    (s.before rest).Behind n →
    expression depth level (s.before (tokens ++ rest)) =
      climb (nested (depth - 1)) level n (s.before rest)

/-- In front of what ends it, the tree is read. -/
theorem Climbs.reads (h : Climbs depth n tokens) (hn : n.Written depth tokens) (hs : s.Sound)
    (hfits : n.Fits level) (hstops : (s.before rest).Stops level) (hname : (s.before rest).EndsName) :
    expression depth level (s.before (tokens ++ rest)) = (some n, s.before rest) := by
  refine (h hs hfits (hstops.behind hname (hfits.lt_call hn) ?_)).trans (climb_stop hstops)
  exact hfits.imp_right fun he => ⟨he.1.trans he.2.symm, by rw [he.1]; decide⟩

theorem climbs_leaf {t : Token} (h : n.Leaf t) : Climbs (depth + 1) n [t] := by
  intro s rest level _ _ _
  rw [List.singleton_append]
  cases h with
  | int hk hvalue =>
    refine expression_begin (by rw [hk]; rfl) ?_
    unfold integer
    rw [advance_before, hvalue]
    rfl
  | float hk hvalue =>
    refine expression_begin (by rw [hk]; rfl) ?_
    unfold float
    rw [advance_before, hvalue]
    rfl
  | str hk => exact expression_begin (by rw [hk]; rfl) rfl
  | trueValue hk => exact expression_begin (by rw [hk]; rfl) rfl
  | falseValue hk => exact expression_begin (by rw [hk]; rfl) rfl
  | null hk => exact expression_begin (by rw [hk]; rfl) rfl
  | this hk => exact expression_begin (by rw [hk]; rfl) rfl

theorem climbs_ident {name : Ident} (h : name.Written tokens) : Climbs (depth + 1) (.ident name) tokens := by
  intro s rest level _ _ hbehind
  obtain ⟨hsquare, hcolon, hlabel⟩ := hbehind
  obtain ⟨t, more, rfl, hk⟩ : ∃ t more, tokens = t :: more ∧ t.kind = .ident := by
    cases h with
    | plain hk => exact ⟨_, _, rfl, hk⟩
    | labelled hk => exact ⟨_, _, rfl, hk⟩
  have hread := identifier_written h hcolon hlabel hsquare
  rw [List.cons_append] at hread ⊢
  refine expression_begin (by rw [hk]; rfl) ?_
  rw [bind_apply_some hread]
  rfl

theorem climbs_unary (hop : op.kind = .op o) (hfront : o.isPrefix = true) (hn : n.Written depth tokens)
    (hlevel : Binding.unary ≤ n.level) (h : Climbs depth n tokens) :
    Climbs (depth + 1) (.unary op n) (op :: tokens) := by
  intro s rest level hs _ hbehind
  have hfits : n.Fits Binding.unary := by
    rcases Nat.lt_or_eq_of_le hlevel with hlt | he
    · exact .inl hlt
    · exact .inr ⟨rfl, he.symm⟩
  rw [List.cons_append]
  refine expression_begin (by rw [hop, beginning_prefix hfront]) ?_
  unfold unary
  rw [advance_before]
  exact bind_apply_some (h.reads hn hs hfits hbehind.1 hbehind.2)

theorem ne_of_operator (ho : o.isBinary = true ∨ o.isAssignment = true) :
    o ≠ .increment ∧ o ≠ .decrement ∧ o ≠ .colon := by
  refine ⟨?_, ?_, ?_⟩ <;> (rintro rfl; rcases ho with ho | ho <;> cases ho)

/-- An operator ends the operand in front of it. -/
theorem stops_op (s : ParseState) (rest : List Token) (hop : token.kind = .op o)
    (ho : o.isBinary = true ∨ o.isAssignment = true) :
    (s.before (token :: rest)).Stops (Binding.ofOperator o) ∧ (s.before (token :: rest)).EndsName := by
  obtain ⟨hincrement, hdecrement, hcolon⟩ := ne_of_operator ho
  refine ⟨⟨?_, isNegativeNumber_op hop, ?_⟩, ?_, ?_⟩ <;> rw [ParseState.next_before_cons, hop]
  · simpa using ⟨hincrement, hdecrement⟩
  · exact Nat.le_refl _
  · simpa using hcolon
  · rfl

theorem climbs_binary {left : List Token} (hop : op.kind = .op o) (hbinary : o.isBinary = true)
    (hr : r.Written depth right) (hleft : Binding.ofOperator o ≤ l.level) (hright : Binding.ofOperator o < r.level)
    (ihl : Climbs (depth + 1) l left) (ihr : Climbs depth r right) :
    Climbs (depth + 1) (.binary l op r) (left ++ op :: right) := by
  intro s rest level hs hfits hbehind
  obtain ⟨hlow, hhigh⟩ := Operator.level_of_isBinary hbinary
  obtain ⟨hstops, hname⟩ := stops_op s (right ++ rest) hop (.inl hbinary)
  have hkind : Binding.ofKind op.kind = Binding.ofOperator o := by rw [hop]; rfl
  have hlevel : level < Binding.ofOperator o := by
    rcases hfits with hlt | ⟨-, he⟩
    · exact hkind ▸ hlt
    · rw [Node.level, hkind] at he
      exact absurd he (Nat.ne_of_lt hhigh)
  have hl : (s.before (op :: (right ++ rest))).Behind l := by
    refine hstops.behind hname (Nat.lt_trans hhigh (by decide)) ?_
    exact (Nat.lt_or_eq_of_le hleft).imp_right fun he => ⟨he, Nat.ne_of_gt hlow⟩
  rw [List.append_assoc, List.cons_append, ihl hs (.inl (Nat.lt_of_lt_of_le hlevel hleft)) hl]
  refine climb_rule (isNegativeNumber_op hop) (hkind ▸ hlevel) (by rw [hop, continuation_binary hbinary]) ?_
    (List.suffix_append right rest)
  unfold binary
  rw [advance_before, hkind]
  exact bind_apply_some (ihr.reads hr hs (.inl hright) (hkind ▸ hbehind.1) hbehind.2)

theorem climbs_assign {left : List Token} (hop : op.kind = .op o) (hassignment : o.isAssignment = true)
    (hr : r.Written depth right) (hassignable : l.isAssignable = true) (ihl : Climbs (depth + 1) l left)
    (ihr : Climbs depth r right) : Climbs (depth + 1) (.assign l op r) (left ++ op :: right) := by
  intro s rest level hs hfits hbehind
  obtain ⟨hstops, hname⟩ := stops_op s (right ++ rest) hop (.inr hassignment)
  have hoperator := ofOperator_assignment hassignment
  have hkind : Binding.ofKind op.kind = Binding.assign := by rw [hop]; exact hoperator
  have hcall := Node.level_of_isAssignable hassignable
  have hlevel : level < Binding.assign := hfits.elim id fun he => by cases he.2
  have hl : (s.before (op :: (right ++ rest))).Behind l := by
    rw [hoperator] at hstops
    exact hstops.behind hname (by decide) (.inl (by rw [hcall]; decide))
  rw [List.append_assoc, List.cons_append, ihl hs (.inl (Nat.lt_trans hlevel (by rw [hcall]; decide))) hl]
  refine climb_rule (isNegativeNumber_op hop) (hkind ▸ hlevel)
    (by rw [hop, continuation_assignment hassignment]) ?_ (List.suffix_append right rest)
  have hfitsr : r.Fits (Binding.assign - 1) := .inl (Nat.lt_of_lt_of_le (by decide) (Node.level_le hr).1)
  unfold assignment
  rw [advance_before, if_pos hassignable]
  exact bind_apply_some (ihr.reads hr hs hfitsr hbehind.1 hbehind.2)

theorem Node.Written.fits_lowest (h : n.Written depth tokens) : n.Fits Binding.lowest :=
  .inl (Nat.lt_of_lt_of_le (by decide) (Node.level_le h).1)

/-- As an item, a tree is read wherever it ends. -/
theorem Climbs.readsItem (h : Climbs depth n tokens) (hn : n.Written depth tokens) :
    ReadsItem (nested depth) n tokens where
  begins := hn.begins
  reads := fun hs hends => h.reads hn hs (Node.Written.fits_lowest hn) hends.stops.1 hends.stops.2

theorem group_single (hs : s.Sound) (hitem : ReadsItem sub n tokens) (hcloser : closer.kind = .closing b) :
    group sub b (s.before (opener :: (tokens ++ closer :: rest))) =
      (some (Group.ofItems opener closer b [n]), s.before rest) := by
  have hlines : OnLines [⟨[], n, tokens⟩] := ⟨by simp [LineEnd], by simp⟩
  have h := group_lines opener rest hs hlines
    (List.forall_mem_singleton.mpr hitem) lineEnd_nil hcloser
  simpa [lineTokens] using h

theorem climbs_group (hopener : opener.kind = .opening .paren) (hcloser : closer.kind = .closing .paren)
    (hn : n.Written depth tokens) (h : Climbs depth n tokens) :
    Climbs (depth + 1) (.group opener closer .paren (some n)) (opener :: (tokens ++ [closer])) := by
  intro s rest level hs _ _
  rw [List.cons_append, List.append_assoc, List.singleton_append]
  refine expression_begin (by rw [hopener]; rfl) ?_
  exact bind_apply_some (group_single hs (h.readsItem hn) hcloser)

/-! ## What continues an operand -/

section
variable {object : Node} {objectTokens : List Token}

/-- The tokens that bind as tightly as a call. -/
theorem kind_of_call (h : Binding.ofKind k = Binding.call) :
    k = .op .dot ∨ k = .opening .paren ∨ k = .opening .square := by
  cases k with
  | op o => cases o <;> first | exact .inl rfl | cases h
  | opening b => cases b <;> first | exact .inr (.inl rfl) | exact .inr (.inr rfl) | cases h
  | _ => cases h

section
variable (hobject : object.Written (depth + 1) objectTokens) (hlevel : object.level = Binding.call)
include hobject hlevel

/-- What is called, indexed or looked into is the left operand of what follows, at every level. -/
theorem climbs_continue (ih : Climbs (depth + 1) object objectTokens)
    (hlabels : token.kind = .opening .square → ∀ name, object = .ident name → name.labels = [])
    (hkind : Binding.ofKind token.kind = Binding.call) (hm : m.level = Binding.call)
    (hread : ∀ (s : ParseState) (rest : List Token), s.Sound →
      ∃ rule, continuation? (nested depth) object token.kind = some rule ∧
        rule (s.before (token :: (inside ++ rest))) = (some m, s.before rest)) :
    Climbs (depth + 1) m (objectTokens ++ token :: inside) := by
  intro s rest level hs hfits _
  have hcall : level < Binding.call := by
    rcases hfits with hlt | ⟨-, he⟩
    · exact hm ▸ hlt
    · rw [hm] at he
      cases he
  have hother : (s.before (token :: (inside ++ rest))).EndsName ∧ token.isNegativeNumber = false := by
    unfold ParseState.EndsName
    rw [ParseState.next_before_cons, Token.isNegativeNumber]
    rcases kind_of_call hkind with hk | hk | hk <;> rw [hk] <;> simp [TokenKind.isLabel]
  have hbehind := ParseState.behind_of_call (s := s.before (token :: (inside ++ rest))) hobject hlevel
    hother.1 hlabels
  obtain ⟨rule, hrule, hrun⟩ := hread s rest hs
  rw [List.append_assoc, List.cons_append, ih hs (.inl (hlevel ▸ hcall)) hbehind]
  exact climb_rule hother.2 (hkind ▸ hcall) hrule hrun (List.suffix_append inside rest)

theorem climbs_member {dot name : Token} (ih : Climbs (depth + 1) object objectTokens) (hdot : dot.kind = .op .dot)
    (hname : name.kind = .ident) :
    Climbs (depth + 1) (.member object dot { token := name }) (objectTokens ++ [dot, name]) := by
  refine climbs_continue hobject hlevel ih (by simp [hdot]) (by rw [hdot]; rfl) rfl fun s rest hs =>
    ⟨member object, by rw [hdot]; rfl, ?_⟩
  unfold member
  rw [List.cons_append, advance_before, peek_bind, ParseState.next_before_cons, if_pos (by simp [hname])]
  rfl

theorem climbs_index {subscript : Node} (hlabels : ∀ name, object = .ident name → name.labels = [])
    (ih : Climbs (depth + 1) object objectTokens) (hopener : opener.kind = .opening .square)
    (hsubscript : subscript.Written depth inside) (ihs : Climbs depth subscript inside)
    (hcloser : closer.kind = .closing .square) :
    Climbs (depth + 1) (.index object opener subscript) (objectTokens ++ opener :: (inside ++ [closer])) := by
  refine climbs_continue hobject hlevel ih (fun _ => hlabels) (by rw [hopener]; rfl) rfl
    fun s rest hs => ⟨index (nested depth) object, by rw [hopener]; rfl, ?_⟩
  have hclosing : closer.kind ≠ .newline := by simp [hcloser]
  have hfirst : ∀ {s : ParseState} {more : List Token}, (s.before (inside ++ more)).next.kind ≠ .newline := by
    intro s more
    obtain ⟨t, tokens, rfl, ht⟩ := hsubscript.begins
    exact (TokenKind.begins_ne ht).1
  have hends : ((s.enter false).before (closer :: rest)).EndsItem :=
    endsItem_append lineEnd_nil (.inr (by rw [hcloser]; rfl)) hclosing (by simp [hcloser])
  have hinside := (ihs.readsItem hsubscript).reads hs.enter hends
  have htokens : inside ++ [closer] ++ rest = inside ++ closer :: rest := by simp
  unfold index
  rw [advance_before, ask_bind, htokens,
    show (s.before (inside ++ closer :: rest)).inClass = false from hs.inClass]
  apply inBrackets_before
  unfold indexBody
  rw [skipNewlines_other hfirst, bind_apply_some hinside, skipNewlines_other (by exact hclosing), peek_bind,
    ParseState.next_before_cons, if_pos (by simp [hcloser]), advance_before]
  rfl

theorem climbs_call (ih : Climbs (depth + 1) object objectTokens) (hopener : opener.kind = .opening .paren)
    (hcloser : closer.kind = .closing .paren) :
    Climbs (depth + 1) (.call object opener closer []) (objectTokens ++ [opener, closer]) := by
  refine climbs_continue hobject hlevel ih (by simp [hopener]) (by rw [hopener]; rfl) rfl fun s rest hs =>
    ⟨call (nested depth) object, by rw [hopener]; rfl, ?_⟩
  have hgroup : group (nested depth) .paren (s.before (opener :: closer :: rest)) =
      (some (Group.ofItems opener closer .paren []), s.before rest) :=
    group_lines opener rest hs ⟨List.forall_mem_nil _, List.forall_mem_nil _⟩ (List.forall_mem_nil _)
      lineEnd_nil hcloser
  unfold call
  rw [bind_apply_some (by exact hgroup)]
  rfl

end

/-! ## Arguments -/

theorem parallelStep_comma (hcomma : comma.kind = .comma) (hm : Begins tokens)
    (hread : sub Binding.parallel (s.before tokens) = (some m, t)) (done : List Node) :
    Discipline.parallelStep sub done (s.before (comma :: tokens)) = (some (.again (m :: done)), t) := by
  obtain ⟨first, others, rfl, hfirst⟩ := hm
  unfold Discipline.parallelStep
  rw [accept_before hcomma, if_pos rfl, ask_bind]
  split
  · rw [skipNewlines_other (by exact (TokenKind.begins_ne hfirst).1)]
    exact bind_apply_some hread
  · exact bind_apply_some hread

/-- The next token ends an expression in a list. -/
theorem stops_comma (h : comma.kind = .comma) (s : ParseState) (rest : List Token) :
    (s.before (comma :: rest)).Stops Binding.parallel ∧ (s.before (comma :: rest)).EndsName := by
  unfold ParseState.EndsName
  refine ⟨⟨?_, by rw [ParseState.next_before_cons, Token.isNegativeNumber, h], ?_⟩, ?_⟩ <;>
    rw [ParseState.next_before_cons, h]
  · simp
  · exact Nat.le_refl _
  · simp [TokenKind.isLabel]

theorem Node.Written.fits_parallel (h : n.Written depth tokens) : n.Fits Binding.parallel :=
  .inl (Nat.lt_of_lt_of_le (by decide) (Node.level_le h).1)

variable {more : List CommaItem}

/-- What stands behind an expression of a list ends it: a further comma or the end of the item. -/
theorem stops_commaTokens (hcommas : ∀ i ∈ more, i.comma.kind = .comma) (hends : (s.before rest).EndsItem) :
    (s.before (commaTokens more ++ rest)).Stops Binding.parallel ∧ (s.before (commaTokens more ++ rest)).EndsName := by
  cases more with
  | nil => exact hends.stops.imp_left fun h => h.mono (by decide)
  | cons i more => exact stops_comma (hcommas i List.mem_cons_self) s _

/-- Expressions behind commas are read one after another. -/
theorem parallel_written (hs : s.Sound) (hends : (s.before rest).EndsItem)
    (hcommas : ∀ i ∈ more, i.comma.kind = .comma) (hmore : ∀ i ∈ more, i.node.Written depth i.tokens)
    (ih : ∀ i ∈ more, Climbs depth i.node i.tokens) (done : List Node) :
    repeatWhile (Discipline.parallelStep (nested depth)) done (s.before (commaTokens more ++ rest)) =
      (some (.parallel (done.reverse ++ more.map CommaItem.node)), s.before rest) := by
  induction more generalizing done with
  | nil =>
    have hcomma : (s.before rest).next.kind ≠ .comma := by
      intro he
      rcases hends.next with h | h | h <;> rw [he] at h <;> cases h
    refine repeatWhile_done ?_
    unfold Discipline.parallelStep
    rw [accept_other (by exact hcomma), if_neg Bool.false_ne_true, List.map_nil, List.append_nil]
    rfl
  | cons i more ihmore =>
    have hi := hmore i List.mem_cons_self
    have hcommas' : ∀ j ∈ more, j.comma.kind = .comma := fun j hj => hcommas j (List.mem_cons_of_mem i hj)
    obtain ⟨hstops, hname⟩ := stops_commaTokens hcommas' hends
    have hclimbs : Climbs depth i.node i.tokens := ih i List.mem_cons_self
    have hread : (nested depth).expression Binding.parallel
        (s.before (i.tokens ++ (commaTokens more ++ rest))) =
          (some i.node, s.before (commaTokens more ++ rest)) :=
      hclimbs.reads hi hs (Node.Written.fits_parallel hi) hstops hname
    have hstep := parallelStep_comma (hcommas i List.mem_cons_self) (hi.begins.append _) hread done
    have htokens : commaTokens (i :: more) ++ rest = i.comma :: (i.tokens ++ (commaTokens more ++ rest)) := by
      simp [commaTokens]
    have hless := ParseState.weight_before_lt s (commaTokens more ++ rest) (List.cons_ne_nil i.comma i.tokens)
    rw [htokens, repeatWhile_again hstep hless, ihmore hcommas' (fun j hj => hmore j (List.mem_cons_of_mem i hj))
        fun j hj => ih j (List.mem_cons_of_mem i hj)]
    simp

def argumentItem (first : Node) (more : List CommaItem) : Node :=
  if more.isEmpty then first else .parallel (first :: more.map CommaItem.node)

/-- Arguments are read as one item. -/
theorem readsItem_arguments (hfirst : first.Written (depth + 1) firstTokens)
    (ihfirst : Climbs (depth + 1) first firstTokens) (hcommas : ∀ i ∈ more, i.comma.kind = .comma)
    (hmore : ∀ i ∈ more, i.node.Written depth i.tokens) (ih : ∀ i ∈ more, Climbs depth i.node i.tokens) :
    ReadsItem (nested (depth + 1)) (argumentItem first more) (firstTokens ++ commaTokens more) := by
  cases more with
  | nil =>
    rw [commaTokens, List.flatMap_nil, List.append_nil]
    exact ihfirst.readsItem hfirst
  | cons i more =>
    refine ⟨hfirst.begins.append _, fun {s rest} hs hends => ?_⟩
    obtain ⟨hstops, hname⟩ := stops_commaTokens hcommas hends
    have hbehind : (s.before (commaTokens (i :: more) ++ rest)).Behind first :=
      hstops.behind hname (by decide) (.inl (Nat.lt_of_lt_of_le (by decide) (Node.level_le hfirst).1))
    have hcomma := hcommas i List.mem_cons_self
    have hread : parallel (nested depth) first (s.before (commaTokens (i :: more) ++ rest)) =
        (some (argumentItem first (i :: more)), s.before rest) :=
      parallel_written hs hends hcommas hmore ih [first]
    have hsuffix : rest <:+ (i.tokens ++ commaTokens more) ++ rest := List.suffix_append _ _
    have hclimb : climb (nested depth) Binding.lowest first (s.before (commaTokens (i :: more) ++ rest)) =
        climb (nested depth) Binding.lowest (argumentItem first (i :: more)) (s.before rest) :=
      climb_rule (by rw [Token.isNegativeNumber, hcomma]) (by rw [hcomma]; decide) (by rw [hcomma]; rfl)
        hread hsuffix
    rw [List.append_assoc]
    refine (ihfirst hs (Node.Written.fits_lowest hfirst) hbehind).trans ?_
    exact hclimb.trans (climb_stop hends.stops.1)

theorem argumentOf_of_passes {a : Node} (h : n.Passes a) : argumentOf? n = some a := by
  cases h with
  | byPosition h =>
    cases n with
    | assign target op value => exact absurd rfl (h target op value)
    | _ => rfl
  | byName h => simp [argumentOf?, h]

theorem arguments_passes {ns : List Node} (h : List.Forall₂ Node.Passes ns args) (s : ParseState) :
    arguments ns s = (some args, s) := by
  induction h with
  | nil => rfl
  | cons hn _ ih =>
    unfold arguments
    rw [argumentOf_of_passes hn]
    exact bind_apply_some ih

/-- The items of a group that holds arguments are the arguments. -/
theorem items_arguments (more : List CommaItem) (opener closer : Token) (hfirst : first.Written depth firstTokens) :
    (Group.ofItems opener closer .paren [argumentItem first more]).items = first :: more.map CommaItem.node ∧
      (Group.ofItems opener closer .paren [argumentItem first more]).holdsBlock = false := by
  cases more with
  | nil =>
    cases hfirst with
    | leaf h => cases h <;> exact ⟨rfl, rfl⟩
    | _ => exact ⟨rfl, rfl⟩
  | cons => exact ⟨rfl, rfl⟩

theorem climbs_callWith (hobject : object.Written (depth + 2) objectTokens) (hlevel : object.level = Binding.call)
    (ihobject : Climbs (depth + 2) object objectTokens) (hopener : opener.kind = .opening .paren)
    (hfirst : first.Written (depth + 1) firstTokens) (ihfirst : Climbs (depth + 1) first firstTokens)
    (hcommas : ∀ i ∈ more, i.comma.kind = .comma) (hmore : ∀ i ∈ more, i.node.Written depth i.tokens)
    (ih : ∀ i ∈ more, Climbs depth i.node i.tokens) (hcloser : closer.kind = .closing .paren)
    (hargs : List.Forall₂ Node.Passes (first :: more.map CommaItem.node) args) :
    Climbs (depth + 2) (.call object opener closer args)
      (objectTokens ++ opener :: (firstTokens ++ commaTokens more ++ [closer])) := by
  refine climbs_continue hobject hlevel ihobject (by simp [hopener]) (by rw [hopener]; rfl) rfl
    fun s rest hs => ⟨call (nested (depth + 1)) object, by rw [hopener]; rfl, ?_⟩
  have hitem := readsItem_arguments hfirst ihfirst hcommas hmore ih
  have hgroup : group (nested (depth + 1)) .paren
      (s.before (opener :: (firstTokens ++ commaTokens more ++ closer :: rest))) =
        (some (Group.ofItems opener closer .paren [argumentItem first more]), s.before rest) :=
    group_single hs hitem hcloser
  obtain ⟨hitems, hblock⟩ := items_arguments more opener closer hfirst
  have htokens : firstTokens ++ commaTokens more ++ [closer] ++ rest =
      firstTokens ++ commaTokens more ++ closer :: rest := by simp
  unfold call
  rw [htokens, bind_apply_some hgroup, hblock, if_neg Bool.false_ne_true, hitems,
    bind_apply_some (arguments_passes hargs _)]
  rfl

theorem climbs_increment (hassignable : object.isAssignable = true)
    (hobject : object.Written (depth + 1) objectTokens) (ih : Climbs (depth + 1) object objectTokens)
    (hop : op.kind = .op .increment ∨ op.kind = .op .decrement) :
    Climbs (depth + 1) (.increment object op) (objectTokens ++ [op]) := by
  intro s rest level hs hfits _
  have hlevel := Node.level_of_isAssignable hassignable
  have hname : (s.before (op :: rest)).EndsName := by
    unfold ParseState.EndsName
    rw [ParseState.next_before_cons]
    rcases hop with hk | hk <;> rw [hk] <;> simp [TokenKind.isLabel]
  have hbehind := ParseState.behind_of_call hobject hlevel hname fun hk => by
    rw [ParseState.next_before_cons] at hk
    rcases hop with he | he <;> rw [he] at hk <;> cases hk
  have hfits' : object.Fits level := by
    rcases hfits with hlt | ⟨-, he⟩
    · exact .inl (hlevel ▸ hlt)
    · cases he
  rw [List.append_assoc, List.singleton_append, ih hs hfits' hbehind]
  exact climb_increment hop hassignable

end

/-- A tree is read wherever it stands as an operand. -/
theorem climbs_written (h : n.Written depth tokens) : Climbs depth n tokens := by
  induction h with
  | leaf h => exact climbs_leaf h
  | ident h => exact climbs_ident h
  | group hopener hn hcloser ih => exact climbs_group hopener hcloser hn ih
  | unary hop hfront hn hlevel ih => exact climbs_unary hop hfront hn hlevel ih
  | binary _ hop hbinary hr hleft hright ihl ihr => exact climbs_binary hop hbinary hr hleft hright ihl ihr
  | assign _ hop hassignment hr hassignable ihl ihr =>
    exact climbs_assign hop hassignment hr hassignable ihl ihr
  | call hcallee hlevel hopener hcloser ih => exact climbs_call hcallee hlevel ih hopener hcloser
  | callWith hcallee hlevel hopener hfirst hcommas hmore hcloser hargs ih ihfirst ihmore =>
    exact climbs_callWith hcallee hlevel ih hopener hfirst ihfirst hcommas hmore ihmore hcloser hargs
  | index hobject hlevel hlabels hopener hsubscript hcloser ih ihs =>
    exact climbs_index hobject hlevel hlabels ih hopener hsubscript ihs hcloser
  | member hobject hlevel hdot hname ih => exact climbs_member hobject hlevel ih hdot hname
  | increment hoperand hassignable hop ih => exact climbs_increment hassignable hoperand ih hop

end Parse

end Frontend
