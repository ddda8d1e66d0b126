import Frontend.Proofs.Parse.Finish

/-!
# States in front of given tokens

What a rule does in front of the tokens of a phrase is told by the state it leaves: the same state, in
front of what stands behind the phrase. Here that is done for names with their labels.
-/

namespace Frontend

variable {k : TokenKind} {l : Label}
variable {ls : List Label} {name : Ident} {depth : Nat}

/-- The state, in front of other tokens. -/
def ParseState.before (s : ParseState) (rest : List Token) : ParseState := { s with rest }

/-- The state behind an opening bracket. -/
def ParseState.enter (s : ParseState) (inClass : Bool) : ParseState :=
  { s with depth := s.depth + 1, inClass }

/-- A state that a parse without errors goes on from, outside of class bodies. -/
structure ParseState.Sound (s : ParseState) : Prop where
  panicking : s.panicking = false
  stopped : s.stopped = false
  inClass : s.inClass = false
  eof : s.last.kind = .eof

namespace ParseState

variable {s : ParseState} {t : Token} {rest tokens : List Token}

@[simp] theorem rest_before (s : ParseState) (rest : List Token) : (s.before rest).rest = rest := rfl

@[simp] theorem next_before_cons (s : ParseState) (t : Token) (rest : List Token) :
    (s.before (t :: rest)).next = t := rfl

theorem before_rest (s : ParseState) : s.before s.rest = s := rfl

theorem Sound.before (hs : s.Sound) (rest : List Token) : (s.before rest).Sound :=
  ⟨hs.panicking, hs.stopped, hs.inClass, hs.eof⟩

theorem weight_before_lt (s : ParseState) (rest : List Token) (h : tokens ≠ []) :
    (s.before rest).weight < (s.before (tokens ++ rest)).weight := by
  rw [weight_eq, weight_eq, rest_before, rest_before, tokensWeight_append]
  exact Nat.lt_add_of_pos_left (tokensWeight_pos h)

theorem weight_before_cons_lt (s : ParseState) (t : Token) (rest : List Token) :
    (s.before rest).weight < (s.before (t :: rest)).weight :=
  weight_before_lt s rest (List.cons_ne_nil t [])

theorem Sound.enter (hs : s.Sound) : (s.enter false).Sound :=
  ⟨hs.panicking, hs.stopped, rfl, hs.eof⟩

/-- The panic of a sound state is over. -/
theorem Sound.calm (hs : s.Sound) : { s with panicking := false } = s := by
  rw [← hs.panicking]

end ParseState

namespace Parse

variable {α β : Type} {s t : ParseState} {token : Token} {rest : List Token}

theorem advance_before (f : Token → Parse β) (s : ParseState) (token : Token) (rest : List Token) :
    (advance >>= f) (s.before (token :: rest)) = f token (s.before rest) := rfl

theorem accept_before (h : token.kind = k) (f : Bool → Parse β) :
    (accept k >>= f) (s.before (token :: rest)) = f true (s.before rest) := by
  refine bind_apply_some ?_
  unfold accept check
  rw [ask_bind, ParseState.next_before_cons, if_pos (beq_iff_eq.mpr h)]
  rfl

theorem accept_other (h : s.next.kind ≠ k) (f : Bool → Parse β) : (accept k >>= f) s = f false s := by
  refine bind_apply_some ?_
  unfold accept check
  rw [ask_bind, if_neg (by simpa using h)]
  rfl

theorem repeatWhile_done {step : α → Parse (Progress α β)} {a : α} {b : β}
    (h : step a s = (some (.done b), t)) : repeatWhile step a s = (some b, t) := by
  rw [repeatWhile.eq_def, h]

theorem repeatWhile_again {step : α → Parse (Progress α β)} {a a' : α}
    (h : step a s = (some (.again a'), t)) (hless : t.weight < s.weight) :
    repeatWhile step a s = repeatWhile step a' t := by
  rw [repeatWhile.eq_def, h]
  dsimp only
  rw [if_pos hless]

/-- Behind a closing bracket the settings are those from in front of the opening one. -/
theorem inBrackets_before {p : Parse α} {inClass : Bool} {r : Option α} {more : List Token}
    (h : p ((s.enter inClass).before rest) = (r, (s.enter inClass).before more)) :
    inBrackets inClass p (s.before rest) = (r, s.before more) := by
  have hrun : inBrackets inClass p (s.before rest) =
      ((p ((s.enter inClass).before rest)).1,
        { (p ((s.enter inClass).before rest)).2 with depth := s.depth, inClass := s.inClass }) := rfl
  rw [hrun, h]
  rfl

/-- Line breaks are passed over where there are none. -/
theorem skipNewlines_other (h : s.next.kind ≠ .newline) (f : Unit → Parse β) : (skipNewlines >>= f) s = f () s := by
  rw [skipNewlines, change_bind]
  change f () (s.before (pastNewlines s.rest)) = f () s
  rw [Discipline.pastNewlines_of_next h, ParseState.before_rest]

end Parse

/-! ## Labels -/

mutual
/-- A label with the tokens that it is written with: its word and, if the word takes groups, any number
of groups in square brackets. -/
inductive Label.Written : Label → List Token → Prop where
  | mk {word : Token} {groups : List (List Label)} {tokens : List Token}
      (hword : Parse.startsLabel word.kind = true)
      (htakes : groups = [] ∨ Parse.takesGroups word.kind = true) (hgroups : GroupsWritten groups tokens) :
      Label.Written (.mk word groups) (word :: tokens)
/-- The groups of a label. -/
inductive GroupsWritten : List (List Label) → List Token → Prop where
  | nil : GroupsWritten [] []
  | cons {opener closer : Token} {group : List Label} {groups : List (List Label)}
      {tokens more : List Token} (hopener : opener.kind = .opening .square)
      (hgroup : MembersWritten group tokens) (hcloser : closer.kind = .closing .square)
      (hgroups : GroupsWritten groups more) :
      GroupsWritten (group :: groups) (opener :: (tokens ++ closer :: more))
/-- The labels in a group, with commas between them. -/
inductive MembersWritten : List Label → List Token → Prop where
  | nil : MembersWritten [] []
  | last {label : Label} {tokens : List Token} (h : label.Written tokens) : MembersWritten [label] tokens
  | cons {comma : Token} {label : Label} {labels : List Label} {tokens more : List Token}
      (h : label.Written tokens) (hcomma : comma.kind = .comma) (hmore : MembersWritten labels more) :
      MembersWritten (label :: labels) (tokens ++ comma :: more)
end

/-- The labels behind a colon: behind the first one come label words only. -/
inductive LabelsWritten : List Label → List Token → Prop where
  | last {label : Label} {tokens : List Token} (h : label.Written tokens) : LabelsWritten [label] tokens
  | cons {label : Label} {labels : List Label} {word : Token} {tokens more : List Token}
      (h : label.Written tokens) (hword : word.kind.isLabel = true)
      (hmore : LabelsWritten labels (word :: more)) :
      LabelsWritten (label :: labels) (tokens ++ word :: more)

/-- A name with the tokens that it is written with. -/
inductive Ident.Written : Ident → List Token → Prop where
  | plain {token : Token} (h : token.kind = .ident) : Ident.Written { token } [token]
  | labelled {token colon : Token} {labels : List Label} {tokens : List Token}
      (h : token.kind = .ident) (hcolon : colon.kind = .op .colon)
      (hlabels : LabelsWritten labels tokens) :
      Ident.Written { token, labels } (token :: colon :: tokens)

namespace Parse

variable {s : ParseState} {rest : List Token}

variable {tokens : List Token}

theorem exists_of_label (h : l.Written tokens) : ∃ word more, tokens = word :: more ∧ startsLabel word.kind = true := by
  cases h with
  | mk hword => exact ⟨_, _, rfl, hword⟩

theorem length_pos_of_label (h : l.Written tokens) : 0 < tokens.length := by
  obtain ⟨word, more, rfl, -⟩ := exists_of_label h
  exact Nat.succ_pos _

theorem ne_of_startsLabel (h : startsLabel k = true) :
    k ≠ .closing .square ∧ k ≠ .opening .square ∧ k ≠ .comma := by
  cases k <;> first | (cases h; done) | simp

/-- One label of a group, with what stands behind it. -/
theorem members_succ {fuel : Nat} {opener : Token} {done : List Label} {more : List Token} (h : l.Written tokens)
    (hlabel : label fuel (s.before (tokens ++ more)) = (some l, s.before more)) :
    members (fuel + 1) opener done (s.before (tokens ++ more)) = (do
      if !(← accept .comma) && !(← check (.closing .square)) then
        failUnexpected (← peek) "',' or ']'"
      else members fuel opener (l :: done)) (s.before more) := by
  obtain ⟨word, tokens, rfl, hword⟩ := exists_of_label h
  rw [members, peek_bind, List.cons_append, ParseState.next_before_cons,
    if_neg (by simpa using (ne_of_startsLabel hword).1), if_neg (by simp [hword])]
  rw [List.cons_append] at hlabel
  exact bind_apply_some hlabel

mutual
theorem label_written : ∀ fuel {l : Label} {tokens rest : List Token},
    l.Written tokens → 3 * (tokens ++ rest).length + 2 ≤ fuel → (s.before rest).next.kind ≠ .opening .square →
    label fuel (s.before (tokens ++ rest)) = (some l, s.before rest)
  | 0, _, _, _, _, hfuel, _ => by omega
  | fuel + 1, _, _, rest, h, hfuel, hnext => by
    cases h with
    | mk hword htakes hgroups =>
      rw [List.cons_append, List.length_cons] at hfuel
      rw [label, List.cons_append, advance_before]
      exact groups_written fuel hgroups htakes (by omega) hnext

theorem groups_written : ∀ fuel {word : Token} {done gs : List (List Label)} {tokens rest : List Token},
    GroupsWritten gs tokens → gs = [] ∨ takesGroups word.kind = true →
    3 * (tokens ++ rest).length + 1 ≤ fuel → (s.before rest).next.kind ≠ .opening .square →
    groups fuel word done (s.before (tokens ++ rest)) = (some (.mk word (done.reverse ++ gs)), s.before rest)
  | 0, _, _, _, _, _, _, _, hfuel, _ => by omega
  | fuel + 1, word, done, _, _, rest, h, htakes, hfuel, hnext => by
    cases h with
    | nil =>
      rw [groups, check, ask_bind, List.nil_append, if_pos (by simpa using hnext), List.append_nil]
      rfl
    | @cons opener closer group gs tokens more hopener hgroup hcloser hgroups =>
      have htakes' : takesGroups word.kind = true := htakes.resolve_left (List.cons_ne_nil group gs)
      simp only [List.cons_append, List.append_assoc, List.length_cons, List.length_append] at hfuel ⊢
      rw [groups, check, ask_bind, if_neg (by simp [hopener]), if_neg (by simp [htakes']), advance_before]
      rw [bind_apply_some (members_written fuel hgroup (by simp; omega) hcloser), advance_before]
      rw [groups_written fuel hgroups (.inr htakes') (by simp; omega) hnext]
      simp

theorem members_written : ∀ fuel {opener closer : Token} {done ls : List Label}
    {tokens rest : List Token}, MembersWritten ls tokens →
    3 * (tokens ++ closer :: rest).length + 3 ≤ fuel → closer.kind = .closing .square →
    members fuel opener done (s.before (tokens ++ closer :: rest)) =
      (some (done.reverse ++ ls), s.before (closer :: rest))
  | 0, _, _, _, _, _, _, _, hfuel, _ => by omega
  | fuel + 1, opener, closer, done, _, _, rest, h, hfuel, hcloser => by
    cases h with
    | nil =>
      rw [members, List.nil_append, peek_bind, if_pos (by simp [hcloser]), List.append_nil]
      rfl
    | @last l _ h =>
      have hpos := length_pos_of_label h
      rw [members_succ h (label_written fuel h (by omega) (by simp [hcloser])),
        accept_other (by simp [hcloser]), check, ask_bind, if_neg (by simp [hcloser])]
      rw [List.length_append] at hfuel
      have hclosed : members fuel opener (l :: done) (s.before (closer :: rest)) =
          (some ((l :: done).reverse ++ []), s.before (closer :: rest)) :=
        members_written fuel .nil (by rw [List.nil_append]; omega) hcloser
      rw [hclosed]
      simp
    | @cons comma l ls tokens more h hcomma hmore =>
      have hpos := length_pos_of_label h
      rw [List.append_assoc, List.cons_append] at hfuel ⊢
      rw [members_succ h (label_written fuel h (by omega) (by simp [hcomma])), accept_before hcomma,
        check, ask_bind, if_neg (by simp)]
      rw [List.length_append, List.length_cons] at hfuel
      rw [members_written fuel hmore (by omega) hcloser]
      simp
end

theorem labelStep_written (s : ParseState) (rest : List Token) (h : l.Written tokens)
    (hnext : (s.before rest).next.kind ≠ .opening .square) (done : List Label) :
    Discipline.labelStep done (s.before (tokens ++ rest)) =
      (some (if (s.before rest).next.kind.isLabel then .again (l :: done)
        else .done (l :: done).reverse), s.before rest) := by
  unfold Discipline.labelStep labelFuel
  rw [ask_bind, bind_apply_some (label_written _ h (by simp) hnext), peekKind, ask_bind]
  split <;> rfl

theorem ne_of_isLabel (h : k.isLabel = true) : k ≠ .opening .square := by
  rintro rfl
  cases h

theorem exists_of_labels (h : LabelsWritten ls tokens) :
    ∃ word more, tokens = word :: more ∧ startsLabel word.kind = true := by
  cases h with
  | last h => exact exists_of_label h
  | cons h =>
    obtain ⟨first, more, rfl, hfirst⟩ := exists_of_label h
    exact ⟨first, _, rfl, hfirst⟩

/-- The labels behind a colon are read up to what is no label. -/
theorem labels_written (h : LabelsWritten ls tokens) (hlabel : (s.before rest).next.kind.isLabel = false)
    (hsquare : (s.before rest).next.kind ≠ .opening .square) :
    labels (s.before (tokens ++ rest)) = (some ls, s.before rest) := by
  have run : ∀ done, repeatWhile Discipline.labelStep done (s.before (tokens ++ rest)) =
      (some (done.reverse ++ ls), s.before rest) := by
    induction h with
    | @last l _ h =>
      intro done
      have hstep := labelStep_written s rest h hsquare done
      rw [if_neg (by simp [hlabel])] at hstep
      rw [repeatWhile_done hstep, List.reverse_cons]
    | @cons l ls word tokens more h hword hmore ih =>
      intro done
      have hstep := labelStep_written s (word :: (more ++ rest)) h (ne_of_isLabel hword) done
      rw [ParseState.next_before_cons, if_pos hword] at hstep
      have hless := ParseState.weight_before_lt s (word :: (more ++ rest))
        (List.ne_nil_of_length_pos (length_pos_of_label h))
      rw [List.append_assoc, List.cons_append, repeatWhile_again hstep hless]
      exact (ih (l :: done)).trans (by simp)
  obtain ⟨word, more, rfl, hword⟩ := exists_of_labels h
  unfold labels
  rw [peek_bind, List.cons_append, ParseState.next_before_cons]
  exact (congrFun (if_neg (by simp [hword])) _).trans (run [])

/-- A name is read with its labels, unless more labels stand behind it. -/
theorem identifier_written (h : name.Written tokens) (hcolon : (s.before rest).next.kind ≠ .op .colon)
    (hlabel : (s.before rest).next.kind.isLabel = false)
    (hsquare : name.labels ≠ [] → (s.before rest).next.kind ≠ .opening .square) :
    identifier (s.before (tokens ++ rest)) = (some name, s.before rest) := by
  unfold identifier
  cases h with
  | plain h =>
    rw [List.singleton_append, advance_before, accept_other hcolon]
    rfl
  | @labelled token colon ls tokens h hcolon' hlabels =>
    have hne : ls ≠ [] := by
      cases hlabels with
      | last => exact List.cons_ne_nil _ _
      | cons => exact List.cons_ne_nil _ _
    rw [List.cons_append, List.cons_append, advance_before, accept_before hcolon', if_pos rfl,
      bind_apply_some (labels_written hlabels hlabel (hsquare hne))]
    rfl

end Parse

/-! ## Expression trees and the tokens they are written with

A relation between expression trees and lists of tokens: operators stand between or in front of operands
that bind tightly enough, and everything else is in brackets. It also bounds how deep reading the tokens
is nested. -/

variable {n : Node}

/-! ## Operators -/

/-- The operators between two operands. -/
def Operator.isBinary : Operator → Bool
  | .plus | .minus | .star | .slash | .percent | .eq | .ne | .lt | .le | .gt | .ge | .and | .or => true
  | _ => false

def Operator.isAssignment : Operator → Bool
  | .assign | .plusAssign | .minusAssign | .starAssign | .slashAssign | .percentAssign => true
  | _ => false

/-- The operators in front of an operand. -/
def Operator.isPrefix : Operator → Bool
  | .minus | .not | .star | .power => true
  | _ => false

/-- The tokens that an expression or a statement may begin with. -/
def TokenKind.begins : TokenKind → Bool
  | .ident | .int | .float | .str | .opening _ => true
  | .op o => o.isPrefix
  | .keyword k => k != .elifTest && k != .elseCase
  | _ => false

/-- How tightly the parts of a node hold together. -/
def Node.level : Node → Nat
  | .assign .. => Binding.assign
  | .binary _ op _ => Binding.ofKind op.kind
  | .unary .. => Binding.unary
  | _ => Binding.call

theorem Node.level_of_isAssignable (h : n.isAssignable = true) : n.level = Binding.call := by
  cases n <;> first | rfl | cases h

/-! ## Expressions -/

/-- A node that is a single token. -/
inductive Node.Leaf : Node → Token → Prop where
  | int {t : Token} {value : Int} (h : t.kind = .int) (hvalue : Decimal.readWord? t.literal = some value) :
      Leaf (.int t value) t
  | float {t : Token} {value : Binary64} (h : t.kind = .float)
      (hvalue : Decimal.readFinite? t.literal = some value) : Leaf (.float t value) t
  | str {t : Token} (h : t.kind = .str) : Leaf (.str t) t
  | trueValue {t : Token} (h : t.kind = .keyword .trueValue) : Leaf (.bool t true) t
  | falseValue {t : Token} (h : t.kind = .keyword .falseValue) : Leaf (.bool t false) t
  | null {t : Token} (h : t.kind = .keyword .nullValue) : Leaf (.null t) t
  | this {t : Token} (h : t.kind = .keyword .this) : Leaf (.this t) t

/-- What a node among arguments passes: its own value, unless it is an assignment; an assignment to a
name passes an argument by name. -/
inductive Node.Passes : Node → Node → Prop where
  | byPosition {n : Node} (h : ∀ target op value, n ≠ .assign target op value) : Passes n n
  | byName {name : Ident} {op : Token} {value : Node} (h : op.kind = .op .assign) :
      Passes (.assign (.ident name) op value) (.argument name value)

/-- An expression behind a comma, with its tokens. -/
structure CommaItem where
  comma : Token
  node : Node
  tokens : List Token

/-- The tokens of expressions behind commas. -/
def commaTokens (more : List CommaItem) : List Token := more.flatMap fun i => i.comma :: i.tokens

/-- An expression tree with the tokens that it is written with, such that reading them is nested no
deeper than the given number of expressions. The left operand of an operator holds together at least as
tightly as the operator binds, and the right operand more tightly; assignments group to the right; an
operator in front is followed by one more or by something that holds together more tightly; and what is
called, indexed or looked into is no operator's. -/
inductive Node.Written : Nat → Node → List Token → Prop where
  | leaf {depth : Nat} {n : Node} {t : Token} (h : n.Leaf t) : Written (depth + 1) n [t]
  | ident {depth : Nat} {name : Ident} {tokens : List Token} (h : name.Written tokens) :
      Written (depth + 1) (.ident name) tokens
  | group {depth : Nat} {opener closer : Token} {n : Node} {tokens : List Token}
      (hopener : opener.kind = .opening .paren) (h : Written depth n tokens)
      (hcloser : closer.kind = .closing .paren) :
      Written (depth + 1) (.group opener closer .paren (some n)) (opener :: (tokens ++ [closer]))
  | unary {depth : Nat} {op : Token} {o : Operator} {n : Node} {tokens : List Token}
      (hop : op.kind = .op o) (hfront : o.isPrefix = true) (h : Written depth n tokens)
      (hlevel : Binding.unary ≤ n.level) : Written (depth + 1) (.unary op n) (op :: tokens)
  | binary {depth : Nat} {op : Token} {o : Operator} {l r : Node} {left right : List Token}
      (hl : Written (depth + 1) l left) (hop : op.kind = .op o) (hbinary : o.isBinary = true)
      (hr : Written depth r right) (hleft : Binding.ofOperator o ≤ l.level)
      (hright : Binding.ofOperator o < r.level) :
      Written (depth + 1) (.binary l op r) (left ++ op :: right)
  | assign {depth : Nat} {op : Token} {o : Operator} {l r : Node} {left right : List Token}
      (hl : Written (depth + 1) l left) (hop : op.kind = .op o) (hassignment : o.isAssignment = true)
      (hr : Written depth r right) (hassignable : l.isAssignable = true) :
      Written (depth + 1) (.assign l op r) (left ++ op :: right)
  | call {depth : Nat} {callee : Node} {opener closer : Token} {tokens : List Token}
      (hcallee : Written (depth + 1) callee tokens) (hlevel : callee.level = Binding.call)
      (hopener : opener.kind = .opening .paren) (hcloser : closer.kind = .closing .paren) :
      Written (depth + 1) (.call callee opener closer []) (tokens ++ [opener, closer])
  | callWith {depth : Nat} {callee first : Node} {opener closer : Token} {more : List CommaItem}
      {args : List Node} {tokens firstTokens : List Token}
      (hcallee : Written (depth + 2) callee tokens) (hlevel : callee.level = Binding.call)
      (hopener : opener.kind = .opening .paren) (hfirst : Written (depth + 1) first firstTokens)
      (hcommas : ∀ i ∈ more, i.comma.kind = .comma) (hmore : ∀ i ∈ more, Written depth i.node i.tokens)
      (hcloser : closer.kind = .closing .paren)
      (hargs : List.Forall₂ Node.Passes (first :: more.map CommaItem.node) args) :
      Written (depth + 2) (.call callee opener closer args)
        (tokens ++ opener :: (firstTokens ++ commaTokens more ++ [closer]))
  | index {depth : Nat} {object subscript : Node} {opener closer : Token} {tokens inside : List Token}
      (hobject : Written (depth + 1) object tokens) (hlevel : object.level = Binding.call)
      (hlabels : ∀ name, object = .ident name → name.labels = [])
      (hopener : opener.kind = .opening .square) (hsubscript : Written depth subscript inside)
      (hcloser : closer.kind = .closing .square) :
      Written (depth + 1) (.index object opener subscript) (tokens ++ opener :: (inside ++ [closer]))
  | member {depth : Nat} {object : Node} {dot name : Token} {tokens : List Token}
      (hobject : Written (depth + 1) object tokens) (hlevel : object.level = Binding.call)
      (hdot : dot.kind = .op .dot) (hname : name.kind = .ident) :
      Written (depth + 1) (.member object dot { token := name }) (tokens ++ [dot, name])
  | increment {depth : Nat} {operand : Node} {op : Token} {tokens : List Token}
      (hoperand : Written (depth + 1) operand tokens) (hassignable : operand.isAssignable = true)
      (hop : op.kind = .op .increment ∨ op.kind = .op .decrement) :
      Written (depth + 1) (.increment operand op) (tokens ++ [op])

/-- Tokens that an expression or a statement may begin with. -/
def Begins (tokens : List Token) : Prop := ∃ t more, tokens = t :: more ∧ t.kind.begins = true

variable {tokens : List Token}

theorem Begins.append (h : Begins tokens) (more : List Token) : Begins (tokens ++ more) := by
  obtain ⟨t, rest, rfl, ht⟩ := h
  exact ⟨t, rest ++ more, rfl, ht⟩

theorem Begins.ne_nil (h : Begins tokens) : tokens ≠ [] := by
  obtain ⟨t, rest, rfl, -⟩ := h
  exact List.cons_ne_nil t rest

theorem Ident.Written.begins (h : name.Written tokens) : Begins tokens := by
  cases h with
  | plain h => exact ⟨_, _, rfl, by rw [h]; rfl⟩
  | labelled h => exact ⟨_, _, rfl, by rw [h]; rfl⟩

theorem Node.Leaf.begins {t : Token} (h : n.Leaf t) : t.kind.begins = true := by
  cases h <;> simp [*, TokenKind.begins]

theorem Node.Written.begins (h : n.Written depth tokens) : Begins tokens := by
  induction h with
  | leaf h => exact ⟨_, _, rfl, h.begins⟩
  | ident h => exact h.begins
  | group hopener => exact ⟨_, _, rfl, by rw [hopener]; rfl⟩
  | unary hop hfront => exact ⟨_, _, rfl, by rw [hop]; exact hfront⟩
  | binary _ _ _ _ _ _ ih => exact ih.append _
  | assign _ _ _ _ _ ih => exact ih.append _
  | call _ _ _ _ ih => exact ih.append _
  | callWith _ _ _ _ _ _ _ _ ih => exact ih.append _
  | index _ _ _ _ _ _ ih => exact ih.append _
  | member _ _ _ _ ih => exact ih.append _
  | increment _ _ _ ih => exact ih.append _

/-! ## The end of input is not among the tokens -/

theorem ne_eof_of_startsLabel (h : Parse.startsLabel k = true) : k ≠ .eof := by
  rintro rfl
  cases h

/-- Tokens among which the end of input is not. -/
def NoEof (tokens : List Token) : Prop := ∀ t ∈ tokens, t.kind ≠ .eof

namespace NoEof

variable {t : Token} {tokens more : List Token}

theorem nil : NoEof [] := List.forall_mem_nil _

theorem cons (ht : t.kind ≠ .eof) (h : NoEof tokens) : NoEof (t :: tokens) :=
  List.forall_mem_cons.mpr ⟨ht, h⟩

theorem append (h : NoEof tokens) (hmore : NoEof more) : NoEof (tokens ++ more) :=
  List.forall_mem_append.mpr ⟨h, hmore⟩

end NoEof

mutual
theorem Label.Written.noEof {l : Label} {tokens : List Token} : l.Written tokens → NoEof tokens
  | .mk hword _ hgroups => hgroups.noEof.cons (ne_eof_of_startsLabel hword)

theorem GroupsWritten.noEof {groups : List (List Label)} {tokens : List Token} :
    GroupsWritten groups tokens → NoEof tokens
  | .nil => .nil
  | .cons hopener hgroup hcloser hgroups =>
    (hgroup.noEof.append (hgroups.noEof.cons (by simp [hcloser]))).cons (by simp [hopener])

theorem MembersWritten.noEof {labels : List Label} {tokens : List Token} :
    MembersWritten labels tokens → NoEof tokens
  | .nil => .nil
  | .last h => h.noEof
  | .cons h hcomma hmore => h.noEof.append (hmore.noEof.cons (by simp [hcomma]))
end

theorem LabelsWritten.noEof {labels : List Label} (h : LabelsWritten labels tokens) : NoEof tokens := by
  induction h with
  | last h => exact h.noEof
  | cons h _ _ ih => exact h.noEof.append ih

theorem Ident.Written.noEof (h : name.Written tokens) : NoEof tokens := by
  cases h with
  | plain h => exact NoEof.nil.cons (by simp [h])
  | labelled h hcolon hlabels => exact (hlabels.noEof.cons (by simp [hcolon])).cons (by simp [h])

theorem noEof_commaTokens {more : List CommaItem} (hcommas : ∀ i ∈ more, i.comma.kind = .comma)
    (h : ∀ i ∈ more, NoEof i.tokens) : NoEof (commaTokens more) := by
  intro t ht
  obtain ⟨i, hi, ht⟩ := List.mem_flatMap.mp ht
  exact ((h i hi).cons (by simp [hcommas i hi])) t ht

theorem Node.Written.noEof (h : n.Written depth tokens) : NoEof tokens := by
  induction h with
  | leaf h => exact NoEof.nil.cons (by cases h <;> simp [*])
  | ident h => exact h.noEof
  | group hopener _ hcloser ih =>
    exact (ih.append (NoEof.nil.cons (by simp [hcloser]))).cons (by simp [hopener])
  | unary hop _ _ _ ih => exact ih.cons (by simp [hop])
  | binary _ hop _ _ _ _ ihl ihr => exact ihl.append (ihr.cons (by simp [hop]))
  | assign _ hop _ _ _ ihl ihr => exact ihl.append (ihr.cons (by simp [hop]))
  | call _ _ hopener hcloser ih =>
    exact ih.append ((NoEof.nil.cons (by simp [hcloser])).cons (by simp [hopener]))
  | callWith _ _ hopener _ hcommas _ hcloser _ ih ihfirst ihmore =>
    refine ih.append (NoEof.cons (by simp [hopener]) ?_)
    exact (ihfirst.append (noEof_commaTokens hcommas ihmore)).append (NoEof.nil.cons (by simp [hcloser]))
  | index _ _ _ hopener _ hcloser ih ihs =>
    exact ih.append ((ihs.append (NoEof.nil.cons (by simp [hcloser]))).cons (by simp [hopener]))
  | member _ _ hdot hname ih =>
    exact ih.append ((NoEof.nil.cons (by simp [hname])).cons (by simp [hdot]))
  | increment _ _ hop ih => exact ih.append (NoEof.nil.cons (by rcases hop with h | h <;> simp [h]))

end Frontend
