import Frontend.Proofs.Parse.Arrow
import Frontend.Proofs.Parse.Lines

/-!
# Expressions that end in a negative number

Behind an operator a negative number may be one token, or a minus and a number behind it. Either way the
same is read in front of it, so that two trees differ in the last operand only; or the number is too large,
and neither is read.
-/

namespace Frontend

variable {rule : Parse Node}
variable {more : List Token}

/-- A minus and a number behind it, and the two in one token. -/
structure Token.Opposed (minus number signed : Token) : Prop where
  isMinus : minus.kind = .op .minus
  isNumber : number.kind = .int
  isSigned : signed.kind = .int
  value : Decimal.readWord? signed.literal = (Decimal.readWord? number.literal).map (- ·)

/-- An expression tree without its last operand, and the tokens in front of that operand. There is room for
the operand to be nested in another one. The last number says how tightly the tree holds together. -/
inductive Node.Unfinished : Nat → (Node → Node) → List Token → Nat → Prop where
  | operand {depth : Nat} : Unfinished (depth + 2) id [] Binding.unary
  | binary {depth : Nat} {op : Token} {o : Operator} {l : Node} {fill : Node → Node} {left tokens : List Token}
      {bound : Nat} (hl : l.Written (depth + 1) left) (hop : op.kind = .op o) (hbinary : o.isBinary = true)
      (hr : Unfinished depth fill tokens bound) (hleft : Binding.ofOperator o ≤ l.level)
      (hright : Binding.ofOperator o < bound) :
      Unfinished (depth + 1) (fun n => .binary l op (fill n)) (left ++ op :: tokens) (Binding.ofOperator o)
  | assign {depth : Nat} {op : Token} {o : Operator} {l : Node} {fill : Node → Node} {left tokens : List Token}
      {bound : Nat} (hl : l.Written (depth + 1) left) (hop : op.kind = .op o)
      (hassignment : o.isAssignment = true) (hr : Unfinished depth fill tokens bound)
      (hassignable : l.isAssignable = true) :
      Unfinished (depth + 1) (fun n => .assign l op (fill n)) (left ++ op :: tokens) Binding.assign

/-- A name and an operator lack an operand. -/
theorem Node.exists_unfinished {name op : Token} {o : Operator} (hname : name.kind = .ident) (hop : op.kind = .op o)
    (ho : o.isBinary = true ∨ o.isAssignment = true) (depth : Nat) :
    ∃ fill bound, Node.Unfinished (depth + 3) fill [name, op] bound := by
  have hl : (Node.ident { token := name }).Written (depth + 3) [name] := .ident (.plain hname)
  rcases ho with ho | ho
  · have hlevel := Operator.level_of_isBinary ho
    have hcall : Binding.unary < Binding.call := by decide
    exact ⟨_, _, .binary hl hop ho .operand (Nat.le_of_lt (Nat.lt_trans hlevel.2 hcall)) hlevel.2⟩
  · exact ⟨_, _, .assign hl hop ho .operand rfl⟩

theorem Node.Unfinished.assign_le {depth bound : Nat} {fill : Node → Node} {tokens : List Token}
    (h : Node.Unfinished depth fill tokens bound) : Binding.assign ≤ bound := by
  cases h with
  | operand => decide
  | binary _ _ hbinary => exact Nat.le_of_lt (Operator.level_of_isBinary hbinary).1
  | assign => exact Nat.le_refl _

/-- A statement without its last operand, and the tokens in front of that operand: an expression, or the
definition of a name. -/
inductive Node.Opening : (Node → Node) → List Token → Prop where
  | expression {fill : Node → Node} {tokens : List Token} {bound : Nat}
      (h : Unfinished maxExpressionDepth fill tokens bound) : Opening fill tokens
  | definition {keyword name op : Token} {o : Operator} (hkeyword : keyword.kind = .keyword .varDef)
      (hname : name.kind = .ident) (hop : op.kind = .op o) (ho : o.isBinary = true ∨ o.isAssignment = true) :
      Opening (fun n => .varDef keyword [{ token := name }] [some n]) [keyword, name, op]

namespace Parse

variable {depth level bound : Nat} {s : ParseState} {rest tokens left : List Token} {l : Node} {op token : Token}
  {o : Operator} {minus number signed : Token} {fill : Node → Node}

/-- The operand in front of an operator is read, and goes on with the operator. -/
theorem expression_before_operator (hl : l.Written (depth + 1) left) (hs : s.Sound) (hop : op.kind = .op o)
    (ho : o.isBinary = true ∨ o.isAssignment = true) (hrule : continuation? (nested depth) l (.op o) = some rule)
    (hlevel : level < Binding.ofOperator o) (hhold : Binding.ofOperator o < l.level ∨
      Binding.ofOperator o = l.level ∧ Binding.ofOperator o ≠ Binding.assign)
    (hcall : Binding.ofOperator o < Binding.call) (more : List Token) :
    expression (depth + 1) level (s.before (left ++ op :: more)) =
      (rule >>= climb (nested depth) level) (s.before (op :: more)) := by
  obtain ⟨hstops, hname⟩ := stops_op s more hop ho
  have hfits : l.Fits level := by
    refine .inl (Nat.lt_of_lt_of_le hlevel ?_)
    exact hhold.elim Nat.le_of_lt fun he => Nat.le_of_eq he.1
  rw [climbs_written hl hs hfits (hstops.behind hname hcall hhold)]
  refine climb_continue (ready_of_sound (hs.before _)) (isNegativeNumber_op hop) ?_ ?_
  · rw [ParseState.next_before_cons, hop]
    exact hlevel
  · rw [ParseState.next_before_cons, hop]
    exact hrule

/-- The first token of an expression says by which rule it is read. -/
theorem expression_beginning (hrule : beginning? (nested depth) token.kind = some rule) :
    expression (depth + 1) level (s.before (token :: rest)) =
      (rule >>= climb (nested depth) level) (s.before (token :: rest)) := by
  have hexpression : expression (depth + 1) level = expressionWith (nested depth) level := rfl
  rw [hexpression]
  unfold expressionWith
  rw [peek_bind, ParseState.next_before_cons, hrule]

theorem expression_none (hrule : beginning? (nested depth) token.kind = some rule)
    (h : (rule (s.before (token :: rest))).1 = none) :
    (expression (depth + 1) level (s.before (token :: rest))).1 = none := by
  rw [expression_beginning hrule, bind_apply_none (Prod.ext h rfl)]

/-- A number that is too large is not read. -/
theorem expression_number_none (hkind : token.kind = .int) (hvalue : Decimal.readWord? token.literal = none) :
    (expression (depth + 1) level (s.before (token :: rest))).1 = none := by
  refine expression_none (by rw [hkind]; rfl) ?_
  unfold integer
  rw [advance_before, hvalue]
  rfl

/-- The last operand of two trees: the opposite of a number, in two ways. -/
def Opposites (minus number signed : Token) (fill : Node → Node) (n n' : Node) : Prop :=
  ∃ v, Decimal.readWord? number.literal = some v ∧ n = fill (.unary minus (.int number v)) ∧
    n' = fill (.int signed (-v))

/-- Results of two runs that differ in the last operand only, at the same place. -/
def Ends (minus number signed : Token) (fill : Node → Node) (s : ParseState) (n n' : Node) (t : ParseState) : Prop :=
  t = s ∧ Opposites minus number signed fill n n'

/-- Where right operands are read alike, so are the operations. -/
theorem agree_operation {make : Node → Node} {high : Nat}
    (hfront : ∀ more, expression (depth + 1) level (s.before (left ++ op :: more)) =
      (rule >>= climb (nested depth) level) (s.before (op :: more))) (htaken : ∀ more, rule (s.before (op :: more)) =
      (expression depth high >>= fun r => pure (make r)) (s.before more)) (hstops : (s.before rest).Stops level)
    (h : Agree (Ends minus number signed fill (s.before rest))
      (expression depth high (s.before (tokens ++ minus :: number :: rest)))
      (expression depth high (s.before (tokens ++ signed :: rest)))) :
    Agree (Ends minus number signed (fun n => make (fill n)) (s.before rest))
      (expression (depth + 1) level (s.before (left ++ op :: tokens ++ minus :: number :: rest)))
      (expression (depth + 1) level (s.before (left ++ op :: tokens ++ signed :: rest))) := by
  rw [List.append_assoc, List.append_assoc, List.cons_append, List.cons_append, hfront, hfront]
  refine .bind (R := Ends minus number signed (fun n => make (fill n)) (s.before rest)) ?_ ?_
    (fun n => keepsErrors_climb depth level n) (fun n => keepsErrors_climb depth level n)
  · rw [htaken, htaken]
    refine h.bind ?_ (fun _ _ h => h) (fun _ _ h => h)
    rintro n n' t ⟨ht, v, hv, rfl, rfl⟩
    exact .both ⟨ht, v, hv, rfl, rfl⟩
  · rintro n n' t ⟨rfl, hn⟩
    rw [climb_stop hstops, climb_stop hstops]
    exact .both ⟨rfl, hn⟩

/-- An expression that ends in a negative number is read alike, however the number is written. -/
theorem agree_expression (h : Node.Unfinished depth fill tokens bound) (hopposed : Token.Opposed minus number signed)
    (hs : s.Sound) (hlowest : Binding.lowest ≤ level) (hlevel : level < bound)
    (hstops : (s.before rest).Stops Binding.lowest) (hname : (s.before rest).EndsName) :
    Agree (Ends minus number signed fill (s.before rest))
      (expression depth level (s.before (tokens ++ minus :: number :: rest)))
      (expression depth level (s.before (tokens ++ signed :: rest))) := by
  have hends := hstops.mono hlowest
  have hnoted : ∀ more, Noted (s.before more) := fun more => (ready_of_sound (hs.before more)).errors
  induction h generalizing level with
  | @operand depth =>
    have hvalue := hopposed.value
    cases hread : Decimal.readWord? number.literal with
    | some v =>
      rw [hread] at hvalue
      have hnumber : (Node.int number v).Written (depth + 1) [number] := .leaf (.int hopposed.isNumber hread)
      have hboth : (Node.unary minus (.int number v)).Written (depth + 2) [minus, number] :=
        .unary hopposed.isMinus rfl hnumber (Nat.le_of_lt (by decide : Binding.unary < Binding.call))
      have hone : (Node.int signed (-v)).Written (depth + 2) [signed] := .leaf (.int hopposed.isSigned hvalue)
      have hfirst := Climbs.reads (climbs_written hboth) hboth hs (.inl hlevel) hends hname
      have hsecond := Climbs.reads (climbs_written hone) hone hs
        (.inl (Nat.lt_trans hlevel (by decide : Binding.unary < Binding.call))) hends hname
      rw [List.nil_append, List.nil_append]
      rw [List.cons_append, List.cons_append, List.nil_append] at hfirst
      rw [List.cons_append, List.nil_append] at hsecond
      rw [hfirst, hsecond]
      exact .both ⟨rfl, v, hread, rfl, rfl⟩
    | none =>
      rw [hread] at hvalue
      refine .faulty (speaks_expression _ _ hs.eof (hnoted _) ?_) (speaks_expression _ _ hs.eof (hnoted _) ?_)
      · have hinner : (expression (depth + 1) Binding.unary (s.before (number :: rest))).1 = none :=
          expression_number_none hopposed.isNumber hread
        refine expression_none (by rw [hopposed.isMinus]; rfl) ?_
        unfold unary
        rw [advance_before]
        exact congrArg Prod.fst (bind_apply_none (Prod.ext hinner rfl))
      · exact expression_number_none hopposed.isSigned hvalue
  | @binary depth op o l fill left tokens bound hl hop hbinary _ hleft hright ih =>
    obtain ⟨hlow, hhigh⟩ := Operator.level_of_isBinary hbinary
    have hkind : Binding.ofKind op.kind = Binding.ofOperator o := by rw [hop]; rfl
    have hoperand : Binding.lowest ≤ Binding.ofOperator o := Nat.le_of_lt (Nat.lt_trans (by decide) hlow)
    have hhold : Binding.ofOperator o < l.level ∨
        Binding.ofOperator o = l.level ∧ Binding.ofOperator o ≠ Binding.assign :=
      (Nat.lt_or_eq_of_le hleft).imp_right fun he => ⟨he, Nat.ne_of_gt hlow⟩
    refine agree_operation (expression_before_operator hl hs hop (.inl hbinary) (continuation_binary hbinary) hlevel
      hhold (Nat.lt_trans hhigh (by decide))) (fun more => ?_) hends (ih hoperand hright (hstops.mono hoperand))
    unfold binary
    rw [advance_before, hkind]
    rfl
  | @assign depth op o l fill left tokens bound hl hop hassignment hr hassignable ih =>
    have hoperator := ofOperator_assignment hassignment
    have hcall := Node.level_of_isAssignable hassignable
    refine agree_operation (expression_before_operator hl hs hop (.inr hassignment)
      (continuation_assignment hassignment) (hoperator ▸ hlevel) (.inl (by rw [hoperator, hcall]; decide))
      (by rw [hoperator]; decide)) (fun more => ?_) hends
      (ih (by decide : Binding.lowest ≤ Binding.assign - 1) (Nat.lt_of_lt_of_le (by decide) hr.assign_le)
        (hstops.mono (by decide)))
    unfold assignment
    rw [advance_before, if_pos hassignable]
    rfl

/-! ## Definitions -/

section
variable {sub : Nested} {keyword : Token} {name : Ident} {n value : Node} {t : ParseState}

theorem definitionsOf_assign (name : Ident) (op : Token) (value : Node) :
    definitionsOf [.assign (.ident name) op value] =
      if op.kind == .op .assign then .ok [(name, some value)] else .error (.assign (.ident name) op value) := by
  simp only [definitionsOf]
  split <;> rfl

theorem varDefinition_assign
    (h : sub.expression Binding.lowest (s.before rest) = (some (.assign (.ident name) op value), t))
    (hop : op.kind = .op .assign) :
    varDefinition sub (s.before (keyword :: rest)) = (some (.varDef keyword [name] [some value]), t) := by
  have hdefines : definitionsOf [.assign (.ident name) op value] = .ok [(name, some value)] := by
    rw [definitionsOf_assign, hop]
    rfl
  unfold varDefinition
  rw [advance_before, bind_apply_some h]
  dsimp only
  rw [hdefines]
  rfl

/-- An item that defines nothing is refused. -/
theorem varDefinition_faulty (h : sub.expression Binding.lowest (s.before rest) = (some n, t)) (ht : Noted t)
    (hsingle : ∀ items, n ≠ .parallel items) (herror : definitionsOf [n] = .error n) :
    (varDefinition sub (s.before (keyword :: rest))).2.errors ≠ [] := by
  have hrefused : varDefinition sub (s.before (keyword :: rest)) =
      (failNode n (.entry .invalidVarTarget [.text n.text]) : Parse Node) t := by
    unfold varDefinition
    rw [advance_before, bind_apply_some h]
    cases n with
    | parallel items => exact absurd rfl (hsingle items)
    | _ => dsimp only; rw [herror]
  rw [hrefused]
  exact failNode_faulty ht _ _

/-- An error in the value stays. -/
theorem varDefinition_keeps (h : (sub.expression Binding.lowest (s.before rest)).2.errors ≠ []) :
    (varDefinition sub (s.before (keyword :: rest))).2.errors ≠ [] := by
  unfold varDefinition
  rw [advance_before]
  refine bind_keeps (fun n t ht => ?_) _ h
  generalize hitems : definitionsOf _ = ds
  cases ds with
  | ok ds => exact ht
  | error n => exact failNode_faulty (noted_of_errors ht) _ _

end

/-- What is read of a name, an operator and an operand: a definition, if the operator is an assignment. -/
theorem exists_defined (keyword : Token) {name : Token} (hname : name.kind = .ident) (hop : op.kind = .op o)
    (ho : o.isBinary = true ∨ o.isAssignment = true) (sub : Nested) :
    ∃ fill bound, Node.Unfinished (depth + 3) fill [name, op] bound ∧
      ((∀ {n more t}, sub.expression Binding.lowest (s.before more) = (some (fill n), t) →
          varDefinition sub (s.before (keyword :: more)) = (some (.varDef keyword [{ token := name }] [some n]), t)) ∨
        ∀ {n more t}, sub.expression Binding.lowest (s.before more) = (some (fill n), t) → Noted t →
          (varDefinition sub (s.before (keyword :: more))).2.errors ≠ []) := by
  have hl : (Node.ident { token := name }).Written (depth + 3) [name] := .ident (.plain hname)
  rcases ho with ho | ho
  · have hlevel := Operator.level_of_isBinary ho
    have hcall : Binding.unary < Binding.call := by decide
    refine ⟨_, _, .binary hl hop ho .operand (Nat.le_of_lt (Nat.lt_trans hlevel.2 hcall)) hlevel.2, .inr ?_⟩
    intro n more t h ht
    exact varDefinition_faulty h ht (by simp) rfl
  · refine ⟨_, _, .assign hl hop ho .operand rfl, ?_⟩
    by_cases hassign : o = .assign
    · exact .inl fun h => varDefinition_assign h (by rw [hop, hassign])
    · refine .inr fun h ht => varDefinition_faulty h ht (by simp) ?_
      rw [definitionsOf_assign, hop, if_neg (by simpa using hassign)]

/-- A name behind the word that defines it, an operator and a number: the number is read alike, however it is
written, and nothing but an assignment defines the name. -/
theorem agree_definition {keyword name : Token} (hkeyword : keyword.kind = .keyword .varDef)
    (hname : name.kind = .ident) (hop : op.kind = .op o) (ho : o.isBinary = true ∨ o.isAssignment = true)
    (hopposed : Token.Opposed minus number signed) (hs : s.Sound) (hlowest : Binding.lowest ≤ level)
    (hstops : (s.before rest).Stops Binding.lowest) (hends : (s.before rest).EndsName) :
    Agree (Ends minus number signed (fun n => .varDef keyword [{ token := name }] [some n]) (s.before rest))
      (expression (depth + 4) level (s.before ([keyword, name, op] ++ minus :: number :: rest)))
      (expression (depth + 4) level (s.before ([keyword, name, op] ++ signed :: rest))) := by
  have hrule : beginning? (nested (depth + 3)) keyword.kind = some (varDefinition (nested (depth + 3))) := by
    rw [hkeyword]
    rfl
  have hnoted : Noted (s.before rest) := (ready_of_sound (hs.before rest)).errors
  obtain ⟨fill, bound, hunfinished, hdefined⟩ :=
    exists_defined (s := s) keyword hname hop ho (nested (depth + 3))
  have hvalue := agree_expression hunfinished hopposed hs (Nat.le_refl _)
    (Nat.lt_of_lt_of_le (by decide) hunfinished.assign_le) hstops hends
  have hread : Agree (Ends minus number signed (fun n => .varDef keyword [{ token := name }] [some n]) (s.before rest))
      (varDefinition (nested (depth + 3)) (s.before (keyword :: ([name, op] ++ minus :: number :: rest))))
      (varDefinition (nested (depth + 3)) (s.before (keyword :: ([name, op] ++ signed :: rest)))) := by
    generalize hrun : expression (depth + 3) Binding.lowest (s.before ([name, op] ++ minus :: number :: rest)) = r
      at hvalue
    generalize hrun' : expression (depth + 3) Binding.lowest (s.before ([name, op] ++ signed :: rest)) = r' at hvalue
    cases hvalue with
    | faulty h h' =>
      rw [← hrun] at h
      rw [← hrun'] at h'
      exact .faulty (varDefinition_keeps h) (varDefinition_keeps h')
    | both h =>
      obtain ⟨rfl, v, hv, rfl, rfl⟩ := h
      rcases hdefined with hdefined | hdefined
      · rw [hdefined hrun, hdefined hrun']
        exact .both ⟨rfl, v, hv, rfl, rfl⟩
      · exact .faulty (hdefined hrun hnoted) (hdefined hrun' hnoted)
  have hstart : ∀ more, expression (depth + 4) level (s.before ([keyword, name, op] ++ more)) =
      (varDefinition (nested (depth + 3)) >>= climb (nested (depth + 3)) level)
        (s.before (keyword :: ([name, op] ++ more))) := fun more => expression_beginning hrule
  rw [hstart, hstart]
  refine .bind (R := Ends minus number signed (fun n => .varDef keyword [{ token := name }] [some n])
    (s.before rest)) hread ?_ (fun n => keepsErrors_climb _ level n) (fun n => keepsErrors_climb _ level n)
  rintro n n' t ⟨rfl, hn⟩
  rw [climb_stop (hstops.mono hlowest), climb_stop (hstops.mono hlowest)]
  exact .both ⟨rfl, hn⟩

/-- A statement that ends in a negative number is read alike, however the number is written. -/
theorem agree_opening (h : Node.Opening fill tokens) (hopposed : Token.Opposed minus number signed) (hs : s.Sound)
    (hstops : (s.before rest).Stops Binding.lowest) (hname : (s.before rest).EndsName) :
    Agree (Ends minus number signed fill (s.before rest))
      (expression maxExpressionDepth Binding.lowest (s.before (tokens ++ minus :: number :: rest)))
      (expression maxExpressionDepth Binding.lowest (s.before (tokens ++ signed :: rest))) := by
  cases h with
  | expression h =>
    exact agree_expression h hopposed hs (Nat.le_refl _) (Nat.lt_of_lt_of_le (by decide) h.assign_le) hstops hname
  | definition hkeyword hident hop ho =>
    exact agree_definition hkeyword hident hop ho hopposed hs (Nat.le_refl _) hstops hname

/-! ## Programs -/

/-- A line break or the end of input continues nothing. -/
theorem stops_lineEnd (h : s.next.kind = .newline ∨ s.next.kind = .eof) : s.Stops Binding.lowest ∧ s.EndsName := by
  unfold ParseState.EndsName
  rcases h with hk | hk
  · exact ⟨⟨by simp [hk], by simp [Token.isNegativeNumber, hk], by rw [hk]; decide⟩,
      by simp [hk, TokenKind.isLabel]⟩
  · exact ⟨⟨by simp [hk], by simp [Token.isNegativeNumber, hk], by rw [hk]; decide⟩,
      by simp [hk, TokenKind.isLabel]⟩

theorem begins_opening (h : Node.Opening fill tokens) (hmore : Begins more) : Begins (tokens ++ more) := by
  cases h with
  | expression h =>
    cases h with
    | operand => exact hmore
    | binary hl => exact (hl.begins.append _).append _
    | assign hl => exact (hl.begins.append _).append _
  | definition hkeyword => exact ⟨_, _, rfl, by rw [hkeyword]; rfl⟩

variable {front behind : List Token} {pos : Position} {ns : List Node} {t u : ParseState}

/-- Behind a program that is read without errors. -/
theorem readsItems_behind (hends : EndsLine front) (h : ReadsItems (startAt front pos) ns t) (hclean : t.errors = [])
    (hmore : Begins more) {ms : List Node} (h' : ReadsItems (startAt more pos) ms u) :
    ∃ u', ReadsItems (startAt (front ++ more) pos) (ns ++ ms) u' ∧ u'.errors = u.errors := by
  have hfirst : Anew more := by
    rw [Anew, hmore.pastNewlines]
    obtain ⟨first, rest, rfl, hfirst⟩ := hmore
    obtain ⟨-, -, -, hchain⟩ := TokenKind.begins_ne hfirst
    rintro t ⟨⟩
    exact ⟨fun he => (hchain _ he).2 rfl, fun he => (hchain _ he).1 rfl⟩
  obtain ⟨u', hreads, herrors⟩ := h.join Position.moves_id hends hfirst hclean h'
  rw [Token.map_moved_id, Node.map_moved_id] at hreads
  exact ⟨u', hreads, eq_of_movesTo_id herrors⟩

end Parse

namespace Program

open Parse

variable {fill : Node → Node} {front tokens behind : List Token} {minus number signed : Token} {pos : Position}

/-- Behind a program without errors, a statement that ends in a negative number is read alike, however the
number is written. -/
theorem ofTokens_ending (hfront : NoEof front) (hends : EndsLine front)
    (hclean : (ofTokens (front ++ [Token.eof pos])).errors = [])
    (h : Node.Opening fill tokens) (hopposed : Token.Opposed minus number signed)
    (htokens : NoEof tokens) (hbehind : NoEof behind) (hline : ∀ t ∈ behind.head?, t.kind = .newline) :
    ((ofTokens (front ++ (tokens ++ minus :: number :: behind) ++ [Token.eof pos])).errors ≠ [] ∧
      (ofTokens (front ++ (tokens ++ signed :: behind) ++ [Token.eof pos])).errors ≠ []) ∨
    ∃ n n' more, Opposites minus number signed fill n n' ∧
      (ofTokens (front ++ (tokens ++ minus :: number :: behind) ++ [Token.eof pos])).errors =
        (ofTokens (front ++ (tokens ++ signed :: behind) ++ [Token.eof pos])).errors ∧
      (ofTokens (front ++ (tokens ++ minus :: number :: behind) ++ [Token.eof pos])).program.body =
        (ofTokens (front ++ [Token.eof pos])).program.body ++ n :: more ∧
      (ofTokens (front ++ (tokens ++ signed :: behind) ++ [Token.eof pos])).program.body =
        (ofTokens (front ++ [Token.eof pos])).program.body ++ n' :: more := by
  have hsound : (startAt [] pos).Sound := ⟨rfl, rfl, rfl, rfl⟩
  have hnext : ((startAt [] pos).before behind).next.kind = .newline ∨
      ((startAt [] pos).before behind).next.kind = .eof := by
    cases behind with
    | nil => exact .inr rfl
    | cons t behind => exact .inl (hline t rfl)
  obtain ⟨hstops, hname⟩ := stops_lineEnd hnext
  have hagree := agree_opening h hopposed hsound hstops hname
  have hboth : Begins (tokens ++ minus :: number :: behind) :=
    begins_opening h ⟨_, _, rfl, by rw [hopposed.isMinus]; rfl⟩
  have hone : Begins (tokens ++ signed :: behind) := begins_opening h ⟨_, _, rfl, by rw [hopposed.isSigned]; rfl⟩
  -- what stands in front is read as if it stood alone
  obtain ⟨ms, t, hfirst⟩ := exists_readsItems (show Parse.Ready False (startAt front pos) from ready_startAt False.elim)
  obtain ⟨hbody, herrors⟩ := ofTokens_of_reads hfront hfirst
  rw [herrors, List.reverse_eq_nil_iff] at hclean
  have hall : ∀ {x : List Token} {ns : List Node} {u : ParseState}, Begins x → NoEof x →
      ReadsItems (startAt x pos) ns u →
      (ofTokens (front ++ x ++ [Token.eof pos])).program.body = (ofTokens (front ++ [Token.eof pos])).program.body ++ ns ∧
        (ofTokens (front ++ x ++ [Token.eof pos])).errors = u.errors.reverse := by
    intro x ns u hx hnoEof hreads
    obtain ⟨u', hboth, hsame⟩ := readsItems_behind hends hfirst hclean hx hreads
    obtain ⟨hbody', herrors'⟩ := ofTokens_of_reads (hfront.append hnoEof) hboth
    rw [hbody', hbody, herrors', hsame]
    exact ⟨rfl, rfl⟩
  have hnoEof : NoEof (tokens ++ minus :: number :: behind) :=
    htokens.append ((hbehind.cons (by simp [hopposed.isNumber])).cons (by simp [hopposed.isMinus]))
  have hnoEof' : NoEof (tokens ++ signed :: behind) := htokens.append (hbehind.cons (by simp [hopposed.isSigned]))
  obtain ⟨hended, hat⟩ := atItem_before hsound hboth
  obtain ⟨hended', hat'⟩ := atItem_before hsound hone
  rw [← hat, ← hat'] at hagree
  have hready : ∀ x, Parse.Ready False ((startAt [] pos).before x) := fun x => ready_of_sound (hsound.before x)
  rcases readsItems_of_agree (hready _) (hready _) hended hended' hagree with
    ⟨ns, u, ns', u', hreads, hu, hreads', hu'⟩ | ⟨n, n', t, more, u, ⟨-, hn⟩, hreads, hreads'⟩
  · refine .inl ⟨?_, ?_⟩
    · rw [(hall hboth hnoEof hreads).2, Ne, List.reverse_eq_nil_iff]
      exact hu
    · rw [(hall hone hnoEof' hreads').2, Ne, List.reverse_eq_nil_iff]
      exact hu'
  · obtain ⟨hbody, herrors⟩ := hall hboth hnoEof hreads
    obtain ⟨hbody', herrors'⟩ := hall hone hnoEof' hreads'
    exact .inr ⟨n, n', more, hn, herrors.trans herrors'.symm, hbody, hbody'⟩

end Program

end Frontend
