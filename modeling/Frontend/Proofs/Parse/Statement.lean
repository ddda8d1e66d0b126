import Frontend.Proofs.Parse.Program

/-!
# Statements are read as they are written

Blocks, branches, loops and functions are read as they are written, but for one thing: a block that stands
alone in braces is taken apart, so that the outer braces hold the statements of the inner ones. Nothing else
about the structure of blocks is lost.
-/

namespace Frontend

variable {labels : List Label} {name : Ident} {labelTokens headTokens : List Token} {ps : List Param}

/-! ## What braces are read to hold -/

/-- Items that stand alone between braces and are taken apart: a block, or expressions with commas. -/
def Node.isCompound : Node → Bool
  | .block _ | .parallel _ => true
  | _ => false

/-- The items of braces: a single compound item is taken apart. -/
def unwrapped : List Node → List Node
  | [n] => Node.itemsOf (some n)
  | ns => ns

theorem unwrapped_eq_self {ns : List Node} (h : ∀ n, ns = [n] → n.isCompound = false) : unwrapped ns = ns := by
  unfold unwrapped
  split
  next n =>
    have hn := h n rfl
    cases n <;> first | rfl | cases hn
  · rfl

mutual
/-- A statement as it is read: in all braces a single compound item is taken apart. -/
def Node.collapsed : Node → Node
  | .block b => .block b.collapsed
  | .branch tests otherwise => .branch (Condition.collapsedAll tests) (Block.collapsed? otherwise)
  | .whileLoop token test body => .whileLoop token test body.collapsed
  | .funDef token name params labels body arrow => .funDef token name params labels body.collapsed arrow
  | n => n

/-- Statements as they are read. -/
def Node.collapsedAll : List Node → List Node
  | [] => []
  | n :: ns => n.collapsed :: Node.collapsedAll ns

def Block.collapsed : Block → Block
  | .mk opener closer items => .mk opener closer (unwrapped (Node.collapsedAll items))

/-- What to do otherwise, as it is read. -/
def Block.collapsed? : Option Block → Option Block
  | none => none
  | some b => some b.collapsed

/-- Tests of a branch as they are read. -/
def Condition.collapsedAll : List Condition → List Condition
  | [] => []
  | .mk keyword test body :: cs => .mk keyword test body.collapsed :: Condition.collapsedAll cs
end

@[simp] theorem Node.collapsedAll_eq (ns : List Node) : Node.collapsedAll ns = ns.map Node.collapsed := by
  induction ns with
  | nil => rfl
  | cons n ns ih => rw [Node.collapsedAll, ih, List.map_cons]

/-! ## Statements and the tokens they are written with -/

open Parse

/-- One expression, or several with commas between them: the node, the expressions and the tokens. -/
inductive Node.Listed : Nat → Node → List Node → List Token → Prop where
  | mk {depth : Nat} {first : Node} {firstTokens : List Token} {more : List CommaItem}
      (hfirst : first.Written (depth + 1) firstTokens) (hcommas : ∀ i ∈ more, i.comma.kind = .comma)
      (hmore : ∀ i ∈ more, i.node.Written depth i.tokens) :
      Listed (depth + 1) (argumentItem first more) (first :: more.map CommaItem.node)
        (firstTokens ++ commaTokens more)

/-- A test in parentheses. -/
inductive Node.Tested : Nat → Node → List Token → Prop where
  | mk {depth : Nat} {test : Node} {opener closer : Token} {tokens : List Token}
      (hopener : opener.kind = .opening .paren) (htest : test.Written depth tokens)
      (hcloser : closer.kind = .closing .paren) : Tested depth test (opener :: (tokens ++ [closer]))

/-- The name of a function and its parameters in parentheses. -/
inductive FunctionHead : Nat → Ident → List Param → List Token → Prop where
  | mk {depth : Nat} {opener closer : Token} {name : Ident} {args : List Node} {params : List Param}
      {tokens : List Token} (h : (Node.call (.ident name) opener closer args).Written depth tokens)
      (hname : name.labels = []) (hparams : paramsOf args false false = .ok params) :
      FunctionHead depth name params tokens

/-- The labels of a function, behind a colon, if there are any. -/
inductive FunctionLabels : List Label → List Token → Prop where
  | none : FunctionLabels [] []
  | some {colon : Token} {labels : List Label} {tokens : List Token} (hcolon : colon.kind = .op .colon)
      (h : LabelsWritten labels tokens) : FunctionLabels labels (colon :: tokens)

/-- A statement of one word. -/
inductive Node.Word : Node → Token → Prop where
  | pass {t : Token} (h : t.kind = .keyword .pass) : Word (.pass t) t
  | breakOut {t : Token} (h : t.kind = .keyword .breakOut) : Word (.breakOut t) t
  | continueOn {t : Token} (h : t.kind = .keyword .continueOn) : Word (.continueOn t) t
  | returnFrom {t : Token} (h : t.kind = .keyword .returnFrom) : Word (.returnFrom t none) t

mutual
/-- A statement with the tokens that it is written with, such that reading them is nested no deeper than the
given number of expressions. If the statement is `plain`, no braces hold a single compound item. -/
inductive Node.Stated (plain : Prop) : Nat → Node → List Token → Prop where
  | expression {depth : Nat} {n : Node} {ns : List Node} {tokens : List Token}
      (h : n.Listed depth ns tokens) : Node.Stated plain depth n tokens
  | word {depth : Nat} {n : Node} {t : Token} (h : n.Word t) : Node.Stated plain (depth + 1) n [t]
  | returnFrom {depth : Nat} {token : Token} {n : Node} {ns : List Node} {tokens : List Token}
      (htoken : token.kind = .keyword .returnFrom) (h : n.Listed depth ns tokens) :
      Node.Stated plain (depth + 1) (.returnFrom token (some n)) (token :: tokens)
  | varDef {depth : Nat} {token : Token} {n : Node} {ns : List Node} {tokens : List Token}
      {definitions : List (Ident × Option Node)} (htoken : token.kind = .keyword .varDef)
      (h : n.Listed depth ns tokens) (hdefinitions : definitionsOf ns = .ok definitions) :
      Node.Stated plain (depth + 1)
        (.varDef token (definitions.map Prod.fst) (definitions.map Prod.snd)) (token :: tokens)
  | importFile {depth : Nat} {token path : Token} (htoken : token.kind = .keyword .importFile)
      (hpath : path.kind = .str) : Node.Stated plain (depth + 1) (.importFile token path) [token, path]
  | classDecl {depth : Nat} {token : Token} {name : Ident} {tokens : List Token}
      (htoken : token.kind = .keyword .classDef) (hname : name.Written tokens) :
      Node.Stated plain (depth + 1) (.classDecl token name) (token :: tokens)
  | funDecl {depth : Nat} {token : Token} {name : Ident} {params : List Param} {labels : List Label}
      {headTokens labelTokens : List Token} (htoken : token.kind = .keyword .funDef)
      (hhead : FunctionHead depth name params headTokens) (hlabels : FunctionLabels labels labelTokens) :
      Node.Stated plain (depth + 1) (.funDecl token name params labels) (token :: (headTokens ++ labelTokens))
  | block {depth : Nat} {b : Block} {tokens : List Token} (h : b.Stated plain depth tokens)
      (hne : b.items ≠ []) (hlist : ∀ ns, b.items ≠ [.parallel ns]) :
      Node.Stated plain (depth + 1) (.block b) tokens
  | branch {depth : Nat} {token : Token} {test : Node} {body : Block} {conditions : List Condition}
      {otherwise : Option Block} {testTokens bodyTokens more : List Token}
      (htoken : token.kind = .keyword .ifTest) (htest : test.Tested depth testTokens)
      (hbody : body.Stated plain depth bodyTokens) (hmore : Tests plain depth conditions otherwise more) :
      Node.Stated plain (depth + 1) (.branch (.mk token test body :: conditions) otherwise)
        (token :: (testTokens ++ (bodyTokens ++ more)))
  | whileLoop {depth : Nat} {token : Token} {test : Node} {body : Block} {testTokens bodyTokens : List Token}
      (htoken : token.kind = .keyword .whileLoop) (htest : test.Tested depth testTokens)
      (hbody : body.Stated plain depth bodyTokens) :
      Node.Stated plain (depth + 1) (.whileLoop token test body) (token :: (testTokens ++ bodyTokens))
  | funDef {depth : Nat} {token : Token} {name : Ident} {params : List Param} {labels : List Label}
      {body : Block} {headTokens labelTokens bodyTokens : List Token} (htoken : token.kind = .keyword .funDef)
      (hhead : FunctionHead depth name params headTokens)
      (hlabels : FunctionLabels labels labelTokens) (hbody : body.Stated plain depth bodyTokens) :
      Node.Stated plain (depth + 1) (.funDef token name params labels body false)
        (token :: (headTokens ++ (labelTokens ++ bodyTokens)))
/-- A block with the tokens that it is written with. -/
inductive Block.Stated (plain : Prop) : Nat → Block → List Token → Prop where
  | mk {depth : Nat} {opener closer : Token} {items : List LaidItem} {breaks : List Token}
      (hopener : opener.kind = .opening .brace) (hlines : OnLines items)
      (hitems : ∀ i ∈ items, i.node.Stated plain depth i.tokens) (hbreaks : LineEnd breaks)
      (hcloser : closer.kind = .closing .brace)
      (hplain : plain → ∀ n, items.map LaidItem.node = [n] → n.isCompound = false) :
      Block.Stated plain depth (.mk opener closer (items.map LaidItem.node))
        (opener :: (lineTokens items ++ (breaks ++ [closer])))
/-- The further tests of a branch, which may begin on later lines, with what to do when none holds. -/
inductive Tests (plain : Prop) : Nat → List Condition → Option Block → List Token → Prop where
  | none {depth : Nat} : Tests plain depth [] none []
  | otherwise {depth : Nat} {token : Token} {body : Block} {breaks bodyTokens : List Token}
      (hbreaks : LineEnd breaks) (htoken : token.kind = .keyword .elseCase)
      (hbody : body.Stated plain depth bodyTokens) :
      Tests plain depth [] (some body) (breaks ++ token :: bodyTokens)
  | elif {depth : Nat} {token : Token} {test : Node} {body : Block} {conditions : List Condition}
      {otherwise : Option Block} {breaks testTokens bodyTokens more : List Token} (hbreaks : LineEnd breaks)
      (htoken : token.kind = .keyword .elifTest) (htest : test.Tested depth testTokens)
      (hbody : body.Stated plain depth bodyTokens) (hmore : Tests plain depth conditions otherwise more) :
      Tests plain depth (.mk token test body :: conditions) otherwise
        (breaks ++ token :: (testTokens ++ (bodyTokens ++ more)))
end

/-! ## Parts of statements -/

section
variable {depth : Nat} {n : Node} {ns : List Node} {token opener closer : Token} {tokens rest : List Token}
  {s : ParseState}

theorem Node.Written.collapsed_eq (h : n.Written depth tokens) : n.collapsed = n ∧ n.isCompound = false := by
  cases h with
  | leaf h => cases h <;> exact ⟨rfl, rfl⟩
  | _ => exact ⟨rfl, rfl⟩

/-- An item that is read by the rule for its first token. -/
theorem readsItem_rule {rule : Parse Node} (hbegins : token.kind.begins = true)
    (hrule : beginning? (nested depth) token.kind = some rule)
    (hread : ∀ {s : ParseState} {rest : List Token}, s.Sound → (s.before rest).EndsItem →
      rule (s.before (token :: (tokens ++ rest))) = (some n, s.before rest)) :
    ReadsItem (nested (depth + 1)) n (token :: tokens) where
  begins := ⟨token, tokens, rfl, hbegins⟩
  reads := fun hs hends => (expression_begin hrule (hread hs hends)).trans (climb_stop hends.stops.1)

namespace Node.Listed

section
variable (h : n.Listed depth ns tokens)
include h

theorem readsItem : ReadsItem (nested depth) n tokens := by
  cases h with
  | mk hfirst hcommas hmore =>
    exact readsItem_arguments hfirst (climbs_written hfirst) hcommas hmore fun i hi => climbs_written (hmore i hi)

theorem noEof : NoEof tokens := by
  cases h with
  | mk hfirst hcommas hmore =>
    exact hfirst.noEof.append (noEof_commaTokens hcommas fun i hi => (hmore i hi).noEof)

/-- It is a list, or else the only expression. -/
theorem cases : n = .parallel ns ∨ ns = [n] ∧ n.collapsed = n ∧
    n.isCompound = false ∧ isPair n = false := by
  cases h with
  | @mk _ first _ more hfirst =>
    cases more with
    | nil =>
      refine .inr ⟨rfl, hfirst.collapsed_eq.1, hfirst.collapsed_eq.2, ?_⟩
      cases hfirst with
      | leaf h => cases h <;> rfl
      | _ => rfl
    | cons i more => exact .inl rfl

end

end Node.Listed

theorem Node.Tested.noEof (h : n.Tested depth tokens) : NoEof tokens := by
  cases h with
  | mk hopener htest hcloser =>
    exact (htest.noEof.append (NoEof.nil.cons (by simp [hcloser]))).cons (by simp [hopener])

/-- A test is read. -/
theorem testOf_tested (h : n.Tested depth tokens) (hs : s.Sound) :
    testOf (nested depth) token (s.before (tokens ++ rest)) = (some n, s.before rest) := by
  cases h with
  | @mk opener closer inside hopener htest hcloser =>
    have hgroup : group (nested depth) .paren (s.before (opener :: (inside ++ closer :: rest))) =
        (some (Group.ofItems opener closer .paren [n]), s.before rest) :=
      group_single hs (Climbs.readsItem (climbs_written htest) htest) hcloser
    have htokens : opener :: (inside ++ [closer]) ++ rest = opener :: (inside ++ closer :: rest) := by simp
    have hitems : (Group.ofItems opener closer .paren [n]).items = [n] := by
      have hn := htest.collapsed_eq.2
      cases n <;> first | rfl | cases hn
    unfold testOf
    rw [htokens, peek_bind, ParseState.next_before_cons, if_pos (by simp [hopener]), bind_apply_some hgroup, hitems]
    rfl

theorem FunctionLabels.noEof (h : FunctionLabels labels tokens) : NoEof tokens := by
  cases h with
  | none => exact .nil
  | some hcolon h => exact h.noEof.cons (by simp [hcolon])

/-- What stands behind the head and the labels of a function: its body or the end of the item. -/
def ParseState.EndsHead (s : ParseState) : Prop := s.next.kind = .opening .brace ∨ s.EndsItem

theorem ParseState.EndsHead.stops (h : s.EndsHead) : s.Stops Binding.pair ∧ s.EndsName ∧
    s.next.kind ≠ .opening .square := by
  rcases h with h | h
  · refine ⟨⟨by simp [h], by simp [Token.isNegativeNumber, h], by rw [h]; decide⟩, ⟨?_, ?_⟩, ?_⟩ <;>
      simp [h, TokenKind.isLabel]
  · refine ⟨h.stops.1.mono (by decide), h.stops.2, fun he => ?_⟩
    rcases h.next with hk | hk | hk <;> rw [he] at hk <;> cases hk

/-- The labels of a function are read. -/
theorem functionLabels_written (h : FunctionLabels labels tokens) (hends : (s.before rest).EndsHead) :
    functionLabels (s.before (tokens ++ rest)) = (some labels, s.before rest) := by
  obtain ⟨-, ⟨hcolon, hlabel⟩, hsquare⟩ := hends.stops
  unfold functionLabels
  cases h with
  | none =>
    rw [List.nil_append, accept_other hcolon]
    rfl
  | some hcolon' h =>
    rw [List.cons_append, accept_before hcolon', if_pos rfl]
    exact labels_written h hlabel hsquare

/-- In front of the labels or of what follows them, the head of a function is read. -/
theorem head_written {args : List Node} (hhead : (Node.call (.ident name) opener closer args).Written depth tokens)
    (hlabels : FunctionLabels labels labelTokens) (hends : (s.before rest).EndsHead) (hs : s.Sound) :
    (nested depth).expression Binding.pair (s.before (tokens ++ (labelTokens ++ rest))) =
      (some (.call (.ident name) opener closer args), s.before (labelTokens ++ rest)) := by
  have hfits : (Node.call (.ident name) opener closer args).Fits Binding.pair :=
    .inl (show Binding.pair < Binding.call by decide)
  have hclimbs : Climbs depth _ tokens := climbs_written hhead
  have hstops : (s.before (labelTokens ++ rest)).Stops Binding.pair := by
    cases hlabels with
    | none => exact hends.stops.1
    | some hcolon =>
      refine ⟨?_, ?_, ?_⟩ <;> rw [List.cons_append, ParseState.next_before_cons]
      · simp [hcolon]
      · rw [Token.isNegativeNumber, hcolon]
      · rw [hcolon]; decide
  exact (hclimbs hs hfits trivial).trans (climb_stop hstops)

end

/-! ## Blocks -/

section
variable {depth : Nat} {n : Node} {b : Block} {tokens rest : List Token} {s s' : ParseState}

/-- A statement is read. -/
structure Node.Read (plain : Prop) (depth : Nat) (n : Node) (tokens : List Token) : Prop where
  reads : ReadsItem (nested depth) n.collapsed tokens
  noEof : NoEof tokens
  plain : plain → n.collapsed = n
  pair : isPair n.collapsed = false
  parallel : ∀ ns, n.collapsed = .parallel ns → n = .parallel ns
  block : ∀ b, n.collapsed = .block b → b.items ≠ []

/-- A block is read. -/
structure Block.Read (plain : Prop) (depth : Nat) (b : Block) (tokens : List Token) : Prop where
  opens : ∃ opener more, tokens = opener :: more ∧ opener.kind = .opening .brace
  reads : ∀ {s : ParseState} {rest : List Token}, s.Sound →
    group (nested depth) .brace (s.before (tokens ++ rest)) =
      (some (Group.ofItems b.opener b.closer .brace (b.items.map Node.collapsed)), s.before rest)
  items : ∀ n ∈ b.items, isPair n.collapsed = false ∧ (∀ ns, n.collapsed = .parallel ns → n = .parallel ns) ∧
    ∀ b, n.collapsed = .block b → b.items ≠ []
  noEof : NoEof tokens
  plain : plain → b.collapsed = b

theorem Group.toBlock_ofItems (opener closer : Token) (bracket : Bracket) (ns : List Node) :
    (Group.ofItems opener closer bracket ns).toBlock = .mk opener closer (unwrapped ns) := by
  cases ns with
  | nil => rfl
  | cons n ns => cases ns <;> rfl

theorem Block.collapsed_eq (b : Block) :
    b.collapsed = .mk b.opener b.closer (unwrapped (b.items.map Node.collapsed)) := by
  cases b
  rw [Block.collapsed, Node.collapsedAll_eq]
  rfl

theorem Block.Read.block {plain : Prop} (h : b.Read plain depth tokens) (hs : s.Sound) :
    Parse.block (nested depth) (s.before (tokens ++ rest)) = (some b.collapsed, s.before rest) := by
  have hread : Parse.group (nested depth) .brace (s.before (tokens ++ rest)) = _ := h.reads hs
  obtain ⟨opener, more, rfl, hopener⟩ := h.opens
  unfold Parse.block
  rw [peek_bind, List.cons_append, ParseState.next_before_cons, if_pos (by simp [hopener])]
  rw [List.cons_append] at hread
  rw [bind_apply_some hread, Group.toBlock_ofItems, ← Block.collapsed_eq]
  rfl

/-- Items between braces that are statements: none is an entry of a dictionary, and they are no single list. -/
structure Statements (ns : List Node) : Prop where
  ne_nil : ns ≠ []
  pair : ∀ n ∈ ns, isPair n = false
  block : ∀ b, .block b ∈ ns → b.items ≠ []
  list : ∀ ms, ns ≠ [.parallel ms]

theorem Statements.unwrapped_ne_nil {ns : List Node} (h : Statements ns) : unwrapped ns ≠ [] := by
  match ns, h with
  | [], h => exact absurd rfl h.ne_nil
  | [n], h =>
    cases n with
    | block b => exact h.block b List.mem_cons_self
    | parallel ms => exact absurd rfl (h.list ms)
    | _ => exact List.cons_ne_nil _ _
  | _ :: _ :: _, _ => exact List.cons_ne_nil _ _

/-- Statements between braces make a block. -/
theorem Statements.braces {ns : List Node} (h : Statements ns) {opener closer : Token}
    (hgroup : group (nested depth) .brace s = (some (Group.ofItems opener closer .brace ns), s')) :
    Parse.braces (nested depth) s = (some (.block (.mk opener closer (unwrapped ns))), s') := by
  have hitems : (Group.ofItems opener closer .brace ns).items = unwrapped ns := by
    have hblock := Group.toBlock_ofItems opener closer .brace ns
    injection hblock
  unfold Parse.braces
  rw [bind_apply_some hgroup, Group.toBlock_ofItems, hitems]
  match ns, h with
  | [], h => exact absurd rfl h.ne_nil
  | [n], h =>
    have hpair : isPair n = false := h.pair n List.mem_cons_self
    cases n with
    | block b =>
      have hb : b.items ≠ [] := h.block b List.mem_cons_self
      rw [if_neg (by simpa [unwrapped, Node.itemsOf] using hb)]
      rfl
    | parallel ms => exact absurd rfl (h.list ms)
    | pair => cases hpair
    | _ => rfl
  | _ :: _ :: _, _ => rfl

theorem Block.Read.statements {plain : Prop} (h : b.Read plain depth tokens) (hne : b.items ≠ [])
    (hlist : ∀ ns, b.items ≠ [.parallel ns]) : Statements (b.items.map Node.collapsed) := by
  refine ⟨by simpa using hne, ?_, ?_, ?_⟩
  · exact List.forall_mem_map.mpr fun n hn => (h.items n hn).1
  · intro c hc
    obtain ⟨n, hn, he⟩ := List.mem_map.mp hc
    exact (h.items n hn).2.2 c he
  · intro ms he
    obtain ⟨n, hn, hms⟩ := List.map_eq_singleton_iff.mp he
    exact hlist ms (hn.trans (by rw [(h.items n (by simp [hn])).2.1 ms hms]))

/-- Braces that hold statements are a block. -/
theorem Block.Read.braces {plain : Prop} (h : b.Read plain depth tokens) (hne : b.items ≠ [])
    (hlist : ∀ ns, b.items ≠ [.parallel ns]) (hs : s.Sound) :
    Parse.braces (nested depth) (s.before (tokens ++ rest)) = (some (.block b.collapsed), s.before rest) := by
  have hgroup : group (nested depth) .brace (s.before (tokens ++ rest)) =
      (some (Group.ofItems b.opener b.closer .brace (b.items.map Node.collapsed)), s.before rest) := h.reads hs
  rw [Block.collapsed_eq]
  exact (h.statements hne hlist).braces hgroup

end

/-! ## Statements -/

section
variable {plain : Prop} {depth : Nat} {n : Node} {ns : List Node} {body : Block} {conditions : List Condition}
  {otherwise : Option Block} {token : Token} {tokens bodyTokens testTokens rest : List Token} {s : ParseState}

/-- What is read as it is, and is no block and no entry of a dictionary. -/
theorem Node.Read.same (hreads : ReadsItem (nested depth) n tokens) (hnoEof : NoEof tokens)
    (hsame : n.collapsed = n) (hpair : isPair n = false) (hblock : ∀ b, n ≠ .block b) :
    n.Read plain depth tokens where
  reads := hsame.symm ▸ hreads
  noEof := hnoEof
  plain := fun _ => hsame
  pair := hsame.symm ▸ hpair
  parallel := fun _ h => hsame ▸ h
  block := fun b h => absurd (hsame ▸ h) (hblock b)

theorem Node.Listed.read (h : n.Listed depth ns tokens) : n.Read plain depth tokens := by
  rcases h.cases with rfl | ⟨-, hsame, hcompound, hpair⟩
  · exact .same h.readsItem h.noEof rfl rfl nofun
  · refine .same h.readsItem h.noEof hsame hpair fun b hb => ?_
    rw [hb] at hcompound
    cases hcompound

theorem atItemEnd_bind (f : Bool → Parse Node) :
    (atItemEnd >>= f) s = f (s.next.kind == .newline || s.next.kind == .eof || s.next.kind.isClosing) s := rfl

theorem Node.Word.read (h : n.Word token) : n.Read plain (depth + 1) [token] := by
  cases h with
  | pass hk =>
    refine .same (readsItem_rule (by rw [hk]; rfl) (by rw [hk]; rfl) fun _ _ => rfl) ?_ rfl rfl nofun
    exact NoEof.nil.cons (by simp [hk])
  | breakOut hk =>
    refine .same (readsItem_rule (by rw [hk]; rfl) (by rw [hk]; rfl) fun _ _ => rfl) ?_ rfl rfl nofun
    exact NoEof.nil.cons (by simp [hk])
  | continueOn hk =>
    refine .same (readsItem_rule (by rw [hk]; rfl) (by rw [hk]; rfl) fun _ _ => rfl) ?_ rfl rfl nofun
    exact NoEof.nil.cons (by simp [hk])
  | returnFrom hk =>
    refine .same (readsItem_rule (by rw [hk]; rfl) (by rw [hk]; rfl) fun _ hends => ?_) ?_ rfl rfl nofun
    · change Parse.returnFrom (nested depth) _ = _
      unfold Parse.returnFrom
      rw [List.nil_append, advance_before, atItemEnd_bind, if_pos (by simpa [or_assoc] using hends.next)]
      rfl
    · exact NoEof.nil.cons (by simp [hk])

/-- An expression does not begin where an item ends. -/
theorem atItemEnd_begins (h : Begins tokens) (f : Bool → Parse Node) :
    (atItemEnd >>= f) (s.before (tokens ++ rest)) = f false (s.before (tokens ++ rest)) := by
  obtain ⟨t, more, rfl, ht⟩ := h
  obtain ⟨hnewline, heof, hclosing, -⟩ := TokenKind.begins_ne ht
  rw [atItemEnd_bind, List.cons_append, ParseState.next_before_cons, beq_false_of_ne hnewline,
    beq_false_of_ne heof, hclosing]
  rfl

theorem read_returnFrom (htoken : token.kind = .keyword .returnFrom) (h : n.Listed depth ns tokens) :
    (Node.returnFrom token (some n)).Read plain (depth + 1) (token :: tokens) := by
  have hitem := h.readsItem
  refine .same (readsItem_rule (by rw [htoken]; rfl) (by rw [htoken]; rfl) fun hs hends => ?_)
    (h.noEof.cons (by simp [htoken])) rfl rfl nofun
  change Parse.returnFrom (nested depth) _ = _
  unfold Parse.returnFrom
  rw [advance_before, atItemEnd_begins hitem.begins, if_neg Bool.false_ne_true,
    bind_apply_some (hitem.reads hs hends)]
  rfl

theorem read_varDef {definitions : List (Ident × Option Node)} (htoken : token.kind = .keyword .varDef)
    (h : n.Listed depth ns tokens) (hdefinitions : definitionsOf ns = .ok definitions) :
    (Node.varDef token (definitions.map Prod.fst) (definitions.map Prod.snd)).Read plain (depth + 1)
      (token :: tokens) := by
  have hitem := h.readsItem
  refine .same (readsItem_rule (by rw [htoken]; rfl) (by rw [htoken]; rfl) fun hs hends => ?_)
    (h.noEof.cons (by simp [htoken])) rfl rfl nofun
  change varDefinition (nested depth) _ = _
  unfold varDefinition
  rw [advance_before, bind_apply_some (hitem.reads hs hends)]
  rcases h.cases with rfl | ⟨rfl, -, hcompound, -⟩
  · dsimp only
    rw [hdefinitions]
    rfl
  · cases n <;> first | (cases hcompound; done) | (dsimp only; rw [hdefinitions]; rfl)

theorem read_block {b : Block} (h : b.Read plain depth tokens) (hne : b.items ≠ [])
    (hlist : ∀ ns, b.items ≠ [.parallel ns]) : (Node.block b).Read plain (depth + 1) tokens where
  reads := by
    obtain ⟨opener, more, rfl, hopener⟩ := h.opens
    refine readsItem_rule (by rw [hopener]; rfl) (by rw [hopener]; rfl) fun hs _ => ?_
    exact h.braces hne hlist hs
  noEof := h.noEof
  plain := fun hp => congrArg Node.block (h.plain hp)
  pair := rfl
  parallel := nofun
  block := by
    rintro _ ⟨⟩
    rw [Block.collapsed_eq]
    exact (h.statements hne hlist).unwrapped_ne_nil

/-- A test and its block are read. -/
theorem condition_written (htest : n.Tested depth testTokens) (hbody : body.Read plain depth bodyTokens)
    (hs : s.Sound) : condition (nested depth) token (s.before (testTokens ++ (bodyTokens ++ rest))) =
      (some (.mk token n body.collapsed), s.before rest) := by
  unfold condition
  rw [bind_apply_some (testOf_tested htest hs), bind_apply_some (hbody.block hs)]
  rfl

theorem read_whileLoop (htoken : token.kind = .keyword .whileLoop) (htest : n.Tested depth testTokens)
    (hbody : body.Read plain depth bodyTokens) :
    (Node.whileLoop token n body).Read plain (depth + 1) (token :: (testTokens ++ bodyTokens)) where
  reads := by
    refine readsItem_rule (by rw [htoken]; rfl) (by rw [htoken]; rfl) fun hs _ => ?_
    change Parse.whileLoop (nested depth) _ = _
    unfold Parse.whileLoop
    rw [advance_before, List.append_assoc, bind_apply_some (testOf_tested htest hs),
      bind_apply_some (hbody.block hs)]
    rfl
  noEof := (htest.noEof.append hbody.noEof).cons (by simp [htoken])
  plain := fun hp => congrArg (Node.whileLoop token n) (hbody.plain hp)
  pair := rfl
  parallel := nofun
  block := nofun

/-- What is read behind the head and the labels of a function. -/
def functionRest (sub : Nested) (inClass : Bool) (token : Token) (name : Ident) (ps : List Param)
    (ls : List Label) : Parse Node := do
  let t ← peek
  if t.kind == .op .arrow then
    let arrow ← advance
    let value ← sub Binding.parallel
    return functionNode inClass token name ps ls (arrowBody arrow value) true
  else if t.kind == .opening .brace then
    return functionNode inClass token name ps ls (← functionBody sub) false
  else if ← atItemEnd then return .funDecl token name ps ls
  else failUnexpected t "'\x7b', '->' or newline"

/-- The head of a function and its labels are read. -/
theorem function_written (hhead : FunctionHead depth name ps headTokens) (hlabels : FunctionLabels labels labelTokens)
    (hends : (s.before rest).EndsHead) (hs : s.Sound) :
    function (nested depth) (s.before (token :: (headTokens ++ (labelTokens ++ rest)))) =
      functionRest (nested depth) false token name ps labels (s.before rest) := by
  cases hhead with
  | @mk opener closer _ args _ _ h hname hparams =>
    have hparts : ∀ t, functionHead (.call (.ident name) opener closer args) t = (some (name, args), t) := by
      intro t
      simp only [functionHead, hname, List.isEmpty_nil, if_true]
      rfl
    have hread : ∀ t, params args t = (some ps, t) := by
      intro t
      unfold params
      rw [hparams]
      rfl
    unfold function
    rw [advance_before, ask_bind, bind_apply_some (head_written h hlabels hends hs),
      show (s.before (headTokens ++ (labelTokens ++ rest))).inClass = false from hs.inClass]
    dsimp only
    unfold namedFunction
    rw [bind_apply_some (hparts _)]
    dsimp only
    rw [bind_apply_some (hread _), bind_apply_some (functionLabels_written hlabels hends)]
    rfl

theorem FunctionHead.noEof (h : FunctionHead depth name ps tokens) : NoEof tokens := by
  cases h with
  | mk h => exact h.noEof

section
variable (htoken : token.kind = .keyword .funDef) (hhead : FunctionHead depth name ps headTokens)
  (hlabels : FunctionLabels labels labelTokens)
include htoken hhead hlabels

theorem read_funDef (hbody : body.Read plain depth bodyTokens) :
    (Node.funDef token name ps labels body false).Read plain (depth + 1)
      (token :: (headTokens ++ (labelTokens ++ bodyTokens))) where
  reads := by
    refine readsItem_rule (by rw [htoken]; rfl) (by rw [htoken]; rfl) fun {s rest} hs _ => ?_
    obtain ⟨brace, more, hopens, hbrace⟩ := hbody.opens
    have hnext : (s.before (bodyTokens ++ rest)).next.kind = .opening .brace := by rw [hopens]; exact hbrace
    have htokens : headTokens ++ (labelTokens ++ bodyTokens) ++ rest =
        headTokens ++ (labelTokens ++ (bodyTokens ++ rest)) := by simp
    rw [htokens]
    refine (function_written hhead hlabels (.inl hnext) hs).trans ?_
    unfold functionRest
    rw [peek_bind, if_neg (by simp [hnext]), if_pos (by simp [hnext])]
    exact bind_apply_some (hbody.block hs)
  noEof := (hhead.noEof.append (hlabels.noEof.append hbody.noEof)).cons (by simp [htoken])
  plain := fun hp => congrArg (Node.funDef token name ps labels · false) (hbody.plain hp)
  pair := rfl
  parallel := nofun
  block := nofun

theorem read_funDecl :
    (Node.funDecl token name ps labels).Read plain (depth + 1) (token :: (headTokens ++ labelTokens)) := by
  refine .same (readsItem_rule (by rw [htoken]; rfl) (by rw [htoken]; rfl) fun {s rest} hs hends => ?_)
    ((hhead.noEof.append hlabels.noEof).cons (by simp [htoken])) rfl rfl nofun
  have hnext : (s.before rest).next.kind ≠ .op .arrow ∧ (s.before rest).next.kind ≠ .opening .brace := by
    constructor <;> (intro he; rcases hends.next with hk | hk | hk <;> rw [he] at hk <;> cases hk)
  rw [List.append_assoc]
  refine (function_written hhead hlabels (.inr hends) hs).trans ?_
  unfold functionRest
  rw [peek_bind, if_neg (by simp [hnext.1]), if_neg (by simp [hnext.2]), atItemEnd_bind,
    if_pos (by simpa [or_assoc] using hends.next)]
  rfl

end

theorem read_classDecl (htoken : token.kind = .keyword .classDef) (hname : name.Written tokens) :
    (Node.classDecl token name).Read plain (depth + 1) (token :: tokens) := by
  refine .same (readsItem_rule (by rw [htoken]; rfl) (by rw [htoken]; rfl) fun {s rest} hs hends => ?_)
    (hname.noEof.cons (by simp [htoken])) rfl rfl nofun
  obtain ⟨-, ⟨hcolon, hlabel⟩, hsquare⟩ := ParseState.EndsHead.stops (.inr hends)
  have hread : identifier (s.before (tokens ++ rest)) = (some name, s.before rest) :=
    identifier_written hname hcolon hlabel fun _ => hsquare
  have hkind : (s.before (tokens ++ rest)).next.kind = .ident := by
    cases hname with
    | plain h => exact h
    | labelled h => exact h
  change classDefinition (nested depth) _ = _
  unfold classDefinition
  rw [advance_before, peek_bind, if_pos (by simp [hkind]), bind_apply_some hread, atItemEnd_bind,
    if_pos (by simpa [or_assoc] using hends.next)]
  rfl

theorem read_importFile {path : Token} (htoken : token.kind = .keyword .importFile) (hpath : path.kind = .str) :
    (Node.importFile token path).Read plain (depth + 1) [token, path] := by
  refine .same (readsItem_rule (by rw [htoken]; rfl) (by rw [htoken]; rfl) fun {s rest} hs hends => ?_)
    ((NoEof.nil.cons (by simp [hpath])).cons (by simp [htoken])) rfl rfl nofun
  change Parse.importFile _ = _
  unfold Parse.importFile
  rw [advance_before, List.singleton_append, peek_bind, ParseState.next_before_cons,
    if_pos (by simp [hpath]), advance_before]
  rfl

/-- The further tests of a branch are read. -/
structure Tests.Read (plain : Prop) (depth : Nat) (conditions : List Condition) (otherwise : Option Block)
    (tokens : List Token) : Prop where
  reads : ∀ {s : ParseState} {rest : List Token} (done : List Condition), s.Sound → (s.before rest).EndsItem →
    repeatWhile (Discipline.branchStep (nested depth)) done (s.before (tokens ++ rest)) =
      (some (.branch (done.reverse ++ Condition.collapsedAll conditions) (Block.collapsed? otherwise)),
        s.before rest)
  noEof : NoEof tokens
  plain : plain → Condition.collapsedAll conditions = conditions ∧ Block.collapsed? otherwise = otherwise

/-- What is behind line breaks decides how a branch goes on. -/
theorem kindPastNewlines_before (f : TokenKind → Parse (Progress (List Condition) Node)) {breaks : List Token}
    (hbreaks : LineEnd breaks) (hnewline : token.kind ≠ .newline) :
    (kindPastNewlines >>= f) (s.before (breaks ++ token :: rest)) =
      f token.kind (s.before (breaks ++ token :: rest)) := by
  have hpast : pastNewlines (breaks ++ token :: rest) = token :: rest :=
    (pastNewlines_append hbreaks _).trans (pastNewlines_cons hnewline rest)
  rw [kindPastNewlines, ask_bind]
  change f ((pastNewlines (breaks ++ token :: rest)).headD s.last).kind _ = _
  rw [hpast]
  rfl

theorem tests_none : Tests.Read plain depth [] none [] where
  reads := fun {s rest} done _ hends => by
    have hchain : ∀ k, k = .elseCase ∨ k = .elifTest →
        (((s.before rest).rest.dropWhile (·.kind == .newline)).headD (s.before rest).last).kind ≠ .keyword k := by
      intro k hk he
      obtain ⟨helif, helse⟩ := hends.chain k he
      exact hk.elim helse helif
    rw [List.nil_append, Condition.collapsedAll, Block.collapsed?, List.append_nil]
    refine repeatWhile_done ?_
    unfold Discipline.branchStep
    rw [kindPastNewlines, ask_bind, if_neg (mt beq_iff_eq.mp (hchain _ (.inl rfl))),
      if_neg (mt beq_iff_eq.mp (hchain _ (.inr rfl)))]
    rfl
  noEof := .nil
  plain := fun _ => ⟨rfl, rfl⟩

theorem tests_otherwise {breaks : List Token} (hbreaks : LineEnd breaks)
    (htoken : token.kind = .keyword .elseCase) (hbody : body.Read plain depth bodyTokens) :
    Tests.Read plain depth [] (some body) (breaks ++ token :: bodyTokens) where
  reads := fun {s rest} done hs _ => by
    have hnewline : token.kind ≠ .newline := by simp [htoken]
    rw [Condition.collapsedAll, Block.collapsed?, List.append_nil, List.append_assoc, List.cons_append]
    refine repeatWhile_done ?_
    unfold Discipline.branchStep
    rw [kindPastNewlines_before _ hbreaks hnewline, if_pos (by simp [htoken]),
      skipNewlines_before _ hbreaks (pastNewlines_cons hnewline _), advance_before,
      bind_apply_some (hbody.block hs)]
    rfl
  noEof := .append (fun t ht => by simp [hbreaks t ht]) (hbody.noEof.cons (by simp [htoken]))
  plain := fun hp => ⟨rfl, congrArg some (hbody.plain hp)⟩

theorem tests_elif {breaks more : List Token} (hbreaks : LineEnd breaks)
    (htoken : token.kind = .keyword .elifTest) (htest : n.Tested depth testTokens)
    (hbody : body.Read plain depth bodyTokens) (hmore : Tests.Read plain depth conditions otherwise more) :
    Tests.Read plain depth (.mk token n body :: conditions) otherwise
      (breaks ++ token :: (testTokens ++ (bodyTokens ++ more))) where
  reads := fun {s rest} done hs hends => by
    have hnewline : token.kind ≠ .newline := by simp [htoken]
    have htokens : breaks ++ token :: (testTokens ++ (bodyTokens ++ more)) ++ rest =
        breaks ++ token :: (testTokens ++ (bodyTokens ++ (more ++ rest))) := by simp
    have hstep : Discipline.branchStep (nested depth) done
        (s.before (breaks ++ token :: (testTokens ++ (bodyTokens ++ (more ++ rest))))) =
          (some (.again (.mk token n body.collapsed :: done)), s.before (more ++ rest)) := by
      unfold Discipline.branchStep
      rw [kindPastNewlines_before _ hbreaks hnewline, if_neg (by simp [htoken]), if_pos (by simp [htoken]),
        skipNewlines_before _ hbreaks (pastNewlines_cons hnewline _), advance_before,
        bind_apply_some (condition_written htest hbody hs)]
      rfl
    have hless := ParseState.weight_before_lt s (more ++ rest)
      (List.append_ne_nil_of_right_ne_nil breaks (List.cons_ne_nil token (testTokens ++ bodyTokens)))
    have hfront : breaks ++ token :: (testTokens ++ bodyTokens) ++ (more ++ rest) =
        breaks ++ token :: (testTokens ++ (bodyTokens ++ (more ++ rest))) := by simp
    rw [hfront] at hless
    rw [htokens, repeatWhile_again hstep hless, hmore.reads _ hs hends, Condition.collapsedAll]
    simp
  noEof := .append (fun t ht => by simp [hbreaks t ht])
    ((htest.noEof.append (hbody.noEof.append hmore.noEof)).cons (by simp [htoken]))
  plain := fun hp => by
    obtain ⟨hconditions, hotherwise⟩ := hmore.plain hp
    exact ⟨by rw [Condition.collapsedAll, hbody.plain hp, hconditions], hotherwise⟩

theorem read_branch {more : List Token} (htoken : token.kind = .keyword .ifTest)
    (htest : n.Tested depth testTokens) (hbody : body.Read plain depth bodyTokens)
    (hmore : Tests.Read plain depth conditions otherwise more) :
    (Node.branch (.mk token n body :: conditions) otherwise).Read plain (depth + 1)
      (token :: (testTokens ++ (bodyTokens ++ more))) where
  reads := by
    refine readsItem_rule (by rw [htoken]; rfl) (by rw [htoken]; rfl) fun {s rest} hs hends => ?_
    have htokens : testTokens ++ (bodyTokens ++ more) ++ rest =
        testTokens ++ (bodyTokens ++ (more ++ rest)) := by simp
    change Parse.branch (nested depth) _ = _
    unfold Parse.branch
    rw [advance_before, htokens]
    refine (bind_apply_some (condition_written htest hbody hs)).trans ?_
    exact hmore.reads _ hs hends
  noEof := (htest.noEof.append (hbody.noEof.append hmore.noEof)).cons (by simp [htoken])
  plain := fun hp => by
    obtain ⟨hconditions, hotherwise⟩ := hmore.plain hp
    rw [Node.collapsed, Condition.collapsedAll, hbody.plain hp, hconditions, hotherwise]
  pair := rfl
  parallel := nofun
  block := nofun

/-! ## Lines of statements -/

def LaidItem.collapsed (i : LaidItem) : LaidItem := { i with node := i.node.collapsed }

theorem lineTokens_collapsed (items : List LaidItem) :
    lineTokens (items.map LaidItem.collapsed) = lineTokens items := by
  rw [lineTokens, List.flatMap_map]
  rfl

theorem OnLines.collapsed {items : List LaidItem} (h : OnLines items) : OnLines (items.map LaidItem.collapsed) where
  breaks := List.forall_mem_map.mpr h.breaks
  apart := by
    rw [← List.map_tail]
    exact List.forall_mem_map.mpr h.apart

theorem noEof_lineTokens {items : List LaidItem} (hlines : OnLines items) (h : ∀ i ∈ items, NoEof i.tokens) :
    NoEof (lineTokens items) := by
  intro t ht
  obtain ⟨i, hi, ht⟩ := List.mem_flatMap.mp ht
  exact NoEof.append (fun u hu => by simp [hlines.breaks i hi u hu]) (h i hi) t ht

theorem read_lines {opener closer : Token} {items : List LaidItem} {breaks : List Token}
    (hopener : opener.kind = .opening .brace) (hlines : OnLines items)
    (hitems : ∀ i ∈ items, i.node.Read plain depth i.tokens) (hbreaks : LineEnd breaks)
    (hcloser : closer.kind = .closing .brace)
    (hplain : plain → ∀ n, items.map LaidItem.node = [n] → n.isCompound = false) :
    (Block.mk opener closer (items.map LaidItem.node)).Read plain depth
      (opener :: (lineTokens items ++ (breaks ++ [closer]))) where
  opens := ⟨opener, _, rfl, hopener⟩
  reads := fun {s rest} hs => by
    have hread := group_lines opener rest hs hlines.collapsed (List.forall_mem_map.mpr fun i hi => (hitems i hi).reads)
      hbreaks hcloser
    have hnodes : (items.map LaidItem.collapsed).map LaidItem.node =
        (items.map LaidItem.node).map Node.collapsed := by
      rw [List.map_map, List.map_map]
      rfl
    rw [lineTokens_collapsed, hnodes] at hread
    have htokens : opener :: (lineTokens items ++ (breaks ++ [closer])) ++ rest =
        opener :: (lineTokens items ++ (breaks ++ closer :: rest)) := by simp
    rw [htokens]
    exact hread
  items := List.forall_mem_map.mpr fun i hi => ⟨(hitems i hi).pair, (hitems i hi).parallel, (hitems i hi).block⟩
  noEof := by
    have hbreak : NoEof breaks := fun t ht => by simp [hbreaks t ht]
    have hinside := noEof_lineTokens hlines fun i hi => (hitems i hi).noEof
    exact (hinside.append (hbreak.append (NoEof.nil.cons (by simp [hcloser])))).cons (by simp [hopener])
  plain := fun hp => by
    have hsame : (items.map LaidItem.node).map Node.collapsed = items.map LaidItem.node := by
      rw [List.map_map]
      exact List.map_congr_left fun i hi => (hitems i hi).plain hp
    rw [Block.collapsed, Node.collapsedAll_eq, hsame, unwrapped_eq_self (hplain hp)]

mutual
/-- A statement is read from the tokens that it is written with. -/
theorem Node.Stated.read {depth : Nat} {n : Node} {tokens : List Token} :
    n.Stated plain depth tokens → n.Read plain depth tokens
  | .expression h => h.read
  | .word h => h.read
  | .returnFrom htoken h => read_returnFrom htoken h
  | .varDef htoken h hdefinitions => read_varDef htoken h hdefinitions
  | .block h hne hlist => read_block h.read hne hlist
  | .branch htoken htest hbody hmore => read_branch htoken htest hbody.read hmore.read
  | .whileLoop htoken htest hbody => read_whileLoop htoken htest hbody.read
  | .importFile htoken hpath => read_importFile htoken hpath
  | .classDecl htoken hname => read_classDecl htoken hname
  | .funDecl htoken hhead hlabels => read_funDecl htoken hhead hlabels
  | .funDef htoken hhead hlabels hbody => read_funDef htoken hhead hlabels hbody.read

theorem Block.Stated.read {depth : Nat} {b : Block} {tokens : List Token} :
    b.Stated plain depth tokens → b.Read plain depth tokens
  | .mk hopener hlines hitems hbreaks hcloser hplain =>
    read_lines hopener hlines (fun i hi => (hitems i hi).read) hbreaks hcloser hplain

theorem Tests.read {depth : Nat} {conditions : List Condition} {otherwise : Option Block} {tokens : List Token} :
    Tests plain depth conditions otherwise tokens → Tests.Read plain depth conditions otherwise tokens
  | .none => tests_none
  | .otherwise hbreaks htoken hbody => tests_otherwise hbreaks htoken hbody.read
  | .elif hbreaks htoken htest hbody hmore => tests_elif hbreaks htoken htest hbody.read hmore.read
end

end

/-! ## Programs -/

namespace Program

variable {plain : Prop} {items : List LaidItem} {breaks : List Token} {eof : Token}

theorem ofTokens_read (hlines : OnLines items) (hitems : ∀ i ∈ items, i.node.Read plain maxExpressionDepth i.tokens)
    (hbreaks : LineEnd breaks) (heof : eof.kind = .eof) :
    (ofTokens (lineTokens items ++ breaks ++ [eof])).errors = [] ∧
      (ofTokens (lineTokens items ++ breaks ++ [eof])).program.body =
        (items.map LaidItem.node).map Node.collapsed := by
  have hread := ofTokens_lines hlines.collapsed (List.forall_mem_map.mpr fun i hi => (hitems i hi).reads)
    (List.forall_mem_map.mpr fun i hi => (hitems i hi).noEof) hbreaks heof
  rw [lineTokens_collapsed, List.map_map] at hread
  rw [List.map_map]
  exact hread

/-- A program of statements is read back from its tokens without errors, but with every single compound item
of braces taken apart. If no braces hold a single compound item, the program is as it was written. -/
theorem ofTokens_stated (hlines : OnLines items)
    (hitems : ∀ i ∈ items, i.node.Stated plain maxExpressionDepth i.tokens) (hbreaks : LineEnd breaks)
    (heof : eof.kind = .eof) :
    (ofTokens (lineTokens items ++ breaks ++ [eof])).errors = [] ∧
      (ofTokens (lineTokens items ++ breaks ++ [eof])).program.body =
        (items.map LaidItem.node).map Node.collapsed ∧
      (plain → (ofTokens (lineTokens items ++ breaks ++ [eof])).program.body = items.map LaidItem.node) := by
  obtain ⟨herrors, hbody⟩ := ofTokens_read hlines (fun i hi => (hitems i hi).read) hbreaks heof
  refine ⟨herrors, hbody, fun hp => hbody.trans ?_⟩
  rw [List.map_map]
  exact List.map_congr_left fun i hi => (hitems i hi).read.plain hp

/-- The statement `pass`. -/
def samplePass : Node := .pass (sampleToken "pass")

def sampleBlock (items : List Node) : Block := .mk (sampleToken "\x7b") (sampleToken "\x7d") items

/-- An item of a sample on a new line. -/
def sampleItem (node : Node) (tokens : List Token) : LaidItem := ⟨[sampleToken "\n"], node, tokens⟩

def sampleBlockTokens (items : List LaidItem) : List Token :=
  sampleToken "\x7b" :: (lineTokens items ++ [sampleToken "\x7d"])

theorem stated_samplePass (plain : Prop) (depth : Nat) : samplePass.Stated plain (depth + 1) [sampleToken "pass"] :=
  .word (.pass (by decide +kernel))

theorem stated_sampleBlock {depth : Nat} (items : List (Node × List Token))
    (hitems : ∀ i ∈ items, i.1.Stated plain depth i.2)
    (hplain : plain → ∀ n, items.map Prod.fst = [n] → n.isCompound = false) :
    (sampleBlock (items.map Prod.fst)).Stated plain depth
      (sampleBlockTokens (items.map fun i => sampleItem i.1 i.2)) := by
  have hnewline : (sampleToken "\n").kind = .newline := by decide +kernel
  have hnodes : (items.map fun i => sampleItem i.1 i.2).map LaidItem.node = items.map Prod.fst := by
    rw [List.map_map]
    rfl
  have hlines : OnLines (items.map fun i => sampleItem i.1 i.2) := by
    refine ⟨List.forall_mem_map.mpr fun _ _ => List.forall_mem_singleton.mpr hnewline, ?_⟩
    rw [← List.map_tail]
    exact List.forall_mem_map.mpr fun _ _ => List.cons_ne_nil _ _
  rw [← hnodes] at hplain ⊢
  exact .mk (by decide +kernel) hlines (List.forall_mem_map.mpr hitems) lineEnd_nil (by decide +kernel) hplain

/-- The function `fun f(x) { return x }`, with its body on a line of its own. -/
def sampleFunction : Node :=
  .funDef (sampleToken "fun") { token := sampleToken "f" } [.mk { token := sampleToken "x" } .positional none] []
    (sampleBlock [.returnFrom (sampleToken "return") (some (sampleIdent "x"))]) false

def sampleFunctionTokens : List Token :=
  ["fun", "f", "(", "x", ")", "\x7b", "\n", "return", "x", "\x7d"].map sampleToken

theorem stated_sampleFunction : sampleFunction.Stated plain 199 sampleFunctionTokens := by
  have x : (sampleIdent "x").Written 197 [sampleToken "x"] := written_sampleIdent 196 (by decide +kernel)
  have none : ∀ i ∈ ([] : List CommaItem), i.comma.kind = .comma := List.forall_mem_nil _
  have f : (sampleIdent "f").Written 198 [sampleToken "f"] := written_sampleIdent 197 (by decide +kernel)
  have opener : (sampleToken "(").kind = .opening .paren := by decide +kernel
  have closer : (sampleToken ")").kind = .closing .paren := by decide +kernel
  have head := Node.Written.callWith f rfl opener x none (List.forall_mem_nil _) closer
    (.cons (passes_sampleIdent "x") .nil)
  have value : (sampleIdent "x").Listed 197 [sampleIdent "x"] [sampleToken "x"] :=
    .mk x none (List.forall_mem_nil _)
  have result : (Node.returnFrom (sampleToken "return") (some (sampleIdent "x"))).Stated plain 198
      [sampleToken "return", sampleToken "x"] := .returnFrom (by decide +kernel) value
  have body := stated_sampleBlock [(_, _)] (List.forall_mem_singleton.mpr result)
    (fun _ n h => by cases h; rfl)
  exact .funDef (by decide +kernel) (.mk head rfl rfl) .none body

/-- The loop `while (x) { … }` around a function and a block of two statements. -/
def sampleLoop : Node :=
  .whileLoop (sampleToken "while") (sampleIdent "x")
    (sampleBlock [sampleFunction, .block (sampleBlock [samplePass, samplePass])])

def sampleLoopTokens : List Token :=
  ["while", "(", "x", ")", "\x7b", "\n", "fun", "f", "(", "x", ")", "\x7b", "\n", "return", "x", "\x7d",
    "\n", "\x7b", "\n", "pass", "\n", "pass", "\x7d", "\x7d"].map sampleToken

theorem stated_sampleLoop : sampleLoop.Stated plain maxExpressionDepth sampleLoopTokens := by
  have test : (sampleIdent "x").Tested 199 (["(", "x", ")"].map sampleToken) :=
    .mk (by decide +kernel) (written_sampleIdent 198 (by decide +kernel)) (by decide +kernel)
  have pass : samplePass.Stated plain 198 [sampleToken "pass"] := stated_samplePass plain 197
  have inner := stated_sampleBlock [(samplePass, _), (samplePass, _)]
    (List.forall_mem_cons.mpr ⟨pass, List.forall_mem_singleton.mpr pass⟩) (fun _ _ h => by cases h)
  have block := Node.Stated.block inner (List.cons_ne_nil _ _) nofun
  have body := stated_sampleBlock [(_, _), (_, _)] (List.forall_mem_cons.mpr ⟨stated_sampleFunction,
    List.forall_mem_singleton.mpr block⟩) (fun _ _ h => by cases h)
  have token : (sampleToken "while").kind = .keyword .whileLoop := by decide +kernel
  have loop := Node.Stated.whileLoop token test body
  exact loop

theorem onLines_single (node : Node) (tokens : List Token) : OnLines [⟨[], node, tokens⟩] :=
  ⟨List.forall_mem_singleton.mpr lineEnd_nil, List.forall_mem_nil _⟩

theorem ofTokens_sampleLoop :
    (ofTokens (sampleLoopTokens ++ [sampleToken "\n", .eof {}])).errors = [] ∧
      (ofTokens (sampleLoopTokens ++ [sampleToken "\n", .eof {}])).program.body = [sampleLoop] := by
  have hloop : sampleLoop.Stated True maxExpressionDepth sampleLoopTokens := stated_sampleLoop
  have hbreak : LineEnd [sampleToken "\n"] := List.forall_mem_singleton.mpr (by decide +kernel)
  obtain ⟨herrors, -, hbody⟩ := ofTokens_stated (onLines_single sampleLoop sampleLoopTokens)
    (List.forall_mem_singleton.mpr hloop) hbreak (show (Token.eof {}).kind = .eof from rfl)
  exact ⟨herrors, hbody trivial⟩

/-- A block that stands alone in braces is lost, unless there is another statement beside it: `{ { pass } }`
is read as `{ pass }`, but with one more `pass` behind the inner block both blocks stay. -/
theorem ofTokens_sampleNested :
    (ofTokens (["\x7b", "\n", "\x7b", "\n", "pass", "\x7d", "\x7d", "\n"].map sampleToken ++ [.eof {}])).program.body =
        [.block (sampleBlock [samplePass])] ∧
      (ofTokens (["\x7b", "\n", "\x7b", "\n", "pass", "\x7d", "\n", "pass", "\x7d", "\n"].map sampleToken ++
        [.eof {}])).program.body =
        [.block (sampleBlock [.block (sampleBlock [samplePass]), samplePass])] ∧
      [Node.block (sampleBlock [samplePass])] ≠ [.block (sampleBlock [.block (sampleBlock [samplePass])])] := by
  have pass : ∀ depth, samplePass.Stated False (depth + 1) [sampleToken "pass"] := stated_samplePass False
  have inner := stated_sampleBlock [(samplePass, _)] (List.forall_mem_singleton.mpr (pass 197)) False.elim
  have other : ∀ (n : Node) (ns ms : List Node), (∀ l, n ≠ .parallel l) → n :: ns ≠ [.parallel ms] := by
    rintro n ns ms hn ⟨⟩
    exact hn ms rfl
  have notList : ∀ {b l}, Node.block b ≠ .parallel l := by
    rintro b l ⟨⟩
  have block := Node.Stated.block inner (List.cons_ne_nil _ _) fun ms => other samplePass [] ms fun l h => by cases h
  have alone := stated_sampleBlock [(_, _)] (List.forall_mem_singleton.mpr block) False.elim
  have beside := stated_sampleBlock [(_, _), (_, _)]
    (List.forall_mem_cons.mpr ⟨block, List.forall_mem_singleton.mpr (pass 198)⟩) False.elim
  have hbreak : LineEnd [sampleToken "\n"] := List.forall_mem_singleton.mpr (by decide +kernel)
  have heof : (Token.eof {}).kind = .eof := rfl
  have hread : ∀ {b : Block} {tokens : List Token}, b.Stated False 199 tokens → b.items ≠ [] →
      (∀ ns, b.items ≠ [.parallel ns]) →
      (ofTokens (tokens ++ [sampleToken "\n"] ++ [Token.eof {}])).program.body = [.block b.collapsed] := by
    intro b tokens h hne hlist
    have hread := ofTokens_read (onLines_single _ tokens)
      (List.forall_mem_singleton.mpr (Node.Stated.block h hne hlist).read) hbreak heof
    simpa [lineTokens, Node.collapsed] using hread.2
  refine ⟨hread alone (List.cons_ne_nil _ _) fun ms => other _ _ ms fun _ => notList,
    hread beside (List.cons_ne_nil _ _) fun ms => other _ _ ms fun _ => notList, ?_⟩
  rintro ⟨⟩

end Program

end Frontend
