import Frontend.Proofs.Token.Join

/-!
# Trees at another place

A tree is moved by moving the tokens it was read from. What it says stays the same, and it begins and
ends where the move takes its old beginning and end.
-/

namespace Frontend

namespace Position

/-- A move of positions that keeps columns and lines apart. What has no position gets none. -/
structure Moves (move : Position → Position) : Prop where
  none : move {} = {}
  shift : ∀ p columns bytes, move (p.shift columns bytes) = (move p).shift columns bytes
  column : ∀ p, (move p).column = p.column
  line : ∀ p q, (move p).line = (move q).line ↔ p.line = q.line

theorem moves_id : Moves id := ⟨rfl, fun _ _ _ => rfl, fun _ => rfl, fun _ _ => Iff.rfl⟩

def whereValid (move : Position → Position) (p : Position) : Position :=
  if p.isValid then move p else p

theorem moves_down (lines : Nat) (bytes : Int) : Moves (whereValid (down lines bytes)) where
  none := rfl
  shift p columns bytes' := by
    unfold whereValid isValid
    by_cases h : 0 < p.line
    · simp only [shift, down, h, decide_true, if_true, Position.mk.injEq, true_and]
      omega
    · simp [shift, h]
  column p := by
    unfold whereValid
    split <;> rfl
  line p q := by
    unfold whereValid isValid down
    by_cases hp : 0 < p.line
    · by_cases hq : 0 < q.line
      · simp [hp, hq]
      · simp only [hp, hq, decide_true, decide_false, if_true, Bool.false_eq_true, if_false]
        omega
    · by_cases hq : 0 < q.line
      · simp only [hp, hq, decide_true, decide_false, if_true, Bool.false_eq_true, if_false]
        omega
      · simp [hp, hq]

end Position

variable {move : Position → Position}

/-! ## Tokens -/

namespace Token

@[simp] theorem literal_moved (t : Token) : (t.moved move).literal = t.literal := rfl

@[simp] theorem pos_moved (t : Token) : (t.moved move).pos = move t.pos := rfl

@[simp] theorem columns_moved (t : Token) : (t.moved move).columns = t.columns := rfl

@[simp] theorem describe_moved (t : Token) : (t.moved move).describe = t.describe := rfl

@[simp] theorem isNegativeNumber_moved (t : Token) : (t.moved move).isNegativeNumber = t.isNegativeNumber := rfl

@[simp] theorem moved_id (t : Token) : t.moved id = t := rfl

theorem map_moved_id (ts : List Token) : ts.map (Token.moved id) = ts := List.map_id ts

theorem finish_moved (h : Position.Moves move) (t : Token) : (t.moved move).finish = move t.finish :=
  (h.shift t.pos t.columns t.literal.utf8ByteSize).symm

theorem splitNegative_moved
    (h : ∀ p columns bytes, move (p.shift columns bytes) = (move p).shift columns bytes) (t : Token) :
    (t.moved move).splitNegative = (t.splitNegative.1.moved move, t.splitNegative.2.moved move) := by
  simp [splitNegative, moved, ofText, h]

@[simp] theorem parts_moved (t : Token) : (t.moved move).parts = t.parts := rfl

end Token

/-! ## Labels and names -/

mutual
/-- The label at another place. -/
def Label.moved (move : Position → Position) : Label → Label
  | .mk token groups => .mk (token.moved move) (Label.movedGroups move groups)

/-- Groups of labels at another place. -/
def Label.movedGroups (move : Position → Position) : List (List Label) → List (List Label)
  | [] => []
  | g :: gs => Label.movedAll move g :: Label.movedGroups move gs

/-- Labels at another place. -/
def Label.movedAll (move : Position → Position) : List Label → List Label
  | [] => []
  | l :: ls => l.moved move :: Label.movedAll move ls
end

@[simp] theorem Label.movedAll_eq (ls : List Label) : Label.movedAll move ls = ls.map (Label.moved move) := by
  induction ls with
  | nil => rfl
  | cons l ls ih => rw [Label.movedAll, ih, List.map_cons]

@[simp] theorem Label.movedGroups_eq (gs : List (List Label)) :
    Label.movedGroups move gs = gs.map (List.map (Label.moved move)) := by
  induction gs with
  | nil => rfl
  | cons g gs ih => rw [Label.movedGroups, ih, Label.movedAll_eq, List.map_cons]

mutual
theorem Label.text_moved : ∀ l : Label, (l.moved move).text = l.text
  | .mk token groups => by
    rw [Label.moved, Label.text, Label.text, Label.groupTexts_moved groups, Token.literal_moved]

theorem Label.groupTexts_moved : ∀ gs : List (List Label),
    Label.groupTexts (Label.movedGroups move gs) = Label.groupTexts gs
  | [] => rfl
  | g :: gs => by
    rw [Label.movedGroups, Label.groupTexts, Label.groupTexts, Label.texts_moved g, Label.groupTexts_moved gs]

theorem Label.texts_moved : ∀ ls : List Label, Label.texts (Label.movedAll move ls) = Label.texts ls
  | [] => rfl
  | l :: ls => by
    rw [Label.movedAll, Label.texts, Label.texts, Label.text_moved l, Label.texts_moved ls]
end

theorem Label.suffix_moved (ls : List Label) : Label.suffix (ls.map (Label.moved move)) = Label.suffix ls := by
  unfold Label.suffix
  rw [← Label.movedAll_eq, Label.texts_moved, Label.movedAll_eq, List.isEmpty_map]

/-- The name at another place. -/
def Ident.moved (move : Position → Position) (i : Ident) : Ident :=
  ⟨i.token.moved move, i.labels.map (Label.moved move)⟩

@[simp] theorem Ident.token_moved (i : Ident) : (i.moved move).token = i.token.moved move := rfl

@[simp] theorem Ident.name_moved (i : Ident) : (i.moved move).name = i.name := rfl

theorem Ident.text_moved (i : Ident) : (i.moved move).text = i.text := by
  unfold Ident.text
  rw [Ident.name_moved, Ident.moved, Label.suffix_moved]

/-! ## Nodes -/

mutual
/-- The tree at another place. -/
def Node.moved (move : Position → Position) : Node → Node
  | .int t value => .int (t.moved move) value
  | .float t value => .float (t.moved move) value
  | .str t => .str (t.moved move)
  | .bool t value => .bool (t.moved move) value
  | .null t => .null (t.moved move)
  | .ident name => .ident (name.moved move)
  | .this t => .this (t.moved move)
  | .unary op operand => .unary (op.moved move) (operand.moved move)
  | .binary left op right => .binary (left.moved move) (op.moved move) (right.moved move)
  | .increment operand op => .increment (operand.moved move) (op.moved move)
  | .assign target op value => .assign (target.moved move) (op.moved move) (value.moved move)
  | .parallel items => .parallel (Node.movedAll move items)
  | .group opener closer bracket body =>
    .group (opener.moved move) (closer.moved move) bracket (Node.moved? move body)
  | .block body => .block (body.moved move)
  | .list opener elements => .list (opener.moved move) (Node.movedAll move elements)
  | .pair key colon value => .pair (key.moved move) (colon.moved move) (value.moved move)
  | .dict opener pairs => .dict (opener.moved move) (Node.movedAll move pairs)
  | .arrow left arrow right => .arrow (left.moved move) (arrow.moved move) (right.moved move)
  | .argument name value => .argument (name.moved move) (value.moved move)
  | .call callee opener closer args =>
    .call (callee.moved move) (opener.moved move) (closer.moved move) (Node.movedAll move args)
  | .index left opener subscript =>
    .index (left.moved move) (opener.moved move) (subscript.moved move)
  | .member object dot name => .member (object.moved move) (dot.moved move) (name.moved move)
  | .varDef t names values =>
    .varDef (t.moved move) (names.map (Ident.moved move)) (Node.movedEach? move values)
  | .funDecl t name params labels =>
    .funDecl (t.moved move) (name.moved move) (Param.movedAll move params)
      (labels.map (Label.moved move))
  | .funDef t name params labels body arrow =>
    .funDef (t.moved move) (name.moved move) (Param.movedAll move params)
      (labels.map (Label.moved move)) (body.moved move) arrow
  | .lambda t params labels body =>
    .lambda (t.moved move) (Param.movedAll move params) (labels.map (Label.moved move))
      (body.moved move)
  | .constructor t name params labels body =>
    .constructor (t.moved move) (name.moved move) (Param.movedAll move params)
      (labels.map (Label.moved move)) (body.moved move)
  | .classDecl t name => .classDecl (t.moved move) (name.moved move)
  | .classDef t name body => .classDef (t.moved move) (name.moved move) (body.moved move)
  | .branch tests otherwise =>
    .branch (Condition.movedAll move tests) (Block.moved? move otherwise)
  | .whileLoop t test body => .whileLoop (t.moved move) (test.moved move) (body.moved move)
  | .forLoop t init test update body =>
    .forLoop (t.moved move) (init.moved move) (test.moved move) (update.moved move)
      (body.moved move)
  | .pass t => .pass (t.moved move)
  | .breakOut t => .breakOut (t.moved move)
  | .continueOn t => .continueOn (t.moved move)
  | .returnFrom t value => .returnFrom (t.moved move) (Node.moved? move value)
  | .importFile t path => .importFile (t.moved move) (path.moved move)

/-- A tree that may be missing, at another place. -/
def Node.moved? (move : Position → Position) : Option Node → Option Node
  | none => none
  | some n => some (n.moved move)

/-- Trees at another place. -/
def Node.movedAll (move : Position → Position) : List Node → List Node
  | [] => []
  | n :: ns => n.moved move :: Node.movedAll move ns

/-- Trees that may be missing, at another place. -/
def Node.movedEach? (move : Position → Position) : List (Option Node) → List (Option Node)
  | [] => []
  | n :: ns => Node.moved? move n :: Node.movedEach? move ns

/-- The block at another place. -/
def Block.moved (move : Position → Position) : Block → Block
  | .mk opener closer items => .mk (opener.moved move) (closer.moved move) (Node.movedAll move items)

/-- A block that may be missing, at another place. -/
def Block.moved? (move : Position → Position) : Option Block → Option Block
  | none => none
  | some b => some (b.moved move)

/-- The parameter at another place. -/
def Param.moved (move : Position → Position) : Param → Param
  | .mk name kind default => .mk (name.moved move) kind (Node.moved? move default)

/-- Parameters at another place. -/
def Param.movedAll (move : Position → Position) : List Param → List Param
  | [] => []
  | p :: ps => p.moved move :: Param.movedAll move ps

/-- The test at another place. -/
def Condition.moved (move : Position → Position) : Condition → Condition
  | .mk keyword test body => .mk (keyword.moved move) (test.moved move) (body.moved move)

/-- Tests at another place. -/
def Condition.movedAll (move : Position → Position) : List Condition → List Condition
  | [] => []
  | c :: cs => c.moved move :: Condition.movedAll move cs
end

@[simp] theorem Node.moved?_eq (n : Option Node) : Node.moved? move n = n.map (Node.moved move) := by
  cases n <;> rfl

@[simp] theorem Block.moved?_eq (b : Option Block) : Block.moved? move b = b.map (Block.moved move) := by
  cases b <;> rfl

@[simp] theorem Node.movedAll_eq (ns : List Node) : Node.movedAll move ns = ns.map (Node.moved move) := by
  induction ns with
  | nil => rfl
  | cons n ns ih => rw [Node.movedAll, ih, List.map_cons]

@[simp] theorem Node.movedEach?_eq (ns : List (Option Node)) :
    Node.movedEach? move ns = ns.map (Option.map (Node.moved move)) := by
  induction ns with
  | nil => rfl
  | cons n ns ih => rw [Node.movedEach?, ih, Node.moved?_eq, List.map_cons]

@[simp] theorem Param.movedAll_eq (ps : List Param) : Param.movedAll move ps = ps.map (Param.moved move) := by
  induction ps with
  | nil => rfl
  | cons p ps ih => rw [Param.movedAll, ih, List.map_cons]

@[simp] theorem Condition.movedAll_eq (cs : List Condition) :
    Condition.movedAll move cs = cs.map (Condition.moved move) := by
  induction cs with
  | nil => rfl
  | cons c cs ih => rw [Condition.movedAll, ih, List.map_cons]

@[simp] theorem Block.items_moved (b : Block) : (b.moved move).items = b.items.map (Node.moved move) := by
  cases b with
  | mk opener closer items => simp [Block.moved, Block.items]

/-! ## Where a moved tree begins and ends -/

mutual
theorem Node.pos_moved (h : Position.Moves move) : ∀ n : Node, (n.moved move).pos = move n.pos
  | .int .. | .float .. | .str .. | .bool .. | .null .. | .this .. | .pass .. | .breakOut ..
  | .continueOn .. | .importFile .. | .ident .. | .classDecl .. | .unary .. | .list .. | .dict ..
  | .group .. | .returnFrom .. | .argument .. | .varDef .. | .funDecl .. | .funDef ..
  | .constructor .. | .lambda .. | .classDef .. | .whileLoop .. | .forLoop .. | .block (.mk ..) => rfl
  | .binary n .. | .increment n _ | .assign n .. | .pair n .. | .arrow n .. | .index n ..
  | .member n .. | .call n .. => by simp only [Node.moved, Node.pos, Node.pos_moved h n]
  | .parallel ns => by
    rw [Node.moved, Node.pos, Node.pos, Node.firstPos_moved h ns]
  | .branch [] _ => h.none.symm
  | .branch (.mk .. :: _) _ => rfl

theorem Node.firstPos_moved (h : Position.Moves move) : ∀ ns : List Node,
    Node.firstPos (Node.movedAll move ns) = move (Node.firstPos ns)
  | [] => h.none.symm
  | n :: _ => by rw [Node.movedAll, Node.firstPos, Node.firstPos, Node.pos_moved h n]
end

theorem Block.finish_moved (h : Position.Moves move) (b : Block) : (b.moved move).finish = move b.finish := by
  cases b with
  | mk opener closer items => exact Token.finish_moved h closer

theorem Condition.finish_moved (h : Position.Moves move) (c : Condition) :
    (c.moved move).finish = move c.finish := by
  cases c with
  | mk keyword test body => exact Block.finish_moved h body

mutual
theorem Node.finish_moved (h : Position.Moves move) : ∀ n : Node, (n.moved move).finish = move n.finish
  | .int t _ | .float t _ | .str t | .bool t _ | .null t | .this t | .pass t | .breakOut t
  | .continueOn t | .importFile _ t | .list t _ | .dict t _ | .group _ t _ _ | .call _ _ t _
  | .increment _ t | .returnFrom t none => Token.finish_moved h t
  | .ident name | .classDecl _ name | .funDecl _ name _ _ | .member _ _ name =>
    Token.finish_moved h name.token
  | .unary _ n | .binary _ _ n | .assign _ _ n | .pair _ _ n | .arrow _ _ n | .index _ _ n
  | .argument _ n | .returnFrom _ (some n) => by
    simpa only [Node.moved, Node.moved?, Node.finish] using Node.finish_moved h n
  | .funDef _ _ _ _ b _ | .lambda _ _ _ b | .constructor _ _ _ _ b | .classDef _ _ b
  | .whileLoop _ _ b | .forLoop _ _ _ _ b | .block b | .branch _ (some b) => by
    simpa only [Node.moved, Block.moved?, Node.finish] using Block.finish_moved h b
  | .parallel ns => by rw [Node.moved, Node.finish, Node.finish, Node.lastFinish_moved h ns]
  | .varDef _ names values => by
    rw [Node.moved, Node.finish, Node.finish, Node.definedFinish_moved h names values]
  | .branch tests none => by
    rw [Node.moved, Block.moved?, Node.finish, Node.finish, Condition.movedAll_eq, List.getLast?_map]
    cases tests.getLast? with
    | none => exact h.none.symm
    | some c => exact Condition.finish_moved h c

theorem Node.lastFinish_moved (h : Position.Moves move) : ∀ ns : List Node,
    Node.lastFinish (Node.movedAll move ns) = move (Node.lastFinish ns)
  | [] => h.none.symm
  | [n] => by
    simpa only [Node.movedAll, Node.lastFinish] using Node.finish_moved h n
  | _ :: m :: ns => by
    simpa only [Node.movedAll, Node.lastFinish] using Node.lastFinish_moved h (m :: ns)

theorem Node.definedFinish_moved (h : Position.Moves move) : ∀ (names : List Ident) (values : List (Option Node)),
    Node.definedFinish (names.map (Ident.moved move)) (Node.movedEach? move values) =
      move (Node.definedFinish names values)
  | [], [] | [], _ :: _ => h.none.symm
  | [name], [] => Token.finish_moved h name.token
  | [name], [none] => Token.finish_moved h name.token
  | [_], [some n] => by
    simpa only [List.map, Node.movedEach?, Node.moved?, Node.definedFinish] using Node.finish_moved h n
  | [name], none :: _ :: _ | [name], some _ :: _ :: _ => Token.finish_moved h name.token
  | _ :: _ :: _, [] => h.none.symm
  | _ :: m :: names, _ :: values => by
    simpa only [List.map, Node.movedEach?, Node.definedFinish] using
      Node.definedFinish_moved h (m :: names) values
end

/-! ## What a moved tree says -/

theorem definitionTexts_moved (names : List Ident) (values : List (Option String)) :
    definitionTexts (names.map (Ident.moved move)) values = definitionTexts names values := by
  induction names generalizing values with
  | nil => rfl
  | cons name names ih =>
    cases values with
    | nil => rfl
    | cons value values => rw [List.map_cons, definitionTexts, definitionTexts, ih, Ident.text_moved]

mutual
theorem Node.text_moved : ∀ n : Node, (n.moved move).text = n.text
  | .int .. | .float .. | .str .. | .bool .. | .null .. | .this .. | .pass .. | .breakOut ..
  | .continueOn .. | .importFile .. | .returnFrom _ none => rfl
  | .ident name | .classDecl _ name => by simp only [Node.moved, Node.text, Ident.text_moved]
  | .unary _ n | .increment n _ | .argument _ n | .member n _ _ | .returnFrom _ (some n) => by
    simp only [Node.moved, Node.moved?, Node.text, Node.text_moved n, Token.literal_moved, Ident.name_moved]
  | .binary m _ n | .assign m _ n | .pair m _ n | .arrow m _ n | .index m _ n => by
    simp only [Node.moved, Node.text, Node.text_moved m, Node.text_moved n, Token.literal_moved]
  | .parallel ns | .list _ ns | .dict _ ns => by
    simp only [Node.moved, Node.text, Node.texts_moved ns]
  | .group _ _ _ n => by
    simp only [Node.moved, Node.text, Node.text?_moved n, Token.literal_moved]
  | .block b => by simp only [Node.moved, Node.text, Block.text_moved b]
  | .call n _ _ ns => by simp only [Node.moved, Node.text, Node.text_moved n, Node.texts_moved ns]
  | .varDef _ _ ns => by
    simp only [Node.moved, Node.text, definitionTexts_moved, Node.optionTexts_moved ns]
  | .funDecl _ _ ps _ => by
    simp only [Node.moved, Node.text, Param.texts_moved ps, Label.suffix_moved, Ident.name_moved]
  | .funDef _ _ ps _ b _ | .constructor _ _ ps _ b | .lambda _ ps _ b => by
    simp only [Node.moved, Node.text, Param.texts_moved ps, Block.text_moved b, Label.suffix_moved,
      Ident.name_moved]
  | .classDef _ _ b => by simp only [Node.moved, Node.text, Block.text_moved b, Ident.text_moved]
  | .branch cs none => by simp only [Node.moved, Block.moved?, Node.text, Condition.texts_moved cs]
  | .branch cs (some b) => by
    simp only [Node.moved, Block.moved?, Node.text, Condition.texts_moved cs, Block.text_moved b]
  | .whileLoop _ n b => by simp only [Node.moved, Node.text, Node.text_moved n, Block.text_moved b]
  | .forLoop _ l m n b => by
    simp only [Node.moved, Node.text, Node.text_moved l, Node.text_moved m, Node.text_moved n, Block.text_moved b]

theorem Node.text?_moved : ∀ n : Option Node, Node.text? (Node.moved? move n) = Node.text? n
  | none => rfl
  | some n => by rw [Node.moved?, Node.text?, Node.text?, Node.text_moved n]

theorem Node.texts_moved : ∀ ns : List Node, Node.texts (Node.movedAll move ns) = Node.texts ns
  | [] => rfl
  | n :: ns => by
    rw [Node.movedAll, Node.texts, Node.texts, Node.text_moved n, Node.texts_moved ns]

theorem Node.optionTexts_moved : ∀ ns : List (Option Node),
    Node.optionTexts (Node.movedEach? move ns) = Node.optionTexts ns
  | [] => rfl
  | n :: ns => by
    rw [Node.movedEach?, Node.optionTexts, Node.optionTexts, Node.text?_moved n, Node.optionTexts_moved ns]

theorem Block.text_moved : ∀ b : Block, (b.moved move).text = b.text
  | .mk _ _ [] => rfl
  | .mk _ _ (n :: ns) => by
    simp only [Block.moved, Node.movedAll, Block.text, Node.texts, Node.text_moved n, Node.texts_moved ns]

theorem Param.text_moved : ∀ p : Param, (p.moved move).text = p.text
  | .mk _ .keyword n => by simp only [Param.moved, Param.text, Ident.text_moved, Node.text?_moved n]
  | .mk _ .restPositional _ | .mk _ .restKeyword _ | .mk _ .positional _ => by
    simp only [Param.moved, Param.text, Ident.text_moved]

theorem Param.texts_moved : ∀ ps : List Param, Param.texts (Param.movedAll move ps) = Param.texts ps
  | [] => rfl
  | p :: ps => by
    rw [Param.movedAll, Param.texts, Param.texts, Param.text_moved p, Param.texts_moved ps]

theorem Condition.text_moved : ∀ c : Condition, (c.moved move).text = c.text
  | .mk _ n b => by
    simp only [Condition.moved, Condition.text, Node.text_moved n, Block.text_moved b, Token.literal_moved]

theorem Condition.texts_moved : ∀ cs : List Condition,
    Condition.texts (Condition.movedAll move cs) = Condition.texts cs
  | [] => rfl
  | c :: cs => by
    rw [Condition.movedAll, Condition.texts, Condition.texts, Condition.text_moved c, Condition.texts_moved cs]
end

/-! ## Trees that stay in place, and trees moved twice -/

section
variable (move move' : Position → Position)

theorem Token.moved_laws (t : Token) : t.moved id = t ∧ ∀ f g, (t.moved f).moved g = t.moved (g ∘ f) :=
  ⟨rfl, fun _ _ => rfl⟩

mutual
theorem Label.moved_laws : ∀ l : Label, l.moved id = l ∧ (l.moved move).moved move' = l.moved (move' ∘ move)
  | .mk token groups => by
    simp only [Label.moved, Label.movedGroups_laws groups, Token.moved_laws, and_self]

theorem Label.movedGroups_laws : ∀ gs : List (List Label), Label.movedGroups id gs = gs ∧
    Label.movedGroups move' (Label.movedGroups move gs) = Label.movedGroups (move' ∘ move) gs
  | [] => ⟨rfl, rfl⟩
  | g :: gs => by
    simp only [Label.movedGroups, Label.movedAll_laws g, Label.movedGroups_laws gs, and_self]

theorem Label.movedAll_laws : ∀ ls : List Label, Label.movedAll id ls = ls ∧
    Label.movedAll move' (Label.movedAll move ls) = Label.movedAll (move' ∘ move) ls
  | [] => ⟨rfl, rfl⟩
  | l :: ls => by simp only [Label.movedAll, Label.moved_laws l, Label.movedAll_laws ls, and_self]
end

theorem Label.map_moved_laws (ls : List Label) : ls.map (Label.moved id) = ls ∧
    ∀ f g, (ls.map (Label.moved f)).map (Label.moved g) = ls.map (Label.moved (g ∘ f)) := by
  simp only [← Label.movedAll_eq]
  exact ⟨(Label.movedAll_laws id id ls).1, fun f g => (Label.movedAll_laws f g ls).2⟩

theorem Ident.moved_laws (i : Ident) : i.moved id = i ∧ ∀ f g, (i.moved f).moved g = i.moved (g ∘ f) := by
  simp only [Ident.moved, Token.moved_laws, Label.map_moved_laws, implies_true, and_self]

theorem Ident.map_moved_laws (names : List Ident) : names.map (Ident.moved id) = names ∧
    ∀ f g, (names.map (Ident.moved f)).map (Ident.moved g) = names.map (Ident.moved (g ∘ f)) := by
  simp [Ident.moved_laws, funext fun i : Ident => i.moved_laws.1]

mutual
theorem Node.moved_laws : ∀ n : Node, n.moved id = n ∧ (n.moved move).moved move' = n.moved (move' ∘ move)
  | .int .. | .float .. | .str .. | .bool .. | .null .. | .this .. | .pass .. | .breakOut ..
  | .continueOn .. | .importFile .. => ⟨rfl, rfl⟩
  | .ident name | .classDecl _ name => by simp only [Node.moved, Ident.moved_laws, Token.moved_laws, and_self]
  | .unary _ n | .increment n _ => by simp only [Node.moved, Node.moved_laws n, Token.moved_laws, and_self]
  | .binary m _ n | .assign m _ n | .pair m _ n | .arrow m _ n | .index m _ n => by
    simp only [Node.moved, Node.moved_laws m, Node.moved_laws n, Token.moved_laws, and_self]
  | .parallel ns | .list _ ns | .dict _ ns => by
    simp only [Node.moved, Node.movedAll_laws ns, Token.moved_laws, and_self]
  | .group _ _ _ n | .returnFrom _ n => by
    simp only [Node.moved, Node.moved?_laws n, Token.moved_laws, and_self]
  | .block b => by simp only [Node.moved, Block.moved_laws b, and_self]
  | .argument _ n | .member n _ _ => by
    simp only [Node.moved, Node.moved_laws n, Ident.moved_laws, Token.moved_laws, and_self]
  | .call n _ _ ns => by
    simp only [Node.moved, Node.moved_laws n, Node.movedAll_laws ns, Token.moved_laws, and_self]
  | .varDef _ names ns => by
    simp only [Node.moved, Ident.map_moved_laws, Node.movedEach?_laws ns, Token.moved_laws, and_self]
  | .funDecl _ _ ps _ => by
    simp only [Node.moved, Param.movedAll_laws ps, Label.map_moved_laws, Ident.moved_laws, Token.moved_laws,
      and_self]
  | .funDef _ _ ps _ b _ | .constructor _ _ ps _ b | .lambda _ ps _ b => by
    simp only [Node.moved, Param.movedAll_laws ps, Block.moved_laws b, Label.map_moved_laws, Ident.moved_laws,
      Token.moved_laws, and_self]
  | .classDef _ _ b => by
    simp only [Node.moved, Block.moved_laws b, Ident.moved_laws, Token.moved_laws, and_self]
  | .branch cs b => by simp only [Node.moved, Condition.movedAll_laws cs, Block.moved?_laws b, and_self]
  | .whileLoop _ n b => by
    simp only [Node.moved, Node.moved_laws n, Block.moved_laws b, Token.moved_laws, and_self]
  | .forLoop _ l m n b => by
    simp only [Node.moved, Node.moved_laws l, Node.moved_laws m, Node.moved_laws n, Block.moved_laws b,
      Token.moved_laws, and_self]

theorem Node.moved?_laws : ∀ n : Option Node, Node.moved? id n = n ∧
    Node.moved? move' (Node.moved? move n) = Node.moved? (move' ∘ move) n
  | none => ⟨rfl, rfl⟩
  | some n => by simp only [Node.moved?, Node.moved_laws n, and_self]

theorem Node.movedAll_laws : ∀ ns : List Node, Node.movedAll id ns = ns ∧
    Node.movedAll move' (Node.movedAll move ns) = Node.movedAll (move' ∘ move) ns
  | [] => ⟨rfl, rfl⟩
  | n :: ns => by simp only [Node.movedAll, Node.moved_laws n, Node.movedAll_laws ns, and_self]

theorem Node.movedEach?_laws : ∀ ns : List (Option Node), Node.movedEach? id ns = ns ∧
    Node.movedEach? move' (Node.movedEach? move ns) = Node.movedEach? (move' ∘ move) ns
  | [] => ⟨rfl, rfl⟩
  | n :: ns => by simp only [Node.movedEach?, Node.moved?_laws n, Node.movedEach?_laws ns, and_self]

theorem Block.moved_laws : ∀ b : Block, b.moved id = b ∧ (b.moved move).moved move' = b.moved (move' ∘ move)
  | .mk _ _ ns => by simp only [Block.moved, Node.movedAll_laws ns, Token.moved_laws, and_self]

theorem Block.moved?_laws : ∀ b : Option Block, Block.moved? id b = b ∧
    Block.moved? move' (Block.moved? move b) = Block.moved? (move' ∘ move) b
  | none => ⟨rfl, rfl⟩
  | some b => by simp only [Block.moved?, Block.moved_laws b, and_self]

theorem Param.moved_laws : ∀ p : Param, p.moved id = p ∧ (p.moved move).moved move' = p.moved (move' ∘ move)
  | .mk _ _ n => by simp only [Param.moved, Node.moved?_laws n, Ident.moved_laws, and_self]

theorem Param.movedAll_laws : ∀ ps : List Param, Param.movedAll id ps = ps ∧
    Param.movedAll move' (Param.movedAll move ps) = Param.movedAll (move' ∘ move) ps
  | [] => ⟨rfl, rfl⟩
  | p :: ps => by simp only [Param.movedAll, Param.moved_laws p, Param.movedAll_laws ps, and_self]

theorem Condition.moved_laws : ∀ c : Condition,
    c.moved id = c ∧ (c.moved move).moved move' = c.moved (move' ∘ move)
  | .mk _ n b => by
    simp only [Condition.moved, Node.moved_laws n, Block.moved_laws b, Token.moved_laws, and_self]

theorem Condition.movedAll_laws : ∀ cs : List Condition, Condition.movedAll id cs = cs ∧
    Condition.movedAll move' (Condition.movedAll move cs) = Condition.movedAll (move' ∘ move) cs
  | [] => ⟨rfl, rfl⟩
  | c :: cs => by simp only [Condition.movedAll, Condition.moved_laws c, Condition.movedAll_laws cs, and_self]
end

theorem Node.moved_moved (n : Node) : (n.moved move).moved move' = n.moved (move' ∘ move) :=
  (n.moved_laws move move').2

theorem Node.moved_id (n : Node) : n.moved id = n := (n.moved_laws id id).1

theorem Node.map_moved_id (ns : List Node) : ns.map (Node.moved id) = ns := by
  rw [funext Node.moved_id, List.map_id']

end

/-! ## Every tree is a moved one -/

/-- Something that can be moved back is the image of what it is moved back to. -/
theorem surjective_moved {α : Type} {moved : (Position → Position) → α → α}
    (laws : ∀ f g a, moved id a = a ∧ moved g (moved f a) = moved (g ∘ f) a)
    (h : Function.Surjective move) : Function.Surjective (moved move) := by
  intro a
  obtain ⟨back, hback⟩ := h.hasRightInverse
  refine ⟨moved back a, ?_⟩
  rw [(laws back move a).2, show move ∘ back = id from funext hback, (laws id id a).1]

section
variable (h : Function.Surjective move)
include h

theorem Token.surjective_moved : Function.Surjective (Token.moved move) :=
  Frontend.surjective_moved (fun f g t => t.moved_laws.imp_right fun twice => twice f g) h

theorem Label.surjective_moved : Function.Surjective (Label.moved move) := Frontend.surjective_moved moved_laws h

theorem Ident.surjective_moved : Function.Surjective (Ident.moved move) :=
  Frontend.surjective_moved (fun f g i => i.moved_laws.imp_right fun twice => twice f g) h

theorem Node.surjective_moved : Function.Surjective (Node.moved move) := Frontend.surjective_moved moved_laws h

theorem Block.surjective_moved : Function.Surjective (Block.moved move) := Frontend.surjective_moved moved_laws h

theorem Param.surjective_moved : Function.Surjective (Param.moved move) := Frontend.surjective_moved moved_laws h

theorem Condition.surjective_moved : Function.Surjective (Condition.moved move) :=
  Frontend.surjective_moved moved_laws h

end

end Frontend
