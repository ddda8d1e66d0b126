import Frontend.Proofs.Word.Spelling

/-!
# Names in trees

Raw ids are made from the names in a tree. In a well-read tree all names that something may be called
by are plain words.
-/

namespace Frontend

variable {b : Block} {m n : Node}

def Ident.Spelled (i : Ident) : Prop := Word.Plain i.name

namespace Node

/-- The names that stand in a node itself. -/
def names : Node → List Ident
  | .ident name | .argument name _ | .classDecl _ name | .classDef _ name _ => [name]
  | .varDef _ names _ => names
  | .funDecl _ name params _ | .funDef _ name params _ _ _ | .constructor _ name params _ _ =>
    name :: params.map (·.name)
  | .lambda _ params _ _ => params.map (·.name)
  | _ => []

/-- The nodes that stand directly in a node. The default values of parameters are not among them. -/
def children : Node → List Node
  | .unary _ operand => [operand]
  | .binary left _ right => [left, right]
  | .increment operand _ => [operand]
  | .assign target _ value => [target, value]
  | .parallel items => items
  | .group _ _ _ body => body.toList
  | .block body => body.items
  | .list _ elements => elements
  | .pair key _ value => [key, value]
  | .dict _ pairs => pairs
  | .arrow left _ right => [left, right]
  | .argument _ value => [value]
  | .call callee _ _ args => callee :: args
  | .index left _ subscript => [left, subscript]
  | .member object _ _ => [object]
  | .varDef _ _ values => values.filterMap id
  | .funDef _ _ _ _ body _ | .lambda _ _ _ body | .constructor _ _ _ _ body
  | .classDef _ _ body => body.items
  | .branch tests otherwise =>
    tests.flatMap (fun c => c.test :: c.body.items) ++ (otherwise.map (·.items)).getD []
  | .whileLoop _ test body => test :: body.items
  | .forLoop _ init test update body => init :: test :: update :: body.items
  | .returnFrom _ value => value.toList
  | _ => []

theorem sizeOf_lt_of_mem_items (h : m ∈ b.items) : sizeOf m < sizeOf b := by
  cases b with
  | mk opener closer items =>
    have := List.sizeOf_lt_of_mem (show m ∈ items from h)
    simp
    omega

theorem sizeOf_lt_of_mem_condition {c : Condition} (h : m ∈ c.test :: c.body.items) :
    sizeOf m < sizeOf c := by
  cases c with
  | mk keyword test body =>
    rcases List.mem_cons.mp h with rfl | h
    · simp
      omega
    · have : sizeOf m < sizeOf body := sizeOf_lt_of_mem_items h
      simp
      omega

/-- What stands in a node is smaller than the node. -/
theorem sizeOf_lt_of_mem_children (h : m ∈ n.children) : sizeOf m < sizeOf n := by
  have nodes : ∀ ns : List Node, m ∈ ns → sizeOf m < sizeOf ns := fun _ => List.sizeOf_lt_of_mem
  have items : ∀ b : Block, m ∈ b.items → sizeOf m < sizeOf b := fun _ => sizeOf_lt_of_mem_items
  have values : ∀ vs : List (Option Node), some m ∈ vs → sizeOf m < sizeOf vs := fun _ hv =>
    Nat.lt_trans (by simp) (List.sizeOf_lt_of_mem hv)
  have tests : ∀ (cs : List Condition) c, c ∈ cs → m ∈ c.test :: c.body.items → sizeOf m < sizeOf cs :=
    fun _ _ hc hm => Nat.lt_trans (sizeOf_lt_of_mem_condition hm) (List.sizeOf_lt_of_mem hc)
  have otherwise : ∀ o : Option Block, m ∈ (o.map (·.items)).getD [] → sizeOf m < sizeOf o := by
    rintro (_ | b) hm
    · exact absurd hm List.not_mem_nil
    · exact Nat.lt_trans (sizeOf_lt_of_mem_items hm) (by simp)
  cases n <;> simp [children] at h ⊢ <;> grind

/-- A tree in which every name is a plain word. -/
inductive WellRead : Node → Prop where
  | intro {n : Node} (names : ∀ i ∈ n.names, i.Spelled) (children : ∀ m ∈ n.children, m.WellRead) :
      WellRead n

theorem WellRead.name (h : n.WellRead) {i : Ident} (hi : i ∈ n.names) : i.Spelled := by
  cases h with
  | intro names _ => exact names i hi

theorem WellRead.child (h : n.WellRead) (hm : m ∈ n.children) : m.WellRead := by
  cases h with
  | intro _ children => exact children m hm

/-- Items that are well read make a well-read block. -/
theorem wellRead_block (h : ∀ m ∈ b.items, m.WellRead) : (Node.block b).WellRead :=
  .intro (by simp [names]) h

end Node

end Frontend
