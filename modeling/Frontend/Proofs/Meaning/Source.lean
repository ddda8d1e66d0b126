import Frontend.Proofs.Word.Basic
import Frontend.Tree.Basic

/-!
# What programs mean

Programs of variables, assignments, branches and loops, and what they do. A variable is known by its
name and by the number of its definition in the text. Expressions have a value and no effect;
statements change variables and may end in a way that concerns the loop around them.
-/

namespace Frontend.Meaning

/-- A variable: its name, and which definition of the text it comes from. -/
structure Variable where
  name : String
  number : Nat
  deriving DecidableEq, Repr, Inhabited

def Variable.rid (x : Variable) : String := Word.numbered x.name x.number

theorem Variable.rid_inj {x y : Variable} (h : x.rid = y.rid) : x = y := by
  obtain ⟨name, number⟩ := x
  obtain ⟨other, count⟩ := y
  have parts : name = other ∧ number = count := Word.numbered_inj h
  rw [parts.1, parts.2]

theorem Variable.rid_ne_temp (x : Variable) (j : Nat) : x.rid ≠ Word.temp j := by
  intro h
  exact Word.not_isTemp_of_isNumbered (Word.isNumbered_numbered x.name x.number) ⟨j, h⟩

/-- A value: a whole number of 64 bits or a truth value. -/
inductive Value where
  | int (n : Int)
  | bool (b : Bool)
  deriving DecidableEq, Repr, Inhabited

namespace Value

/-- Whether a test with this value holds. -/
def truth : Value → Bool
  | int n => n != 0
  | bool b => b

def number : Value → Int
  | int n => n
  | bool b => if b then 1 else 0

def add (a b : Value) : Value := int (Decimal.wrapWord (a.number + b.number))

def sub (a b : Value) : Value := int (Decimal.wrapWord (a.number - b.number))

def mul (a b : Value) : Value := int (Decimal.wrapWord (a.number * b.number))

def negate (a : Value) : Value := int (Decimal.wrapWord (-a.number))

def not (a : Value) : Value := bool (!a.truth)

/-- Whether a relation holds between two values. -/
def relate : Relation → Value → Value → Value
  | .eq, a, b => bool (a.number == b.number)
  | .ne, a, b => bool (a.number != b.number)
  | .gt, a, b => bool (decide (b.number < a.number))
  | .ge, a, b => bool (decide (b.number ≤ a.number))
  | .lt, a, b => bool (decide (a.number < b.number))
  | .le, a, b => bool (decide (a.number ≤ b.number))
  | .and, a, b => bool (a.truth && b.truth)
  | .or, a, b => bool (a.truth || b.truth)

/-- A difference is a sum with the opposite. -/
theorem add_negate (a b : Value) : a.add b.negate = a.sub b := by
  simp only [add, sub, negate, number, Decimal.wrapWord, Int.add_bmod_bmod, Int.sub_eq_add_neg]

theorem add_int_neg (a : Value) (n : Int) : a.add (int (-n)) = a.sub (int n) := by
  simp only [add, sub, number, Int.sub_eq_add_neg]

end Value

/-- The operators of arithmetic. -/
inductive Arith where
  | add | sub | mul
  deriving DecidableEq, Repr, Inhabited

/-- What an operator of arithmetic makes of two values. -/
def Arith.apply : Arith → Value → Value → Value
  | add => Value.add
  | sub => Value.sub
  | mul => Value.mul

/-- Expressions. -/
inductive Expr where
  | lit (n : Int)
  | var (x : Variable)
  | negate (e : Expr)
  | not (e : Expr)
  | arith (op : Arith) (left right : Expr)
  | relate (relation : Relation) (left right : Expr)
  deriving DecidableEq, Repr, Inhabited

/-- The values of the variables that have one. -/
abbrev Store := Variable → Option Value

/-- A store in which a variable has a new value. -/
def Store.set (σ : Store) (x : Variable) (v : Value) : Store := fun y =>
  if y = x then some v else σ y

/-- The value of an expression. There are no effects, so both sides of an operator have a value. -/
def Expr.eval (σ : Store) : Expr → Option Value
  | lit n => some (.int n)
  | var x => σ x
  | negate e => (e.eval σ).map Value.negate
  | not e => (e.eval σ).map Value.not
  | arith op left right => do return op.apply (← left.eval σ) (← right.eval σ)
  | relate relation left right => do return .relate relation (← left.eval σ) (← right.eval σ)

/-- Statements. A definition of a variable is an assignment, `x += e` assigns `x + e`, and a chain of
tests is a branch in a branch. -/
inductive Stmt where
  | skip
  | seq (first second : Stmt)
  | assign (x : Variable) (value : Expr)
  | branch (test : Expr) (yes no : Stmt)
  /-- A loop; the update is done between two rounds, also when a round ends early. -/
  | loop (test : Expr) (body update : Stmt)
  | breakOut
  | continueOn
  deriving DecidableEq, Repr, Inhabited

/-- How a statement ends: by itself, by leaving the loop around it, or by going on to the next round
of that loop. -/
inductive Ending where
  | normal | broken | continued
  deriving DecidableEq, Repr, Inhabited

/-- What statements do, from beginning to end. -/
inductive Exec : Store → Stmt → Ending → Store → Prop where
  | skip {σ : Store} : Exec σ .skip .normal σ
  | seq {σ σ₁ σ₂ : Store} {first second : Stmt} {e : Ending} (hfirst : Exec σ first .normal σ₁)
      (hsecond : Exec σ₁ second e σ₂) : Exec σ (.seq first second) e σ₂
  | seqEarly {σ σ₁ : Store} {first second : Stmt} {e : Ending} (hfirst : Exec σ first e σ₁)
      (he : e ≠ .normal) : Exec σ (.seq first second) e σ₁
  | assign {σ : Store} {x : Variable} {value : Expr} {v : Value} (hv : value.eval σ = some v) :
      Exec σ (.assign x value) .normal (σ.set x v)
  | branchYes {σ σ₁ : Store} {test : Expr} {yes no : Stmt} {e : Ending} {v : Value}
      (hv : test.eval σ = some v) (ht : v.truth = true) (hyes : Exec σ yes e σ₁) :
      Exec σ (.branch test yes no) e σ₁
  | branchNo {σ σ₁ : Store} {test : Expr} {yes no : Stmt} {e : Ending} {v : Value}
      (hv : test.eval σ = some v) (ht : v.truth = false) (hno : Exec σ no e σ₁) :
      Exec σ (.branch test yes no) e σ₁
  | loopEnd {σ : Store} {test : Expr} {body update : Stmt} {v : Value}
      (hv : test.eval σ = some v) (ht : v.truth = false) :
      Exec σ (.loop test body update) .normal σ
  | loopBroken {σ σ₁ : Store} {test : Expr} {body update : Stmt} {v : Value}
      (hv : test.eval σ = some v) (ht : v.truth = true) (hbody : Exec σ body .broken σ₁) :
      Exec σ (.loop test body update) .normal σ₁
  | loopRound {σ σ₁ σ₂ σ₃ : Store} {test : Expr} {body update : Stmt} {v : Value} {e : Ending}
      (hv : test.eval σ = some v) (ht : v.truth = true) (hbody : Exec σ body e σ₁)
      (he : e ≠ .broken) (hupdate : Exec σ₁ update .normal σ₂)
      (hrest : Exec σ₂ (.loop test body update) .normal σ₃) :
      Exec σ (.loop test body update) .normal σ₃
  | breakOut {σ : Store} : Exec σ .breakOut .broken σ
  | continueOn {σ : Store} : Exec σ .continueOn .continued σ

/-! ## Reading programs off trees

The trees that are built from initialised variables, assignments, blocks, branches and loops, read as
statements. Names are resolved on the way: a name stands for the innermost definition that the text
has given so far. Trees with anything else in them are not read. -/

/-- The names that one scope gives a meaning, with the numbers of their definitions. -/
abbrev Names := List (String × Nat)

/-- What names mean at a place of the text. -/
structure Scoping where
  /-- The open scopes, innermost first. -/
  inner : List Names := []
  global : Names := []
  /-- How many definitions there were so far. -/
  next : Nat := 0
  deriving DecidableEq, Repr, Inhabited

namespace Scoping

/-- The variable that a name stands for. -/
def find? (c : Scoping) (name : String) : Option Variable :=
  ((c.inner ++ [c.global]).findSome? (·.lookup name)).map fun number => { name, number }

def enter (c : Scoping) : Scoping := { c with inner := [] :: c.inner }

/-- Closes the innermost scope. -/
def leave (c : Scoping) : Scoping := { c with inner := c.inner.tail }

/-- The variable that comes from the next definition. -/
def fresh (c : Scoping) (name : String) : Variable := { name, number := c.next }

/-- Gives a name the meaning of the next definition, in the innermost scope or in the global one. -/
def define (c : Scoping) (global : Bool) (name : String) : Scoping :=
  match global, c.inner with
  | false, scope :: rest =>
    { c with inner := ((name, c.next) :: scope) :: rest, next := c.next + 1 }
  | _, _ => { c with global := (name, c.next) :: c.global, next := c.next + 1 }

end Scoping

/-- The operator of arithmetic with a spelling. -/
def Arith.ofText? : String → Option Arith
  | "+" => some .add
  | "-" => some .sub
  | "*" => some .mul
  | _ => none

/-- The operator that a compound assignment applies. -/
def Arith.ofCompound? : String → Option Arith
  | "+=" => some .add
  | "-=" => some .sub
  | "*=" => some .mul
  | _ => none

/-- The whole numbers that have an opposite of 64 bits. -/
def hasOpposite (n : Int) : Bool := Decimal.inWord n && Decimal.inWord (-n)

/-- An expression without effects. -/
def Expr.ofNode? (c : Scoping) : Node → Option Expr
  | .int _ n => if hasOpposite n then some (.lit n) else none
  | .ident name => (c.find? name.name).map .var
  | .unary op operand =>
    match op.kind with
    | .op .minus => (Expr.ofNode? c operand).map .negate
    | .op .not => (Expr.ofNode? c operand).map .not
    | _ => none
  | .binary left op right => do
    let l ← Expr.ofNode? c left
    let r ← Expr.ofNode? c right
    match (Operator.ofText? op.literal).bind Relation.ofOperator? with
    | some relation => return .relate relation l r
    | none => return .arith (← Arith.ofText? op.literal) l r
  | .group _ _ _ (some inner) => Expr.ofNode? c inner
  | _ => none

/-- Whether a variable is put into the global scope by its labels. -/
def isGlobal (labels : List Label) : Bool :=
  labels.any fun l => (l.token.kind matches .label (.lifeCycle _)) && l.name == "global"

/-- Definitions of variables, one after another. The value is read before the name is known. -/
def Stmt.ofDefinitions? (c : Scoping) : List Ident → List (Option Node) → Option (Stmt × Scoping)
  | name :: names, some value :: values => do
    let e ← Expr.ofNode? c value
    let (rest, after) ← ofDefinitions? (c.define (isGlobal name.labels) name.name) names values
    return (.seq (.assign (c.fresh name.name) e) rest, after)
  | _ :: _, none :: _ => none
  | _, _ => some (.skip, c)

def Stmt.ofAssignment? (c : Scoping) (target : Node) (op : Token) (value : Node) :
    Option (Stmt × Scoping) :=
  match target with
  | .ident name => do
    let e ← Expr.ofNode? c value
    let x ← c.find? name.name
    if op.kind == .op .assign then return (.assign x e, c)
    else return (.assign x (.arith (← Arith.ofCompound? op.literal) (.var x) e), c)
  | _ => none

/-- An increment or decrement of a variable. -/
def Stmt.ofIncrement? (c : Scoping) (operand : Node) (op : Token) : Option (Stmt × Scoping) :=
  match operand, op.kind with
  | .ident name, .op .increment => do
    let x ← c.find? name.name
    return (.assign x (.arith .add (.var x) (.lit 1)), c)
  | .ident name, .op .decrement => do
    let x ← c.find? name.name
    return (.assign x (.arith .sub (.var x) (.lit 1)), c)
  | _, _ => none

/-- A chain of tests, with what to do when none of them holds. -/
def Stmt.chain (tests : List (Expr × Stmt)) (otherwise : Stmt) : Stmt :=
  tests.foldr (fun t rest => .branch t.1 t.2 rest) otherwise

mutual
/-- The statement that a node stands for, and what names mean behind it. -/
def Stmt.ofNode? (c : Scoping) : Node → Option (Stmt × Scoping)
  | .varDef _ names values => Stmt.ofDefinitions? c names values
  | .assign target op value => Stmt.ofAssignment? c target op value
  | .increment operand op => Stmt.ofIncrement? c operand op
  | .block body => Stmt.ofBlock? c body
  | .branch tests otherwise => do
    let (tests, c) ← Stmt.ofTests? c tests
    let (last, c) ← Stmt.ofOtherwise? c otherwise
    return (Stmt.chain tests last, c)
  | .whileLoop _ test body => do
    let e ← Expr.ofNode? c.enter test
    let (body, c) ← Stmt.ofBlock? c.enter body
    return (.loop e body .skip, c.leave)
  | .forLoop _ init test update body => do
    let (init, c) ← Stmt.ofNode? c.enter init
    let e ← Expr.ofNode? c test
    let (body, c) ← Stmt.ofBlock? c body
    let (update, c) ← Stmt.ofNode? c update
    return (.seq init (.loop e body update), c.leave)
  | .breakOut _ => some (.breakOut, c)
  | .continueOn _ => some (.continueOn, c)
  | _ => none

/-- The items of a block, in a scope of their own. -/
def Stmt.ofBlock? (c : Scoping) : Block → Option (Stmt × Scoping)
  | .mk _ _ items => do
    let (s, c) ← Stmt.ofItems? c.enter items
    return (s, c.leave)

/-- Items one after another. -/
def Stmt.ofItems? (c : Scoping) : List Node → Option (Stmt × Scoping)
  | [] => some (.skip, c)
  | n :: ns => do
    let (first, c) ← Stmt.ofNode? c n
    let (rest, c) ← Stmt.ofItems? c ns
    return (.seq first rest, c)

/-- The tests of a chain, each with what to do when it holds. -/
def Stmt.ofTests? (c : Scoping) : List Condition → Option (List (Expr × Stmt) × Scoping)
  | [] => some ([], c)
  | .mk _ test body :: rest => do
    let e ← Expr.ofNode? c test
    let (body, c) ← Stmt.ofBlock? c body
    let (tests, c) ← Stmt.ofTests? c rest
    return ((e, body) :: tests, c)

/-- What to do when no test of a chain holds. -/
def Stmt.ofOtherwise? (c : Scoping) : Option Block → Option (Stmt × Scoping)
  | none => some (.skip, c)
  | some body => Stmt.ofBlock? c body
end

/-- The statement that a program stands for. -/
def Stmt.ofProgram? (p : Program) : Option Stmt := (Stmt.ofItems? {} p.body).map Prod.fst

end Frontend.Meaning
