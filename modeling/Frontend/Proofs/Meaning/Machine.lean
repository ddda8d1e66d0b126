import Frontend.Proofs.Code.Region
import Frontend.Proofs.Meaning.Source
import Mathlib.Logic.Relation

/-!
# The machine

What the instructions do that programs without functions are made of. A machine has a memory, a place
in the code and a stack of open loops. Operands are whole numbers or words of the memory. Instructions
on other values than whole numbers and truth values have no meaning here.
-/

namespace Frontend.Machine

open Meaning

variable {c : List Instruction} {head pc : Nat} {l : String}

/-- What a word of the memory holds: a value, or two values that were compared. -/
inductive Cell where
  | value (v : Value)
  | order (a b : Value)
  deriving DecidableEq, Repr, Inhabited

/-- What the words hold that hold something. -/
abbrev Memory := String → Option Cell

/-- A memory in which a word holds something else. -/
def Memory.set (m : Memory) (w : String) (cell : Option Cell) : Memory := fun w' =>
  if w' = w then cell else m w'

/-- A machine: the index of the next instruction, the memory, and the indices of the heads of the open
loops, innermost first. -/
structure State where
  pc : Nat
  memory : Memory
  loops : List Nat

def operand? (m : Memory) (w : String) : Option Value :=
  match Decimal.readWord? w, m w with
  | some n, _ => some (.int n)
  | none, some (.value v) => some v
  | _, _ => none

def relation? (name : String) : Option Relation :=
  [Relation.eq, .ne, .gt, .ge, .lt, .le, .and, .or].find? (·.name == name)

/-- The memory behind an instruction that only computes. -/
def compute (m : Memory) (i : Instruction) : Option Memory :=
  match i.op, i.args with
  | .allot, [x] => some (m.set x none)
  | .put, [n, x] => (Decimal.readWord? n).map fun n => m.set x (some (.value (.int n)))
  | .copy, [a, x] => (operand? m a).map fun v => m.set x (some (.value v))
  | .add, [a, b, x] => do return m.set x (some (.value ((← operand? m a).add (← operand? m b))))
  | .mul, [a, b, x] => do return m.set x (some (.value ((← operand? m a).mul (← operand? m b))))
  | .negate, [a, x] => (operand? m a).map fun v => m.set x (some (.value v.negate))
  | .not, [a, x] => (operand? m a).map fun v => m.set x (some (.value v.not))
  | .compare, [a, b, x] => do return m.set x (some (.order (← operand? m a) (← operand? m b)))
  | .relate, [a, name, x] =>
    match m a, relation? name with
    | some (.order v w), some r => some (m.set x (some (.value (.relate r v w))))
    | _, _ => none
  | .set, [_] => some m
  | _, _ => none

/-- The index of the instruction that places a label. -/
def target? (is : List Instruction) (l : String) : Option Nat := is.findIdx? (· = ⟨.set, [l]⟩)

/-- How many instructions it takes to get past the end of the frame that is open at the depth 0. -/
def toEnd? : (depth : Nat) → List Instruction → Option Nat
  | _, [] => none
  | depth, i :: rest =>
    if i.op.opensFrame then (toEnd? (depth + 1) rest).map (· + 1)
    else if i.op = .finish then
      match depth with
      | 0 => some 1
      | depth + 1 => (toEnd? depth rest).map (· + 1)
    else (toEnd? depth rest).map (· + 1)

/-- The index behind the end of the loop whose head has a given index. -/
def past? (is : List Instruction) (head : Nat) : Option Nat :=
  (toEnd? 0 (is.drop (head + 1))).map (head + 1 + ·)

def step (is : List Instruction) (s : State) : Option State :=
  match is[s.pc]? with
  | none => none
  | some i =>
    match i.op, i.args with
    | .jump, [l] => (target? is l).map fun pc => { s with pc }
    | .jumpIfTrue, [a, l] => do
      let v ← operand? s.memory a
      let pc ← target? is l
      return { s with pc := if v.truth then pc else s.pc + 1 }
    | .jumpIfFalse, [a, l] => do
      let v ← operand? s.memory a
      let pc ← target? is l
      return { s with pc := if v.truth then s.pc + 1 else pc }
    | .untilLoop, [_, _] => some { s with pc := s.pc + 1, loops := s.pc :: s.loops }
    | .finish, [] =>
      match s.loops with
      | [] => none
      | _ :: outer => some { s with pc := s.pc + 1, loops := outer }
    | .exitLoop, [] =>
      match s.loops with
      | [] => none
      | head :: outer => (past? is head).map fun pc => { s with pc, loops := outer }
    | _, _ => (compute s.memory i).map fun memory => { s with pc := s.pc + 1, memory }

/-- Steps one after another. -/
def Steps (is : List Instruction) : State → State → Prop :=
  Relation.ReflTransGen fun s s' => step is s = some s'

/-! ## Frames -/

theorem toEnd?_cons (depth : Nat) (i : Instruction) (rest : List Instruction) : toEnd? depth (i :: rest) =
      if i.op.opensFrame then (toEnd? (depth + 1) rest).map (· + 1)
      else if i.op = .finish then
        match depth with
        | 0 => some 1
        | depth + 1 => (toEnd? depth rest).map (· + 1)
      else (toEnd? depth rest).map (· + 1) := by
  cases depth <;> rfl

/-- Balanced code is passed over on the way to the end of a frame. -/
theorem toEnd?_balanced (h : Code.Balanced c) : ∀ (depth : Nat) (rest : List Instruction),
      toEnd? depth (c ++ rest) = (toEnd? depth rest).map (c.length + ·) := by
  induction h with
  | nil =>
    intro depth rest
    simp
  | @plain i c hopens hcloses _ ih =>
    intro depth rest
    rw [List.cons_append, toEnd?_cons, if_neg (by simp [hopens]), if_neg hcloses, ih, Option.map_map]
    congr 1
    funext n
    simp
    omega
  | @frame head last body c hopens _ hcloses _ ihbody ih =>
    intro depth rest
    have notOpens : last.op.opensFrame = false := by
      rw [hcloses]
      rfl
    have inner : toEnd? (depth + 1) (last :: (c ++ rest)) =
        ((toEnd? depth rest).map (c.length + ·)).map (· + 1) := by
      rw [← ih, toEnd?_cons, if_neg (by simp [notOpens]), if_pos hcloses]
    rw [List.cons_append, toEnd?_cons, if_pos hopens, List.append_assoc, ihbody, List.cons_append, inner]
    simp only [Option.map_map]
    congr 1
    funext n
    simp
    omega

/-- A loop is left behind its end. -/
theorem past?_eq {is body rest : List Instruction} (hbody : Code.Balanced body)
    (h : is.drop (head + 1) = body ++ ⟨.finish, []⟩ :: rest) :
    past? is head = some (head + 1 + body.length + 1) := by
  have closing : toEnd? 0 ((⟨.finish, []⟩ : Instruction) :: rest) = some 1 := rfl
  unfold past?
  rw [h, toEnd?_balanced hbody, closing]
  rfl

/-! ## Places of code -/

/-- A passage stands in code from an index on. -/
def Occurs (c is : List Instruction) (k : Nat) : Prop := c <+: is.drop k

theorem occurs_cons {i : Instruction} {is : List Instruction} {k : Nat} :
    Occurs (i :: c) is k ↔ is[k]? = some i ∧ Occurs c is (k + 1) := by
  unfold Occurs
  rw [← List.drop_drop, ← List.head?_drop]
  cases is.drop k with
  | nil => simp
  | cons first rest => simp [List.cons_prefix_cons, eq_comm]

theorem occurs_append {d is : List Instruction} {k : Nat} :
    Occurs (c ++ d) is k ↔ Occurs c is k ∧ Occurs d is (k + c.length) := by
  induction c generalizing k with
  | nil => simp [Occurs]
  | cons i c ih =>
    rw [List.cons_append, occurs_cons, occurs_cons, ih, List.length_cons, and_assoc,
      show k + 1 + c.length = k + (c.length + 1) by omega]

/-- A label that is placed once is found where it is placed. -/
theorem target?_eq {is : List Instruction} (hn : (is.flatMap Instruction.sets).Nodup) {k : Nat}
    (h : is[k]? = some ⟨.set, [l]⟩) : target? is l = some k := by
  induction is generalizing k with
  | nil => simp at h
  | cons i is ih =>
    rw [List.flatMap_cons] at hn
    cases k with
    | zero =>
      simp only [List.getElem?_cons_zero, Option.some.injEq] at h
      simp [target?, h, List.findIdx?_cons]
    | succ k =>
      rw [List.getElem?_cons_succ] at h
      have placed : l ∈ is.flatMap Instruction.sets :=
        List.mem_flatMap.mpr ⟨_, List.mem_of_getElem? h, List.mem_singleton.mpr rfl⟩
      have other : i ≠ ⟨.set, [l]⟩ := by
        rintro rfl
        exact (List.nodup_append.mp hn).2.2 l (List.mem_singleton.mpr rfl) l placed rfl
      have found := ih (List.nodup_append.mp hn).2.1 h
      unfold target? at found ⊢
      simp [List.findIdx?_cons, other, found]

/-! ## Single steps -/

variable {is : List Instruction} {k : Nat} {m m' : Memory} {loops : List Nat}

theorem step_of_compute {i : Instruction} (hi : is[k]? = some i) (hm : compute m i = some m') :
    Steps is ⟨k, m, loops⟩ ⟨k + 1, m', loops⟩ := by
  refine .single ?_
  obtain ⟨op, args⟩ := i
  unfold step
  rw [hi]
  cases op <;> first | (simp only [hm]; rfl) | simp [compute] at hm

theorem step_jump (hi : is[k]? = some ⟨.jump, [l]⟩) (hl : target? is l = some pc) :
    Steps is ⟨k, m, loops⟩ ⟨pc, m, loops⟩ := by
  refine .single ?_
  unfold step
  simp [hi, hl]

theorem step_jumpIfFalse {a : String} {v : Value} (hi : is[k]? = some ⟨.jumpIfFalse, [a, l]⟩)
    (ha : operand? m a = some v) (hl : target? is l = some pc) :
    Steps is ⟨k, m, loops⟩ ⟨if v.truth then k + 1 else pc, m, loops⟩ := by
  refine .single ?_
  unfold step
  simp [hi, ha, hl]

theorem step_open {l' : String} (hi : is[k]? = some ⟨.untilLoop, [l, l']⟩) :
    Steps is ⟨k, m, loops⟩ ⟨k + 1, m, k :: loops⟩ := by
  refine .single ?_
  unfold step
  simp [hi]

theorem step_close (hi : is[k]? = some ⟨.finish, []⟩) : Steps is ⟨k, m, head :: loops⟩ ⟨k + 1, m, loops⟩ := by
  refine .single ?_
  unfold step
  simp [hi]

theorem step_exit (hi : is[k]? = some ⟨.exitLoop, []⟩) (hp : past? is head = some pc) :
    Steps is ⟨k, m, head :: loops⟩ ⟨pc, m, loops⟩ := by
  refine .single ?_
  unfold step
  simp [hi, hp]

end Frontend.Machine
