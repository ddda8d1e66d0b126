import Frontend.Proofs.Code.ReadBack
import Mathlib.Data.Set.Basic

/-!
# Regions of code

Code that is closed in itself is a sequence of plain instructions, whole loops and whole functions.
A region is such code with its nesting made visible. What a region needs from its surroundings can be
read off part by part, so it is known of two regions one after another as soon as it is known of
each.
-/

namespace Frontend

variable {op : Opcode} {r a b body : Region} {free known' : Set String} {Γ : Surroundings}
  {own : List String} {lo hi : Nat}
variable {i : Instruction} {w : String} {inLoop inFunction : Prop} {P : Opcode → List String → Region → Prop}
  {free' : Set String} {labels own' : List String}

namespace Instruction

/-- The labels that an instruction places. -/
def sets (i : Instruction) : List String :=
  match i.op with
  | .set => i.args
  | _ => []

/-- The labels that an instruction jumps to. -/
def uses (i : Instruction) : List String :=
  match i.op with
  | .jump => i.args
  | .jumpIfTrue | .jumpIfFalse => i.args.drop 1
  | _ => []

/-- The words whose values an instruction needs. Labels, types, relations and the names of fields
are no values. -/
def reads (i : Instruction) : List String :=
  match i.op with
  | .ret | .defineType | .append | .setItem | .deleteKey | .call | .output => i.args
  | .newInstance | .put | .copy | .add | .mul | .div | .mod | .negate | .not | .compare | .getItem
  | .size | .keys | .values | .invoke | .typeOf => i.args.dropLast
  | .jumpIfTrue | .jumpIfFalse | .relate | .cast | .getField | .addField | .addStaticField =>
    i.args.take 1
  | .setField => i.args.eraseIdx 1
  | _ => []

/-- The words that get a value from an instruction. -/
def writes (i : Instruction) : List String :=
  match i.op with
  | .allot => i.args
  | .newInstance | .put | .copy | .add | .mul | .div | .mod | .negate | .not | .compare | .getItem
  | .size | .keys | .values | .invoke | .typeOf | .relate | .cast | .getField | .input =>
    i.args.getLast?.toList
  | _ => []

/-- An instruction makes a word known if it makes room for it, or if the word is a temporary that
gets its value there. -/
def Defines (i : Instruction) (w : String) : Prop :=
  (i.op = .allot ∧ w ∈ i.args) ∨ (Word.IsTemp w ∧ w ∈ i.writes)

/-- An instruction that touches known words and free words only; temporaries may be written without
more ado. -/
def Touches (known : Set String) (i : Instruction) : Prop :=
  (∀ w ∈ i.reads, w ∈ known) ∧ ∀ w ∈ i.writes, w ∈ known ∨ i.Defines w

/-- A word that must be known in front of an instruction. -/
def Needs (i : Instruction) (w : String) : Prop :=
  w ∈ i.reads ∨ (w ∈ i.writes ∧ ¬ i.Defines w)

theorem Touches.known {known : Set String} (h : i.Touches known) (hw : i.Needs w) : w ∈ known := by
  rcases hw with hw | ⟨hw, hnot⟩
  · exact h.1 w hw
  · exact (h.2 w hw).resolve_right hnot

end Instruction

def Opcode.opensFunction : Opcode → Bool
  | .func | .funi => true
  | _ => false

theorem opensFrame_of_opensFunction (h : op.opensFunction = true) : op.opensFrame = true := by
  cases op <;> first | rfl | exact absurd h (by decide)

namespace Code

/-- Instructions in which every frame that is opened is closed again, one inside of the other, and
nothing is closed that was not opened. -/
inductive Balanced : List Instruction → Prop where
  | nil : Balanced []
  | plain {i : Instruction} {rest : List Instruction} (opens : i.op.opensFrame = false)
      (closes : i.op ≠ .finish) (hrest : Balanced rest) : Balanced (i :: rest)
  | frame {head last : Instruction} {body rest : List Instruction}
      (opens : head.op.opensFrame = true) (hbody : Balanced body) (closes : last.op = .finish)
      (hrest : Balanced rest) : Balanced (head :: (body ++ last :: rest))

end Code

/-- Code that is closed in itself. -/
inductive Region where
  | nil
  | note (text : String) (rest : Region)
  | item (i : Instruction) (rest : Region)
  /-- A loop with the labels of its head. -/
  | loop (labels : List String) (body rest : Region)
  /-- A function with the operands of its head. -/
  | func (op : Opcode) (head : List String) (body rest : Region)

namespace Region

def flatten : Region → Code
  | nil => []
  | note text rest => .note text :: rest.flatten
  | item i rest => .instr i :: rest.flatten
  | loop labels body rest =>
    .instr ⟨.untilLoop, labels⟩ :: (body.flatten ++ CodeItem.instr ⟨.finish, []⟩ :: rest.flatten)
  | func op head body rest =>
    .instr ⟨op, head⟩ :: (body.flatten ++ CodeItem.instr ⟨.finish, []⟩ :: rest.flatten)

/-- One region after another. -/
def append : Region → Region → Region
  | nil, r => r
  | note text rest, r => note text (rest.append r)
  | item i rest, r => item i (rest.append r)
  | loop labels body rest, r => loop labels body (rest.append r)
  | func op head body rest, r => func op head body (rest.append r)

/-- The labels that are placed outside of the functions of a region. -/
def sets : Region → List String
  | nil => []
  | note _ rest => rest.sets
  | item i rest => i.sets ++ rest.sets
  | loop _ body rest => body.sets ++ rest.sets
  | func _ _ _ rest => rest.sets

/-- All labels that are placed in a region. -/
def allSets : Region → List String
  | nil => []
  | note _ rest => rest.allSets
  | item i rest => i.sets ++ rest.allSets
  | loop _ body rest => body.allSets ++ rest.allSets
  | func _ _ body rest => body.allSets ++ rest.allSets

/-- The labels that are jumped to from outside of the functions of a region. -/
def uses : Region → List String
  | nil => []
  | note _ rest => rest.uses
  | item i rest => i.uses ++ rest.uses
  | loop _ body rest => body.uses ++ rest.uses
  | func _ _ _ rest => rest.uses

/-- The words that a region makes known to what comes behind it. -/
def defs : Region → Set String
  | nil => ∅
  | note _ rest => rest.defs
  | item i rest => { w | i.Defines w } ∪ rest.defs
  | loop _ body rest => body.defs ∪ rest.defs
  | func _ _ _ rest => rest.defs

/-- A region that can be printed and read again. Frames are opened and closed by its loops and
functions only. -/
def Proper : Region → Prop
  | nil => True
  | note _ rest => rest.Proper
  | item i rest =>
    (i.op ≠ .invalid ∧ i.op.opensFrame = false ∧ i.op ≠ .finish ∧ ∀ w ∈ i.args, Word.Clean w) ∧
      rest.Proper
  | loop labels body rest => (∀ w ∈ labels, Word.Clean w) ∧ body.Proper ∧ rest.Proper
  | func op head body rest =>
    (op.opensFunction = true ∧ ∀ w ∈ head, Word.Clean w) ∧ body.Proper ∧ rest.Proper

/-- A region in which no loop is left but where there is one and no function but where there is one.
The labels of a loop are placed in its body, and the jumps of a function stay inside. -/
def Contained (inLoop inFunction : Prop) : Region → Prop
  | nil => True
  | note _ rest => rest.Contained inLoop inFunction
  | item i rest =>
    ((i.op = .exitLoop → inLoop) ∧ (i.op = .ret → inFunction)) ∧ rest.Contained inLoop inFunction
  | loop labels body rest =>
    (labels ⊆ body.sets ∧ body.Contained True inFunction) ∧ rest.Contained inLoop inFunction
  | func _ _ body rest =>
    (body.uses ⊆ body.sets ∧ body.Contained False True) ∧ rest.Contained inLoop inFunction

/-- A region with something known of each of its functions: of its operation, of the operands of its head
and of its body. -/
def Functions (P : Opcode → List String → Region → Prop) : Region → Prop
  | nil => True
  | note _ rest => rest.Functions P
  | item _ rest => rest.Functions P
  | loop _ body rest => body.Functions P ∧ rest.Functions P
  | func op head body rest => (P op head body ∧ body.Functions P) ∧ rest.Functions P

/-- A region that touches words only after they were made known. Free words may be touched anywhere;
a function begins with its parameters, which are no temporaries. -/
def Defined (free : Set String) : Set String → Region → Prop
  | _, nil => True
  | known, note _ rest => rest.Defined free known
  | known, item i rest =>
    i.Touches (known ∪ free) ∧ rest.Defined free (known ∪ { w | i.Defines w })
  | known, loop _ body rest =>
    body.Defined free known ∧ rest.Defined free (known ∪ body.defs)
  | known, func _ head body rest =>
    ((∀ w ∈ head.tail, ¬ Word.IsTemp w) ∧ body.Defined free { w | w ∈ head.tail }) ∧
      rest.Defined free known

/-! ## Loops and functions alike -/

/-- A loop or a function in front of the rest of a region, with the instruction at its head. -/
inductive Framed : Region → Instruction → Region → Region → Prop where
  | loop {labels : List String} {body rest : Region} : Framed (loop labels body rest) ⟨.untilLoop, labels⟩ body rest
  | func {op : Opcode} {head : List String} {body rest : Region} : Framed (func op head body rest) ⟨op, head⟩ body rest

namespace Framed

variable {head : Instruction} {rest : Region}

section
variable (f : Framed r head body rest)
include f

section
variable (h : r.Proper)
include h

theorem proper_body : body.Proper := by cases f <;> exact h.2.1

theorem proper_rest : rest.Proper := by cases f <;> exact h.2.2

theorem clean : ∀ w ∈ head.args, Word.Clean w := by
  cases f with
  | loop => exact h.1
  | func => exact h.1.2

theorem opens : head.op.opensFrame = true := by
  cases f with
  | loop => rfl
  | func => exact opensFrame_of_opensFunction h.1.1

theorem op_ne (hop : op.opensFrame = false) : head.op ≠ op := by
  rintro rfl
  cases hop.symm.trans (f.opens h)

/-- The head of a frame places no labels. -/
theorem sets_head : head.sets = [] := by
  have hop : head.op ≠ .set := f.op_ne h rfl
  unfold Instruction.sets
  split <;> simp_all

end

theorem flatten :
    r.flatten = .instr head :: (body.flatten ++ CodeItem.instr ⟨.finish, []⟩ :: rest.flatten) := by cases f <;> rfl

theorem instructions : r.flatten.instructions =
    head :: (body.flatten.instructions ++ ⟨.finish, []⟩ :: rest.flatten.instructions) := by
  rw [f.flatten, Code.instructions_instr, Code.instructions_append, Code.instructions_instr]

theorem allSets : r.allSets = body.allSets ++ rest.allSets := by cases f <;> rfl

theorem uses_head (h : r.Proper) : head.uses = [] := by
  have hjump : head.op ≠ .jump := f.op_ne h rfl
  have htrue : head.op ≠ .jumpIfTrue := f.op_ne h rfl
  have hfalse : head.op ≠ .jumpIfFalse := f.op_ne h rfl
  unfold Instruction.uses
  split <;> simp_all

/-- What a loop places counts around it, what a function places counts inside only. -/
theorem mem_sets {l : String} (hl : l ∈ r.sets) : (head.op = .untilLoop ∧ l ∈ body.sets) ∨ l ∈ rest.sets := by
  cases f with
  | loop => exact (List.mem_append.mp hl).imp_left fun hl => ⟨rfl, hl⟩
  | func => exact .inr hl

theorem mem_defs (hw : w ∈ r.defs) : (head.op = .untilLoop ∧ w ∈ body.defs) ∨ w ∈ rest.defs := by
  cases f with
  | loop => exact hw.imp_left fun hw => ⟨rfl, hw⟩
  | func => exact .inr hw

theorem uses_rest : rest.uses ⊆ r.uses := by
  cases f with
  | loop => exact List.subset_append_right _ _
  | func => exact List.Subset.refl _

section
variable (hc : r.Contained inLoop inFunction)
include hc

/-- The jumps of a function stay inside, those of a loop may leave it. -/
theorem uses_body : (head.op = .untilLoop ∧ body.uses ⊆ r.uses) ∨ body.uses ⊆ body.sets := by
  cases f with
  | loop => exact .inl ⟨rfl, List.subset_append_left _ _⟩
  | func => exact .inr hc.1.1

theorem contained_body : ∃ inLoop inFunction, body.Contained inLoop inFunction := by
  cases f <;> exact ⟨_, _, hc.1.2⟩

theorem contained_rest :
    rest.Contained inLoop inFunction := by cases f <;> exact hc.2

end

theorem labels_subset (h : r.Proper) (hc : r.Contained inLoop inFunction) (hop : head.op = .untilLoop) :
    head.args ⊆ body.sets := by
  cases f with
  | loop => exact hc.1.1
  | func =>
    cases hop
    cases h.1.1

theorem functions (hP : r.Functions P) :
    (head.op.opensFunction = true → P head.op head.args body) ∧ body.Functions P ∧ rest.Functions P := by
  cases f with
  | loop => exact ⟨fun hop => absurd hop Bool.false_ne_true, hP.1, hP.2⟩
  | func => exact ⟨fun _ => hP.1.1, hP.1.2, hP.2⟩

theorem defined_rest {known : Set String} (hd : r.Defined free known) :
    ∃ known', rest.Defined free known' ∧ ∀ w ∈ known', w ∈ known ∨ (head.op = .untilLoop ∧ w ∈ body.defs) := by
  cases f with
  | loop => exact ⟨_, hd.2, fun _ hw => hw.imp_right fun hw => ⟨rfl, hw⟩⟩
  | func => exact ⟨_, hd.2, fun _ hw => .inl hw⟩

end

end Framed

/-- Proper regions, part by part. -/
theorem Proper.parts {motive : (r : Region) → r.Proper → Prop} (nil : motive nil trivial)
    (note : ∀ text rest (h : Proper rest), motive rest h → motive (note text rest) h)
    (item : ∀ i rest (h : Proper (item i rest)), motive rest h.2 → motive (item i rest) h)
    (framed : ∀ {r head body rest} (f : Framed r head body rest) (h : Proper r),
      motive body (f.proper_body h) → motive rest (f.proper_rest h) → motive r h) (r : Region) (h : r.Proper) : motive r h := by
  induction r with
  | nil => exact nil
  | note text rest ih => exact note text rest h (ih h)
  | item i rest ih => exact item i rest h (ih h.2)
  | loop labels body rest ihb ih => exact framed .loop h (ihb h.2.1) (ih h.2.2)
  | func op head body rest ihb ih => exact framed .func h (ihb h.2.1) (ih h.2.2)

/-- The labels that are placed in a region are those that its instructions place. -/
theorem flatMap_sets_flatten (h : r.Proper) : r.flatten.instructions.flatMap Instruction.sets = r.allSets := by
  induction r, h using Proper.parts with
  | nil => rfl
  | note text rest h ih => exact ih
  | item i rest h ih => rw [flatten, Code.instructions_instr, List.flatMap_cons, ih, allSets]
  | framed f h ihb ih =>
    rw [f.instructions, List.flatMap_cons, List.flatMap_append, List.flatMap_cons, ihb, ih, f.sets_head h, f.allSets]
    rfl

/-! ## One region after another -/

@[simp] theorem flatten_append (a b : Region) : (a.append b).flatten = a.flatten ++ b.flatten := by
  induction a <;> simp_all [append, flatten]

@[simp] theorem sets_append (a b : Region) : (a.append b).sets = a.sets ++ b.sets := by
  induction a <;> simp_all [append, sets]

@[simp] theorem allSets_append (a b : Region) : (a.append b).allSets = a.allSets ++ b.allSets := by
  induction a <;> simp_all [append, allSets]

@[simp] theorem uses_append (a b : Region) : (a.append b).uses = a.uses ++ b.uses := by
  induction a <;> simp_all [append, uses]

@[simp] theorem defs_append (a b : Region) : (a.append b).defs = a.defs ∪ b.defs := by
  induction a <;> simp_all [append, defs, Set.union_assoc]

theorem proper_append (ha : a.Proper) (hb : b.Proper) : (a.append b).Proper := by
  induction a with
  | nil => exact hb
  | note text rest ih => exact ih ha
  | item i rest ih => exact ⟨ha.1, ih ha.2⟩
  | loop labels body rest _ ih => exact ⟨ha.1, ha.2.1, ih ha.2.2⟩
  | func op head body rest _ ih => exact ⟨ha.1, ha.2.1, ih ha.2.2⟩

theorem contained_append (ha : a.Contained inLoop inFunction) (hb : b.Contained inLoop inFunction) :
    (a.append b).Contained inLoop inFunction := by
  induction a with
  | nil => exact hb
  | note text rest ih => exact ih ha
  | item i rest ih => exact ⟨ha.1, ih ha.2⟩
  | loop labels body rest _ ih => exact ⟨ha.1, ih ha.2⟩
  | func op head body rest _ ih => exact ⟨ha.1, ih ha.2⟩

theorem functions_append (ha : a.Functions P) (hb : b.Functions P) : (a.append b).Functions P := by
  induction a with
  | nil => exact hb
  | note text rest ih => exact ih ha
  | item i rest ih => exact ih ha
  | loop labels body rest _ ih => exact ⟨ha.1, ih ha.2⟩
  | func op head body rest _ ih => exact ⟨ha.1, ih ha.2⟩

theorem defined_append : ∀ {known : Set String}, a.Defined free known → b.Defined free (known ∪ a.defs) →
      (a.append b).Defined free known := by
  induction a with
  | nil =>
    intro known _ hb
    rw [defs, Set.union_empty] at hb
    exact hb
  | note text rest ih =>
    intro known ha hb
    exact ih ha hb
  | item i rest ih =>
    intro known ha hb
    refine ⟨ha.1, ih ha.2 ?_⟩
    rw [Set.union_assoc]
    exact hb
  | loop labels body rest _ ih =>
    intro known ha hb
    refine ⟨ha.1, ih ha.2 ?_⟩
    rw [Set.union_assoc]
    exact hb
  | func op head body rest _ ih =>
    intro known ha hb
    exact ⟨ha.1, ih ha.2 hb⟩

/-! ## Weaker surroundings -/

variable {known : Set String}

theorem Touches_mono (h : known ⊆ known') (hi : i.Touches known) : i.Touches known' :=
  ⟨fun w hw => h (hi.1 w hw), fun w hw => (hi.2 w hw).imp_left fun hk => h hk⟩

theorem Defined.mono (hf : free ⊆ free') (hk : known ⊆ known') (h : r.Defined free known) : r.Defined free' known' := by
  induction r generalizing known known' with
  | nil => trivial
  | note text rest ih => exact ih hk h
  | item i rest ih =>
    exact ⟨Touches_mono (Set.union_subset_union hk hf) h.1, ih (Set.union_subset_union hk subset_rfl) h.2⟩
  | loop labels body rest ihb ih =>
    exact ⟨ihb hk h.1, ih (Set.union_subset_union hk subset_rfl) h.2⟩
  | func op head body rest ihb ih => exact ⟨⟨h.1.1, ihb subset_rfl h.1.2⟩, ih hk h.2⟩

/-! ## Reading a region back -/

theorem readable_flatten (h : r.Proper) : ∀ item ∈ r.flatten, item.Readable := by
  induction r, h using Proper.parts with
  | nil => simp [flatten]
  | note text rest h ih =>
    intro item hitem
    rcases List.mem_cons.mp hitem with rfl | hitem
    · trivial
    · exact ih item hitem
  | item i rest h ih =>
    intro item hitem
    rcases List.mem_cons.mp hitem with rfl | hitem
    · exact ⟨h.1.1, h.1.2.2.2⟩
    · exact ih item hitem
  | framed f h ihb ih =>
    intro item hitem
    simp only [f.flatten, List.mem_cons, List.mem_append] at hitem
    rcases hitem with rfl | hitem | rfl | hitem
    · exact ⟨f.op_ne h rfl, f.clean h⟩
    · exact ihb item hitem
    · exact ⟨by decide, by simp⟩
    · exact ih item hitem

theorem checkFrom_cons (frames : List PlacedInstruction) (i : PlacedInstruction) (rest : List PlacedInstruction) :
    Code.checkFrom frames (i :: rest) = if i.instr.op.opensFrame then Code.checkFrom (i :: frames) rest
      else if i.instr.op == .finish then
        match frames with
        | [] => .error (.strayEnd i.line)
        | _ :: frames => Code.checkFrom frames rest
      else Code.checkFrom frames rest := by
  cases frames <;> rfl

/-- The frames of a region are all closed: going through its instructions changes nothing. -/
theorem checkFrom_flatten (h : r.Proper) : ∀ (frames placed rest : List PlacedInstruction),
      placed.map (·.instr) = r.flatten.instructions →
      Code.checkFrom frames (placed ++ rest) = Code.checkFrom frames rest := by
  induction r, h using Proper.parts with
  | nil =>
    intro frames placed rest hplaced
    rw [List.map_eq_nil_iff.mp hplaced, List.nil_append]
  | note text rest h ih => exact ih
  | item i rest h ih =>
    intro frames placed more hplaced
    obtain ⟨head, tail, rfl, hhead, htail⟩ := List.map_eq_cons_iff.mp hplaced
    rw [List.cons_append, checkFrom_cons, hhead, if_neg (by simp [h.1.2.1]), if_neg (by simp [h.1.2.2.1])]
    exact ih _ _ _ htail
  | framed f h ihb ih =>
    -- the frame is opened, gone through and closed
    intro frames placed more hplaced
    rw [f.instructions] at hplaced
    obtain ⟨head, tail, rfl, hhead, htail⟩ := List.map_eq_cons_iff.mp hplaced
    obtain ⟨inner, tail, rfl, hinner, htail⟩ := List.map_eq_append_iff.mp htail
    obtain ⟨last, tail, rfl, hlast, htail⟩ := List.map_eq_cons_iff.mp htail
    rw [List.cons_append, checkFrom_cons, hhead, if_pos (f.opens h), List.append_assoc, ihb _ _ _ hinner,
      List.cons_append, checkFrom_cons, hlast, if_neg (by decide), if_pos (by decide)]
    exact ih _ _ _ htail

theorem balanced_flatten (h : r.Proper) : Code.Balanced r.flatten.instructions := by
  induction r, h using Proper.parts with
  | nil => exact .nil
  | note text rest h ih => exact ih
  | item i rest h ih =>
    rw [flatten, Code.instructions_instr]
    exact .plain h.1.2.1 h.1.2.2.1 ih
  | framed f h ihb ih =>
    rw [f.instructions]
    exact .frame (f.opens h) ihb rfl ih

/-! ## Regions in their surroundings -/

/-- What stands around a region in the same function. -/
structure Surroundings where
  /-- The labels that are placed around the region. -/
  labels : Set String
  /-- Those among them that belong to loops. -/
  targets : Set String
  targets_subset : targets ⊆ labels
  inLoop : Prop
  inFunction : Prop

namespace Surroundings

/-- Surroundings in which further labels are placed. -/
def withLabels (Γ : Surroundings) (own : List String) : Surroundings :=
  { Γ with
    labels := Γ.labels ∪ { l | l ∈ own }
    targets_subset := Γ.targets_subset.trans Set.subset_union_left }

/-- The inside of a loop with its labels. -/
def enterLoop (Γ : Surroundings) (own : List String) : Surroundings :=
  { Γ with
    labels := Γ.labels ∪ { l | l ∈ own }
    targets := Γ.targets ∪ { l | l ∈ own }
    targets_subset := Set.union_subset_union_left _ Γ.targets_subset
    inLoop := True }

def function : Surroundings :=
  { labels := ∅, targets := ∅, targets_subset := subset_rfl, inLoop := False, inFunction := True }

/-- Outside of everything. -/
def outermost : Surroundings :=
  { labels := ∅, targets := ∅, targets_subset := subset_rfl, inLoop := False, inFunction := False }

end Surroundings

/-- A region that may stand in given surroundings, where some words are known and some are free. -/
structure Fits (Γ : Surroundings) (free known : Set String) (r : Region) : Prop where
  proper : r.Proper
  contained : r.Contained Γ.inLoop Γ.inFunction
  uses : ∀ l ∈ r.uses, l ∈ r.sets ∨ l ∈ Γ.labels
  defined : r.Defined free known

theorem Fits.nil : nil.Fits Γ free known :=
  ⟨trivial, trivial, by simp [Region.uses], trivial⟩

theorem Fits.append (ha : a.Fits Γ free known) (hb : b.Fits Γ free (known ∪ a.defs)) : (a.append b).Fits Γ free known := by
  refine ⟨proper_append ha.proper hb.proper, contained_append ha.contained hb.contained, ?_,
    defined_append ha.defined hb.defined⟩
  intro l hl
  rw [uses_append, List.mem_append] at hl
  rw [sets_append, List.mem_append]
  rcases hl with hl | hl
  · exact (ha.uses l hl).imp_left Or.inl
  · exact (hb.uses l hl).imp_left Or.inr

theorem Fits.mono (hf : free ⊆ free') (hk : known ⊆ known') (h : r.Fits Γ free known) : r.Fits Γ free' known' :=
  ⟨h.proper, h.contained, h.uses, h.defined.mono hf hk⟩

/-- Labels that a region places itself need not be placed around it. -/
theorem Fits.withoutLabels (h : r.Fits (Γ.withLabels own) free known) (hown : own ⊆ r.sets) : r.Fits Γ free known := by
  refine ⟨h.proper, h.contained, ?_, h.defined⟩
  intro l hl
  rcases h.uses l hl with hs | hs | hs
  · exact .inl hs
  · exact .inr hs
  · exact .inl (hown hs)

/-- A loop around a region that places the labels of the loop. -/
theorem Fits.loop (h : body.Fits (Γ.enterLoop own) free known) (hown : own ⊆ body.sets) (hplaced : labels ⊆ body.sets)
    (hclean : ∀ l ∈ labels, Word.Clean l) : (Region.loop labels body .nil).Fits Γ free known := by
  refine ⟨⟨hclean, h.proper, trivial⟩, ⟨⟨hplaced, h.contained⟩, trivial⟩, ?_, h.defined, trivial⟩
  intro l hl
  simp only [Region.uses, Region.sets, List.append_nil] at hl ⊢
  rcases h.uses l hl with hs | hs | hs
  · exact .inl hs
  · exact .inr hs
  · exact .inl (hown hs)

/-- A function around a region that knows the parameters. -/
theorem Fits.func {head : List String}
    (h : body.Fits .function free { w | w ∈ head.tail }) (hop : op.opensFunction = true)
    (hclean : ∀ w ∈ head, Word.Clean w) (htemp : ∀ w ∈ head.tail, ¬ Word.IsTemp w) :
    (Region.func op head body .nil).Fits Γ free known := by
  have inside : body.uses ⊆ body.sets := by
    intro l hl
    exact (h.uses l hl).elim id fun hn => absurd hn (Set.notMem_empty l)
  exact ⟨⟨⟨hop, hclean⟩, h.proper, trivial⟩, ⟨⟨inside, h.contained⟩, trivial⟩,
    by simp [Region.uses], ⟨htemp, h.defined⟩, trivial⟩

/-! ## Labels that are placed once -/

/-- A region that places the labels `own`, which were there before, and labels with numbers from `lo`
up to `hi`, each of them once. -/
structure Labelled (own : List String) (lo hi : Nat) (r : Region) : Prop where
  here : own ⊆ r.sets
  once : ∃ new : List String, r.allSets.Perm (own ++ new) ∧ new.Nodup ∧
    ∀ l ∈ new, ∃ n, lo ≤ n ∧ n < hi ∧ l = Word.label n

theorem labelled_of_allSets_nil (h : r.allSets = []) (lo hi : Nat) : r.Labelled [] lo hi :=
  ⟨by simp, [], by simp [h], by simp, by simp⟩

theorem Labelled.append {mid : Nat} (ha : a.Labelled own lo mid) (hb : b.Labelled own' mid hi) (hlo : lo ≤ mid)
    (hhi : mid ≤ hi) : (a.append b).Labelled (own ++ own') lo hi := by
  obtain ⟨new, hperm, hnodup, hnew⟩ := ha.once
  obtain ⟨new', hperm', hnodup', hnew'⟩ := hb.once
  refine ⟨?_, new ++ new', ?_, ?_, ?_⟩
  · rw [sets_append]
    exact List.append_subset.mpr ⟨List.subset_append_of_subset_left _ ha.here,
      List.subset_append_of_subset_right _ hb.here⟩
  · rw [allSets_append]
    refine (hperm.append hperm').trans ?_
    rw [List.append_assoc, List.append_assoc]
    refine List.Perm.append_left own ?_
    rw [← List.append_assoc, ← List.append_assoc]
    exact List.Perm.append_right new' List.perm_append_comm
  · refine List.nodup_append.mpr ⟨hnodup, hnodup', ?_⟩
    rintro l hl _ hl' rfl
    obtain ⟨n, -, hn, rfl⟩ := hnew l hl
    obtain ⟨m, hm, -, he⟩ := hnew' _ hl'
    have := Word.label_inj he
    omega
  · intro l hl
    rcases List.mem_append.mp hl with hl | hl
    · obtain ⟨n, h1, h2, h3⟩ := hnew l hl
      exact ⟨n, h1, by omega, h3⟩
    · obtain ⟨n, h1, h2, h3⟩ := hnew' l hl
      exact ⟨n, by omega, h2, h3⟩

/-- A label that is taken just before a region and placed in it counts among the new ones. -/
theorem Labelled.take (hlo : lo < hi) (h : r.Labelled (Word.label lo :: own) (lo + 1) hi) :
    r.Labelled own lo hi := by
  obtain ⟨new, hperm, hnodup, hnew⟩ := h.once
  refine ⟨fun l hl => h.here (List.mem_cons_of_mem _ hl), Word.label lo :: new, ?_, ?_, ?_⟩
  · exact hperm.trans (List.perm_middle.symm)
  · refine List.nodup_cons.mpr ⟨?_, hnodup⟩
    intro hl
    obtain ⟨n, hn, -, he⟩ := hnew _ hl
    have := Word.label_inj he
    omega
  · intro l hl
    rcases List.mem_cons.mp hl with rfl | hl
    · exact ⟨lo, le_refl _, hlo, rfl⟩
    · obtain ⟨n, h1, h2, h3⟩ := hnew l hl
      exact ⟨n, by omega, h2, h3⟩

theorem Labelled.perm (hp : own.Perm own') (h : r.Labelled own lo hi) : r.Labelled own' lo hi := by
  obtain ⟨new, hperm, hnodup, hnew⟩ := h.once
  exact ⟨fun l hl => h.here (hp.mem_iff.mpr hl), new, hperm.trans (hp.append_right new), hnodup, hnew⟩

theorem Labelled.loop (h : body.Labelled own lo hi) : (Region.loop labels body .nil).Labelled own lo hi :=
  ⟨by simpa [Region.sets] using h.here, by simpa [Region.allSets] using h.once⟩

theorem Labelled.func {head : List String} (h : body.Labelled [] lo hi) :
    (Region.func op head body .nil).Labelled [] lo hi :=
  ⟨by simp, by simpa [Region.allSets] using h.once⟩

theorem Labelled.nodup (h : r.Labelled [] lo hi) : r.allSets.Nodup := by
  obtain ⟨new, hperm, hnodup, -⟩ := h.once
  exact (List.Perm.nodup_iff hperm).mpr hnodup

end Region

end Frontend
