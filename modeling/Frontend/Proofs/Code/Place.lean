import Frontend.Proofs.Code.Region
import Mathlib.Data.List.Nodup
import Mathlib.Data.List.Pairwise

/-!
# Places in code

Every instruction of code stands at a place: it has an index, and around it are the frames that are
open there. This module says of the places in a region what the region was made to guarantee: where
jumps go, what is left by the instructions that leave something, and where words become known.
-/

namespace Frontend

variable {r rest body : Region} {l w : String} {inLoop inFunction : Prop} {p : Place}

/-- An open frame: the index of the instruction that opened it, and that instruction. -/
abbrev Frame := Nat × Instruction

/-- An instruction with its index and the frames around it, innermost first. -/
structure Place where
  index : Nat
  frames : List Frame
  instr : Instruction
  deriving DecidableEq, Repr

namespace Frame

def isFunction (f : Frame) : Bool := f.2.op.opensFunction

/-- The innermost function among open frames. -/
def function? (frames : List Frame) : Option Frame := frames.find? isFunction

/-- The loops that are open within the innermost function. -/
def loops (frames : List Frame) : List Frame := frames.takeWhile fun f => !f.isFunction

/-- The frames that are open behind an instruction. -/
def behind (index : Nat) (i : Instruction) (frames : List Frame) : List Frame :=
  if i.op.opensFrame then (index, i) :: frames
  else if i.op = .finish then frames.tail
  else frames

end Frame

namespace Place

/-- The innermost function around a place. -/
def function? (p : Place) : Option Frame := Frame.function? p.frames

/-- The loops around a place within its function. -/
def loops (p : Place) : List Frame := Frame.loops p.frames

end Place

/-- The places of instructions, from an index and open frames on. -/
def placesFrom : Nat → List Frame → List Instruction → List Place
  | _, _, [] => []
  | index, frames, i :: rest =>
    ⟨index, frames, i⟩ :: placesFrom (index + 1) (Frame.behind index i frames) rest

def places (is : List Instruction) : List Place := placesFrom 0 [] is

namespace Frame

theorem function?_func {op : Opcode} (h : op.opensFunction = true) (index : Nat) (head : List String)
    (frames : List Frame) : function? ((index, ⟨op, head⟩) :: frames) = some (index, ⟨op, head⟩) := by
  simp [function?, isFunction, h]

theorem function?_loop {head : Instruction} (h : head.op = .untilLoop) {index : Nat} {frames : List Frame} :
    function? ((index, head) :: frames) = function? frames := by
  simp [function?, isFunction, h, Opcode.opensFunction]

theorem loops_loop {head : Instruction} (h : head.op = .untilLoop) {index : Nat} {frames : List Frame} :
    loops ((index, head) :: frames) = (index, head) :: loops frames := by
  simp [loops, isFunction, h, Opcode.opensFunction]

end Frame

namespace Region

/-- The places of a region, from an index and open frames on. -/
def places (r : Region) (index : Nat) (frames : List Frame) : List Place :=
  placesFrom index frames r.flatten.instructions

def size (r : Region) : Nat := r.flatten.instructions.length

variable {head : Instruction}

theorem size_framed (f : Framed r head body rest) : r.size = body.size + rest.size + 2 := by
  simp only [size, f.instructions, List.length_cons, List.length_append]
  omega

/-- Behind a region the same frames are open as before it. -/
theorem placesFrom_append (h : r.Proper) : ∀ (index : Nat) (frames : List Frame) (more : List Instruction),
      placesFrom index frames (r.flatten.instructions ++ more) =
        r.places index frames ++ placesFrom (index + r.size) frames more := by
  induction r, h using Proper.parts with
  | nil => exact fun _ _ _ => rfl
  | note text rest h ih => exact ih
  | item i rest h ih =>
    intro index frames more
    have behind : Frame.behind index i frames = frames := by simp [Frame.behind, h.1.2.1, h.1.2.2.1]
    have hsize : index + (item i rest).size = index + 1 + rest.size := by
      simp only [size, flatten, Code.instructions_instr, List.length_cons]
      omega
    rw [hsize]
    simp only [Region.places, flatten, Code.instructions_instr, List.cons_append, placesFrom, behind, ih]
  | @framed r head body rest f h ihb ih =>
    intro index frames more
    have opened : Frame.behind index head frames = (index, head) :: frames := by simp [Frame.behind, f.opens h]
    have closed : ∀ k g, Frame.behind k (⟨.finish, []⟩ : Instruction) (g :: frames) = frames := fun _ _ => rfl
    have hsize : index + r.size = index + 1 + body.size + 1 + rest.size := by
      rw [size_framed f]
      omega
    have hrest : rest.places (index + 1 + body.size + 1) frames =
        placesFrom (index + 1 + body.size + 1) frames rest.flatten.instructions := rfl
    rw [hsize, show r.places index frames = placesFrom index frames r.flatten.instructions from rfl, f.instructions]
    simp only [List.cons_append, List.append_assoc, placesFrom, opened, ihb, closed, ih, hrest]

/-! ## The places of a region, part by part -/

theorem places_item {i : Instruction} (h : (item i rest).Proper) (index : Nat) (frames : List Frame) :
    (item i rest).places index frames = ⟨index, frames, i⟩ :: rest.places (index + 1) frames := by
  have behind : Frame.behind index i frames = frames := by
    simp [Frame.behind, h.1.2.1, h.1.2.2.1]
  simp only [places, flatten, Code.instructions_instr, placesFrom, behind]

/-- The places of a framed region: its head, its body, its end and what follows. -/
theorem places_framed (f : Framed r head body rest) (h : r.Proper) (index : Nat) (frames : List Frame) :
    r.places index frames = ⟨index, frames, head⟩ :: (body.places (index + 1) ((index, head) :: frames) ++
      ⟨index + 1 + body.size, (index, head) :: frames, ⟨.finish, []⟩⟩ ::
        rest.places (index + 1 + body.size + 1) frames) := by
  have opened : Frame.behind index head frames = (index, head) :: frames := by simp [Frame.behind, f.opens h]
  rw [places, f.instructions, placesFrom, opened, placesFrom_append (f.proper_body h), placesFrom]
  rfl

section

variable {index : Nat} {frames : List Frame}

theorem not_mem_places_nil : p ∉ nil.places index frames := List.not_mem_nil

section
variable (f : Framed r head body rest) (h : r.Proper)
include f h

theorem mem_places_framed : p ∈ r.places index frames ↔
    p = ⟨index, frames, head⟩ ∨ p ∈ body.places (index + 1) ((index, head) :: frames) ∨
      p = ⟨index + 1 + body.size, (index, head) :: frames, ⟨.finish, []⟩⟩ ∨
        p ∈ rest.places (index + 1 + body.size + 1) frames := by
  rw [places_framed f h]
  simp

theorem end_mem_places (index : Nat) (frames : List Frame) :
    ⟨index + 1 + body.size, (index, head) :: frames, ⟨.finish, []⟩⟩ ∈ r.places index frames :=
  (mem_places_framed f h).mpr (.inr (.inr (.inl rfl)))

theorem places_body_subset : body.places (index + 1) ((index, head) :: frames) ⊆ r.places index frames :=
  fun _ hp => (mem_places_framed f h).mpr (.inr (.inl hp))

theorem places_rest_subset : rest.places (index + 1 + body.size + 1) frames ⊆ r.places index frames :=
  fun _ hp => (mem_places_framed f h).mpr (.inr (.inr (.inr hp)))

end

end

/-! ## Jumps -/

/-- A label that a region places outside of its functions is placed in the function around it. -/
theorem exists_place_of_mem_sets (h : r.Proper) (hl : l ∈ r.sets) :
    ∀ (index : Nat) (frames : List Frame), ∃ q ∈ r.places index frames, l ∈ q.instr.sets ∧
      q.function? = Frame.function? frames ∧ Frame.loops frames ⊆ q.loops := by
  induction r, h using Proper.parts with
  | nil => exact absurd hl List.not_mem_nil
  | note text rest h ih => exact ih hl
  | item i rest h ih =>
    intro index frames
    rw [places_item h]
    rcases List.mem_append.mp hl with hl | hl
    · exact ⟨_, List.mem_cons_self, hl, rfl, List.Subset.refl _⟩
    · obtain ⟨q, hq, rest⟩ := ih hl (index + 1) frames
      exact ⟨q, List.mem_cons_of_mem _ hq, rest⟩
  | @framed r head body rest f h ihb ih =>
    intro index frames
    rcases f.mem_sets hl with ⟨hop, hl⟩ | hl
    · obtain ⟨q, hq, hset, hfun, hloops⟩ := ihb hl (index + 1) ((index, head) :: frames)
      rw [Frame.function?_loop hop] at hfun
      rw [Frame.loops_loop hop] at hloops
      exact ⟨q, places_body_subset f h hq, hset, hfun, fun _ hf => hloops (List.mem_cons_of_mem _ hf)⟩
    · obtain ⟨q, hq, rest⟩ := ih hl (index + 1 + body.size + 1) frames
      exact ⟨q, places_rest_subset f h hq, rest⟩

section
variable (h : r.Proper) (hc : r.Contained inLoop inFunction)
include h hc

/-- A jump stays in its function: its label is placed there, or the jump is one of those that leave
the region. -/
theorem target_of_mem_uses :
    ∀ {index : Nat} {frames : List Frame} {p : Place}, p ∈ r.places index frames → l ∈ p.instr.uses →
      (l ∈ r.uses ∧ p.function? = Frame.function? frames) ∨
        ∃ q ∈ r.places index frames, l ∈ q.instr.sets ∧ q.function? = p.function? := by
  induction r, h using Proper.parts generalizing inLoop inFunction with
  | nil => exact fun hp => absurd hp not_mem_places_nil
  | note text rest h ih => exact ih hc
  | item i rest h ih =>
    intro index frames p hp hl
    rw [places_item h] at hp ⊢
    rcases List.mem_cons.mp hp with rfl | hp
    · exact .inl ⟨List.mem_append_left _ hl, rfl⟩
    · rcases ih hc.2 hp hl with ⟨hu, hf⟩ | ⟨q, hq, rest⟩
      · exact .inl ⟨List.mem_append_right _ hu, hf⟩
      · exact .inr ⟨q, List.mem_cons_of_mem _ hq, rest⟩
  | @framed r head body rest f h ihb ih =>
    intro index frames p hp hl
    rcases (mem_places_framed f h).mp hp with rfl | hp | rfl | hp
    · exact absurd (f.uses_head h ▸ hl) List.not_mem_nil
    · obtain ⟨_, _, hbody⟩ := f.contained_body hc
      rcases ihb hbody hp hl with ⟨hu, hf⟩ | ⟨q, hq, rest⟩
      · rcases f.uses_body hc with ⟨hop, huses⟩ | huses
        · exact .inl ⟨huses hu, hf.trans (Frame.function?_loop hop)⟩
        · obtain ⟨q, hq, hset, hfun, -⟩ :=
            exists_place_of_mem_sets (f.proper_body h) (huses hu) (index + 1) ((index, head) :: frames)
          exact .inr ⟨q, places_body_subset f h hq, hset, hfun.trans hf.symm⟩
      · exact .inr ⟨q, places_body_subset f h hq, rest⟩
    · exact absurd hl List.not_mem_nil
    · rcases ih (f.contained_rest hc) hp hl with ⟨hu, hf⟩ | ⟨q, hq, rest⟩
      · exact .inl ⟨f.uses_rest hu, hf⟩
      · exact .inr ⟨q, places_rest_subset f h hq, rest⟩

/-- The labels of a loop are placed between its head and its end. -/
theorem target_of_loop :
    ∀ {index : Nat} {frames : List Frame} {p : Place}, p ∈ r.places index frames →
      p.instr.op = .untilLoop → l ∈ p.instr.args →
      ∃ q ∈ r.places index frames, l ∈ q.instr.sets ∧ q.function? = p.function? ∧ (p.index, p.instr) ∈ q.loops := by
  induction r, h using Proper.parts generalizing inLoop inFunction with
  | nil => exact fun hp => absurd hp not_mem_places_nil
  | note text rest h ih => exact ih hc
  | item i rest h ih =>
    intro index frames p hp hop hl
    rw [places_item h] at hp ⊢
    rcases List.mem_cons.mp hp with rfl | hp
    · have closed := h.1.2.1
      rw [hop] at closed
      exact absurd closed (by decide)
    · obtain ⟨q, hq, rest⟩ := ih hc.2 hp hop hl
      exact ⟨q, List.mem_cons_of_mem _ hq, rest⟩
  | @framed r head body rest f h ihb ih =>
    intro index frames p hp hop hl
    rcases (mem_places_framed f h).mp hp with rfl | hp | rfl | hp
    · obtain ⟨q, hq, hset, hfun, hloops⟩ := exists_place_of_mem_sets (f.proper_body h) (f.labels_subset h hc hop hl)
        (index + 1) ((index, head) :: frames)
      rw [Frame.function?_loop hop] at hfun
      rw [Frame.loops_loop hop] at hloops
      exact ⟨q, places_body_subset f h hq, hset, hfun, hloops List.mem_cons_self⟩
    · obtain ⟨_, _, hbody⟩ := f.contained_body hc
      obtain ⟨q, hq, rest⟩ := ihb hbody hp hop hl
      exact ⟨q, places_body_subset f h hq, rest⟩
    · cases hop
    · obtain ⟨q, hq, rest⟩ := ih (f.contained_rest hc) hp hop hl
      exact ⟨q, places_rest_subset f h hq, rest⟩

/-- What leaves a loop stands in a loop of its function, and what leaves a function stands in one. -/
theorem place_of_leaving :
    ∀ {index : Nat} {frames : List Frame}, (inLoop → Frame.loops frames ≠ []) →
      (inFunction → (Frame.function? frames).isSome = true) → ∀ {p : Place}, p ∈ r.places index frames →
        (p.instr.op = .exitLoop → p.loops ≠ []) ∧ (p.instr.op = .ret → p.function?.isSome = true) := by
  induction r, h using Proper.parts generalizing inLoop inFunction with
  | nil => exact fun _ _ _ hp => absurd hp not_mem_places_nil
  | note text rest h ih => exact ih hc
  | item i rest h ih =>
    intro index frames hloop hfun p hp
    rw [places_item h] at hp
    rcases List.mem_cons.mp hp with rfl | hp
    · exact ⟨fun he => hloop (hc.1.1 he), fun he => hfun (hc.1.2 he)⟩
    · exact ih hc.2 hloop hfun hp
  | @framed r head body rest f h ihb ih =>
    intro index frames hloop hfun p hmem
    rcases (mem_places_framed f h).mp hmem with rfl | hp | rfl | hp
    · exact ⟨fun hop => absurd hop (f.op_ne h rfl), fun hop => absurd hop (f.op_ne h rfl)⟩
    · have around : head.op = .untilLoop → Frame.loops ((index, head) :: frames) ≠ [] := by
        intro hop
        rw [Frame.loops_loop hop]
        exact List.cons_ne_nil _ _
      cases f with
      | loop => exact ihb hc.1.2 (fun _ => around rfl) hfun hp
      | func => exact ihb hc.1.2 False.elim (fun _ => by rw [Frame.function?_func h.1.1]; rfl) hp
    · simp
    · exact ih (f.contained_rest hc) hloop hfun hp

end

theorem map_instr_placesFrom (is : List Instruction) : ∀ (index : Nat) (frames : List Frame),
    (placesFrom index frames is).map (·.instr) = is := by
  induction is with
  | nil => exact fun _ _ => rfl
  | cons i is ih =>
    intro index frames
    rw [placesFrom, List.map_cons, ih]

/-- The labels of a region in the order of the text. -/
theorem flatMap_sets_places (h : r.Proper) (index : Nat) (frames : List Frame) :
    (r.places index frames).flatMap (·.instr.sets) = r.allSets := by
  rw [← flatMap_sets_flatten h, ← map_instr_placesFrom r.flatten.instructions index frames, List.flatMap_map]
  rfl

/-- Where no label is placed twice, two places of one label are the same. -/
theorem place_unique (h : r.Proper) (hn : r.allSets.Nodup) {index : Nat} {frames : List Frame}
    {q : Place} (hp : p ∈ r.places index frames) (hq : q ∈ r.places index frames)
    (hlp : l ∈ p.instr.sets) (hlq : l ∈ q.instr.sets) : p = q := by
  rw [← flatMap_sets_places h index frames, List.nodup_flatMap] at hn
  by_contra hne
  have symm : Std.Symm (Function.onFun List.Disjoint fun x : Place => x.instr.sets) :=
    ⟨fun _ _ hab _ ha hb => hab hb ha⟩
  exact hn.2.forall hp hq hne hlp hlq

/-! ## Known words -/

theorem index_of_mem_places (h : r.Proper) : ∀ {index : Nat} {frames : List Frame}, p ∈ r.places index frames →
      index ≤ p.index ∧ p.index < index + r.size := by
  induction r, h using Proper.parts with
  | nil => exact fun hp => absurd hp not_mem_places_nil
  | note text rest h ih => exact ih
  | item i rest h ih =>
    intro index frames hp
    have hsize : (item i rest).size = rest.size + 1 := by simp [size, flatten]
    rw [places_item h] at hp
    rcases List.mem_cons.mp hp with rfl | hp
    · simp only
      omega
    · have := ih hp
      omega
  | framed f h ihb ih =>
    intro index frames hp
    have hsize := size_framed f
    rcases (mem_places_framed f h).mp hp with rfl | hp | rfl | hp
    · simp only
      omega
    · have := ihb hp
      omega
    · simp only
      omega
    · have := ih hp
      omega

theorem exists_place_of_mem_defs (h : r.Proper) (hw : w ∈ r.defs) :
    ∀ (index : Nat) (frames : List Frame), ∃ q ∈ r.places index frames,
      q.instr.Defines w ∧ q.function? = Frame.function? frames := by
  induction r, h using Proper.parts with
  | nil => exact absurd hw (Set.notMem_empty w)
  | note text rest h ih => exact ih hw
  | item i rest h ih =>
    intro index frames
    rw [places_item h]
    rcases hw with hw | hw
    · exact ⟨_, List.mem_cons_self, hw, rfl⟩
    · obtain ⟨q, hq, rest⟩ := ih hw (index + 1) frames
      exact ⟨q, List.mem_cons_of_mem _ hq, rest⟩
  | @framed r head body rest f h ihb ih =>
    intro index frames
    rcases f.mem_defs hw with ⟨hop, hw⟩ | hw
    · obtain ⟨q, hq, hdef, hfun⟩ := ihb hw (index + 1) ((index, head) :: frames)
      exact ⟨q, places_body_subset f h hq, hdef, hfun.trans (Frame.function?_loop hop)⟩
    · obtain ⟨q, hq, rest⟩ := ih hw (index + 1 + body.size + 1) frames
      exact ⟨q, places_rest_subset f h hq, rest⟩

/-- How a word came to be known at a place among given ones: at the head of the function, or by an
earlier instruction of the same function. -/
def KnownAt (among : List Place) (p : Place) (w : String) : Prop :=
  (∃ f, p.function? = some f ∧ w ∈ f.2.args.tail ∧ ¬ Word.IsTemp w) ∨
    ∃ q ∈ among, q.index < p.index ∧ q.function? = p.function? ∧ q.instr.Defines w

theorem KnownAt.mono {few many : List Place} (h : few ⊆ many) (hk : KnownAt few p w) : KnownAt many p w := by
  rcases hk with hk | ⟨q, hq, rest⟩
  · exact .inl hk
  · exact .inr ⟨q, h hq, rest⟩

theorem not_needs_head (op : Opcode) (h : op.opensFrame = true ∨ op = .finish)
    (args : List String) (w : String) : ¬ (⟨op, args⟩ : Instruction).Needs w := by
  have untouched : (⟨op, args⟩ : Instruction).reads = [] ∧ (⟨op, args⟩ : Instruction).writes = [] := by
    rcases h with h | rfl
    · cases op <;> first | exact ⟨rfl, rfl⟩ | exact absurd h (by decide)
    · exact ⟨rfl, rfl⟩
  rintro (hw | ⟨hw, -⟩)
  · rw [untouched.1] at hw
    exact nomatch hw
  · rw [untouched.2] at hw
    exact nomatch hw

/-- What an instruction of a region needs is free, or it was made known before: around the region in
the same function, or within. -/
theorem known_of_defined {free : Set String} (h : r.Proper) :
    ∀ {known : Set String}, r.Defined free known → ∀ {index : Nat} {frames : List Frame}
      {p : Place}, p ∈ r.places index frames → p.instr.Needs w →
      w ∈ free ∨ (w ∈ known ∧ p.function? = Frame.function? frames) ∨ KnownAt (r.places index frames) p w := by
  induction r, h using Proper.parts with
  | nil => exact fun _ _ _ _ hp => absurd hp not_mem_places_nil
  | note text rest h ih => exact ih
  | item i rest h ih =>
    intro known hd index frames p hp hw
    rw [places_item h] at hp ⊢
    rcases List.mem_cons.mp hp with rfl | hp
    · rcases hd.1.known hw with hk | hf
      · exact .inr (.inl ⟨hk, rfl⟩)
      · exact .inl hf
    · rcases ih hd.2 hp hw with hf | ⟨hk | hdef, hfun⟩ | hknown
      · exact .inl hf
      · exact .inr (.inl ⟨hk, hfun⟩)
      · refine .inr (.inr (.inr ⟨_, List.mem_cons_self, ?_, hfun.symm, hdef⟩))
        have := (index_of_mem_places h.2 hp).1
        simp only
        omega
      · exact .inr (.inr (hknown.mono (List.subset_cons_self _ _)))
  | @framed r head body rest f h ihb ih =>
    intro known hd index frames p hmem hw
    rcases (mem_places_framed f h).mp hmem with rfl | hp | rfl | hp
    · exact absurd hw (not_needs_head head.op (.inl (f.opens h)) _ _)
    · cases f with
      | loop =>
        exact (ihb hd.1 hp hw).imp_right (.imp_right (KnownAt.mono (places_body_subset .loop h)))
      | func =>
        rcases ihb hd.1.2 hp hw with hf | ⟨hk, hfun⟩ | hknown
        · exact .inl hf
        · rw [Frame.function?_func h.1.1] at hfun
          exact .inr (.inr (.inl ⟨_, hfun, hk, hd.1.1 w hk⟩))
        · exact .inr (.inr (hknown.mono (places_body_subset .func h)))
    · exact absurd hw (not_needs_head .finish (.inr rfl) _ _)
    · obtain ⟨known', hrest, hknown'⟩ := f.defined_rest hd
      rcases ih hrest hp hw with hf | ⟨hk, hfun⟩ | hknown
      · exact .inl hf
      · rcases hknown' w hk with hk | ⟨hop, hdef⟩
        · exact .inr (.inl ⟨hk, hfun⟩)
        · obtain ⟨q, hq, hqw, hqf⟩ := exists_place_of_mem_defs (f.proper_body h) hdef (index + 1)
            ((index, head) :: frames)
          rw [Frame.function?_loop hop] at hqf
          refine .inr (.inr (.inr ⟨q, places_body_subset f h hq, ?_, hqf.trans hfun.symm, hqw⟩))
          have before := (index_of_mem_places (f.proper_body h) hq).2
          have after := (index_of_mem_places (f.proper_rest h) hp).1
          omega
      · exact .inr (.inr (hknown.mono (places_rest_subset f h)))

end Region

end Frontend
