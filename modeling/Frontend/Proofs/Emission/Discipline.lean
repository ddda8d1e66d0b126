import Frontend.Proofs.Lowering.Unit
import Frontend.Proofs.Code.Place

/-!
# Frames of emitted code

Whatever is accepted, the printed code can be read again, and in it every function and every loop is
closed once, one inside of the other.
-/

namespace Frontend

variable {p : Place}

theorem Region.checkFrames_flatten {r : Region} (h : r.Proper) {placed : List PlacedInstruction}
    (hplaced : placed.map (·.instr) = r.flatten.instructions) : Code.checkFrames placed = .ok () := by
  have closed := checkFrom_flatten h [] placed [] hplaced
  rw [List.append_nil] at closed
  exact closed

/-- Accepted programs become code that is read from its text as it was written, and whose frames are
balanced. -/
theorem balanced_of_compileSource {files : FileTree} {annotate : Bool} {imports : Option Imports}
    {src : Source} {file : String} {code : Code}
    (h : compileSource files { annotate, imports } src file = .ok code) :
    ∃ placed, Code.read code.render = .ok placed ∧ Code.checkFrames placed = .ok () ∧
      placed.map (·.instr) = code.instructions ∧ Code.Balanced code.instructions := by
  obtain ⟨p, after, r, -, -, hr⟩ := exists_written_of_compileSource h
  obtain ⟨rfl, fits, -, -⟩ := hr
  obtain ⟨placed, hread, hplaced⟩ := Code.read_render (Region.readable_flatten fits.proper)
  exact ⟨placed, hread, Region.checkFrames_flatten fits.proper hplaced, hplaced,
    Region.balanced_flatten fits.proper⟩

theorem balanced_of_sampleSource :
    ∃ code, compileSource {} { annotate := true } sampleSource "main" = .ok code ∧
      ∃ placed, Code.read code.render = .ok placed ∧ Code.checkFrames placed = .ok () ∧
        placed.map (·.instr) = code.instructions ∧ Code.Balanced code.instructions := by
  obtain ⟨code, h⟩ := exists_code_sampleSource
  exact ⟨code, h, balanced_of_compileSource h⟩

/-! ## Jumps of emitted code

Every label that code jumps to is placed once, in the function of the jump. The labels of a loop are
placed inside of the loop. A loop is left, and a function returned from, only where there is one. -/

/-- The labels that the head of a loop names. -/
def Instruction.loopLabels (i : Instruction) : List String :=
  match i.op with
  | .untilLoop => i.args
  | _ => []

namespace Region

variable {r : Region} {free : Set String}

/-- A label that is named anywhere in a closed region is placed in the same function; the label of a
loop is placed inside of the loop. -/
theorem exists_target (h : r.Fits .outermost free ∅) (hp : p ∈ r.places 0 []) {l : String}
    (hl : l ∈ p.instr.uses ∨ l ∈ p.instr.loopLabels) :
    ∃ q ∈ r.places 0 [], l ∈ q.instr.sets ∧ q.function? = p.function? ∧
      (l ∈ p.instr.loopLabels → (p.index, p.instr) ∈ q.loops) := by
  by_cases hloop : l ∈ p.instr.loopLabels
  · have hop : p.instr.op = .untilLoop ∧ l ∈ p.instr.args := by
      unfold Instruction.loopLabels at hloop
      split at hloop
      · exact ⟨by assumption, hloop⟩
      · exact nomatch hloop
    obtain ⟨q, hq, hset, hfun, hin⟩ := target_of_loop h.proper h.contained hp hop.1 hop.2
    exact ⟨q, hq, hset, hfun, fun _ => hin⟩
  · rcases target_of_mem_uses h.proper h.contained hp (hl.resolve_right hloop) with
      ⟨huses, hfun⟩ | ⟨q, hq, hset, hfun⟩
    · -- nothing is around the region, so a label that is used there is placed there
      have hset : l ∈ r.sets := (h.uses l huses).resolve_right fun hn => Set.notMem_empty l hn
      obtain ⟨q, hq, hset, hqfun, -⟩ := exists_place_of_mem_sets h.proper hset 0 []
      exact ⟨q, hq, hset, hqfun.trans hfun.symm, fun hn => absurd hn hloop⟩
    · exact ⟨q, hq, hset, hfun, fun hn => absurd hn hloop⟩

end Region

/-- Jumps of accepted programs stay inside of their functions and have one target each. -/
theorem jumps_of_compileSource {files : FileTree} {annotate : Bool} {imports : Option Imports}
    {src : Source} {file : String} {code : Code}
    (h : compileSource files { annotate, imports } src file = .ok code) :
    ∀ p ∈ places code.instructions,
      (∀ l, l ∈ p.instr.uses ∨ l ∈ p.instr.loopLabels →
        ∃ q ∈ places code.instructions, l ∈ q.instr.sets ∧
          (∀ q' ∈ places code.instructions, l ∈ q'.instr.sets → q' = q) ∧
          q.function? = p.function? ∧
          (l ∈ p.instr.loopLabels → (p.index, p.instr) ∈ q.loops)) ∧
      (p.instr.op = .exitLoop → p.loops ≠ []) ∧
      (p.instr.op = .ret → p.function?.isSome = true) := by
  obtain ⟨_, after, r, -, -, hr⟩ := exists_written_of_compileSource h
  obtain ⟨rfl, fits, once, -⟩ := hr
  intro p hp
  refine ⟨fun l hl => ?_, ?_⟩
  · obtain ⟨q, hq, hset, hfun, hin⟩ := Region.exists_target fits hp hl
    refine ⟨q, hq, hset, fun q' hq' hset' => ?_, hfun, hin⟩
    exact Region.place_unique fits.proper once hq' hq hset' hset
  · exact Region.place_of_leaving fits.proper fits.contained (fun hn => hn.elim)
      (fun hn => hn.elim) hp

theorem jumps_of_sampleSource :
    ∃ code, compileSource {} { annotate := true } sampleSource "main" = .ok code ∧
      ∀ p ∈ places code.instructions,
        (∀ l, l ∈ p.instr.uses ∨ l ∈ p.instr.loopLabels →
          ∃ q ∈ places code.instructions, l ∈ q.instr.sets ∧
            (∀ q' ∈ places code.instructions, l ∈ q'.instr.sets → q' = q) ∧
            q.function? = p.function? ∧
            (l ∈ p.instr.loopLabels → (p.index, p.instr) ∈ q.loops)) ∧
        (p.instr.op = .exitLoop → p.loops ≠ []) ∧
        (p.instr.op = .ret → p.function?.isSome = true) := by
  obtain ⟨code, h⟩ := exists_code_sampleSource
  exact ⟨code, h, jumps_of_compileSource h⟩

/-! ## Words of emitted code

A temporary is read only behind an instruction of the same function that writes it. A variable is
touched only by the function that made room for it or got it as a parameter, unless it belongs to the
global scope. -/

namespace SymbolTable

/-- A word that is the raw id of a variable, or of a parameter of a function. -/
def IsVariableRid (t : SymbolTable) (w : String) : Prop :=
  (∃ id < t.symbols.size, (t.get id).sort = .variable ∧ (t.get id).rid = w) ∨
    ∃ id f, (t.get id).function? = some f ∧ ∃ p ∈ f.params, p.rid = w

/-- A word that is the raw id of a variable of the global scope. -/
def IsGlobalVariable (t : SymbolTable) (w : String) : Prop :=
  ∃ id, (w, id) ∈ t.global.rids ∧ (t.get id).rid = w ∧ (t.get id).level = 0 ∧
    (t.get id).sort = .variable

variable {n : Nat} {t : SymbolTable} {w : String}

/-- The raw ids of variables have numbers, and nothing else has them. -/
theorem IsVariableRid.numbered (h : Ordered n t) (hw : t.IsVariableRid w) : (∃ m, Word.IsNumbered w m) ∧
      ∀ id < t.symbols.size, (t.get id).rid = w → (t.get id).sort = .variable := by
  rcases hw with ⟨id, hid, hsort, rfl⟩ | ⟨id, f, hf, p, hp, rfl⟩
  · refine ⟨?_, fun j hj hrid => (h.sorts id hid j hj hrid.symm).mp hsort⟩
    rcases (h.symbols id hid).numbered with ⟨m, -, hm⟩ | ⟨-, hne⟩
    · exact ⟨m, hm⟩
    · exact absurd hsort hne
  · have hid : id < t.symbols.size :=
      lt_size_of_sort_ne (by rw [Symbol.sort_of_function hf]; exact fun e => nomatch e)
    have ok := (h.symbols id hid).params f hf p hp
    obtain ⟨m, -, hm⟩ := ok.numbered
    exact ⟨⟨m, hm⟩, ok.reserved⟩

/-- Among the words that mean the same everywhere, variables are those of the global scope. -/
theorem IsVariableRid.global_of_free (h : Ordered n t) (hw : t.IsVariableRid w) (hf : w ∈ t.free) :
    t.IsGlobalVariable w := by
  obtain ⟨⟨m, hm⟩, sort⟩ := hw.numbered h
  rcases hf with hconstant | hglobal | ⟨id, hne, hrid⟩
  · exact absurd hm (hconstant.2 m)
  · obtain ⟨⟨rid, id⟩, hmem, rfl⟩ := List.mem_map.mp hglobal
    have ok := h.rids _ hmem
    exact ⟨id, hmem, ok.rid, ok.level, sort id ok.known ok.rid⟩
  · exact absurd (sort id (lt_size_of_sort_ne hne) hrid) hne

/-- A temporary means nothing outside of its function. -/
theorem not_mem_free_of_isTemp (h : Ordered n t) (hw : Word.IsTemp w) : w ∉ t.free := by
  have other : ∀ id < t.symbols.size, (t.get id).rid ≠ w := by
    rintro id hid rfl
    rcases (h.symbols id hid).numbered with ⟨m, -, hm⟩ | ⟨hconstant, -⟩
    · exact Word.not_isTemp_of_isNumbered hm hw
    · exact hconstant.1 hw
  rintro (hconstant | hglobal | ⟨id, hne, hrid⟩)
  · exact hconstant.1 hw
  · obtain ⟨e, hmem, rfl⟩ := List.mem_map.mp hglobal
    exact other e.2 (h.rids e hmem).known (h.rids e hmem).rid
  · exact other id (lt_size_of_sort_ne hne) hrid

end SymbolTable

namespace Region

open SymbolTable

variable {r : Region} {t : SymbolTable} {n : Nat}

section
variable (h : r.Fits .outermost t.free ∅)
include h

/-- What an instruction of a closed region needs is free or was made known in the same function. -/
theorem free_or_known (hp : p ∈ r.places 0 []) {w : String} (hw : p.instr.Needs w) :
    w ∈ t.free ∨ KnownAt (r.places 0 []) p w := by
  rcases known_of_defined h.proper h.defined hp hw with hf | ⟨hk, -⟩ | hk
  · exact .inl hf
  · exact absurd hk (Set.notMem_empty w)
  · exact .inr hk

theorem exists_write_of_isTemp (ht : Ordered n t) (hp : p ∈ r.places 0 []) {w : String} (hw : w ∈ p.instr.reads)
    (htemp : Word.IsTemp w) :
    ∃ q ∈ r.places 0 [], q.index < p.index ∧ q.function? = p.function? ∧ w ∈ q.instr.writes := by
  have known := (free_or_known h hp (.inl hw)).resolve_left (not_mem_free_of_isTemp ht htemp)
  rcases known with ⟨f, -, -, hnot⟩ | ⟨q, hq, hindex, hfun, hdef⟩
  · exact absurd htemp hnot
  · refine ⟨q, hq, hindex, hfun, ?_⟩
    rcases hdef with ⟨hop, hargs⟩ | ⟨-, hwrites⟩
    · unfold Instruction.writes
      rw [hop]
      exact hargs
    · exact hwrites

theorem home_of_variable (ht : Ordered n t) (hp : p ∈ r.places 0 []) {w : String}
    (hw : w ∈ p.instr.reads ∨ w ∈ p.instr.writes) (hvar : t.IsVariableRid w) :
    (∃ f, p.function? = some f ∧ w ∈ f.2.args.tail) ∨
      (∃ q ∈ r.places 0 [], q.index ≤ p.index ∧ q.function? = p.function? ∧ q.instr.op = .allot ∧
        w ∈ q.instr.args) ∨ t.IsGlobalVariable w := by
  -- a variable is no temporary, so only making room for it makes it known
  have allots : ∀ q : Place, q.instr.Defines w → q.instr.op = .allot ∧ w ∈ q.instr.args := by
    obtain ⟨⟨m, hm⟩, -⟩ := hvar.numbered ht
    exact fun q hq => hq.resolve_right fun hn => Word.not_isTemp_of_isNumbered hm hn.1
  by_cases hself : p.instr.Defines w
  · exact .inr (.inl ⟨p, hp, le_refl _, rfl, allots p hself⟩)
  · have needs : p.instr.Needs w := hw.imp_right fun hn => ⟨hn, hself⟩
    rcases free_or_known h hp needs with hf | ⟨f, hfun, hparam, -⟩ | ⟨q, hq, hindex, hfun, hdef⟩
    · exact .inr (.inr (hvar.global_of_free ht hf))
    · exact .inl ⟨f, hfun, hparam⟩
    · exact .inr (.inl ⟨q, hq, Nat.le_of_lt hindex, hfun, allots q hdef⟩)

end

end Region

/-- Accepted programs read no temporary before it is written and touch no variable of another
function. -/
theorem no_capture_of_compileSource {files : FileTree} {annotate : Bool} {imports : Option Imports}
    {src : Source} {file : String} {code : Code}
    (h : compileSource files { annotate, imports } src file = .ok code) :
    ∃ program after, Program.ofSource src file = .ok program ∧
      (Session.ofOptions { annotate, imports }).compile files annotate program src =
        (.ok code, after) ∧
      ∀ p ∈ places code.instructions,
        (∀ w ∈ p.instr.reads, Word.IsTemp w →
          ∃ q ∈ places code.instructions, q.index < p.index ∧ q.function? = p.function? ∧
            w ∈ q.instr.writes) ∧
        ∀ w, w ∈ p.instr.reads ∨ w ∈ p.instr.writes → after.symbols.IsVariableRid w →
          (∃ f, p.function? = some f ∧ w ∈ f.2.args.tail) ∨
          (∃ q ∈ places code.instructions, q.index ≤ p.index ∧ q.function? = p.function? ∧
            q.instr.op = .allot ∧ w ∈ q.instr.args) ∨
          after.symbols.IsGlobalVariable w := by
  obtain ⟨program, after, r, hprogram, hcompile, hr⟩ := exists_written_of_compileSource h
  obtain ⟨rfl, fits, -, -, n, ordered⟩ := hr
  refine ⟨program, after, hprogram, hcompile, fun p hp => ⟨?_, ?_⟩⟩
  · exact fun w hw htemp => Region.exists_write_of_isTemp fits ordered hp hw htemp
  · exact fun w hw hvar => Region.home_of_variable fits ordered hp hw hvar

theorem no_capture_of_sampleSource :
    ∃ code, compileSource {} { annotate := true } sampleSource "main" = .ok code ∧
      ∃ program after, Program.ofSource sampleSource "main" = .ok program ∧
        (Session.ofOptions { annotate := true }).compile {} true program sampleSource =
          (.ok code, after) ∧
        ∀ p ∈ places code.instructions,
          (∀ w ∈ p.instr.reads, Word.IsTemp w →
            ∃ q ∈ places code.instructions, q.index < p.index ∧ q.function? = p.function? ∧
              w ∈ q.instr.writes) ∧
          ∀ w, w ∈ p.instr.reads ∨ w ∈ p.instr.writes → after.symbols.IsVariableRid w →
            (∃ f, p.function? = some f ∧ w ∈ f.2.args.tail) ∨
            (∃ q ∈ places code.instructions, q.index ≤ p.index ∧ q.function? = p.function? ∧
              q.instr.op = .allot ∧ w ∈ q.instr.args) ∨
            after.symbols.IsGlobalVariable w := by
  obtain ⟨code, h⟩ := exists_code_sampleSource
  exact ⟨code, h, no_capture_of_compileSource h⟩

end Frontend
