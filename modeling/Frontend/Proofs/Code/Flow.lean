import Frontend.Proofs.Code.Place
import Mathlib.Logic.Relation

/-!
# The flow of control

Between the places of code control goes from one to the next, along jumps, out of loops and past the
functions that are defined on the way. A region whose jumps stay inside is left at its end only. Some regions
are not even left there, because every way through them comes to a return.
-/

namespace Frontend

variable {p q : Place} {is : List Instruction} {inFunction : Prop} {finish skip : String} {body : Region}
  {P : Opcode → List String → Region → Prop}
variable {few many : List Place} {e : Place} {word : String}

/-! ## Where control goes -/

/-- A place where the frame ends that was opened at an index. -/
structure Closes (ps : List Place) (index : Nat) (e : Place) : Prop where
  mem : e ∈ ps
  finish : e.instr.op = .finish
  head : e.frames.head?.map Prod.fst = some index

theorem Closes.mono {index : Nat} (hsub : few ⊆ many) (h : Closes few index e) :
    Closes many index e := ⟨hsub h.mem, h.finish, h.head⟩

/-- Operations after which control goes on at the next instruction, if nowhere else. -/
def Opcode.passes : Opcode → Bool
  | .jump | .exitLoop | .ret | .func | .funi => false
  | _ => true

/-- Control goes from one place to another one. -/
inductive Flows (ps : List Place) : Place → Place → Prop where
  | next {p q : Place} (hp : p ∈ ps) (hq : q ∈ ps) (passes : p.instr.op.passes = true)
      (h : q.index = p.index + 1) : Flows ps p q
  | jump {p q : Place} {l : String} (hp : p ∈ ps) (hq : q ∈ ps) (uses : l ∈ p.instr.uses)
      (sets : l ∈ q.instr.sets) : Flows ps p q
  /-- Out of the innermost loop. -/
  | leave {p e q : Place} {loop : Frame} (hp : p ∈ ps) (hq : q ∈ ps) (exits : p.instr.op = .exitLoop)
      (around : p.loops.head? = some loop) (closes : Closes ps loop.1 e) (h : q.index = e.index + 1) :
      Flows ps p q
  /-- A function that is defined here is not gone through. -/
  | skip {p e q : Place} (hp : p ∈ ps) (hq : q ∈ ps) (opens : p.instr.op.opensFunction = true)
      (closes : Closes ps p.index e) (h : q.index = e.index + 1) : Flows ps p q

/-- From the head of a function control can come to its end without a return. -/
def FallsThrough (ps : List Place) (head last : Place) : Prop :=
  ∃ first ∈ ps, first.index = head.index + 1 ∧ Relation.ReflTransGen (Flows ps) first last

theorem Flows.target {ps : List Place} (h : Flows ps p q) : q ∈ ps := by cases h <;> assumption

/-- In instructions whose first one has an index, a function stands at a place: its head, its body and its
end, one after another. -/
def Spans (index : Nat) (is : List Instruction) (p : Place) (body : List Instruction) : Prop :=
  ∃ before behind, is = before ++ p.instr :: (body ++ ⟨.finish, []⟩ :: behind) ∧ index + before.length = p.index

theorem Spans.within {index : Nat} {body before : List Instruction} (h : Spans (index + before.length) is p body)
    (behind : List Instruction) : Spans index (before ++ is ++ behind) p body := by
  obtain ⟨left, right, rfl, hlen⟩ := h
  refine ⟨before ++ left, right ++ behind, by simp, ?_⟩
  rw [List.length_append]
  omega

/-- Places among which an index, a label and the end of a frame are found once. -/
structure Regular (ps : List Place) : Prop where
  index : ∀ p ∈ ps, ∀ q ∈ ps, p.index = q.index → p = q
  label : ∀ p ∈ ps, ∀ q ∈ ps, ∀ l ∈ p.instr.sets, l ∈ q.instr.sets → p = q
  close : ∀ index e e', Closes ps index e → Closes ps index e' → e = e'

namespace Region

variable {r a b : Region} {ps : List Place} {index : Nat} {frames : List Frame}

/-! ## Places and indices -/

theorem map_index_placesFrom (is : List Instruction) : ∀ (index : Nat) (frames : List Frame),
    (placesFrom index frames is).map (·.index) = List.range' index is.length := by
  induction is with
  | nil => exact fun _ _ => rfl
  | cons i is ih =>
    intro index frames
    rw [placesFrom, List.map_cons, ih, List.length_cons, List.range'_succ]

/-- The instruction at a place is the one with its index. -/
theorem getElem?_of_mem_placesFrom : ∀ {index : Nat} {frames : List Frame}, p ∈ placesFrom index frames is →
      ∃ k, p.index = index + k ∧ is[k]? = some p.instr := by
  induction is with
  | nil =>
    rintro index frames ⟨⟩
  | cons i is ih =>
    intro index frames hp
    rcases List.mem_cons.mp hp with rfl | hp
    · exact ⟨0, rfl, rfl⟩
    · obtain ⟨k, hk, hi⟩ := ih hp
      exact ⟨k + 1, by omega, hi⟩

theorem map_index_places : (r.places index frames).map (·.index) = List.range' index r.size :=
  map_index_placesFrom _ _ _

theorem exists_place_of_lt {k : Nat} (hlo : index ≤ k) (hhi : k < index + r.size) :
    ∃ p ∈ r.places index frames, p.index = k := by
  have hk : k ∈ (r.places index frames).map (·.index) := by
    rw [map_index_places]
    exact List.mem_range'_1.mpr ⟨hlo, hhi⟩
  simpa using hk

theorem index_injective (hp : p ∈ r.places index frames) (hq : q ∈ r.places index frames) (h : p.index = q.index) :
    p = q := by
  have hnodup : ((r.places index frames).map (·.index)).Nodup := by
    rw [map_index_places]
    exact List.nodup_range'
  exact List.inj_on_of_nodup_map hnodup hp hq h

/-- A place with an index of the region is a place of the region. -/
theorem mem_places_of_index (hps : Regular ps) (hsub : r.places index frames ⊆ ps) (hq : q ∈ ps)
    (hlo : index ≤ q.index) (hhi : q.index < index + r.size) : q ∈ r.places index frames := by
  obtain ⟨p, hp, he⟩ : ∃ p ∈ r.places index frames, p.index = q.index := exists_place_of_lt hlo hhi
  rw [← hps.index p (hsub hp) q hq he]
  exact hp

@[simp] theorem size_append : (a.append b).size = a.size + b.size := by simp [size, Code.instructions_append]

theorem places_append (ha : a.Proper) :
    (a.append b).places index frames = a.places index frames ++ b.places (index + a.size) frames := by
  rw [places, flatten_append, Code.instructions_append, placesFrom_append ha]
  rfl

/-! ## Ends of frames -/

/-- The end of a frame of a region belongs to a frame that the region opens. -/
theorem head_of_finish (h : r.Proper) : ∀ {index : Nat} {frames : List Frame} {e : Place},
    e ∈ r.places index frames → e.instr.op = .finish →
      ∃ k, e.frames.head?.map Prod.fst = some k ∧ index ≤ k ∧ k < e.index := by
  induction r, h using Proper.parts with
  | nil => exact fun he => absurd he not_mem_places_nil
  | note text rest h ih => exact ih
  | item i rest h ih =>
    intro index frames e he hop
    rw [places_item h] at he
    rcases List.mem_cons.mp he with rfl | he
    · exact absurd hop h.1.2.2.1
    · obtain ⟨k, hk, hlo, hhi⟩ := ih he hop
      exact ⟨k, hk, by omega, hhi⟩
  | framed f h ihb ih =>
    intro index frames e he hop
    rcases (mem_places_framed f h).mp he with rfl | he | rfl | he
    · exact absurd hop (f.op_ne h rfl)
    · obtain ⟨k, hk, hlo, hhi⟩ := ihb he hop
      exact ⟨k, hk, by omega, hhi⟩
    · exact ⟨index, rfl, le_refl _, by simp only; omega⟩
    · obtain ⟨k, hk, hlo, hhi⟩ := ih he hop
      exact ⟨k, hk, by omega, hhi⟩

/-- The ends in the body of a frame, the end of the frame itself and the ends behind it belong to different
frames. -/
theorem part_of_finish {head : Instruction} {rest : Region} (f : Framed r head body rest) (h : r.Proper)
    (he : e ∈ r.places index frames) (hop : e.instr.op = .finish) : ∃ k, e.frames.head?.map Prod.fst = some k ∧
      ((e ∈ body.places (index + 1) ((index, head) :: frames) ∧ index < k ∧ k < index + 1 + body.size) ∨
        (e = ⟨index + 1 + body.size, (index, head) :: frames, ⟨.finish, []⟩⟩ ∧ k = index) ∨
        (e ∈ rest.places (index + 1 + body.size + 1) frames ∧ index + 1 + body.size < k)) := by
  rcases (mem_places_framed f h).mp he with rfl | he | rfl | he
  · exact absurd hop (f.op_ne h rfl)
  · obtain ⟨k, hk, hlo, hhi⟩ := head_of_finish (f.proper_body h) he hop
    have := (index_of_mem_places (f.proper_body h) he).2
    exact ⟨k, hk, .inl ⟨he, by omega, by omega⟩⟩
  · exact ⟨index, rfl, .inr (.inl ⟨rfl, rfl⟩)⟩
  · obtain ⟨k, hk, hlo, -⟩ := head_of_finish (f.proper_rest h) he hop
    exact ⟨k, hk, .inr (.inr ⟨he, by omega⟩)⟩

/-- A frame of a region has one end. -/
theorem finish_unique (h : r.Proper) : ∀ {index : Nat} {frames : List Frame} {e e' : Place},
    e ∈ r.places index frames → e' ∈ r.places index frames → e.instr.op = .finish → e'.instr.op = .finish →
      e.frames.head?.map Prod.fst = e'.frames.head?.map Prod.fst → e = e' := by
  induction r, h using Proper.parts with
  | nil => exact fun he => absurd he not_mem_places_nil
  | note text rest h ih => exact ih
  | item i rest h ih =>
    intro index frames e e' he he' hop hop' hsame
    rw [places_item h] at he he'
    rcases List.mem_cons.mp he with rfl | he
    · exact absurd hop h.1.2.2.1
    rcases List.mem_cons.mp he' with rfl | he'
    · exact absurd hop' h.1.2.2.1
    exact ih he he' hop hop' hsame
  | framed f h ihb ih =>
    intro index frames e e' he he' hop hop' hsame
    obtain ⟨k, hk, hpart⟩ := part_of_finish f h he hop
    obtain ⟨k', hk', hpart'⟩ := part_of_finish f h he' hop'
    obtain rfl : k = k' := by rwa [hk, hk', Option.some.injEq] at hsame
    rcases hpart with ⟨he, hlo, hhi⟩ | ⟨rfl, rfl⟩ | ⟨he, hlo⟩
    · rcases hpart' with ⟨he', -⟩ | ⟨-, rfl⟩ | ⟨-, hlo'⟩
      · exact ihb he he' hop hop' hsame
      · exact absurd hlo (lt_irrefl _)
      · omega
    · rcases hpart' with ⟨-, hlo, -⟩ | ⟨rfl, -⟩ | ⟨-, hlo⟩
      · exact absurd hlo (lt_irrefl _)
      · rfl
      · omega
    · rcases hpart' with ⟨-, -, hhi⟩ | ⟨-, rfl⟩ | ⟨he', -⟩
      · omega
      · omega
      · exact ih he he' hop hop' hsame

/-- A frame that a region opens ends in it. -/
theorem exists_closes (h : r.Proper) : ∀ {index : Nat} {frames : List Frame} {p : Place},
    p ∈ r.places index frames → p.instr.op.opensFrame = true →
      ∃ e ∈ r.places index frames, p.index < e.index ∧ Closes (r.places index frames) p.index e := by
  induction r, h using Proper.parts with
  | nil => exact fun hp => absurd hp not_mem_places_nil
  | note text rest h ih => exact ih
  | item i rest h ih =>
    intro index frames p hp hop
    rw [places_item h] at hp ⊢
    rcases List.mem_cons.mp hp with rfl | hp
    · cases h.1.2.1.symm.trans hop
    · obtain ⟨e, he, hlt, hclose⟩ := ih hp hop
      exact ⟨e, List.mem_cons_of_mem _ he, hlt, hclose.mono (List.subset_cons_self _ _)⟩
  | framed f h ihb ih =>
    intro index frames p hp hop
    rcases (mem_places_framed f h).mp hp with rfl | hp | rfl | hp
    · have hlast := end_mem_places f h index frames
      exact ⟨_, hlast, by simp only; omega, hlast, rfl, rfl⟩
    · obtain ⟨e, he, hlt, hclose⟩ := ihb hp hop
      exact ⟨e, places_body_subset f h he, hlt, hclose.mono (places_body_subset f h)⟩
    · cases hop
    · obtain ⟨e, he, hlt, hclose⟩ := ih hp hop
      exact ⟨e, places_rest_subset f h he, hlt, hclose.mono (places_rest_subset f h)⟩

/-- The places of a region whose labels are placed once. -/
theorem regular_places (h : r.Proper) (hn : r.allSets.Nodup) : Regular (r.places index frames) where
  index _ hp _ hq he := index_injective hp hq he
  label _ hp _ hq _ hlp hlq := place_unique h hn hp hq hlp hlq
  close _ _ _ he he' := finish_unique h he.mem he'.mem he.finish he'.finish (he.head.trans he'.head.symm)

/-- The loop that is left at a place is one of the region, unless the region may leave a loop around it. -/
theorem loop_of_exit {inLoop : Prop} (h : r.Proper) (hc : r.Contained inLoop inFunction) :
    ∀ {index : Nat} {frames : List Frame} {p : Place} {loop : Frame}, p ∈ r.places index frames →
      p.instr.op = .exitLoop → p.loops.head? = some loop → (inLoop ∧ (Frame.loops frames).head? = some loop) ∨
        ∃ o ∈ r.places index frames, o.index = loop.1 ∧ o.instr.op.opensFrame = true := by
  induction r, h using Proper.parts generalizing inLoop inFunction with
  | nil => exact fun hp => absurd hp not_mem_places_nil
  | note text rest h ih => exact ih hc
  | item i rest h ih =>
    intro index frames p loop hp hop hloop
    rw [places_item h] at hp ⊢
    rcases List.mem_cons.mp hp with rfl | hp
    · exact .inl ⟨hc.1.1 hop, hloop⟩
    · refine (ih hc.2 hp hop hloop).imp_right ?_
      rintro ⟨o, ho, rest⟩
      exact ⟨o, List.mem_cons_of_mem _ ho, rest⟩
  | @framed r head body rest f h ihb ih =>
    intro index frames p loop hmem hop hloop
    rcases (mem_places_framed f h).mp hmem with rfl | hp | rfl | hp
    · exact absurd hop (f.op_ne h rfl)
    · have hhead : ⟨index, frames, head⟩ ∈ r.places index frames := (mem_places_framed f h).mpr (.inl rfl)
      have hinside : body.places (index + 1) ((index, head) :: frames) ⊆ r.places index frames := places_body_subset f h
      cases f with
      | loop =>
        rcases ihb hc.1.2 hp hop hloop with ⟨-, hfirst⟩ | ⟨o, ho, rest⟩
        · cases hfirst
          exact .inr ⟨_, hhead, rfl, rfl⟩
        · exact .inr ⟨o, hinside ho, rest⟩
      | func =>
        rcases ihb hc.1.2 hp hop hloop with ⟨hfalse, -⟩ | ⟨o, ho, rest⟩
        · exact hfalse.elim
        · exact .inr ⟨o, hinside ho, rest⟩
    · cases hop
    · refine (ih (f.contained_rest hc) hp hop hloop).imp_right ?_
      rintro ⟨o, ho, rest⟩
      exact ⟨o, places_rest_subset f h ho, rest⟩

/-! ## Regions that control runs through -/

/-- Control stays in a region whose jumps stay inside, or goes past its last instruction. -/
theorem flows_within (h : r.Proper) (hc : r.Contained False inFunction) (huses : r.uses ⊆ r.sets) (hps : Regular ps)
    (hsub : r.places index frames ⊆ ps) (hp : p ∈ r.places index frames) (hflow : Flows ps p q) :
    q ∈ r.places index frames ∨ (q.index = index + r.size ∧
      ∃ e ∈ r.places index frames, e.instr.op.passes = true ∧ e.index + 1 = index + r.size) := by
  -- what comes right behind a place of the region
  have behind : ∀ {e q : Place}, e ∈ r.places index frames → e.instr.op.passes = true → q ∈ ps →
      q.index = e.index + 1 → q ∈ r.places index frames ∨ (q.index = index + r.size ∧
        ∃ e ∈ r.places index frames, e.instr.op.passes = true ∧ e.index + 1 = index + r.size) := by
    intro e q he hpasses hq hindex
    have hrange := index_of_mem_places h he
    by_cases hlast : q.index = index + r.size
    · exact .inr ⟨hlast, e, he, hpasses, hindex.symm.trans hlast⟩
    · exact .inl (mem_places_of_index hps hsub hq (by omega) (by omega))
  have closing : ∀ {o e : Place}, o ∈ r.places index frames → o.instr.op.opensFrame = true →
      Closes ps o.index e → e ∈ r.places index frames ∧ e.instr.op.passes = true := by
    intro o e ho hop hclose
    obtain ⟨e', he', -, hclose'⟩ := exists_closes h ho hop
    obtain rfl := hps.close _ e e' hclose ⟨hsub he', hclose'.finish, hclose'.head⟩
    exact ⟨he', by rw [hclose'.finish]; rfl⟩
  cases hflow with
  | next _ hq hpasses hindex => exact behind hp hpasses hq hindex
  | jump _ hq hl hset =>
    rcases target_of_mem_uses h hc hp hl with ⟨hu, -⟩ | ⟨t, ht, hlt, -⟩
    · obtain ⟨t, ht, hlt, -⟩ := exists_place_of_mem_sets h (huses hu) index frames
      exact .inl (hps.label _ hq t (hsub ht) _ hset hlt ▸ ht)
    · exact .inl (hps.label _ hq t (hsub ht) _ hset hlt ▸ ht)
  | leave _ hq hop hloop hclose hindex =>
    rcases loop_of_exit h hc hp hop hloop with ⟨hfalse, -⟩ | ⟨o, ho, hsame, hopens⟩
    · exact hfalse.elim
    · obtain ⟨he, hpasses⟩ := closing ho hopens (hsame ▸ hclose)
      exact behind he hpasses hq hindex
  | skip _ hq hop hclose hindex =>
    obtain ⟨he, hpasses⟩ := closing hp (opensFrame_of_opensFunction hop) hclose
    exact behind he hpasses hq hindex

/-- Control that enters a region at its beginning stays inside, or comes to its end if it may. -/
def Runs (falls : Prop) (r : Region) : Prop :=
  (¬ falls → 0 < r.size) ∧ ∀ {ps : List Place} {index : Nat} {frames : List Frame}, Regular ps →
    r.places index frames ⊆ ps → ∃ inside : Set Place, (∀ p ∈ inside, p ∈ r.places index frames) ∧
      (∀ p ∈ r.places index frames, p.index = index → p ∈ inside) ∧
      ∀ p ∈ inside, ∀ q, Flows ps p q → q ∈ inside ∨ (falls ∧ q.index = index + r.size)

variable {falls falls' : Prop}

section
variable (h : r.Proper) (hc : r.Contained False inFunction) (huses : r.uses ⊆ r.sets)
include h hc huses

theorem runs_of_contained : r.Runs True := by
  refine ⟨fun hn => absurd trivial hn, fun {ps index frames} hps hsub =>
    ⟨{ p | p ∈ r.places index frames }, fun _ hp => hp, fun _ hp _ => hp, ?_⟩⟩
  intro p hp q hflow
  exact (flows_within h hc huses hps hsub hp hflow).imp_right fun he => ⟨trivial, he.1⟩

/-- What ends with a return is not gone past. -/
theorem runs_of_return {args : List String} (hlast : r.flatten.instructions = is ++ [⟨.ret, args⟩]) : r.Runs False := by
  refine ⟨fun _ => by rw [size, hlast]; simp, fun {ps index frames} hps hsub =>
    ⟨{ p | p ∈ r.places index frames }, fun _ hp => hp, fun _ hp _ => hp, ?_⟩⟩
  intro p hp q hflow
  refine (flows_within h hc huses hps hsub hp hflow).imp_right ?_
  rintro ⟨-, e, he, hpasses, hindex⟩
  obtain ⟨k, hk, hinstr⟩ := getElem?_of_mem_placesFrom he
  have hsize : r.size = is.length + 1 := by rw [size, hlast, List.length_append]; rfl
  obtain rfl : k = is.length := by omega
  rw [hlast, List.getElem?_concat_length, Option.some.injEq] at hinstr
  rw [← hinstr] at hpasses
  cases hpasses

end

theorem Runs.mono (h : r.Runs falls) (hi : falls → falls') : r.Runs falls' := by
  refine ⟨fun hn => h.1 fun hf => hn (hi hf), fun hps hsub => ?_⟩
  obtain ⟨inside, hin, hfirst, hclosed⟩ := h.2 hps hsub
  exact ⟨inside, hin, hfirst, fun p hp q hflow => (hclosed p hp q hflow).imp_right fun he => ⟨hi he.1, he.2⟩⟩

theorem Runs.append (hproper : a.Proper) (ha : a.Runs falls) (hb : b.Runs falls') :
    (a.append b).Runs (falls ∧ falls') := by
  constructor
  · intro hn
    rw [size_append]
    by_cases hf : falls
    · have := hb.1 fun hf' => hn ⟨hf, hf'⟩
      omega
    · have := ha.1 hf
      omega
  · intro ps index frames hps hsub
    rw [places_append hproper, List.append_subset] at hsub
    obtain ⟨left, hleft, hfirst, hclosed⟩ := ha.2 hps hsub.1
    obtain ⟨right, hright, hfirst', hclosed'⟩ := hb.2 hps hsub.2
    have mem : ∀ {p : Place}, p ∈ (a.append b).places index frames ↔
        p ∈ a.places index frames ∨ p ∈ b.places (index + a.size) frames := by
      intro p
      rw [places_append hproper, List.mem_append]
    -- the second part counts only where the first one may be left at its end
    refine ⟨left ∪ { p | p ∈ right ∧ (falls ∨ a.size = 0) }, ?_, ?_, ?_⟩
    · rintro p (hp | ⟨hp, -⟩)
      · exact mem.mpr (.inl (hleft p hp))
      · exact mem.mpr (.inr (hright p hp))
    · intro p hp hindex
      by_cases hsize : a.size = 0
      · rcases mem.mp hp with hp | hp
        · exact .inl (hfirst p hp hindex)
        · exact .inr ⟨hfirst' p hp (by omega), .inr hsize⟩
      · have hp : p ∈ ps := (mem.mp hp).elim (fun hp => hsub.1 hp) fun hp => hsub.2 hp
        exact .inl (hfirst p (mem_places_of_index hps hsub.1 hp (by omega) (by omega)) hindex)
    · rintro p (hp | ⟨hp, hreach⟩) q hflow
      · rcases hclosed p hp q hflow with hq | ⟨hf, hindex⟩
        · exact .inl (.inl hq)
        · by_cases hsize : b.size = 0
          · refine .inr ⟨⟨hf, ?_⟩, by rw [size_append]; omega⟩
            by_contra hn
            have := hb.1 hn
            omega
          · have hmem : q ∈ b.places (index + a.size) frames :=
              mem_places_of_index hps hsub.2 hflow.target (by omega) (by omega)
            exact .inl (.inr ⟨hfirst' q hmem hindex, .inl hf⟩)
      · rcases hclosed' p hp q hflow with hq | ⟨hf', hindex⟩
        · exact .inl (.inr ⟨hq, hreach⟩)
        · refine .inr ⟨⟨?_, hf'⟩, by rw [size_append]; omega⟩
          by_contra hn
          have := ha.1 hn
          rcases hreach with hf | hsize
          · exact hn hf
          · omega

/-- A test with what is done when it holds, and the way from there to the end of the chain. -/
def guarded (word skip finish : String) (body : Region) : Region :=
  item ⟨.jumpIfFalse, [word, skip]⟩ (body.append (item ⟨.jump, [finish]⟩ (item ⟨.set, [skip]⟩ nil)))

theorem proper_item_jump (hclean : ∀ w ∈ [finish, skip], Word.Clean w) :
    (item ⟨.jump, [finish]⟩ (item ⟨.set, [skip]⟩ nil)).Proper := by
  simp only [List.forall_mem_cons, List.not_mem_nil, false_imp_iff, implies_true, and_true] at hclean
  exact ⟨⟨Opcode.noConfusion, rfl, Opcode.noConfusion, by simpa using hclean.1⟩,
    ⟨Opcode.noConfusion, rfl, Opcode.noConfusion, by simpa using hclean.2⟩, trivial⟩

section
variable (hproper : body.Proper) (hclean : ∀ w ∈ [word, finish, skip], Word.Clean w)
include hproper hclean

theorem proper_guarded : (guarded word skip finish body).Proper := by
  obtain ⟨hword, hlabels⟩ := List.forall_mem_cons.mp hclean
  refine ⟨⟨Opcode.noConfusion, rfl, Opcode.noConfusion, ?_⟩, proper_append hproper (proper_item_jump hlabels)⟩
  simpa using ⟨hword, hlabels skip (by simp)⟩

/-- If what is done when a test holds is not gone past, then only the jump of the test leads to the end. -/
theorem runs_guarded (hbody : body.Runs False) : (guarded word skip finish body).Runs True := by
  refine ⟨fun hn => absurd trivial hn, fun {ps index frames} hps hsub => ?_⟩
  have h : (guarded word skip finish body).Proper := proper_guarded hproper hclean
  have tail := proper_item_jump (List.forall_mem_cons.mp hclean).2
  have hplaces : (guarded word skip finish body).places index frames =
      ⟨index, frames, ⟨.jumpIfFalse, [word, skip]⟩⟩ :: (body.places (index + 1) frames ++
        [⟨index + 1 + body.size, frames, ⟨.jump, [finish]⟩⟩,
          ⟨index + 1 + body.size + 1, frames, ⟨.set, [skip]⟩⟩]) := by
    unfold guarded
    rw [places_item h, places_append hproper, places_item tail, places_item tail.2]
    rfl
  have hsize : (guarded word skip finish body).size = body.size + 3 := by simp [guarded, size, flatten]
  rw [hplaces] at hsub ⊢
  have hinner : body.places (index + 1) frames ⊆ ps := fun p hp => hsub (by simp [hp])
  obtain ⟨inside, hin, hfirst, hclosed⟩ := hbody.2 hps hinner
  have hpos := hbody.1 id
  let test : Place := ⟨index, frames, ⟨.jumpIfFalse, [word, skip]⟩⟩
  let last : Place := ⟨index + 1 + body.size + 1, frames, ⟨.set, [skip]⟩⟩
  have htest : test ∈ ps := hsub (by simp [test])
  have hlast : last ∈ ps := hsub (by simp [last])
  refine ⟨insert test (insert last inside), ?_, ?_, ?_⟩
  · rintro p (rfl | rfl | hp)
    · simp [test]
    · simp [last]
    · simp [hin p hp]
  · intro p hp hindex
    exact .inl (hps.index p (hsub hp) test htest hindex)
  · rintro p (rfl | rfl | hp) q hflow
    · cases hflow with
      | next _ hq _ hindex =>
        exact .inl (.inr (.inr (hfirst q (mem_places_of_index hps
          (fun p hp => hsub (by simp [hp])) hq hindex.ge (by simp only [test] at hindex; omega)) hindex)))
      | jump _ hq hl hset =>
        have hl := List.mem_singleton.mp (show _ ∈ [skip] from hl)
        rw [hl] at hset
        exact .inl (.inr (.inl (hps.label q hq last hlast skip hset List.mem_cons_self)))
      | leave _ _ hop => cases hop
      | skip _ _ hop => cases hop
    · cases hflow with
      | next _ hq _ hindex => exact .inr ⟨trivial, by rw [hsize, hindex]; simp only [last]; omega⟩
      | jump _ _ hl => exact absurd hl (by simp [last, Instruction.uses])
      | leave _ _ hop => cases hop
      | skip _ _ hop => cases hop
    · rcases hclosed p hp q hflow with hq | ⟨hf, -⟩
      · exact .inl (.inr (.inr hq))
      · exact hf.elim

end

/-! ## Functions -/

/-- A function of a region, at the place of its head: its body and its end. -/
structure FunctionAt (P : Opcode → List String → Region → Prop) (ps : List Place) (p : Place) (body : Region) :
    Prop where
  known : P p.instr.op p.instr.args body
  proper : body.Proper
  places : body.places (p.index + 1) ((p.index, p.instr) :: p.frames) ⊆ ps
  closes : Closes ps p.index ⟨p.index + 1 + body.size, (p.index, p.instr) :: p.frames, ⟨.finish, []⟩⟩

theorem FunctionAt.mono (h : FunctionAt P few p body) (hsub : few ⊆ many) : FunctionAt P many p body :=
  ⟨h.known, h.proper, fun _ hq => hsub (h.places hq), hsub h.closes.mem, rfl, rfl⟩

/-- At the head of a function stands a function of the region. -/
theorem exists_functionAt (h : r.Proper) (hP : r.Functions P) :
    ∀ {index : Nat} {frames : List Frame} {p : Place}, p ∈ r.places index frames →
      p.instr.op.opensFunction = true → ∃ body, FunctionAt P (r.places index frames) p body ∧
        Spans index r.flatten.instructions p body.flatten.instructions := by
  -- a function in a part of the region, with the instructions before that part and behind it
  have lift : ∀ {few many : List Place} {part is : List Instruction} {start index : Nat} {p : Place},
      (∃ body, FunctionAt P few p body ∧ Spans start part p body.flatten.instructions) →
      ∀ before behind : List Instruction, few ⊆ many → is = before ++ part ++ behind →
      start = index + before.length →
        ∃ body, FunctionAt P many p body ∧ Spans index is p body.flatten.instructions := by
    rintro few many part _ _ index p ⟨body, hat, hspans⟩ before behind hsub rfl rfl
    exact ⟨body, hat.mono hsub, hspans.within behind⟩
  induction r, h using Proper.parts with
  | nil =>
    intro index frames p hp
    exact absurd hp not_mem_places_nil
  | note text rest h ih =>
    intro index frames p
    exact ih hP
  | item i rest h ih =>
    intro index frames p hp hop
    rw [places_item h] at hp ⊢
    rcases List.mem_cons.mp hp with rfl | hp
    · cases h.1.2.1.symm.trans (opensFrame_of_opensFunction hop)
    · exact lift (ih hP hp hop) [i] [] (List.subset_cons_self _ _) (by simp [flatten]) rfl
  | @framed r head inner rest f h ihb ih =>
    intro index frames p hp hop
    rcases (mem_places_framed f h).mp hp with rfl | hp | rfl | hp
    · refine ⟨inner, ⟨(f.functions hP).1 hop, f.proper_body h, places_body_subset f h, end_mem_places f h _ _, rfl, rfl⟩,
        [], rest.flatten.instructions, ?_, rfl⟩
      simp [f.instructions]
    · exact lift (ihb ((f.functions hP).2.1) hp hop) [head] (⟨.finish, []⟩ :: rest.flatten.instructions)
        (places_body_subset f h) (by simp [f.instructions]) rfl
    · cases hop
    · exact lift (ih ((f.functions hP).2.2) hp hop) (head :: (inner.flatten.instructions ++ [⟨.finish, []⟩])) []
        (places_rest_subset f h) (by simp [f.instructions]) (by simp [size]; omega)

/-- A body that is not gone past keeps control away from the end of its function. -/
theorem FunctionAt.not_fallsThrough (h : FunctionAt P ps p body) (hps : Regular ps) (hbody : body.Runs False)
    (he : Closes ps p.index e) : ¬ FallsThrough ps p e := by
  obtain rfl := hps.close _ _ _ he h.closes
  rintro ⟨first, hmem, hindex, hpath⟩
  obtain ⟨inside, hin, hfirst, hclosed⟩ := hbody.2 hps h.places
  have hpos := hbody.1 id
  have start : first ∈ inside :=
    hfirst first (mem_places_of_index hps h.places hmem (by omega) (by omega)) hindex
  have closed : ∀ {q : Place}, Relation.ReflTransGen (Flows ps) first q → q ∈ inside := by
    intro q hq
    induction hq with
    | refl => exact start
    | tail _ hflow ih => exact (hclosed _ ih _ hflow).resolve_right fun hf => hf.1.elim
  have := (index_of_mem_places h.proper (hin _ (closed hpath))).2
  exact absurd this (lt_irrefl _)

end Region

end Frontend
