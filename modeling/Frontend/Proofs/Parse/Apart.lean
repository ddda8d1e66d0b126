import Frontend.Proofs.Parse.Enclosed
import Frontend.Proofs.Parse.Join
import Frontend.Proofs.Parse.Names

/-!
# A group is read apart from what stands behind it

Between properly nested brackets the items of a group are read up to the closing bracket of the group, or
else with an error, whatever stands behind that bracket. What is carried through the rules is that a run
without errors leaves the tokens in front of the closing bracket with the same brackets still to be closed.
-/

namespace Frontend

variable {more : List Token}

namespace Parse

open Nesting

/-! ## Runs without errors -/

/-- A state that reading may go on from, with tokens of the right kinds. -/
structure Sorted (s : ParseState) : Prop where
  ready : Ready False s
  classified : ∀ t ∈ s.rest, t.Classified

/-- A relation between the tokens in front of a run and those behind it that does not mind what is read, as
long as every bracket is closed. -/
structure Closed (R : List Token → List Token → Prop) : Prop where
  refl : ∀ tokens, R tokens tokens
  trans : ∀ {tokens rest left}, R tokens rest → R rest left → R tokens left
  pass : ∀ {token rest}, token.kind.plain = true → R (token :: rest) rest
  split : ∀ {tokens}, (∀ t ∈ tokens, t.Classified) → R tokens (splitFirst tokens)
  skip : ∀ tokens, R tokens (pastNewlines tokens)
  close : ∀ {opener closer : Token} {b : Bracket} {rest left rest' : List Token}, opener.kind = .opening b →
    R rest left → pastNewlines left = closer :: rest' → closer.kind = .closing b → R (opener :: rest) rest'

/-- A run that relates its tokens as long as it has no error. -/
structure Cleanly (R : List Token → List Token → Prop) (reads : Bool) (s : ParseState) (ok : Bool)
    (t : ParseState) : Prop where
  onward : Onward False reads s ok t
  related : t.errors = [] → R s.rest t.rest

section
variable {R : List Token → List Token → Prop} {s t : ParseState} {rest : List Token} {reads : Bool}

theorem Cleanly.clean_none (h : Cleanly R reads s false t) : t.errors ≠ [] :=
  fun he => Bool.false_ne_true (h.onward.clean he).1

theorem Sorted.withRest (h : Sorted s) (hrest : rest <:+ s.rest) {depth : Nat} {inClass : Bool} :
    Sorted { s with rest, depth, inClass } :=
  ⟨h.ready.withRest hrest, fun t ht => h.classified t (hrest.subset ht)⟩

theorem Sorted.split (hs : Sorted s) : Sorted { s with rest := splitFirst s.rest } :=
  ⟨hs.ready.split.1, lasting_classified.split hs.classified⟩

theorem Sorted.report (hs : Sorted s) (e : ParseError) : Sorted (afterReport e s) :=
  ⟨hs.ready.report e, (rest_afterReport e s).1 ▸ hs.classified⟩

/-- A run without errors closes what it opens. -/
def closing (hR : Closed R) : Discipline where
  Inv := Sorted
  Place := fun _ => True
  Does := Cleanly R
  Opened := fun _ _ => True
  eof := fun hs => hs.ready.eof
  next := fun _ => trivial
  stay := fun s => ⟨.refl s, fun _ => hR.refl s.rest⟩
  weaken := fun h => ⟨h.onward.weaken, h.related⟩
  trans := fun h h' => by
    refine ⟨h.onward.trans h'.onward, fun he => ?_⟩
    have hbetween := Classical.not_not.mp fun hne => h'.onward.errors hne he
    exact hR.trans (h.related hbetween) (h'.related he)
  stuck := fun h hlt => absurd (h.onward.less rfl rfl) hlt
  pass := fun {s token rest} hs hrest hk => by
    refine ⟨hs.withRest (hrest ▸ List.suffix_cons _ _), .of_read hs.ready hrest fun he => ?_, fun _ => ?_⟩
    · rw [he] at hk
      cases hk
    · rw [hrest]
      exact hR.pass hk
  report := fun {s e} hs _ =>
    ⟨hs.report e, .report hs.ready e, fun he => absurd he (errors_afterReport hs.ready.errors e)⟩
  split := fun hs => ⟨hs.split, hs.ready.split.2, fun _ => hR.split hs.classified⟩
  calm := fun {s} hs => by
    have hready := (onward False).calm hs.ready
    exact ⟨⟨hready.1, hs.classified⟩, hready.2, fun _ => hR.refl s.rest⟩
  skip := fun {s} hs _ => by
    refine ⟨hs.withRest (pastNewlines_suffix _), fun ok t h => ⟨hs.ready.skip.2 ok t h.onward, fun he => ?_⟩⟩
    exact hR.trans (hR.skip s.rest) (h.related he)
  openUp := fun _ _ hs hrest _ => ⟨hs.withRest (hrest ▸ List.suffix_cons _ _), trivial⟩
  close := fun {s opener rest b depth inClass r t closer rest'} hs hrest hk ht hdoes hclose hcloser => by
    have hsuffix : rest' <:+ t.rest :=
      (List.suffix_cons closer rest').trans (hclose ▸ pastNewlines_suffix t.rest)
    have honward := (onward False).close hs.ready hrest hk ht.ready hdoes.onward hclose hcloser
    refine ⟨ht.withRest hsuffix, honward.2, fun he => ?_⟩
    rw [hrest]
    exact hR.close hk (hdoes.related he) hclose hcloser
  abandon := fun hs hrest hk ht hdoes => by
    have honward := (onward False).abandon hs.ready hrest hk ht.ready hdoes.onward
    exact ⟨⟨honward.1, ht.classified⟩, honward.2, fun he => absurd he hdoes.clean_none⟩
  resume := fun {s b r t} _ ht hdoes => by
    have honward := (onward False).resume (b := b) trivial ht.ready hdoes.onward
    refine ⟨⟨honward.1, ?_⟩, ⟨honward.2.1, ?_⟩, honward.2.2, ?_⟩
    · exact fun x hx => ht.classified x ((resumeAt_suffix _ _ _).subset hx)
    · exact fun he => absurd he hdoes.clean_none
    · exact fun he => absurd he hdoes.clean_none

end

/-! ## Brackets that are still open -/

/-- In front of `tail`, the same brackets are still to be closed. -/
def StillOpen (tail tokens rest : List Token) : Prop :=
  ∀ (own : List Token) (bs : List Bracket), tokens = own ++ tail → unmatched own = some bs →
    ∃ left, rest = left ++ tail ∧ unmatched left = some bs

section
variable {own rest : List Token} {token closer : Token}

/-- A token other than the closing bracket that the tail begins with is one of those in front of the tail. -/
theorem own_of_ne (hrest : token :: rest = own ++ closer :: more) (hne : ∀ b, token.kind ≠ .closing b) {b : Bracket}
    (hcloser : closer.kind = .closing b) : ∃ left, own = token :: left ∧ rest = left ++ closer :: more := by
  cases own with
  | nil =>
    cases hrest
    exact absurd hcloser (hne b)
  | cons first left =>
    rw [List.cons_append] at hrest
    cases hrest
    exact ⟨left, rfl, rfl⟩

theorem not_closing_of_plain {k : TokenKind} (h : k.plain = true) : ∀ b, k ≠ .closing b := by
  rintro b rfl
  cases h

/-- Taking a negative number apart does not matter to brackets. -/
theorem unmatched_splitNegative (h : token.Classified) (hnegative : token.isNegativeNumber = true) :
    unmatched (token.splitNegative.1 :: token.splitNegative.2 :: rest) = unmatched (token :: rest) := by
  have hplain := plain_of_isNumeric (Token.isNumeric_of_isNegativeNumber hnegative).1
  obtain ⟨hnumeric, -⟩ := Token.isNumeric_unsigned h hnegative
  have hminus : token.splitNegative.1.kind.plain = true := by
    rw [Token.kind_minus]
    rfl
  rw [unmatched_plain hminus, unmatched_plain (plain_of_isNumeric hnumeric), unmatched_plain hplain]

/-- Line breaks do not matter to brackets. -/
theorem unmatched_pastNewlines (tokens : List Token) : unmatched (pastNewlines tokens) = unmatched tokens := by
  induction tokens with
  | nil => rfl
  | cons t tokens ih =>
    by_cases ht : t.kind = .newline
    · have hpast : pastNewlines (t :: tokens) = pastNewlines tokens := by simp [pastNewlines, ht]
      rw [hpast, ih, unmatched_other (by simp [ht]) (by simp [ht])]
    · rw [pastNewlines_cons ht]

theorem pastNewlines_tail (own : List Token) (h : closer.kind ≠ .newline) :
    pastNewlines (own ++ closer :: more) = pastNewlines own ++ closer :: more := by
  induction own with
  | nil => exact pastNewlines_cons h more
  | cons t own ih =>
    by_cases ht : t.kind = .newline
    · have hpast : ∀ tokens, pastNewlines (t :: tokens) = pastNewlines tokens := by simp [pastNewlines, ht]
      rw [List.cons_append, hpast, hpast, ih]
    · rw [List.cons_append, pastNewlines_cons ht, pastNewlines_cons ht, List.cons_append]

/-- A run without errors closes what it opens in front of a closing bracket that is not its own. -/
theorem closed_stillOpen {b : Bracket} (hcloser : closer.kind = .closing b) (more : List Token) :
    Closed (StillOpen (closer :: more)) where
  refl := fun _ _ _ h hbs => ⟨_, h, hbs⟩
  trans := fun h h' own bs hown hbs => by
    obtain ⟨left, hleft, hbs'⟩ := h own bs hown hbs
    exact h' left bs hleft hbs'
  pass := fun hk own bs hown hbs => by
    obtain ⟨left, rfl, hleft⟩ := own_of_ne hown (not_closing_of_plain hk) hcloser
    exact ⟨left, hleft, (unmatched_plain hk).symm.trans hbs⟩
  split := fun {tokens} hclassified own bs hown hbs => by
    rcases splitFirst_cases tokens with hsame | ⟨token, rest, rfl, hnegative, hsplit⟩
    · rw [hsame]
      exact ⟨own, hown, hbs⟩
    have hplain := plain_of_isNumeric (Token.isNumeric_of_isNegativeNumber hnegative).1
    obtain ⟨left, rfl, hleft⟩ := own_of_ne hown (not_closing_of_plain hplain) hcloser
    refine ⟨token.splitNegative.1 :: token.splitNegative.2 :: left, ?_, ?_⟩
    · rw [hsplit, hleft]
      rfl
    · rwa [unmatched_splitNegative (hclassified token List.mem_cons_self) hnegative]
  skip := fun tokens own bs hown hbs =>
    ⟨pastNewlines own, hown ▸ pastNewlines_tail own (by simp [hcloser]), (unmatched_pastNewlines own).trans hbs⟩
  close := fun {opener found b' rest left rest'} hk h hclose hfound own bs hown hbs => by
    obtain ⟨inside, rfl, hinside⟩ := own_of_ne hown (by simp [hk]) hcloser
    obtain ⟨left', rfl, hopen⟩ := h inside _ hinside ((unmatched_opening hk).mp hbs)
    rw [pastNewlines_tail left' (by simp [hcloser])] at hclose
    rw [← unmatched_pastNewlines] at hopen
    cases hpast : pastNewlines left' with
    | nil =>
      rw [hpast] at hopen
      cases hopen
    | cons first behind =>
      rw [hpast, List.cons_append] at hclose
      cases hclose
      rw [hpast, unmatched_closing hfound] at hopen
      obtain ⟨bs', hbs', ⟨⟩⟩ := Option.map_eq_some_iff.mp hopen
      exact ⟨behind, rfl, hbs'⟩

end

/-! ## The items of a group -/

section
variable {d : Discipline} {s : ParseState} {b : Bracket} {budget : Nat}

/-- The items of a group are read up to a state in the group, perhaps in front of line breaks. -/
theorem inGroup_groupItems (hs : d.Inv s) (hopened : d.Opened b s) (hdepth : 0 < s.depth) :
    ∃ u, d.InGroup s u ∧ ((groupItems (nested budget) b s).2 = u ∨
        (groupItems (nested budget) b s).2 = u.before (pastNewlines u.rest)) ∧
      ((groupItems (nested budget) b s).1 = none → d.Does true s false (groupItems (nested budget) b s).2) := by
  have hstep : ∀ done t, d.InGroup s t → d.AllStand done →
      d.GroupStep s t (Discipline.groupStep (nested budget) b done t) :=
    fun done t ht hdone => Discipline.stays_groupStep (eats_nested d budget) hopened hdepth ht hdone
  obtain ⟨hsome, hnone⟩ := Discipline.loop_group hstep ⟨hs, d.stay s, .refl s⟩ Discipline.allStand_nil
  rw [Discipline.groupItems_eq]
  cases hr : (repeatWhile (Discipline.groupStep (nested budget) b) [] s).1 with
  | none =>
    obtain ⟨hu, hdoes⟩ := hnone hr
    exact ⟨_, hu, .inl rfl, fun _ => hdoes⟩
  | some items =>
    obtain ⟨-, u, hu, he⟩ := hsome items hr
    exact ⟨u, hu, .inr he, nofun⟩

end

/-- The tokens of a line whose brackets are properly nested. -/
structure Inside (tokens : List Token) : Prop where
  oneLine : OneLine tokens
  nested : WellNested tokens
  classified : ∀ t ∈ tokens, t.Classified

section
variable {s : ParseState} {tokens rest : List Token} {opener closer : Token} {b : Bracket}

/-- The state in front of the items of a group with nothing behind it. -/
def alone (s : ParseState) (tokens : List Token) (closer : Token) : ParseState :=
  (s.enter false).before (tokens ++ [closer])

section
variable (hs : s.Sound) (htokens : Inside tokens) (hcloser : closer.kind = .closing b)
include hs htokens hcloser

theorem onLine_alone :
    OnLine [] (fun _ => True) (alone s tokens closer) ∧ waiting (alone s tokens closer).rest = [b] := by
  have hunmatched : unmatched (tokens ++ [closer]) = some [b] := by
    rw [unmatched_append htokens.nested, unmatched_closing hcloser]
    rfl
  have hwaiting : waiting (alone s tokens closer).rest = [b] := waiting_eq hunmatched
  have hclosed : closer.kind ≠ .newline ∧ closer.kind ≠ .eof := by simp [hcloser]
  have hclassified : closer.Classified := fun h => by simp [Token.isNegativeNumber, hcloser] at h
  refine ⟨⟨⟨tokens ++ [closer], (List.append_nil _).symm, ?_, ?_⟩, ?_, ?_, hs.eof, trivial, ?_⟩, hwaiting⟩
  · exact List.forall_mem_append.mpr ⟨htokens.oneLine, List.forall_mem_singleton.mpr hclosed⟩
  · exact List.forall_mem_append.mpr ⟨fun t ht => ⟨htokens.classified t ht, trivial⟩,
      List.forall_mem_singleton.mpr ⟨hclassified, trivial⟩⟩
  · exact hunmatched.trans (congrArg some hwaiting.symm)
  · intro _
    rw [hwaiting]
    exact List.cons_ne_nil _ _
  · intro hstopped
    rw [show (alone s tokens closer).stopped = false from hs.stopped] at hstopped
    cases hstopped

/-- Something is left behind the items of a group, even if there is an error. -/
theorem rest_groupItems_alone (budget : Nat) :
    (groupItems (nested budget) b (alone s tokens closer)).2.rest ≠ [] := by
  obtain ⟨hline, hwaiting⟩ := onLine_alone hs htokens hcloser
  let d := @onLine [] lineEnd_nil (fun _ => True) (List.forall_mem_nil _)
  obtain ⟨u, hu, hend, -⟩ : ∃ u, d.InGroup (alone s tokens closer) u ∧ _ :=
    inGroup_groupItems hline ⟨[], hwaiting⟩ (Nat.succ_pos s.depth)
  have hinv : OnLine [] (fun _ => True) u := hu.inv
  have hkeeps : waiting (alone s tokens closer).rest <:+ waiting u.rest := KeepsToLine.waiting hu.does
  have hne : u.rest ≠ [] := by
    intro he
    rw [hwaiting, he] at hkeeps
    exact absurd (List.suffix_nil.mp hkeeps) (List.cons_ne_nil _ _)
  have hdepth : 0 < u.depth := hu.settings.1 ▸ Nat.succ_pos s.depth
  rcases hend with he | he
  · rwa [he]
  · rw [he, ParseState.rest_before, hinv.skip lineEnd_nil (.inl hdepth)]
    exact hne

/-- Without an error, the items of a group are read up to the closing bracket. -/
theorem groupItems_alone_clean (budget : Nat)
    (hclean : (groupItems (nested budget) b (alone s tokens closer)).2.errors = []) :
    (∃ ns, (groupItems (nested budget) b (alone s tokens closer)).1 = some ns) ∧
    ((groupItems (nested budget) b (alone s tokens closer)).2.next.kind = .closing b →
      (groupItems (nested budget) b (alone s tokens closer)).2.rest = [closer]) := by
  have hsorted : Sorted (alone s tokens closer) := by
    refine ⟨⟨hs.eof, False.elim, ?_⟩, ?_⟩
    · intro h
      rcases h with h | h
      · cases hs.panicking.symm.trans h
      · cases hs.stopped.symm.trans h
    · refine List.forall_mem_append.mpr ⟨htokens.classified, List.forall_mem_singleton.mpr fun h => ?_⟩
      simp [Token.isNegativeNumber, hcloser] at h
  let d := closing (closed_stillOpen hcloser [])
  obtain ⟨u, hu, hend, hnone⟩ : ∃ u, d.InGroup (alone s tokens closer) u ∧ _ :=
    inGroup_groupItems hsorted trivial (Nat.succ_pos s.depth)
  generalize groupItems (nested budget) b (alone s tokens closer) = r at hclean hend hnone ⊢
  have hdoes : Cleanly (StillOpen [closer]) false (alone s tokens closer) true u := hu.does
  have herr : u.errors = [] := by
    rcases hend with he | he <;> rw [he] at hclean <;> exact hclean
  have hnothing : unmatched tokens = some [] := by
    have hunmatched := unmatched_append htokens.nested []
    rwa [List.append_nil] at hunmatched
  obtain ⟨left, hleft, hopen⟩ := hdoes.related herr tokens [] rfl hnothing
  refine ⟨?_, fun hnext => ?_⟩
  · cases hr : r.1 with
    | some ns => exact ⟨ns, rfl⟩
    | none =>
      have hfailed : Cleanly (StillOpen [closer]) true (alone s tokens closer) false r.2 := hnone hr
      exact absurd hclean hfailed.clean_none
  · obtain ⟨behind, hrest, hopen'⟩ : ∃ behind, r.2.rest = behind ++ [closer] ∧ unmatched behind = some [] := by
      rcases hend with he | he
      · exact ⟨left, he ▸ hleft, hopen⟩
      · refine ⟨pastNewlines left, ?_, (unmatched_pastNewlines left).trans hopen⟩
        rw [he, ParseState.rest_before, hleft, pastNewlines_tail left (by simp [hcloser])]
    -- whatever stands in front of the closing bracket would be another closing bracket
    cases behind with
    | nil => exact hrest
    | cons first more =>
      have hfirst : first.kind = .closing b := by rwa [ParseState.next, hrest] at hnext
      rw [unmatched_closing hfirst] at hopen'
      obtain ⟨_, -, ⟨⟩⟩ := Option.map_eq_some_iff.mp hopen'

end

theorem groupBody_faulty {sub : Nested} (hnoted : Noted (groupItems sub b s).2)
    (hsome : (groupItems sub b s).1 = none → (groupItems sub b s).2.errors ≠ [])
    (hbad : (groupItems sub b s).2.errors ≠ [] ∨ (groupItems sub b s).2.next.kind ≠ .closing b) :
    (groupBody sub opener b s).2.errors ≠ [] := by
  unfold groupBody
  cases hr : (groupItems sub b s).1 with
  | none =>
    rw [bind_apply_none (eq_of_fst hr)]
    exact hsome hr
  | some items =>
    rw [bind_apply_some (eq_of_fst hr), peek_bind]
    by_cases hk : (groupItems sub b s).2.next.kind = .closing b
    · rw [if_pos (by simp [hk])]
      exact hbad.resolve_right fun h => h hk
    · rw [if_neg (by simpa using hk), failToken, reportToken, reportAt_eq, change_bind]
      exact errors_afterReport hnoted _

/-- The items of a group with further tokens behind it are read as they are read alone. -/
structure ReadAlike (budget : Nat) (b : Bracket) (own whole : ParseState) (rest : List Token) : Prop where
  result : (groupItems (nested budget) b whole).1 = (groupItems (nested budget) b own).1
  rest : (groupItems (nested budget) b whole).2.rest = (groupItems (nested budget) b own).2.rest ++ rest
  next : (groupItems (nested budget) b whole).2.next = (groupItems (nested budget) b own).2.next
  errors : (groupItems (nested budget) b whole).2.errors = [] ↔ (groupItems (nested budget) b own).2.errors = []
  ready : Ready False (groupItems (nested budget) b whole).2
  settings : Discipline.SameSettings whole (groupItems (nested budget) b whole).2

theorem readAlike (hs : s.Sound) (herrors : s.errors = []) (hcloser : closer.kind = .closing b)
    (htokens : Inside tokens) (hanew : Anew rest) (budget : Nat) :
    ReadAlike budget b (alone s tokens closer) ((s.enter false).before (tokens ++ closer :: rest)) rest := by
  let c : Setting := .around id Position.moves_id rest False False.elim hanew []
  have hnoted : ∀ t : ParseState, t.panicking = false → t.stopped = false → Noted t := by
    intro t hpanicking hstopped h
    rw [hpanicking, hstopped] at h
    simp at h
  have halike : c.Alike (alone s tokens closer) ((s.enter false).before (tokens ++ closer :: rest)) := by
    refine ⟨?_, False.elim, ⟨hs.eof, hs.eof⟩, ⟨[], herrors, ?_⟩, rfl, rfl, rfl, rfl, hnoted _ hs.panicking hs.stopped⟩
    · change tokens ++ closer :: rest = (tokens ++ [closer]).map (Token.moved id) ++ rest
      rw [Token.map_moved_id]
      simp
    · rw [show (alone s tokens closer).errors = [] from herrors]
      exact .nil
  have hnested : CarriesNested c (nested budget) (nested budget) :=
    ⟨carries_expression budget, fun b => (Carries.synchronize (some b)).resumes, fun h => False.elim h⟩
  have hallows : c.Allows (groupItems (nested budget) b (alone s tokens closer)).2 :=
    ⟨.inr (rest_groupItems_alone hs htokens hcloser budget), .inl rfl, fun h => False.elim h⟩
  obtain ⟨hresult, halike'⟩ := (carries_groupItems hnested b).forth _ _ halike hallows
  have hready : Ready False ((s.enter false).before (tokens ++ closer :: rest)) :=
    ⟨hs.eof, False.elim, hnoted _ hs.panicking hs.stopped⟩
  obtain ⟨u, hu, hend, -⟩ : ∃ u, (onward False).InGroup _ u ∧ _ :=
    inGroup_groupItems hready trivial (Nat.succ_pos s.depth)
  have hsame : Ready False u := hu.inv
  obtain ⟨errors, herrors', hmoved⟩ := halike'.errors
  refine ⟨?_, ?_, halike'.next hallows, ?_, ?_, ?_⟩
  · rw [hresult]
    cases (groupItems (nested budget) b (alone s tokens closer)).1 with
    | none => rfl
    | some ns => exact congrArg some (Node.map_moved_id ns)
  · exact halike'.rest.trans (congrArg (· ++ rest) (Token.map_moved_id _))
  · rw [herrors', show c.earlier = [] from rfl, List.append_nil]
    exact ⟨fun h => List.forall₂_nil_right_iff.mp (h ▸ hmoved), fun h => by
      rw [h] at hmoved
      exact List.forall₂_nil_left_iff.mp hmoved⟩
  · rcases hend with he | he <;> rw [he]
    · exact hsame
    · exact hsame.withRest (pastNewlines_suffix _)
  · rcases hend with he | he <;> rw [he]
    · exact hu.settings
    · exact hu.settings

/-- The items of a group are read without an error, up to the closing bracket. -/
def Complete (budget : Nat) (b : Bracket) (s : ParseState) (tokens : List Token) (closer : Token) : Prop :=
  (groupItems (nested budget) b (alone s tokens closer)).2.errors = [] ∧
    (groupItems (nested budget) b (alone s tokens closer)).2.next.kind = .closing b

/-- A group is read apart from what stands behind it: as the same group whatever that is ... -/
theorem group_complete (hs : s.Sound) (herrors : s.errors = []) (hcloser : closer.kind = .closing b)
    (htokens : Inside tokens) (opener : Token) {budget : Nat} (h : Complete budget b s tokens closer) :
    ∃ ns, (groupItems (nested budget) b (alone s tokens closer)).1 = some ns ∧ ∀ rest, Anew rest →
      group (nested budget) b (s.before (opener :: (tokens ++ closer :: rest))) =
        (some (Group.ofItems opener closer b ns), s.before rest) := by
  obtain ⟨⟨ns, hns⟩, hrest⟩ := groupItems_alone_clean hs htokens hcloser budget h.1
  refine ⟨ns, hns, fun rest hanew => ?_⟩
  have hread := readAlike hs herrors hcloser htokens hanew budget
  have hfresh : Fresh ((s.enter false).before (tokens ++ closer :: rest)) := ⟨herrors, hs.panicking, hs.stopped⟩
  have hinside : groupItems (nested budget) b ((s.enter false).before (tokens ++ closer :: rest)) =
      (some ns, (s.enter false).before (closer :: rest)) := by
    refine Prod.ext (hread.result.trans hns) ?_
    rw [(hread.ready.fresh (hread.errors.mpr h.1)).eq hfresh hread.settings, hread.rest, hrest h.2]
    rfl
  unfold group
  rw [advance_before]
  apply inBrackets_before
  unfold groupBody
  rw [bind_apply_some hinside, peek_bind, ParseState.next_before_cons, if_pos (by simp [hcloser]), advance_before]
  rfl

/-- ... or with an error whatever that is. -/
theorem group_faulty (hs : s.Sound) (herrors : s.errors = []) (hcloser : closer.kind = .closing b)
    (htokens : Inside tokens) (opener : Token) {budget : Nat} (h : ¬ Complete budget b s tokens closer)
    (hanew : Anew rest) :
    (group (nested budget) b (s.before (opener :: (tokens ++ closer :: rest)))).2.errors ≠ [] := by
  have hread := readAlike hs herrors hcloser htokens hanew budget
  have hbad : (groupBody (nested budget) opener b
      ((s.enter false).before (tokens ++ closer :: rest))).2.errors ≠ [] := by
    refine groupBody_faulty hread.ready.errors (fun hnone he => ?_) ?_
    · obtain ⟨⟨ns, hns⟩, -⟩ := groupItems_alone_clean hs htokens hcloser budget (hread.errors.mp he)
      rw [hread.result, hns] at hnone
      cases hnone
    · rw [Ne, hread.errors, hread.next]
      exact not_and_or.mp h
  exact hbad

end

end Parse

end Frontend
