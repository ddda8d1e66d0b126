import Frontend.Proofs.Parse.Elsewhere
import Frontend.Proofs.Parse.Items
import Mathlib.Logic.Relation

/-!
# Every parse finishes

Whatever tokens a parse is given, each of its loops gets on in every round, it reads forward and never
past the end of input, and it ends there or with as many errors as it takes to stop. A parse without
errors has not recovered from any: whatever would be done behind a faulty item, its outcome is the same.
-/

namespace Frontend

variable {ns done done' : List Node} {recover : Option Bracket → Parse Unit}

/-! ## Reading forward -/

/-- One negative number is taken apart. -/
inductive TakesApart : List Token → List Token → Prop where
  | intro (front : List Token) {t : Token} (rest : List Token) (h : t.isNegativeNumber = true) :
      TakesApart (front ++ t :: rest) (front ++ t.splitNegative.1 :: t.splitNegative.2 :: rest)

/-- What is left of tokens behind those that are read. Negative numbers may be taken apart on the way. -/
def Leaves (tokens rest : List Token) : Prop :=
  ∃ read, Relation.ReflTransGen TakesApart tokens (read ++ rest)

namespace Leaves

variable {tokens rest more : List Token}

theorem of_suffix (h : rest <:+ tokens) : Leaves tokens rest := by
  obtain ⟨read, rfl⟩ := h
  exact ⟨read, .refl⟩

theorem refl (tokens : List Token) : Leaves tokens tokens := of_suffix (List.suffix_refl tokens)

theorem trans (h : Leaves tokens rest) (h' : Leaves rest more) : Leaves tokens more := by
  obtain ⟨read, hread⟩ := h
  obtain ⟨read', hread'⟩ := h'
  refine ⟨read ++ read', hread.trans ?_⟩
  rw [List.append_assoc]
  refine hread'.lift (read ++ ·) fun a b hab => ?_
  cases hab with
  | intro front rest h =>
    have happend := TakesApart.intro (read ++ front) rest h
    rwa [List.append_assoc, List.append_assoc] at happend

theorem split (tokens : List Token) : Leaves tokens (splitFirst tokens) := by
  rcases splitFirst_cases tokens with hsame | ⟨t, rest, rfl, hnegative, hsplit⟩
  · rw [hsame]
    exact refl tokens
  · rw [hsplit]
    exact ⟨[], .single (.intro [] rest hnegative)⟩

end Leaves

namespace Parse

variable {α β : Type} {s t : ParseState}

/-- A state with no more errors than it takes to stop. -/
structure Bounded (s : ParseState) : Prop where
  eof : s.last.kind = .eof
  limit : if s.stopped then s.errors.length = maxParseErrors + 1 else s.errors.length < maxParseErrors

theorem Bounded.length_le (h : Bounded s) : s.errors.length ≤ maxParseErrors + 1 := by
  have hlimit := h.limit
  split at hlimit <;> omega

theorem Bounded.report (hs : Bounded s) (e : ParseError) : Bounded (afterReport e s) := by
  refine ⟨(rest_afterReport e s).2 ▸ hs.eof, ?_⟩
  have hlimit := hs.limit
  unfold afterReport
  split
  · exact hlimit
  next hcalm =>
    have hgoing : s.stopped = false := by
      cases h : s.stopped <;> simp_all
    simp only [hgoing, Bool.false_eq_true, if_false] at hlimit
    dsimp only
    unfold reported
    split
    · simpa using hlimit
    · split
      next hfew => simpa using hfew
      next hmany =>
        simp only [if_true, List.length_cons]
        omega

/-- The rules of the grammar read forward and keep to the limit of errors. -/
def bounded : Discipline where
  Inv := Bounded
  Place := fun _ => True
  Does := fun _ s _ t => Leaves s.rest t.rest
  Opened := fun _ _ => True
  eof := Bounded.eof
  next := fun _ => trivial
  stay := fun s => .refl s.rest
  weaken := id
  trans := Leaves.trans
  stuck := fun h _ => h
  pass := fun hs hrest _ => ⟨⟨hs.eof, hs.limit⟩, .of_suffix (hrest ▸ List.suffix_cons _ _)⟩
  report := fun {s e} hs _ => ⟨hs.report _, (rest_afterReport e s).1 ▸ .refl _⟩
  split := fun hs => ⟨⟨hs.eof, hs.limit⟩, .split _⟩
  calm := fun {s} hs => ⟨⟨hs.eof, hs.limit⟩, .refl s.rest⟩
  skip := fun {s} hs _ =>
    ⟨⟨hs.eof, hs.limit⟩, fun _ _ h => (Leaves.of_suffix (pastNewlines_suffix s.rest)).trans h⟩
  openUp := fun _ _ hs _ _ => ⟨⟨hs.eof, hs.limit⟩, trivial⟩
  close := fun {s opener rest _ _ _ _ t closer rest'} hs hrest _ ht hdoes hclose _ => by
    refine ⟨⟨ht.eof, ht.limit⟩, ?_⟩
    have hopener : Leaves s.rest rest := .of_suffix (hrest ▸ List.suffix_cons opener rest)
    have hcloser : rest' <:+ t.rest :=
      (List.suffix_cons closer rest').trans (hclose ▸ pastNewlines_suffix t.rest)
    exact (hopener.trans hdoes).trans (.of_suffix hcloser)
  abandon := fun {s opener rest _ _ _ _ t} hs hrest _ ht hdoes => by
    have hopener : Leaves s.rest rest := .of_suffix (hrest ▸ List.suffix_cons opener rest)
    exact ⟨⟨ht.eof, ht.limit⟩, hopener.trans hdoes⟩
  resume := fun {s b r t} _ ht hdoes => by
    have h : Leaves s.rest (resumeAt (some b) 0 t.rest) :=
      Leaves.trans hdoes (.of_suffix (resumeAt_suffix _ _ _))
    exact ⟨⟨ht.eof, ht.limit⟩, h, h⟩

theorem bounded_item (hs : Bounded s) (h : item s = (some ns, t)) :
    Bounded t ∧ Leaves s.rest t.rest ∧ t.last = s.last := by
  have hend := bounded.itemEnd hs h
  cases hend with
  | faulty hv hsettings hdoes =>
    exact ⟨⟨hv.eof, hv.limit⟩, Leaves.trans hdoes (.of_suffix (resumeAt_suffix _ _ _)), hsettings.2.2⟩
  | read hv hsettings hdoes => exact ⟨hv, hdoes, hsettings.2.2⟩
  | @unexpected n v e hv hsettings hdoes =>
    have hreport := Bounded.report hv e
    refine ⟨⟨hreport.eof, hreport.limit⟩, Leaves.trans hdoes (.of_suffix ?_),
      (rest_afterReport e v).2.trans hsettings.2.2⟩
    dsimp only
    rw [(rest_afterReport e v).1]
    exact resumeAt_suffix _ _ _

/-- A program is read forward, to its end or up to the last error that is written down. -/
theorem ReadsItems.bounded (h : ReadsItems s ns t) (hs : Bounded s) :
    Bounded t ∧ Leaves s.rest t.rest ∧ t.last = s.last ∧ (t.rest = [] ∨ t.stopped = true) := by
  induction h with
  | @ended s h =>
    refine ⟨⟨hs.eof, hs.limit⟩, .of_suffix (pastNewlines_suffix s.rest), rfl, ?_⟩
    simpa [ParseState.ended] using h
  | @item s t u ns more _ hitem _ _ ih =>
    have hfront : Bounded s.atItem := ⟨hs.eof, hs.limit⟩
    obtain ⟨ht, hread, hlast⟩ := bounded_item hfront hitem
    obtain ⟨hu, hmore, hlast', hend⟩ := ih ht
    have hskip : Leaves s.rest s.atItem.rest := .of_suffix (pastNewlines_suffix s.rest)
    exact ⟨hu, (hskip.trans hread).trans hmore, hlast'.trans hlast, hend⟩

/-! ## Loops -/

/-- In every round in which a loop goes on, something is read. -/
inductive GetsOn (step : α → Parse (Progress α β)) : α → ParseState → Prop where
  | ends {a : α} {s : ParseState} (h : ∀ a' t, step a s ≠ (some (.again a'), t)) : GetsOn step a s
  | goes {a a' : α} {s t : ParseState} (h : step a s = (some (.again a'), t)) (hless : t.weight < s.weight)
      (hmore : GetsOn step a' t) : GetsOn step a s

variable {step : α → Parse (Progress α β)}

theorem getsOn_of_less {P : α → ParseState → Prop}
    (h : ∀ a s a' t, P a s → step a s = (some (.again a'), t) → t.weight < s.weight ∧ P a' t) {a : α}
    (ha : P a s) : GetsOn step a s := by
  induction hw : s.weight using Nat.strongRecOn generalizing s a with
  | ind w ih =>
    by_cases hgoes : ∃ a' t, step a s = (some (.again a'), t)
    · obtain ⟨a', t, hstep⟩ := hgoes
      obtain ⟨hless, ha'⟩ := h a s a' t ha hstep
      exact .goes hstep hless (ih t.weight (hw ▸ hless) ha' rfl)
    · exact .ends fun a' t hstep => hgoes ⟨a', t, hstep⟩

/-- A loop whose steps keep to the discipline of getting on. -/
theorem getsOn_of_runs {I : α → Prop} {K : ParseState → Prop} {S : β → Prop}
    (h : ∀ a t, I a → K t → (onward False).Runs Discipline.goesOn t (step a) (Discipline.leadsTo I S))
    (hnext : ∀ a t a' u, step a t = (some (.again a'), u) → K u) {a : α} (hs : Ready False s) (ha : I a)
    (hK : K s) : GetsOn step a s := by
  refine getsOn_of_less (P := fun a s => Ready False s ∧ I a ∧ K s) ?_ ⟨hs, ha, hK⟩
  rintro a s a' t ⟨hs, ha, hK⟩ hstep
  have o := h a s ha hK hs
  rw [hstep] at o
  obtain ⟨hdoes, ha'⟩ := o.done _ rfl
  exact ⟨hdoes.less rfl rfl, o.inv, ha', hnext a s a' t hstep⟩

/-- Where errors may be told anywhere and names stand on any tokens, every tree will do. -/
theorem standing_of_all {Place : Position → Prop} {Name : Token → Prop} (hplace : ∀ p, Place p)
    (hname : ∀ t, Name t) (n : Node) : n.Standing Place Name :=
  .intro (hplace _) (fun _ _ => hplace _) (fun _ _ => hname _) fun m _ => standing_of_all hplace hname m
termination_by sizeOf n
decreasing_by exact Node.sizeOf_lt_of_mem_children ‹_›

/-- The rules for what is nested in an expression. -/
def nested (budget : Nat) : Nested where
  expression := expression budget
  recover := fun b => synchronize (some b)

theorem eats_nested (d : Discipline) (budget : Nat) : d.EatsNested (nested budget) :=
  ⟨d.eats_expression budget, fun _ => rfl⟩

/-- The loops of the grammar, each with what it starts from. -/
inductive Loop : {α β : Type} → (α → Parse (Progress α β)) → α → ParseState → Prop where
  | labels {s : ParseState} (h : startsLabel s.next.kind = true) : Loop Discipline.labelStep [] s
  | group (budget : Nat) (b : Bracket) {s : ParseState} : Loop (Discipline.groupStep (nested budget) b) [] s
  | parallel (budget : Nat) (first : Node) {s : ParseState} :
      Loop (Discipline.parallelStep (nested budget)) [first] s
  | climb (budget level : Nat) (left : Node) {s : ParseState} :
      Loop (Discipline.climbStep (nested budget) level) left s
  | branch (budget : Nat) (first : Condition) {s : ParseState} :
      Loop (Discipline.branchStep (nested budget)) [first] s
  | items {s : ParseState} : Loop itemStep [] s

/-- A round over an item of a group reads something, even if the item is faulty. -/
theorem less_of_groupStep {budget : Nat} {b : Bracket} (hs : Ready False s)
    (h : Discipline.groupStep (nested budget) b done s = (some (.again done'), t)) :
    t.weight < s.weight ∧ Ready False t := by
  obtain ⟨hpast, hskip⟩ := hs.skip
  obtain ⟨hfront, hcalm⟩ := (onward False).calm hpast
  have hle : s.atItem.weight ≤ s.weight := by
    rw [ParseState.weight_eq, ParseState.weight_eq]
    exact tokensWeight_suffix (pastNewlines_suffix _)
  unfold Discipline.groupStep at h
  rw [skipNewlines, change_bind, check, ask_bind, ask_bind] at h
  split at h
  · cases h
  next hgoes =>
    rw [Bool.or_eq_true, Bool.or_eq_true, not_or, not_or] at hgoes
    obtain ⟨hcloser, hne, -⟩ := hgoes
    have hne : pastNewlines s.rest ≠ [] := by simpa [ParseState.atEnd, pastNewlines] using hne
    have hk : ({ s with rest := pastNewlines s.rest } : ParseState).next.kind ≠ .newline := by
      obtain ⟨first, rest, hrest⟩ := List.exists_cons_of_ne_nil hne
      rw [ParseState.next, hrest]
      exact head_pastNewlines hrest
    have hcloser : ∀ b', some b = some b' →
        ({ s with rest := pastNewlines s.rest } : ParseState).next.kind ≠ .closing b' := by
      rintro b' ⟨⟩ he
      exact hcloser (beq_iff_eq.mpr he)
    have o := (eats_nested (onward False) budget).eats Binding.lowest _ hfront
    rw [Parse.calm, change_bind, attempt_bind] at h
    unfold pastNewlines at o
    generalize hr : (nested budget).expression Binding.lowest _ = r at o h
    obtain ⟨item?, v⟩ := r
    have hv : Ready False v := o.inv
    cases item? with
    | none =>
      have hdoes : Onward False true s.atItem false v := o.failed rfl
      cases h
      refine ⟨?_, hv.withRest (resumeAt_suffix _ _ _)⟩
      rw [ParseState.weight_eq]
      exact Nat.lt_of_lt_of_le (hdoes.resumeAt_lt hne hk hcloser) hle
    | some item =>
      have hread : Onward False true s.atItem true v := (o.done item rfl).1
      have hless : v.weight < s.weight := Nat.lt_of_lt_of_le (hread.less rfl rfl) hle
      dsimp only at h
      rw [peekKind, ask_bind] at h
      split at h
      · cases h
        exact ⟨hless, hv⟩
      · split at h
        · cases h
        · rw [peek_bind, reportUnexpected, reportToken, reportAt_eq, change_bind] at h
          have hreport := Onward.report hv ⟨.unexpectedToken, v.next.pos,
            if v.next.columns < 1 then 1 else v.next.columns, .entry .unexpectedTokenType
              [.text v.next.describe, .text ("newline or '" ++ b.closer.toString ++ "'")]⟩
          have hpassed := hreport.passOver (resumeAt_suffix (some b) 0 _)
          cases h
          exact ⟨Nat.lt_of_le_of_lt hpassed.weight_le hless, (hv.report _).withRest (resumeAt_suffix _ _ _)⟩

theorem less_of_itemStep (hs : Ready False s) (h : itemStep done s = (some (.again done'), t)) :
    t.weight < s.weight ∧ Ready False t := by
  cases hended : s.ended with
  | true =>
    rw [itemStep_of_ended hended] at h
    cases h
  | false =>
    obtain ⟨ns, u, hitem, hpast⟩ := exists_item hs hended
    rw [itemStep_of_item hended hitem] at h
    cases h
    exact ⟨hpast.less, hpast.ready⟩

/-- Every loop of the grammar gets on, whatever it meets. -/
theorem Loop.getsOn {a : α} (h : Loop step a s) (hs : Ready False s) : GetsOn step a s := by
  have stands : ∀ n : Node, (onward False).Stands n := standing_of_all (fun _ => trivial) fun _ => trivial
  cases h with
  | labels hstarts =>
    exact getsOn_of_runs (I := fun _ => True) (K := fun t => startsLabel t.next.kind = true)
      (fun done t _ ht => Discipline.runs_labelStep done ht)
      (fun _ _ _ _ => Discipline.startsLabel_of_labelStep) hs trivial hstarts
  | group budget b =>
    exact getsOn_of_less (P := fun _ s => Ready False s) (fun _ _ _ _ hs => less_of_groupStep hs) hs
  | parallel budget first =>
    exact getsOn_of_runs (K := fun _ => True)
      (fun done t hdone _ => Discipline.runs_parallelStep (eats_nested _ budget) hdone)
      (fun _ _ _ _ _ => trivial) hs ⟨fun n _ => stands n, nofun⟩ trivial
  | climb budget level left =>
    exact getsOn_of_runs (K := fun _ => True)
      (fun left t hleft _ => Discipline.runs_climbStep (eats_nested _ budget) level hleft)
      (fun _ _ _ _ _ => trivial) hs (stands left) trivial
  | branch budget first =>
    exact getsOn_of_runs (K := fun _ => True)
      (fun done t hdone _ => Discipline.runs_branchStep (eats_nested _ budget) hdone)
      (fun _ _ _ _ _ => trivial) hs ⟨nofun, fun _ _ => ⟨trivial, fun m _ => stands m⟩⟩ trivial
  | items =>
    exact getsOn_of_less (P := fun _ s => Ready False s) (fun _ _ _ _ hs => less_of_itemStep hs) hs

/-! ## Recovery -/

/-- The items of a program, with something else done behind faulty ones. -/
def itemsUsing (recover : Option Bracket → Parse Unit) : Parse (List Node) :=
  repeatWhile (fun (done : List Node) => do
    skipNewlines
    if ← ask fun s => s.atEnd || s.stopped then return .done done.reverse
    calm
    match ← attempt (expressionUsing (fun b => recover (some b)) maxExpressionDepth Binding.lowest) with
    | none =>
      recover none
      return .again done
    | some item =>
      let t ← peek
      if t.kind != .newline && t.kind != .eof then
        reportUnexpected t "newline"
        recover none
      return .again (item :: done)) []

theorem itemsUsing_synchronize : itemsUsing synchronize = items := by
  unfold items
  rw [← expressionUsing_synchronize]
  rfl

/-- What is done behind faulty items does not matter to a program that has none. -/
theorem carries_itemsUsing {c : Setting}
    (hrecover : ∀ closer, Resumes c id (synchronize closer) (recover closer)) :
    Carries c (List.map (Node.moved c.move)) items (itemsUsing recover) := by
  refine .repeatWhile (List.map (Node.moved c.move)) (fun done => ?_) []
  refine Carries.skipNewlines.bind fun _ => ?_
  refine Carries.ended.bind fun ended => .ite Iff.rfl (.pure ?_) ?_
  · simp [Progress.image]
  refine Carries.calm.bind fun _ => ?_
  refine (carries_expressionUsing (fun b => hrecover (some b)) _ _).attempt.bindOrResume fun r => ?_
  cases r with
  | none =>
    refine .inr ⟨(hrecover none).bind fun _ => .pure rfl, fun _ s s' halike hnone => ?_⟩
    have hresult : (expression maxExpressionDepth Binding.lowest s).1 = none := Option.some.inj hnone
    exact speaks_expression _ _ halike.eof.1 halike.noted hresult
  | some item =>
    refine .inl (Carries.peek.bind fun t => .ite Iff.rfl ?_ (.pure rfl))
    exact .reportUnexpectedThen t _ ((hrecover none).bind fun _ => .pure rfl)

/-- A move of all tokens, as far as there are no errors. -/
def Setting.moving (move : Position → Position)
    (hshift : ∀ p columns bytes, move (p.shift columns bytes) = (move p).shift columns bytes)
    (honto : Function.Surjective move) : Setting where
  move := move
  shift := hshift
  clean := True
  moves := .inl trivial
  onto := fun _ => honto
  more := []
  whole := True
  nothing := fun _ => rfl
  goesOn := fun _ h => by cases h
  earlier := []
  alone := fun _ => ⟨trivial, rfl⟩

/-- The same place, as far as there are no errors. -/
def Setting.faultless : Setting := .moving id (fun _ _ _ => rfl) Function.surjective_id

theorem Setting.Alike.eq_of_faultless {s' : ParseState} (h : Setting.faultless.Alike s s')
    (herrors : s.errors = []) : s' = s := by
  have hrest : s'.rest = s.rest := by
    have := h.rest
    rwa [show Setting.faultless.move = id from rfl, Token.map_moved_id,
      show Setting.faultless.more = [] from rfl, List.append_nil] at this
  have hlast : s'.last = s.last := h.last trivial
  have herrors' : s'.errors = s.errors := ((h.errors_eq_nil trivial).mpr herrors).trans herrors.symm
  have hpanicking := h.panicking
  have hstopped := h.stopped
  have hdepth := h.depth
  have hclass := h.inClass
  cases s
  cases s'
  simp_all

/-- A program that is read without errors is read in the same way whatever is done behind faulty items,
as long as no error is taken back: nothing is done there. -/
theorem itemsUsing_of_faultless (hrecover : ∀ closer s, s.errors ≠ [] → (recover closer s).2.errors ≠ [])
    (heof : s.last.kind = .eof) (hnoted : Noted s) (h : (items s).2.errors = []) :
    itemsUsing recover s = items s := by
  have hcarries : Carries Setting.faultless _ items (itemsUsing recover) :=
    carries_itemsUsing fun closer => {
      back := fun s hend => (Carries.synchronize closer).back s hend
      forth := fun hclean => absurd trivial hclean
      keeps := fun _ => hrecover closer }
  have hend : Setting.faultless.Allows (items s).2 := Setting.faultless.allows_of_clean trivial h
  have hs : s.errors = [] := (hcarries.back s hend).clean trivial
  have halike : Setting.faultless.Alike s s := by
    refine ⟨?_, fun _ => rfl, ⟨heof, heof⟩, ⟨[], hs, ?_⟩, rfl, rfl, rfl, rfl, hnoted⟩
    · rw [show Setting.faultless.move = id from rfl, Token.map_moved_id]
      exact (List.append_nil _).symm
    · rw [hs]
      exact .nil
  obtain ⟨hresult, halike'⟩ := hcarries.forth s s halike hend
  refine Prod.ext ?_ (halike'.eq_of_faultless h)
  rw [hresult, show Setting.faultless.move = id from rfl]
  cases (items s).1 with
  | none => rfl
  | some ns => simp [Node.map_moved_id]

end Parse

namespace Program

/-- What a parse comes to: the items it has read, and the state in which it ends. -/
structure Finishes (tokens : List Token) (items : List Node) (t : ParseState) : Prop where
  run : Parse.items (ParseState.ofTokens tokens) = (some items, t)
  /-- Reading goes forward and never past the end of input, so there is always a next token. -/
  inside : Leaves (ParseState.ofTokens tokens).rest t.rest ∧
    t.last = (ParseState.ofTokens tokens).last ∧ t.last.kind = .eof
  /-- It ends at the end of input, or with as many errors as it takes to stop. -/
  ended : t.next.kind = .eof ∨ t.stopped = true ∧ t.errors.length = maxParseErrors + 1
  limit : t.errors.length ≤ maxParseErrors + 1
  /-- Without an error nothing was faulty: behind a rule without a result, and behind an item that goes on
  with something unexpected, anything else could have been done, like giving up, to the same effect. -/
  silent : t.errors = [] → ∀ recover : Option Bracket → Parse Unit,
    (∀ closer s, s.errors ≠ [] → (recover closer s).2.errors ≠ []) →
      Parse.itemsUsing recover (ParseState.ofTokens tokens) = (some items, t)

/-- A parse always finishes, and it does not fail without saying so. Its loops get on in every round, so
that none of them goes on forever. -/
theorem ofTokens_finishes (tokens : List Token) :
    (∃ items t, Finishes tokens items t ∧
      (ofTokens tokens).program.body = items ∧ (ofTokens tokens).errors = t.errors.reverse) ∧
    ∀ {α β : Type} {step : α → Parse (Parse.Progress α β)} {a : α} {s : ParseState},
      Parse.Loop step a s → Parse.Ready False s → Parse.GetsOn step a s := by
  refine ⟨?_, fun hloop hs => hloop.getsOn hs⟩
  have heof := ParseState.last_ofTokens tokens
  have hready := Parse.ready_ofTokens tokens
  obtain ⟨items, t, hreads⟩ := Parse.exists_readsItems hready
  obtain ⟨hbounded, hleaves, hlast, hended⟩ :=
    hreads.bounded ⟨heof, by simp [ParseState.ofTokens, maxParseErrors]⟩
  have hrun := Parse.items_of_reads hreads
  refine ⟨items, t, ⟨hrun, ⟨hleaves, hlast, hbounded.eof⟩, ?_, hbounded.length_le, ?_⟩,
    Parse.parsed_of_reads hreads⟩
  · rcases hended with hrest | hstopped
    · refine .inl ?_
      rw [ParseState.next, hrest]
      exact hbounded.eof
    · have hlimit := hbounded.limit
      rw [if_pos hstopped] at hlimit
      exact .inr ⟨hstopped, hlimit⟩
  · intro herrors recover hrecover
    rw [← hrun]
    refine Parse.itemsUsing_of_faultless hrecover heof hready.errors ?_
    rw [hrun]
    exact herrors

end Program

end Frontend
