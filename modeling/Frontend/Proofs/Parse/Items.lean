import Frontend.Proofs.Parse.Progress

/-!
# The items of a program

A program is read item by item. How a whole list of tokens is read is told by a relation that follows
the items, so that programs can be put together.
-/

namespace Frontend

variable {ns : List Node}
variable {closer : Option Bracket} {reads : Bool}

namespace ParseState

/-- There is no further item, or the parse has stopped. -/
def ended (s : ParseState) : Bool := (pastNewlines s.rest).isEmpty || s.stopped

/-- The state in front of the next item. -/
def atItem (s : ParseState) : ParseState := { s with rest := pastNewlines s.rest, panicking := false }

theorem last_ofTokens (tokens : List Token) : (ofTokens tokens).last.kind = .eof := by
  unfold ofTokens
  cases h : tokens.find? (·.kind == .eof) with
  | none => rfl
  | some t => simpa using List.find?_some h

end ParseState

namespace Parse

variable {lines : Prop} {s t u : ParseState}

/-- One item. If it is faulty, so is its whole line: reading goes on with the next one. -/
def item : Parse (List Node) := do
  match ← attempt (expression maxExpressionDepth Binding.lowest) with
  | none =>
    synchronize none
    return []
  | some n =>
    let t ← peek
    if t.kind != .newline && t.kind != .eof then
      reportUnexpected t "newline"
      synchronize none
    return [n]

def itemStep (done : List Node) : Parse (Progress (List Node) (List Node)) := do
  skipNewlines
  if ← ask fun s => s.atEnd || s.stopped then return .done done.reverse
  calm
  match ← attempt (expression maxExpressionDepth Binding.lowest) with
  | none =>
    synchronize none
    return .again done
  | some item =>
    let t ← peek
    if t.kind != .newline && t.kind != .eof then
      reportUnexpected t "newline"
      synchronize none
    return .again (item :: done)

theorem items_eq : items = repeatWhile itemStep [] := rfl

theorem itemStep_of_ended (h : s.ended = true) (done : List Node) :
    itemStep done s = (some (.done done.reverse), { s with rest := pastNewlines s.rest }) := by
  unfold itemStep
  rw [skipNewlines, change_bind, ask_bind, if_pos]
  · rfl
  · exact h

theorem itemStep_of_item (h : s.ended = false) (hitem : item s.atItem = (some ns, t)) (done : List Node) :
    itemStep done s = (some (.again (ns.reverse ++ done)), t) := by
  unfold itemStep
  rw [skipNewlines, change_bind, ask_bind, if_neg, calm, change_bind, attempt_bind]
  · unfold item at hitem
    rw [attempt_bind] at hitem
    unfold ParseState.atItem pastNewlines at hitem
    generalize expression maxExpressionDepth Binding.lowest _ = r at hitem ⊢
    obtain ⟨n?, v⟩ := r
    cases n? with
    | none =>
      cases hitem
      rfl
    | some n =>
      dsimp only at hitem ⊢
      rw [peek_bind] at hitem ⊢
      split at hitem
      next hk =>
        rw [if_pos hk]
        cases hitem
        rfl
      next hk =>
        rw [if_neg hk]
        cases hitem
        rfl
  · rw [Bool.not_eq_true]
    exact h

/-- How the items of a program are read: `ns` are the items, and the last state is `t`. -/
inductive ReadsItems : ParseState → List Node → ParseState → Prop where
  | ended {s : ParseState} (h : s.ended = true) : ReadsItems s [] { s with rest := pastNewlines s.rest }
  | item {s t u : ParseState} {ns more : List Node} (h : s.ended = false)
      (hitem : Parse.item s.atItem = (some ns, t)) (hless : t.weight < s.weight)
      (hmore : ReadsItems t more u) : ReadsItems s (ns ++ more) u

theorem repeatWhile_of_reads (h : ReadsItems s ns t) (done : List Node) :
    repeatWhile itemStep done s = (some (done.reverse ++ ns), t) := by
  induction h generalizing done with
  | ended h => rw [repeatWhile.eq_def, itemStep_of_ended h, List.append_nil]
  | item h hitem hless _ ih =>
    rw [repeatWhile.eq_def, itemStep_of_item h hitem]
    dsimp only
    rw [if_pos hless, ih]
    simp

theorem items_of_reads (h : ReadsItems s ns t) : items s = (some ns, t) := by
  rw [items_eq, repeatWhile_of_reads h []]
  rfl

theorem parsed_of_reads {tokens : List Token} (h : ReadsItems (ParseState.ofTokens tokens) ns t) :
    (Program.ofTokens tokens).program.body = ns ∧ (Program.ofTokens tokens).errors = t.errors.reverse := by
  unfold Program.ofTokens
  dsimp only
  rw [items_of_reads h]
  exact ⟨rfl, rfl⟩

/-! ## Every item gets on -/

/-- A faulty item is passed over, and at least its first token is. -/
theorem tokensWeight_resumeAt (hne : s.rest ≠ []) (hk : s.next.kind ≠ .newline)
    (hcloser : ∀ b, closer = some b → s.next.kind ≠ .closing b) :
    tokensWeight (resumeAt closer 0 s.rest) < tokensWeight s.rest := by
  cases hrest : s.rest with
  | nil => exact absurd hrest hne
  | cons token rest =>
    have hnext : s.next = token := by simp [ParseState.next, hrest]
    rw [hnext] at hk hcloser
    have hsuffix : resumeAt closer 0 (token :: rest) <:+ rest := by
      unfold resumeAt
      split
      · exact resumeAt_suffix _ _ _
      next b he =>
        rw [if_pos rfl, if_neg fun h => hcloser b h he]
        exact resumeAt_suffix _ _ _
      next he => exact absurd he hk
      · exact resumeAt_suffix _ _ _
    exact Nat.lt_of_le_of_lt (tokensWeight_suffix hsuffix) (tokensWeight_tail token rest)

/-- Behind a faulty item there is less to read than in front of it. -/
theorem Onward.resumeAt_lt (h : Onward lines reads s false t) (hne : s.rest ≠ []) (hk : s.next.kind ≠ .newline)
    (hcloser : ∀ b, closer = some b → s.next.kind ≠ .closing b) :
    tokensWeight (resumeAt closer 0 t.rest) < s.weight := by
  have hle := tokensWeight_suffix (resumeAt_suffix closer 0 t.rest)
  rcases h.moves with hlt | ⟨heq, hnext⟩
  · rw [ParseState.weight_eq t] at hlt
    exact Nat.lt_of_le_of_lt hle hlt
  · rw [ParseState.weight_eq t] at heq
    have ht : t.rest ≠ [] := by
      intro he
      rw [he, ParseState.weight_eq] at heq
      exact absurd (tokensWeight_pos hne) (by rw [← heq]; exact Nat.lt_irrefl 0)
    -- nothing was read, so the same kind of token is in front, or a minus
    have hkind : ∀ k, k ≠ .op .minus → s.next.kind ≠ k → t.next.kind ≠ k := by
      intro k hminus hs he
      rcases hnext with hsame | hm
      · exact hs (hsame ▸ he)
      · exact hminus (he ▸ hm)
    have hless := tokensWeight_resumeAt ht (hkind _ nofun hk) fun b hb => hkind _ nofun (hcloser b hb)
    exact Nat.lt_of_lt_of_le hless (Nat.le_of_eq heq)

/-- Behind an error reading goes on, as long as something is passed over. -/
theorem Onward.recover (h : Onward lines reads s false t) (hless : t.weight < s.weight) :
    Onward lines true s true t :=
  ⟨.inl hless, fun _ _ => hless, h.errors, fun he => absurd (h.clean he).1 (by decide)⟩

/-- What an item comes to in a discipline: it is faulty, or it is read, perhaps with something unexpected
behind it. -/
inductive Discipline.ItemEnd (d : Discipline) (s : ParseState) : List Node → ParseState → Prop where
  | faulty {v : ParseState} (inv : d.Inv v) (settings : SameSettings s v) (does : d.Does true s false v) :
      ItemEnd d s [] { v with rest := resumeAt none 0 v.rest }
  | read {n : Node} {v : ParseState} (inv : d.Inv v) (settings : SameSettings s v)
      (does : d.Does true s true v) (stands : d.Stands n) : ItemEnd d s [n] v
  | unexpected {n : Node} {v : ParseState} {e : ParseError} (inv : d.Inv v) (settings : SameSettings s v)
      (does : d.Does true s true v) (stands : d.Stands n) :
      ItemEnd d s [n] { afterReport e v with rest := resumeAt none 0 (afterReport e v).rest }

theorem Discipline.exists_itemEnd (d : Discipline) (hs : d.Inv s) :
    ∃ ns t, item s = (some ns, t) ∧ d.ItemEnd s ns t := by
  have o := d.eats_expression maxExpressionDepth Binding.lowest s hs
  unfold item
  rw [attempt_bind]
  generalize expression maxExpressionDepth Binding.lowest s = r at o ⊢
  obtain ⟨n?, v⟩ := r
  cases n? with
  | none => exact ⟨[], _, rfl, .faulty o.inv o.settings (o.failed rfl)⟩
  | some n =>
    obtain ⟨hdoes, hn⟩ := o.done n rfl
    dsimp only
    rw [peek_bind]
    split
    · rw [reportUnexpected, reportToken, reportAt_eq, change_bind]
      exact ⟨[n], _, rfl, .unexpected o.inv o.settings hdoes hn⟩
    · exact ⟨[n], v, rfl, .read o.inv o.settings hdoes hn⟩

/-- An item comes to what it comes to in every discipline. -/
theorem Discipline.itemEnd (d : Discipline) (hs : d.Inv s) (h : item s = (some ns, t)) : d.ItemEnd s ns t := by
  obtain ⟨ns', t', hitem, hend⟩ := d.exists_itemEnd hs
  rw [h] at hitem
  cases hitem
  exact hend

theorem onward_item (hs : Ready lines s) (hne : s.rest ≠ []) (hk : s.next.kind ≠ .newline) :
    ∃ ns t, item s = (some ns, t) ∧ Ready lines t ∧ Onward lines true s true t ∧ Discipline.SameSettings s t := by
  obtain ⟨ns, t, hitem, hend⟩ := (onward lines).exists_itemEnd hs
  refine ⟨ns, t, hitem, ?_⟩
  cases hend with
  | @faulty v hv hsettings hdoes =>
    have hsuffix := resumeAt_suffix none 0 v.rest
    have hpassed : Onward lines true s false _ := Onward.passOver hdoes hsuffix
    refine ⟨Ready.withRest hv hsuffix, hpassed.recover ?_, hsettings⟩
    rw [ParseState.weight_eq]
    exact Onward.resumeAt_lt hdoes hne hk nofun
  | read hv hsettings hdoes => exact ⟨hv, hdoes, hsettings⟩
  | @unexpected n v e hv hsettings hdoes =>
    have hpassed := (Onward.report hv e).passOver (resumeAt_suffix none 0 _)
    have honward : Onward lines true s false _ := Onward.trans hdoes hpassed
    refine ⟨(hv.report e).withRest (resumeAt_suffix _ _ _), honward.recover ?_,
      hsettings.trans (Discipline.settings_afterReport _ v)⟩
    exact Nat.lt_of_le_of_lt hpassed.weight_le (hdoes.less rfl rfl)

theorem head_pastNewlines {tokens rest : List Token} {t : Token} (h : pastNewlines tokens = t :: rest) :
    t.kind ≠ .newline := by
  induction tokens with
  | nil => cases h
  | cons first tokens ih =>
    unfold pastNewlines at h
    rw [List.dropWhile_cons] at h
    split at h
    · exact ih h
    next hk =>
      cases h
      simpa using hk

theorem atItem_ne (h : s.ended = false) : s.atItem.rest ≠ [] ∧ s.atItem.next.kind ≠ .newline := by
  cases hrest : pastNewlines s.rest with
  | nil => simp [ParseState.ended, hrest] at h
  | cons t rest =>
    refine ⟨by simp [ParseState.atItem, hrest], ?_⟩
    have hnext : s.atItem.next = t := by simp [ParseState.next, ParseState.atItem, hrest]
    rw [hnext]
    exact head_pastNewlines hrest

/-- What reading an item leads to. -/
structure PastItem (lines : Prop) (s t : ParseState) : Prop where
  ready : Ready lines t
  less : t.weight < s.weight
  errors : s.errors ≠ [] → t.errors ≠ []
  /-- Without an error the line break behind the item stays unread. -/
  rest : lines → t.errors = [] → t.rest ≠ []
  settings : Discipline.SameSettings s t

theorem exists_item (hs : Ready lines s) (h : s.ended = false) :
    ∃ ns t, item s.atItem = (some ns, t) ∧ PastItem lines s t := by
  obtain ⟨hne, hk⟩ := atItem_ne h
  have hs' : Ready lines s.atItem := ((onward lines).calm hs.skip.1).1
  obtain ⟨ns, t, hitem, ht, hdoes, hsettings⟩ := onward_item hs' hne hk
  have hle : s.atItem.weight ≤ s.weight := by
    rw [ParseState.weight_eq, ParseState.weight_eq]
    exact tokensWeight_suffix (pastNewlines_suffix _)
  refine ⟨ns, t, hitem, ht, Nat.lt_of_lt_of_le (hdoes.less rfl rfl) hle, hdoes.errors, ?_, hsettings⟩
  exact fun hl he => (hdoes.clean he).2 hl (.inl rfl)

/-- An item has the outcome it has. -/
theorem pastItem (hs : Ready lines s) (h : s.ended = false) (hitem : item s.atItem = (some ns, t)) :
    PastItem lines s t := by
  obtain ⟨ns', t', hitem', hpast⟩ := exists_item hs h
  rw [hitem] at hitem'
  cases hitem'
  exact hpast

theorem ready_ofTokens (tokens : List Token) : Ready False (ParseState.ofTokens tokens) :=
  ⟨ParseState.last_ofTokens tokens, False.elim, fun h => by simp [ParseState.ofTokens] at h⟩

/-- Every program is read to its end. -/
theorem exists_readsItems (hs : Ready lines s) : ∃ ns t, ReadsItems s ns t := by
  induction hw : s.weight using Nat.strongRecOn generalizing s with
  | ind w ih =>
    cases hended : s.ended with
    | true => exact ⟨[], _, .ended hended⟩
    | false =>
      obtain ⟨ns, t, hitem, hpast⟩ := exists_item hs hended
      obtain ⟨more, u, hmore⟩ := ih t.weight (hw ▸ hpast.less) hpast.ready rfl
      exact ⟨ns ++ more, u, .item hended hitem hpast.less hmore⟩

/-- An error stays. -/
theorem ReadsItems.errors (h : ReadsItems s ns t) (hs : Ready lines s) (he : s.errors ≠ []) : t.errors ≠ [] := by
  induction h with
  | ended => exact he
  | item h hitem _ _ ih =>
    have hpast := pastItem hs h hitem
    exact ih hpast.ready (hpast.errors he)

end Parse

end Frontend
