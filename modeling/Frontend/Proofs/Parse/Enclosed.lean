import Frontend.Proofs.Parse.Nesting
import Frontend.Proofs.Parse.Tree

/-!
# Items in brackets

When every item between brackets is read as it is written, so is the whole group.
-/

namespace Frontend

variable {t : Token}

/-- An item with the line breaks in front of it. -/
structure LaidItem where
  breaks : List Token
  node : Node
  tokens : List Token

def lineTokens (items : List LaidItem) : List Token := items.flatMap fun i => i.breaks ++ i.tokens

/-- Items that begin on new lines, except perhaps the first one. -/
structure OnLines (items : List LaidItem) : Prop where
  breaks : ∀ i ∈ items, Parse.LineEnd i.breaks
  apart : ∀ i ∈ items.tail, i.breaks ≠ []

theorem OnLines.tail {i : LaidItem} {items : List LaidItem} (h : OnLines (i :: items)) : OnLines items :=
  ⟨fun j hj => h.breaks j (List.mem_cons_of_mem i hj), fun j hj => h.apart j (List.mem_of_mem_tail hj)⟩

/-- An item ends here, and no further test of a branch follows, not even on a later line. -/
structure ParseState.EndsItem (s : ParseState) : Prop where
  next : s.next.kind = .newline ∨ s.next.kind = .eof ∨ s.next.kind.isClosing = true
  chain : ∀ k, ((pastNewlines s.rest).headD s.last).kind = .keyword k → k ≠ .elifTest ∧ k ≠ .elseCase

/-- An item is read as it is written, wherever it ends. -/
structure Parse.ReadsItem (sub : Nested) (n : Node) (tokens : List Token) : Prop where
  begins : Begins tokens
  reads : ∀ {s : ParseState} {rest : List Token}, s.Sound → (s.before rest).EndsItem →
    sub Binding.lowest (s.before (tokens ++ rest)) = (some n, s.before rest)

theorem pastNewlines_append {breaks : List Token} (h : Parse.LineEnd breaks) (tokens : List Token) :
    pastNewlines (breaks ++ tokens) = pastNewlines tokens := by
  induction breaks with
  | nil => rfl
  | cons t breaks ih =>
    have ht : t.kind = .newline := h t List.mem_cons_self
    rw [List.cons_append, pastNewlines, List.dropWhile_cons_of_pos (by simp [ht])]
    exact ih fun u hu => h u (List.mem_cons_of_mem t hu)

theorem pastNewlines_cons (h : t.kind ≠ .newline) (tokens : List Token) :
    pastNewlines (t :: tokens) = t :: tokens :=
  List.dropWhile_cons_of_neg (by simpa using h)

theorem TokenKind.begins_ne {k : TokenKind} (h : k.begins = true) :
    k ≠ .newline ∧ k ≠ .eof ∧ k.isClosing = false ∧ ∀ w, k = .keyword w → w ≠ .elifTest ∧ w ≠ .elseCase := by
  cases k with
  | keyword w => simpa [begins, isClosing] using h
  | _ => first | (cases h; done) | simp [isClosing]

theorem Begins.pastNewlines {tokens : List Token} (h : Begins tokens) : pastNewlines tokens = tokens := by
  obtain ⟨t, rest, rfl, ht⟩ := h
  exact pastNewlines_cons (TokenKind.begins_ne ht).1 rest

namespace Parse

variable {s : ParseState} {sub : Nested} {b : Bracket} {n : Node} {closer opener : Token}
  {breaks tokens rest : List Token} {done : List Node} {items : List LaidItem}

/-- Behind an item that begins a line anew stands a line break, in front of what is no further test. -/
theorem endsItem_append (hbreaks : LineEnd breaks) (hend : breaks ≠ [] ∨ t.kind.isClosing = true)
    (hnewline : t.kind ≠ .newline) (hchain : ∀ k, t.kind = .keyword k → k ≠ .elifTest ∧ k ≠ .elseCase) :
    (s.before (breaks ++ t :: rest)).EndsItem := by
  refine ⟨?_, ?_⟩
  · cases breaks with
    | nil => exact .inr (.inr (hend.resolve_left fun h => h rfl))
    | cons u breaks => exact .inl (hbreaks u List.mem_cons_self)
  · rw [ParseState.rest_before, pastNewlines_append hbreaks, pastNewlines_cons hnewline]
    exact hchain

theorem skipNewlines_before (f : Unit → Parse α) (hbreaks : LineEnd breaks) (h : pastNewlines tokens = tokens) :
    (skipNewlines >>= f) (s.before (breaks ++ tokens)) = f () (s.before tokens) := by
  rw [skipNewlines, change_bind]
  change f () (s.before (pastNewlines (breaks ++ tokens))) = f () (s.before tokens)
  rw [pastNewlines_append hbreaks, h]

theorem groupStep_item (done : List Node) (hs : s.Sound) (hbreaks : LineEnd breaks) (hitem : ReadsItem sub n tokens)
    (hend : (s.before rest).EndsItem)
    (hnext : (s.before rest).next.kind = .newline ∨ (s.before rest).next.kind = .closing b) :
    Discipline.groupStep sub b done (s.before (breaks ++ (tokens ++ rest))) =
      (some (.again (n :: done)), s.before rest) := by
  obtain ⟨t, more, rfl, ht⟩ := hitem.begins
  obtain ⟨-, -, hclosing, -⟩ := TokenKind.begins_ne ht
  have hkind : t.kind ≠ .closing b := by
    intro he
    rw [he] at hclosing
    cases hclosing
  unfold Discipline.groupStep
  rw [skipNewlines_before _ hbreaks (hitem.begins.append rest).pastNewlines, check, ask_bind, ask_bind,
    if_neg, calm, change_bind, (hs.before _).calm, attempt_bind, hitem.reads hs hend]
  · dsimp only
    rw [peekKind, ask_bind, if_pos (by simpa using hnext)]
    rfl
  · rw [List.cons_append, ParseState.next_before_cons]
    simp [hkind, ParseState.atEnd, ParseState.before, hs.stopped]

theorem groupStep_close (hbreaks : LineEnd breaks) (hcloser : closer.kind = .closing b) :
    Discipline.groupStep sub b done (s.before (breaks ++ closer :: rest)) =
      (some (.done done.reverse), s.before (closer :: rest)) := by
  unfold Discipline.groupStep
  rw [skipNewlines_before _ hbreaks (pastNewlines_cons (by simp [hcloser]) rest), check, ask_bind,
    ask_bind, if_pos (by simp [hcloser])]
  rfl

/-- The items of a group are read up to its closing bracket. -/
theorem groupItems_lines (done : List Node) (rest : List Token) (hs : s.Sound) (hlines : OnLines items)
    (hitems : ∀ i ∈ items, ReadsItem sub i.node i.tokens) (hbreaks : LineEnd breaks)
    (hcloser : closer.kind = .closing b) : repeatWhile (Discipline.groupStep sub b) done
      (s.before (lineTokens items ++ (breaks ++ closer :: rest))) =
      (some (done.reverse ++ items.map LaidItem.node), s.before (closer :: rest)) := by
  induction items generalizing done with
  | nil =>
    rw [List.map_nil, List.append_nil]
    exact repeatWhile_done (groupStep_close hbreaks hcloser)
  | cons i items ih =>
    have hitem := hitems i List.mem_cons_self
    have hclosing : closer.kind ≠ .newline ∧ closer.kind.isClosing = true := by simp [hcloser, TokenKind.isClosing]
    -- what stands behind the item: the next one, on a new line, or the closing bracket
    have hbehind : ∃ (front : List Token) (t : Token) (more : List Token),
        lineTokens items ++ (breaks ++ closer :: rest) = front ++ t :: more ∧ LineEnd front ∧ t.kind ≠ .newline ∧
        (∀ k, t.kind = .keyword k → k ≠ .elifTest ∧ k ≠ .elseCase) ∧ (front ≠ [] ∨ t.kind = .closing b) := by
      cases items with
      | nil => exact ⟨breaks, closer, rest, rfl, hbreaks, hclosing.1, by simp [hcloser], .inr hcloser⟩
      | cons j items =>
        have hj : j ∈ i :: j :: items := List.mem_cons_of_mem i List.mem_cons_self
        obtain ⟨t, more, htokens, ht⟩ := (hitems j hj).begins
        obtain ⟨hnewline, -, -, hchain⟩ := TokenKind.begins_ne ht
        refine ⟨j.breaks, t, more ++ (lineTokens items ++ (breaks ++ closer :: rest)), ?_,
          hlines.breaks j hj, hnewline, hchain, .inl (hlines.apart j List.mem_cons_self)⟩
        simp [lineTokens, htokens]
    obtain ⟨front, t, more, hrest, hfront, hnewline, hchain, hend⟩ := hbehind
    have hclose : front ≠ [] ∨ t.kind.isClosing = true :=
      hend.imp_right fun he => by rw [he]; rfl
    have hends : (s.before (lineTokens items ++ (breaks ++ closer :: rest))).EndsItem :=
      hrest ▸ endsItem_append hfront hclose hnewline hchain
    have hnext : (s.before (lineTokens items ++ (breaks ++ closer :: rest))).next.kind = .newline ∨
        (s.before (lineTokens items ++ (breaks ++ closer :: rest))).next.kind = .closing b := by
      rw [hrest]
      cases front with
      | nil => exact .inr (hend.resolve_left fun h => h rfl)
      | cons u front => exact .inl (hfront u List.mem_cons_self)
    have hstep := groupStep_item done hs (hlines.breaks i List.mem_cons_self) hitem hends hnext
    have htokens : lineTokens (i :: items) ++ (breaks ++ closer :: rest) =
        i.breaks ++ (i.tokens ++ (lineTokens items ++ (breaks ++ closer :: rest))) := by
      simp [lineTokens]
    have hless := ParseState.weight_before_lt s (lineTokens items ++ (breaks ++ closer :: rest))
      (List.append_ne_nil_of_right_ne_nil i.breaks hitem.begins.ne_nil)
    rw [List.append_assoc] at hless
    rw [htokens, repeatWhile_again hstep hless, ih _ hlines.tail fun j hj => hitems j (List.mem_cons_of_mem i hj)]
    simp

/-- A group of items is read as it is written. -/
theorem group_lines (opener : Token) (rest : List Token) (hs : s.Sound) (hlines : OnLines items)
    (hitems : ∀ i ∈ items, ReadsItem sub i.node i.tokens) (hbreaks : LineEnd breaks)
    (hcloser : closer.kind = .closing b) :
    group sub b (s.before (opener :: (lineTokens items ++ (breaks ++ closer :: rest)))) =
      (some (Group.ofItems opener closer b (items.map LaidItem.node)), s.before rest) := by
  unfold group
  rw [advance_before]
  apply inBrackets_before
  have hinside := groupItems_lines [] rest hs.enter hlines hitems hbreaks hcloser
  unfold groupBody
  rw [Discipline.groupItems_eq, bind_apply_some hinside, peek_bind, ParseState.next_before_cons,
    if_pos (by simp [hcloser]), advance_before]
  rfl

end Parse

end Frontend
