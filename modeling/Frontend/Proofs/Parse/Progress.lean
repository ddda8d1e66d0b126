import Frontend.Proofs.Parse.Rules

/-!
# Rules get on

Reading never adds to what is left to read, and a rule that gives no result and reads nothing stays in
front of the same token. A rule that writes no error down has a result. If its tokens end with a line
break, that line break stays unread: line breaks are only passed over in front of something else.
-/

namespace Frontend

variable {tokens rest : List Token} {ok : Bool}

theorem EndsLine.suffix (h : EndsLine tokens) (hrest : rest <:+ tokens) : EndsLine rest := by
  obtain ⟨front, rfl⟩ := hrest
  intro t ht
  refine h t ?_
  rw [List.getLast?_append]
  simp [Option.mem_def.mp ht]

theorem EndsLine.tail_ne_nil {t : Token} (h : EndsLine (t :: rest)) (ht : t.kind ≠ .newline) : rest ≠ [] := by
  intro he
  subst he
  exact ht (h t (by simp))

theorem tokensWeight_suffix (h : rest <:+ tokens) : tokensWeight rest ≤ tokensWeight tokens := by
  obtain ⟨front, rfl⟩ := h
  rw [tokensWeight_append]
  omega

theorem Token.parts_pos (t : Token) : 0 < t.parts := by
  unfold Token.parts
  split
  · split <;> decide
  · decide

theorem tokensWeight_tail (t : Token) (rest : List Token) : tokensWeight rest < tokensWeight (t :: rest) := by
  rw [tokensWeight.eq_2]
  have := t.parts_pos
  omega

theorem tokensWeight_pos (h : tokens ≠ []) : 0 < tokensWeight tokens := by
  cases tokens with
  | nil => exact absurd rfl h
  | cons t rest => exact Nat.zero_lt_of_lt (tokensWeight_tail t rest)

/-- Whatever is passed over weighs something. -/
theorem tokensWeight_lt (h : rest <:+ tokens) : rest = tokens ∨ tokensWeight rest < tokensWeight tokens := by
  obtain ⟨front, rfl⟩ := h
  cases front with
  | nil => exact .inl rfl
  | cons t front =>
    right
    have hle := tokensWeight_suffix (List.suffix_append front rest)
    have hlt := tokensWeight_tail t (front ++ rest)
    rw [List.cons_append]
    omega

theorem pastNewlines_suffix (tokens : List Token) : pastNewlines tokens <:+ tokens :=
  List.dropWhile_suffix _

namespace Parse

/-- A state that reading may go on from. With `lines`, its tokens end with a line break. -/
structure Ready (lines : Prop) (s : ParseState) : Prop where
  eof : s.last.kind = .eof
  endsLine : lines → EndsLine s.rest
  errors : Noted s

variable {lines : Prop} {s t u : ParseState}

theorem Ready.withRest (h : Ready lines s) (hrest : rest <:+ s.rest) {depth : Nat} {inClass : Bool} :
    Ready lines { s with rest, depth, inClass } :=
  ⟨h.eof, fun hl => (h.endsLine hl).suffix hrest, h.errors⟩

/-- What reading leads to. -/
structure Onward (lines : Prop) (reads : Bool) (s : ParseState) (ok : Bool) (t : ParseState) : Prop where
  /-- Something is read, or the same token is still in front, or the minus that was taken from it. -/
  moves : t.weight < s.weight ∨
    t.weight = s.weight ∧ (t.next.kind = s.next.kind ∨ t.next.kind = .op .minus)
  less : reads = true → ok = true → t.weight < s.weight
  errors : s.errors ≠ [] → t.errors ≠ []
  /-- Without an error there is a result, and a line break at the end stays unread. -/
  clean : t.errors = [] → ok = true ∧ (lines → reads = true ∨ s.rest ≠ [] → t.rest ≠ [])

theorem Onward.weight_le {reads : Bool} (h : Onward lines reads s ok t) : t.weight ≤ s.weight := by
  rcases h.moves with hlt | ⟨heq, -⟩ <;> omega

theorem Onward.refl (s : ParseState) : Onward lines false s true s :=
  ⟨.inr ⟨rfl, .inl rfl⟩, nofun, id, fun _ => ⟨rfl, fun _ h => h.resolve_left nofun⟩⟩

theorem Onward.weaken (h : Onward lines true s ok t) : Onward lines false s ok t :=
  ⟨h.moves, nofun, h.errors, fun he => ⟨(h.clean he).1, fun hl _ => (h.clean he).2 hl (.inl rfl)⟩⟩

theorem Onward.trans {r r' : Bool} (h : Onward lines r s true t) (h' : Onward lines r' t ok u) :
    Onward lines (r || r') s ok u := by
  have hle := h.weight_le
  have hle' := h'.weight_le
  refine ⟨?_, fun hr hok => ?_, fun he => h'.errors (h.errors he), fun he => ?_⟩
  · rcases h.moves with hlt | ⟨heq, hnext⟩
    · exact .inl (by omega)
    · rcases h'.moves with hlt | ⟨heq', hnext'⟩
      · exact .inl (by omega)
      · refine .inr ⟨by omega, ?_⟩
        rcases hnext' with hsame | hminus
        · rwa [hsame]
        · exact .inr hminus
  · rcases Bool.or_eq_true_iff.mp hr with hr | hr
    · have := h.less hr rfl
      omega
    · have := h'.less hr hok
      omega
  · have ht : t.errors = [] := Classical.not_not.mp fun hne => h'.errors hne he
    obtain ⟨hok, hrest'⟩ := h'.clean he
    refine ⟨hok, fun hl hread => hrest' hl ?_⟩
    rcases hread with hr | hs
    · rcases Bool.or_eq_true_iff.mp hr with hr | hr
      · exact .inr ((h.clean ht).2 hl (.inl hr))
      · exact .inl hr
    · exact .inr ((h.clean ht).2 hl (.inr hs))

/-! ## The moves of a discipline -/

/-- Reading over tokens, the first of which is no line break. -/
theorem Onward.of_read {token : Token} (hs : Ready lines s) (hrest : s.rest = token :: rest)
    (hk : token.kind ≠ .newline) : Onward lines true s true { s with rest } := by
  have hless : tokensWeight rest < s.weight := by
    rw [ParseState.weight_eq, hrest]
    exact tokensWeight_tail token rest
  rw [← ParseState.weight_eq { s with rest }] at hless
  refine ⟨.inl hless, fun _ _ => hless, id, fun _ => ⟨rfl, fun hl _ => ?_⟩⟩
  have hends := hs.endsLine hl
  rw [hrest] at hends
  exact hends.tail_ne_nil hk

theorem rest_afterReport (e : ParseError) (s : ParseState) :
    (afterReport e s).rest = s.rest ∧ (afterReport e s).last = s.last := by
  unfold afterReport
  split <;> exact ⟨rfl, rfl⟩

theorem Ready.report (hs : Ready lines s) (e : ParseError) : Ready lines (afterReport e s) := by
  obtain ⟨hrest, hlast⟩ := rest_afterReport e s
  exact ⟨hlast ▸ hs.eof, hrest ▸ hs.endsLine, fun _ => errors_afterReport hs.errors e⟩

theorem next_congr (hrest : t.rest = s.rest) (hlast : t.last = s.last) : t.next = s.next := by
  unfold ParseState.next
  rw [hrest, hlast]

theorem Onward.report (hs : Ready lines s) (e : ParseError) : Onward lines true s false (afterReport e s) := by
  obtain ⟨hrest, hlast⟩ := rest_afterReport e s
  refine ⟨.inr ⟨?_, ?_⟩, nofun, fun _ => errors_afterReport hs.errors e,
    fun he => absurd he (errors_afterReport hs.errors e)⟩
  · rw [ParseState.weight_eq, ParseState.weight_eq, hrest]
  · exact .inl (congrArg Token.kind (next_congr hrest hlast))

/-- Taking a negative number apart changes neither the weight nor the end of the tokens. -/
theorem Ready.split (hs : Ready lines s) : Ready lines { s with rest := splitFirst s.rest } ∧
    Onward lines false s true { s with rest := splitFirst s.rest } := by
  rcases splitFirst_cases s.rest with hsame | ⟨token, rest, hrest, hnegative, hsplit⟩
  · rw [hsame]
    exact ⟨hs, .refl s⟩
  have hnewline : token.kind ≠ .newline := by
    intro he
    simp [Token.isNegativeNumber, he] at hnegative
  rw [hsplit]
  refine ⟨⟨hs.eof, fun hl => ?_, hs.errors⟩, .inr ⟨?_, ?_⟩, fun h => (by cases h), id,
    fun _ => ⟨rfl, fun _ _ h => by cases h⟩⟩
  · have hends := hs.endsLine hl
    rw [hrest] at hends
    intro t ht
    rw [List.getLast?_cons_cons, List.getLast?_cons_of_ne_nil (hends.tail_ne_nil hnewline)] at ht
    exact hends.suffix (List.suffix_cons token rest) t ht
  · simp only [ParseState.weight_eq, hrest, tokensWeight, Token.parts_splitNegative hnegative]
    omega
  · simp [ParseState.next, Token.kind_minus]

theorem weight_pastNewlines (heof : s.last.kind = .eof) (hk : s.next.kind = .newline) :
    tokensWeight (pastNewlines s.rest) < tokensWeight s.rest := by
  cases hrest : s.rest with
  | nil => simp [ParseState.next, hrest, heof] at hk
  | cons t rest =>
    have ht : t.kind = .newline := by simpa [ParseState.next, hrest] using hk
    have hpast : pastNewlines (t :: rest) = pastNewlines rest := by simp [pastNewlines, ht]
    have hle := tokensWeight_suffix (pastNewlines_suffix rest)
    have hlt := tokensWeight_tail t rest
    rw [hpast]
    omega

theorem Ready.skip (hs : Ready lines s) : Ready lines { s with rest := pastNewlines s.rest } ∧ ∀ ok t,
      Onward lines true { s with rest := pastNewlines s.rest } ok t → Onward lines true s ok t := by
  refine ⟨hs.withRest (pastNewlines_suffix _), fun ok t h => ?_⟩
  by_cases hk : s.next.kind = .newline
  · have hle := h.weight_le
    have hless : ({ s with rest := pastNewlines s.rest } : ParseState).weight < s.weight := by
      rw [ParseState.weight_eq, ParseState.weight_eq]
      exact weight_pastNewlines hs.eof hk
    exact ⟨.inl (by omega), fun _ _ => by omega, h.errors, fun he =>
      ⟨(h.clean he).1, fun hl _ => (h.clean he).2 hl (.inl rfl)⟩⟩
  · rwa [Discipline.pastNewlines_of_next hk] at h

/-- Behind an error, tokens may be passed over. -/
theorem Onward.passOver {reads : Bool} (h : Onward lines reads s false t) (hrest : rest <:+ t.rest) :
    Onward lines reads s false { t with rest } := by
  have hfaulty : t.errors ≠ [] := fun he => absurd (h.clean he).1 nofun
  refine ⟨?_, nofun, h.errors, fun he => absurd he hfaulty⟩
  rcases tokensWeight_lt hrest with rfl | hlt
  · exact h.moves
  · have hle := h.weight_le
    refine .inl ?_
    rw [ParseState.weight_eq] at hle ⊢
    exact Nat.lt_of_lt_of_le hlt hle

/-- The rules of the grammar get on. -/
def onward (lines : Prop) : Discipline where
  Inv := Ready lines
  Place := fun _ => True
  Does := Onward lines
  Opened := fun _ _ => True
  eof := Ready.eof
  next := fun _ => trivial
  stay := Onward.refl
  weaken := Onward.weaken
  trans := Onward.trans
  stuck := fun h hlt => absurd (h.less rfl rfl) hlt
  pass := fun hs hrest hk => by
    refine ⟨hs.withRest ?_, .of_read hs hrest fun he => ?_⟩
    · exact hrest ▸ List.suffix_cons _ _
    · rw [he] at hk
      cases hk
  report := fun hs _ => ⟨hs.report _, .report hs _⟩
  split := Ready.split
  calm := fun {s} hs => by
    refine ⟨⟨hs.eof, hs.endsLine, fun h => hs.errors (.inr (h.resolve_left nofun))⟩, ?_⟩
    exact ⟨.inr ⟨rfl, .inl rfl⟩, nofun, id, fun _ => ⟨rfl, fun _ h => h.resolve_left nofun⟩⟩
  skip := fun hs _ => hs.skip
  openUp := fun _ _ hs hrest _ => ⟨hs.withRest (hrest ▸ List.suffix_cons _ _), trivial⟩
  close := fun {s opener rest _ _ _ _ t closer rest'} hs hrest _ ht hdoes hclose hk => by
    have hsuffix : closer :: rest' <:+ t.rest := hclose ▸ pastNewlines_suffix t.rest
    have hless : tokensWeight rest' < tokensWeight s.rest := by
      have hinside := hdoes.weight_le
      rw [ParseState.weight_eq, ParseState.weight_eq] at hinside
      have hopener := tokensWeight_tail opener rest
      have hcloser := tokensWeight_tail closer rest'
      have hbehind := tokensWeight_suffix hsuffix
      rw [hrest]
      exact Nat.lt_trans hcloser (Nat.lt_of_le_of_lt (Nat.le_trans hbehind hinside) hopener)
    rw [← ParseState.weight_eq] at hless
    refine ⟨ht.withRest ((List.suffix_cons _ _).trans hsuffix), ?_⟩
    refine ⟨.inl ?_, fun _ _ => ?_, hdoes.errors, fun _ => ⟨rfl, fun hl _ => ?_⟩⟩
    · rwa [ParseState.weight_eq]
    · rwa [ParseState.weight_eq]
    · exact ((ht.endsLine hl).suffix hsuffix).tail_ne_nil (by simp [hk])
  abandon := fun {s opener rest _ _ _ _ t} hs hrest _ ht hdoes => by
    refine ⟨ht.withRest (List.suffix_refl _), .inl ?_, nofun, hdoes.errors, fun he => ?_⟩
    · have hinside := hdoes.weight_le
      rw [ParseState.weight_eq, ParseState.weight_eq] at hinside ⊢
      rw [hrest]
      exact Nat.lt_of_le_of_lt hinside (tokensWeight_tail opener rest)
    · exact absurd (hdoes.clean he).1 nofun
  resume := fun {s b r t} _ ht hdoes => by
    have h := hdoes.passOver (resumeAt_suffix (some b) 0 t.rest)
    refine ⟨ht.withRest (resumeAt_suffix _ _ _), ?_, ?_⟩
    · exact ⟨h.moves, nofun, h.errors, fun he => absurd (h.clean he).1 nofun⟩
    · exact ⟨h.moves, nofun, h.errors, fun he => absurd (h.clean he).1 nofun⟩

end Parse

end Frontend
