import Frontend.Proofs.Parse.Climb
import Frontend.Proofs.Parse.Layout

/-!
# Expressions in two stages

An expression above a low binding level is one above a higher level that is gone on with. So where nothing
goes on with it, the level does not matter. Two runs are compared as far as they have no errors.
-/

namespace Frontend

/-- The state with a negative number in front taken apart. -/
def ParseState.parted (s : ParseState) : ParseState := s.before (splitFirst s.rest)

namespace Parse

variable {s t : ParseState} {sub : Nested} {level low high : Nat} {left n : Node}

/-! ## Climbing in two stages -/

theorem parted_of_number (h : s.next.isNegativeNumber = false) : s.parted = s := by
  have hsame : splitFirst s.rest = s.rest := by
    cases hrest : s.rest with
    | nil => rfl
    | cons token rest =>
      have hnext : s.next = token := by rw [ParseState.next, hrest]; rfl
      exact if_neg (by simp [← hnext, h])
  rw [ParseState.parted, hsame]
  exact s.before_rest

theorem next_parted (heof : s.last.kind = .eof) : s.parted.next.isNegativeNumber = false ∧
    (s.parted.next.kind = s.next.kind ∨ s.parted.next.kind = .op .minus) := by
  by_cases h : s.next.isNegativeNumber = true
  · obtain ⟨token, rest, hrest⟩ : ∃ token rest, s.rest = token :: rest := by
      cases hrest : s.rest with
      | nil => simp [ParseState.next, hrest, Token.isNegativeNumber, heof] at h
      | cons token rest => exact ⟨token, rest, rfl⟩
    have hnext : s.next = token := by rw [ParseState.next, hrest]; rfl
    have hparted : s.parted = s.before (token.splitNegative.1 :: token.splitNegative.2 :: rest) := by
      rw [ParseState.parted, hrest, splitFirst, if_pos (hnext ▸ h)]
    rw [hparted, ParseState.next_before_cons]
    exact ⟨by rw [Token.isNegativeNumber, Token.kind_minus], .inr (Token.kind_minus token)⟩
  · rw [Bool.not_eq_true] at h
    rw [parted_of_number h]
    exact ⟨h, .inl rfl⟩

theorem weight_parted (s : ParseState) : s.parted.weight = s.weight := by
  unfold ParseState.parted
  rw [ParseState.weight_eq, ParseState.weight_eq, ParseState.rest_before]
  rcases splitFirst_cases s.rest with h | ⟨token, rest, hrest, hnegative, hsplit⟩
  · rw [h]
  · rw [hsplit, hrest]
    simp only [tokensWeight, Token.parts_splitNegative hnegative]
    omega

/-- What a step of climbing does in front of anything but an increment or a decrement. -/
theorem climbStep_other (hk : s.next.kind ≠ .op .increment ∧ s.next.kind ≠ .op .decrement) :
    Discipline.climbStep sub level left s =
      if Binding.ofKind s.parted.next.kind ≤ level then (some (.done left), s.parted)
      else (match continuation? sub left s.parted.next.kind with
        | some rule => (do return .again (← rule) : Parse (Progress Node Node))
        | none => failToken .noRule s.parted.next (.entry .cannotFollow [.text s.parted.next.describe])) s.parted := by
  unfold Discipline.climbStep
  rw [peekKind, ask_bind, if_neg (by simpa using hk), splitNegative_eq, change_bind, peek_bind]
  change (if _ then _ else _ : Parse (Progress Node Node)) s.parted = _
  by_cases hlevel : Binding.ofKind s.parted.next.kind ≤ level
  · rw [if_pos hlevel, if_pos (by exact hlevel)]
    rfl
  · rw [if_neg hlevel, if_neg (by exact hlevel)]
    rfl

/-- A step that ends climbing stands in front of what does not continue the operand. -/
theorem climbStep_done (heof : s.last.kind = .eof)
    (h : Discipline.climbStep sub level left s = (some (.done n), t)) :
    n = left ∧ t = s.parted ∧ t.Stops level ∧ s.next.kind ≠ .op .increment ∧ s.next.kind ≠ .op .decrement := by
  by_cases hk : s.next.kind ≠ .op .increment ∧ s.next.kind ≠ .op .decrement
  · rw [climbStep_other hk] at h
    by_cases hlevel : Binding.ofKind s.parted.next.kind ≤ level
    · rw [if_pos hlevel] at h
      cases h
      obtain ⟨hnumber, hkind⟩ := next_parted heof
      refine ⟨rfl, rfl, ⟨?_, hnumber, hlevel⟩, hk⟩
      rcases hkind with he | he <;> rw [he]
      · exact hk
      · simp
    · rw [if_neg hlevel] at h
      cases hrule : continuation? sub left s.parted.next.kind with
      | none =>
        rw [hrule] at h
        cases h
      | some rule =>
        rw [hrule] at h
        obtain ⟨m, u, -, ⟨⟩⟩ := bind_eq_some h
  · unfold Discipline.climbStep at h
    rw [peekKind, ask_bind, if_pos (by simpa [imp_iff_not_or] using hk)] at h
    obtain ⟨m, u, -, ⟨⟩⟩ := bind_eq_some h

theorem stands_onward {lines : Prop} (n : Node) : (onward lines).Stands n :=
  standing_of_all (fun _ => trivial) (fun _ => trivial) n

/-- Climbing ends in front of what does not continue the operand. -/
theorem climb_stops {budget : Nat} (hs : Ready False s)
    (h : climb (nested budget) level left s = (some n, t)) : t.Stops level := by
  change repeatWhile (Discipline.climbStep (nested budget) level) left s = _ at h
  fun_induction repeatWhile (Discipline.climbStep (nested budget) level) left s with
  | case1 left s m u hstep =>
    cases h
    exact (climbStep_done hs.eof hstep).2.2.1
  | case2 left s m u hstep hlt ih =>
    have o := Discipline.runs_climbStep (eats_nested (onward False) budget) level (stands_onward left) hs
    rw [hstep] at o
    exact ih o.inv h
  | case3 => cases h
  | case4 => cases h

/-- A step that goes on above one level goes on above a lower one. -/
theorem climbStep_lower (hle : low ≤ high) (h : ∀ m u, Discipline.climbStep sub high left s ≠ (some (.done m), u)) :
    Discipline.climbStep sub low left s = Discipline.climbStep sub high left s := by
  by_cases hk : s.next.kind ≠ .op .increment ∧ s.next.kind ≠ .op .decrement
  · rw [climbStep_other hk] at h
    by_cases hlevel : Binding.ofKind s.parted.next.kind ≤ high
    · exact absurd (if_pos hlevel) (h left s.parted)
    · rw [climbStep_other hk, climbStep_other hk, if_neg hlevel, if_neg fun hlow => hlevel (Nat.le_trans hlow hle)]
  · unfold Discipline.climbStep
    rw [peekKind, ask_bind, ask_bind, if_pos (by simpa [imp_iff_not_or] using hk),
      if_pos (by simpa [imp_iff_not_or] using hk)]

/-- Climbing to a low level is climbing to a higher one first. -/
theorem climb_stages {budget : Nat} (hle : low ≤ high) (hs : Ready False s) :
    climb (nested budget) low left s = (climb (nested budget) high left >>= climb (nested budget) low) s := by
  have hbind : (climb (nested budget) high left >>= climb (nested budget) low) s =
      match repeatWhile (Discipline.climbStep (nested budget) high) left s with
      | (some m, t) => climb (nested budget) low m t
      | (none, t) => (none, t) := by
    cases hr : repeatWhile (Discipline.climbStep (nested budget) high) left s with
    | mk r t =>
      cases r with
      | none => exact bind_apply_none hr
      | some m => exact bind_apply_some hr
  rw [hbind]
  clear hbind
  fun_induction repeatWhile (Discipline.climbStep (nested budget) high) left s with
  | case1 left s m u hstep =>
    obtain ⟨rfl, rfl, hstops, hk⟩ := climbStep_done hs.eof hstep
    have hparted : s.parted.parted = s.parted := parted_of_number hstops.number
    have hsame : Discipline.climbStep (nested budget) low m s.parted = Discipline.climbStep (nested budget) low m s := by
      rw [climbStep_other hk, climbStep_other hstops.increment, hparted]
    change repeatWhile (Discipline.climbStep (nested budget) low) m s =
      repeatWhile (Discipline.climbStep (nested budget) low) m s.parted
    rw [repeatWhile.eq_def, repeatWhile.eq_def, hsame, weight_parted]
  | case2 left s m u hstep hlt ih =>
    have hlower : Discipline.climbStep (nested budget) low left s = (some (.again m), u) :=
      (climbStep_lower hle fun _ _ h => by rw [hstep] at h; cases h).trans hstep
    have o := Discipline.runs_climbStep (eats_nested (onward False) budget) high (stands_onward left) hs
    rw [hstep] at o
    exact (repeatWhile_again hlower hlt).trans (ih o.inv)
  | case3 left s m u hstep hlt =>
    have hlower : Discipline.climbStep (nested budget) low left s = (some (.again m), u) :=
      (climbStep_lower hle fun _ _ h => by rw [hstep] at h; cases h).trans hstep
    change repeatWhile (Discipline.climbStep (nested budget) low) left s = _
    rw [repeatWhile.eq_def, hlower]
    dsimp only
    rw [if_neg hlt]
  | case4 left s u hstep =>
    have hlower : Discipline.climbStep (nested budget) low left s = (none, u) :=
      (climbStep_lower hle fun _ _ h => by rw [hstep] at h; cases h).trans hstep
    change repeatWhile (Discipline.climbStep (nested budget) low) left s = _
    rw [repeatWhile.eq_def, hlower]

theorem bind_congr_run {α β : Type} {p q : Parse α} {u : ParseState} (h : p s = q u) (f : α → Parse β) :
    (p >>= f) s = (q >>= f) u := by
  cases hr : q u with
  | mk r t =>
    cases r with
    | none => rw [bind_apply_none hr, bind_apply_none (h.trans hr)]
    | some a => rw [bind_apply_some hr, bind_apply_some (h.trans hr)]

/-- How an expression begins: with a token that begins none, or with an operand that is gone on with. -/
theorem expression_cases (budget : Nat) (hs : Ready False s) :
    (∃ u, ∀ level, expression (budget + 1) level s = (none, u)) ∨
    ∃ left u, Ready False u ∧ ∀ level, expression (budget + 1) level s = climb (nested budget) level left u := by
  have hexpression : ∀ level, expression (budget + 1) level s = (match beginning? (nested budget) s.next.kind with
      | some rule => rule >>= climb (nested budget) level
      | none => failToken .noRule s.next (.entry .cannotStart [.text s.next.describe])) s := by
    intro level
    change expressionWith (nested budget) level s = _
    unfold expressionWith
    exact peek_bind ..
  cases hrule : beginning? (nested budget) s.next.kind with
  | none =>
    rw [hrule] at hexpression
    exact .inl ⟨_, fun level => (hexpression level).trans rfl⟩
  | some rule =>
    rw [hrule] at hexpression
    have o := Discipline.eats_beginning (eats_nested (onward False) budget) hrule hs
    cases hr : rule s with
    | mk r u =>
      rw [hr] at o
      cases r with
      | none => exact .inl ⟨u, fun level => (hexpression level).trans (bind_apply_none hr)⟩
      | some left => exact .inr ⟨left, u, o.inv, fun level => (hexpression level).trans (bind_apply_some hr)⟩

/-- An expression above a low level is one above a higher level that is gone on with. -/
theorem expression_stages {budget : Nat} (hle : low ≤ high) (hs : Ready False s) :
    expression (budget + 1) low s = (expression (budget + 1) high >>= climb (nested budget) low) s := by
  rcases expression_cases budget hs with ⟨u, h⟩ | ⟨left, u, hu, h⟩
  · rw [h low, bind_apply_none (h high)]
  · rw [h low, climb_stages hle hu]
    exact (bind_congr_run (h high) _).symm

/-- An expression ends in front of what does not continue it. -/
theorem expression_stops {budget : Nat} (hs : Ready False s) (h : expression budget level s = (some n, t)) :
    t.Stops level := by
  cases budget with
  | zero => cases h
  | succ budget =>
    rcases expression_cases budget hs with ⟨u, hread⟩ | ⟨left, u, hu, hread⟩
    · rw [hread] at h
      cases h
    · rw [hread] at h
      exact climb_stops hu h

/-- In front of a token that continues the operand, climbing goes on behind what the token begins. -/
theorem climb_continue {budget : Nat} {rule : Parse Node} (hs : Ready False s)
    (hnumber : s.next.isNegativeNumber = false) (hlevel : level < Binding.ofKind s.next.kind)
    (hrule : continuation? (nested budget) left s.next.kind = some rule) :
    climb (nested budget) level left s = (rule >>= climb (nested budget) level) s := by
  have hstep : Discipline.climbStep (nested budget) level left s =
      (do return .again (← rule) : Parse (Progress Node Node)) s := by
    rw [climbStep_other (continuation_of_increment hrule), parted_of_number hnumber,
      if_neg (Nat.not_le_of_lt hlevel), hrule]
  have o := Discipline.runs_climbStep (eats_nested (onward False) budget) level (stands_onward left) hs
  cases hr : rule s with
  | mk r t =>
    cases r with
    | none =>
      have hfailed : Discipline.climbStep (nested budget) level left s = (none, t) :=
        hstep.trans (bind_apply_none hr)
      rw [bind_apply_none hr]
      change repeatWhile (Discipline.climbStep (nested budget) level) left s = _
      rw [repeatWhile.eq_def, hfailed]
    | some m =>
      have hagain : Discipline.climbStep (nested budget) level left s = (some (.again m), t) :=
        hstep.trans (bind_apply_some hr)
      rw [hagain] at o
      have hdoes : Onward False true s true t := (o.done _ rfl).1
      rw [bind_apply_some hr]
      exact repeatWhile_again hagain (hdoes.less rfl rfl)

/-! ## Errors stay -/

/-- A rule takes no error back. -/
def KeepsErrors {α : Type} (p : Parse α) : Prop := ∀ s : ParseState, s.errors ≠ [] → (p s).2.errors ≠ []

section
variable {α β : Type} {image : α → β} {p : Parse α} {p' : Parse β} {budget : Nat}

theorem keepsErrors_of_carries (h : Carries Setting.faultless image p p') : KeepsErrors p' := h.keeps trivial

theorem carriesNested_faultless (budget : Nat) : CarriesNested Setting.faultless (nested budget) (nested budget) :=
  ⟨carries_expression budget, fun b => (Carries.synchronize (some b)).resumes,
    fun _ level _ heof hnoted => speaks_expression budget level heof hnoted⟩

theorem keepsErrors_expression (budget level : Nat) : KeepsErrors (expression budget level) :=
  keepsErrors_of_carries (carries_expression budget level)

theorem keepsErrors_climb (budget level : Nat) (left : Node) : KeepsErrors (climb (nested budget) level left) := by
  have h := keepsErrors_of_carries (carries_climb (carriesNested_faultless budget) level left)
  rwa [show Setting.faultless.move = id from rfl, Node.moved_id] at h

theorem KeepsErrors.bind {f : α → Parse β} (hp : KeepsErrors p) (hf : ∀ a, KeepsErrors (f a)) :
    KeepsErrors (p >>= f) := fun s hs => bind_keeps hf s (hp s hs)

end

/-! ## Two runs that agree -/

/-- Two runs both meet an error, or they have corresponding results and leave the same state. -/
inductive Agree {α : Type} (R : α → α → ParseState → Prop) :
    Option α × ParseState → Option α × ParseState → Prop where
  | faulty {r r' : Option α × ParseState} (h : r.2.errors ≠ []) (h' : r'.2.errors ≠ []) : Agree R r r'
  | both {a a' : α} {t : ParseState} (h : R a a' t) : Agree R (some a, t) (some a', t)

section
variable {α β : Type} {R : α → α → ParseState → Prop} {S : β → β → ParseState → Prop} {p p' : Parse α}
  {f f' : α → Parse β} {s' : ParseState}

theorem Agree.bind (h : Agree R (p s) (p' s')) (hf : ∀ a a' t, R a a' t → Agree S (f a t) (f' a' t))
    (hkeeps : ∀ a, KeepsErrors (f a)) (hkeeps' : ∀ a, KeepsErrors (f' a)) :
    Agree S ((p >>= f) s) ((p' >>= f') s') := by
  generalize hr : p s = r at h
  generalize hr' : p' s' = r' at h
  cases h with
  | faulty h h' => exact .faulty (bind_keeps hkeeps s (hr ▸ h)) (bind_keeps hkeeps' s' (hr' ▸ h'))
  | both h =>
    rw [bind_apply_some hr, bind_apply_some hr']
    exact hf _ _ _ h

end

end Parse

end Frontend
