import Frontend.Parse.Group

/-!
# Reading labels to the end

Labels are read with a bound on the steps. A label takes at most three steps for each token, so the
bound is never reached, and a larger one changes nothing.
-/

namespace Frontend.Parse

variable {α β : Type} {s t : ParseState}

/-! ## Running a sequence of rules -/

section
variable {p p' : Parse α} {f f' : α → Parse β}

theorem bind_apply_some {a : α} (h : p s = (some a, t)) : (p >>= f) s = f a t := by
  change andThen p f s = f a t
  simp [andThen, h]

theorem bind_apply_none (h : p s = (none, t)) : (p >>= f) s = (none, t) := by
  change andThen p f s = (none, t)
  simp [andThen, h]

theorem bind_congr (hp : p s = p' s) (hf : ∀ a t, p s = (some a, t) → f a t = f' a t) :
    (p >>= f) s = (p' >>= f') s := by
  cases hr : p s with
  | mk r t =>
    cases r with
    | none => rw [bind_apply_none hr, bind_apply_none (hp ▸ hr)]
    | some a => rw [bind_apply_some hr, bind_apply_some (hp ▸ hr), hf a t hr]

/-- A sequence of rules that has a result. -/
theorem bind_eq_some {b : β} {u : ParseState} (h : (p >>= f) s = (some b, u)) :
    ∃ a t, p s = (some a, t) ∧ f a t = (some b, u) := by
  cases hr : p s with
  | mk r t =>
    cases r with
    | none =>
      rw [bind_apply_none hr] at h
      cases h
    | some a =>
      rw [bind_apply_some hr] at h
      exact ⟨a, t, rfl, h⟩

theorem andThen_assoc {γ : Type} (p : Parse α) (f : α → Parse β) (g : β → Parse γ) :
    p >>= f >>= g = p >>= fun a => f a >>= g := by
  funext s
  cases hr : p s with
  | mk r t =>
    cases r with
    | none => rw [bind_apply_none (bind_apply_none hr), bind_apply_none hr]
    | some a =>
      rw [bind_apply_some hr]
      cases hr' : f a t with
      | mk r u =>
        have hfirst : (p >>= f) s = (r, u) := (bind_apply_some hr).trans hr'
        cases r with
        | none => rw [bind_apply_none hfirst, bind_apply_none hr']
        | some b => rw [bind_apply_some hfirst, bind_apply_some hr']

theorem ask_bind {g : ParseState → α} (s : ParseState) : (ask g >>= f) s = f (g s) s := rfl

theorem change_bind {g : ParseState → ParseState} {f : Unit → Parse β} (s : ParseState) :
    (change g >>= f) s = f () (g s) := rfl

theorem peek_bind (f : Token → Parse β) (s : ParseState) : (peek >>= f) s = f s.next s := rfl

theorem advance_bind (f : Token → Parse β) (s : ParseState) :
    (advance >>= f) s = f s.next { s with rest := s.rest.drop 1 } := rfl

end

/-- The next token is not the end of input, so there is one to read. -/
theorem rest_ne_nil_of_kind (hlast : s.last.kind = .eof) (hk : s.next.kind ≠ .eof) : s.rest ≠ [] := by
  intro he
  apply hk
  simpa [ParseState.next, he] using hlast

/-! ## Labels only read on -/

/-- A rule that leaves no more to read than there was. -/
def NonGrowing (p : Parse α) : Prop :=
  ∀ s, (p s).2.rest.length ≤ s.rest.length ∧ (p s).2.last = s.last

theorem NonGrowing.bind {p : Parse α} {f : α → Parse β} (hp : NonGrowing p)
    (hf : ∀ a, NonGrowing (f a)) : NonGrowing (p >>= f) := by
  intro s
  have hs := hp s
  cases hr : p s with
  | mk r t =>
    rw [hr] at hs
    cases r with
    | none =>
      rw [bind_apply_none hr]
      exact hs
    | some a =>
      rw [bind_apply_some hr]
      exact ⟨Nat.le_trans (hf a t).1 hs.1, (hf a t).2.trans hs.2⟩

theorem NonGrowing.pure (a : α) : NonGrowing (Pure.pure a) := fun _ => ⟨Nat.le_refl _, rfl⟩

theorem NonGrowing.fail : NonGrowing (fail : Parse α) := fun _ => ⟨Nat.le_refl _, rfl⟩

theorem NonGrowing.ask (g : ParseState → α) : NonGrowing (Parse.ask g) := fun _ => ⟨Nat.le_refl _, rfl⟩

theorem NonGrowing.advance : NonGrowing Parse.advance := by
  intro s
  refine ⟨?_, rfl⟩
  simp [Parse.advance]

theorem NonGrowing.accept (k : TokenKind) : NonGrowing (Parse.accept k) := by
  refine (NonGrowing.ask _).bind fun b => ?_
  split
  · exact NonGrowing.advance.bind fun _ => .pure _
  · exact .pure _

theorem NonGrowing.reportAt (fault : GrammarFault) (pos : Position) (length : Int) (message : Phrase) :
    NonGrowing (Parse.reportAt fault pos length message) := by
  intro s
  unfold Parse.reportAt Parse.change
  dsimp only
  repeat' split
  all_goals exact ⟨Nat.le_refl _, rfl⟩

theorem NonGrowing.failToken {fault : GrammarFault} {t : Token} {message : Phrase} :
    NonGrowing (Parse.failToken fault t message : Parse α) :=
  (NonGrowing.reportAt _ _ _ _).bind fun _ => NonGrowing.fail

mutual
theorem nonGrowing_label : ∀ fuel, NonGrowing (label fuel)
  | 0 => NonGrowing.fail
  | fuel + 1 => NonGrowing.advance.bind fun word => nonGrowing_groups fuel word []

theorem nonGrowing_groups : ∀ fuel word done, NonGrowing (groups fuel word done)
  | 0, _, _ => NonGrowing.fail
  | fuel + 1, word, done => by
    unfold groups
    refine (NonGrowing.ask _).bind fun b => ?_
    split
    · exact NonGrowing.pure _
    · split
      · exact NonGrowing.failToken
      · refine NonGrowing.advance.bind fun opener => ?_
        refine (nonGrowing_members fuel opener []).bind fun group => ?_
        exact NonGrowing.advance.bind fun _ => nonGrowing_groups fuel word _

theorem nonGrowing_members : ∀ fuel opener done, NonGrowing (members fuel opener done)
  | 0, _, _ => NonGrowing.fail
  | fuel + 1, opener, done => by
    unfold members
    refine (NonGrowing.ask _).bind fun t => ?_
    split
    · exact NonGrowing.pure _
    · split
      · split
        · exact NonGrowing.failToken
        · exact NonGrowing.failToken
      · refine (nonGrowing_label fuel).bind fun inner => (NonGrowing.accept _).bind fun b => ?_
        refine (NonGrowing.ask _).bind fun b' => ?_
        split
        · exact (NonGrowing.ask _).bind fun _ => NonGrowing.failToken
        · exact nonGrowing_members fuel opener _
end

/-- A label reads at least its own word. -/
theorem length_label (fuel : Nat) (s : ParseState) : (label (fuel + 1) s).2.rest.length ≤ s.rest.length - 1 := by
  have h := (nonGrowing_groups fuel s.next [] { s with rest := s.rest.drop 1 }).1
  rw [List.length_drop] at h
  exact h

/-! ## Enough steps -/

mutual
theorem label_of_le : ∀ n m s, s.last.kind = .eof → 3 * s.rest.length + 2 ≤ n →
    3 * s.rest.length + 2 ≤ m → label n s = label m s
  | 0, _, _, _, hn, _ => by omega
  | _ + 1, 0, _, _, _, hm => by omega
  | n + 1, m + 1, s, hlast, hn, hm => by
    unfold label
    refine bind_congr rfl fun word t ht => ?_
    cases ht
    refine groups_of_le n m _ _ _ hlast ?_ ?_
    all_goals
      simp only [List.length_drop]
      omega

theorem groups_of_le : ∀ n m word done s, s.last.kind = .eof → 3 * s.rest.length + 1 ≤ n →
    3 * s.rest.length + 1 ≤ m → groups n word done s = groups m word done s
  | 0, _, _, _, _, _, hn, _ => by omega
  | _ + 1, 0, _, _, _, _, _, hm => by omega
  | n + 1, m + 1, word, done, s, hlast, hn, hm => by
    unfold groups
    refine bind_congr rfl fun b t ht => ?_
    cases ht
    split
    · rfl
    next hopen =>
      have hne : s.rest ≠ [] := by
        refine rest_ne_nil_of_kind hlast fun hk => hopen ?_
        simp [hk]
      have hlen : 0 < s.rest.length := List.length_pos_iff.mpr hne
      split
      · rfl
      · refine bind_congr rfl fun opener t ht => ?_
        cases ht
        have hmembers := members_of_le n m s.next [] { s with rest := s.rest.drop 1 } hlast
          (by simp only [List.length_drop]; omega) (by simp only [List.length_drop]; omega)
        refine bind_congr hmembers fun group t ht => ?_
        have hgrow := nonGrowing_members n s.next [] { s with rest := s.rest.drop 1 }
        rw [ht] at hgrow
        simp only [List.length_drop] at hgrow
        refine bind_congr rfl fun closer u hu => ?_
        cases hu
        refine groups_of_le n m word _ _ (hgrow.2 ▸ hlast) ?_ ?_
        all_goals
          simp only [List.length_drop]
          omega

theorem members_of_le : ∀ n m opener done s, s.last.kind = .eof → 3 * s.rest.length + 3 ≤ n →
    3 * s.rest.length + 3 ≤ m → members n opener done s = members m opener done s
  | 0, _, _, _, _, _, hn, _ => by omega
  | _ + 1, 0, _, _, _, _, _, hm => by omega
  | n + 1, m + 1, opener, done, s, hlast, hn, hm => by
    unfold members
    refine bind_congr rfl fun first t ht => ?_
    cases ht
    split
    · rfl
    · split
      · rfl
      next hstarts =>
        have hne : s.rest ≠ [] := by
          refine rest_ne_nil_of_kind hlast fun hk => hstarts ?_
          rw [hk]
          rfl
        have hlen : 0 < s.rest.length := List.length_pos_iff.mpr hne
        have hlabel := label_of_le n m s hlast (by omega) (by omega)
        refine bind_congr hlabel fun inner t ht => ?_
        have hgrow : t.rest.length ≤ s.rest.length - 1 ∧ t.last = s.last := by
          obtain ⟨k, rfl⟩ : ∃ k, n = k + 1 := ⟨n - 1, by omega⟩
          have hlength := length_label k s
          have hsame := (nonGrowing_label (k + 1) s).2
          rw [ht] at hlength hsame
          exact ⟨hlength, hsame⟩
        refine bind_congr rfl fun b u hu => ?_
        have hgrow' := NonGrowing.accept .comma t
        rw [hu] at hgrow'
        refine bind_congr rfl fun b' v hv => ?_
        cases hv
        split
        · rfl
        · refine members_of_le n m opener _ _ (hgrow'.2.trans hgrow.2 ▸ hlast) ?_ ?_
          all_goals
            have := hgrow'.1
            simp only at this
            omega
end

end Frontend.Parse
