import Frontend.Proofs.Parse.Apart
import Frontend.Proofs.Token.Place
import Mathlib.Algebra.Ring.Int.Defs

/-!
# Accepted programs close their brackets

A run without errors reads an opening bracket only together with the closing bracket of its kind, so
the brackets that are still to be closed are the same in front of it and behind it. Of a program that
is read to its end none are left: in its tokens there are as many closing brackets of each kind as
opening ones.
-/

namespace Frontend

namespace Parse

open Nesting

/-- Whatever is read together with its brackets leaves the same brackets to be closed. -/
theorem closed_unmatched : Closed fun tokens rest => unmatched rest = unmatched tokens where
  refl := fun _ => rfl
  trans := fun h h' => h'.trans h
  pass := fun hk => (unmatched_plain hk).symm
  split := fun {tokens} hclassified => by
    rcases splitFirst_cases tokens with hsame | ⟨token, rest, rfl, hnegative, hsplit⟩
    · rw [hsame]
    · rw [hsplit, unmatched_splitNegative (hclassified token List.mem_cons_self) hnegative]
  skip := unmatched_pastNewlines
  close := fun {opener closer b rest left rest'} hk h hclose hcloser => by
    have hinside : unmatched rest = unmatched (closer :: rest') := by rw [← hclose, unmatched_pastNewlines, h]
    rw [unmatched_closing hcloser] at hinside
    cases hrest' : unmatched rest' with
    | none =>
      rw [unmatched, hk]
      simp [hinside, hrest']
    | some bs => exact ((unmatched_opening hk).mpr (by simp [hinside, hrest'])).symm

/-! ## Whole programs -/

section
variable {s t : ParseState} {ns : List Node}

theorem closed_item (hs : Sorted s) (hitem : item s = (some ns, t)) :
    Sorted t ∧ (t.errors = [] → unmatched t.rest = unmatched s.rest) := by
  have hend := (closing closed_unmatched).itemEnd hs hitem
  cases hend with
  | faulty hv _ hdoes => exact ⟨Sorted.withRest hv (resumeAt_suffix _ _ _), fun he => absurd he hdoes.clean_none⟩
  | read hv _ hdoes => exact ⟨hv, hdoes.related⟩
  | @unexpected n v e hv =>
    refine ⟨(Sorted.report hv e).withRest (resumeAt_suffix _ _ _), fun he => ?_⟩
    exact absurd he (errors_afterReport hv.ready.errors e)

/-- A program that is read without errors has no bracket left that is not closed by its own kind. -/
theorem ReadsItems.unmatched (h : ReadsItems s ns t) (hs : Sorted s) (he : t.errors = []) :
    unmatched s.rest = some [] := by
  induction h with
  | @ended s hended =>
    have hgoing : s.stopped = false := by
      cases hstopped : s.stopped with
      | false => rfl
      | true => exact absurd he (hs.ready.errors (.inr hstopped))
    have hpast : pastNewlines s.rest = [] := by simpa [ParseState.ended, hgoing] using hended
    rw [← unmatched_pastNewlines, hpast]
    rfl
  | @item s t u ns more hended hitem hless hmore ih =>
    have hfront : Sorted s.atItem :=
      ⟨((onward False).calm hs.ready.skip.1).1, fun x hx => hs.classified x ((pastNewlines_suffix _).subset hx)⟩
    obtain ⟨ht, hkeeps⟩ := closed_item hfront hitem
    have hclean : t.errors = [] := Classical.not_not.mp fun hne => hmore.errors ht.ready hne he
    rw [← unmatched_pastNewlines, ← ih ht he]
    exact (hkeeps hclean).symm

end

end Parse

/-! ## Counting brackets -/

/-- What a token changes in the number of open brackets of a kind. -/
def TokenKind.turn (b : Bracket) : TokenKind → Int
  | .opening b' => if b' = b then 1 else 0
  | .closing b' => if b' = b then -1 else 0
  | _ => 0

/-- How many more opening than closing brackets of a kind there are among tokens. -/
def Token.excess (b : Bracket) (tokens : List Token) : Int := (tokens.map (·.kind.turn b)).sum

namespace Token

@[simp] theorem excess_nil (b : Bracket) : excess b [] = 0 := rfl

@[simp] theorem excess_cons (b : Bracket) (t : Token) (tokens : List Token) :
    excess b (t :: tokens) = t.kind.turn b + excess b tokens := by
  simp [excess]

@[simp] theorem excess_append (b : Bracket) (tokens more : List Token) :
    excess b (tokens ++ more) = excess b tokens + excess b more := by
  simp [excess]

theorem excess_reverse (b : Bracket) (tokens : List Token) : excess b tokens.reverse = excess b tokens := by
  rw [excess, List.map_reverse, List.sum_reverse, excess]

/-- The brackets that are left to be closed are the difference. -/
theorem excess_of_unmatched (b : Bracket) {tokens : List Token} {bs : List Bracket}
    (h : unmatched tokens = some bs) : excess b tokens = -(bs.count b : Int) := by
  induction tokens generalizing bs with
  | nil =>
    cases h
    rfl
  | cons t tokens ih =>
    rw [excess_cons]
    by_cases hopening : ∃ b', t.kind = .opening b'
    · obtain ⟨b', hk⟩ := hopening
      rw [ih ((Nesting.unmatched_opening hk).mp h), hk, TokenKind.turn, List.count_cons]
      by_cases hb : b' = b <;> simp [hb]
    · by_cases hclosing : ∃ b', t.kind = .closing b'
      · obtain ⟨b', hk⟩ := hclosing
        rw [Nesting.unmatched_closing hk] at h
        obtain ⟨bs', hbs', rfl⟩ := Option.map_eq_some_iff.mp h
        rw [ih hbs', hk, TokenKind.turn, List.count_cons]
        by_cases hb : b' = b <;> simp [hb]
      · push Not at hopening hclosing
        rw [Nesting.unmatched_other hopening hclosing] at h
        have hturn : t.kind.turn b = 0 := by
          unfold TokenKind.turn
          split
          next hk => exact absurd hk (hopening _)
          next hk => exact absurd hk (hclosing _)
          · rfl
        rw [ih h, hturn, Int.zero_add]

end Token

/-- The tokens of an accepted text have as many closing brackets of each kind as opening ones. -/
theorem Source.excess_of_accepted {src : Source} {file : String} {tokens : List Token}
    (htokens : src.tokens file = .ok tokens) (h : (Program.ofTokens tokens).errors = []) (b : Bracket) :
    Token.excess b tokens = 0 := by
  obtain ⟨made, pos, rfl, hmade, -⟩ := Source.scanned_of_tokens htokens
  let start := ParseState.ofTokens (made ++ [Token.eof pos])
  have hrest : start.rest = made := by
    have hne : ∀ t ∈ made, (t.kind != .eof) = true := fun t ht => by simp [(hmade t ht).kind_ne_eof]
    change (made ++ [Token.eof pos]).takeWhile (·.kind != .eof) = made
    rw [List.takeWhile_append_of_pos hne]
    simp [Token.eof]
  have hsorted : Parse.Sorted start :=
    ⟨Parse.ready_ofTokens _, fun t ht => (hmade t (hrest ▸ ht)).classified⟩
  obtain ⟨ns, t, hreads⟩ := Parse.exists_readsItems hsorted.ready
  have hclean : t.errors = [] := by
    rw [(Parse.parsed_of_reads hreads).2] at h
    exact List.reverse_eq_nil_iff.mp h
  have hnone := hreads.unmatched hsorted hclean
  rw [hrest] at hnone
  rw [Token.excess_append, Token.excess_of_unmatched b hnone]
  rfl

end Frontend
