import Frontend.Proofs.Parse.Tree

/-!
# Numbers met behind operands

Behind an operand a parse takes a negative number apart. The grammar is told here with something else done at
that point, so that it can be said which numbers are met there: those in front of which it matters what is done.

A judgement about rules compares two lists of tokens, in the second of which some negative numbers of the first
are taken apart already. A rule does the same in front of both, up to the first of these numbers that it passes
over without having met it behind an operand.
-/

namespace Frontend

variable {k : TokenKind} {b : Prop} {fault : GrammarFault} {message : Phrase} {token : Token}
variable {pos : Position} {length : Int}

/-- The tokens in front of the end of input. -/
def beforeEnd (tokens : List Token) : List Token := tokens.takeWhile (·.kind != .eof)

theorem Token.kind_of_negative {t : Token} (h : t.isNegativeNumber = true) : t.kind = .int ∨ t.kind = .float := by
  have hnumeric := (Token.isNumeric_of_isNegativeNumber h).1
  simpa [TokenKind.isNumeric] using hnumeric

theorem Token.isNegativeNumber_minus (t : Token) : t.splitNegative.1.isNegativeNumber = false := by
  rw [isNegativeNumber, kind_minus]

/-- Neither a number nor a minus. -/
def TokenKind.signless : TokenKind → Bool
  | .int | .float | .op .minus => false
  | _ => true

theorem Token.ne_of_signless {t : Token} (h : t.isNegativeNumber = true) (hk : k.signless = true) :
    (t.kind == k) = false ∧ (t.splitNegative.1.kind == k) = false := by
  rw [Token.kind_minus]
  constructor
  · rw [beq_eq_false_iff_ne]
    rintro rfl
    rcases Token.kind_of_negative h with hkind | hkind <;> rw [hkind] at hk <;> cases hk
  · rw [beq_eq_false_iff_ne]
    rintro rfl
    cases hk

theorem Token.not_kind {t : Token} (h : t.isNegativeNumber = true) (hk : k.signless = true) :
    ¬ (t.kind == k) = true := by
  rw [(Token.ne_of_signless h hk).1]
  exact Bool.false_ne_true

namespace Parse

/-! ## Something else behind operands -/

/-- Extends a left operand as long as what follows binds above a level; `meet` is done behind the operand. -/
def climbVia (meet : Parse Unit) (sub : Nested) (level : Nat) (left : Node) : Parse Node :=
  repeatWhile (fun left => do
    let k ← peekKind
    if k == .op .increment || k == .op .decrement then return .again (← increment left)
    meet
    let t ← peek
    if Binding.ofKind t.kind ≤ level then return .done left
    match continuation? sub left t.kind with
    | some rule => return .again (← rule)
    | none => failToken .noRule t (.entry .cannotFollow [.text t.describe])) left

/-- An expression above a binding level, with the rules for what is nested in it. -/
def expressionWithVia (meet : Parse Unit) (sub : Nested) (level : Nat) : Parse Node := do
  let t ← peek
  match beginning? sub t.kind with
  | some rule => climbVia meet sub level (← rule)
  | none => failToken .noRule t (.entry .cannotStart [.text t.describe])

/-- An expression above a binding level that may be nested `budget` levels deep. -/
def expressionVia (meet : Parse Unit) : (budget : Nat) → (level : Nat) → Parse Node
  | 0, level => expression 0 level
  | budget + 1, level =>
    expressionWithVia meet
      { expression := expressionVia meet budget, recover := fun b => synchronize (some b) } level

def itemsVia (meet : Parse Unit) : Parse (List Node) :=
  repeatWhile (fun (done : List Node) => do
    skipNewlines
    if ← ask fun s => s.atEnd || s.stopped then return .done done.reverse
    calm
    match ← attempt (expressionVia meet maxExpressionDepth Binding.lowest) with
    | none =>
      synchronize none
      return .again done
    | some item =>
      let t ← peek
      if t.kind != .newline && t.kind != .eof then
        reportUnexpected t "newline"
        synchronize none
      return .again (item :: done)) []

theorem expressionVia_splitNegative (budget : Nat) : expressionVia splitNegative budget = expression budget := by
  induction budget with
  | zero => rfl
  | succ budget ih =>
    funext level
    rw [expressionVia, ih]
    rfl

theorem itemsVia_splitNegative : itemsVia splitNegative = items := by
  unfold itemsVia
  rw [expressionVia_splitNegative]
  rfl

/-- Something else is done in front of a negative number with `n` tokens behind it. -/
def meeting (n : Nat) (other : Parse Unit) : Parse Unit := fun s =>
  if s.rest.length = n + 1 ∧ s.next.isNegativeNumber = true then other s else splitNegative s

/-- A parse meets the negative number that has `n` tokens behind it behind an operand: it matters what is done
in front of it there. -/
def Meets (tokens : List Token) (n : Nat) : Prop :=
  ∃ other, itemsVia (meeting n other) (.ofTokens tokens) ≠ items (.ofTokens tokens)

/-! ## Numbers taken apart -/

/-- In the second list some negative numbers of the first are taken apart. For each of these it is told how many
tokens of the first list stand behind it. -/
inductive Parted : List Nat → List Token → List Token → Prop where
  | nil : Parted [] [] []
  | same {places tokens tokens'} (t : Token) (rest : Parted places tokens tokens') :
      Parted places (t :: tokens) (t :: tokens')
  | apart {places tokens tokens'} {t : Token} (hnegative : t.isNegativeNumber = true)
      (rest : Parted places tokens tokens') :
      Parted (tokens.length :: places) (t :: tokens) (t.splitNegative.1 :: t.splitNegative.2 :: tokens')

namespace Parted

variable {places : List Nat} {tokens tokens' : List Token} {n : Nat}

section
variable (h : Parted places tokens tokens')
include h

theorem lt_length (hn : n ∈ places) : n < tokens.length := by
  induction h with
  | nil => cases hn
  | same t rest ih => exact Nat.lt_succ_of_lt (ih hn)
  | apart hnegative rest ih =>
    rcases List.mem_cons.mp hn with rfl | hn
    · exact Nat.lt_succ_self _
    · exact Nat.lt_succ_of_lt (ih hn)

theorem weight : tokensWeight tokens' = tokensWeight tokens := by
  induction h with
  | nil => rfl
  | same t rest ih => rw [tokensWeight, tokensWeight, ih]
  | apart hnegative rest ih =>
    rw [tokensWeight, tokensWeight, tokensWeight, ih, Token.parts_splitNegative hnegative, Nat.add_assoc]

theorem length_le : tokens.length ≤ tokens'.length := by
  induction h with
  | nil => exact Nat.le_refl _
  | same t rest ih => exact Nat.succ_le_succ ih
  | apart hnegative rest ih => exact Nat.le_succ_of_le (Nat.succ_le_succ ih)

theorem isEmpty : tokens'.isEmpty = tokens.isEmpty := by
  cases h <;> rfl

end

end Parted

/-! ## What is passed over -/

variable {α β σ : Type} {s t : ParseState} {places places' : List Nat} {tokens' rest' : List Token} {n : Nat}

/-- Behind a place: there are no more tokens left to read than stand behind it, or one more that is no negative
number. -/
def Past (n : Nat) (s : ParseState) : Prop :=
  s.rest.length ≤ n ∨ s.rest.length = n + 1 ∧ s.next.isNegativeNumber = false

/-- Right in front of a negative number. -/
def InFront (n : Nat) (s : ParseState) : Prop := s.rest.length = n + 1 ∧ s.next.isNegativeNumber = true

theorem InFront.rest (h : InFront n s) : ∃ rest, s.rest = s.next :: rest ∧ rest.length = n := by
  obtain ⟨hlength, -⟩ := h
  cases hrest : s.rest with
  | nil =>
    rw [hrest] at hlength
    cases hlength
  | cons t rest =>
    rw [hrest] at hlength
    exact ⟨rest, by rw [ParseState.next, hrest]; rfl, Nat.succ.inj hlength⟩

theorem past_or_inFront (h : s.rest.length = n + 1) : Past n s ∨ InFront n s := by
  cases hnegative : s.next.isNegativeNumber with
  | false => exact .inl (.inr ⟨h, hnegative⟩)
  | true => exact .inr ⟨h, hnegative⟩

theorem Past.not_inFront (h : Past n s) : ¬ InFront n s := by
  rintro ⟨hlength, hnegative⟩
  rcases h with h | ⟨-, h⟩
  · omega
  · rw [h] at hnegative
    cases hnegative

theorem Past.suffix (h : Past n s) (hrest : t.rest <:+ s.rest) : Past n t := by
  have hle := hrest.length_le
  rcases h with h | ⟨hlength, hnegative⟩
  · exact .inl (by omega)
  · by_cases hsame : t.rest.length = s.rest.length
    · have heq : t.rest = s.rest := hrest.eq_of_length hsame
      have hnext : t.next = s.next := by
        cases hcons : s.rest with
        | nil =>
          rw [hcons] at hlength
          cases hlength
        | cons u rest => rw [ParseState.next, ParseState.next, heq, hcons]; rfl
      exact .inr ⟨hsame.trans hlength, by rw [hnext, hnegative]⟩
    · exact .inl (by omega)

theorem Past.split (h : Past n s) : Past n { s with rest := splitFirst s.rest } := by
  rcases splitFirst_cases s.rest with hsame | ⟨u, rest, hrest, hnegative, hsplit⟩
  · rw [hsame]
    exact h
  · have hlength : rest.length + 1 ≤ n := by
      rcases h with h | ⟨-, h⟩
      · rw [hrest] at h
        exact h
      · rw [ParseState.next, hrest] at h
        rw [show (u :: rest).headD s.last = u from rfl, hnegative] at h
        cases h
    rw [hsplit]
    rcases Nat.lt_or_eq_of_le hlength with hlt | heq
    · exact .inl hlt
    · exact .inr ⟨congrArg Nat.succ heq, u.isNegativeNumber_minus⟩

/-- A place has been passed over, or there is no result in front of it. -/
def Lost (n : Nat) (r : Option α × ParseState) : Prop := Past n r.2 ∨ r.1 = none ∧ r.2.rest.length = n + 1

/-- It does not matter to a rule what is done behind operands at a place. -/
def Blind (n : Nat) (p : Parse Unit → Parse α) (s : ParseState) : Prop :=
  ∀ other, p (meeting n other) s = p splitNegative s

/-! ## Doing the same -/

variable {p : Parse Unit → Parse α} {f : α → Parse Unit → Parse β}

/-- What a rule does in front of some tokens, compared with what it does when numbers are taken apart. -/
inductive Follows (places : List Nat) (p : Parse Unit → Parse α) (s : ParseState) (tokens' : List Token) : Prop where
  /-- It does the same. Some of the numbers are still to be read: nothing has been done in front of them. -/
  | same {places' : List Nat} {rest' : List Token} (hsub : places' ⊆ places) (hparted : Parted places' (p splitNegative s).2.rest rest')
      (hsame : p splitNegative (s.before tokens') = ((p splitNegative s).1, (p splitNegative s).2.before rest'))
      (hlast : (p splitNegative s).2.last = s.last) (hblind : ∀ n ∈ places', Blind n p s)
  /-- One of the numbers has been passed over, and it has not been met behind an operand. -/
  | missed {n : Nat} (hn : n ∈ places) (hblind : Blind n p s) (hlost : Lost n (p splitNegative s))

variable {q : Parse Unit → Parse α}

/-- A rule that comes to what another one does in another state. -/
theorem Follows.of_run (h : Follows places' q t rest') (hsub : places' ⊆ places)
    (hlast : t.last = s.last) (hrun : p splitNegative s = q splitNegative t)
    (hrun' : p splitNegative (s.before tokens') = q splitNegative (t.before rest'))
    (hother : ∀ n ∈ places', ∀ other, p (meeting n other) s = q (meeting n other) t) : Follows places p s tokens' := by
  have hblind : ∀ n ∈ places', Blind n q t → Blind n p s := fun n hn h other =>
    (hother n hn other).trans ((h other).trans hrun.symm)
  cases h with
  | same hsub' hparted hsame hlast' hleft =>
    refine .same (List.Subset.trans hsub' hsub) (by rw [hrun]; exact hparted) (by rw [hrun, hrun']; exact hsame) ?_
      fun n hn => hblind n (hsub' hn) (hleft n hn)
    rw [hrun, hlast', hlast]
  | missed hn hmissed hlost => exact .missed (hsub hn) (hblind _ hn hmissed) (by rw [hrun]; exact hlost)

/-- A rule does the same whatever is done at places that it stands behind, and it follows what it does in front
of numbers that are not taken apart. -/
structure Tracks (p : Parse Unit → Parse α) : Prop where
  past : ∀ {n : Nat} {s : ParseState}, Past n s → Blind n p s ∧ Past n (p splitNegative s).2
  follows : ∀ {places : List Nat} {s : ParseState} {tokens' : List Token}, s.last.kind = .eof → Parted places s.rest tokens' → Follows places p s tokens'

/-- A rule without anything behind operands. -/
theorem Tracks.plain {q : Parse α} (hpast : ∀ {n s}, Past n s → Past n (q s).2)
    (hfollows : ∀ {places s tokens'}, s.last.kind = .eof → Parted places s.rest tokens' →
      (∃ rest', Parted places (q s).2.rest rest' ∧ q (s.before tokens') = ((q s).1, (q s).2.before rest') ∧
        (q s).2.last = s.last) ∨ ∃ n ∈ places, Lost n (q s)) : Tracks fun _ => q := by
  refine ⟨fun h => ⟨fun _ => rfl, hpast h⟩, fun heof hparted => ?_⟩
  rcases hfollows heof hparted with ⟨rest', hparted', hsame, hlast⟩ | ⟨n, hn, hlost⟩
  · exact .same (List.Subset.refl _) hparted' hsame hlast fun _ _ _ => rfl
  · exact .missed hn (fun _ => rfl) hlost

theorem Tracks.pure (a : α) : Tracks fun _ => Pure.pure a :=
  .plain id fun _ h => .inl ⟨_, h, rfl, rfl⟩

theorem Tracks.fail : Tracks fun _ => (fail : Parse α) :=
  .plain id fun _ h => .inl ⟨_, h, rfl, rfl⟩

theorem Tracks.ask {g : ParseState → α}
    (h : ∀ {places s tokens'}, s.last.kind = .eof → Parted places s.rest tokens' → g (s.before tokens') = g s) :
    Tracks fun _ => Parse.ask g := by
  refine .plain id fun {places s tokens'} heof hparted => .inl ⟨tokens', hparted, ?_, rfl⟩
  exact Prod.ext (congrArg some (h heof hparted)) rfl

theorem Blind.bind_some {a : α} (h : Blind n p s) (hrun : p splitNegative s = (some a, t)) (other : Parse Unit) :
    (p (meeting n other) >>= fun a => f a (meeting n other)) s = f a (meeting n other) t :=
  bind_apply_some ((h other).trans hrun)

theorem Blind.bind_none (h : Blind n p s) (hrun : p splitNegative s = (none, t)) :
    Blind n (fun meet => p meet >>= fun a => f a meet) s := by
  intro other
  exact (bind_apply_none ((h other).trans hrun)).trans (bind_apply_none hrun).symm

theorem Blind.bind {a : α} (h : Blind n p s) (hrun : p splitNegative s = (some a, t)) (h' : Blind n (f a) t) :
    Blind n (fun meet => p meet >>= fun a => f a meet) s := by
  intro other
  exact (h.bind_some hrun other).trans ((h' other).trans (bind_apply_some (f := fun a => f a splitNegative) hrun).symm)

theorem Tracks.bind (hp : Tracks p) (hf : ∀ a, Tracks (f a)) : Tracks fun meet => p meet >>= fun a => f a meet := by
  constructor
  · intro n s h
    obtain ⟨hblind, hpast⟩ := hp.past h
    cases hrun : p splitNegative s with
    | mk r t =>
      rw [hrun] at hpast
      cases r with
      | none =>
        refine ⟨hblind.bind_none hrun, ?_⟩
        simpa only [bind_apply_none hrun] using hpast
      | some a =>
        obtain ⟨hblind', hpast'⟩ := (hf a).past hpast
        refine ⟨hblind.bind hrun hblind', ?_⟩
        simpa only [bind_apply_some hrun] using hpast'
  · intro places s tokens' heof hparted
    have hfirst := hp.follows heof hparted
    cases hrun : p splitNegative s with
    | mk r t =>
      cases hfirst with
      | same hsub hparted' hsame hlast hblind =>
        rw [hrun] at hparted' hsame hlast
        cases r with
        | none =>
          refine (Tracks.fail.follows (by rw [hlast]; exact heof) hparted').of_run hsub hlast (bind_apply_none hrun)
            (bind_apply_none hsame) fun n hn other => ?_
          exact bind_apply_none ((hblind n hn other).trans hrun)
        | some a =>
          refine ((hf a).follows (by rw [hlast]; exact heof) hparted').of_run hsub hlast (bind_apply_some hrun)
            (bind_apply_some hsame) fun n hn other => ?_
          exact (hblind n hn).bind_some hrun other
      | missed hn hblind hlost =>
        rw [hrun] at hlost
        cases r with
        | none =>
          refine .missed hn (hblind.bind_none hrun) ?_
          simp only [bind_apply_none hrun]
          exact hlost.imp_right fun h => ⟨rfl, h.2⟩
        | some a =>
          obtain ⟨hblind', hpast'⟩ := (hf a).past (hlost.resolve_right fun h => nomatch h.1)
          refine .missed hn (hblind.bind hrun hblind') (.inl ?_)
          simpa only [bind_apply_some hrun] using hpast'

theorem Tracks.ite [Decidable b] (hp : Tracks p) (hq : Tracks q) : Tracks fun meet => if b then p meet else q meet := by
  by_cases h : b
  · simpa only [h, if_true] using hp
  · simpa only [h, if_false] using hq

/-! ## In front of a number -/

/-- In front of a negative number, a rule passes over it or gives no result, whatever is done behind operands. -/
def Misses (p : Parse Unit → Parse α) : Prop :=
  ∀ n s, InFront n s → Blind n p s ∧ Lost n (p splitNegative s)

/-- In front of a negative number, a rule passes over it, whatever is done behind operands. -/
def Passes (p : Parse Unit → Parse α) : Prop :=
  ∀ n s, InFront n s → Blind n p s ∧ Past n (p splitNegative s).2

theorem Passes.misses (h : Passes p) : Misses p := fun n s hs => ⟨(h n s hs).1, .inl (h n s hs).2⟩

theorem Misses.bind (hp : Misses p) (hf : ∀ a, Tracks (f a)) : Misses fun meet => p meet >>= fun a => f a meet := by
  intro n s hs
  obtain ⟨hblind, hlost⟩ := hp n s hs
  cases hrun : p splitNegative s with
  | mk r t =>
    rw [hrun] at hlost
    cases r with
    | none =>
      refine ⟨hblind.bind_none hrun, ?_⟩
      simp only [bind_apply_none hrun]
      exact hlost.imp_right fun h => ⟨rfl, h.2⟩
    | some a =>
      obtain ⟨hblind', hpast⟩ := (hf a).past (hlost.resolve_right fun h => nomatch h.1)
      refine ⟨hblind.bind hrun hblind', .inl ?_⟩
      simpa only [bind_apply_some hrun] using hpast

theorem Misses.ite [Decidable b] (hp : Misses p) (hq : Misses q) : Misses fun meet => if b then p meet else q meet := by
  by_cases h : b
  · simpa only [h, if_true] using hp
  · simpa only [h, if_false] using hq

theorem Misses.ite_pos [Decidable b] (h : b) (hp : Misses p) : Misses fun meet => if b then p meet else q meet := by
  simpa only [h, if_true] using hp

theorem Misses.ite_neg [Decidable b] (h : ¬ b) (hq : Misses q) : Misses fun meet => if b then p meet else q meet := by
  simpa only [h, if_false] using hq

/-- What the parse with numbers taken apart stands in front of. -/
theorem Parted.next (h : Parted places s.rest tokens') : (s.before tokens').next = s.next ∨
    ∃ n ∈ places, InFront n s ∧ (s.before tokens').next = s.next.splitNegative.1 := by
  generalize hrest : s.rest = tokens at h
  have hnext : s.next = tokens.headD s.last := by rw [ParseState.next, hrest]
  cases h with
  | nil => exact .inl hnext.symm
  | same t rest => exact .inl hnext.symm
  | apart hnegative rest =>
    refine .inr ⟨_, List.mem_cons_self, ⟨by rw [hrest]; rfl, by rw [hnext]; exact hnegative⟩, ?_⟩
    rw [hnext]
    rfl

theorem Parted.kind_beq (h : Parted places s.rest tokens') (hk : k.signless = true) :
    ((s.before tokens').next.kind == k) = (s.next.kind == k) := by
  rcases h.next with hsame | ⟨n, -, hfront, hminus⟩
  · rw [hsame]
  · obtain ⟨hnumber, hother⟩ := Token.ne_of_signless hfront.2 hk
    rw [hminus, hnumber, hother]

/-- Looking at the next token. If it is a number that may be taken apart, it is not told from its minus, or it is
passed over in what follows. -/
theorem Tracks.peek {f : Token → Parse Unit → Parse β} (hf : ∀ t, Tracks (f t))
    (hnegative : ∀ t, t.isNegativeNumber = true → f t = f t.splitNegative.1 ∨ Misses (f t)) :
    Tracks fun meet => Parse.peek >>= fun t => f t meet := by
  refine ⟨fun {n s} h => (hf s.next).past h, fun {places s tokens'} heof hparted => ?_⟩
  have hsame : f (s.before tokens').next = f s.next → Follows places (fun meet => Parse.peek >>= fun t => f t meet) s tokens' :=
    fun h => ((hf s.next).follows heof hparted).of_run (List.Subset.refl _) rfl rfl
      (congrArg (fun g : Parse Unit → Parse β => g splitNegative (s.before tokens')) h) fun _ _ _ => rfl
  rcases hparted.next with hnext | ⟨n, hn, hfront, hminus⟩
  · exact hsame (congrArg f hnext)
  · rcases hnegative s.next hfront.2 with hequal | hmisses
    · exact hsame (by rw [hminus, hequal])
    · obtain ⟨hblind, hlost⟩ := hmisses n s hfront
      exact .missed hn hblind hlost

theorem Tracks.peekKind {f : TokenKind → Parse Unit → Parse β} (hf : ∀ k, Tracks (f k))
    (hint : f .int = f (.op .minus)) (hfloat : f .float = f (.op .minus)) :
    Tracks fun meet => Parse.peekKind >>= fun k => f k meet := by
  refine .peek (f := fun t => f t.kind) (fun t => hf t.kind) fun t ht => .inl ?_
  rw [Token.kind_minus]
  rcases Token.kind_of_negative ht with hk | hk
  · rw [hk, hint]
  · rw [hk, hfloat]

theorem Tracks.check (hk : k.signless = true) : Tracks fun _ => Parse.check k :=
  .ask fun _ hparted => hparted.kind_beq hk

theorem Tracks.atItemEnd : Tracks fun _ => Parse.atItemEnd :=
  .peekKind (fun _ => .pure _) rfl rfl

theorem misses_atItemEnd {q' : Parse Unit → Parse α} (hq : Misses q') :
    Misses fun meet => Parse.atItemEnd >>= fun b => if b = true then q meet else q' meet := by
  intro n s hs
  have hend : (Parse.atItemEnd s) = (some false, s) := by
    rw [Parse.atItemEnd, Parse.peekKind, ask_bind]
    rcases Token.kind_of_negative hs.2 with hk | hk <;> rw [hk] <;> rfl
  obtain ⟨hblind, hlost⟩ := hq n s hs
  have hrun : ∀ meet, (Parse.atItemEnd >>= fun b => if b = true then q meet else q' meet) s = q' meet s :=
    fun meet => bind_apply_some hend
  refine ⟨fun other => ?_, ?_⟩
  · dsimp only
    rw [hrun, hrun]
    exact hblind other
  · dsimp only
    rw [hrun]
    exact hlost

/-- Reading a token. If it is a number that may be taken apart, it is passed over. -/
theorem Tracks.advance : Tracks fun _ => Parse.advance := by
  refine .plain (fun h => h.suffix (List.drop_suffix 1 _)) fun {places s tokens'} heof hparted => ?_
  generalize hrest : s.rest = tokens at hparted
  have hnext : s.next = tokens.headD s.last := by rw [ParseState.next, hrest]
  have hdrop : (Parse.advance s).2.rest = tokens.drop 1 := by rw [← hrest]; rfl
  cases hparted with
  | nil => exact .inl ⟨[], hdrop ▸ .nil, Prod.ext (congrArg some hnext.symm) rfl, rfl⟩
  | same t rest => exact .inl ⟨_, hdrop ▸ rest, Prod.ext (congrArg some hnext.symm) rfl, rfl⟩
  | apart hnegative rest =>
    refine .inr ⟨_, List.mem_cons_self, .inl (.inl ?_)⟩
    rw [hdrop]
    exact Nat.le_refl _

theorem passes_advance : Passes fun _ => Parse.advance := by
  intro n s hs
  obtain ⟨rest, hrest, hlength⟩ := hs.rest
  refine ⟨fun _ => rfl, .inl ?_⟩
  change (s.rest.drop 1).length ≤ n
  rw [hrest]
  exact Nat.le_of_eq hlength

theorem Tracks.accept (hk : k.signless = true) : Tracks fun _ => Parse.accept k := by
  refine (Tracks.check hk).bind fun b => Tracks.ite ?_ (.pure false)
  exact Tracks.advance.bind fun _ => .pure true

/-! ## Changes of the state -/

/-- A change that leaves alone what is left to read. -/
theorem Tracks.change {g : ParseState → ParseState} (hrest : ∀ s, (g s).rest = s.rest) (hlast : ∀ s, (g s).last = s.last)
    (hbefore : ∀ s rest, g (s.before rest) = (g s).before rest) : Tracks fun _ => Parse.change g := by
  refine .plain (fun {n s} h => h.suffix ?_) fun {places s tokens'} heof hparted => .inl ⟨tokens', ?_, ?_, hlast s⟩
  · exact hrest s ▸ List.suffix_refl _
  · exact (hrest s).symm ▸ hparted
  · exact Prod.ext rfl (hbefore s tokens')

theorem Tracks.calm : Tracks fun _ => Parse.calm :=
  .change (fun _ => rfl) (fun _ => rfl) fun _ _ => rfl

theorem afterReport_before (e : ParseError) (s : ParseState) (rest : List Token) :
    afterReport e (s.before rest) = (afterReport e s).before rest := by
  unfold afterReport
  change (if s.panicking || s.stopped then _ else _) = _
  split <;> rfl

theorem Tracks.reportAt : Tracks fun _ => Parse.reportAt fault pos length message := by
  rw [reportAt_eq]
  exact .change (fun s => (rest_afterReport _ s).1) (fun s => (rest_afterReport _ s).2) fun s => afterReport_before _ s

theorem Tracks.failAt : Tracks fun _ => (do Parse.reportAt fault pos length message; Parse.fail : Parse α) :=
  Tracks.reportAt.bind fun _ => .fail

theorem Tracks.failToken : Tracks fun _ => (Parse.failToken fault token message : Parse α) := .failAt

theorem Misses.failToken : Misses fun _ => (Parse.failToken fault token message : Parse α) := by
  intro n s hs
  refine ⟨fun _ => rfl, .inr ⟨rfl, ?_⟩⟩
  have hrun : (Parse.failToken fault token message : Parse α) s = (none, afterReport
      ⟨fault, token.pos, if token.columns < 1 then 1 else token.columns, message⟩ s) := by
    rw [Parse.failToken, Parse.reportToken, reportAt_eq]
    rfl
  change (Parse.failToken fault token message s : Option α × ParseState).2.rest.length = n + 1
  rw [hrun]
  exact (congrArg List.length (rest_afterReport _ s).1).trans hs.1

/-- A token of some kind is expected. -/
theorem Tracks.expect (hk : k.signless = true) {f : Token → Parse Unit → Parse α} (hf : ∀ t, Tracks (f t))
    {fault : Token → GrammarFault} {message : Token → Phrase} : Tracks fun meet => Parse.peek >>= fun t =>
      if (t.kind == k) = true then f t meet else Parse.failToken (fault t) t (message t) := by
  refine .peek (fun t => .ite (hf t) .failAt) fun t ht => .inr ?_
  exact .ite_neg (Token.not_kind ht hk) .failToken

theorem Tracks.failNext {message : Token → Phrase} :
    Tracks fun _ => (Parse.peek >>= fun t => Parse.failToken fault t (message t) : Parse α) :=
  .peek (fun _ => .failAt) fun _ _ => .inr .failToken

theorem Parted.pastNewlines {tokens : List Token} (h : Parted places tokens tokens') :
    Parted places (pastNewlines tokens) (pastNewlines tokens') := by
  induction h with
  | nil => exact .nil
  | @same places tokens tokens' t rest ih =>
    unfold Frontend.pastNewlines at ih ⊢
    rw [List.dropWhile_cons, List.dropWhile_cons]
    split
    · exact ih
    · exact .same t rest
  | @apart places tokens tokens' t hnegative rest ih =>
    obtain ⟨hnumber, hminus⟩ := Token.ne_of_signless hnegative (k := .newline) rfl
    unfold Frontend.pastNewlines
    rw [List.dropWhile_cons, List.dropWhile_cons, hnumber, hminus]
    exact .apart hnegative rest

/-- What stands behind line breaks is looked at. -/
theorem Tracks.kindPastNewlines {f : TokenKind → Parse Unit → Parse β} (hf : ∀ k, Tracks (f k))
    (hint : f .int = f (.op .minus)) (hfloat : f .float = f (.op .minus)) :
    Tracks fun meet => Parse.kindPastNewlines >>= fun k => f k meet := by
  refine ⟨fun {n s} h => (hf _).past h, fun {places s tokens'} heof hparted => ?_⟩
  let k := (s.before (pastNewlines s.rest)).next.kind
  let k' := (s.before (pastNewlines tokens')).next.kind
  have hsame : f k' = f k := by
    have hpast : Parted places (s.before (pastNewlines s.rest)).rest (pastNewlines tokens') := hparted.pastNewlines
    rcases hpast.next with hnext | ⟨n, -, hfront, hminus⟩
    · exact congrArg (fun t : Token => f t.kind) hnext
    · have hk' : k' = .op .minus := (congrArg Token.kind hminus).trans (Token.kind_minus _)
      rw [hk']
      rcases Token.kind_of_negative hfront.2 with hk | hk
      · rw [show k = .int from hk, hint]
      · rw [show k = .float from hk, hfloat]
  have hrun' : (Parse.kindPastNewlines >>= fun k => f k splitNegative) (s.before tokens') =
      f k splitNegative (s.before tokens') := by
    change f k' splitNegative (s.before tokens') = _
    rw [hsame]
  exact ((hf k).follows heof hparted).of_run (List.Subset.refl _) rfl rfl hrun' fun _ _ _ => rfl

theorem Tracks.skipNewlines : Tracks fun _ => Parse.skipNewlines :=
  .plain (fun h => h.suffix (List.dropWhile_suffix _)) fun _ hparted => .inl ⟨_, hparted.pastNewlines, rfl, rfl⟩

/-- Where reading goes on behind a faulty item: no number has been passed over, or one of them has. -/
theorem Parted.resumeAt {tokens : List Token} (h : Parted places tokens tokens') (closer : Option Bracket) (level : Nat) :
    Parted places (Parse.resumeAt closer level tokens) (Parse.resumeAt closer level tokens') ∨
      ∃ n ∈ places, (Parse.resumeAt closer level tokens).length ≤ n := by
  induction h generalizing level with
  | nil =>
    rw [Parse.resumeAt]
    exact .inl .nil
  | @same places tokens tokens' t rest ih =>
    rw [Parse.resumeAt.eq_def, Parse.resumeAt.eq_def closer level (t :: tokens')]
    dsimp only
    split
    · exact ih _
    · split
      · split
        · exact .inl (.same t rest)
        · exact ih _
      · exact ih _
    · split
      · exact .inl (.same t rest)
      · exact ih _
    · exact ih _
  | @apart places tokens tokens' t hnegative rest ih =>
    refine .inr ⟨_, List.mem_cons_self, ?_⟩
    have hskip : Parse.resumeAt closer level (t :: tokens) = Parse.resumeAt closer level tokens := by
      rw [Parse.resumeAt.eq_def]
      rcases Token.kind_of_negative hnegative with hk | hk <;> simp [hk]
    rw [hskip]
    exact (resumeAt_suffix closer level tokens).length_le

theorem Tracks.synchronize (closer : Option Bracket) : Tracks fun _ => Parse.synchronize closer := by
  refine .plain (fun h => h.suffix (resumeAt_suffix _ _ _)) fun {places s tokens'} heof hparted => ?_
  rcases hparted.resumeAt closer 0 with hparted' | ⟨n, hn, hle⟩
  · exact .inl ⟨_, hparted', rfl, rfl⟩
  · exact .inr ⟨n, hn, .inl (.inl hle)⟩

theorem passes_synchronize (closer : Option Bracket) (a : α) :
    Passes fun _ => (do Parse.synchronize closer; return a : Parse α) := by
  intro n s hs
  obtain ⟨rest, hrest, hlength⟩ := hs.rest
  refine ⟨fun _ => rfl, .inl ?_⟩
  change (Parse.resumeAt closer 0 s.rest).length ≤ n
  have hskip : Parse.resumeAt closer 0 s.rest = Parse.resumeAt closer 0 rest := by
    rw [hrest, Parse.resumeAt.eq_def]
    rcases Token.kind_of_negative hs.2 with hk | hk <;> simp [hk]
  rw [hskip, ← hlength]
  exact (resumeAt_suffix closer 0 rest).length_le

theorem Passes.report {expected : String} (hp : Passes p) :
    Passes fun meet => Parse.reportUnexpected token expected >>= fun _ => p meet := by
  intro n s hs
  rw [show (Parse.reportUnexpected token expected : Parse Unit) = _ from reportAt_eq _ _ _ _]
  obtain ⟨hrest, hlast⟩ := rest_afterReport _ s
  exact hp n (afterReport _ s) ⟨by rw [hrest]; exact hs.1, by rw [next_congr hrest hlast]; exact hs.2⟩

/-! ## Brackets, attempts and loops -/

theorem inBrackets_apply (inClass : Bool) (q : Parse α) (s : ParseState) :
    Parse.inBrackets inClass q s = ((q (s.enter inClass)).1,
      { (q (s.enter inClass)).2 with depth := s.depth, inClass := s.inClass }) := rfl

theorem Tracks.inBrackets {inClass : Bool} (hp : Tracks p) : Tracks fun meet => Parse.inBrackets inClass (p meet) := by
  have hother : ∀ {n s}, Blind n p (s.enter inClass) → Blind n (fun meet => Parse.inBrackets inClass (p meet)) s := by
    intro n s hblind other
    dsimp only
    rw [inBrackets_apply, inBrackets_apply, hblind other]
  constructor
  · intro n s h
    obtain ⟨hblind, hpast⟩ := hp.past (s := s.enter inClass) h
    exact ⟨hother hblind, hpast.suffix (List.suffix_refl _)⟩
  · intro places s tokens' heof hparted
    cases hp.follows (s := s.enter inClass) heof hparted with
    | same hsub hparted' hsame hlast hblind =>
      refine .same hsub hparted' ?_ hlast fun n hn => hother (hblind n hn)
      have henter : (s.before tokens').enter inClass = (s.enter inClass).before tokens' := rfl
      rw [inBrackets_apply, inBrackets_apply, henter, hsame]
      rfl
    | missed hn hblind hlost =>
      exact .missed hn (hother hblind) (hlost.imp (fun h => h.suffix (List.suffix_refl _)) id)

/-- Trying a rule, and going on in one way behind a result and in another one behind none. -/
theorem Tracks.attempt {f : Option α → Parse Unit → Parse β} (hp : Tracks p) (hf : ∀ r, Tracks (f r))
    (hnone : Passes (f none)) : Tracks fun meet => Parse.attempt (p meet) >>= fun r => f r meet := by
  have hrun : ∀ {n s}, Blind n p s → ∀ other, (Parse.attempt (p (meeting n other)) >>= fun r => f r (meeting n other)) s =
      f (p splitNegative s).1 (meeting n other) (p splitNegative s).2 := by
    intro n s h other
    rw [attempt_bind, h other]
  constructor
  · intro n s h
    obtain ⟨hblind, hpast⟩ := hp.past h
    obtain ⟨hblind', hpast'⟩ := (hf (p splitNegative s).1).past hpast
    exact ⟨fun other => (hrun hblind other).trans (hblind' other), hpast'⟩
  · intro places s tokens' heof hparted
    cases hp.follows heof hparted with
    | same hsub hparted' hsame hlast hblind =>
      refine ((hf (p splitNegative s).1).follows (by rw [hlast]; exact heof) hparted').of_run hsub hlast rfl ?_
        fun n hn other => hrun (hblind n hn) other
      rw [attempt_bind, hsame]
    | @missed n hn hblind hlost =>
      have hrest : Blind n (f (p splitNegative s).1) (p splitNegative s).2 ∧
          Past n (f (p splitNegative s).1 splitNegative (p splitNegative s).2).2 := by
        rcases hlost with hpast | ⟨hresult, hlength⟩
        · exact (hf _).past hpast
        · rcases past_or_inFront hlength with hpast | hfront
          · exact (hf _).past hpast
          · rw [hresult]
            exact hnone n _ hfront
      exact .missed hn (fun other => (hrun hblind other).trans (hrest.1 other)) (.inl hrest.2)

/-- A loop of so many steps at most. -/
def loop (step : σ → Parse (Progress σ β)) : Nat → σ → Parse β
  | 0, _ => fail
  | n + 1, a =>
    ask (·.weight) >>= fun w => step a >>= fun
      | .done b => pure b
      | .again a' => ask (·.weight) >>= fun w' => if w' < w then loop step n a' else fail

theorem repeatWhile_eq_loop {step : σ → Parse (Progress σ β)} (n : Nat) (a : σ) (s : ParseState) (h : s.weight < n) :
    Parse.repeatWhile step a s = loop step n a s := by
  induction n generalizing a s with
  | zero => exact absurd h (Nat.not_lt_zero _)
  | succ n ih =>
    rw [Parse.repeatWhile.eq_def, loop, ask_bind]
    cases hstep : step a s with
    | mk r t =>
      cases r with
      | none => rw [bind_apply_none hstep]
      | some progress =>
        rw [bind_apply_some hstep]
        cases progress with
        | done b => rfl
        | again a' =>
          dsimp only
          rw [ask_bind]
          by_cases hlt : t.weight < s.weight
          · rw [if_pos hlt, if_pos hlt, ih a' t (by omega)]
          · rw [if_neg hlt, if_neg hlt]
            rfl

theorem Tracks.weight : Tracks fun _ => Parse.ask (·.weight) := by
  refine .ask fun {places s tokens'} _ hparted => ?_
  rw [ParseState.weight_eq, ParseState.weight_eq]
  exact hparted.weight

theorem Tracks.loop {step : σ → Parse Unit → Parse (Progress σ β)} (h : ∀ a, Tracks (step a)) (n : Nat) (a : σ) :
    Tracks fun meet => Parse.loop (fun a => step a meet) n a := by
  induction n generalizing a with
  | zero => exact .fail
  | succ n ih =>
    refine Tracks.weight.bind fun w => (h a).bind fun progress => ?_
    cases progress with
    | done b => exact .pure b
    | again a' => exact Tracks.weight.bind fun w' => .ite (ih a') .fail

theorem Tracks.repeatWhile {step : σ → Parse Unit → Parse (Progress σ β)} (h : ∀ a, Tracks (step a)) (a : σ) :
    Tracks fun meet => Parse.repeatWhile (fun a => step a meet) a := by
  -- a run of the loop takes no more steps than there is left to read
  have hloop : ∀ meet (s : ParseState), Parse.repeatWhile (fun a => step a meet) a s =
      Parse.loop (fun a => step a meet) (s.weight + 1) a s :=
    fun meet s => repeatWhile_eq_loop _ a s (Nat.lt_succ_self _)
  constructor
  · intro n s hs
    obtain ⟨hblind, hpast⟩ := (Tracks.loop h (s.weight + 1) a).past hs
    refine ⟨fun other => ?_, ?_⟩
    · exact (hloop _ s).trans ((hblind other).trans (hloop _ s).symm)
    · rw [hloop]
      exact hpast
  · intro places s tokens' heof hparted
    have hweight : (s.before tokens').weight = s.weight := by
      rw [ParseState.weight_eq, ParseState.weight_eq]
      exact hparted.weight
    refine ((Tracks.loop h (s.weight + 1) a).follows heof hparted).of_run (List.Subset.refl _) rfl (hloop _ s) ?_
      fun n _ other => hloop _ s
    rw [hloop, hweight]

/-! ## Behind operands -/

/-- Behind an operand, nothing is left of a number that has been in front, whether taken apart before or there. -/
theorem Parted.splitFirst {tokens : List Token} (h : Parted places tokens tokens') :
    ∃ places', places' ⊆ places ∧ Parted places' (Frontend.splitFirst tokens) (Frontend.splitFirst tokens') ∧
      (Frontend.splitFirst tokens').head? = (Frontend.splitFirst tokens).head? ∧ ∀ n ∈ places', n + 1 < tokens.length := by
  cases h with
  | nil => exact ⟨[], List.Subset.refl _, .nil, rfl, fun _ hn => absurd hn List.not_mem_nil⟩
  | same t rest =>
    refine ⟨places, List.Subset.refl _, ?_, ?_, fun n hn => Nat.succ_lt_succ (rest.lt_length hn)⟩
    all_goals
      rw [Frontend.splitFirst, Frontend.splitFirst]
      split
    · exact .same _ (.same _ rest)
    · exact .same _ rest
    · rfl
    · rfl
  | @apart places tokens tokens' t hnegative rest =>
    have hminus : Frontend.splitFirst (t.splitNegative.1 :: t.splitNegative.2 :: tokens') =
        t.splitNegative.1 :: t.splitNegative.2 :: tokens' := by
      rw [Frontend.splitFirst, if_neg (by rw [Token.isNegativeNumber_minus]; exact Bool.false_ne_true)]
    refine ⟨places, List.subset_cons_self _ _, ?_, ?_, fun n hn => Nat.succ_lt_succ (rest.lt_length hn)⟩
    all_goals rw [hminus, Frontend.splitFirst, if_pos hnegative]
    · exact .same _ (.same _ rest)
    · rfl

theorem splitNegative_apply (s : ParseState) : splitNegative s = (some (), s.before (splitFirst s.rest)) := by
  rw [splitNegative_eq]
  rfl

theorem meeting_apply {other : Parse Unit} (h : ¬ InFront n s) :
    meeting n other s = (some (), s.before (splitFirst s.rest)) := by
  rw [← splitNegative_apply]
  exact if_neg h

/-- What stands behind an operand is looked at. -/
theorem Tracks.meet {f : Token → Parse Unit → Parse β} (hf : ∀ t, Tracks (f t)) :
    Tracks fun meet => meet >>= fun _ => Parse.peek >>= fun t => f t meet := by
  have hrun : ∀ s, (splitNegative >>= fun _ => Parse.peek >>= fun t => f t splitNegative) s =
      f (s.before (splitFirst s.rest)).next splitNegative (s.before (splitFirst s.rest)) :=
    fun s => bind_apply_some (splitNegative_apply s)
  have hother : ∀ {n s}, ¬ InFront n s → ∀ other,
      (meeting n other >>= fun _ => Parse.peek >>= fun t => f t (meeting n other)) s =
        f (s.before (splitFirst s.rest)).next (meeting n other) (s.before (splitFirst s.rest)) :=
    fun h other => bind_apply_some (meeting_apply h)
  constructor
  · intro n s h
    obtain ⟨hblind, hpast⟩ := (hf (s.before (splitFirst s.rest)).next).past h.split
    refine ⟨fun other => ?_, ?_⟩
    · dsimp only
      rw [hother h.not_inFront, hrun]
      exact hblind other
    · rw [hrun]
      exact hpast
  · intro places s tokens' heof hparted
    obtain ⟨places', hsub, hparted', hhead, hbehind⟩ := hparted.splitFirst
    have hnext : (s.before (splitFirst tokens')).next = (s.before (splitFirst s.rest)).next := by
      rw [ParseState.next, ParseState.next, List.headD_eq_head?_getD, List.headD_eq_head?_getD]
      exact congrArg (Option.getD · s.last) hhead
    refine ((hf (s.before (splitFirst s.rest)).next).follows (s := s.before (splitFirst s.rest)) heof hparted').of_run
      hsub rfl (hrun s) ?_ fun n hn other => hother (fun hfront => ?_) other
    · rw [hrun, ← hnext]
      rfl
    · have hlt := hbehind n hn
      rw [hfront.1] at hlt
      exact Nat.lt_irrefl _ hlt

end Parse

end Frontend
