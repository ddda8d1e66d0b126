import Frontend.Parse.Program
import Frontend.Proofs.Parse.Label
import Frontend.Proofs.Parse.Parameter
import Frontend.Proofs.Tree.Moved
import Mathlib.Data.List.Forall2
import Mathlib.Data.Prod.Basic

/-!
# Rules in other surroundings

A judgement about parsing rules: in front of the same tokens at another place, with further tokens
behind them and with errors written down earlier, a rule does the same. That holds as long as the rule
leaves some of its own tokens unread, so that it has not looked at the further ones, and as long as the
earlier errors do not matter: they may make the parse stop, or make an error count as repeated.
-/

namespace Frontend

variable {e e' : ParseError} {fault : GrammarFault} {message message' : Phrase}
variable {errors errors' : List ParseError}

/-- Whether a message tells where something stands: the one about a bracket that is not closed does. -/
def Phrase.tellsPlace : Phrase → Bool
  | .entry .unclosedExpression _ => true
  | _ => false

/-- A message about another place. -/
inductive Phrase.MovesTo (move : Position → Position) : Phrase → Phrase → Prop where
  | same (m : Phrase) (h : m.tellsPlace = false) : MovesTo move m m
  | unclosed (opener : String) (pos : Position) (found : String) :
      MovesTo move
        (.entry .unclosedExpression [.text opener, .text pos.text, .text found])
        (.entry .unclosedExpression [.text opener, .text (move pos).text, .text found])

theorem Phrase.MovesTo.eq_of_id {m m' : Phrase} (h : m.MovesTo id m') : m' = m := by
  cases h <;> rfl

/-- An error at another place. -/
structure ParseError.MovesTo (move : Position → Position) (e e' : ParseError) : Prop where
  fault : e'.fault = e.fault
  pos : e'.pos = move e.pos
  length : e'.length = e.length
  message : e.message.MovesTo move e'.message

theorem ParseError.MovesTo.eq_of_id (h : e.MovesTo id e') : e' = e := by
  obtain ⟨hfault, hpos, hlength, hmessage⟩ := h
  cases e
  cases e'
  simp only [ParseError.mk.injEq]
  exact ⟨hfault, hpos, hlength, hmessage.eq_of_id⟩

/-! ## What is left to read -/

/-- What a list of tokens weighs: a number that may be taken apart counts as its parts. -/
def tokensWeight : List Token → Nat
  | [] => 0
  | t :: tokens => t.parts + tokensWeight tokens

theorem tokensWeight_append (tokens more : List Token) :
    tokensWeight (tokens ++ more) = tokensWeight tokens + tokensWeight more := by
  induction tokens with
  | nil => simp [tokensWeight]
  | cons t tokens ih => rw [List.cons_append, tokensWeight, tokensWeight, ih, Nat.add_assoc]

theorem tokensWeight_map_moved (move : Position → Position) (tokens : List Token) :
    tokensWeight (tokens.map (Token.moved move)) = tokensWeight tokens := by
  induction tokens with
  | nil => rfl
  | cons t tokens ih =>
    rw [List.map_cons, tokensWeight, tokensWeight, ih, Token.parts_moved]

theorem ParseState.weight_eq (s : ParseState) : s.weight = tokensWeight s.rest := by
  have count : ∀ (tokens : List Token) (n : Nat),
      tokens.foldl (fun n t => n + t.parts) n = n + tokensWeight tokens := by
    intro tokens
    induction tokens with
    | nil => simp [tokensWeight]
    | cons t tokens ih =>
      intro n
      rw [List.foldl_cons, ih, tokensWeight, ← Nat.add_assoc]
  unfold ParseState.weight
  rw [count, Nat.zero_add]

/-- The tokens behind an operand: a negative number in front is taken apart. -/
def splitFirst : List Token → List Token
  | t :: rest =>
    if t.isNegativeNumber then t.splitNegative.1 :: t.splitNegative.2 :: rest else t :: rest
  | [] => []

theorem splitFirst_cases (tokens : List Token) : splitFirst tokens = tokens ∨
    ∃ t rest, tokens = t :: rest ∧ t.isNegativeNumber = true ∧
      splitFirst tokens = t.splitNegative.1 :: t.splitNegative.2 :: rest := by
  cases tokens with
  | nil => exact .inl rfl
  | cons t rest =>
    by_cases h : t.isNegativeNumber = true
    · exact .inr ⟨t, rest, rfl, h, if_pos h⟩
    · exact .inl (if_neg h)

theorem Parse.splitNegative_eq :
    Parse.splitNegative = Parse.change fun s => { s with rest := splitFirst s.rest } := by
  unfold Parse.splitNegative
  congr 1
  funext s
  cases s with
  | mk rest last errors panicking stopped depth inClass =>
    cases rest with
    | nil => rfl
    | cons t rest =>
      dsimp only [splitFirst]
      split <;> rfl

/-! ## Surroundings -/

namespace Parse

/-- The surroundings that a rule is put into. -/
structure Setting where
  move : Position → Position
  shift : ∀ p columns bytes, move (p.shift columns bytes) = (move p).shift columns bytes
  /-- Only what is read without errors is compared, so that places do not matter. -/
  clean : Prop
  moves : clean ∨ Position.Moves move
  onto : clean → Function.Surjective move
  /-- The tokens behind those of the rule. They do not continue a branch. -/
  more : List Token
  /-- Nothing stands behind the tokens of the rule but the end of input. -/
  whole : Prop
  nothing : whole → more = []
  goesOn : ∀ t ∈ (more.dropWhile (·.kind == .newline)).head?,
    t.kind ≠ .keyword .elseCase ∧ t.kind ≠ .keyword .elifTest
  /-- The errors written down earlier, last first. -/
  earlier : List ParseError
  alone : clean → whole ∧ earlier = []

/-- Surroundings in which errors are compared as well. -/
def Setting.around (move : Position → Position) (moves : Position.Moves move) (more : List Token)
    (whole : Prop) (nothing : whole → more = [])
    (goesOn : ∀ t ∈ (more.dropWhile (·.kind == .newline)).head?,
      t.kind ≠ .keyword .elseCase ∧ t.kind ≠ .keyword .elifTest)
    (earlier : List ParseError) : Setting where
  move := move
  shift := moves.shift
  clean := False
  moves := .inr moves
  onto := False.elim
  more := more
  whole := whole
  nothing := nothing
  goesOn := goesOn
  earlier := earlier
  alone := False.elim

variable {c : Setting} {α β : Type} {s s' t t' : ParseState}

/-- The surroundings do not matter to a state: there is something left to read in front of what is
behind, and neither the number nor the places of the earlier errors make a difference. -/
structure Setting.Allows (c : Setting) (s : ParseState) : Prop where
  rest : c.whole ∨ s.rest ≠ []
  errors : c.earlier = [] ∨ s.errors.length + c.earlier.length < maxParseErrors ∧
    ∀ e ∈ s.errors, ∀ h ∈ c.earlier.head?,
      ¬ ((c.move e.pos).line = h.pos.line ∧ (c.move e.pos).column = h.pos.column)
  clean : c.clean → s.errors = []

/-- A state in which no error has been dropped without another one being written down. -/
def Noted (s : ParseState) : Prop := s.panicking = true ∨ s.stopped = true → s.errors ≠ []

/-- A state and the same state in other surroundings. -/
structure Setting.Alike (c : Setting) (s s' : ParseState) : Prop where
  rest : s'.rest = s.rest.map (Token.moved c.move) ++ c.more
  last : c.whole → s'.last = s.last.moved c.move
  eof : s.last.kind = .eof ∧ s'.last.kind = .eof
  errors : ∃ errors, s'.errors = errors ++ c.earlier ∧
    List.Forall₂ (ParseError.MovesTo c.move) s.errors errors
  panicking : s'.panicking = s.panicking
  stopped : s'.stopped = s.stopped
  depth : s'.depth = s.depth
  inClass : s'.inClass = s.inClass
  noted : Noted s

/-- A state with fewer tokens and more errors. -/
theorem Setting.Allows.earlier (h : c.Allows t) (hrest : t.rest ≠ [] → s.rest ≠ [])
    (herrors : s.errors <:+ t.errors) : c.Allows s := by
  have hclean : c.clean → s.errors = [] := by
    intro hclean
    rw [h.clean hclean] at herrors
    exact List.suffix_nil.mp herrors
  refine ⟨h.rest.imp_right hrest, h.errors.imp_right fun ⟨hcount, hplace⟩ => ⟨?_, ?_⟩, hclean⟩
  · have := herrors.length_le
    omega
  · exact fun e he => hplace e (herrors.subset he)

/-- Where only runs without errors are compared, nothing else matters. -/
theorem Setting.allows_of_clean (hclean : c.clean) (h : s.errors = []) : c.Allows s :=
  ⟨.inl (c.alone hclean).1, .inl (c.alone hclean).2, fun _ => h⟩

section
variable (h : c.Alike s s')
include h

theorem Setting.Alike.errors_eq_nil (hclean : c.clean) : s'.errors = [] ↔ s.errors = [] := by
  obtain ⟨errors, herrors, hmoved⟩ := h.errors
  rw [herrors, (c.alone hclean).2, List.append_nil]
  constructor
  · rintro rfl
    exact List.forall₂_nil_right_iff.mp hmoved
  · intro hs
    rw [hs] at hmoved
    exact List.forall₂_nil_left_iff.mp hmoved

theorem Setting.Alike.withRest {rest rest' : List Token} (hrest : rest' = rest.map (Token.moved c.move) ++ c.more) :
    c.Alike { s with rest } { s' with rest := rest' } :=
  ⟨hrest, h.last, h.eof, h.errors, h.panicking, h.stopped, h.depth, h.inClass, h.noted⟩

theorem Setting.Alike.next (hs : c.Allows s) : s'.next = s.next.moved c.move := by
  unfold ParseState.next
  rw [h.rest]
  cases hrest : s.rest with
  | nil =>
    have hwhole : c.whole := hs.rest.resolve_right fun hne => hne hrest
    simp [c.nothing hwhole, h.last hwhole]
  | cons t rest => simp

theorem Setting.Alike.atEnd (hs : c.Allows s) : s'.atEnd = s.atEnd := by
  unfold ParseState.atEnd
  rw [h.rest]
  cases hrest : s.rest with
  | nil => simp [c.nothing (hs.rest.resolve_right fun hne => hne hrest)]
  | cons t rest => simp

theorem Setting.Alike.weight : s'.weight = s.weight + tokensWeight c.more := by
  rw [ParseState.weight_eq, ParseState.weight_eq, h.rest, tokensWeight_append, tokensWeight_map_moved]

end

/-- A rule does in other surroundings what another one does. The results correspond to each other. -/
structure Carries (c : Setting) (image : α → β) (p : Parse α) (p' : Parse β) : Prop where
  /-- What does not matter behind the rule has not mattered in front of it. -/
  back : ∀ s, c.Allows (p s).2 → c.Allows s
  forth : ∀ s s', c.Alike s s' → c.Allows (p s).2 →
    (p' s').1 = (p s).1.map image ∧ c.Alike (p s).2 (p' s').2
  /-- No error is taken back. -/
  keeps : c.clean → ∀ s', s'.errors ≠ [] → (p' s').2.errors ≠ []
  /-- Both rules meet an error, or none does. -/
  faulty : c.clean → ∀ s s', c.Alike s s' → s.errors = [] → (p s).2.errors ≠ [] → (p' s').2.errors ≠ []

/-- What is needed of two rules behind an error: where only runs without errors are compared, they need
not do the same. -/
structure Resumes (c : Setting) (image : α → β) (p : Parse α) (p' : Parse β) : Prop where
  back : ∀ s, c.Allows (p s).2 → c.Allows s
  forth : ¬ c.clean → ∀ s s', c.Alike s s' → c.Allows (p s).2 →
    (p' s').1 = (p s).1.map image ∧ c.Alike (p s).2 (p' s').2
  keeps : c.clean → ∀ s', s'.errors ≠ [] → (p' s').2.errors ≠ []

theorem Carries.resumes {image : α → β} {p : Parse α} {p' : Parse β} (h : Carries c image p p') :
    Resumes c image p p' :=
  ⟨h.back, fun _ => h.forth, h.keeps⟩

/-- Every result is the image of one. -/
class Covers (c : Setting) (image : α → β) : Prop where
  onto : c.clean → Function.Surjective image

instance : Covers c (id : α → α) := ⟨fun _ => Function.surjective_id⟩

instance {image : α → β} [h : Covers c image] : Covers c (List.map image) :=
  ⟨fun hclean => List.map_surjective_iff.mpr (h.onto hclean)⟩

instance {image : α → β} [h : Covers c image] : Covers c (Option.map image) where
  onto := by
    rintro hclean (_ | b)
    · exact ⟨none, rfl⟩
    · obtain ⟨a, rfl⟩ := h.onto hclean b
      exact ⟨some a, rfl⟩

instance {γ δ : Type} {image : α → β} {image' : γ → δ} [h : Covers c image] [h' : Covers c image'] :
    Covers c (Prod.map image image') :=
  ⟨fun hclean => Function.Surjective.prodMap (h.onto hclean) (h'.onto hclean)⟩

instance : Covers c (Token.moved c.move) := ⟨fun hclean => Token.surjective_moved (c.onto hclean)⟩

instance : Covers c (Label.moved c.move) := ⟨fun hclean => Label.surjective_moved (c.onto hclean)⟩

instance : Covers c (Ident.moved c.move) := ⟨fun hclean => Ident.surjective_moved (c.onto hclean)⟩

instance : Covers c (Node.moved c.move) := ⟨fun hclean => Node.surjective_moved (c.onto hclean)⟩

instance : Covers c (Block.moved c.move) := ⟨fun hclean => Block.surjective_moved (c.onto hclean)⟩

instance : Covers c (Param.moved c.move) := ⟨fun hclean => Param.surjective_moved (c.onto hclean)⟩

instance : Covers c (Condition.moved c.move) :=
  ⟨fun hclean => Condition.surjective_moved (c.onto hclean)⟩

/-! ## Sequences, choices and questions -/

section
variable {γ δ : Type} {image : α → β} {image' : γ → δ} {p : Parse α} {p' : Parse β}
  {f : α → Parse γ} {f' : β → Parse δ}

/-- No error is taken back by rules of which each takes none back. -/
theorem bind_keeps (hf : ∀ b s', s'.errors ≠ [] → (f' b s').2.errors ≠ []) (s' : ParseState)
    (h : (p' s').2.errors ≠ []) : ((p' >>= f') s').2.errors ≠ [] := by
  cases hr : p' s' with
  | mk r t =>
    rw [hr] at h
    cases r with
    | none => rwa [bind_apply_none hr]
    | some b =>
      rw [bind_apply_some hr]
      exact hf b t h

/-- One rule after another. Behind a result that always comes with an error, less is needed. -/
theorem Carries.bindOrResume [hcovers : Covers c image] (hp : Carries c image p p')
    (hf : ∀ a, Carries c image' (f a) (f' (image a)) ∨ Resumes c image' (f a) (f' (image a)) ∧
      (c.clean → ∀ s s', c.Alike s s' → (p s).1 = some a → (p s).2.errors ≠ [])) :
    Carries c image' (p >>= f) (p' >>= f') := by
  have hresumes : ∀ a, Resumes c image' (f a) (f' (image a)) := fun a => (hf a).elim Carries.resumes (·.1)
  have hkeeps : c.clean → ∀ b s', s'.errors ≠ [] → (f' b s').2.errors ≠ [] := by
    intro hclean b s' hs'
    obtain ⟨a, rfl⟩ := hcovers.onto hclean b
    exact (hresumes a).keeps hclean s' hs'
  have hcarries : ∀ a s s', c.Alike s s' → c.clean → (p s).1 = some a → (p s).2.errors = [] →
      Carries c image' (f a) (f' (image a)) :=
    fun a s s' halike hclean ha hs => (hf a).resolve_right fun h => h.2 hclean s s' halike ha hs
  constructor
  · intro s hend
    apply hp.back
    cases hr : p s with
    | mk r t =>
      cases r with
      | none => rwa [bind_apply_none hr] at hend
      | some a =>
        rw [bind_apply_some hr] at hend
        exact (hresumes a).back t hend
  · intro s s' halike hend
    cases hr : p s with
    | mk r t =>
      have step := hp.forth s s' halike
      rw [hr] at step
      cases r with
      | none =>
        rw [bind_apply_none hr] at hend ⊢
        obtain ⟨hresult, halike'⟩ := step hend
        have hr' : p' s' = (none, (p' s').2) := Prod.ext hresult rfl
        rw [bind_apply_none hr']
        exact ⟨rfl, halike'⟩
      | some a =>
        rw [bind_apply_some hr] at hend ⊢
        have hbetween := (hresumes a).back t hend
        obtain ⟨hresult, halike'⟩ := step hbetween
        have hr' : p' s' = (some (image a), (p' s').2) := Prod.ext hresult rfl
        rw [bind_apply_some hr']
        by_cases hclean : c.clean
        · exact (hcarries a s s' halike hclean (by rw [hr]) (by rw [hr]; exact hbetween.clean hclean)).forth
            t _ halike' hend
        · exact (hresumes a).forth hclean t _ halike' hend
  · exact fun hclean s' hs' => bind_keeps (hkeeps hclean) s' (hp.keeps hclean s' hs')
  · intro hclean s s' halike hs hend
    have step := hp.forth s s' halike
    have fault := hp.faulty hclean s s' halike hs
    by_cases hfirst : (p s).2.errors = []
    · obtain ⟨hresult, halike'⟩ := step (c.allows_of_clean hclean hfirst)
      cases hr : p s with
      | mk r t =>
        rw [hr] at hresult halike'
        cases r with
        | none =>
          rw [bind_apply_none hr] at hend
          rw [hr] at hfirst
          exact absurd hfirst hend
        | some a =>
          rw [bind_apply_some hr] at hend
          have hr' : p' s' = (some (image a), (p' s').2) := Prod.ext hresult rfl
          rw [bind_apply_some hr']
          have hnext := hcarries a s s' halike hclean (by rw [hr]) hfirst
          rw [hr] at hfirst
          exact hnext.faulty hclean t _ halike' hfirst hend
    · exact bind_keeps (hkeeps hclean) s' (fault hfirst)

theorem Carries.bind [Covers c image] (hp : Carries c image p p')
    (hf : ∀ a, Carries c image' (f a) (f' (image a))) : Carries c image' (p >>= f) (p' >>= f') :=
  hp.bindOrResume fun a => .inl (hf a)

theorem Resumes.bind [hcovers : Covers c image] (hp : Resumes c image p p')
    (hf : ∀ a, Carries c image' (f a) (f' (image a))) : Resumes c image' (p >>= f) (p' >>= f') := by
  constructor
  · intro s hend
    apply hp.back
    cases hr : p s with
    | mk r t =>
      cases r with
      | none => rwa [bind_apply_none hr] at hend
      | some a =>
        rw [bind_apply_some hr] at hend
        exact (hf a).back t hend
  · intro hclean
    have hcarries : Carries c image p p' :=
      ⟨hp.back, hp.forth hclean, fun h => absurd h hclean, fun h => absurd h hclean⟩
    exact (hcarries.bind hf).forth
  · intro hclean s' hs'
    refine bind_keeps (fun b s' hs' => ?_) s' (hp.keeps hclean s' hs')
    obtain ⟨a, rfl⟩ := hcovers.onto hclean b
    exact (hf a).keeps hclean s' hs'

theorem Carries.pure {a : α} {b : β} (h : b = image a) : Carries c image (Pure.pure a) (Pure.pure b) where
  back := fun _ hs => hs
  forth := fun _ _ halike _ => ⟨congrArg some h, halike⟩
  keeps := fun _ _ hs' => hs'
  faulty := fun _ _ _ _ hs hend => absurd hs hend

theorem Carries.fail : Carries c image fail fail where
  back := fun _ hs => hs
  forth := fun _ _ halike _ => ⟨rfl, halike⟩
  keeps := fun _ _ hs' => hs'
  faulty := fun _ _ _ _ hs hend => absurd hs hend

theorem Carries.ite {b b' : Prop} [Decidable b] [Decidable b'] {q : Parse α} {q' : Parse β}
    (hb : b' ↔ b) (hp : Carries c image p p') (hq : Carries c image q q') :
    Carries c image (if b then p else q) (if b' then p' else q') := by
  by_cases h : b
  · rw [if_pos h, if_pos (hb.mpr h)]
    exact hp
  · rw [if_neg h, if_neg fun h' => h (hb.mp h')]
    exact hq

theorem Carries.ask {g : ParseState → α} {g' : ParseState → β}
    (h : ∀ s s', c.Alike s s' → c.Allows s → g' s' = image (g s)) :
    Carries c image (Parse.ask g) (Parse.ask g') where
  back := fun _ hs => hs
  forth := fun s s' halike hs => ⟨congrArg some (h s s' halike hs), halike⟩
  keeps := fun _ _ hs' => hs'
  faulty := fun _ _ _ _ hs hend => absurd hs hend

/-- A change of the state that does not touch the errors. -/
theorem Carries.change {g g' : ParseState → ParseState} (hback : ∀ s, c.Allows (g s) → c.Allows s)
    (hforth : ∀ s s', c.Alike s s' → c.Allows (g s) → c.Alike (g s) (g' s'))
    (herrors : ∀ s, (g s).errors = s.errors) (herrors' : ∀ s, (g' s).errors = s.errors) :
    Carries c id (Parse.change g) (Parse.change g') where
  back := hback
  forth := fun s s' halike hs => ⟨rfl, hforth s s' halike hs⟩
  keeps := fun _ s' hs' => (herrors' s').symm ▸ hs'
  faulty := fun _ s _ _ hs hend => absurd ((herrors s).trans hs) hend

theorem attempt_bind (p : Parse α) (f : Option α → Parse γ) (s : ParseState) :
    (attempt p >>= f) s = f (p s).1 (p s).2 := rfl

theorem Carries.attempt (hp : Carries c image p p') :
    Carries c (Option.map image) (Parse.attempt p) (Parse.attempt p') where
  back := fun s hend => hp.back s hend
  forth := by
    intro s s' halike hend
    obtain ⟨hresult, halike'⟩ := hp.forth s s' halike hend
    exact ⟨congrArg some hresult, halike'⟩
  keeps := hp.keeps
  faulty := hp.faulty

theorem Setting.Alike.opened (h : c.Alike s s') (inClass : Bool) :
    c.Alike { s with depth := s.depth + 1, inClass } { s' with depth := s'.depth + 1, inClass } :=
  ⟨h.rest, h.last, h.eof, h.errors, h.panicking, h.stopped, congrArg (· + 1) h.depth, rfl, h.noted⟩

theorem Carries.inBrackets {inClass inClass' : Bool} (hclass : inClass' = inClass) (hp : Carries c image p p') :
    Carries c image (Parse.inBrackets inClass p) (Parse.inBrackets inClass' p') := by
  subst hclass
  constructor
  · intro s hend
    have inner := hp.back { s with depth := s.depth + 1, inClass := inClass' }
      ⟨hend.rest, hend.errors, hend.clean⟩
    exact ⟨inner.rest, inner.errors, inner.clean⟩
  · intro s s' halike hend
    obtain ⟨hresult, hend'⟩ := hp.forth _ _ (halike.opened inClass') ⟨hend.rest, hend.errors, hend.clean⟩
    exact ⟨hresult, hend'.rest, hend'.last, hend'.eof, hend'.errors, hend'.panicking, hend'.stopped,
      halike.depth, halike.inClass, hend'.noted⟩
  · exact fun hclean s' hs' => hp.keeps hclean _ hs'
  · exact fun hclean s s' halike hs hend => hp.faulty hclean _ _ (halike.opened inClass') hs hend

end

/-- What a step of a loop leads to, in other surroundings. -/
def Progress.image {γ δ : Type} (f : α → β) (g : γ → δ) : Progress α γ → Progress β δ
  | .again a => .again (f a)
  | .done b => .done (g b)

theorem eq_of_fst {p : Parse α} {r : Option α} (h : (p s).1 = r) : p s = (r, (p s).2) :=
  Prod.ext h rfl

theorem repeatWhile_keeps {step : α → Parse (Progress α β)}
    (h : ∀ a s, s.errors ≠ [] → (step a s).2.errors ≠ []) (a : α) (s : ParseState)
    (hstep : (step a s).2.errors ≠ []) : (Parse.repeatWhile step a s).2.errors ≠ [] := by
  fun_induction Parse.repeatWhile step a s with
  | case1 a s b t heq => rwa [heq] at hstep
  | case2 a s a' t heq hlt ih =>
    rw [heq] at hstep
    exact ih (h a' t hstep)
  | case3 a s a' t heq hlt => rwa [heq] at hstep
  | case4 a s t heq => rwa [heq] at hstep

theorem Carries.repeatWhile {γ δ : Type} (image : α → β) {image' : γ → δ} [hcovers : Covers c image]
    {step : α → Parse (Progress α γ)} {step' : β → Parse (Progress β δ)}
    (h : ∀ a, Carries c (Progress.image image image') (step a) (step' (image a))) (a : α) :
    Carries c image' (Parse.repeatWhile step a) (Parse.repeatWhile step' (image a)) := by
  have hback : ∀ a s, c.Allows (Parse.repeatWhile step a s).2 → c.Allows s := by
    intro a s hend
    fun_induction Parse.repeatWhile step a s with
    | case1 a s b t hstep => exact (h a).back s (hstep ▸ hend)
    | case2 a s a' t hstep hlt ih => exact (h a).back s (hstep ▸ ih hend)
    | case3 a s a' t hstep hlt => exact (h a).back s (hstep ▸ hend)
    | case4 a s t hstep => exact (h a).back s (hstep ▸ hend)
  have hkeeps : c.clean → ∀ b s', s'.errors ≠ [] → (step' b s').2.errors ≠ [] := by
    intro hclean b s' hs'
    obtain ⟨a, rfl⟩ := hcovers.onto hclean b
    exact (h a).keeps hclean s' hs'
  -- a step of one loop is a step of the other one, and both make the rest shorter or none does
  have forth : ∀ {a s s' r t}, step a s = (r, t) → c.Alike s s' → c.Allows t →
      (step' (image a) s').1 = r.map (Progress.image image image') ∧ c.Alike t (step' (image a) s').2 ∧
        ((step' (image a) s').2.weight < s'.weight ↔ t.weight < s.weight) := by
    intro a s s' r t hstep halike hend
    have key := (h a).forth s s' halike
    rw [hstep] at key
    obtain ⟨hresult, halike'⟩ := key hend
    refine ⟨hresult, halike', ?_⟩
    rw [halike.weight, halike'.weight]
    exact Nat.add_lt_add_iff_right
  refine ⟨hback a, fun s s' halike hend => ?_,
    fun hclean s' hs' => repeatWhile_keeps (hkeeps hclean) _ s' (hkeeps hclean _ s' hs'),
    fun hclean s s' halike hs hend => ?_⟩
  · fun_induction Parse.repeatWhile step a s generalizing s' with
    | case1 a s b t hstep | case4 a s t hstep =>
      obtain ⟨hresult, halike', -⟩ := forth hstep halike hend
      rw [Parse.repeatWhile.eq_def, eq_of_fst hresult]
      exact ⟨rfl, halike'⟩
    | case2 a s a' t hstep hlt ih =>
      obtain ⟨hresult, halike', hless⟩ := forth hstep halike (hback a' t hend)
      rw [Parse.repeatWhile.eq_def, eq_of_fst hresult]
      simp only [Option.map_some, Progress.image, hless.mpr hlt, if_true]
      exact ih _ halike' hend
    | case3 a s a' t hstep hlt =>
      obtain ⟨hresult, halike', hless⟩ := forth hstep halike hend
      rw [Parse.repeatWhile.eq_def, eq_of_fst hresult]
      simp only [Option.map_some, Progress.image, mt hless.mp hlt, if_false]
      exact ⟨rfl, halike'⟩
  · -- up to the first error both loops take the same steps, and from there on it stays
    fun_induction Parse.repeatWhile step a s generalizing s' with
    | case2 a s a' t hstep hlt ih =>
      have fault := (h a).faulty hclean s s' halike hs
      rw [hstep] at fault
      by_cases ht : t.errors = []
      · obtain ⟨hresult, halike', hless⟩ := forth hstep halike (c.allows_of_clean hclean ht)
        rw [Parse.repeatWhile.eq_def, eq_of_fst hresult]
        simp only [Option.map_some, Progress.image, hless.mpr hlt, if_true]
        exact ih _ halike' ht hend
      · exact repeatWhile_keeps (hkeeps hclean) _ s' (fault ht)
    | case1 a s b t hstep | case3 a s b t hstep | case4 a s t hstep =>
      have fault := (h a).faulty hclean s s' halike hs
      rw [hstep] at fault
      exact repeatWhile_keeps (hkeeps hclean) _ s' (fault hend)

/-! ## Reading -/

theorem Carries.peek : Carries c (Token.moved c.move) Parse.peek Parse.peek :=
  .ask fun _ _ halike hs => halike.next hs

theorem Carries.peekKind : Carries c id Parse.peekKind Parse.peekKind :=
  .ask fun _ _ halike hs => by rw [halike.next hs, Token.kind_moved, id]

theorem Carries.check (k : TokenKind) : Carries c id (Parse.check k) (Parse.check k) :=
  .ask fun _ _ halike hs => by rw [halike.next hs, Token.kind_moved, id]

theorem Carries.advance : Carries c (Token.moved c.move) Parse.advance Parse.advance := by
  have back : ∀ s : ParseState, c.Allows { s with rest := s.rest.drop 1 } → c.Allows s := by
    intro s hend
    refine hend.earlier (fun hne he => hne ?_) (List.suffix_refl _)
    simp [he]
  refine ⟨back, fun s s' halike hend => ⟨?_, halike.withRest ?_⟩, fun _ _ hs' => hs',
    fun _ _ _ _ hs hend => absurd hs hend⟩
  · exact congrArg some (halike.next (back s hend))
  · have hleft : c.whole ∨ s.rest.drop 1 ≠ [] := hend.rest
    rw [halike.rest]
    cases hrest : s.rest with
    | nil =>
      have hwhole : c.whole := hleft.resolve_right fun hne => hne (by simp [hrest])
      simp [c.nothing hwhole]
    | cons t rest => simp

theorem Carries.accept (k : TokenKind) : Carries c id (Parse.accept k) (Parse.accept k) := by
  refine (Carries.check k).bind fun b => Carries.ite Iff.rfl ?_ (Carries.pure rfl)
  exact Carries.advance.bind fun _ => .pure rfl

theorem Carries.atItemEnd : Carries c id Parse.atItemEnd Parse.atItemEnd :=
  Carries.peekKind.bind fun _ => .pure rfl

/-- Dropping tokens by their kinds. -/
theorem dropWhile_moved {move : Position → Position} (k : TokenKind → Bool) (tokens : List Token) :
    (tokens.map (Token.moved move)).dropWhile (k ·.kind) =
      (tokens.dropWhile (k ·.kind)).map (Token.moved move) := by
  induction tokens with
  | nil => rfl
  | cons t tokens ih =>
    rw [List.map_cons, List.dropWhile_cons, List.dropWhile_cons, Token.kind_moved]
    split
    · exact ih
    · rfl

/-- A change of the tokens ahead that only looks as far as it leaves some. -/
theorem Carries.changeRest {g : List Token → List Token} (hnil : g [] = [])
    (hmoved : ∀ ts : List Token, g (ts.map (Token.moved c.move)) = (g ts).map (Token.moved c.move))
    (happend : ∀ ts more, g ts ≠ [] → g (ts ++ more) = g ts ++ more) :
    Carries c id (Parse.change fun s => { s with rest := g s.rest })
      (Parse.change fun s => { s with rest := g s.rest }) := by
  refine .change (fun s hend => ?_) (fun s s' halike hend => halike.withRest ?_) (fun _ => rfl) fun _ => rfl
  · refine hend.earlier (fun hne he => hne ?_) (List.suffix_refl _)
    change g s.rest = []
    rw [he, hnil]
  · rw [halike.rest]
    rcases hend.rest with hwhole | hne
    · rw [c.nothing hwhole, List.append_nil, List.append_nil, hmoved]
    · rw [happend _ _ (by rw [hmoved]; exact List.map_eq_nil_iff.not.mpr hne), hmoved]

theorem Carries.skipNewlines : Carries c id Parse.skipNewlines Parse.skipNewlines := by
  refine .changeRest rfl (dropWhile_moved (· == .newline)) fun ts more hne => ?_
  rw [List.dropWhile_append, if_neg]
  simpa using hne

section
variable (closer : Option Bracket)
include closer

theorem resumeAt_suffix (level : Nat) (tokens : List Token) : resumeAt closer level tokens <:+ tokens := by
  fun_induction resumeAt closer level tokens <;>
    first
    | exact List.suffix_refl _
    | (rename_i ih; exact ih.trans (List.suffix_cons _ _))

theorem resumeAt_moved (level : Nat) (tokens : List Token) :
    resumeAt closer level (tokens.map (Token.moved c.move)) =
      (resumeAt closer level tokens).map (Token.moved c.move) := by
  fun_induction resumeAt closer level tokens <;> simp_all [resumeAt]

/-- Going on behind a faulty item does not look behind the place it goes on at. -/
theorem resumeAt_append (level : Nat) (tokens more : List Token) (h : resumeAt closer level tokens ≠ []) :
    resumeAt closer level (tokens ++ more) = resumeAt closer level tokens ++ more := by
  fun_induction resumeAt closer level tokens <;> simp_all [resumeAt]

theorem Carries.synchronize : Carries c id (Parse.synchronize closer) (Parse.synchronize closer) :=
  .changeRest (by simp [resumeAt]) (resumeAt_moved closer _) fun ts => resumeAt_append closer _ ts

end

theorem Carries.ended : Carries c id (Parse.ask fun s => s.atEnd || s.stopped)
    (Parse.ask fun s => s.atEnd || s.stopped) :=
  .ask fun _ _ halike hs => by rw [halike.atEnd hs, halike.stopped, id]

theorem Carries.calm : Carries c id Parse.calm Parse.calm := by
  refine .change (fun s hend => ⟨hend.rest, hend.errors, hend.clean⟩) (fun s s' halike _ => ?_)
    (fun _ => rfl) fun _ => rfl
  exact ⟨halike.rest, halike.last, halike.eof, halike.errors, rfl, halike.stopped, halike.depth,
    halike.inClass, fun h => halike.noted (.inr (h.resolve_left nofun))⟩

/-! ## Errors -/

/-- Whether an error is told at the place of the last one. -/
def repeats (errors : List ParseError) (e : ParseError) : Bool :=
  match errors with
  | last :: _ => last.pos.line == e.pos.line && last.pos.column == e.pos.column
  | [] => false

/-- The errors behind a report, and whether the parse stops there. -/
def reported (errors : List ParseError) (e : ParseError) : List ParseError × Bool :=
  if repeats errors e then (errors, false)
  else if errors.length + 1 < maxParseErrors then (e :: errors, false)
  else (⟨.general, e.pos, 1, .entry .tooManyErrors []⟩ :: e :: errors, true)

theorem suffix_reported (errors : List ParseError) (e : ParseError) : errors <:+ (reported errors e).1 := by
  unfold reported
  split
  · exact List.suffix_refl _
  · split
    · exact List.suffix_cons _ _
    · exact (List.suffix_cons _ _).trans (List.suffix_cons _ _)

def afterReport (e : ParseError) (s : ParseState) : ParseState :=
  if s.panicking || s.stopped then s
  else
    { s with
      panicking := true
      errors := (reported s.errors e).1
      stopped := (reported s.errors e).2 }

/-- An error is written down unless there is one already. -/
theorem errors_afterReport (hs : Noted s) (e : ParseError) : (afterReport e s).errors ≠ [] := by
  unfold afterReport
  split
  next h => exact hs (Bool.or_eq_true_iff.mp h)
  · unfold reported repeats
    cases s.errors with
    | nil => simp [maxParseErrors]
    | cons e' errors =>
      dsimp only
      split
      · simp
      · split <;> simp

theorem suffix_afterReport (e : ParseError) (s : ParseState) : s.errors <:+ (afterReport e s).errors := by
  unfold afterReport
  split
  · exact List.suffix_refl _
  · exact suffix_reported _ _

theorem reportAt_eq (fault : GrammarFault) (pos : Position) (length : Int) (message : Phrase) :
    Parse.reportAt fault pos length message =
      Parse.change (afterReport ⟨fault, pos, if length < 1 then 1 else length, message⟩) := by
  unfold Parse.reportAt
  congr 1
  funext s
  unfold afterReport
  split
  · rfl
  next hcalm =>
    have hstopped : s.stopped = false := by
      cases h : s.stopped <;> simp_all
    unfold reported repeats
    cases herrors : s.errors with
    | nil => simp [maxParseErrors, hstopped]
    | cons e errors =>
      dsimp only
      split
      · simp [hstopped]
      · simp only [List.length_cons]
        split
        · simp [hstopped]
        · rfl

section
variable (hmoves : Position.Moves c.move) (herrors : List.Forall₂ (ParseError.MovesTo c.move) errors errors')
  (he : e.MovesTo c.move e')
include hmoves herrors he

theorem repeats_moved (hne : errors ≠ []) : repeats (errors' ++ c.earlier) e' = repeats errors e := by
  cases herrors with
  | nil => exact absurd rfl hne
  | cons hlast _ =>
    simp only [repeats, List.cons_append, hlast.pos, he.pos, hmoves.column]
    rw [Bool.eq_iff_iff]
    simp [hmoves.line]

/-- A report in other surroundings, as long as those do not matter. -/
theorem reported_moved (hfits : c.earlier = [] ∨ (reported errors e).1.length + c.earlier.length < maxParseErrors ∧
      ∀ x ∈ (reported errors e).1, ∀ h ∈ c.earlier.head?,
        ¬ ((c.move x.pos).line = h.pos.line ∧ (c.move x.pos).column = h.pos.column)) :
    ∃ new, reported (errors' ++ c.earlier) e' = (new ++ c.earlier, (reported errors e).2) ∧
      List.Forall₂ (ParseError.MovesTo c.move) (reported errors e).1 new := by
  have hlength := herrors.length_eq
  have hrepeats : repeats (errors' ++ c.earlier) e' = repeats errors e := by
    by_cases hne : errors = []
    · subst hne
      cases herrors
      rcases hfits with hnone | ⟨-, hplace⟩
      · simp [hnone, repeats]
      · cases hold : c.earlier with
        | nil => rfl
        | cons h old =>
          have hfree := hplace e (by simp [reported, repeats, maxParseErrors]) h (by simp [hold])
          simp only [List.nil_append, repeats, Bool.and_eq_false_imp, beq_iff_eq, beq_eq_false_iff_ne, he.pos]
          exact fun hline hcolumn => hfree ⟨hline.symm, hcolumn.symm⟩
    · exact repeats_moved hmoves herrors he hne
  unfold reported at hfits ⊢
  rw [hrepeats]
  by_cases hrep : repeats errors e
  · simp only [hrep, if_true] at hfits ⊢
    exact ⟨errors', rfl, herrors⟩
  · simp only [hrep, Bool.false_eq_true, if_false] at hfits ⊢
    by_cases hcount : errors.length + 1 < maxParseErrors
    · have hcount' : (errors' ++ c.earlier).length + 1 < maxParseErrors := by
        simp only [hcount, if_true, List.length_cons] at hfits
        rw [List.length_append]
        rcases hfits with hnone | hfits
        · rw [hnone, List.length_nil]
          omega
        · omega
      simp only [hcount, hcount', if_true]
      exact ⟨e' :: errors', rfl, .cons he herrors⟩
    · have hnone : c.earlier = [] := by
        simp only [hcount, if_false, List.length_cons] at hfits
        rcases hfits with hnone | hfits
        · exact hnone
        · omega
      have hcount' : ¬ (errors' ++ c.earlier).length + 1 < maxParseErrors := by
        rw [hnone, List.append_nil]
        omega
      simp only [hcount, hcount', if_false]
      refine ⟨_ :: e' :: errors', rfl, .cons ⟨rfl, he.pos, rfl, .same _ rfl⟩ (.cons he herrors)⟩

end

/-- A report at the place that corresponds to another one. Where only runs without errors are compared,
any two reports correspond to each other. -/
theorem Carries.reportAt {pos pos' : Position} {length length' : Int} (h : c.clean ∨ Position.Moves c.move ∧
      pos' = c.move pos ∧ length' = length ∧ message.MovesTo c.move message') :
    Carries c id (Parse.reportAt fault pos length message) (Parse.reportAt fault pos' length' message') := by
  rw [reportAt_eq, reportAt_eq]
  refine ⟨fun s hend => ?_, fun s s' halike hend => ⟨rfl, ?_⟩, fun _ s' hs' he => ?_,
    fun hclean s s' halike hs _ => errors_afterReport ?_ _⟩
  · refine Setting.Allows.earlier hend (fun hne => ?_) (suffix_afterReport _ s)
    simp only [Parse.change] at hne
    unfold afterReport at hne
    split at hne <;> exact hne
  · rcases h with hclean | ⟨hmoves, hpos, rfl, hmessage⟩
    · exact absurd (hend.clean hclean) (errors_afterReport halike.noted _)
    have hnoted := errors_afterReport halike.noted
      ⟨fault, pos, if length' < 1 then 1 else length', message⟩
    simp only [Parse.change] at hend ⊢
    unfold afterReport at hend hnoted ⊢
    rw [halike.panicking, halike.stopped]
    split at hend
    next hpanic =>
      rw [if_pos hpanic, if_pos hpanic]
      exact halike
    next hcalm =>
      rw [if_neg hcalm] at hnoted
      rw [if_neg hcalm, if_neg hcalm]
      obtain ⟨errors, herrors, hmoved⟩ := halike.errors
      have he : ParseError.MovesTo c.move
          ⟨fault, pos, if length' < 1 then 1 else length', message⟩
          ⟨fault, pos', if length' < 1 then 1 else length', message'⟩ := ⟨rfl, hpos, rfl, hmessage⟩
      obtain ⟨new, hnew, hmoved'⟩ := reported_moved hmoves hmoved he hend.errors
      rw [herrors, hnew]
      exact ⟨halike.rest, halike.last, halike.eof, ⟨new, rfl, hmoved'⟩, rfl, rfl, halike.depth,
        halike.inClass, fun _ => hnoted⟩
  · have hsuffix := suffix_afterReport
      ⟨fault, pos', if length' < 1 then 1 else length', message'⟩ s'
    exact hs' (List.suffix_nil.mp (he ▸ hsuffix))
  · intro hpanic
    rw [halike.panicking, halike.stopped] at hpanic
    exact absurd hs (halike.noted hpanic)

section
variable {image : α → β}

theorem Carries.reportToken (t : Token) (hmessage : message.MovesTo c.move message') :
    Carries c id (Parse.reportToken fault t message) (Parse.reportToken fault (t.moved c.move) message') :=
  .reportAt (c.moves.imp_right fun h => ⟨h, rfl, rfl, hmessage⟩)

theorem Carries.reportUnexpected (t : Token) (expected : String) : Carries c id (Parse.reportUnexpected t expected)
      (Parse.reportUnexpected (t.moved c.move) expected) :=
  .reportToken t (.same _ rfl)

/-- Behind a report there is an error. -/
theorem Carries.reportUnexpectedThen {f : Unit → Parse α} {f' : Unit → Parse β} (t : Token)
    (expected : String) (hf : Resumes c image (f ()) (f' ())) :
    Carries c image (Parse.reportUnexpected t expected >>= f)
      (Parse.reportUnexpected (t.moved c.move) expected >>= f') := by
  refine (Carries.reportUnexpected t expected).bindOrResume fun _ => .inr ⟨hf, fun _ s s' halike _ => ?_⟩
  rw [Parse.reportUnexpected, Parse.reportToken, reportAt_eq]
  exact errors_afterReport halike.noted _

theorem Carries.failToken (t : Token) (hmessage : message.MovesTo c.move message') :
    Carries c image (Parse.failToken fault t message) (Parse.failToken fault (t.moved c.move) message') :=
  (Carries.reportToken t hmessage).bind fun _ => Carries.fail

theorem Carries.failUnexpected (t : Token) (expected : String) : Carries c image (Parse.failUnexpected t expected)
      (Parse.failUnexpected (t.moved c.move) expected) :=
  (Carries.reportUnexpected t expected).bind fun _ => Carries.fail

theorem Carries.failNode (n : Node) (message : Phrase) (h : message.tellsPlace = false) :
    Carries c image (Parse.failNode n message) (Parse.failNode (n.moved c.move) message) := by
  refine (Carries.reportAt (c.moves.imp_right fun hmoves => ?_)).bind fun _ => Carries.fail
  refine ⟨hmoves, Node.pos_moved hmoves n, ?_, .same _ h⟩
  simp only [Node.pos_moved hmoves, Node.finish_moved hmoves, hmoves.column, hmoves.line]

end

/-- A node that is refused among parameters is one of the nodes. -/
theorem mem_of_paramsOf {ns : List Node} {restSeen optsSeen : Bool} {n : Node}
    (h : paramsOf ns restSeen optsSeen = .error (n, message)) : n ∈ ns ∧ message.tellsPlace = false := by
  obtain ⟨ps, before, after, rfl, -, -, hmisfit⟩ := refuses_of_paramsOf h
  refine ⟨List.mem_append_right before List.mem_cons_self, ?_⟩
  cases hmisfit <;> rfl

end Parse

end Frontend
