import Frontend.Proofs.Parse.Transfer
import Frontend.Proofs.Tree.WellRead

/-!
# Disciplines of parsing rules

A discipline says what parsing rules may do to the state: read a token, take a bracket with what it
encloses, write an error down and go on behind it. Whatever is closed under these few moves holds of
every rule of the grammar.
-/

namespace Frontend

variable {n : Node} {u : ParseState} {fault : GrammarFault} {message : Phrase} {b : Bracket}

/-- A kind of token that a rule may read at any time: it ends no line and is no bracket. -/
def TokenKind.plain : TokenKind → Bool
  | .newline | .eof | .opening _ | .closing _ => false
  | _ => true

/-- The tokens behind line breaks. -/
def pastNewlines (tokens : List Token) : List Token := tokens.dropWhile (·.kind == .newline)

/-- The arrow in a node. A function made of it has a result that begins there. -/
def Node.arrow? : Node → Option Token
  | .arrow _ op _ => some op
  | _ => none

/-- A tree in which every node and every arrow begins at one of the given places and every name stands on
one of the given tokens. -/
inductive Node.Standing (Place : Position → Prop) (Name : Token → Prop) : Node → Prop where
  | intro {n : Node} (pos : Place n.pos) (arrow : ∀ t, n.arrow? = some t → Place t.pos)
      (names : ∀ i ∈ n.names, Name i.token) (children : ∀ m ∈ n.children, m.Standing Place Name) :
      n.Standing Place Name

section
variable {Place : Position → Prop} {Name : Token → Prop}

section
variable (h : n.Standing Place Name)
include h

theorem Node.Standing.pos : Place n.pos := by
  cases h with
  | intro pos _ _ _ => exact pos

theorem Node.Standing.arrow {t : Token} (ht : n.arrow? = some t) : Place t.pos := by
  cases h with
  | intro _ arrow _ _ => exact arrow t ht

theorem Node.Standing.name {i : Ident} (hi : i ∈ n.names) : Name i.token := by
  cases h with
  | intro _ _ names _ => exact names i hi

theorem Node.Standing.child {m : Node} (hm : m ∈ n.children) : m.Standing Place Name := by
  cases h with
  | intro _ _ _ children => exact children m hm

end

end

namespace Parse

/-- What parsing rules may do. -/
structure Discipline where
  /-- What is known of a state. -/
  Inv : ParseState → Prop
  /-- The places that errors may be told at. -/
  Place : Position → Prop
  /-- What is known of the tokens that names stand on. -/
  Name : Token → Prop := fun _ => True
  /-- A rule may lead from one state to another, with a result or without one. The first flag tells
  that it has read something. -/
  Does : Bool → ParseState → Bool → ParseState → Prop
  /-- The state stands behind an opening bracket. -/
  Opened : Bracket → ParseState → Prop
  eof : ∀ {s}, Inv s → s.last.kind = .eof
  next : ∀ {s}, Inv s → Place s.next.pos
  name : ∀ {s}, Inv s → s.next.kind = .ident → Name s.next := by
    intros
    trivial
  stay : ∀ s, Does false s true s
  weaken : ∀ {s ok t}, Does true s ok t → Does false s ok t
  trans : ∀ {r s t r' ok u}, Does r s true t → Does r' t ok u → Does (r || r') s ok u
  /-- A loop that does not get on ends without a result. -/
  stuck : ∀ {s t}, Does true s true t → ¬ t.weight < s.weight → Does true s false t
  pass : ∀ {s token rest}, Inv s → s.rest = token :: rest → token.kind.plain = true →
    Inv { s with rest } ∧ Does true s true { s with rest }
  report : ∀ {s e}, Inv s → Place e.pos →
    Inv (afterReport e s) ∧ Does true s false (afterReport e s)
  split : ∀ {s}, Inv s →
    Inv { s with rest := splitFirst s.rest } ∧ Does false s true { s with rest := splitFirst s.rest }
  calm : ∀ {s}, Inv s →
    Inv { s with panicking := false } ∧ Does false s true { s with panicking := false }
  /-- Line breaks may be passed over inside brackets, and in front of a token that is read. -/
  skip : ∀ {s}, Inv s → 0 < s.depth ∨ pastNewlines s.rest ≠ [] →
    Inv { s with rest := pastNewlines s.rest } ∧
      ∀ ok t, Does true { s with rest := pastNewlines s.rest } ok t → Does true s ok t
  openUp : ∀ {s opener rest b} depth inClass, Inv s → s.rest = opener :: rest →
    opener.kind = .opening b → Inv { s with rest, depth, inClass } ∧ Opened b { s with rest, depth, inClass }
  /-- A bracket is closed, perhaps behind line breaks. -/
  close : ∀ {s opener rest b depth inClass r t closer rest'}, Inv s → s.rest = opener :: rest →
    opener.kind = .opening b → Inv t → Does r { s with rest, depth, inClass } true t →
    pastNewlines t.rest = closer :: rest' → closer.kind = .closing b →
    Inv { t with rest := rest', depth := s.depth, inClass := s.inClass } ∧
      Does true s true { t with rest := rest', depth := s.depth, inClass := s.inClass }
  /-- A bracket is given up. -/
  abandon : ∀ {s opener rest b depth inClass r t}, Inv s → s.rest = opener :: rest →
    opener.kind = .opening b → Inv t → Does r { s with rest, depth, inClass } false t →
    Inv { t with depth := s.depth, inClass := s.inClass } ∧
      Does true s false { t with depth := s.depth, inClass := s.inClass }
  /-- Behind an error inside a bracket, reading goes on at the end of the item. -/
  resume : ∀ {s b r t}, Opened b s → Inv t → Does r s false t →
    Inv { t with rest := resumeAt (some b) 0 t.rest } ∧
      Does false s true { t with rest := resumeAt (some b) 0 t.rest } ∧
      Does true s false { t with rest := resumeAt (some b) 0 t.rest }

namespace Discipline

variable {d : Discipline} {s t : ParseState} {α β : Type}

theorem does (h : d.Does false s true t) {ok : Bool} (h' : d.Does true t ok u) : d.Does true s ok u := d.trans h h'

/-- What every rule puts back: the settings of a state, and the end of input. -/
def SameSettings (s t : ParseState) : Prop :=
  t.depth = s.depth ∧ t.inClass = s.inClass ∧ t.last = s.last

theorem SameSettings.refl (s : ParseState) : SameSettings s s := ⟨rfl, rfl, rfl⟩

theorem SameSettings.trans (h : SameSettings s t) (h' : SameSettings t u) : SameSettings s u :=
  ⟨h'.1.trans h.1, h'.2.1.trans h.2.1, h'.2.2.trans h.2.2⟩

/-- What a rule comes to when it keeps to a discipline and its result has a property. `reads` tells for
which results something has been read. -/
structure Outcome (d : Discipline) (reads : α → Bool) (s : ParseState) (r : Option α × ParseState)
    (Q : α → Prop) : Prop where
  inv : d.Inv r.2
  settings : SameSettings s r.2
  done : ∀ a, r.1 = some a → d.Does (reads a) s true r.2 ∧ Q a
  failed : r.1 = none → d.Does true s false r.2

/-- A rule keeps to a discipline, and its result has a property. -/
def Runs (d : Discipline) (reads : α → Bool) (s : ParseState) (p : Parse α) (Q : α → Prop) : Prop :=
  d.Inv s → d.Outcome reads s (p s) Q

/-- A rule that may read something. -/
abbrev Keeps (d : Discipline) (s : ParseState) (p : Parse α) (Q : α → Prop) : Prop :=
  d.Runs (fun _ => false) s p Q

/-- A rule that reads something whenever it has a result. -/
abbrev Eats (d : Discipline) (s : ParseState) (p : Parse α) (Q : α → Prop) : Prop :=
  d.Runs (fun _ => true) s p Q

section
variable {reads : α → Bool} {p : Parse α} {Q R : α → Prop} {f : α → Parse β} {S : β → Prop}
  {reads' : β → Bool}

theorem Outcome.of_some {a : α} (hinv : d.Inv t) (hsettings : SameSettings s t)
    (hdoes : d.Does (reads a) s true t) (ha : Q a) : d.Outcome reads s (some a, t) Q :=
  ⟨hinv, hsettings, fun _ h => by cases h; exact ⟨hdoes, ha⟩, nofun⟩

theorem Outcome.of_none (hinv : d.Inv t) (hsettings : SameSettings s t)
    (hdoes : d.Does true s false t) : d.Outcome reads s (none, t) Q :=
  ⟨hinv, hsettings, nofun, fun _ => hdoes⟩

theorem Runs.eats {reads' : α → Bool} (h : d.Eats s p Q) : d.Runs reads' s p Q := by
  intro hs
  have o := h hs
  refine ⟨o.inv, o.settings, fun a ha => ⟨?_, (o.done a ha).2⟩, o.failed⟩
  cases reads' a with
  | true => exact (o.done a ha).1
  | false => exact d.weaken (o.done a ha).1

theorem Runs.pure {a : α} (hr : reads a = false) (h : Q a) : d.Runs reads s (Pure.pure a) Q :=
  fun hs => .of_some hs (.refl s) (hr ▸ d.stay s) h

theorem Runs.seq {r : Bool} (hp : d.Runs (fun _ => r) s p Q)
    (hf : ∀ a t, p s = (some a, t) → Q a → d.Runs reads' t (f a) S) :
    d.Runs (fun b => r || reads' b) s (p >>= f) S := by
  intro hs
  have o := hp hs
  cases hr : p s with
  | mk a? t =>
    rw [hr] at o
    cases a? with
    | none =>
      rw [bind_apply_none hr]
      exact .of_none o.inv o.settings (o.failed rfl)
    | some a =>
      rw [bind_apply_some hr]
      obtain ⟨hdoes, ha⟩ := o.done a rfl
      have o' := hf a t hr ha o.inv
      refine ⟨o'.inv, o.settings.trans o'.settings, fun b hb => ⟨?_, (o'.done b hb).2⟩, fun hn => ?_⟩
      · exact d.trans hdoes (o'.done b hb).1
      · have key := d.trans hdoes (o'.failed hn)
        rwa [Bool.or_true] at key

theorem Runs.bind (hp : d.Keeps s p Q) (hf : ∀ a t, p s = (some a, t) → Q a → d.Runs reads' t (f a) S) :
    d.Runs reads' s (p >>= f) S := hp.seq hf

/-- Behind a rule that reads something, nothing more needs to be read. -/
theorem Runs.andThen (hp : d.Eats s p Q)
    (hf : ∀ a t, p s = (some a, t) → Q a → d.Keeps t (f a) S) : d.Runs reads' s (p >>= f) S :=
  .eats (hp.seq hf)

theorem Runs.ite {c : Prop} [Decidable c] {q : Parse α} (hp : c → d.Runs reads s p Q)
    (hq : ¬ c → d.Runs reads s q Q) : d.Runs reads s (if c then p else q) Q := by
  by_cases h : c
  · rw [if_pos h]
    exact hp h
  · rw [if_neg h]
    exact hq h

/-- A question is answered on the spot. -/
theorem Runs.ask {g : ParseState → α} (h : d.Runs reads' s (f (g s)) S) : d.Runs reads' s (Parse.ask g >>= f) S := h

/-! ## Reading and reporting -/

theorem rest_eq_next (hs : d.Inv s) (hk : s.next.kind ≠ .eof) : s.rest = s.next :: s.rest.drop 1 := by
  have hne := rest_ne_nil_of_kind (d.eof hs) hk
  unfold ParseState.next
  cases h : s.rest with
  | nil => exact absurd h hne
  | cons t rest => simp

theorem Eats.advance (hk : s.next.kind.plain = true) :
    d.Eats s Parse.advance fun t => t = s.next ∧ d.Place t.pos := by
  intro hs
  have hrest : s.rest = s.next :: s.rest.drop 1 := by
    refine rest_eq_next hs fun he => ?_
    rw [he] at hk
    cases hk
  obtain ⟨hinv, hdoes⟩ := d.pass hs hrest hk
  exact .of_some hinv ⟨rfl, rfl, rfl⟩ hdoes ⟨rfl, d.next hs⟩

/-- Reading a token that is neither a bracket nor a line break. -/
theorem Runs.advance {f : Token → Parse β} (hk : s.next.kind.plain = true)
    (h : ∀ t, d.Place s.next.pos → d.Keeps t (f s.next) S) : d.Runs reads' s (Parse.advance >>= f) S := by
  refine .andThen (.advance hk) fun token t _ ⟨htoken, hplace⟩ => ?_
  subst htoken
  exact h t hplace

theorem Runs.accept {k : TokenKind} (hk : k.plain = true) {f : Bool → Parse β}
    (hyes : s.next.kind = k → ∀ t, t.rest.length ≤ s.rest.length → d.Keeps t (f true) S)
    (hno : s.next.kind ≠ k → d.Runs reads' s (f false) S) : d.Runs reads' s (Parse.accept k >>= f) S := by
  by_cases h : s.next.kind = k
  · have hread : d.Eats s (Parse.accept k) (· = true) := by
      unfold Parse.accept
      refine .ask (.ite (fun _ => ?_) fun hne => absurd (beq_iff_eq.mpr h) hne)
      exact .advance (h ▸ hk) fun t _ => .pure rfl rfl
    refine .andThen hread fun b t ht hb => ?_
    subst hb
    have hlength := (NonGrowing.accept k s).1
    rw [ht] at hlength
    exact hyes h t hlength
  · have hstay : Parse.accept k s = (some false, s) := by
      have hne : ¬ (s.next.kind == k) = true := fun he => h (beq_iff_eq.mp he)
      unfold Parse.accept
      exact (bind_apply_some rfl).trans (by rw [if_neg hne]; rfl)
    intro hs
    rw [bind_apply_some hstay]
    exact hno h hs

theorem settings_afterReport (e : ParseError) (s : ParseState) : SameSettings s (afterReport e s) := by
  unfold afterReport
  split <;> exact ⟨rfl, rfl, rfl⟩

/-- An error is written down, and there is no result. -/
theorem Runs.failAt {pos : Position} {length : Int} (hpos : d.Inv s → d.Place pos) :
    d.Runs reads s (do Parse.reportAt fault pos length message; Parse.fail) Q := by
  intro hs
  rw [reportAt_eq]
  obtain ⟨hinv, hdoes⟩ := d.report hs
    (e := ⟨fault, pos, if length < 1 then 1 else length, message⟩) (hpos hs)
  exact .of_none hinv (settings_afterReport _ s) hdoes

theorem Runs.failToken {token : Token} (h : d.Place token.pos) :
    d.Runs reads s (Parse.failToken fault token message) Q :=
  .failAt fun _ => h

theorem Runs.failNext : d.Runs reads s (Parse.failToken fault s.next message) Q :=
  .failAt d.next

theorem Runs.failNode (h : n.Standing d.Place d.Name) : d.Runs reads s (Parse.failNode n message) Q :=
  .failAt fun _ => h.pos

/-- Line breaks are passed over inside brackets, or because something follows that is read. -/
theorem Runs.skipNewlines {f : Unit → Parse β} (h : 0 < s.depth ∨ pastNewlines s.rest ≠ [])
    (hf : d.Eats { s with rest := pastNewlines s.rest } (f ()) S) :
    d.Runs reads' s (Parse.skipNewlines >>= f) S := by
  refine .eats fun hs => ?_
  obtain ⟨hinv, hdoes⟩ := d.skip hs h
  have o := hf hinv
  exact ⟨o.inv, o.settings, fun b hb => ⟨hdoes _ _ (o.done b hb).1, (o.done b hb).2⟩,
    fun hn => hdoes _ _ (o.failed hn)⟩

theorem Runs.splitNegative {f : Unit → Parse β}
    (hf : ∀ t, d.Runs reads' t (f ()) S) : d.Runs reads' s (Parse.splitNegative >>= f) S := by
  have hsplit : d.Keeps s Parse.splitNegative fun _ => True := by
    intro hs
    rw [splitNegative_eq]
    obtain ⟨hinv, hdoes⟩ := d.split hs
    exact .of_some hinv ⟨rfl, rfl, rfl⟩ hdoes trivial
  exact hsplit.bind fun _ t _ _ => hf t

/-! ## Loops -/

/-- A step of a loop has read something if the loop goes on. -/
def goesOn {γ : Type} : Progress α γ → Bool
  | .again _ => true
  | .done _ => false

/-- What a step of a loop leads to satisfies the invariant, or the loop is over with its result. -/
def leadsTo {γ : Type} (I : α → Prop) (P : γ → Prop) : Progress α γ → Prop
  | .again a => I a
  | .done b => P b

variable {step : α → Parse (Progress α β)}

theorem Runs.repeatWhile {I : α → Prop} {K : ParseState → Prop} {a : α}
    (h : ∀ a t, I a → K t → d.Runs goesOn t (step a) (leadsTo I S))
    (hnext : ∀ a t a' u, step a t = (some (.again a'), u) → K u) (ha : I a) (hK : K s) :
    d.Keeps s (Parse.repeatWhile step a) S := by
  intro hs
  fun_induction Parse.repeatWhile step a s with
  | case1 a s b t hstep =>
    have o := h a s ha hK hs
    rw [hstep] at o
    exact .of_some o.inv o.settings (o.done _ rfl).1 (o.done _ rfl).2
  | case2 a s a' t hstep hlt ih =>
    have o := h a s ha hK hs
    rw [hstep] at o
    obtain ⟨hdoes, ha'⟩ := o.done _ rfl
    have o' := ih ha' (hnext a s a' t hstep) o.inv
    refine ⟨o'.inv, o.settings.trans o'.settings, fun b hb => ⟨?_, (o'.done b hb).2⟩, fun hn => ?_⟩
    · exact d.weaken (d.trans hdoes (o'.done b hb).1)
    · exact d.trans hdoes (o'.failed hn)
  | case3 a s a' t hstep hlt =>
    have o := h a s ha hK hs
    rw [hstep] at o
    exact .of_none o.inv o.settings (d.stuck (o.done _ rfl).1 hlt)
  | case4 a s t hstep =>
    have o := h a s ha hK hs
    rw [hstep] at o
    exact .of_none o.inv o.settings (o.failed rfl)

/-- A loop that may start a step anywhere. -/
theorem Runs.loop {I : α → Prop} {a : α} (h : ∀ a t, I a → d.Runs goesOn t (step a) (leadsTo I S)) (ha : I a) :
    d.Keeps s (Parse.repeatWhile step a) S :=
  .repeatWhile (K := fun _ => True) (fun a t ha _ => h a t ha) (fun _ _ _ _ _ => trivial) ha trivial

/-- A loop whose first step goes on reads something. -/
theorem Eats.loop {I : α → Prop} {a : α} (h : ∀ a t, I a → d.Runs goesOn t (step a) (leadsTo I S)) (ha : I a)
    (hfirst : ∀ b t, step a s ≠ (some (.done b), t)) : d.Eats s (Parse.repeatWhile step a) S := by
  intro hs
  have o := h a s ha hs
  rw [Parse.repeatWhile.eq_def]
  split
  next b t hstep => exact absurd hstep (hfirst b t)
  next a' t hstep =>
    rw [hstep] at o
    obtain ⟨hdoes, ha'⟩ := o.done _ rfl
    split
    · have o' := Runs.loop h ha' o.inv
      refine ⟨o'.inv, o.settings.trans o'.settings,
        fun b hb => ⟨?_, (o'.done b hb).2⟩, fun hn => d.trans hdoes (o'.failed hn)⟩
      exact d.trans hdoes (o'.done b hb).1
    next hlt => exact .of_none o.inv o.settings (d.stuck hdoes hlt)
  next t hstep =>
    rw [hstep] at o
    exact .of_none o.inv o.settings (o.failed rfl)

/-! ## Brackets -/

/-- What the inside of a bracket comes to: it ends behind the closing bracket, or without a result. -/
structure Closing (d : Discipline) (b : Bracket) (s : ParseState) (r : Option α × ParseState)
    (Q : α → Prop) : Prop where
  settings : SameSettings s r.2
  done : ∀ a, r.1 = some a → Q a ∧ ∃ t closer rest, d.Inv t ∧ d.Does false s true t ∧
    pastNewlines t.rest = closer :: rest ∧ closer.kind = .closing b ∧ r.2 = { t with rest }
  failed : r.1 = none → d.Inv r.2 ∧ d.Does true s false r.2

theorem Closing.of_none (hsettings : SameSettings s t) (hinv : d.Inv t) (hdoes : d.Does true s false t) :
    d.Closing b s (none, t) Q :=
  ⟨hsettings, nofun, fun _ => ⟨hinv, hdoes⟩⟩

/-- A rule reads the inside of a bracket and the closing bracket. -/
def Closes (d : Discipline) (b : Bracket) (s : ParseState) (p : Parse α) (Q : α → Prop) : Prop :=
  d.Inv s → d.Opened b s → 0 < s.depth → d.Closing b s (p s) Q

/-- A bracket with its inside. -/
theorem outcome_inBrackets {inClass : Bool} (hs : d.Inv s) (hk : s.next.kind = .opening b)
    (h : ∀ t, d.Closes b t p Q) :
    d.Outcome (fun _ => true) s (Parse.inBrackets inClass p { s with rest := s.rest.drop 1 }) Q := by
  have hrest : s.rest = s.next :: s.rest.drop 1 := rest_eq_next hs (by simp [hk])
  obtain ⟨hinv, hopened⟩ := d.openUp (s.depth + 1) inClass hs hrest hk
  have o := h _ hinv hopened (Nat.succ_pos _)
  unfold Parse.inBrackets
  dsimp only
  generalize p { s with rest := s.rest.drop 1, depth := s.depth + 1, inClass } = r at o ⊢
  obtain ⟨a?, u⟩ := r
  cases a? with
  | none =>
    obtain ⟨hinv', hdoes⟩ := o.failed rfl
    obtain ⟨hinv'', hdoes'⟩ := d.abandon hs hrest hk hinv' hdoes
    exact .of_none hinv'' ⟨rfl, rfl, o.settings.2.2⟩ hdoes'
  | some a =>
    obtain ⟨ha, t, closer, rest, hinv', hdoes, hclose, hkind, rfl⟩ := o.done a rfl
    obtain ⟨hinv'', hdoes'⟩ := d.close hs hrest hk hinv' hdoes hclose hkind
    exact .of_some hinv'' ⟨rfl, rfl, o.settings.2.2⟩ hdoes' ha

/-- Behind something done inside a bracket and line breaks, the closing bracket is read or missed. -/
theorem closing_next {g : Token → α} {message : Token → Phrase} (hdepth : 0 < s.depth) (hu : d.Inv u)
    (hdoes : d.Does false s true u) (hsettings : SameSettings s u) (hg : ∀ closer, Q (g closer)) :
    d.Closing b s ((Parse.peek >>= fun t =>
      if t.kind == TokenKind.closing b then Parse.advance >>= fun closer => pure (g closer)
      else Parse.failToken fault t (message t)) { u with rest := pastNewlines u.rest }) Q := by
  have hdeep : 0 < u.depth ∨ pastNewlines u.rest ≠ [] := .inl (hsettings.1 ▸ hdepth)
  obtain ⟨hv, hskip⟩ := d.skip hu hdeep
  generalize hveq : ({ u with rest := pastNewlines u.rest } : ParseState) = v at hv hskip ⊢
  have hsettings' : SameSettings s v := by
    subst hveq
    exact hsettings
  rw [peek_bind]
  by_cases hk : v.next.kind = .closing b
  · have hrest : v.rest = v.next :: v.rest.drop 1 := rest_eq_next hv (by simp [hk])
    rw [if_pos (beq_iff_eq.mpr hk)]
    refine ⟨hsettings', fun a ha => ?_, nofun⟩
    cases ha
    refine ⟨hg _, u, v.next, v.rest.drop 1, hu, hdoes, ?_, hk, ?_⟩
    · rw [← hrest, ← hveq]
    · rw [← hveq]
      rfl
  · rw [if_neg fun he => hk (beq_iff_eq.mp he)]
    have hfail : d.Eats v (Parse.failToken fault v.next (message v.next)) Q := .failNext
    have o := hfail hv
    refine ⟨hsettings'.trans o.settings, fun a ha => ?_, fun hn => ⟨o.inv, d.trans hdoes (hskip _ _ (o.failed hn))⟩⟩
    cases ha

end

end Discipline

end Parse

end Frontend
