import Frontend.Proofs.Token.Scan

/-!
# Sources joined by a newline

A newline ends whatever the scanner has pending, in the same way as the end of the text does. So a text
that is accepted brings the scanner to rest at the newline behind it, and what follows is scanned as if
it stood alone, only further down.
-/

namespace Frontend

/-- The place some lines and bytes further down. -/
def Position.down (lines bytes : Int) (p : Position) : Position :=
  { p with line := p.line + lines, offset := p.offset + bytes }

/-- The token at another place. -/
def Token.moved (move : Position → Position) (t : Token) : Token := { t with pos := move t.pos }

@[simp] theorem Token.kind_moved (move : Position → Position) (t : Token) : (t.moved move).kind = t.kind := rfl

/-- The mode of a scanner at another place. -/
def ScanMode.moved (move : Position → Position) : ScanMode → ScanMode
  | .plain => .plain
  | .lineComment => .lineComment
  | .blockComment opened => .blockComment (move opened)
  | .quoted quote opened => .quoted quote (move opened)

theorem Position.down_after (lines bytes : Int) (p : Position) (l : Letter) :
    (p.after l).down lines bytes = (p.down lines bytes).after l := by
  unfold after down
  split
  · simp only [Position.mk.injEq, true_and]
    omega
  · simp only [Position.mk.injEq, true_and]
    omega

theorem Position.line_after_pos {p : Position} (h : 0 < p.line) (l : Letter) : 0 < (p.after l).line := by
  unfold after
  split
  · simp only
    omega
  · exact h

/-- The place behind a text. -/
def Position.behind (p : Position) (src : Source) : Position := src.foldl after p

/-- Behind a newline stands the first column of a line further down. -/
theorem Position.behind_newline (p : Position) (src : Source) : p.behind (src ++ [Letter.char '\n']) =
      ⟨p.file, p.line + (src.count (.char '\n') + 1), 1, p.offset + (src.byteSize + 1)⟩ := by
  induction src generalizing p with
  | nil => simp [behind, after, Letter.is, Char.utf8Size]
  | cons l src ih =>
    have hstep : p.behind (l :: src ++ [Letter.char '\n']) = (p.after l).behind (src ++ [Letter.char '\n']) := rfl
    rw [hstep, ih, Source.byteSize_cons, List.count_cons]
    unfold after
    unfold Letter.is
    split
    · simp only [Position.mk.injEq, true_and]
      omega
    · simp only [Position.mk.injEq, true_and]
      omega

/-- Two attempts that both succeed, with results that are alike, or both fail. -/
inductive SameFate {α β : Type} (R : α → β → Prop) : Except ScanError α → Except ScanError β → Prop where
  | ok {a : α} {b : β} (h : R a b) : SameFate R (.ok a) (.ok b)
  | error (e e' : ScanError) : SameFate R (.error e) (.error e')

theorem SameFate.bind {α β γ δ : Type} {R : α → β → Prop} {Q : γ → δ → Prop}
    {x : Except ScanError α} {y : Except ScanError β} {f : α → Except ScanError γ} {g : β → Except ScanError δ}
    (h : SameFate R x y) (hf : ∀ a b, R a b → SameFate Q (f a) (g b)) : SameFate Q (x >>= f) (y >>= g) := by
  cases h with
  | ok h => exact hf _ _ h
  | error e e' => exact .error e e'

theorem SameFate.ite {α β : Type} {R : α → β → Prop} {c : Prop} [Decidable c]
    {x x' : Except ScanError α} {y y' : Except ScanError β} (h : SameFate R x y) (h' : SameFate R x' y') :
    SameFate R (if c then x else x') (if c then y else y') := by
  split
  · exact h
  · exact h'

theorem SameFate.weaken {α β : Type} {R Q : α → β → Prop} {x : Except ScanError α}
    {y : Except ScanError β} (h : SameFate R x y) (hQ : ∀ a b, R a b → Q a b) : SameFate Q x y := by
  cases h with
  | ok h => exact .ok (hQ _ _ h)
  | error e e' => exact .error e e'

namespace Scanner

/-- Tokens behind which a line begins. -/
def LineBegins (made : List Token) : Prop := ∀ token ∈ made.head?, token.kind = .newline

/-- Another place to scan at, behind some tokens made earlier. -/
structure Elsewhere where
  move : Position → Position
  earlier : List Token
  after : ∀ p l, 0 < p.line → move (p.after l) = (move p).after l
  begins : LineBegins earlier

variable {e : Elsewhere} {s t : Scanner}

/-- A scanner that does elsewhere what another one does. Where the lexeme and the operator began is only
noted while there is one. -/
structure Follows (e : Elsewhere) (s t : Scanner) : Prop where
  line : 0 < s.place.line
  place : t.place = e.move s.place
  mode : t.mode = s.mode.moved e.move
  gathered : t.gathered = s.gathered
  lexemePos : (∀ quote pos, s.mode ≠ .quoted quote pos) → s.gathered ≠ [] →
    t.lexemePos = e.move s.lexemePos
  sign : t.sign = s.sign
  signPos : s.sign ≠ "" → t.signPos = e.move s.signPos
  made : t.made = s.made.map (Token.moved e.move) ++ e.earlier

theorem run_cons (s : Scanner) (l : Letter) (rest : Source) : s.run (l :: rest) =
    (s.step l rest.head? >>= fun r => r.1.run (if r.2 then rest.tail else rest)) := by
  rw [Scanner.run]
  cases s.step l rest.head? with
  | error e => rfl
  | ok r =>
    obtain ⟨t, used⟩ := r
    cases used with
    | false => rfl
    | true => cases rest <;> rfl

section
variable (h : Follows e s t)
include h

theorem Follows.lexeme : t.lexeme = s.lexeme := by
  simp [Scanner.lexeme, h.gathered]

theorem Follows.advance (l : Letter) : Follows e (s.advance l) (t.advance l) := by
  rw [advance_eq s, advance_eq t]
  refine ⟨?_, ?_, h.mode, h.gathered, h.lexemePos, h.sign, h.signPos, h.made⟩
  · exact Position.line_after_pos h.line l
  · rw [h.place, e.after s.place l h.line]

theorem Follows.push (token : Token) : Follows e (s.push token) (t.push (token.moved e.move)) := by
  refine ⟨h.line, h.place, h.mode, h.gathered, h.lexemePos, h.sign, h.signPos, ?_⟩
  simp [Scanner.push, h.made]

/-- The newline rule looks at the token before it: behind a line break there may as well be none. -/
theorem Follows.breakLine {pos pos' : Position} (hpos : pos' = e.move pos) :
    Follows e (s.breakLine pos) (t.breakLine pos') := by
  subst hpos
  unfold Scanner.breakLine
  rw [h.made]
  cases hmade : s.made with
  | nil =>
    cases hold : e.earlier with
    | nil => exact h
    | cons token old =>
      have hnewline : token.kind = .newline := e.begins token (by simp [hold])
      simpa [hnewline] using h
  | cons token made =>
    by_cases hk : token.kind = .newline
    · simpa [hk] using h
    · simpa [hk, Token.moved, Token.newline] using h.push (.newline pos)

theorem Follows.gather (hmode : ∀ quote pos, s.mode ≠ .quoted quote pos) (c : Char) :
    Follows e (s.gather c) (t.gather c) := by
  unfold Scanner.gather
  rw [h.gathered]
  split
  · exact ⟨h.line, h.place, h.mode, rfl, fun _ _ => h.place, h.sign, h.signPos, h.made⟩
  next hempty =>
    refine ⟨h.line, h.place, h.mode, rfl, fun _ _ => h.lexemePos hmode ?_, h.sign, h.signPos, h.made⟩
    exact fun he => hempty (List.isEmpty_iff.mpr he)

/-- Where nothing is gathered, the mode may change. -/
theorem Follows.withMode (hgathered : s.gathered = []) (mode : ScanMode) : Follows e { s with mode }
      { t with mode := mode.moved e.move } :=
  ⟨h.line, h.place, rfl, h.gathered, fun _ hne => absurd hgathered hne, h.sign, h.signPos, h.made⟩

theorem Follows.flushLexeme (hmode : ∀ quote pos, s.mode ≠ .quoted quote pos) :
    SameFate (fun u v => Follows e u v ∧ u.mode = s.mode ∧ u.gathered = []) s.flushLexeme t.flushLexeme := by
  unfold Scanner.flushLexeme
  rw [h.gathered, h.lexeme]
  split
  next hempty => exact .ok ⟨h, rfl, List.isEmpty_iff.mp hempty⟩
  next hempty =>
    have hpos := h.lexemePos hmode fun he => hempty (List.isEmpty_iff.mpr he)
    rw [hpos]
    dsimp only [Token.ofText]
    split
    · exact .error _ _
    · refine .ok ⟨⟨h.line, h.place, h.mode, rfl, fun _ hne => absurd rfl hne, h.sign, h.signPos, ?_⟩, rfl, rfl⟩
      simp [h.made, Token.moved]

theorem Follows.flushSign : SameFate (fun u v => Follows e u v ∧ u.mode = s.mode ∧ u.gathered = s.gathered)
      s.flushSign t.flushSign := by
  unfold Scanner.flushSign
  rw [h.sign]
  split
  · exact .ok ⟨h, rfl, rfl⟩
  next hempty =>
    have hpos := h.signPos fun he => hempty (String.isEmpty_iff.mpr he)
    rw [hpos]
    split
    · exact .error _ _
    · refine .ok ⟨⟨h.line, h.place, h.mode, h.gathered, h.lexemePos, rfl, fun hne => absurd rfl hne, ?_⟩, rfl, rfl⟩
      simp [h.made, Token.moved, Token.ofText]

theorem Follows.flush (hmode : ∀ quote pos, s.mode ≠ .quoted quote pos) :
    SameFate (fun u v => Follows e u v ∧ u.gathered = []) s.flush t.flush := by
  refine (h.flushLexeme hmode).bind fun u v ⟨huv, _, hgathered⟩ => ?_
  exact huv.flushSign.weaken fun _ _ ⟨hfollows, _, hsame⟩ => ⟨hfollows, hsame.trans hgathered⟩

theorem Follows.withSign (sign : String) : Follows e { s with sign, signPos := s.place }
      { t with sign, signPos := t.place } :=
  ⟨h.line, h.place, h.mode, h.gathered, h.lexemePos, rfl, fun _ => h.place, h.made⟩

theorem Follows.pushSign (c : Char) : SameFate (Follows e) (s.pushSign c) (t.pushSign c) := by
  unfold Scanner.pushSign
  rw [h.sign]
  dsimp only
  split
  · exact .ok (h.withSign _)
  next hempty =>
    split
    · have hpos := h.signPos fun he => hempty (String.isEmpty_iff.mpr he)
      exact .ok ⟨h.line, h.place, h.mode, h.gathered, h.lexemePos, rfl, fun _ => hpos, h.made⟩
    · refine h.flushSign.bind fun u v ⟨huv, _, _⟩ => .ok ?_
      exact ⟨huv.line, huv.place, huv.mode, huv.gathered, huv.lexemePos, rfl, fun _ => h.place, huv.made⟩

omit h

/-- What two steps that do the same come to. -/
abbrev Follows.Steps (e : Elsewhere) :
    Scanner × Bool → Scanner × Bool → Prop :=
  fun r r' => Follows e r.1 r'.1 ∧ r'.2 = r.2

include h

theorem Follows.stepQuoted {quote : Char} {opened : Position}
    (hmode : s.mode = .quoted quote opened) (l : Letter) (next : Option Letter) :
    SameFate (Follows.Steps e) (s.stepQuoted quote opened l next) (t.stepQuoted quote (e.move opened) l next) := by
  have inside : ∀ gathered, Follows e { s with gathered } { t with gathered } :=
    fun _ => ⟨h.line, h.place, h.mode, rfl, fun hfree => absurd hmode (hfree quote opened), h.sign, h.signPos,
      h.made⟩
  unfold Scanner.stepQuoted
  rw [h.lexeme, h.gathered]
  split
  · have closed : Follows e
        { s with gathered := [], mode := .plain, made := .ofString s.lexeme opened :: s.made }
        { t with gathered := [], mode := .plain,
                 made := .ofString s.lexeme (e.move opened) :: t.made } :=
      ⟨h.line, h.place, rfl, rfl, fun _ hne => absurd rfl hne, h.sign, h.signPos, by
        simp [h.made, Token.moved, Token.ofString]⟩
    exact .ok ⟨closed.advance l, rfl⟩
  · split
    · split
      · exact .ok ⟨h.advance l, rfl⟩
      next e =>
        split
        · exact .error _ _
        · exact .ok ⟨((inside _).advance l).advance e, rfl⟩
    · exact .ok ⟨(inside _).advance l, rfl⟩

theorem Follows.stepPlain (hmode : s.mode = .plain) (l : Letter) (next : Option Letter) :
    SameFate (Follows.Steps e) (s.stepPlain l next) (t.stepPlain l next) := by
  have free : ∀ quote pos, s.mode ≠ .quoted quote pos := by simp [hmode]
  have hinteger : t.holdsInteger = s.holdsInteger := by
    simp [Scanner.holdsInteger, h.lexeme, h.gathered]
  unfold Scanner.stepPlain
  dsimp only
  rw [hinteger, h.gathered, h.sign, h.place]
  apply SameFate.ite
  · exact (h.flush free).bind fun u v ⟨huv, hgathered⟩ =>
      .ok ⟨(huv.withMode hgathered .lineComment).advance l, rfl⟩
  apply SameFate.ite
  · exact (h.flush free).bind fun u v ⟨huv, hgathered⟩ =>
      .ok ⟨((huv.withMode hgathered (.blockComment s.place)).advance l).advance (.char '*'), rfl⟩
  apply SameFate.ite
  · exact (h.flush free).bind fun u v ⟨huv, hgathered⟩ =>
      .ok ⟨(huv.withMode hgathered (.quoted l.shown s.place)).advance l, rfl⟩
  apply SameFate.ite
  · exact (h.flush free).bind fun u v ⟨huv, _⟩ => .ok ⟨(huv.breakLine rfl).advance l, rfl⟩
  apply SameFate.ite
  · exact (h.flush free).bind fun u v ⟨huv, _⟩ => .ok ⟨huv.advance l, rfl⟩
  apply SameFate.ite
  · exact (h.flush free).bind fun u v ⟨huv, _⟩ =>
      .ok ⟨(huv.push (.ofText l.shown.toString s.place)).advance l, rfl⟩
  apply SameFate.ite
  · exact .ok ⟨(h.gather free _).advance l, rfl⟩
  apply SameFate.ite
  · exact .ok ⟨(h.gather free _).advance l, rfl⟩
  apply SameFate.ite
  · refine (h.flushLexeme free).bind fun u v ⟨huv, _, _⟩ => ?_
    exact (huv.pushSign l.shown).bind fun u v huv => .ok ⟨huv.advance l, rfl⟩
  apply SameFate.ite
  · refine h.flushSign.bind fun u v ⟨huv, hsame, _⟩ => .ok ⟨(huv.gather ?_ _).advance l, rfl⟩
    simp [hsame, hmode]
  · exact .error _ _

theorem Follows.step (l : Letter) (next : Option Letter) :
    SameFate (Follows.Steps e) (s.step l next) (t.step l next) := by
  have unquoted : ∀ {mode}, s.mode = mode → (∀ quote pos, mode ≠ .quoted quote pos) →
      Follows e { s with mode := .plain } { t with mode := .plain } :=
    fun hmode hfree => ⟨h.line, h.place, rfl, h.gathered, fun _ => h.lexemePos (hmode ▸ hfree), h.sign,
      h.signPos, h.made⟩
  unfold Scanner.step
  rw [h.mode]
  cases hmode : s.mode with
  | plain => exact h.stepPlain hmode l next
  | lineComment =>
    dsimp only [ScanMode.moved]
    split
    · exact .ok ⟨((unquoted hmode nofun).breakLine h.place).advance l, rfl⟩
    · exact .ok ⟨h.advance l, rfl⟩
  | blockComment opened =>
    dsimp only [ScanMode.moved]
    split
    · exact .ok ⟨((unquoted hmode nofun).advance l).advance (.char '/'), rfl⟩
    · exact .ok ⟨h.advance l, rfl⟩
  | quoted quote opened => exact h.stepQuoted hmode l next

theorem Follows.ended (free : ∀ quote pos, s.mode ≠ .quoted quote pos) : SameFate (fun tokens tokens' =>
        tokens' = e.earlier.reverse ++ tokens.map (Token.moved e.move)) (do
        let s ← s.flush
        let s := s.breakLine s.place
        return (s.push (.eof s.place)).made.reverse) (do
        let s ← t.flush
        let s := s.breakLine s.place
        return (s.push (.eof s.place)).made.reverse) := by
  refine (h.flush free).bind fun u v ⟨huv, _⟩ => .ok ?_
  have broken := huv.breakLine huv.place
  simp [Scanner.push, broken.made, broken.place, Token.moved, Token.eof]

theorem Follows.finish : SameFate (fun tokens tokens' =>
        tokens' = e.earlier.reverse ++ tokens.map (Token.moved e.move)) s.finish t.finish := by
  unfold Scanner.finish
  rw [h.mode]
  cases hmode : s.mode with
  | quoted quote opened => exact .error _ _
  | blockComment opened => exact .error _ _
  | plain => exact h.ended (by simp [hmode])
  | lineComment => exact h.ended (by simp [hmode])

end

/-- A text comes to the same behind a line break, further down, as it comes to alone. -/
theorem Follows.run {s t : Scanner} (h : Follows e s t) (src : Source) : SameFate (fun tokens tokens' =>
        tokens' = e.earlier.reverse ++ tokens.map (Token.moved e.move)) (s.run src) (t.run src) := by
  match src with
  | [] => exact h.finish
  | l :: rest =>
    rw [run_cons, run_cons]
    refine (h.step l rest.head?).bind fun r r' ⟨hfollows, hused⟩ => ?_
    rw [hused]
    exact hfollows.run _
termination_by src.length
decreasing_by
  split
  · simp only [List.length_tail, List.length_cons]
    omega
  · simp

/-- A scanner at the beginning of a line, with nothing pending. -/
structure Rests (s : Scanner) : Prop where
  mode : s.mode = .plain
  gathered : s.gathered = []
  sign : s.sign = ""
  made : LineBegins s.made

theorem follows_start (ht : t.Rests) (file : String) (move : Position → Position)
    (hmove : ∀ p l, 0 < p.line → move (p.after l) = (move p).after l) (hplace : t.place = move (start file).place) :
    Follows ⟨move, t.made, hmove, ht.made⟩ (start file) t :=
  ⟨Int.one_pos, hplace, ht.mode, ht.gathered, fun _ hne => absurd rfl hne, ht.sign, fun hne => absurd rfl hne, rfl⟩

/-- A line break changes the tokens only. -/
theorem breakLine_eq (s : Scanner) (pos : Position) :
    s.breakLine pos = { s with made := (s.breakLine pos).made } := by
  unfold Scanner.breakLine
  split
  · rfl
  · split <;> rfl

theorem made_breakLine (s : Scanner) (mode : ScanMode) (pos : Position) :
    ({ s with mode }.breakLine pos).made = (s.breakLine pos).made := by
  unfold Scanner.breakLine
  dsimp only
  split
  · rfl
  · split <;> rfl

theorem lineBegins_breakLine (s : Scanner) (pos : Position) : LineBegins (s.breakLine pos).made := by
  have h := endsLine_breakLine s pos
  unfold EndsLine at h
  rwa [List.getLast?_reverse] at h

/-- Outside of a string, a step does not tell a newline behind its letter from the end of the text. -/
theorem step_newline (hmode : ∀ quote pos, s.mode ≠ .quoted quote pos) (l : Letter) :
    s.step l (some (.char '\n')) = s.step l none := by
  unfold Scanner.step
  cases h : s.mode with
  | quoted quote opened => exact absurd h (hmode quote opened)
  | plain =>
    have ahead : digitAhead (some (.char '\n')) = digitAhead none := by decide
    unfold Scanner.stepPlain
    rw [ahead]
    simp
  | lineComment => rfl
  | blockComment opened => simp

variable {tokens : List Token}

/-- At the end of a text that is accepted, a step does not tell a newline behind its letter from the end
of the text: an escape cannot be cut off there, for its string is still open. -/
theorem step_of_finish {l : Letter} {r : Scanner × Bool} (hr : s.step l none = .ok r) (ht : r.1.finish = .ok tokens) :
    s.step l (some (.char '\n')) = .ok r := by
  cases hmode : s.mode with
  | plain => rwa [step_newline (by simp [hmode])]
  | lineComment => rwa [step_newline (by simp [hmode])]
  | blockComment opened => rwa [step_newline (by simp [hmode])]
  | quoted quote opened =>
    unfold Scanner.step at hr ⊢
    rw [hmode] at hr ⊢
    unfold Scanner.stepQuoted at hr ⊢
    by_cases hquote : l.is quote
    · simpa only [hquote, if_true] using hr
    · by_cases hescape : l.is '\\'
      · simp only [hquote, hescape, if_true, Bool.false_eq_true, if_false] at hr
        cases hr
        have ended := (finish_eq_ok.mp ht).1
        rw [advance_eq] at ended
        simp [hmode] at ended
      · simpa only [hquote, hescape, Bool.false_eq_true, if_false] using hr

/-- In a line comment nothing is pending. -/
def Settled (s : Scanner) : Prop := s.mode = .lineComment → s.gathered = [] ∧ s.sign = ""

theorem Settled.step (hs : s.Settled) {l : Letter} {next : Option Letter} {r : Scanner × Bool}
    (hr : s.step l next = .ok r) : r.1.Settled := by
  by_cases hmode : s.mode = .lineComment
  · intro hcomment
    unfold Scanner.step at hr
    rw [hmode] at hr
    dsimp only at hr
    split at hr
    · cases hr
      have broken := (Stays.refl { s with mode := .plain }).breakLine s.place
      rw [advance_eq] at hcomment
      exact nomatch broken.mode.symm.trans hcomment
    · cases hr
      rw [advance_eq]
      exact hs hmode
  · intro hcomment
    exact (steps_step hr).settled hcomment hmode

/-- The scanner behind a text that is accepted and the newline behind that. -/
structure Ends (s : Scanner) (src : Source) (tokens : List Token) (t : Scanner) : Prop where
  rests : t.Rests
  place : t.place = s.place.behind (src ++ [Letter.char '\n'])
  made : ∃ pos, tokens = t.made.reverse ++ [Token.eof pos]
  goesOn : ∀ more, s.run (src ++ Letter.char '\n' :: more) = t.run more

theorem ends_newline {u : Scanner}
    (hstep : ∀ next, s.step (.char '\n') next = .ok ((u.breakLine u.place).advance (.char '\n'), false))
    (hplace : u.place = s.place) (hmode : u.mode = .plain) (hgathered : u.gathered = [])
    (hsign : u.sign = "") (htokens : ∃ pos, tokens = (u.breakLine u.place).made.reverse ++ [Token.eof pos]) :
    Ends s [] tokens ((u.breakLine u.place).advance (.char '\n')) := by
  have hends : (u.breakLine u.place).advance (.char '\n') =
      { u with
        place := u.place.after (.char '\n')
        lineSoFar := ((u.breakLine u.place).advance (.char '\n')).lineSoFar
        made := (u.breakLine u.place).made } := by
    rw [advance_eq, breakLine_eq]
  refine ⟨?_, ?_, ?_, fun more => ?_⟩
  · rw [hends]
    exact ⟨hmode, hgathered, hsign, lineBegins_breakLine u u.place⟩
  · rw [hends, ← hplace]
    rfl
  · rw [hends]
    exact htokens
  · rw [List.nil_append, run_cons, hstep]
    rfl

/-- The end of a text and a newline end what is pending alike. -/
theorem exists_ends_nil (hs : s.Settled) (ht : s.finish = .ok tokens) : ∃ t, Ends s [] tokens t := by
  obtain ⟨hmode, u, hu, htokens⟩ := finish_eq_ok.mp ht
  have ended : ∃ pos, tokens = (u.breakLine u.place).made.reverse ++ [Token.eof pos] :=
    ⟨(u.breakLine u.place).place, by simp [htokens, Scanner.push]⟩
  rcases hmode with hmode | hmode
  · obtain ⟨hstays, hgathered, hsign⟩ := stays_flush hu
    refine ⟨_, ends_newline (fun next => ?_) hstays.place (hstays.mode.trans hmode) hgathered hsign ended⟩
    unfold Scanner.step
    rw [hmode, hstays.place]
    unfold Scanner.stepPlain
    rw [hu]
    simp [Letter.shown, bind, Except.bind, pure, Except.pure]
  · obtain ⟨hgathered, hsign⟩ := hs hmode
    have hflush : s.flush = .ok s := by
      simp [Scanner.flush, Scanner.flushLexeme, Scanner.flushSign, hgathered, hsign, bind, Except.bind]
    cases hflush.symm.trans hu
    refine ⟨_, ends_newline (u := { s with mode := .plain }) (fun next => ?_) rfl rfl hgathered hsign ?_⟩
    · unfold Scanner.step
      rw [hmode]
      simp [Letter.is]
    · rw [made_breakLine]
      exact ended

/-- A text that is accepted comes to rest at the newline behind it. -/
theorem exists_ends {s : Scanner} {src : Source} (hs : s.Settled)
    (ht : s.run src = .ok tokens) : ∃ t, Ends s src tokens t := by
  match src with
  | [] => exact exists_ends_nil hs ht
  | l :: rest =>
    rw [run_cons] at ht
    obtain ⟨⟨u, used⟩, hstep, ht⟩ := bind_ok ht
    have hsettled : u.Settled := hs.step hstep
    have hahead : ∀ more : Source, s.step l (rest ++ Letter.char '\n' :: more).head? = .ok (u, used) := by
      intro more
      cases rest with
      | nil =>
        cases used with
        | false => exact step_of_finish hstep ht
        | true => exact step_of_finish hstep ht
      | cons m rest => exact hstep
    rcases (steps_step hstep).place with ⟨hused, hplace⟩ | ⟨m, hnext, hused, hplace⟩
    · cases hused
      obtain ⟨t, hends⟩ := exists_ends hsettled ht
      refine ⟨t, hends.rests, ?_, hends.made, fun more => ?_⟩
      · rw [hends.place, hplace]
        rfl
      · rw [List.cons_append, run_cons, hahead]
        exact hends.goesOn more
    · cases hused
      obtain ⟨rest, rfl⟩ : ∃ more, rest = m :: more := List.head?_eq_some_iff.mp hnext
      obtain ⟨t, hends⟩ := exists_ends hsettled ht
      refine ⟨t, hends.rests, ?_, hends.made, fun more => ?_⟩
      · rw [hends.place, hplace]
        rfl
      · rw [List.cons_append, run_cons, hahead]
        exact hends.goesOn more
termination_by src.length

end Scanner

namespace Source

/-- The tokens of a text that stands behind another one, which is accepted, and a newline. Any move will
do that takes the place the scanner starts at to the place it is scanned at. -/
theorem sameFate_tokens_append {a : Source} {file : String} {ta : List Token}
    (ha : a.tokens file = .ok ta) (b : Source) {move : Position → Position}
    (hmove : ∀ p l, 0 < p.line → move (p.after l) = (move p).after l) (hplace : move ⟨file, 1, 1, 0⟩ =
      ⟨file, 1 + (a.count (.char '\n') + 1), 1, 0 + (a.byteSize + 1)⟩) : ∃ earlier pos, ta = earlier ++ [Token.eof pos] ∧
      SameFate (fun tb tokens => tokens = earlier ++ tb.map (Token.moved move))
        (b.tokens file) ((a ++ Letter.char '\n' :: b).tokens file) := by
  obtain ⟨t, hends⟩ := Scanner.exists_ends (s := Scanner.start file) nofun ha
  obtain ⟨pos, hmade⟩ := hends.made
  refine ⟨t.made.reverse, pos, hmade, ?_⟩
  have hstart : t.place = move (Scanner.start file).place := by
    rw [hends.place, Position.behind_newline]
    exact hplace.symm
  unfold Source.tokens
  rw [hends.goesOn]
  exact (Scanner.follows_start hends.rests file move hmove hstart).run b

/-- Scanning is compositional: behind a text that is accepted and a newline, a text comes to the tokens
it comes to alone, further down by the lines and the bytes in front of it. -/
theorem tokens_append_newline (a b : Source) (file : String) (ta : List Token)
    (ha : a.tokens file = .ok ta) :
    ((∃ tokens, (a ++ .char '\n' :: b).tokens file = .ok tokens) ↔ ∃ tb, b.tokens file = .ok tb) ∧
    ∀ tb, b.tokens file = .ok tb → (∃ pos, ta = ta.dropLast ++ [.eof pos]) ∧
      (a ++ .char '\n' :: b).tokens file = .ok (ta.dropLast ++
        tb.map (Token.moved (Position.down (a.count (.char '\n') + 1) (a.byteSize + 1)))) := by
  obtain ⟨earlier, pos, rfl, hfate⟩ :=
    sameFate_tokens_append ha b (fun p l _ => Position.down_after _ _ p l) rfl
  rw [List.dropLast_concat]
  generalize b.tokens file = x at hfate
  generalize (a ++ Letter.char '\n' :: b).tokens file = y at hfate
  cases hfate with
  | ok h =>
    subst h
    refine ⟨by simp, fun tb htb => ⟨⟨pos, rfl⟩, ?_⟩⟩
    cases htb
    rfl
  | error e e' => simp

/-- A comment and a pending operator end at the newline between two texts. -/
theorem tokens_append_newline_comment :
    (ofString "x = -1 // one").tokens "f" = .ok
      [.ofText "x" ⟨"f", 1, 1, 0⟩, .ofText "=" ⟨"f", 1, 3, 2⟩, .ofText "-1" ⟨"f", 1, 5, 4⟩,
        .newline ⟨"f", 1, 14, 13⟩, .eof ⟨"f", 1, 14, 13⟩] ∧
    (ofString "x = -1 // one" ++ .char '\n' :: ofString "\ny +").tokens "f" = .ok
      [.ofText "x" ⟨"f", 1, 1, 0⟩, .ofText "=" ⟨"f", 1, 3, 2⟩, .ofText "-1" ⟨"f", 1, 5, 4⟩,
        .newline ⟨"f", 1, 14, 13⟩, .ofText "y" ⟨"f", 3, 1, 15⟩, .ofText "+" ⟨"f", 3, 3, 17⟩,
        .newline ⟨"f", 3, 4, 18⟩, .eof ⟨"f", 3, 4, 18⟩] := by
  have ha : (ofString "x = -1 // one").tokens "f" = .ok
      [.ofText "x" ⟨"f", 1, 1, 0⟩, .ofText "=" ⟨"f", 1, 3, 2⟩, .ofText "-1" ⟨"f", 1, 5, 4⟩,
        .newline ⟨"f", 1, 14, 13⟩, .eof ⟨"f", 1, 14, 13⟩] := by decide +kernel
  have hb : (ofString "\ny +").tokens "f" = .ok
      [.ofText "y" ⟨"f", 2, 1, 1⟩, .ofText "+" ⟨"f", 2, 3, 3⟩, .newline ⟨"f", 2, 4, 4⟩,
        .eof ⟨"f", 2, 4, 4⟩] := by decide +kernel
  have hjoined := ((tokens_append_newline _ (ofString "\ny +") "f" _ ha).2 _ hb).2
  exact ⟨ha, hjoined⟩

end Source

end Frontend
